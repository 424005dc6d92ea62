import Scene.Proofs.Dict
import Scene.Proofs.Layout.Names

/-! What a layout knows its variables by. A name gets its variable where it is mentioned first, with
the bounds of that mention, and every later mention means the same variable: so no name is lost,
none has two values, and a constraint acts on the variables whose names it was given. -/
namespace Scene
variable {α : Type}

namespace Solver

theorem find?_eq_some {s : Solver α} {name : String} {h : Handle} (hfind : s.find? name = some h) :
    h.solver = s.number ∧ ∃ v, s.vars[h.index]? = some v ∧ v.name = name := by
  obtain ⟨i, hi, rfl⟩ := Option.map_eq_some_iff.mp hfind
  obtain ⟨hlt, hname, -⟩ := List.findIdx?_eq_some_iff_getElem.mp hi
  exact ⟨rfl, s.vars[i], List.getElem?_eq_getElem hlt, by simpa using hname⟩

def nameOf? (s : Solver α) (h : Handle) : Option String := (s.lookup? h).map (·.name)

structure Posed (α : Type) where
  kind : Kind
  terms : List (Option String × α)
  constant : α
  strength : α

def Constraint.posed (s : Solver α) (c : Constraint α) : Posed α :=
  ⟨c.kind, c.terms.map fun t => (s.nameOf? t.1, t.2), c.constant, c.strength⟩

end Solver

namespace Layout
open Solver

/-- One mention of a name: with a value if it moves the variable, and with the bounds of the
variable if it is the first. -/
structure Mention (α : Type) where
  name : String
  value? : Option α
  min : α
  max : α

section
variable [Scalar α]

def Mention.plain (name : String) : Mention α := ⟨name, none, Scalar.negInf, Scalar.posInf⟩

def builtIn : List (Mention α) :=
  [.plain "x", .plain "y", ⟨"width", none, Scalar.zero, Scalar.posInf⟩,
    ⟨"height", none, Scalar.zero, Scalar.posInf⟩]

def Rule.mentions : Rule α → List (Mention α)
  | .fit _ => [.plain "width", .plain "height"]
  | .declare name value min max =>
    [⟨name, some value, min.getD Scalar.negInf, max.getD Scalar.posInf⟩]
  | .fixed name _ _ => [.plain name]
  | .linear _ terms _ _ => terms.map fun t => .plain t.1

def Rule.names : Rule α → List String
  | .fit _ => ["width", "height"]
  | .declare name _ _ _ | .fixed name _ _ => [name]
  | .linear _ terms _ _ => terms.map (·.1)

theorem Rule.map_name_mentions (rule : Rule α) : rule.mentions.map (·.name) = rule.names := by
  cases rule with
  | linear kind terms constant strength => exact List.map_map
  | _ => rfl

theorem mem_map_name_flatMap {rules : List (Rule α)} {name : String} :
    name ∈ (rules.flatMap Rule.mentions).map (·.name) ↔ ∃ rule ∈ rules, name ∈ rule.names := by
  simp only [List.map_flatMap, Rule.map_name_mentions, List.mem_flatMap]

theorem mem_map_name_mentions {rules : List (Rule α)} {name : String} :
    name ∈ (builtIn ++ rules.flatMap Rule.mentions).map Mention.name ↔
      name ∈ ["x", "y", "width", "height"] ∨ ∃ rule ∈ rules, name ∈ rule.names := by
  rw [List.map_append, List.mem_append, mem_map_name_flatMap]
  rfl

def Rule.posed (enclosing : Option (Container α)) (fallback : α × α) : Rule α → List (Posed α)
  | .fit own =>
    let size := pickSize own enclosing fallback
    [⟨.fixed, [(some "width", Scalar.one)], size.1, Scalar.one⟩,
      ⟨.fixed, [(some "height", Scalar.one)], size.2, Scalar.one⟩]
  | .declare .. => []
  | .fixed name value strength => [⟨.fixed, [(some name, Scalar.one)], value, strength⟩]
  | .linear kind terms constant strength =>
    [⟨kind, terms.map fun t => (some t.1, t.2), constant, strength⟩]

/-- The variable that mentions leave under a name: the first one gave it its bounds, and the last
value that one of them gave, or zero, forced into the bounds is its value. -/
structure Mentioned (ms : List (Mention α)) (v : Variable α) : Prop where
  bounds : ∃ m, ms.find? (·.name == v.name) = some m ∧ v.min = m.min ∧ v.max = m.max
  value_eq : v.value = v.clamp
    (((ms.filter (·.name == v.name)).filterMap (·.value?)).getLast?.getD Scalar.zero)

namespace Mentioned
variable {ms : List (Mention α)} {m : Mention α} {v : Variable α}

/-- A mention of another name, or without a value, changes nothing. -/
theorem concat (h : Mentioned ms v) (hm : m.name ≠ v.name ∨ m.value? = none) :
    Mentioned (ms ++ [m]) v := by
  obtain ⟨⟨m₀, hfirst, hbounds⟩, hvalue⟩ := h
  refine ⟨⟨m₀, ?_, hbounds⟩, ?_⟩
  · rw [List.find?_append, hfirst, Option.some_or]
  · rw [hvalue, List.filter_append, List.filterMap_append]
    rcases hm with hne | hnone
    · simp [hne]
    · cases hsame : m.name == v.name <;> simp [hsame, hnone]

theorem setValue (h : Mentioned ms v) (hm : m.name = v.name) {x : α} (hx : m.value? = some x) :
    Mentioned (ms ++ [m]) (v.setValue x) := by
  obtain ⟨⟨m₀, hfirst, hbounds⟩, -⟩ := h
  refine ⟨⟨m₀, ?_, hbounds⟩, ?_⟩
  · change (ms ++ [m]).find? (·.name == v.name) = some m₀
    rw [List.find?_append, hfirst, Option.some_or]
  · change v.clamp x = v.clamp (((((ms ++ [m]).filter (·.name == v.name)).filterMap
      (·.value?)).getLast?).getD Scalar.zero)
    simp [hm, hx]

theorem create (hnew : ∀ m' ∈ ms, m'.name ≠ m.name) :
    Mentioned (ms ++ [m]) (.create m.name (m.value?.getD Scalar.zero) m.min m.max) := by
  have hfilter : ms.filter (·.name == m.name) = [] := by simpa using hnew
  have hfind : ms.find? (·.name == m.name) = none := by simpa using hnew
  refine ⟨⟨m, ?_, rfl, rfl⟩, ?_⟩
  · simp [Variable.create, List.find?_append, hfind]
  · simp only [Variable.create, Variable.clamp, List.filter_append, hfilter]
    cases hvalue : m.value? <;> simp [hvalue]

end Mentioned

structure Knows (ms : List (Mention α)) (s : Solver α) : Prop where
  names (n : String) : n ∈ variableNames s ↔ n ∈ ms.map (·.name)
  vars (v : Variable α) (hv : v ∈ s.vars) : Mentioned ms v

namespace Knows
variable {ms : List (Mention α)} {m : Mention α} {s : Solver α}

/-- The first mention of a name makes a variable. -/
theorem push (h : Knows ms s) (hnew : m.name ∉ variableNames s) :
    Knows (ms ++ [m])
      (s.pushVariable (.create m.name (m.value?.getD Scalar.zero) m.min m.max)).2 where
  names n := by
    have hnames : variableNames (s.pushVariable
        (.create m.name (m.value?.getD Scalar.zero) m.min m.max)).2 =
          variableNames s ++ [m.name] := by
      simp [variableNames, pushVariable, Variable.create]
    rw [hnames, List.map_append, List.mem_append, List.mem_append, h.names]
    rfl
  vars v hv := by
    rcases List.mem_append.mp hv with hv | hv
    · have hne : m.name ≠ v.name := fun heq => hnew (heq ▸ List.mem_map_of_mem hv)
      exact (h.vars v hv).concat (.inl hne)
    · obtain rfl := List.mem_singleton.mp hv
      exact .create fun m' hm' heq => hnew ((h.names m.name).mpr (heq ▸ List.mem_map_of_mem hm'))

theorem names_concat (h : Knows ms s) (hold : m.name ∈ variableNames s) (n : String) :
    n ∈ variableNames s ↔ n ∈ (ms ++ [m]).map (·.name) := by
  rw [h.names, List.map_append, List.mem_append]
  refine ⟨.inl, fun hn => hn.elim id fun hlast => ?_⟩
  exact (h.names n).mp (List.mem_singleton.mp hlast ▸ hold)

/-- A later mention without a value leaves all variables as they are. -/
theorem again (h : Knows ms s) (hold : m.name ∈ variableNames s) (hm : m.value? = none) :
    Knows (ms ++ [m]) s :=
  ⟨h.names_concat hold, fun v hv => (h.vars v hv).concat (.inr hm)⟩

/-- A later mention with a value moves the variable of the name, and no other has that name. -/
theorem move (h : Knows ms s) (hw : (variableNames s).Nodup) {x : Handle}
    (hfind : s.find? m.name = some x) {value : α} (hm : m.value? = some value) :
    Knows (ms ++ [m]) { s with vars := s.vars.modify x.index (·.setValue value) } where
  names n := by
    obtain ⟨-, v, hv, hname⟩ := find?_eq_some hfind
    have hold : m.name ∈ variableNames s := hname ▸ List.mem_map_of_mem (List.mem_of_getElem? hv)
    have hsame := SameButValues.modify s.vars x.index (·.setValue value)
      fun v => fixedPart_setValue v value
    rw [variableNames, hsame.names]
    exact h.names_concat hold n
  vars v hv := by
    obtain ⟨-, u, hu, hname⟩ := find?_eq_some hfind
    obtain ⟨j, hj⟩ := List.mem_iff_getElem?.mp hv
    rw [List.getElem?_modify, Option.map_eq_map, Option.map_eq_some_iff] at hj
    obtain ⟨w, hw', rfl⟩ := hj
    have hmentioned := h.vars w (List.mem_of_getElem? hw')
    by_cases hjx : x.index = j
    · subst hjx
      obtain rfl : w = u := Option.some.inj (hw'.symm.trans hu)
      rw [if_pos rfl]
      exact hmentioned.setValue hname.symm hm
    · rw [if_neg hjx]
      refine hmentioned.concat (.inl fun heq => hjx ?_)
      have hnames : (variableNames s)[x.index]? = (variableNames s)[j]? := by
        rw [variableNames, List.getElem?_map, List.getElem?_map, hu, hw', Option.map_some,
          Option.map_some, hname, heq]
      have hlt : x.index < (variableNames s).length := by
        rw [variableNames, List.length_map]
        exact (List.getElem?_eq_some_iff.mp hu).1
      exact (List.getElem?_inj hlt hw).mp hnames

end Knows

theorem Knows.findOrCreate {ms : List (Mention α)} {s : Solver α} (h : Knows ms s) (name : String) :
    Knows (ms ++ [.plain name]) (findOrCreate s name).2 := by
  unfold Layout.findOrCreate
  split
  · next x hfind =>
    obtain ⟨-, v, hv, rfl⟩ := find?_eq_some hfind
    exact h.again (List.mem_map_of_mem (List.mem_of_getElem? hv)) rfl
  · next hfind => exact h.push (find?_eq_none.mp hfind)

theorem Knows.findAll {ms : List (Mention α)} {s : Solver α} (h : Knows ms s)
    (names : List String) : Knows (ms ++ names.map .plain) (findAll s names).2 := by
  induction names generalizing s ms with
  | nil => simpa [Layout.findAll] using h
  | cons name names ih =>
    have hrest := ih (h.findOrCreate name)
    rwa [List.append_assoc] at hrest

end

/-! Handles and what they are called. -/

/-- The same solver, with the same names in the same places, but perhaps more behind them. -/
structure Extends (s s' : Solver α) : Prop where
  number_eq : s'.number = s.number
  names : variableNames s <+: variableNames s'
  constraints_eq : s'.constraints = s.constraints

theorem nameOf?_eq (s : Solver α) (x : Handle) :
    s.nameOf? x = if s.owns x then (variableNames s)[x.index]? else none := by
  rw [nameOf?, lookup?, variableNames, List.getElem?_map]
  split <;> rfl

theorem owns_of_nameOf? {s : Solver α} {x : Handle} {name : String}
    (h : s.nameOf? x = some name) : s.owns x = true := by
  by_contra hout
  rw [nameOf?_eq, if_neg hout] at h
  cases h

/-- What one handle means, no other does. -/
theorem eq_of_nameOf? {s : Solver α} (hnames : (variableNames s).Nodup) {x y : Handle}
    {name : String} (hx : s.nameOf? x = some name) (hy : s.nameOf? y = some name) : x = y := by
  have hxo := owns_of_nameOf? hx
  have hyo := owns_of_nameOf? hy
  rw [nameOf?_eq, if_pos hxo] at hx
  rw [nameOf?_eq, if_pos hyo] at hy
  have hindex : x.index = y.index :=
    (List.getElem?_inj (List.getElem?_eq_some_iff.mp hx).1 hnames).mp (hx.trans hy.symm)
  have hsolver {z : Handle} (hz : s.owns z = true) : z.solver = s.number :=
    of_decide_eq_true (Bool.and_eq_true_iff.mp hz).1
  cases x
  cases y
  rw [Handle.mk.injEq]
  exact ⟨(hsolver hxo).trans (hsolver hyo).symm, hindex⟩

namespace Extends
variable {s s' s'' : Solver α}

theorem refl (s : Solver α) : Extends s s := ⟨rfl, List.prefix_rfl, rfl⟩

theorem trans (h : Extends s s') (h' : Extends s' s'') : Extends s s'' :=
  ⟨h'.number_eq.trans h.number_eq, h.names.trans h'.names,
    h'.constraints_eq.trans h.constraints_eq⟩

theorem nameOf?_eq (h : Extends s s') {x : Handle} (hx : s.owns x = true) :
    s'.nameOf? x = s.nameOf? x := by
  have hparts : x.solver = s.number ∧ x.index < (variableNames s).length := by
    simpa [owns, variableNames] using hx
  have hx' : s'.owns x = true := by
    have hlength := h.names.length_le
    simp only [owns, h.number_eq, Bool.and_eq_true, decide_eq_true_eq]
    refine ⟨hparts.1, ?_⟩
    have : (variableNames s').length = s'.vars.length := List.length_map ..
    omega
  obtain ⟨rest, hrest⟩ := h.names
  rw [Layout.nameOf?_eq, Layout.nameOf?_eq, if_pos hx, if_pos hx', ← hrest,
    List.getElem?_append_left hparts.2]

theorem posed_eq (h : Extends s s') {c : Constraint α} (hc : ∀ t ∈ c.terms, s.owns t.1 = true) :
    c.posed s' = c.posed s := by
  have hterms : (c.terms.map fun t => (s'.nameOf? t.1, t.2)) =
      c.terms.map fun t => (s.nameOf? t.1, t.2) :=
    List.map_congr_left fun t ht => by rw [h.nameOf?_eq (hc t ht)]
  rw [Constraint.posed, Constraint.posed, hterms]

theorem map_posed (h : Extends s s') (hw : s.WellFormed) :
    s'.constraints.map (·.posed s') = s.constraints.map (·.posed s) := by
  rw [h.constraints_eq]
  exact List.map_congr_left fun c hc => h.posed_eq (hw.owned c hc)

end Extends

variable [Scalar α]

theorem findOrCreate_extends (s : Solver α) (name : String) :
    Extends s (findOrCreate s name).2 := by
  have hnames := (variableNames_kept _).findOrCreate (List.prefix_refl (variableNames s)) name
  unfold findOrCreate at hnames ⊢
  split at hnames
  · exact ⟨rfl, hnames, rfl⟩
  · exact ⟨rfl, hnames, rfl⟩

theorem findAll_extends (s : Solver α) (names : List String) : Extends s (findAll s names).2 := by
  induction names generalizing s with
  | nil => exact .refl s
  | cons name names ih => exact (findOrCreate_extends s name).trans (ih _)

theorem nameOf?_findOrCreate (s : Solver α) (name : String) :
    (findOrCreate s name).2.nameOf? (findOrCreate s name).1 = some name := by
  unfold findOrCreate
  split
  · next x hfind =>
    obtain ⟨hnumber, v, hv, hname⟩ := find?_eq_some hfind
    have howns : s.owns x = true := by
      simpa [owns, hnumber] using (List.getElem?_eq_some_iff.mp hv).1
    rw [nameOf?, lookup?, if_pos howns, hv, Option.map_some, hname]
  · simp [nameOf?, lookup?, owns, createVariable, pushVariable, nextHandle, Variable.create]

/-- Handles of names are called so, also when more variables were made after theirs. -/
theorem map_nameOf?_findAll (s : Solver α) (names : List String) :
    (findAll s names).1.map (findAll s names).2.nameOf? = names.map some := by
  induction names generalizing s with
  | nil => rfl
  | cons name names ih =>
    have hfirst := nameOf?_findOrCreate s name
    have hrest := findAll_extends (findOrCreate s name).2 names
    have hkept := (hrest.nameOf?_eq (owns_of_nameOf? hfirst)).trans hfirst
    rw [findAll, List.map_cons, List.map_cons, ← ih (findOrCreate s name).2, ← hkept]

/-! What one rule after another adds. -/

/-- A constraint over handles of names is called as they are. -/
theorem posed_make? {s : Solver α} {kind : Kind} {handles : List Handle}
    {terms : List (String × α)} {constant strength : α} {c : Constraint α}
    (hc : Constraint.make? kind handles (terms.map (·.2)) constant strength = .ok c)
    (hnames : handles.map s.nameOf? = (terms.map (·.1)).map some) :
    c.posed s = ⟨kind, terms.map fun t => (some t.1, t.2), constant, strength⟩ := by
  have hterms : ((handles.zip (terms.map (·.2))).map fun t => (s.nameOf? t.1, t.2)) =
      terms.map fun t => (some t.1, t.2) := by
    have hzip : ((handles.zip (terms.map (·.2))).map fun t => (s.nameOf? t.1, t.2)) =
        (handles.map s.nameOf?).zip (terms.map (·.2)) := by
      rw [List.zip_map_left]
      rfl
    rw [hzip, hnames, List.map_map, List.zip_map']
    rfl
  rw [Constraint.make?_eq_ok hc, Constraint.posed, hterms]

namespace System

/-- A system that some mentions and then some constraints made of another. -/
structure Adds (ms : List (Mention α)) (ps : List (Posed α)) (s s' : System α) : Prop where
  wellFormed : s'.solver.WellFormed
  knows {before : List (Mention α)} (h : Knows before s.solver) : Knows (before ++ ms) s'.solver
  posed : s'.solver.constraints.map (·.posed s'.solver) =
    s.solver.constraints.map (·.posed s.solver) ++ ps
  sorted (h : Dict.Sorted s.names) : Dict.Sorted s'.names
  keys (n : String) : n ∈ Dict.keys s'.names ↔ n ∈ Dict.keys s.names ∨ n ∈ ms.map (·.name)

theorem Adds.trans {ms ms' : List (Mention α)} {ps ps' : List (Posed α)} {s s' s'' : System α}
    (h : Adds ms ps s s') (h' : Adds ms' ps' s' s'') : Adds (ms ++ ms') (ps ++ ps') s s'' where
  wellFormed := h'.wellFormed
  knows hbefore := by
    rw [← List.append_assoc]
    exact h'.knows (h.knows hbefore)
  posed := by rw [h'.posed, h.posed, List.append_assoc]
  sorted hs := h'.sorted (h.sorted hs)
  keys n := by rw [h'.keys, h.keys, List.map_append, List.mem_append, or_assoc]

theorem Adds.refl {s : System α} (hw : s.solver.WellFormed) : Adds [] [] s s where
  wellFormed := hw
  knows h := by rwa [List.append_nil]
  posed := (List.append_nil _).symm
  sorted := id
  keys n := by simp

omit [Scalar α] in
theorem names_foldl_mention (s : System α) (terms : List (String × α)) :
    (terms.foldl (fun s t => s.mention t.1) s).names =
      Dict.overlay s.names (terms.map fun t => (t.1, ())) := by
  induction terms generalizing s with
  | nil => rfl
  | cons t terms ih => exact ih (s.mention t.1)

/-- A constraint over names that are found or made. -/
theorem Adds.constraint {s s' : System α} (hw : s.solver.WellFormed) {solver : Solver α}
    {kind : Kind} {handles : List Handle} (terms : List (String × α)) {constant strength : α}
    {c : Constraint α} (hfound : findAll s.solver (terms.map (·.1)) = (handles, solver))
    (hmake : Constraint.make? kind handles (terms.map (·.2)) constant strength = .ok c)
    (hadd : solver.addConstraint? c = .ok s'.solver)
    (hnames : s'.names = Dict.overlay s.names (terms.map fun t => (t.1, ()))) :
    Adds (terms.map fun t => .plain t.1)
      [⟨kind, terms.map fun t => (some t.1, t.2), constant, strength⟩] s s' where
  wellFormed := by
    have hsolver : solver = (findAll s.solver (terms.map (·.1))).2 := by rw [hfound]
    exact WellFormed.addConstraint (hsolver ▸ wellFormed_kept.findAll hw _) hadd
  knows hbefore := by
    have hknows := hbefore.findAll (terms.map (·.1))
    rw [hfound, List.map_map] at hknows
    rw [(addConstraint?_eq_ok hadd).1]
    exact ⟨hknows.names, hknows.vars⟩
  posed := by
    have hextends := findAll_extends s.solver (terms.map (·.1))
    have hcalled := map_nameOf?_findAll s.solver (terms.map (·.1))
    rw [hfound] at hextends hcalled
    have hposed (d : Constraint α) : d.posed s'.solver = d.posed solver := by
      rw [(addConstraint?_eq_ok hadd).1]
      rfl
    have hlast := posed_make? hmake hcalled
    simp only [hposed]
    rw [(addConstraint?_eq_ok hadd).1, List.map_append, hextends.map_posed hw,
      List.map_singleton, hlast]
  sorted hs := hnames ▸ hs.overlay _
  keys n := by
    rw [hnames, Dict.mem_keys_overlay, List.map_map, List.map_map]
    rfl

theorem Adds.pin {s s' : System α} (hw : s.solver.WellFormed) {name : String} {value strength : α}
    (h : s.pin name value strength = .ok s') :
    Adds [.plain name] [⟨.fixed, [(some name, Scalar.one)], value, strength⟩] s s' := by
  simp only [System.pin, bind_eq_ok] at h
  obtain ⟨c, hmake, solver, hadd, h⟩ := h
  cases h
  exact Adds.constraint hw [(name, Scalar.one)] rfl hmake hadd rfl

/-- A mention without a constraint. -/
theorem Adds.mention {s s' : System α} {m : Mention α} (hw : s.solver.WellFormed)
    (hw' : s'.solver.WellFormed) (hextends : Extends s.solver s'.solver)
    (hknows : ∀ before, Knows before s.solver → Knows (before ++ [m]) s'.solver)
    (hnames : s'.names = Dict.insert s.names m.name ()) : Adds [m] [] s s' where
  wellFormed := hw'
  knows hbefore := hknows _ hbefore
  posed := by rw [hextends.map_posed hw, List.append_nil]
  sorted hs := hnames ▸ hs.insert m.name ()
  keys n := by
    rw [hnames, Dict.mem_keys_insert]
    simp

theorem Adds.declare {s s' : System α} (hw : s.solver.WellFormed) {name : String} {value : α}
    {min max : Option α} (h : s.declare name value min max = .ok s') :
    Adds [⟨name, some value, min.getD Scalar.negInf, max.getD Scalar.posInf⟩] [] s s' := by
  have hw' := wellFormed_kept.declare hw h
  have hnames := (variableNames_kept _).declare (List.prefix_refl (variableNames s.solver)) h
  cases hfind : s.solver.find? name with
  | some x =>
    simp only [System.declare, hfind, bind_eq_ok] at h
    obtain ⟨solver, hset, h⟩ := h
    cases h
    obtain rfl := setValue?_eq_ok hset
    exact .mention hw hw' ⟨rfl, hnames, rfl⟩ (fun _ hbefore => hbefore.move hw.names hfind rfl) rfl
  | none =>
    simp only [System.declare, hfind, bind_eq_ok] at h
    obtain ⟨r, hr, solver, hsolver, h⟩ := h
    cases hsolver
    cases h
    obtain rfl := createBounded?_eq_ok hr
    exact .mention hw hw' ⟨rfl, hnames, rfl⟩
      (fun _ hbefore => hbefore.push (find?_eq_none.mp hfind)) rfl

theorem Adds.rule (enclosing : Option (Container α)) (fallback : α × α) {s s' : System α}
    (hw : s.solver.WellFormed) {rule : Rule α} (h : s.add enclosing fallback rule = .ok s') :
    Adds rule.mentions (rule.posed enclosing fallback) s s' := by
  cases rule with
  | fit own =>
    simp only [System.add, bind_eq_ok] at h
    obtain ⟨m, hwidth, hheight⟩ := h
    have hfirst := Adds.pin hw hwidth
    exact hfirst.trans (.pin hfirst.wellFormed hheight)
  | declare name value min max => exact .declare hw h
  | fixed name value strength => exact .pin hw h
  | linear kind terms constant strength =>
    simp only [System.add, bind_eq_ok] at h
    obtain ⟨c, hmake, solver, hadd, h⟩ := h
    cases h
    exact .constraint hw terms rfl hmake hadd (names_foldl_mention s terms)

theorem adds_ofRules {rules : List (Rule α)} {enclosing : Option (Container α)}
    {settings : Settings.Resolving α} {s : System α}
    (h : ofRules rules enclosing settings = .ok s) :
    Adds (rules.flatMap Rule.mentions) (rules.flatMap (Rule.posed enclosing settings.container))
      (.start settings.solving) s := by
  have hstep (before : List (Rule α)) (b : System α) (rule : Rule α) (b' : System α)
      (hb : Adds (before.flatMap Rule.mentions)
        (before.flatMap (Rule.posed enclosing settings.container)) (.start settings.solving) b)
      (hadd : b.add enclosing settings.container rule = .ok b') :
      Adds ((before ++ [rule]).flatMap Rule.mentions)
        ((before ++ [rule]).flatMap (Rule.posed enclosing settings.container))
        (.start settings.solving) b' := by
    simp only [List.flatMap_append, List.flatMap_singleton]
    exact hb.trans (.rule enclosing settings.container hb.wellFormed hadd)
  have hstart : Adds (List.flatMap Rule.mentions ([] : List (Rule α)))
      (List.flatMap (Rule.posed enclosing settings.container) []) (.start settings.solving)
      (.start settings.solving) := .refl (start_wellFormed settings.solving)
  exact foldlM_tracks (fun before s => Adds (before.flatMap Rule.mentions)
    (before.flatMap (Rule.posed enclosing settings.container)) (.start settings.solving) s)
    hstep rules hstart h

theorem knows_start (settings : Settings.Solving α) :
    Knows builtIn (start settings).solver where
  names n := Iff.rfl
  vars v hv := by
    simp only [start, create, createVariable, pushVariable, List.nil_append, List.cons_append,
      List.mem_cons, List.not_mem_nil, or_false] at hv
    rcases hv with rfl | rfl | rfl | rfl
    all_goals exact ⟨⟨_, rfl, rfl, rfl⟩, rfl⟩

end System

/-- A layout solution names exactly what was mentioned. -/
theorem solution_names_mentioned (backend : Backend α) (rules : List (Rule α))
    (enclosing : Option (Container α)) (settings : Settings.Resolving α) (o : Outcome α)
    (h : solve backend rules enclosing settings = .ok o) :
    (∀ name, name ∈ o.solution.constrained ↔ ∃ rule ∈ rules, name ∈ rule.names) ∧
      (∀ name, name ∈ Dict.keys o.solution.values ↔
        name ∈ o.solution.constrained ∨ name ∈ ["x", "y", "width", "height"]) ∧
      o.solution.constrained.Pairwise (· < ·) ∧ o.solution.values.Sorted ∧
      ∃ system settled, System.ofRules rules enclosing settings = .ok system ∧
        settled = (settle backend system.solver).1 ∧ (variableNames settled).Nodup ∧
        (∀ name, name ∈ variableNames settled ↔ name ∈ Dict.keys o.solution.values) ∧
        (∀ x y name, settled.nameOf? x = some name → settled.nameOf? y = some name → x = y) ∧
        (∀ x v, settled.lookup? x = some v → o.solution.get? v.name = some v.value) ∧
        settled.constraints.map (·.posed settled) =
          rules.flatMap (Rule.posed enclosing settings.container) ∧
        ∀ v ∈ system.solver.vars, Mentioned (builtIn ++ rules.flatMap Rule.mentions) v := by
  obtain ⟨system, hsystem, rfl⟩ := solve_eq_ok.mp h
  have hadds := System.adds_ofRules hsystem
  have hknows := hadds.knows (System.knows_start settings.solving)
  have hsettles := settle_settles backend system.solver
  generalize hr : settle backend system.solver = r at hsettles ⊢
  have hnames : variableNames r.1 = variableNames system.solver := hsettles.same.names
  have hnodup : (variableNames r.1).Nodup := hnames ▸ hadds.wellFormed.names
  have hextends : Extends system.solver r.1 := by
    rw [hsettles.rest]
    exact ⟨rfl, (hsettles.rest ▸ hnames) ▸ List.prefix_rfl, rfl⟩
  have hconstrained (name : String) :
      name ∈ (system.outcome r).solution.constrained ↔ ∃ rule ∈ rules, name ∈ rule.names := by
    rw [← mem_map_name_flatMap]
    exact (hadds.keys name).trans (by simp [System.start, Dict.keys, Dict.empty])
  have hvalues (name : String) :
      name ∈ variableNames r.1 ↔ name ∈ Dict.keys (system.outcome r).solution.values := by
    have hkeys := Dict.mem_keys_overlay Dict.empty (r.1.vars.map fun v => (v.name, v.value)) name
    rw [List.map_map] at hkeys
    exact (hkeys.trans (or_iff_right List.not_mem_nil)).symm
  have hmentioned (name : String) : name ∈ variableNames r.1 ↔
      name ∈ (system.outcome r).solution.constrained ∨ name ∈ ["x", "y", "width", "height"] := by
    rw [hnames, hknows.names, mem_map_name_mentions, hconstrained, or_comm]
  refine ⟨hconstrained, fun name => (hvalues name).symm.trans (hmentioned name), ?_, ?_, system,
    r.1, hsystem, congrArg Prod.fst hr.symm, hnodup, hvalues, fun x y name => eq_of_nameOf? hnodup,
    ?_, ?_, hknows.vars⟩
  · exact List.pairwise_map.mpr (hadds.sorted List.Pairwise.nil)
  · exact Dict.Sorted.overlay List.Pairwise.nil _
  · intro x v hx
    refine get?_outcome hnodup ?_
    rw [lookup?] at hx
    split at hx
    · exact List.mem_of_getElem? hx
    · cases hx
  · exact (hextends.map_posed hadds.wellFormed).trans hadds.posed

def medley : List (Rule Exact) :=
  [.linear .greaterEqual [("gap", .fin 2), ("width", .fin (-1))] (.fin 0) (.fin 1),
    .declare "gap" (.fin 3) (some (.fin 0)) (some (.fin 5)), .fit none,
    .declare "inset" (.fin 9) none (some (.fin 4)), .fixed "gap" (.fin 1) (.fin 1)]

def medleySystem : System Exact where
  solver :=
    { (System.start clashing.solving).solver with
      vars := (System.start clashing.solving).solver.vars ++
        [⟨"gap", .fin 3, .negInf, .posInf, .fin 0⟩, ⟨"inset", .fin 4, .negInf, .fin 4, .fin 4⟩]
      constraints :=
        [⟨.greaterEqual, [(⟨0, 4⟩, .fin 2), (⟨0, 2⟩, .fin (-1))], .fin 0, .fin 1⟩,
          ⟨.fixed, [(⟨0, 2⟩, .fin 1)], .fin 800, .fin 1⟩,
          ⟨.fixed, [(⟨0, 3⟩, .fin 1)], .fin 400, .fin 1⟩,
          ⟨.fixed, [(⟨0, 4⟩, .fin 1)], .fin 1, .fin 1⟩] }
  names := [("gap", ()), ("height", ()), ("inset", ()), ("width", ())]

theorem ofRules_medley : System.ofRules medley none clashing = .ok medleySystem := rfl

theorem medley_names_mentioned : ∃ o, solve halfway medley none clashing = .ok o ∧
    o.solution.constrained = ["gap", "height", "inset", "width"] ∧
    (∀ name, name ∈ o.solution.constrained ↔ ∃ rule ∈ medley, name ∈ rule.names) ∧
    (∀ name, name ∈ Dict.keys o.solution.values ↔
      name ∈ o.solution.constrained ∨ name ∈ ["x", "y", "width", "height"]) ∧
    (∃ settled : Solver Exact, (variableNames settled).Nodup ∧
      (∀ x v, settled.lookup? x = some v → o.solution.get? v.name = some v.value) ∧
      settled.constraints.map (·.posed settled) =
        medley.flatMap (Rule.posed none (.fin 800, .fin 400))) ∧
    ∀ v ∈ medleySystem.solver.vars, v.name = "inset" → v.value = .fin 4 := by
  have hsolve : solve halfway medley none clashing =
      .ok (medleySystem.outcome (settle halfway medleySystem.solver)) :=
    solve_eq_ok.mpr ⟨medleySystem, ofRules_medley, rfl⟩
  obtain ⟨hconstrained, hkeys, -, -, system, settled, hsystem, -, hnodup, -, -, hvalues, hposed,
    hmentioned⟩ := solution_names_mentioned halfway medley none clashing _ hsolve
  obtain rfl : medleySystem = system := Except.ok.inj (ofRules_medley.symm.trans hsystem)
  refine ⟨_, hsolve, rfl, hconstrained, hkeys, ⟨settled, hnodup, hvalues, hposed⟩,
    fun v hv hname => ?_⟩
  -- declared at 9 with 4 as its upper bound
  obtain ⟨m, hfirst, hmin, hmax⟩ := (hmentioned v hv).bounds
  have hvalue := (hmentioned v hv).value_eq
  rw [hname] at hfirst hvalue
  obtain rfl : (⟨"inset", some (.fin 9), .negInf, .fin 4⟩ : Mention Exact) = m :=
    Option.some.inj hfirst
  rw [hvalue, Variable.clamp, hmin, hmax]
  rfl

end Layout
end Scene
