import Scene.Solver.Exact
import Scene.Proofs.Layout.Fit
import Scene.Proofs.Layout.Mention
import Scene.Proofs.Scalar.Contagion
import Scene.Proofs.Solver.Independence

/-! Bounds that a layout gives its names. A name has those of the declaration that it begins with;
where everything is satisfied its value is a number between them, and bounds that are declared for a
name that is there already change nothing at all. -/
namespace Scene
variable {α : Type} [Scalar α]

namespace Solver

structure Variable.Proper (v : Variable α) : Prop where
  bounded : v.Bounded
  isNaN : Scalar.isNaN v.value = false

def Numeric (backend : Backend α) : Prop :=
  ∀ vars constraints values, backend vars constraints = .ok values →
    ∀ x ∈ values, Scalar.isNaN x = false

theorem exact_numeric [Scalar.Contagious α] : Numeric (Exact.backend : Backend α) := by
  intro vars constraints values h x hx
  unfold Exact.backend at h
  split at h
  · cases h
  · cases h
    obtain ⟨q, -, rfl⟩ := List.mem_map.mp hx
    exact Scalar.Contagious.isNaN_ofRat q

omit [Scalar α] in
theorem exists_of_getElem?_handOut {take : Variable α → α → Variable α} {vars : List (Variable α)}
    {values : List α} {i : Nat} {u : Variable α} (h : (handOut take vars values)[i]? = some u) :
    ∃ v, vars[i]? = some v ∧ (u = v ∨ ∃ x ∈ values, u = take v x) := by
  induction vars generalizing values i with
  | nil => cases h
  | cons w vars ih =>
    cases values with
    | nil => exact ⟨u, h, .inl rfl⟩
    | cons y values =>
      cases i with
      | zero =>
        cases h
        exact ⟨w, rfl, .inr ⟨y, List.mem_cons_self, rfl⟩⟩
      | succ i =>
        obtain ⟨v, hv, hu⟩ := ih h
        refine ⟨v, hv, hu.imp_right fun ⟨x, hx, heq⟩ => ⟨x, List.mem_cons_of_mem y hx, heq⟩⟩

section
variable [Scalar.Ordered α]

namespace Variable.Proper
variable {v : Variable α} {min max value : α}

theorem create (hle : min ≤ max) (hvalue : Scalar.isNaN value = false) (name : String) :
    (Variable.create name value min max).Proper where
  bounded := .create hle name value
  isNaN := by
    obtain ⟨hmin, hmax⟩ := Scalar.Ordered.isNaN_of_le hle
    exact Scalar.isNaN_clamp hmin hmax hvalue

theorem setValue (hv : v.Proper) (hvalue : Scalar.isNaN value = false) :
    (v.setValue value).Proper where
  bounded := hv.bounded.setValue value
  isNaN := by
    obtain ⟨hmin, hmax⟩ := Scalar.Ordered.isNaN_of_le hv.bounded.ordered
    exact Scalar.isNaN_clamp hmin hmax hvalue

end Variable.Proper

variable [Scalar.Contagious α]

/-- What is satisfied has numbers in all its terms. -/
theorem Constraint.isNaN_of_isSatisfied {c : Constraint α} {value : Handle → α} {epsilon : α}
    (h : c.isSatisfied value epsilon = true) (hc : c.kind.isObjective = false) {t : Handle × α}
    (ht : t ∈ c.terms) : Scalar.isNaN (value t.1) = false := by
  have hmissed (hle : Scalar.abs (c.evaluate value - c.constant) ≤ epsilon) :
      Scalar.isNaN (c.evaluate value) = false :=
    have hmiss := Scalar.Contagious.isNaN_abs (Scalar.Ordered.isNaN_of_le hle).1
    (Scalar.Contagious.isNaN_sub hmiss).1
  have hsum : Scalar.isNaN (c.evaluate value) = false := by
    unfold isSatisfied at h
    split at h
    · exact hmissed (of_decide_eq_true h)
    · exact hmissed (of_decide_eq_true h)
    · exact (Scalar.Ordered.isNaN_of_le (of_decide_eq_true h)).1
    · exact (Scalar.Ordered.isNaN_of_le (of_decide_eq_true h)).2
    · next hk => rw [hk] at hc; cases hc
    · next hk => rw [hk] at hc; cases hc
  rw [evaluate] at hsum
  have hterms := (Scalar.isNaN_of_foldl_add (fun t : Handle × α => t.2 * value t.1) hsum).2
  exact (Scalar.Contagious.isNaN_mul (hterms t ht)).2

theorem isNaN_of_involved {s : Solver α} (hs : s.isSatisfied = true) {i : Nat}
    (hi : Involved s.constraints i) {v : Variable α} (hv : s.vars[i]? = some v) :
    Scalar.isNaN v.value = false := by
  obtain ⟨c, hc, hkind, t, ht, rfl⟩ := hi
  have hreading := Constraint.isNaN_of_isSatisfied (List.all_eq_true.mp hs c hc) hkind ht
  rwa [reading, hv] at hreading

end
end Solver

namespace Layout
open Solver

/-- Where everything is satisfied, all values are numbers: a variable of some constraint is one
because the constraint holds, and any other starts as one and gets another at most from the
backend. -/
theorem settle_proper [Scalar.Ordered α] [Scalar.Contagious α] {backend : Backend α}
    (hbackend : Numeric backend) {s : Solver α} (hs : ∀ v ∈ s.vars, v.Proper)
    (hsettled : (settle backend s).2 = true) : ∀ v ∈ (settle backend s).1.vars, v.Proper := by
  have hbounded := settle_bounded backend fun v hv => (hs v hv).bounded
  have hsettles := settle_settles backend s
  have hfree : ∀ i v, ¬Involved s.constraints i → (settle backend s).1.vars[i]? = some v →
      Scalar.isNaN v.value = false := by
    have hrelaxed (i : Nat) (v : Variable α) (hi : ¬Involved s.constraints i)
        (hv : s.solve.1.vars[i]? = some v) : v.Proper := by
      rw [solve_fst] at hv
      exact hs v (List.mem_of_getElem? ((settled_frame s i hi).symm.trans hv))
    refine settle_keeps (fun vars => ∀ i v, ¬Involved s.constraints i → vars[i]? = some v →
      Scalar.isNaN v.value = false) (fun i v hi hv => (hrelaxed i v hi hv).isNaN) ?_
    intro values hvalues i u hi hu
    obtain ⟨v, hv, rfl | ⟨x, hx, rfl⟩⟩ := exists_of_getElem?_handOut hu
    · exact (hrelaxed i u hi hv).isNaN
    · exact ((hrelaxed i v hi hv).setValue (hbackend _ _ _ hvalues x hx)).isNaN
  intro v hv
  refine ⟨hbounded v hv, ?_⟩
  obtain ⟨i, hi⟩ := List.mem_iff_getElem?.mp hv
  by_cases hinvolved : Involved s.constraints i
  · refine isNaN_of_involved (hsettles.truthful.symm.trans hsettled) ?_ hi
    rwa [hsettles.rest]
  · exact hfree i v hinvolved hi

theorem proper_kept [Scalar.Sizing α] : Kept (fun s : Solver α => ∀ v ∈ s.vars, v.Proper) where
  create hs name _ := List.forall_mem_append.mpr ⟨hs, List.forall_mem_singleton.mpr
    (.create Scalar.Ordered.negInf_le_posInf
      (Scalar.Sizing.isNaN_of_isFinite Scalar.Sizing.isFinite_zero) name)⟩
  bounded hs name _ _ _ _ _ h := by
    have hnew := Variable.Proper.create (createBounded?_ordered h) (isNaN_of_createBounded? h) name
    rw [createBounded?_eq_ok h]
    exact List.forall_mem_append.mpr ⟨hs, List.forall_mem_singleton.mpr hnew⟩
  move hs x _ h := by
    rw [setValue?_eq_ok h]
    exact forall_mem_modify hs x.index fun _ hv => hv.setValue (isNaN_of_setValue? h)
  constrain hs _ _ _ _ _ _ _ h := by
    rw [(addConstraint?_eq_ok h).1]
    exact hs

theorem start_proper [Scalar.Sizing α] (settings : Settings.Solving α) :
    ∀ v ∈ (System.start settings).solver.vars, v.Proper := by
  have hzero := Scalar.Sizing.isFinite_zero (α := α)
  have hnumber := Scalar.Sizing.isNaN_of_isFinite hzero
  have hfree := Variable.Proper.create (α := α) Scalar.Ordered.negInf_le_posInf hnumber
  have hsize := Variable.Proper.create (Scalar.Sizing.le_posInf_of_isFinite hzero) hnumber
  exact List.forall_mem_cons.mpr ⟨hfree "x", List.forall_mem_cons.mpr ⟨hfree "y",
    List.forall_mem_cons.mpr ⟨hsize "width", List.forall_mem_singleton.mpr (hsize "height")⟩⟩⟩

/-- Where everything is satisfied, the value of a name is within the bounds of its first mention. -/
theorem exists_within_of_mentioned [Scalar.Sizing α] [Scalar.Contagious α] {backend : Backend α}
    (hbackend : Numeric backend) {rules : List (Rule α)} {enclosing : Option (Container α)}
    {settings : Settings.Resolving α} {o : Outcome α}
    (h : solve backend rules enclosing settings = .ok o) (hconverged : o.solution.converged = true)
    {m : Mention α}
    (hm : (builtIn ++ rules.flatMap Rule.mentions).find? (·.name == m.name) = some m) :
    ∃ v, o.solution.get? m.name = some v ∧ m.min ≤ v ∧ v ≤ m.max := by
  obtain ⟨system, hsystem, rfl⟩ := solve_eq_ok.mp h
  have hadds := System.adds_ofRules hsystem
  have hknows := hadds.knows (System.knows_start settings.solving)
  have hstart := proper_kept.ofRules (start_proper settings.solving) hsystem
  have hsettles := settle_settles backend system.solver
  have hproper := settle_proper hbackend hstart hconverged
  -- the variable of the name, before and after
  obtain ⟨v, hv, hname⟩ := List.mem_map.mp
    ((hknows.names m.name).mpr (List.mem_map_of_mem (List.mem_of_find?_eq_some hm)))
  obtain ⟨i, hi⟩ := List.mem_iff_getElem?.mp hv
  obtain ⟨u, hu, hget⟩ := get?_outcome_of_settles hadds.wellFormed hsettles hi
  obtain ⟨w, hw, hmin, hmax⟩ := hsettles.same.exists_same hi
  obtain rfl : w = u := Option.some.inj (hw.symm.trans hu)
  obtain ⟨m', hm', hbounds⟩ := (hknows.vars v hv).bounds
  rw [hname, hm] at hm'
  obtain rfl := Option.some.inj hm'
  have hwithin := hproper w (List.mem_of_getElem? hw)
  rw [hname] at hget
  refine ⟨w.value, hget, ?_⟩
  rw [← hbounds.1, ← hbounds.2, ← hmin, ← hmax]
  refine hwithin.bounded.value.resolve_left fun hnan => ?_
  rw [hwithin.isNaN] at hnan
  cases hnan

/-- Bounds do not matter for a name that is there. -/
theorem System.declare_of_mem {s : System α} {name : String} (h : name ∈ variableNames s.solver)
    (value : α) (min max min' max' : Option α) :
    s.declare name value min max = s.declare name value min' max' := by
  obtain ⟨x, hx⟩ := Option.ne_none_iff_exists'.mp fun hnone => find?_eq_none.mp hnone h
  rw [System.declare, System.declare, hx]

theorem solve_of_known {before : List (Rule α)} {name : String}
    (hknown : name ∈ ["x", "y", "width", "height"] ∨ ∃ rule ∈ before, name ∈ rule.names)
    (backend : Backend α) (value : α) (min max min' max' : Option α) (after : List (Rule α))
    (enclosing : Option (Container α)) (settings : Settings.Resolving α) :
    solve backend (before ++ .declare name value min max :: after) enclosing settings =
      solve backend (before ++ .declare name value min' max' :: after) enclosing settings := by
  have hrules : System.ofRules (before ++ .declare name value min max :: after) enclosing settings =
      System.ofRules (before ++ .declare name value min' max' :: after) enclosing settings := by
    simp only [System.ofRules, List.foldlM_append, List.foldlM_cons]
    cases hbefore : before.foldlM (System.add enclosing settings.container)
        (.start settings.solving) with
    | error e => rfl
    | ok s =>
      have hknows := (System.adds_ofRules hbefore).knows (System.knows_start settings.solving)
      have hmem : name ∈ variableNames s.solver :=
        (hknows.names name).mpr (mem_map_name_mentions.mpr hknown)
      simp only [ok_bind, System.add, System.declare_of_mem hmem value min max min' max']
  rw [solve, solve, hrules]

/-- Where everything is satisfied, no size is negative, and a name that begins with a declaration
has a value within the bounds of that declaration. A declaration of a name that is there already
moves it and no more: with any other bounds in its place the layout is the same. -/
theorem first_declaration_binds [Scalar.Sizing α] [Scalar.Contagious α] (backend : Backend α)
    (hbackend : Numeric backend) (rules : List (Rule α)) (enclosing : Option (Container α))
    (settings : Settings.Resolving α) (o : Outcome α)
    (h : solve backend rules enclosing settings = .ok o)
    (hconverged : o.solution.converged = true) :
    (∀ name ∈ ["width", "height"], ∃ v, o.solution.get? name = some v ∧ Scalar.zero ≤ v) ∧
      ∀ before name value min max after, rules = before ++ .declare name value min max :: after →
        (name ∉ ["x", "y", "width", "height"] → (∀ rule ∈ before, name ∉ rule.names) →
          ∃ v, o.solution.get? name = some v ∧
            min.getD Scalar.negInf ≤ v ∧ v ≤ max.getD Scalar.posInf) ∧
        (name ∈ ["x", "y", "width", "height"] ∨ (∃ rule ∈ before, name ∈ rule.names) →
          ∀ min' max', solve backend (before ++ .declare name value min' max' :: after) enclosing
            settings = .ok o) := by
  have hwithin (m : Mention α) := exists_within_of_mentioned hbackend h hconverged (m := m)
  refine ⟨fun name hname => ?_, ?_⟩
  · have hfirst : builtIn.find? (·.name == name) =
        some (⟨name, none, Scalar.zero, Scalar.posInf⟩ : Mention α) := by
      simp only [List.mem_cons, List.not_mem_nil, or_false] at hname
      rcases hname with rfl | rfl <;> rfl
    obtain ⟨v, hget, hmin, -⟩ := hwithin ⟨name, none, Scalar.zero, Scalar.posInf⟩ (by
      rw [List.find?_append, hfirst, Option.some_or])
    exact ⟨v, hget, hmin⟩
  · rintro before name value min max after rfl
    refine ⟨fun hnew hbefore => ?_, fun hknown min' max' => ?_⟩
    · have hnone : (builtIn ++ before.flatMap Rule.mentions).find?
          (fun m : Mention α => m.name == name) = none := by
        refine List.find?_eq_none.mpr fun m hm heq => ?_
        have hin := List.mem_map_of_mem hm (f := Mention.name)
        rw [beq_iff_eq.mp heq] at hin
        rcases mem_map_name_mentions.mp hin with hin | ⟨rule, hrule, hin⟩
        · exact hnew hin
        · exact hbefore rule hrule hin
      refine hwithin ⟨name, some value, min.getD Scalar.negInf, max.getD Scalar.posInf⟩ ?_
      rw [List.flatMap_append, ← List.append_assoc, List.find?_append, hnone, Option.none_or,
        List.flatMap_cons, Rule.mentions, List.singleton_append, List.find?_cons_of_pos]
      exact beq_self_eq_true name
    · rw [solve_of_known hknown backend value min' max' min max]
      exact h

def gaps : List (Rule Exact) :=
  [.fixed "width" (.fin 10) (.fin 1),
    .declare "gap" (.fin 9) (some (.fin 0)) (some (.fin 4)),
    .declare "gap" (.fin 2) (some (.fin 5)) none]

def gapsSystem : System Exact where
  solver :=
    { (System.start clashing.solving).solver with
      vars := (System.start clashing.solving).solver.vars ++
        [⟨"gap", .fin 2, .fin 0, .fin 4, .fin 4⟩]
      constraints := [⟨.fixed, [(⟨0, 2⟩, .fin 1)], .fin 10, .fin 1⟩] }
  names := [("gap", ()), ("width", ())]

def gapsSolved : Outcome Exact where
  solution :=
    { values :=
        [("gap", .fin 2), ("height", .fin 0), ("width", .fin 10), ("x", .fin 0), ("y", .fin 0)]
      constrained := ["gap", "width"]
      converged := true }
  constraints := 1

theorem solve_gaps : solve Solver.Exact.backend gaps none clashing = .ok gapsSolved := by
  have horder : visitOrder gapsSystem.solver.constraints = gapsSystem.solver.constraints :=
    List.mergeSort_of_pairwise (List.pairwise_singleton _ _)
  refine solve_eq_ok.mpr ⟨gapsSystem, rfl, ?_⟩
  rw [settle, Solver.solve, horder]
  with_unfolding_all rfl

theorem gap_keeps_first_bounds : solve Solver.Exact.backend gaps none clashing = .ok gapsSolved ∧
    gapsSolved.solution.converged = true ∧
    (∃ v, gapsSolved.solution.get? "gap" = some v ∧ Exact.fin 0 ≤ v ∧ v ≤ .fin 4) ∧
    ∀ min max, solve Solver.Exact.backend
      [.fixed "width" (.fin 10) (.fin 1), .declare "gap" (.fin 9) (some (.fin 0)) (some (.fin 4)),
        .declare "gap" (.fin 2) min max] none clashing = .ok gapsSolved := by
  obtain ⟨-, hbinds⟩ := first_declaration_binds Solver.Exact.backend exact_numeric gaps none
    clashing gapsSolved solve_gaps rfl
  refine ⟨solve_gaps, rfl, ?_, ?_⟩
  · exact (hbinds [.fixed "width" (.fin 10) (.fin 1)] "gap" _ _ _ _ rfl).1 (by decide)
      (by simp [Rule.names])
  · exact (hbinds [.fixed "width" (.fin 10) (.fin 1),
      .declare "gap" (.fin 9) (some (.fin 0)) (some (.fin 4))] "gap" _ _ _ [] rfl).2
      (.inr ⟨_, List.mem_cons_of_mem _ List.mem_cons_self, by simp [Rule.names]⟩)

def shiftedSystem : System Exact where
  solver :=
    { (System.start clashing.solving).solver with
      vars := (System.start clashing.solving).solver.vars.modify 0 (·.setValue (.fin 5)) }
  names := [("x", ())]

def shiftedSolved : Outcome Exact where
  solution :=
    { values := [("height", .fin 0), ("width", .fin 0), ("x", .fin 5), ("y", .fin 0)]
      constrained := ["x"]
      converged := true }
  constraints := 0

/-- The position is there before any rule, so bounds that are declared for it do not bind it. -/
theorem position_out_of_declared_bounds :
    solve Solver.Exact.backend [.declare "x" (.fin 5) (some (.fin 10)) (some (.fin 20))] none
        clashing = .ok shiftedSolved ∧
      shiftedSolved.solution.converged = true ∧
      ∀ v, shiftedSolved.solution.get? "x" = some v → ¬((.fin 10 : Exact) ≤ v ∧ v ≤ .fin 20) := by
  refine ⟨solve_eq_ok.mpr ⟨shiftedSystem, rfl, ?_⟩, rfl, ?_⟩
  · have horder : visitOrder shiftedSystem.solver.constraints = [] := List.mergeSort_nil
    rw [settle, Solver.solve, horder]
    with_unfolding_all rfl
  · rintro v hv
    obtain rfl : Exact.fin 5 = v := Option.some.inj hv
    decide

end Layout
end Scene
