import Scene.Proofs.Layout.Completeness
import Scene.Proofs.Layout.Mention
import Scene.Proofs.Layout.Taken
import Scene.Proofs.Solver.LastWord

/-! Sizes that one rule alone speaks of. A pin that shares its variable with no other constraint is
kept by every pass, and no answer of the backend is taken that does not keep it; so a layout takes
the size of its container whatever becomes of the rest of it. -/
namespace Scene
open Solver

theorem Solver.not_visitedAfter_self {α : Type} [Scalar α] (c : Constraint α) (i : Nat) :
    ¬VisitedAfter (c, i) (c, i) := by
  have hself : Scalar.compareAll c.strength c.strength = .eq := Std.ReflCmp.compare_self
  simp [VisitedAfter, hself]

namespace Layout

section
variable {α : Type} {s : Solver α} {c : Constraint α} {h : Handle} {name : String}

/-- What stands in a list beside one place of it. -/
theorem mem_of_other_place {β : Type} {front back : List β} {c d : β} {j : Nat}
    (hd : (front ++ c :: back)[j]? = some d) (hj : j ≠ front.length) : d ∈ front ++ back := by
  have hmem := List.mem_eraseIdx_iff_getElem?.mpr ⟨j, hj, hd⟩
  rwa [List.eraseIdx_append_of_length_le le_rfl, Nat.sub_self, List.eraseIdx_cons_zero] at hmem

/-- A constraint that goes by other names involves another variable. -/
theorem not_involves_of_posed (hc : ∀ t ∈ c.terms, s.owns t.1 = true)
    (hother : ∀ t ∈ (c.posed s).terms, t.1 ≠ some name) (hname : s.nameOf? h = some name) :
    ¬c.Involves h.index := by
  rintro ⟨-, t, ht, hindex⟩
  refine hother _ (List.mem_map_of_mem ht) ?_
  change s.nameOf? t.1 = some name
  rw [← hname, nameOf?_eq, nameOf?_eq, if_pos (hc t ht), if_pos (owns_of_nameOf? hname), hindex]

variable [Scalar α]

theorem exists_pinning_of_posed {size : α}
    (hc : c.posed s = ⟨.fixed, [(some name, Scalar.one)], size, Scalar.one⟩) :
    ∃ x, c = pinning x size ∧ s.nameOf? x = some name := by
  obtain ⟨kind, terms, constant, strength⟩ := c
  obtain ⟨rfl, hterms, rfl, rfl⟩ := Posed.mk.inj hc
  obtain ⟨⟨x, k⟩, rfl, ht⟩ := List.map_eq_singleton_iff.mp hterms
  obtain ⟨hname, rfl⟩ := Prod.mk.inj ht
  exact ⟨x, rfl, hname⟩

/-- The names of its variables are all that a rule mentions. -/
theorem Rule.exists_name_of_posed {enclosing : Option (Container α)} {fallback : α × α}
    {rule : Rule α} {p : Posed α} (hp : p ∈ rule.posed enclosing fallback)
    {t : Option String × α} (ht : t ∈ p.terms) : ∃ n ∈ rule.names, t.1 = some n := by
  cases rule with
  | fit own =>
    simp only [posed, List.mem_cons, List.not_mem_nil, or_false] at hp
    rcases hp with rfl | rfl
    · exact ⟨"width", by simp [names], congrArg Prod.fst (List.mem_singleton.mp ht)⟩
    · exact ⟨"height", by simp [names], congrArg Prod.fst (List.mem_singleton.mp ht)⟩
  | declare name value min max => cases hp
  | fixed name value strength =>
    obtain rfl := List.mem_singleton.mp hp
    exact ⟨name, List.mem_singleton_self name, congrArg Prod.fst (List.mem_singleton.mp ht)⟩
  | linear kind terms constant strength =>
    obtain rfl := List.mem_singleton.mp hp
    obtain ⟨u, hu, rfl⟩ := List.mem_map.mp ht
    exact ⟨u.1, List.mem_map_of_mem hu, rfl⟩

/-- The two sizes have the bounds that they begin with. -/
theorem bounds_of_size {ms : List (Mention α)} {v : Variable α}
    (hv : Mentioned (builtIn ++ ms) v) (hname : v.name = "width" ∨ v.name = "height") :
    v.min = Scalar.zero ∧ v.max = Scalar.posInf := by
  obtain ⟨m, hm, hbounds⟩ := hv.bounds
  have hfirst : builtIn.find? (·.name == v.name) =
      some (⟨v.name, none, Scalar.zero, Scalar.posInf⟩ : Mention α) := by
    rcases hname with hname | hname <;> rw [hname] <;> rfl
  rw [List.find?_append, hfirst, Option.some_or] at hm
  obtain rfl := Option.some.inj hm
  exact hbounds

end

/-- Relaxation ends near a pin that no later constraint undoes. The last visit finds the variable
close enough, or sets it to the pin, and then the bounds of a size leave it there. -/
theorem near_solve {s : Solver Exact} {x : Handle} {v : Variable Exact} {i : Nat} {q : Rat}
    (hc : s.constraints[i]? = some (pinning x (.fin q))) (hv : s.vars[x.index]? = some v)
    (hbounds : v.min = Scalar.zero ∧ v.max = Scalar.posInf)
    (hlast : ∀ d j, s.constraints[j]? = some d → VisitedAfter (pinning x (.fin q), i) (d, j) →
      ¬d.Involves x.index)
    (hq : 0 ≤ q) (hepsilon : Scalar.zero ≤ s.settings.epsilon)
    (hpasses : 1 ≤ s.settings.maxIterations) :
    Scalar.abs (reading s.solve.1.vars x - .fin q) ≤ s.settings.epsilon := by
  rcases last_pin_kept s hc rfl rfl rfl hv hlast hpasses with hsatisfied | hset
  · exact of_decide_eq_true (isSatisfied_pin x _ _ ▸ hsatisfied)
  · have hclamped : v.clamp (.fin q / Scalar.one) = .fin q := by
      rw [Variable.clamp, hbounds.1, hbounds.2]
      exact clamp_size hq
    rw [hset]
    change Scalar.abs (v.clamp (.fin q / Scalar.one) - .fin q) ≤ _
    rw [hclamped]
    exact Exact.le_trans (Exact.abs_sub_le_zero.mpr rfl) hepsilon

/-- A size is pinned, and no other constraint goes by its name. -/
structure PinnedAlone (s : Solver Exact) (name : String) (size : Exact) : Prop where
  wellFormed : s.WellFormed
  isFinite : s.IsFinite
  pinned : ∃ before after, s.constraints.map (·.posed s) =
      before ++ ⟨.fixed, [(some name, Scalar.one)], size, Scalar.one⟩ :: after ∧
    ∀ p ∈ before ++ after, ∀ t ∈ p.terms, t.1 ≠ some name
  bounds : ∀ v ∈ s.vars, v.name = name → v.min = Scalar.zero ∧ v.max = Scalar.posInf

namespace PinnedAlone
variable {s : Solver Exact} {name : String} {size : Exact} (hs : PinnedAlone s name size)
include hs

/-- The pin with its variable, which nothing else involves. -/
theorem exists_pin : ∃ i x v, s.constraints[i]? = some (pinning x size) ∧
    s.vars[x.index]? = some v ∧ v.name = name ∧
      ∀ d j, s.constraints[j]? = some d → VisitedAfter (pinning x size, i) (d, j) →
        ¬d.Involves x.index := by
  obtain ⟨before, after, hposed, hother⟩ := hs.pinned
  obtain ⟨front, rest, hsplit, hfront, hrest⟩ := List.map_eq_append_iff.mp hposed
  obtain ⟨c, back, rfl, hc, hback⟩ := List.map_eq_cons_iff.mp hrest
  obtain ⟨x, rfl, hname⟩ := exists_pinning_of_posed hc
  obtain ⟨v, hv, hvname⟩ := Option.map_eq_some_iff.mp hname
  rw [lookup?, if_pos (owns_of_nameOf? hname)] at hv
  have hplace : s.constraints[front.length]? = some (pinning x size) := by simp [hsplit]
  refine ⟨front.length, x, v, hplace, hv, hvname, fun d j hd hvisited => ?_⟩
  have hj : j ≠ front.length := by
    rintro rfl
    obtain rfl := Option.some.inj (hplace.symm.trans hd)
    exact not_visitedAfter_self _ _ hvisited
  have hmem : d ∈ front ++ back := mem_of_other_place (hsplit ▸ hd) hj
  have hposed : d.posed s ∈ before ++ after := by
    rw [← hfront, ← hback, ← List.map_append]
    exact List.mem_map_of_mem hmem
  have howned := hs.wellFormed.owned d (List.mem_of_getElem? hd)
  exact not_involves_of_posed howned (hother _ hposed) hname

/-- However the solver is settled, the variable ends near what it is pinned to. -/
theorem exists_near (hsize : Scalar.zero ≤ size) (hepsilon : Scalar.zero ≤ s.settings.epsilon)
    (hpasses : 1 ≤ s.settings.maxIterations) {r : Solver Exact × Bool} (hr : Settles s r) :
    ∃ x v, s.vars[x.index]? = some v ∧ v.name = name ∧
      Scalar.abs (reading r.1.vars x - size) ≤ s.settings.epsilon := by
  obtain ⟨i, x, v, hc, hv, hname, hlast⟩ := hs.exists_pin
  refine ⟨x, v, hv, hname, ?_⟩
  have hmem : pinning x size ∈ s.constraints := List.mem_of_getElem? hc
  cases hflag : r.2 with
  | false =>
    obtain ⟨q, rfl⟩ := Exact.exists_fin_of_isFinite (hs.isFinite _ hmem).1
    rw [hr.failed hflag]
    have hbounds := hs.bounds v (List.mem_of_getElem? hv) hname
    exact near_solve hc hv hbounds hlast (Exact.fin_le.mp hsize) hepsilon hpasses
  | true =>
    -- Converged, by relaxing or by an answer that was taken: every constraint holds, the pin too.
    have hsatisfied := hr.truthful.symm.trans hflag
    rw [hr.rest] at hsatisfied
    have hpin := List.all_eq_true.mp hsatisfied _ hmem
    exact of_decide_eq_true (isSatisfied_pin x _ _ ▸ hpin)

omit hs in
theorem near_outcome {system : System Exact} (hs : PinnedAlone system.solver name size)
    (hsize : Scalar.zero ≤ size) (hepsilon : Scalar.zero ≤ system.solver.settings.epsilon)
    (hpasses : 1 ≤ system.solver.settings.maxIterations) (backend : Backend Exact) :
    Scalar.abs ((system.outcome (settle backend system.solver)).solution.getOrZero name - size) ≤
      system.solver.settings.epsilon := by
  have hsettles := settle_settles backend system.solver
  obtain ⟨x, v, hv, hname, hnear⟩ := hs.exists_near hsize hepsilon hpasses hsettles
  have hreading := congrFun (reading_outcome hs.wellFormed hsettles) x
  simp only [Solution.reading, hv, hname] at hreading
  rwa [← hreading] at hnear

end PinnedAlone

section
variable {enclosing own : Option (Container Exact)} {settings : Settings.Resolving Exact}
  {before after : List (Rule Exact)} {system : System Exact}

/-- Rules that are posed with a pin of a size, and nothing else by its name. -/
theorem pinnedAlone_of_posed {rules : List (Rule Exact)} {name : String} {size : Exact}
    (hsystem : System.ofRules rules enclosing settings = .ok system)
    (hname : name = "width" ∨ name = "height") {front back : List (Posed Exact)}
    (hposed : rules.flatMap (Rule.posed enclosing settings.container) =
      front ++ ⟨.fixed, [(some name, Scalar.one)], size, Scalar.one⟩ :: back)
    (hother : ∀ p ∈ front ++ back, ∀ t ∈ p.terms, t.1 ≠ some name) :
    PinnedAlone system.solver name size where
  wellFormed := System.ofRules_wellFormed hsystem
  isFinite := System.ofRules_isFinite hsystem
  pinned := ⟨front, back, (System.adds_ofRules hsystem).posed.trans hposed, hother⟩
  bounds v hv hvname := by
    have hknows := (System.adds_ofRules hsystem).knows (System.knows_start settings.solving)
    exact bounds_of_size (hknows.vars v hv) (hvname ▸ hname)

/-- What rules are posed as goes by the names that they mention. -/
theorem ne_of_rules_posed {rules : List (Rule Exact)} {name : String} {fallback : Exact × Exact}
    (halone : ∀ rule ∈ rules, name ∉ rule.names) {p : Posed Exact}
    (hp : p ∈ rules.flatMap (Rule.posed enclosing fallback)) {t : Option String × Exact}
    (ht : t ∈ p.terms) : t.1 ≠ some name := by
  obtain ⟨rule, hrule, hp⟩ := List.mem_flatMap.mp hp
  obtain ⟨n, hn, heq⟩ := Rule.exists_name_of_posed hp ht
  exact fun hsame => halone rule hrule (Option.some.inj (heq.symm.trans hsame) ▸ hn)

theorem ne_of_posed {name other : String} (hne : other ≠ name) {fallback : Exact × Exact}
    (halone : ∀ rule ∈ before ++ after, name ∉ rule.names) {value : Exact} {p : Posed Exact}
    (hp : p ∈ before.flatMap (Rule.posed enclosing fallback) ++
      ⟨.fixed, [(some other, Scalar.one)], value, Scalar.one⟩ ::
        after.flatMap (Rule.posed enclosing fallback))
    {t : Option String × Exact} (ht : t ∈ p.terms) : t.1 ≠ some name := by
  obtain ⟨hbefore, hafter⟩ := List.forall_mem_append.mp halone
  rcases List.mem_append.mp hp with hp | hp
  · exact ne_of_rules_posed hbefore hp ht
  rcases List.mem_cons.mp hp with rfl | hp
  · rw [List.mem_singleton.mp ht]
    exact fun hsame => hne (Option.some.inj hsame)
  · exact ne_of_rules_posed hafter hp ht

theorem pinnedAlone_width (halone : ∀ rule ∈ before ++ after, "width" ∉ rule.names)
    (hsystem : System.ofRules (before ++ .fit own :: after) enclosing settings = .ok system) :
    PinnedAlone system.solver "width" (pickSize own enclosing settings.container).1 :=
  pinnedAlone_of_posed hsystem (.inl rfl) List.flatMap_append fun _ hp _ ht =>
    ne_of_posed (show "height" ≠ "width" by decide) halone hp ht

theorem pinnedAlone_height (halone : ∀ rule ∈ before ++ after, "height" ∉ rule.names)
    (hsystem : System.ofRules (before ++ .fit own :: after) enclosing settings = .ok system) :
    PinnedAlone system.solver "height" (pickSize own enclosing settings.container).2 := by
  obtain ⟨size, hsize⟩ : ∃ size, pickSize own enclosing settings.container = size := ⟨_, rfl⟩
  have hposed : (before ++ .fit own :: after).flatMap (Rule.posed enclosing settings.container) =
      (before.flatMap (Rule.posed enclosing settings.container) ++
        [⟨.fixed, [(some "width", Scalar.one)], size.1, Scalar.one⟩]) ++
          ⟨.fixed, [(some "height", Scalar.one)], size.2, Scalar.one⟩ ::
            after.flatMap (Rule.posed enclosing settings.container) := by
    rw [List.flatMap_append, List.flatMap_cons, Rule.posed, hsize, List.append_assoc]
    rfl
  rw [hsize]
  refine pinnedAlone_of_posed hsystem (.inr rfl) hposed fun p hp t ht => ?_
  rw [List.append_assoc] at hp
  exact ne_of_posed (by decide) halone hp ht

end

/-- A rule that takes the size of a container takes it whatever the other rules are, as long as they
do not mention the size: also where they contradict one another, where relaxation gives up on them,
and whatever the backend answers, each size ends within the tolerance of the one that is picked. -/
theorem fit_keeps_to_container (backend : Backend Exact) (before after : List (Rule Exact))
    (own enclosing : Option (Container Exact)) (settings : Settings.Resolving Exact)
    (o : Outcome Exact)
    (halone : ∀ rule ∈ before ++ after, "width" ∉ rule.names ∧ "height" ∉ rule.names)
    (hepsilon : Scalar.zero ≤ settings.solving.epsilon)
    (hpasses : 1 ≤ settings.solving.maxIterations)
    (hwidth : Scalar.zero ≤ (pickSize own enclosing settings.container).1)
    (hheight : Scalar.zero ≤ (pickSize own enclosing settings.container).2)
    (h : solve backend (before ++ .fit own :: after) enclosing settings = .ok o) :
    Scalar.abs (o.solution.width - (pickSize own enclosing settings.container).1) ≤
        settings.solving.epsilon ∧
      Scalar.abs (o.solution.height - (pickSize own enclosing settings.container).2) ≤
        settings.solving.epsilon := by
  obtain ⟨system, hsystem, rfl⟩ := solve_eq_ok.mp h
  rw [← ofRules_settings hsystem] at hepsilon hpasses ⊢
  have hpinnedWidth := pinnedAlone_width (fun rule hrule => (halone rule hrule).1) hsystem
  have hpinnedHeight := pinnedAlone_height (fun rule hrule => (halone rule hrule).2) hsystem
  exact ⟨hpinnedWidth.near_outcome hwidth hepsilon hpasses backend,
    hpinnedHeight.near_outcome hheight hepsilon hpasses backend⟩

def tornSystem : System Exact where
  solver :=
    { (System.start clashing.solving).solver with
      constraints :=
        [⟨.fixed, [(⟨0, 0⟩, .fin 1)], .fin 1, .fin 1⟩, pinning ⟨0, 2⟩ (.fin 800),
          pinning ⟨0, 3⟩ (.fin 400), ⟨.fixed, [(⟨0, 0⟩, .fin 1)], .fin 2, .fin 1⟩] }
  names := [("height", ()), ("width", ()), ("x", ())]

def torn : Outcome Exact where
  solution :=
    { values := [("height", .fin 400), ("width", .fin 800), ("x", .fin 2), ("y", .fin 0)]
      constrained := ["height", "width", "x"]
      converged := false }
  constraints := 4

theorem solve_torn : solve halfway ([.fixed "x" (.fin 1) (.fin 1)] ++ .fit none ::
    [.fixed "x" (.fin 2) (.fin 1)]) none clashing = .ok torn := by
  have horder : visitOrder tornSystem.solver.constraints = tornSystem.solver.constraints :=
    List.mergeSort_of_pairwise (by decide)
  refine solve_eq_ok.mpr ⟨tornSystem, rfl, ?_⟩
  rw [settle, Solver.solve, horder]
  with_unfolding_all rfl

/-- Nothing converges, and the backend answers with another size. -/
theorem torn_keeps_to_container : torn.solution.converged = false ∧
    Scalar.abs (torn.solution.width - .fin 800) ≤ clashing.solving.epsilon ∧
      Scalar.abs (torn.solution.height - .fin 400) ≤ clashing.solving.epsilon :=
  ⟨rfl, fit_keeps_to_container halfway [.fixed "x" (.fin 1) (.fin 1)]
    [.fixed "x" (.fin 2) (.fin 1)] none none clashing torn (by simp [Rule.names])
    (Exact.fin_le.mpr (by norm_num)) (by decide) (by decide) (by decide) solve_torn⟩

end Layout
end Scene
