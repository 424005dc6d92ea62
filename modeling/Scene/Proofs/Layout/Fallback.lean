import Scene.Proofs.Layout.System
import Scene.Scalar.Exact

/-! The exact backend as a fallback. Whatever it answers, the flag of a solution tells the truth
about its values, and values that do not satisfy everything are those that relaxation left. -/
namespace Scene
variable {α : Type} [Scalar α]

def Settings.Resolving.withoutFallback (s : Settings.Resolving α) : Settings.Resolving α :=
  { s with solving := { s.solving with exactFallback := false } }

namespace Layout
open Solver

def Solution.reading (solution : Solution α) (vars : List (Variable α)) (h : Handle) : α :=
  match vars[h.index]? with
  | some v => solution.getOrZero v.name
  | none => Scalar.zero

/-- The backend's values satisfy everything and stay, or the solver is what it was before. -/
theorem fallBack_cases (backend : Backend α) (s : Solver α) :
    fallBack backend s = (s, false) ∨
      ∃ t, fallBack backend s = (t, true) ∧ t.isSatisfied = true ∧
        SameButValues t.vars s.vars ∧ t = { s with vars := t.vars } := by
  unfold fallBack
  split
  · exact .inl rfl
  · split
    · next t ht =>
      obtain ⟨hsame, hrest, hb⟩ := solveExact?_eq_ok ht
      exact .inr ⟨t, rfl, hb.symm, hsame, hrest⟩
    · next t ht =>
      obtain ⟨hsame, hrest, -⟩ := solveExact?_eq_ok ht
      rw [restore_snapshot s t hsame, hrest]
      exact .inl rfl
    · rw [restore_snapshot s s (.refl _)]
      exact .inl rfl

theorem settle_eq (backend : Backend α) (s : Solver α) :
    settle backend s = if s.solve.2 = true then (s.solve.1, true) else fallBack backend s.solve.1 :=
  rfl

/-- What holds of the variables after relaxation, and of them with any answer of the backend written
to them, holds of the settled ones. -/
theorem settle_keeps (P : List (Variable α) → Prop) {backend : Backend α} {s : Solver α}
    (hrelaxed : P s.solve.1.vars)
    (hexact : ∀ values, backend s.solve.1.vars s.solve.1.constraints = .ok values →
      P (handOut Variable.setValue s.solve.1.vars values)) :
    P (settle backend s).1.vars := by
  rw [settle_eq]
  split
  · exact hrelaxed
  · unfold fallBack
    split
    · exact hrelaxed
    · split
      · next t ht =>
        obtain ⟨values, hvalues, ht⟩ := bind_eq_ok.mp ht
        obtain ⟨rfl, -⟩ := Prod.mk.inj (Except.ok.inj ht)
        exact hexact values hvalues
      · next t ht =>
        rw [restore_snapshot _ t (solveExact?_eq_ok ht).1]
        exact hrelaxed
      · rw [restore_snapshot _ _ (.refl _)]
        exact hrelaxed

/-- How a settled solver and its answer relate to the solver before. -/
structure Settles (s : Solver α) (r : Solver α × Bool) : Prop where
  rest : r.1 = { s with vars := r.1.vars }
  same : SameButValues r.1.vars s.vars
  truthful : r.2 = r.1.isSatisfied
  failed : r.2 = false → r.1 = s.solve.1
  relaxed : s.solve.2 = true → r = s.solve

theorem settle_settles (backend : Backend α) (s : Solver α) : Settles s (settle backend s) := by
  have hvars : s.solve.1 = { s with vars := s.solve.1.vars } := by rw [solve_fst]
  have hsame : SameButValues s.solve.1.vars s.vars := by
    rw [solve_fst]
    exact settled_sameButValues s
  have hflag := solve_snd s
  by_cases hr : s.solve.2 = true
  · have hs : settle backend s = s.solve := by
      rw [settle_eq, if_pos hr]
      exact Prod.ext rfl hr.symm
    rw [hs]
    exact ⟨hvars, hsame, hflag, fun _ => rfl, fun _ => rfl⟩
  · have hs : settle backend s = fallBack backend s.solve.1 := by rw [settle_eq, if_neg hr]
    rw [hs]
    rcases fallBack_cases backend s.solve.1 with h | ⟨t, h, hsat, htsame, htrest⟩
    · rw [h]
      exact ⟨hvars, hsame, by simpa [hr] using hflag, fun _ => rfl, fun hc => absurd hc hr⟩
    · rw [h]
      refine ⟨?_, htsame.trans hsame, hsat.symm, by simp, fun hc => absurd hc hr⟩
      rw [htrest, hvars]

theorem solve_eq_ok {backend : Backend α} {rules : List (Rule α)}
    {enclosing : Option (Container α)} {settings : Settings.Resolving α} {o : Outcome α} :
    solve backend rules enclosing settings = .ok o ↔
      ∃ system, System.ofRules rules enclosing settings = .ok system ∧
        system.outcome (settle backend system.solver) = o := by
  simp only [solve, bind_eq_ok, Except.ok.injEq]

omit [Scalar α] in
theorem get?_outcome {system : System α} {r : Solver α × Bool}
    (hn : (r.1.vars.map (·.name)).Nodup) {v : Variable α} (hv : v ∈ r.1.vars) :
    (system.outcome r).solution.get? v.name = some v.value := by
  refine Dict.get?_ofList_of_mem (e := (v.name, v.value)) ?_ (List.mem_map_of_mem hv)
  simpa [Function.comp_def] using hn

/-- Names tell the variables of a well-formed solver apart, so no value is lost under another's
name. -/
theorem get?_outcome_of_settles {system : System α} (hw : system.solver.WellFormed)
    {r : Solver α × Bool} (hr : Settles system.solver r) {i : Nat} {v : Variable α}
    (hv : system.solver.vars[i]? = some v) :
    ∃ u, r.1.vars[i]? = some u ∧ (system.outcome r).solution.get? v.name = some u.value := by
  have hn : (r.1.vars.map (·.name)).Nodup := by simpa only [hr.same.names] using hw.names
  have hi := hr.same.getElem? i
  rw [hv] at hi
  obtain ⟨u, hu, huv⟩ := Option.map_eq_some_iff.mp hi
  have hname : u.name = v.name := congrArg Prod.fst huv
  refine ⟨u, hu, ?_⟩
  rw [← hname]
  exact get?_outcome hn (List.mem_of_getElem? hu)

theorem reading_outcome {system : System α} (hw : system.solver.WellFormed)
    {r : Solver α × Bool} (hr : Settles system.solver r) :
    (system.outcome r).solution.reading system.solver.vars = Solver.reading r.1.vars := by
  funext h
  unfold Solution.reading Solver.reading
  cases hv : system.solver.vars[h.index]? with
  | none =>
    have hi := hr.same.getElem? h.index
    rw [hv] at hi
    rw [Option.map_eq_none_iff.mp hi]
  | some v =>
    obtain ⟨u, hu, hget⟩ := get?_outcome_of_settles hw hr hv
    simp [hu, Solution.getOrZero, hget]

theorem ofRules_settings {rules : List (Rule α)} {enclosing : Option (Container α)}
    {settings : Settings.Resolving α} {system : System α}
    (h : System.ofRules rules enclosing settings = .ok system) :
    system.solver.settings = settings.solving := by
  have hu := System.ofRules_underSettings settings.solving rules enclosing settings
  rw [h] at hu
  have hs : system = system.underSettings settings.solving := Except.ok.inj hu
  exact congrArg (fun s => s.solver.settings) hs

theorem ofRules_withoutFallback {rules : List (Rule α)} {enclosing : Option (Container α)}
    {settings : Settings.Resolving α} {system : System α}
    (h : System.ofRules rules enclosing settings = .ok system) :
    System.ofRules rules enclosing settings.withoutFallback =
      .ok (system.underSettings settings.withoutFallback.solving) := by
  have hu := System.ofRules_underSettings settings.withoutFallback.solving rules enclosing settings
  rw [h] at hu
  exact hu

/-- Without the fallback a system settles as relaxation alone leaves it. -/
theorem settle_withoutFallback (backend : Backend α) {settings : Settings.Resolving α}
    {s : Solver α} (hs : s.settings = settings.solving) :
    settle backend (underSettings settings.withoutFallback.solving s) =
      (underSettings settings.withoutFallback.solving s.solve.1, s.solve.2) := by
  have hsolve : (underSettings settings.withoutFallback.solving s).solve =
      (underSettings settings.withoutFallback.solving s.solve.1, s.solve.2) := by
    cases s
    subst hs
    rfl
  rw [settle_eq, hsolve]
  by_cases hr : s.solve.2 = true
  · simp [hr]
  · simp [hr, fallBack, underSettings, Settings.Resolving.withoutFallback]

/-- Whatever the backend answers: a solution says that it converged exactly where every generated
constraint holds at the values it gives, by name, to the variables; and where it did not converge, or
relaxation alone did, those are the values given without the fallback. -/
theorem solve_reports_convergence (backend backend' : Backend α) (rules : List (Rule α))
    (enclosing : Option (Container α)) (settings : Settings.Resolving α) (o : Outcome α)
    (h : solve backend rules enclosing settings = .ok o) :
    ∃ system o', System.ofRules rules enclosing settings = .ok system ∧
      solve backend' rules enclosing settings.withoutFallback = .ok o' ∧
      (∀ c ∈ system.solver.constraints, ∀ t ∈ c.terms, ∃ v,
        system.solver.vars[t.1.index]? = some v ∧ (o.solution.get? v.name).isSome = true) ∧
      (o.solution.converged = true ↔ ∀ c ∈ system.solver.constraints,
        c.isSatisfied (o.solution.reading system.solver.vars) settings.solving.epsilon = true) ∧
      (o.solution.converged = false → o.solution.values = o'.solution.values) ∧
      o'.solution.converged = system.solver.solve.2 ∧
      (system.solver.solve.2 = true → o.solution.values = o'.solution.values) := by
  obtain ⟨system, hsystem, rfl⟩ := solve_eq_ok.mp h
  have hw := System.ofRules_wellFormed hsystem
  have hsettings := ofRules_settings hsystem
  have hr := settle_settles backend system.solver
  have hplain : settle backend'
        (system.underSettings settings.withoutFallback.solving).solver =
      (underSettings settings.withoutFallback.solving system.solver.solve.1,
        system.solver.solve.2) :=
    settle_withoutFallback backend' hsettings
  refine ⟨system, _, hsystem, solve_eq_ok.mpr ⟨_, ofRules_withoutFallback hsystem, rfl⟩,
    ?_, ?_, ?_, ?_, ?_⟩
  · intro c hc t ht
    have hindex : t.1.index < system.solver.vars.length := by
      have ho := hw.owned c hc t ht
      simp only [owns, Bool.and_eq_true, decide_eq_true_eq] at ho
      exact ho.2
    have hv := List.getElem?_eq_getElem hindex
    obtain ⟨u, -, hget⟩ := get?_outcome_of_settles hw hr hv
    exact ⟨_, hv, by rw [hget]; rfl⟩
  · have hflag : (system.outcome (settle backend system.solver)).solution.converged =
        (settle backend system.solver).1.isSatisfied := hr.truthful
    rw [hflag, reading_outcome hw hr, ← hsettings, isSatisfied, hr.rest]
    exact List.all_eq_true
  · intro hc
    have hfailed : (settle backend system.solver).1 = system.solver.solve.1 := hr.failed hc
    simp only [System.outcome, hplain, hfailed, underSettings]
  · simp only [System.outcome, hplain]
  · intro hc
    have hrelaxed := hr.relaxed hc
    simp only [System.outcome, hplain, hrelaxed, underSettings]

def clash : List (Rule Exact) :=
  [.fixed "width" (.fin 10) (.fin 1), .fixed "width" (.fin 20) (.fin 1)]

def clashing : Settings.Resolving Exact :=
  ⟨64, (.fin 800, .fin 400), ⟨1, .fin (1 / 1000000), true⟩⟩

def halfway : Backend Exact := fun vars _ => .ok (vars.map fun _ => .fin 15)

def clashed : Outcome Exact where
  solution :=
    { values := [("height", .fin 0), ("width", .fin 20), ("x", .fin 0), ("y", .fin 0)]
      constrained := ["width"]
      converged := false }
  constraints := 2

def clashSystem : System Exact where
  solver :=
    { (System.start clashing.solving).solver with
      constraints :=
        [⟨.fixed, [(⟨0, 2⟩, .fin 1)], .fin 10, .fin 1⟩,
          ⟨.fixed, [(⟨0, 2⟩, .fin 1)], .fin 20, .fin 1⟩] }
  names := [("width", ())]

theorem solve_clash : solve halfway clash none clashing = .ok clashed := by
  have horder : visitOrder clashSystem.solver.constraints = clashSystem.solver.constraints :=
    List.mergeSort_of_pairwise (by decide)
  refine solve_eq_ok.mpr ⟨clashSystem, rfl, ?_⟩
  rw [settle, Solver.solve, horder]
  with_unfolding_all rfl

theorem solve_clash_reports : solve halfway clash none clashing = .ok clashed ∧
    ∃ system o', System.ofRules clash none clashing = .ok system ∧
      solve (fun _ _ => .ok []) clash none clashing.withoutFallback = .ok o' ∧
      (∀ c ∈ system.solver.constraints, ∀ t ∈ c.terms, ∃ v,
        system.solver.vars[t.1.index]? = some v ∧
          (clashed.solution.get? v.name).isSome = true) ∧
      (clashed.solution.converged = true ↔ ∀ c ∈ system.solver.constraints,
        c.isSatisfied (clashed.solution.reading system.solver.vars)
          clashing.solving.epsilon = true) ∧
      (clashed.solution.converged = false → clashed.solution.values = o'.solution.values) ∧
      o'.solution.converged = system.solver.solve.2 ∧
      (system.solver.solve.2 = true → clashed.solution.values = o'.solution.values) :=
  ⟨solve_clash, solve_reports_convergence halfway (fun _ _ => .ok []) clash none clashing clashed
    solve_clash⟩

end Layout
end Scene
