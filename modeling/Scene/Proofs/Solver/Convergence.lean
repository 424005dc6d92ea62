import Scene.Solver
import Mathlib.Logic.Function.Iterate

/-! What relaxation reports. A pass is a fold of single adjustments and is clean exactly where it
finds everything satisfied, so an early end changes nothing and the answer of `solve` is the truth
about the values it leaves. -/
namespace Scene.Solver
variable {α : Type} [Scalar α]

def adjust (epsilon : α) (vars : List (Variable α)) (c : Constraint α) : List (Variable α) :=
  if c.isSatisfied (reading vars) epsilon then vars else relax vars c

def sweep (epsilon : α) (order : List (Constraint α)) (vars : List (Variable α)) :
    List (Variable α) :=
  order.foldl (adjust epsilon) vars

theorem sweep_cons (epsilon : α) (c : Constraint α) (order : List (Constraint α))
    (vars : List (Variable α)) :
    sweep epsilon (c :: order) vars = sweep epsilon order (adjust epsilon vars c) := rfl

theorem visit_eq (epsilon : α) (vars : List (Variable α)) (clean : Bool) (c : Constraint α) :
    visit epsilon (vars, clean) c =
      (adjust epsilon vars c, clean && c.isSatisfied (reading vars) epsilon) := by
  by_cases h : c.isSatisfied (reading vars) epsilon = true <;> simp [visit, adjust, h]

/-- Once something was found violated, the rest of a pass cannot make it clean. -/
theorem foldl_visit (epsilon : α) (order : List (Constraint α)) (vars : List (Variable α))
    (clean : Bool) :
    order.foldl (visit epsilon) (vars, clean) =
      (sweep epsilon order vars, clean && allSatisfied order epsilon vars) := by
  induction order generalizing vars clean with
  | nil => simp [sweep, allSatisfied]
  | cons c order ih =>
    rw [List.foldl_cons, visit_eq, ih, sweep_cons]
    by_cases h : c.isSatisfied (reading vars) epsilon = true
    · simp [adjust, allSatisfied, h]
    · simp [allSatisfied, h]

theorem pass_eq (epsilon : α) (order : List (Constraint α)) (vars : List (Variable α)) :
    pass epsilon order vars = (sweep epsilon order vars, allSatisfied order epsilon vars) := by
  rw [pass, foldl_visit, Bool.true_and]

/-- A pass that finds everything satisfied moves nothing. -/
theorem sweep_of_allSatisfied (epsilon : α) (order : List (Constraint α))
    (vars : List (Variable α)) (h : allSatisfied order epsilon vars = true) :
    sweep epsilon order vars = vars := by
  induction order with
  | nil => rfl
  | cons c order ih =>
    have hc : c.isSatisfied (reading vars) epsilon = true ∧
        allSatisfied order epsilon vars = true := by simpa [allSatisfied] using h
    rw [sweep_cons, adjust, if_pos hc.1]
    exact ih hc.2

/-- Passes may as well go on after a clean one. -/
theorem passes_fst (epsilon : α) (order : List (Constraint α)) (n : Nat)
    (vars : List (Variable α)) :
    (passes epsilon order n vars).1 = (sweep epsilon order)^[n] vars := by
  induction n generalizing vars with
  | zero => rfl
  | succ n ih =>
    rw [passes, pass_eq, Function.iterate_succ_apply]
    by_cases h : allSatisfied order epsilon vars = true
    · have hv := sweep_of_allSatisfied epsilon order vars h
      simp [h, hv, Function.iterate_fixed hv]
    · simpa [h] using ih (sweep epsilon order vars)

theorem allSatisfied_of_passes (epsilon : α) (order : List (Constraint α)) (n : Nat)
    (vars : List (Variable α)) (h : (passes epsilon order n vars).2 = true) :
    allSatisfied order epsilon (passes epsilon order n vars).1 = true := by
  induction n generalizing vars with
  | zero => simp [passes] at h
  | succ n ih =>
    rw [passes, pass_eq] at h ⊢
    by_cases hs : allSatisfied order epsilon vars = true
    · have hv := sweep_of_allSatisfied epsilon order vars hs
      simp [hs, hv]
    · simp only [hs] at h ⊢
      exact ih (sweep epsilon order vars) h

theorem allSatisfied_visitOrder (constraints : List (Constraint α)) (epsilon : α)
    (vars : List (Variable α)) :
    allSatisfied (visitOrder constraints) epsilon vars = allSatisfied constraints epsilon vars :=
  (List.mergeSort_perm constraints _).all_eq

def settled (s : Solver α) : List (Variable α) :=
  (sweep s.settings.epsilon (visitOrder s.constraints))^[s.settings.maxIterations] s.vars

theorem solve_fst (s : Solver α) : s.solve.1 = { s with vars := s.settled } := by
  simp [solve, settled, passes_fst]

/-- The flag of the passes adds nothing to a look at the values they leave. -/
theorem solve_snd (s : Solver α) : s.solve.2 = s.solve.1.isSatisfied := by
  have h := allSatisfied_of_passes s.settings.epsilon (visitOrder s.constraints)
    s.settings.maxIterations s.vars
  rw [allSatisfied_visitOrder] at h
  simp only [solve, isSatisfied, Bool.or_eq_right_iff_imp]
  exact h

theorem solve_of_isSatisfied (s : Solver α) (h : s.isSatisfied = true) : s.solve = (s, true) := by
  have hv : sweep s.settings.epsilon (visitOrder s.constraints) s.vars = s.vars :=
    sweep_of_allSatisfied _ _ _ ((allSatisfied_visitOrder ..).trans h)
  have hs : s.solve.1 = s := by
    rw [solve_fst, settled, Function.iterate_fixed hv]
  exact Prod.ext hs (by rw [solve_snd, hs, h])

/-- Solving answers whether every constraint holds afterwards, and a solver in which every one holds
is left as it is; so a second go after success does nothing. -/
theorem solve_reports_satisfaction (s : Solver α) :
    (s.solve.2 = true ↔ s.solve.1.isSatisfied = true) ∧
      (s.isSatisfied = true → s.solve = (s, true)) ∧
      (s.solve.2 = true → s.solve.1.solve = (s.solve.1, true)) := by
  refine ⟨by rw [solve_snd], solve_of_isSatisfied s, ?_⟩
  intro h
  rw [solve_snd] at h
  exact solve_of_isSatisfied s.solve.1 h

end Scene.Solver
