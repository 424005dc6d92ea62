import Scene.Proofs.Solver.Locality
import Scene.Proofs.Solver.VisitOrder

/-! Objectives are never violated, so relaxation solves a system as it solves the constraints that
bind. -/
namespace Scene.Solver
variable {α : Type}

/-- The constraints that can be violated. -/
def binding (constraints : List (Constraint α)) : List (Constraint α) :=
  constraints.filter fun c => !c.kind.isObjective

variable [Scalar α]

theorem binding_visitOrder (constraints : List (Constraint α)) :
    binding (visitOrder constraints) = visitOrder (binding constraints) :=
  filter_mergeSort visitsFirst_trans visitsFirst_total _ constraints

theorem allSatisfied_binding (constraints : List (Constraint α)) (epsilon : α)
    (vars : List (Variable α)) :
    allSatisfied (binding constraints) epsilon vars = allSatisfied constraints epsilon vars := by
  induction constraints with
  | nil => rfl
  | cons c constraints ih =>
    simp only [allSatisfied, binding, List.all_cons] at ih ⊢
    cases hc : c.kind.isObjective with
    | true => simp [hc, ih, c.isSatisfied_of_isObjective _ _ hc]
    | false => simp [hc, ih]

theorem sweep_binding (epsilon : α) (order : List (Constraint α)) (vars : List (Variable α)) :
    sweep epsilon (binding order) vars = sweep epsilon order vars := by
  induction order generalizing vars with
  | nil => rfl
  | cons c order ih =>
    cases hc : c.kind.isObjective with
    | true =>
      have hstay : adjust epsilon vars c = vars := if_pos (c.isSatisfied_of_isObjective _ _ hc)
      rw [sweep_cons, hstay, ← ih, binding, List.filter_cons_of_neg (by simp [hc]), binding]
    | false =>
      rw [sweep_cons, ← ih, binding, List.filter_cons_of_pos (by simp [hc]), sweep_cons, binding]

variable {s : Solver α}

theorem settled_eq_of_visitOrder {order : List (Constraint α)}
    (horder : visitOrder (binding s.constraints) = order) :
    s.settled = (sweep s.settings.epsilon order)^[s.settings.maxIterations] s.vars := by
  have hsweep : sweep s.settings.epsilon order =
      sweep s.settings.epsilon (visitOrder s.constraints) := by
    funext vars
    rw [← horder, ← binding_visitOrder, sweep_binding]
  rw [settled, hsweep]

theorem solve_snd_eq_binding :
    s.solve.2 = allSatisfied (binding s.constraints) s.settings.epsilon s.settled := by
  rw [allSatisfied_binding, solve_snd, solve_fst]
  rfl

section
variable {c : Constraint α} {epsilon : α} {vars : List (Variable α)}

theorem adjust_of_isSatisfied (h : c.isSatisfied (reading vars) epsilon = true) :
    adjust epsilon vars c = vars := if_pos h

theorem adjust_of_not_isSatisfied (h : c.isSatisfied (reading vars) epsilon = false) :
    adjust epsilon vars c = relax vars c := if_neg (Bool.eq_false_iff.mp h)

theorem iterate_adjust_of_isSatisfied (h : c.isSatisfied (reading vars) epsilon = true) (n : Nat) :
    (adjust epsilon · c)^[n] vars = vars := Function.iterate_fixed (adjust_of_isSatisfied h) n

end

/-- Solving for a single constraint is adjusting it again and again. -/
theorem settled_of_binding {c : Constraint α} (hc : binding s.constraints = [c]) :
    s.settled =
      (adjust s.settings.epsilon · c)^[s.settings.maxIterations] s.vars :=
  settled_eq_of_visitOrder ((congrArg visitOrder hc).trans (List.mergeSort_singleton c))

theorem solve_snd_of_binding {c : Constraint α} (hc : binding s.constraints = [c]) :
    s.solve.2 = c.isSatisfied (reading s.settled) s.settings.epsilon := by
  rw [solve_snd_eq_binding, hc, allSatisfied, List.all_cons, List.all_nil, Bool.and_true]

end Scene.Solver
