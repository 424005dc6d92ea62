import Mathlib.Algebra.Order.BigOperators.Group.List
import Mathlib.Tactic.Linarith
import Scene.Proofs.Solver.Bounds
import Scene.Proofs.Solver.Posing

/-! Solving exactly twice. The second time every variable is anchored at the value that the first
time gave it. By the triangle inequality other values gain no more by the move of the anchors than
the old solution does, so it is the only best one again. -/
namespace Scene.Solver

namespace Exact

/-- One value for each variable, and no others, solve the problem. -/
structure Problem.OnlyMinimiser (p : Problem) (xs : List Rat) : Prop where
  length : xs.length = p.width
  minimises : p.IsMinimiser (assign xs)
  unique : ∀ ys : List Rat, ys.length = p.width → p.IsMinimiser (assign ys) → ys = xs

/-- A problem with the same solutions, whose cost rises away from `xs` at least as much. -/
theorem Problem.OnlyMinimiser.of_steeper {p q : Problem} {xs : List Rat} (h : p.OnlyMinimiser xs)
    (hwidth : q.width = p.width) (hfeasible : ∀ y, q.Feasible y ↔ p.Feasible y)
    (hsteeper : ∀ y, p.cost y + q.cost (assign xs) ≤ q.cost y + p.cost (assign xs)) :
    q.OnlyMinimiser xs where
  length := h.length.trans hwidth.symm
  minimises := by
    refine ⟨(hfeasible _).mpr h.minimises.1, fun y hy => ?_⟩
    have hbest := h.minimises.2 y ((hfeasible y).mp hy)
    have hrise := hsteeper y
    linarith
  unique ys hlength hys := by
    -- what is best for `q` costs no more than `xs` there, and so no more than `xs` for `p`
    refine h.unique ys (hlength.trans hwidth) ⟨(hfeasible _).mp hys.1, fun y hy => ?_⟩
    have hbest := h.minimises.2 y hy
    have hrise := hsteeper (assign ys)
    have hbetter := hys.2 _ ((hfeasible _).mpr h.minimises.1)
    linarith

def strain (v : Variable Exact) (q : Rat) : Rat :=
  (Scalar.toRat? v.value).elim 0 fun p => |q - p|

theorem Relation.violation_exactly (terms : List (Nat × Rat)) (k : Rat) (x : Nat → Rat) :
    (⟨terms, .exactly, k⟩ : Relation).violation x =
      |(⟨terms, .exactly, k⟩ : Relation).sum x - k| := by
  simp only [violation]
  split
  · next h => rw [abs_of_neg h]
  · next h => rw [abs_of_nonneg (not_lt.mp h)]

theorem Relation.violation_anchor (i : Nat) (p : Rat) (x : Nat → Rat) :
    (⟨[(i, 1)], .exactly, p⟩ : Relation).violation x = |x i - p| := by
  rw [violation_exactly, sum_eq]
  simp

theorem Problem.cost_eq (p : Problem) (x : Nat → Rat) :
    p.cost x = (p.soft.map fun r => r.2 * r.1.violation x).sum := by
  rw [cost, List.sum_eq_foldl, List.foldl_map]

theorem sum_anchors (vars : List (Variable Exact)) (x : Nat → Rat) :
    ((anchors vars).map fun r => r.2 * r.1.violation x).sum =
      (vars.zipIdx.map fun e => strain e.1 (x e.2)).sum := by
  unfold anchors
  induction vars.zipIdx with
  | nil => rfl
  | cons e rest ih =>
    rw [List.filterMap_cons, List.map_cons, List.sum_cons, ← ih, strain]
    cases hvalue : Scalar.toRat? e.1.value with
    | none => simp [hvalue]
    | some p => simp [hvalue, Relation.violation_anchor]

theorem cost_pose (vars : List (Variable Exact)) (constraints : List (Constraint Exact))
    (x : Nat → Rat) : (pose vars constraints).cost x =
      ((softRelations constraints).map fun r => r.2 * r.1.violation x).sum +
        (vars.zipIdx.map fun e => strain e.1 (x e.2)).sum := by
  rw [Problem.cost_eq, pose, List.map_append, List.sum_append, sum_anchors]

/-- The hard relations speak of bounds and constraints only. -/
theorem feasible_congr {vars vars' : List (Variable Exact)} (h : SameButValues vars' vars)
    (constraints : List (Constraint Exact)) (x : Nat → Rat) :
    (pose vars' constraints).Feasible x ↔ (pose vars constraints).Feasible x := by
  have hbounds {v w : List (Variable Exact)} (h : SameButValues v w)
      (hv : ∀ r ∈ boundRelations v, r.1.violation x = 0) :
      ∀ r ∈ boundRelations w, r.1.violation x = 0 := by
    refine (forall_boundRelations (·.violation x = 0)).mpr fun i u hu => ?_
    obtain ⟨y, hy, hmin, hmax⟩ := h.exists_same hu
    rw [← hmin, ← hmax]
    exact (forall_boundRelations (·.violation x = 0)).mp hv i y hy
  rw [Problem.Feasible, Problem.Feasible, forall_hard, forall_hard]
  exact and_congr_left fun _ => ⟨hbounds h, hbounds h.symm⟩

/-- No finite number is within such bounds. -/
theorem toRat?_of_within {lo hi x : Exact} (hforced : lo = .posInf ∨ hi = .negInf)
    (h : Scalar.Within lo hi x) : Scalar.toRat? x = none := by
  obtain hnan | ⟨hlo, hhi⟩ := h
  · cases x with
    | nan => rfl
    | _ => cases hnan
  · rcases hforced with rfl | rfl
    · rw [Exact.posInf_le.mp hlo]
      rfl
    · rw [Exact.le_negInf.mp hhi]
      rfl

section
variable {vars : List (Variable Exact)} {constraints : List (Constraint Exact)} {xs : List Rat}

/-- The values of a list, written to as many variables. -/
theorem zipIdx_handOut (hlength : xs.length = vars.length) :
    (handOut Variable.setValue vars (xs.map .fin)).zipIdx =
      vars.zipIdx.map fun e => (e.1.setValue (.fin (assign xs e.2)), e.2) := by
  refine List.ext_getElem? fun i => ?_
  rw [List.getElem?_zipIdx, List.getElem?_map, List.getElem?_zipIdx]
  cases hv : vars[i]? with
  | none =>
    have hout : (handOut Variable.setValue vars (xs.map .fin))[i]? = none := by
      rw [List.getElem?_eq_none_iff] at hv ⊢
      exact (SameButValues.handOut _ fixedPart_setValue vars _).length_eq ▸ hv
    rw [hout]
    rfl
  | some v =>
    have hlt : i < xs.length := hlength ▸ (List.getElem?_eq_some_iff.mp hv).1
    have hx : (xs.map Exact.fin)[i]? = some (.fin (assign xs i)) := by simp [assign, hlt]
    rw [getElem?_handOut Variable.setValue hv hx]
    simp

/-- What solves the posed problem is written to a variable as it is, or else as a number that no
anchor holds. -/
theorem clamp_or_loose {x : Nat → Rat} (hx : (pose vars constraints).Feasible x) {i : Nat}
    {v : Variable Exact} (hv : vars[i]? = some v) (hbounded : v.Bounded) :
    v.clamp (.fin (x i)) = .fin (x i) ∨
      Scalar.toRat? (v.clamp (.fin (x i))) = none ∧ Scalar.toRat? v.value = none := by
  by_cases hforced : v.min = .posInf ∨ v.max = .negInf
  · exact .inr ⟨toRat?_of_within hforced (Scalar.within_clamp hbounded.ordered _),
      toRat?_of_within hforced hbounded.value⟩
  · obtain ⟨hlo, hhi⟩ := not_or.mp hforced
    exact .inl (clamp_of_feasible hx hv hlo hhi)

/-- A value is nearer to the old value of a variable than to its new one by no more than these two
are apart. -/
theorem strain_setValue {x : Nat → Rat} (hx : (pose vars constraints).Feasible x) {i : Nat}
    {v : Variable Exact} (hv : vars[i]? = some v) (hbounded : v.Bounded) (q : Rat) :
    strain v q + strain (v.setValue (.fin (x i))) (x i) ≤
      strain (v.setValue (.fin (x i))) q + strain v (x i) := by
  simp only [strain, Variable.setValue]
  obtain hclamp | ⟨hclamp, hvalue⟩ := clamp_or_loose hx hv hbounded
  · have hnew : Scalar.toRat? (v.clamp (.fin (x i))) = some (x i) := toRat?_eq_some.mpr hclamp
    rw [hnew]
    cases Scalar.toRat? v.value with
    | none => simp
    | some p => simpa using abs_sub_le q (x i) p
  · rw [hclamp, hvalue]

/-- Anchoring the variables at a solution takes back what it costs to be away from the old anchors,
and no more than that anywhere. -/
theorem cost_handOut (hbounded : Bounded vars) (hlength : xs.length = vars.length)
    (hx : (pose vars constraints).Feasible (assign xs)) (y : Nat → Rat) :
    (pose vars constraints).cost y +
        (pose (handOut Variable.setValue vars (xs.map .fin)) constraints).cost (assign xs) ≤
      (pose (handOut Variable.setValue vars (xs.map .fin)) constraints).cost y +
        (pose vars constraints).cost (assign xs) := by
  have hstrain : (vars.zipIdx.map fun e => strain e.1 (y e.2)).sum +
        (vars.zipIdx.map fun e =>
          strain (e.1.setValue (.fin (assign xs e.2))) (assign xs e.2)).sum ≤
      (vars.zipIdx.map fun e => strain (e.1.setValue (.fin (assign xs e.2))) (y e.2)).sum +
        (vars.zipIdx.map fun e => strain e.1 (assign xs e.2)).sum := by
    rw [← List.sum_map_add, ← List.sum_map_add]
    refine List.sum_le_sum fun e he => ?_
    have hv := List.mem_zipIdx_iff_getElem?.mp he
    exact strain_setValue hx hv (hbounded _ (List.mem_of_getElem? hv)) (y e.2)
  simp only [cost_pose, zipIdx_handOut hlength, List.map_map, Function.comp_def]
  linarith

/-- The only best solution stays the only best one when the variables are anchored there. -/
theorem Problem.OnlyMinimiser.handOut (h : (pose vars constraints).OnlyMinimiser xs)
    (hbounded : Bounded vars) :
    (pose (Solver.handOut Variable.setValue vars (xs.map .fin)) constraints).OnlyMinimiser xs :=
  have hsame := SameButValues.handOut _ fixedPart_setValue vars (xs.map Exact.fin)
  h.of_steeper hsame.length_eq (feasible_congr hsame constraints)
    (cost_handOut hbounded h.length h.minimises.1)

end

/-- What is asked of a backend: it finds the only best solution where there is just one, and fails
where the hard relations cannot be kept. -/
structure Optimises (backend : Backend Exact) (vars : List (Variable Exact))
    (constraints : List (Constraint Exact)) : Prop where
  minimises : ∀ xs, (pose vars constraints).OnlyMinimiser xs →
    backend vars constraints = .ok (xs.map .fin)
  infeasible : (∀ x, ¬(pose vars constraints).Feasible x) →
    ∃ e, backend vars constraints = .error e

/-- A backend with an answer of least cost. -/
theorem Optimises.of_isMinimiser {backend : Backend Exact} {vars : List (Variable Exact)}
    {constraints : List (Constraint Exact)} {xs : List Rat} (hlength : xs.length = vars.length)
    (hmin : (pose vars constraints).IsMinimiser (assign xs))
    (hbackend : backend vars constraints = .ok (xs.map .fin)) :
    Optimises backend vars constraints where
  minimises ys hys := by
    rw [hbackend, hys.unique xs hlength hmin]
  infeasible hnone := absurd hmin.1 (hnone _)

end Exact

variable {α : Type} [Scalar α]

theorem handOut_again (vars : List (Variable α)) (values : List α) :
    handOut Variable.setValue (handOut Variable.setValue vars values) values =
      handOut Variable.setValue vars values := by
  induction vars generalizing values with
  | nil => rfl
  | cons v vars ih =>
    cases values with
    | nil => rfl
    | cons x values => exact congrArg _ (ih values)

theorem InPlace.solveExact_ok {backend : Backend α} {s : Solver α} {values : List α}
    (h : backend s.vars s.constraints = .ok values) :
    (solveExact backend).from s =
      (.ok (Solver.isSatisfied { s with vars := handOut Variable.setValue s.vars values }),
        { s with vars := handOut Variable.setValue s.vars values }) := by
  rw [from_solveExact, solveExact?, h]
  rfl

theorem InPlace.solveExact_error {backend : Backend α} {s : Solver α} {e : Error α}
    (h : backend s.vars s.constraints = .error e) :
    (solveExact backend).from s = (.error e, s) := by
  rw [from_solveExact, solveExact?, h]
  rfl

/-- Solving exactly twice is solving once, for any solver of any program, if there is a single best
solution before the first time. Nothing changes when there is none at all, nor when solving fails
for any other reason. -/
theorem solveExact_twice (steps : List (Backend Exact × Action Exact)) (backend : Backend Exact)
    (s : Solver Exact) (hs : s ∈ (Pool.runAll steps).solvers)
    (hfirst : Exact.Optimises backend s.vars s.constraints)
    (hsecond : Exact.Optimises backend ((InPlace.solveExact backend).from s).2.vars s.constraints) :
    (∀ xs, (Exact.pose s.vars s.constraints).OnlyMinimiser xs → ∃ b t,
      (InPlace.solveExact backend).from s = (.ok b, t) ∧
        (InPlace.solveExact backend).from t = (.ok b, t)) ∧
    ((∀ x, ¬(Exact.pose s.vars s.constraints).Feasible x) →
      ∃ e, (InPlace.solveExact backend).from s = (.error e, s)) ∧
    ∀ e t, (InPlace.solveExact backend).from s = (.error e, t) → t = s := by
  refine ⟨fun xs hxs => ?_, fun hnone => ?_, fun e t ht => ?_⟩
  · have hcall := InPlace.solveExact_ok (hfirst.minimises xs hxs)
    rw [hcall] at hsecond
    have hstays := hxs.handOut (Pool.bounded_runAll steps s hs)
    refine ⟨_, _, hcall, ?_⟩
    rw [InPlace.solveExact_ok (hsecond.minimises xs hstays)]
    simp only [handOut_again]
  · obtain ⟨e, he⟩ := hfirst.infeasible hnone
    exact ⟨e, InPlace.solveExact_error he⟩
  · cases hbackend : backend s.vars s.constraints with
    | ok values =>
      rw [InPlace.solveExact_ok hbackend] at ht
      cases ht
    | error e' =>
      rw [InPlace.solveExact_error hbackend] at ht
      exact (Prod.mk.inj ht).2.symm

def unstarted : Solver Exact where
  number := 0
  vars := [.create "left" .posInf .negInf .posInf, .create "right" (.fin 0) (.fin 0) (.fin 100)]
  constraints := [⟨.equal, [(⟨0, 0⟩, .fin 1), (⟨0, 1⟩, .fin 1)], .fin 100, .fin (1 / 2)⟩]
  settings := .standard

def startsOpen : List (Backend Exact × Action Exact) :=
  [.create .standard, .call 0 (.createVariable "left" .posInf),
    .call 0 (.createBounded "right" (.fin 0) (.fin 0) (.fin 100)),
    .call 0 (.addLinear .equal [⟨0, 0⟩, ⟨0, 1⟩] [.fin 1, .fin 1] (.fin 100) (.fin (1 / 2)))].map
    (Exact.backend, ·)

theorem unstarted_cost (x : Nat → Rat) :
    (Exact.pose unstarted.vars unstarted.constraints).cost x =
      1000 * |x 0 + x 1 - 100| + |x 1| := by
  have hsoft : Exact.softRelations unstarted.constraints =
      [(⟨[(0, 1), (1, 1)], .exactly, 100⟩, 1000)] := by decide +kernel
  have hanchors : unstarted.vars.zipIdx.map (fun e => Exact.strain e.1 (x e.2)) =
      [0, |x 1 - 0|] := rfl
  rw [Exact.cost_pose, hsoft, hanchors]
  simp [Exact.Relation.violation_exactly, Exact.Relation.sum_eq]

theorem unstarted_minimiser :
    (Exact.pose unstarted.vars unstarted.constraints).OnlyMinimiser [100, 0] := by
  have hfeasible : (Exact.pose unstarted.vars unstarted.constraints).Feasible
      (Exact.assign [100, 0]) := by
    unfold Exact.Problem.Feasible
    decide +kernel
  have hcost : (Exact.pose unstarted.vars unstarted.constraints).cost
      (Exact.assign [100, 0]) = 0 := by
    simp [unstarted_cost, Exact.assign]
  refine ⟨rfl, ⟨hfeasible, fun y _ => ?_⟩, fun ys hlength hys => ?_⟩
  · rw [hcost, unstarted_cost]
    positivity
  · obtain ⟨a, b, rfl⟩ := List.length_eq_two.mp hlength
    have hbest := hys.2 _ hfeasible
    rw [hcost, unstarted_cost] at hbest
    change 1000 * |a + b - 100| + |b| ≤ 0 at hbest
    have hb : b = 0 := abs_nonpos_iff.mp (by linarith [abs_nonneg (a + b - 100)])
    have hsum : a + b - 100 = 0 := abs_nonpos_iff.mp (by linarith [abs_nonneg b])
    have ha : a = 100 := by linarith
    rw [ha, hb]

theorem runAll_startsOpen : (Pool.runAll startsOpen).solvers = [unstarted] := by
  with_unfolding_all rfl

theorem unstarted_optimises : Exact.Optimises Exact.backend unstarted.vars unstarted.constraints :=
  .of_isMinimiser rfl unstarted_minimiser.minimises (by with_unfolding_all rfl)

/-- The other width keeps its start value, and the first one has an anchor from then on. -/
theorem unstarted_solved_twice :
    (unstarted ∈ (Pool.runAll startsOpen).solvers ∧
        Exact.Optimises Exact.backend unstarted.vars unstarted.constraints ∧
        Exact.Optimises Exact.backend
          ((InPlace.solveExact Exact.backend).from unstarted).2.vars unstarted.constraints ∧
        (Exact.pose unstarted.vars unstarted.constraints).OnlyMinimiser [100, 0]) ∧
      ∃ b t, (InPlace.solveExact Exact.backend).from unstarted = (.ok b, t) ∧
        (InPlace.solveExact Exact.backend).from t = (.ok b, t) := by
  have hmem : unstarted ∈ (Pool.runAll startsOpen).solvers := by
    rw [runAll_startsOpen]
    exact List.mem_singleton_self _
  have hsecond : Exact.Optimises Exact.backend
      ((InPlace.solveExact Exact.backend).from unstarted).2.vars unstarted.constraints := by
    rw [InPlace.solveExact_ok (unstarted_optimises.minimises _ unstarted_minimiser)]
    exact .of_isMinimiser rfl
      (unstarted_minimiser.handOut (Pool.bounded_runAll _ _ hmem)).minimises
      (by with_unfolding_all rfl)
  exact ⟨⟨hmem, unstarted_optimises, hsecond, unstarted_minimiser⟩,
    (solveExact_twice startsOpen Exact.backend unstarted hmem unstarted_optimises hsecond).1 _
      unstarted_minimiser⟩

end Scene.Solver
