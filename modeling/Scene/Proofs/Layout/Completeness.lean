import Scene.Proofs.Layout.Fallback
import Scene.Proofs.Solver.Ownership
import Scene.Proofs.Solver.Posing

/-! The exact fallback is complete for required constraints: a layout that can be satisfied exactly
is satisfied, however few passes relaxation may make, as long as the backend solves the problem that
is posed. -/
namespace Scene
variable {α : Type} [Scalar α]

namespace Solver

/-- Constraints are made of finite numbers only. -/
theorem Constraint.isFinite_of_make? {kind : Kind} {handles : List Handle} {coefficients : List α}
    {constant strength : α} {c : Constraint α}
    (h : make? kind handles coefficients constant strength = .ok c) : c.IsFinite := by
  unfold make? at h
  split at h
  · cases h
  · split at h
    · cases h
    · split at h
      · cases h
      · next hfinite =>
        split at h
        · cases h
        · cases h
          simp only [Bool.or_eq_true, Bool.not_eq_true', List.any_eq_true, not_or, not_exists,
            not_and, Bool.not_eq_false] at hfinite
          exact ⟨hfinite.1, fun t ht => hfinite.2 t.2 (List.of_mem_zip ht).2⟩

def IsFinite (s : Solver α) : Prop := ∀ c ∈ s.constraints, c.IsFinite

theorem IsFinite.addConstraint {s s' : Solver α} (h : s.IsFinite) {c : Constraint α}
    (hc : c.IsFinite) (hs : s.addConstraint? c = .ok s') : s'.IsFinite := by
  obtain ⟨rfl, -⟩ := addConstraint?_eq_ok hs
  exact List.forall_mem_append.mpr ⟨h, List.forall_mem_singleton.mpr hc⟩

end Solver

namespace Layout
open Solver

theorem isFinite_kept : Kept (fun s : Solver α => s.IsFinite) where
  create hs _ _ := hs
  bounded hs _ _ _ _ _ _ h := createBounded?_eq_ok h ▸ hs
  move hs _ _ h := setValue?_eq_ok h ▸ hs
  constrain hs _ _ _ _ _ _ hmake h := hs.addConstraint (Constraint.isFinite_of_make? hmake) h

theorem System.ofRules_isFinite {rules : List (Rule α)} {enclosing : Option (Container α)}
    {settings : Settings.Resolving α} {s : System α}
    (h : ofRules rules enclosing settings = .ok s) : s.solver.IsFinite :=
  isFinite_kept.ofRules (List.forall_mem_nil _) h

/-- A backend that, where the problem posed for a system can be solved at all, answers with a
minimiser. -/
def Minimises (backend : Backend Exact) (vars : List (Variable Exact))
    (constraints : List (Constraint Exact)) : Prop :=
  (∃ x, (Solver.Exact.pose vars constraints).Feasible x) →
    ∃ xs : List Rat, backend vars constraints = .ok (xs.map .fin) ∧ xs.length = vars.length ∧
      (Solver.Exact.pose vars constraints).IsMinimiser (Solver.Exact.assign xs)

theorem wellFormed_settled {s : Solver α} (h : s.WellFormed) :
    Solver.WellFormed { s with vars := s.settled } where
  names := by simpa only [(settled_sameButValues s).names] using h.names
  owned c hc t ht := by
    have howns : ∀ h, Solver.owns { s with vars := s.settled } h = s.owns h :=
      owns_congr rfl (settled_sameButValues s).length_eq
    rw [howns]
    exact h.owned c hc t ht

/-- Bounds and constraints survive relaxation, and so does what satisfies them. -/
theorem attains_settled {s : Solver Exact} {a : Nat → Exact}
    (h : Solver.Exact.Attains s.vars s.constraints a) :
    Solver.Exact.Attains s.settled s.constraints a := by
  refine ⟨fun i v hv => ?_, h.satisfied⟩
  have hi := (settled_sameButValues s).getElem? i
  rw [hv] at hi
  obtain ⟨w, hw, heq⟩ := Option.map_eq_some_iff.mp hi.symm
  obtain ⟨hname, hmin, hmax, hinitial⟩ : w.name = v.name ∧ w.min = v.min ∧ w.max = v.max ∧
      w.initial = v.initial := by simpa [Variable.fixedPart] using heq
  rw [← hmin, ← hmax]
  exact h.bounded i w hw

/-- With a backend that solves what is posed, a system of required constraints that can be satisfied
is. -/
theorem solveExact?_isSatisfied {backend : Backend Exact} {s : Solver Exact} (hw : s.WellFormed)
    (hfinite : s.IsFinite) (hepsilon : Scalar.zero ≤ s.settings.epsilon)
    (hrequired : ∀ c ∈ s.constraints, c.kind.isObjective = false → c.strength = Scalar.one)
    {a : Nat → Exact} (ha : Solver.Exact.Attains s.vars s.constraints a)
    (hbackend : Minimises backend s.vars s.constraints) :
    ∃ t, s.solveExact? backend = .ok (t, true) := by
  obtain ⟨xs, hanswer, hlength, hfeasible, -⟩ := hbackend (ha.feasible hfinite)
  have hover : ∀ c ∈ s.constraints, c.Over s.vars.length := fun c hc t ht =>
    (owns_eq_true.mp (hw.owned c hc t ht)).2
  have hholds := ha.allSatisfied_handOut hfinite hfeasible hlength hover
    (fun c hc hkind => by rw [hrequired c hc hkind]; rfl) hepsilon
  refine ⟨{ s with vars := handOut Variable.setValue s.vars (xs.map .fin) }, ?_⟩
  rw [solveExact?, hanswer, ok_bind]
  exact congrArg (fun b => Except.ok (_, b)) hholds

/-- With a tolerance that is not negative, the fallback on and nothing but required constraints
beside objectives, a layout that values within the bounds satisfy exactly converges after any number
of passes, if the backend solves the one problem that it may be asked to solve. -/
theorem exact_fallback_complete (backend : Backend Exact) (rules : List (Rule Exact))
    (enclosing : Option (Container Exact)) (settings : Settings.Resolving Exact)
    (system : System Exact) (hsystem : System.ofRules rules enclosing settings = .ok system)
    (hfallback : settings.solving.exactFallback = true)
    (hepsilon : Scalar.zero ≤ settings.solving.epsilon)
    (hrequired : ∀ c ∈ system.solver.constraints,
      c.kind.isObjective = false → c.strength = Scalar.one)
    (hattains : ∃ a, Solver.Exact.Attains system.solver.vars system.solver.constraints a)
    (hbackend : Minimises backend system.solver.solve.1.vars system.solver.constraints) :
    ∃ o, solve backend rules enclosing settings = .ok o ∧ o.solution.converged = true := by
  refine ⟨_, solve_eq_ok.mpr ⟨system, hsystem, rfl⟩, ?_⟩
  change (settle backend system.solver).2 = true
  rw [settle_eq]
  split
  · rfl
  · obtain ⟨a, ha⟩ := hattains
    have howned := wellFormed_settled (System.ofRules_wellFormed hsystem)
    have hrelaxed := attains_settled ha
    rw [← ofRules_settings hsystem] at hfallback hepsilon
    rw [solve_fst] at hbackend ⊢
    obtain ⟨t, ht⟩ := solveExact?_isSatisfied howned (System.ofRules_isFinite hsystem) hepsilon
      hrequired hrelaxed hbackend
    rw [fallBack, ht]
    simp [hfallback]

def beside : List (Rule Exact) :=
  [.linear .equal [("x", .fin 1), ("width", .fin 1)] (.fin 100) (.fin 1),
    .fixed "x" (.fin 40) (.fin 1)]

def hurried : Settings.Resolving Exact :=
  ⟨64, (.fin 800, .fin 400), ⟨1, .fin (1 / 1000000), true⟩⟩

def besideSystem : System Exact where
  solver :=
    { (System.start hurried.solving).solver with
      constraints :=
        [⟨.equal, [(⟨0, 0⟩, .fin 1), (⟨0, 2⟩, .fin 1)], .fin 100, .fin 1⟩,
          ⟨.fixed, [(⟨0, 0⟩, .fin 1)], .fin 40, .fin 1⟩] }
  names := [("width", ()), ("x", ())]

theorem visitOrder_beside :
    visitOrder besideSystem.solver.constraints = besideSystem.solver.constraints :=
  List.mergeSort_of_pairwise (by decide)

def answered : Backend Exact := fun _ _ => .ok ([40, 0, 60, 0].map .fin)

def besidePosed : Solver.Exact.Problem :=
  Solver.Exact.pose besideSystem.solver.solve.1.vars besideSystem.solver.constraints

theorem hard_besidePosed : besidePosed.hard =
    [⟨[(2, 1)], .atLeast, 0⟩, ⟨[(3, 1)], .atLeast, 0⟩, ⟨[(0, 1), (2, 1)], .exactly, 100⟩,
      ⟨[(0, 1)], .exactly, 40⟩] := by
  rw [besidePosed, Solver.solve, visitOrder_beside]
  with_unfolding_all rfl

theorem soft_besidePosed : besidePosed.soft =
    [(⟨[(0, 1)], .exactly, 40⟩, 1), (⟨[(1, 1)], .exactly, 0⟩, 1), (⟨[(2, 1)], .exactly, 50⟩, 1),
      (⟨[(3, 1)], .exactly, 0⟩, 1)] := by
  rw [besidePosed, Solver.solve, visitOrder_beside]
  with_unfolding_all rfl

/-- The width has to be 60, ten more than relaxation left. -/
theorem minimiser_besidePosed : besidePosed.IsMinimiser (Solver.Exact.assign [40, 0, 60, 0]) := by
  constructor
  · rw [Solver.Exact.Problem.Feasible, hard_besidePosed]
    decide +kernel
  · intro y hy
    rw [Solver.Exact.Problem.Feasible, hard_besidePosed] at hy
    have hends : y 0 + y 2 = 100 := by
      simpa [Solver.Exact.Relation.violation_eq_zero, Solver.Exact.Sign.Holds,
        Solver.Exact.Relation.sum] using hy ⟨[(0, 1), (2, 1)], .exactly, 100⟩ (by simp)
    have hstart : y 0 = 40 := by
      simpa [Solver.Exact.Relation.violation_eq_zero, Solver.Exact.Sign.Holds,
        Solver.Exact.Relation.sum] using hy ⟨[(0, 1)], .exactly, 40⟩ (by simp)
    have hwidth : y 2 = 60 := by linarith
    have hcost : besidePosed.cost (Solver.Exact.assign [40, 0, 60, 0]) = 10 := by
      rw [Solver.Exact.Problem.cost, soft_besidePosed]
      decide +kernel
    rw [hcost, Solver.Exact.Problem.cost, soft_besidePosed]
    simp only [List.foldl_cons, List.foldl_nil, Solver.Exact.Relation.violation,
      Solver.Exact.Relation.sum, hstart, hwidth]
    grind

theorem beside_attained : Solver.Exact.Attains besideSystem.solver.vars
    besideSystem.solver.constraints (fun i => .fin (Solver.Exact.assign [40, 0, 60, 0] i)) where
  bounded i v hv := by
    match i with
    | 0 | 1 | 2 | 3 =>
      cases hv
      decide +kernel
    | _ + 4 => cases hv
  satisfied := by decide +kernel

theorem beside_converges : besideSystem.solver.solve.2 = false ∧
    ∃ o, solve answered beside none hurried = .ok o ∧ o.solution.converged = true := by
  constructor
  · rw [Solver.solve, visitOrder_beside]
    with_unfolding_all rfl
  · refine exact_fallback_complete answered beside none hurried besideSystem rfl rfl
      (by decide +kernel) (by decide) ⟨_, beside_attained⟩ fun _ =>
        ⟨_, rfl, ?_, minimiser_besidePosed⟩
    rw [solve_fst]
    exact (settled_sameButValues besideSystem.solver).length_eq.symm

end Layout
end Scene
