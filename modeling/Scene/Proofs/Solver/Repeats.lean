import Mathlib.Algebra.Order.Field.Basic
import Scene.Proofs.Solver.Objectives
import Scene.Proofs.Solver.Spreading

/-! Equations over unbounded variables, which may name a variable several times. Each term takes its
share of the gap by itself, while the sum feels every term of the variable that moves; so a step
turns the gap into a fixed multiple of it, which is zero where no variable is repeated. -/
namespace Scene.Solver

def Constraint.Unbounded (c : Constraint Exact) (vars : List (Variable Exact)) : Prop :=
  ∀ t ∈ c.terms, ∀ v, vars[t.1.index]? = some v → v.min = .negInf ∧ v.max = .posInf

namespace Constraint

def weighted (c : Constraint Exact) : List (Handle × Exact) :=
  c.terms.filter fun t => !(t.2 == Scalar.zero)

/-- What the coefficients of a variable add up to. -/
def total (c : Constraint Exact) (i : Nat) : Rat :=
  ((c.terms.filter (·.1.index = i)).map fun t => t.2.base).sum

/-- How far a variable is moved by shares of one. -/
def lever (c : Constraint Exact) (i : Nat) : Rat :=
  ((c.weighted.filter (·.1.index = i)).map fun t => 1 / t.2.base).sum

/-- How far the sum is moved when a gap of one is shared out. -/
def response (c : Constraint Exact) : Rat :=
  (c.terms.map fun t => t.2.base * c.lever t.1.index).sum / c.weighted.length

/-- What a step makes of a gap of one. -/
def residue (c : Constraint Exact) : Rat := 1 - c.response

end Constraint

variable {vars : List (Variable Exact)} {v : Variable Exact} {c : Constraint Exact}
  {epsilon : Exact} {i : Nat} {q : Rat}

theorem Constraint.Unbounded.of_forall (hvars : ∀ v ∈ vars, v.min = .negInf ∧ v.max = .posInf) :
    c.Unbounded vars := fun _ _ v hv => hvars v (List.mem_of_getElem? hv)

theorem Constraint.Unbounded.of_same {vars' : List (Variable Exact)} (h : c.Unbounded vars)
    (hsame : SameButValues vars' vars) : c.Unbounded vars' := by
  intro t ht w hw
  obtain ⟨v, hv, hmin, hmax⟩ := hsame.symm.exists_same hw
  rw [← hmin, ← hmax]
  exact h t ht v hv

theorem Variable.value_setValue_of_unbounded (hmin : v.min = .negInf) (hmax : v.max = .posInf)
    (q : Rat) : (v.setValue (.fin q)).value = .fin q := by
  change Scalar.clamp v.min v.max _ = _
  rw [hmin, hmax]
  exact Scalar.clamp_unbounded rfl

theorem Variable.Held.canMove_of_unbounded (hv : v.Held) (hmin : v.min = .negInf)
    (hmax : v.max = .posInf) (hq : q ≠ 0) : v.canMove (.fin q) = true := by
  obtain ⟨p, hp⟩ := Exact.exists_fin_of_isFinite hv.finite
  rcases lt_or_gt_of_ne hq with hneg | hpos
  · rw [v.canMove_of_neg hneg, hp, hmin]
    rfl
  · rw [v.canMove_of_pos hpos, hp, hmax]
    rfl

/-- Without bounds every share is taken in full. -/
theorem Variable.Held.value_takeShares (hv : v.Held) (hmin : v.min = .negInf)
    (hmax : v.max = .posInf) (share : Rat) {terms : List (Handle × Exact)}
    (hterms : ∀ t ∈ terms, IsWeight t.2) :
    (v.takeShares (.fin share) terms).value =
      .fin (v.value.base + share * (terms.map fun t => 1 / t.2.base).sum) := by
  induction terms generalizing v with
  | nil => rw [List.map_nil, List.sum_nil, mul_zero, add_zero, Exact.fin_base hv.finite]; rfl
  | cons t terms ih =>
    obtain ⟨ht, hterms⟩ := List.forall_mem_cons.mp hterms
    have hmoved := v.value_setValue_of_unbounded hmin hmax (v.value.base + share / t.2.base)
    have htake : v.takeShares (.fin share) (t :: terms) =
        (v.setValue (.fin (v.value.base + share / t.2.base))).takeShares (.fin share) terms := by
      rw [← hv.add_share ht]
      rfl
    rw [htake, ih (hv.setValue _) hmin hmax hterms, hmoved, List.map_cons, List.sum_cons]
    change Exact.fin (v.value.base + share / t.2.base + _) = _
    refine congrArg Exact.fin ?_
    ring

theorem Constraint.lever_of_distinct (hdistinct : (c.weighted.map (·.1.index)).Nodup)
    {t : Handle × Exact} (ht : t ∈ c.weighted) : c.lever t.1.index = 1 / t.2.base := by
  rw [lever, filter_place_eq_singleton hdistinct ht, List.map_singleton, List.sum_singleton]

namespace Constraint.IsFinite
variable (h : c.IsFinite)
include h

theorem isWeight_of_weighted : ∀ t ∈ c.weighted, IsWeight t.2 := by
  intro t ht
  obtain ⟨hterm, hne⟩ := List.mem_filter.mp ht
  exact ⟨h.coefficients t hterm, Bool.not_eq_true' _ ▸ hne⟩

theorem weighted_ne_nil {i : Nat} (hi : c.total i ≠ 0) : c.weighted ≠ [] := by
  intro hnone
  refine hi (List.sum_eq_zero (List.forall_mem_map.mpr fun t ht => ?_))
  have hterm := List.mem_of_mem_filter ht
  have hzero := List.filter_eq_nil_iff.mp hnone t hterm
  exact h.base_eq_zero hterm (by simpa using hzero)

/-- Without a repeated variable a step closes the gap. -/
theorem residue_eq_zero (hdistinct : (c.weighted.map (·.1.index)).Nodup)
    (hne : c.weighted ≠ []) : c.residue = 0 := by
  have hones : c.weighted.map (fun t => t.2.base * c.lever t.1.index) =
      c.weighted.map fun _ => (1 : Rat) := by
    refine List.map_congr_left fun t ht => ?_
    have hweight := (h.isWeight_of_weighted t ht).base_ne_zero
    rw [lever_of_distinct hdistinct ht, mul_one_div_cancel hweight]
  have hrest : ∀ t ∈ c.terms, (!(t.2 == Scalar.zero)) = false →
      t.2.base * c.lever t.1.index = 0 := by
    intro t ht hzero
    rw [h.base_eq_zero ht (by simpa using hzero), zero_mul]
  have hsum : (c.terms.map fun t => t.2.base * c.lever t.1.index).sum = c.weighted.length := by
    rw [← sum_map_filter hrest, ← weighted, hones, List.map_const', List.sum_replicate,
      nsmul_eq_mul, mul_one]
  have hlength : (c.weighted.length : Rat) ≠ 0 :=
    Nat.cast_ne_zero.mpr (List.length_pos_iff.mpr hne).ne'
  rw [residue, response, hsum, div_self hlength, sub_self]

end Constraint.IsFinite

namespace Constraint.Ready
variable (h : c.Ready vars) (hunbounded : c.Unbounded vars)
include h

theorem spread_of_gap_eq_zero (hgap : c.gap vars = 0) : spread vars c = vars := by
  have hnone : movable vars c = [] := by
    refine List.eq_nil_iff_forall_not_mem.mpr fun t ht => ?_
    obtain ⟨hterm, hmovable⟩ := List.mem_filter.mp ht
    obtain ⟨v, hv, -⟩ := h.held t hterm
    have hstill : v.canMove (.fin 0) = false := rfl
    rw [h.difference_eq, hgap, isMovable_eq hv, (h.isWeight_of_movable t ht).fin_div, zero_div,
      hstill, Bool.and_false] at hmovable
    cases hmovable
  exact h.spread_of_movable_eq_nil hnone

include hunbounded

theorem movable_eq_weighted (hgap : c.gap vars ≠ 0) : movable vars c = c.weighted := by
  rw [movable, weighted, h.difference_eq]
  refine List.filter_congr fun t ht => ?_
  obtain ⟨v, hv, hheld⟩ := h.held t ht
  obtain ⟨hmin, hmax⟩ := hunbounded t ht v hv
  rw [isMovable_eq hv]
  cases hzero : t.2 == Scalar.zero with
  | true => rfl
  | false =>
    have hweight : IsWeight t.2 := ⟨h.finite.coefficients t ht, hzero⟩
    rw [hweight.fin_div]
    exact hheld.canMove_of_unbounded hmin hmax (div_ne_zero hgap hweight.base_ne_zero)

/-- A step moves each variable by its lever times the share. -/
theorem base_reading_spread {t : Handle × Exact} (ht : t ∈ c.terms) :
    (reading (spread vars c) t.1).base =
      (reading vars t.1).base + c.gap vars / c.weighted.length * c.lever t.1.index := by
  by_cases hgap : c.gap vars = 0
  · rw [h.spread_of_gap_eq_zero hgap, hgap, zero_div, zero_mul, add_zero]
  · obtain ⟨v, hv, hheld⟩ := h.held t ht
    obtain ⟨hmin, hmax⟩ := hunbounded t ht v hv
    have hmoved : (spread vars c)[t.1.index]? = some (v.takeShares
        (.fin (c.gap vars / c.weighted.length)) (c.weighted.filter (·.1.index = t.1.index))) := by
      rw [h.spread_eq, h.movable_eq_weighted hunbounded hgap, getElem?_foldl_moveTerm, hv]
      rfl
    have hweights : ∀ u ∈ c.weighted.filter (·.1.index = t.1.index), IsWeight u.2 := fun u hu =>
      h.finite.isWeight_of_weighted u (List.mem_of_mem_filter hu)
    rw [reading_eq _ hmoved, reading_eq _ hv, hheld.value_takeShares hmin hmax _ hweights]
    rfl

/-- Each step multiplies the gap by the same number. -/
theorem gap_spread : c.gap (spread vars c) = c.residue * c.gap vars := by
  have hmoves : (c.terms.map fun t =>
      t.2.base * ((reading (spread vars c) t.1).base - (reading vars t.1).base)) =
      c.terms.map fun t =>
        c.gap vars / c.weighted.length * (t.2.base * c.lever t.1.index) := by
    refine List.map_congr_left fun t ht => ?_
    rw [h.base_reading_spread hunbounded ht]
    ring
  have hchange := c.gap_sub_gap vars (spread vars c)
  rw [hmoves, List.sum_map_mul_left] at hchange
  have hresponse : c.gap vars / c.weighted.length *
      (c.terms.map fun t => t.2.base * c.lever t.1.index).sum = c.response * c.gap vars := by
    rw [Constraint.response]
    ring
  rw [hresponse] at hchange
  rw [Constraint.residue]
  linarith

end Constraint.Ready

/-- A tolerance is reached when some power of the multiple has made the gap small enough. -/
theorem isSatisfied_iterate_adjust (hkind : c.kind = .equal) (h : c.Ready vars)
    (hunbounded : c.Unbounded vars) (n : Nat) :
    c.isSatisfied (reading ((adjust epsilon · c)^[n] vars)) epsilon = true ↔
      ∃ m ≤ n, .fin (|c.gap vars| * |c.residue| ^ m) ≤ epsilon := by
  have hbinds : c.kind.isObjective = false := by rw [hkind]; rfl
  induction n generalizing vars with
  | zero =>
    rw [Function.iterate_zero, id_eq, h.isSatisfied_iff hbinds, hkind]
    simp [Kind.shortfall]
  | succ n ih =>
    have hsame : SameButValues (adjust epsilon vars c) vars := adjust_sameButValues ..
    rw [Function.iterate_succ_apply]
    refine (ih (h.adjust h) (hunbounded.of_same hsame)).trans ?_
    by_cases hnow : c.isSatisfied (reading vars) epsilon = true
    · have hstart : .fin (|c.gap vars| * |c.residue| ^ 0) ≤ epsilon := by
        rw [h.isSatisfied_iff hbinds, hkind] at hnow
        rwa [pow_zero, mul_one]
      rw [adjust_of_isSatisfied hnow]
      exact iff_of_true ⟨0, Nat.zero_le _, hstart⟩ ⟨0, Nat.zero_le _, hstart⟩
    · have hstep : |c.gap (adjust epsilon vars c)| = |c.gap vars| * |c.residue| := by
        have hshared : c.kind.isShared = true := by rw [hkind]; rfl
        rw [adjust, if_neg hnow, relax_of_isShared _ hshared, h.gap_spread hunbounded, abs_mul,
          mul_comm]
      have hstart : ¬.fin (|c.gap vars| * |c.residue| ^ 0) ≤ epsilon := by
        rw [h.isSatisfied_iff hbinds, hkind] at hnow
        rwa [pow_zero, mul_one]
      simp only [hstep, mul_assoc, ← pow_succ']
      constructor
      · rintro ⟨m, hm, hle⟩
        exact ⟨m + 1, Nat.succ_le_succ hm, hle⟩
      · rintro ⟨_ | m, hm, hle⟩
        · exact absurd hle hstart
        · exact ⟨m, Nat.le_of_succ_le_succ hm, hle⟩

/-- Solving for one equation over unbounded variables succeeds just where some power of its residue,
of no more factors than there are passes, makes its violation small enough. With no variable in
several of its weighted terms one pass is enough. -/
theorem repeats_scale_violation (s : Solver Exact) (hc : binding s.constraints = [c])
    (hkind : c.kind = .equal) (hready : c.Ready s.vars) (hunbounded : c.Unbounded s.vars) :
    (s.solve.2 = true ↔ ∃ n ≤ s.settings.maxIterations,
      c.violation (reading s.vars) * .fin (|c.residue| ^ n) ≤ s.settings.epsilon) ∧
      ((c.weighted.map (·.1.index)).Nodup → (∃ i, c.total i ≠ 0) →
        1 ≤ s.settings.maxIterations → Scalar.zero ≤ s.settings.epsilon → s.solve.2 = true) := by
  have hsolve : s.solve.2 = true ↔ ∃ n ≤ s.settings.maxIterations,
      .fin (|c.gap s.vars| * |c.residue| ^ n) ≤ s.settings.epsilon := by
    rw [solve_snd_of_binding hc, settled_of_binding hc]
    exact isSatisfied_iterate_adjust hkind hready hunbounded _
  refine ⟨?_, ?_⟩
  · rw [hready.violation_eq]
    exact hsolve
  · rintro hdistinct ⟨i, hi⟩ hpasses hepsilon
    have hresidue := hready.finite.residue_eq_zero hdistinct (hready.finite.weighted_ne_nil hi)
    refine hsolve.mpr ⟨1, hpasses, ?_⟩
    rw [hresidue, abs_zero, pow_one, mul_zero]
    exact hepsilon

def row : Constraint Exact :=
  ⟨.equal, [(⟨0, 0⟩, .fin 1), (⟨0, 0⟩, .fin 1), (⟨0, 1⟩, .fin 1)], .fin 9, .fin 1⟩

def rowSolver : Solver Exact where
  number := 0
  vars := ["wide", "narrow"].map fun name => .create name (.fin 0) .negInf .posInf
  constraints := [row]
  settings := ⟨6, .fin 1, false⟩

theorem row_ready : row.Ready rowSolver.vars :=
  Constraint.IsFinite.ready ⟨rfl, by decide⟩ (List.forall_mem_map.mpr fun _ _ => ⟨rfl, rfl, rfl⟩)
    (by decide)

theorem row_unbounded : row.Unbounded rowSolver.vars :=
  .of_forall (List.forall_mem_map.mpr fun _ _ => ⟨rfl, rfl⟩)

theorem row_solved : (binding rowSolver.constraints = [row] ∧ row.kind = .equal ∧
    row.Ready rowSolver.vars ∧ row.Unbounded rowSolver.vars) ∧ rowSolver.solve.2 = true :=
  ⟨⟨rfl, rfl, row_ready, row_unbounded⟩,
    (repeats_scale_violation rowSolver rfl rfl row_ready row_unbounded).1.mpr
      ⟨6, Nat.le_refl 6, by decide +kernel⟩⟩

def twice : Constraint Exact := ⟨.equal, [(⟨0, 0⟩, .fin 1), (⟨0, 0⟩, .fin 1)], .fin 10, .fin 1⟩

def twiceSolver : Solver Exact where
  number := 0
  vars := [.create "width" (.fin 0) .negInf .posInf]
  constraints := [twice]
  settings := .standard

theorem twice_ready : twice.Ready twiceSolver.vars :=
  Constraint.IsFinite.ready ⟨rfl, by decide⟩ (List.forall_mem_singleton.mpr ⟨rfl, rfl, rfl⟩)
    (by decide)

theorem twice_unbounded : twice.Unbounded twiceSolver.vars :=
  .of_forall (List.forall_mem_singleton.mpr ⟨rfl, rfl⟩)

/-- Both terms ask for half of the gap, and the sum goes twice as far as it should: from zero to
twenty and back in each two passes, and never to ten. -/
theorem twice_never_settles :
    (binding twiceSolver.constraints = [twice] ∧ twice.kind = .equal ∧
        twice.Ready twiceSolver.vars ∧ twice.Unbounded twiceSolver.vars ∧ twice.total 0 ≠ 0 ∧
        1 ≤ twiceSolver.settings.maxIterations ∧ Scalar.zero ≤ twiceSolver.settings.epsilon) ∧
      twiceSolver.solve.2 = false := by
  refine ⟨⟨rfl, rfl, twice_ready, twice_unbounded, by decide +kernel, by decide, by decide +kernel⟩,
    ?_⟩
  have hgap : twice.gap twiceSolver.vars = 10 := by decide +kernel
  have hresidue : twice.residue = -1 := by decide +kernel
  rw [← Bool.not_eq_true, solve_snd_of_binding (c := twice) rfl, settled_of_binding (c := twice) rfl,
    isSatisfied_iterate_adjust rfl twice_ready twice_unbounded, hgap, hresidue]
  rintro ⟨m, -, hle⟩
  rw [abs_neg, abs_one, one_pow, mul_one] at hle
  exact absurd hle (by decide +kernel)

end Scene.Solver
