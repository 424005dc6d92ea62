import Scene.Proofs.Scalar.Reach
import Scene.Proofs.Solver.Saturation

/-! A single constraint over different variables. Where no variable has room any more in the
direction of the gap, each is at its bound in that direction, and no values within the bounds bring
the sum nearer; so relaxation solves the constraint whenever something does. -/
namespace Scene.Solver
variable {vars : List (Variable Exact)} {v : Variable Exact} {c : Constraint Exact}
  {epsilon : Exact} {t : Handle × Exact} {d : Rat} {a : Handle → Exact}

/-- The values are within the bounds of the variables that the constraint names. -/
def Constraint.Admits (c : Constraint Exact) (vars : List (Variable Exact)) (a : Handle → Exact) :
    Prop :=
  ∀ t ∈ c.terms, ∀ v, vars[t.1.index]? = some v → v.min ≤ a t.1 ∧ a t.1 ≤ v.max

def Variable.limit (v : Variable Exact) (d : Exact) : Exact :=
  if Scalar.zero < d then v.max else v.min

namespace Variable

theorem limit_of_pos (v : Variable Exact) (hd : 0 < d) : v.limit (.fin d) = v.max :=
  if_pos (Exact.fin_lt.mpr hd)

theorem limit_of_neg (v : Variable Exact) (hd : d < 0) : v.limit (.fin d) = v.min :=
  if_neg (Exact.not_fin_lt.mpr (Exact.fin_le.mpr hd.le))

namespace Held
variable (hv : v.Held) (hd : d ≠ 0) (hstuck : v.canMove (.fin d) = false)
include hv hd hstuck

theorem value_eq_limit : v.value = v.limit (.fin d) := by
  rcases lt_or_gt_of_ne hd with hneg | hpos
  · rw [v.canMove_of_neg hneg] at hstuck
    rw [v.limit_of_neg hneg]
    exact (Exact.eq_of_le_of_not_lt hv.lower (of_decide_eq_false hstuck)).symm
  · rw [v.canMove_of_pos hpos] at hstuck
    rw [v.limit_of_pos hpos]
    exact Exact.eq_of_le_of_not_lt hv.upper (of_decide_eq_false hstuck)

/-- Nothing within the bounds is further on than a variable without room. -/
theorem short {x : Exact} (hlower : v.min ≤ x) (hupper : x ≤ v.max) :
    Exact.Short d v.value.base x := by
  have hlimit := hv.value_eq_limit hd hstuck
  rw [← Exact.fin_base hv.finite] at hlimit
  rcases lt_or_gt_of_ne hd with hneg | hpos
  · rw [v.limit_of_neg hneg] at hlimit
    rw [← hlimit] at hlower
    cases x with
    | fin p =>
      have hback : v.value.base - p ≤ 0 := sub_nonpos.mpr (Exact.fin_le.mp hlower)
      exact .inr (.inr ⟨p, rfl, mul_nonneg_of_nonpos_of_nonpos hneg.le hback⟩)
    | posInf => exact .inr (.inl (Exact.scaledInf_eq_posInf.mpr (neg_pos.mpr hneg)).symm)
    | _ => cases hlower
  · rw [v.limit_of_pos hpos] at hlimit
    rw [← hlimit] at hupper
    cases x with
    | fin p =>
      have hback : 0 ≤ v.value.base - p := sub_nonneg.mpr (Exact.fin_le.mp hupper)
      exact .inr (.inr ⟨p, rfl, mul_nonneg hpos.le hback⟩)
    | negInf => exact .inr (.inl (Exact.scaledInf_eq_negInf.mpr (neg_neg_of_pos hpos)).symm)
    | _ => cases hupper

end Held
end Variable

namespace Constraint.Ready
variable (h : c.Ready vars)
include h

theorem admits : c.Admits vars (reading vars) := by
  intro t ht v hv
  obtain ⟨w, hw, hheld⟩ := h.held t ht
  obtain rfl : v = w := Option.some.inj (hv.symm.trans hw)
  rw [reading_eq _ hv]
  exact ⟨hheld.lower, hheld.upper⟩

variable (hnone : movable vars c = [])
include hnone

theorem canMove_of_saturated (ht : t ∈ c.terms) (hweight : IsWeight t.2)
    (hv : vars[t.1.index]? = some v) : v.canMove (.fin (c.gap vars / t.2.base)) = false := by
  have hstuck := List.filter_eq_nil_iff.mp hnone t ht
  rw [h.difference_eq, isMovable_eq hv, hweight.2, hweight.fin_div] at hstuck
  exact Bool.eq_false_iff.mpr hstuck

variable (hgap : c.gap vars ≠ 0)
include hgap

/-- Every variable that counts is at its bound in the direction of the gap. -/
theorem value_eq_limit (ht : t ∈ c.terms) (hcounts : (t.2 == Scalar.zero) = false)
    (hv : vars[t.1.index]? = some v) :
    v.value = v.limit ((c.constant - c.evaluate (reading vars)) / t.2) := by
  have hweight : IsWeight t.2 := ⟨h.finite.coefficients t ht, hcounts⟩
  obtain ⟨w, hw, hheld⟩ := h.held t ht
  obtain rfl : v = w := Option.some.inj (hv.symm.trans hw)
  rw [h.difference_eq, hweight.fin_div]
  exact hheld.value_eq_limit (div_ne_zero hgap hweight.base_ne_zero)
    (h.canMove_of_saturated hnone ht hweight hv)

theorem short_term (ha : c.Admits vars a) (ht : t ∈ c.terms) :
    Exact.Short (c.gap vars) (t.2.base * (reading vars t.1).base) (t.2 * a t.1) := by
  obtain ⟨v, hv, hheld⟩ := h.held t ht
  obtain ⟨hlower, hupper⟩ := ha t ht v hv
  have hfinite := h.finite.coefficients t ht
  cases hcounts : t.2 == Scalar.zero with
  | true =>
    have hzero := h.finite.base_eq_zero ht hcounts
    have hnothing : t.2 = .fin 0 := by rw [← Exact.fin_base hfinite, hzero]
    rw [hzero, zero_mul, hnothing]
    exact .of_zero _ _
  | false =>
    have hweight : IsWeight t.2 := ⟨hfinite, hcounts⟩
    have hstuck := h.canMove_of_saturated hnone ht hweight hv
    have hshort := hheld.short (div_ne_zero hgap hweight.base_ne_zero) hstuck hlower hupper
    have hterm := hshort.mul hweight.base_ne_zero
    rwa [Exact.fin_base hfinite, ← reading_eq t.1 hv] at hterm

theorem short (ha : c.Admits vars a) :
    Exact.Short (c.gap vars) (c.constant.base - c.gap vars) (c.evaluate a) := by
  have hstart : Exact.Short (c.gap vars) 0 (.fin 0) :=
    .inr (.inr ⟨0, rfl, by rw [sub_self, mul_zero]⟩)
  have hsum := Exact.Short.sum (fun t ht => h.short_term hnone hgap ha ht) hstart
  rwa [zero_add, ← sub_sub_cancel c.constant.base (List.sum _)] at hsum

/-- No values within the bounds bring the sum nearer. -/
theorem not_violation_lt (ha : c.Admits vars a) :
    ¬c.violation a < c.violation (reading vars) := by
  have hnearest := (h.short hnone hgap ha).not_abs_sub_lt
  rwa [sub_add_cancel, Exact.fin_base h.finite.constant, ← h.violation_eq] at hnearest

/-- What holds for any values within the bounds holds already. -/
theorem isSatisfied_of_admits (hshared : c.kind.isShared = true) (hepsilon : Scalar.zero ≤ epsilon)
    (ha : c.Admits vars a) (hholds : c.isSatisfied a epsilon = true) :
    c.isSatisfied (reading vars) epsilon = true := by
  have hshort := h.short hnone hgap ha
  have hconstant : .fin (c.constant.base - c.gap vars + c.gap vars) = c.constant := by
    rw [sub_add_cancel, Exact.fin_base h.finite.constant]
  rw [h.isSatisfied_iff (Kind.isObjective_of_isShared hshared)]
  unfold Constraint.isSatisfied at hholds
  cases hkind : c.kind <;> rw [hkind] at hshared hholds
  case fixed | minimize | maximize => cases hshared
  case equal =>
    have hviolation : c.violation a ≤ epsilon := of_decide_eq_true hholds
    have hnear := Scalar.le_of_not_lt (Scalar.Ordered.isNaN_of_le hviolation).1
      (by rw [h.violation_eq]; rfl) (h.not_violation_lt hnone hgap ha)
    rw [h.violation_eq] at hnear
    exact Exact.le_trans hnear hviolation
  case lessEqual =>
    rcases lt_or_gt_of_ne hgap with hneg | hpos
    · rw [← hconstant] at hholds
      exact hshort.le_of_le_add hneg (of_decide_eq_true hholds)
    · exact Exact.le_trans (Exact.fin_le.mpr (neg_nonpos.mpr hpos.le)) hepsilon
  case greaterEqual =>
    rcases lt_or_gt_of_ne hgap with hneg | hpos
    · exact Exact.le_trans (Exact.fin_le.mpr hneg.le) hepsilon
    · rw [← hconstant] at hholds
      exact hshort.le_of_sub_le hpos (of_decide_eq_true hholds)

end Constraint.Ready

theorem Constraint.Admits.of_same {vars' : List (Variable Exact)} (ha : c.Admits vars a)
    (hsame : SameButValues vars' vars) : c.Admits vars' a := by
  intro t ht w hw
  obtain ⟨v, hv, hmin, hmax⟩ := hsame.symm.exists_same hw
  rw [← hmin, ← hmax]
  exact ha t ht v hv

/-- A single constraint is solved whenever some values within the bounds satisfy it. Otherwise the
variables that count end at the bounds that bring the sum nearest to the constant. -/
theorem single_constraint_solved (s : Solver Exact) (hc : binding s.constraints = [c])
    (hshared : c.kind.isShared = true) (hready : c.Ready s.vars)
    (hdistinct : (c.terms.map (·.1.index)).Nodup) (hepsilon : Scalar.zero ≤ s.settings.epsilon)
    (hpasses : c.terms.length ≤ s.settings.maxIterations) :
    (s.solve.2 = true ↔ ∃ a, c.Admits s.vars a ∧ c.isSatisfied a s.settings.epsilon = true) ∧
      (s.solve.2 = false →
        (∀ t ∈ c.terms, (t.2 == Scalar.zero) = false →
          ∀ v, s.solve.1.vars[t.1.index]? = some v →
            v.value = v.limit ((c.constant - c.evaluate (reading s.solve.1.vars)) / t.2)) ∧
          ∀ a, c.Admits s.vars a → ¬c.violation a < c.violation (reading s.solve.1.vars)) := by
  have hend : c.Ready s.settled := by
    rw [settled_of_binding hc]
    exact hready.iterate_adjust _
  have hsame : SameButValues s.settled s.vars := s.settled_sameButValues
  have hbinds := Kind.isObjective_of_isShared hshared
  have hrun : c.isSatisfied (reading s.settled) s.settings.epsilon = true ∨
      movable s.settled c = [] := by
    rw [settled_of_binding hc]
    exact hready.settles_or_saturates hdistinct hshared hepsilon
      ((List.length_filter_le _ _).trans hpasses)
  have hopen (hviolated : c.isSatisfied (reading s.settled) s.settings.epsilon ≠ true) :
      c.gap s.settled ≠ 0 := fun hgap =>
    hviolated (hend.isSatisfied_of_gap_eq_zero hbinds hepsilon hgap)
  rw [solve_snd_of_binding hc, solve_fst]
  have hvalues : c.Admits s.vars (reading s.settled) := hend.admits.of_same hsame.symm
  refine ⟨⟨fun hholds => ⟨_, hvalues, hholds⟩, ?_⟩, fun hviolated => ?_⟩
  · rintro ⟨a, ha, hholds⟩
    by_contra hviolated
    exact hviolated (hend.isSatisfied_of_admits (hrun.resolve_left hviolated) (hopen hviolated)
      hshared hepsilon (ha.of_same hsame) hholds)
  · have hviolated := Bool.eq_false_iff.mp hviolated
    have hnone := hrun.resolve_left hviolated
    have hgap := hopen hviolated
    exact ⟨fun t ht hcounts v hv => hend.value_eq_limit hnone hgap ht hcounts hv,
      fun a ha => hend.not_violation_lt hnone hgap (ha.of_same hsame)⟩

def balance : Constraint Exact :=
  ⟨.equal, [(⟨0, 0⟩, .fin 2), (⟨0, 1⟩, .fin (-1)), (⟨0, 2⟩, .fin 0)], .fin 17, .fin 1⟩

def balanceSolver : Solver Exact where
  number := 0
  vars := [.create "up" (.fin 0) (.fin 0) (.fin 4), .create "down" (.fin 0) .negInf (.fin 5),
    .create "idle" (.fin 7) .negInf .posInf]
  constraints := [balance]
  settings := ⟨3, .fin 0, false⟩

theorem balance_ready : balance.Ready balanceSolver.vars := by
  refine Constraint.IsFinite.ready ⟨rfl, by decide⟩ ?_ (by decide)
  simp only [balanceSolver, List.forall_mem_cons]
  exact ⟨⟨rfl, rfl, rfl⟩, ⟨rfl, rfl, rfl⟩, ⟨rfl, rfl, rfl⟩, nofun⟩

def balanced (h : Handle) : Exact := if h.index = 0 then .fin 4 else .fin (-9)

theorem balance_admits : balance.Admits balanceSolver.vars balanced := by
  intro t ht v hv
  simp only [balance, List.mem_cons, List.not_mem_nil, or_false] at ht
  rcases ht with rfl | rfl | rfl
  all_goals
    cases hv
    decide +kernel

theorem balance_solved : (binding balanceSolver.constraints = [balance] ∧
      balance.kind.isShared = true ∧ balance.Ready balanceSolver.vars ∧
      (balance.terms.map (·.1.index)).Nodup ∧ Scalar.zero ≤ balanceSolver.settings.epsilon ∧
      balance.terms.length ≤ balanceSolver.settings.maxIterations) ∧
    balanceSolver.solve.2 = true :=
  ⟨⟨rfl, rfl, balance_ready, by decide, by decide +kernel, by decide⟩,
    (single_constraint_solved balanceSolver rfl rfl balance_ready (by decide) (by decide +kernel)
      (by decide)).1.mpr ⟨balanced, balance_admits, by decide +kernel⟩⟩

end Scene.Solver
