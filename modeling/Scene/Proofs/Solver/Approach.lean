import Mathlib.Tactic.FieldSimp
import Scene.Proofs.Solver.Locality
import Scene.Proofs.Solver.Single

/-! One step for a constraint over different variables that have bounds. Each variable that has room
goes some way in the direction it is needed in, at most as far as its share, so that together they
do not pass the constant. -/
namespace Scene.Solver
variable {vars : List (Variable Exact)} {v w : Variable Exact} {c : Constraint Exact}
  {epsilon : Exact} {t : Handle × Exact} {d : Rat}

def Constraint.needed (c : Constraint Exact) (vars : List (Variable Exact)) (t : Handle × Exact) :
    Exact :=
  (c.constant - c.evaluate (reading vars)) / t.2

/-- Its share would take the variable of a term past one of its bounds. -/
def Stopped (vars : List (Variable Exact)) (c : Constraint Exact) (t : Handle × Exact) : Prop :=
  ∃ v, vars[t.1.index]? = some v ∧
    (v.value + share vars c / t.2 < v.min ∨ v.max < v.value + share vars c / t.2)

namespace Variable.Held
variable (hv : v.Held)
include hv

theorem value_le_iff (hw : w.Held) : v.value ≤ w.value ↔ v.value.base ≤ w.value.base := by
  rw [← Exact.fin_le, Exact.fin_base hv.finite, Exact.fin_base hw.finite]

theorem move (d : Rat) : (v.setValue (v.value + .fin d)).Held := by
  obtain ⟨q, hq⟩ := Exact.exists_fin_of_isFinite hv.finite
  rw [hq, Exact.fin_add]
  exact hv.setValue (q + d)

/-- A step goes in its direction. -/
theorem move_follows (d : Rat) :
    (0 ≤ d → v.value ≤ (v.setValue (v.value + .fin d)).value) ∧
      (d ≤ 0 → (v.setValue (v.value + .fin d)).value ≤ v.value) := by
  obtain ⟨r, hr, -, hmoved, -⟩ := hv.takes d
  rw [hv.value_le_iff (hv.move d), (hv.move d).value_le_iff hv]
  constructor <;> intro hd
  · exact sub_nonneg.mp (hmoved ▸ mul_nonneg hr hd)
  · exact sub_nonpos.mp (hmoved ▸ mul_nonpos_of_nonneg_of_nonpos hr hd)

/-- A step that there is room for goes some way. -/
theorem move_advances (hroom : v.canMove (.fin d) = true) :
    0 < ((v.setValue (v.value + .fin d)).value.base - v.value.base) * d := by
  obtain ⟨r, hr, -, hmoved, hfull⟩ := hv.takes d
  have hd : d ≠ 0 := by
    rintro rfl
    cases hroom
  have hsome : r ≠ 0 := by
    rintro rfl
    -- without a move, the variable still has its room
    have hsame : (v.setValue (v.value + .fin d)).value = v.value := by
      rw [zero_mul, sub_eq_zero] at hmoved
      rw [← Exact.fin_base (hv.move d).finite, hmoved, Exact.fin_base hv.finite]
    have hstill : (v.setValue (v.value + .fin d)).canMove (.fin d) = v.canMove (.fin d) := by
      rw [canMove, hsame]
      rfl
    rw [hstill, hroom, Nat.cast_one] at hfull
    exact hfull.elim zero_ne_one Bool.noConfusion
  rw [hmoved, mul_assoc]
  exact mul_pos (hr.lt_of_ne' hsome) (mul_self_pos.mpr hd)

/-- A step that no bound is in the way of is made in full. -/
theorem move_eq (hlow : ¬ v.value + .fin d < v.min) (hhigh : ¬ v.max < v.value + .fin d) :
    (v.setValue (v.value + .fin d)).value.base - v.value.base = d := by
  have hclamp : (v.setValue (v.value + .fin d)).value = v.value + .fin d := by
    change Scalar.clamp v.min v.max _ = _
    rw [Scalar.clamp, if_neg hlow, if_neg hhigh]
  obtain ⟨q, hq⟩ := Exact.exists_fin_of_isFinite hv.finite
  rw [hclamp, hq, Exact.fin_add]
  exact add_sub_cancel_left q d

end Variable.Held

namespace Constraint.Ready
variable (h : c.Ready vars) (hdistinct : (c.terms.map (·.1.index)).Nodup)
include h

theorem needed_eq (hcounts : IsWeight t.2) : c.needed vars t = .fin (c.gap vars / t.2.base) := by
  rw [needed, h.difference_eq, hcounts.fin_div]

/-- The variable of a term with room, and what the step does to it. -/
theorem exists_moved (hdistinct : (c.terms.map (·.1.index)).Nodup) (ht : t ∈ movable vars c) :
    ∃ v, vars[t.1.index]? = some v ∧ v.Held ∧
      v.canMove (.fin (c.gap vars / (movable vars c).length / t.2.base)) = true ∧
      (spread vars c)[t.1.index]? = some (v.setValue (v.value +
        .fin (c.gap vars / (movable vars c).length / t.2.base))) := by
  obtain ⟨hterm, hroom⟩ := h.mem_movable_iff.mp ht
  obtain ⟨v, hv, hheld⟩ := h.held t hterm
  have hweight := h.isWeight_of_movable t ht
  have hcount : (0 : Rat) < ((movable vars c).length : Rat)⁻¹ :=
    inv_pos.mpr (Nat.cast_pos.mpr (List.length_pos_of_mem ht))
  refine ⟨v, hv, hheld, ?_, h.getElem?_spread_of_movable hdistinct ht hv⟩
  rw [isMovable_eq hv, Bool.and_eq_true, hweight.fin_div] at hroom
  rw [div_right_comm, div_eq_inv_mul, v.canMove_mul hcount]
  exact hroom.2

include hdistinct

/-- What a term with room adds to the sum brings it nearer. -/
theorem pull_pos (ht : t ∈ movable vars c) : 0 < c.gap vars *
    (t.2.base * ((reading (spread vars c) t.1).base - (reading vars t.1).base)) := by
  obtain ⟨v, hv, hheld, hroom, hafter⟩ := h.exists_moved hdistinct ht
  have hweight := (h.isWeight_of_movable t ht).base_ne_zero
  have hcount : (0 : Rat) < (movable vars c).length :=
    Nat.cast_pos.mpr (List.length_pos_of_mem ht)
  have hscale : c.gap vars / (movable vars c).length / t.2.base *
      ((movable vars c).length * (t.2.base * t.2.base)) = c.gap vars * t.2.base := by
    field_simp
  have hpull := mul_pos (hheld.move_advances hroom)
    (mul_pos hcount (mul_self_pos.mpr hweight))
  rw [mul_assoc, hscale, mul_comm, mul_assoc] at hpull
  rw [reading_eq _ hafter, reading_eq _ hv]
  exact hpull

/-- The gap keeps its direction and does not grow. -/
theorem gap_spread_eq : ∃ f : Rat, 0 ≤ f ∧ f ≤ 1 ∧ c.gap (spread vars c) = f * c.gap vars := by
  by_cases hne : movable vars c = []
  · exact ⟨1, zero_le_one, le_rfl, by rw [h.spread_of_movable_eq_nil hne, one_mul]⟩
  · have hcount : (0 : Rat) < (movable vars c).length :=
      Nat.cast_pos.mpr (List.length_pos_iff.mpr hne)
    obtain ⟨r, hr, hrn, hmoved, -⟩ := h.takes hdistinct
    refine ⟨1 - r / (movable vars c).length, sub_nonneg.mpr ((div_le_one hcount).mpr hrn),
      sub_le_self 1 (div_nonneg hr hcount.le), ?_⟩
    rw [sub_mul, one_mul, div_mul_eq_mul_div, ← mul_div_assoc', ← hmoved, sub_sub_cancel]

/-- The step changes the sum, unless nothing has room. -/
theorem gap_spread_ne (hne : movable vars c ≠ []) : c.gap (spread vars c) ≠ c.gap vars := by
  intro heq
  have hmoved := h.gap_sub_gap_spread hdistinct
  rw [heq, sub_self] at hmoved
  have hpull : 0 < ((movable vars c).map fun t => c.gap vars *
      (t.2.base * ((reading (spread vars c) t.1).base - (reading vars t.1).base))).sum :=
    List.sum_pos _ (List.forall_mem_map.mpr fun t ht => h.pull_pos hdistinct ht)
      (by rwa [ne_eq, List.map_eq_nil_iff])
  rw [List.sum_map_mul_left, ← hmoved, mul_zero] at hpull
  exact lt_irrefl 0 hpull

/-- Where no bound is in the way, all shares together are the gap. -/
theorem gap_spread_eq_zero (hne : movable vars c ≠ [])
    (hfree : ∀ t ∈ movable vars c, ¬ Stopped vars c t) : c.gap (spread vars c) = 0 := by
  have hcount : ((movable vars c).length : Rat) ≠ 0 :=
    Nat.cast_ne_zero.mpr (List.length_pos_iff.mpr hne).ne'
  have hfull : ∀ t ∈ movable vars c,
      t.2.base * ((reading (spread vars c) t.1).base - (reading vars t.1).base) =
        c.gap vars / (movable vars c).length := by
    intro t ht
    obtain ⟨v, hv, hheld, -, hafter⟩ := h.exists_moved hdistinct ht
    have hweight := h.isWeight_of_movable t ht
    have hbounds := hfree t ht
    simp only [Stopped, hv, Option.some.injEq, exists_eq_left', not_or, h.share_eq hne,
      hweight.fin_div] at hbounds
    rw [reading_eq _ hafter, reading_eq _ hv, hheld.move_eq hbounds.1 hbounds.2,
      mul_div_cancel₀ _ hweight.base_ne_zero]
  have hmoved := h.gap_sub_gap_spread hdistinct
  rw [List.map_congr_left hfull, List.map_const', List.sum_replicate, nsmul_eq_mul,
    mul_div_cancel₀ _ hcount] at hmoved
  exact sub_eq_self.mp hmoved

/-- The sum goes towards the constant and not past it. -/
theorem evaluate_between :
    (c.evaluate (reading vars) ≤ c.constant →
      c.evaluate (reading vars) ≤ c.evaluate (reading (spread vars c)) ∧
        c.evaluate (reading (spread vars c)) ≤ c.constant) ∧
      (c.constant ≤ c.evaluate (reading vars) →
        c.constant ≤ c.evaluate (reading (spread vars c)) ∧
          c.evaluate (reading (spread vars c)) ≤ c.evaluate (reading vars)) := by
  obtain ⟨f, hzero, hone, hgap⟩ := h.gap_spread_eq hdistinct
  obtain ⟨k, hk, hbase⟩ := h.constant_eq
  rw [h.evaluate_eq, h.after_spread.evaluate_eq, hgap, hbase, hk]
  simp only [Exact.fin_le, sub_le_self_iff, le_sub_self_iff, sub_le_sub_iff_left]
  exact ⟨fun hg => ⟨mul_le_of_le_one_left hg hone, mul_nonneg hzero hg⟩,
    fun hg => ⟨mul_nonpos_of_nonneg_of_nonpos hzero hg, le_mul_of_le_one_left hg hone⟩⟩

/-- No variable goes against the direction it is needed in. -/
theorem follows_needed (ht : t ∈ c.terms) (hv : vars[t.1.index]? = some v)
    (hw : (spread vars c)[t.1.index]? = some w) :
    (Scalar.zero < c.needed vars t → v.value ≤ w.value) ∧
      (c.needed vars t < Scalar.zero → w.value ≤ v.value) ∧
        ((t.2 == Scalar.zero) = true → w = v) := by
  by_cases hmovable : t ∈ movable vars c
  · obtain ⟨u, hu, hheld, -, hafter⟩ := h.exists_moved hdistinct hmovable
    obtain rfl : v = u := Option.some.inj (hv.symm.trans hu)
    obtain rfl : w = _ := Option.some.inj (hw.symm.trans hafter)
    have hweight := h.isWeight_of_movable t hmovable
    have hcount : (0 : Rat) ≤ (movable vars c).length := Nat.cast_nonneg _
    have hfollows := hheld.move_follows (c.gap vars / (movable vars c).length / t.2.base)
    rw [h.needed_eq hweight]
    refine ⟨fun hpos => hfollows.1 ?_, fun hneg => hfollows.2 ?_, fun hzero => ?_⟩
    · rw [div_right_comm]
      exact div_nonneg (Exact.fin_lt.mp hpos).le hcount
    · rw [div_right_comm]
      exact div_nonpos_of_nonpos_of_nonneg (Exact.fin_lt.mp hneg).le hcount
    · rw [hweight.2] at hzero
      cases hzero
  · rw [h.getElem?_spread_of_not_movable hdistinct ht hmovable] at hw
    obtain rfl : w = v := Option.some.inj (hw.symm.trans hv)
    obtain ⟨u, hu, hheld⟩ := h.held t ht
    obtain rfl : w = u := Option.some.inj (hv.symm.trans hu)
    have hstays : w.value ≤ w.value := (hheld.value_le_iff hheld).mpr le_rfl
    exact ⟨fun _ => hstays, fun _ => hstays, fun _ => rfl⟩

end Constraint.Ready

/-- A step for a violated constraint over different variables brings its sum nearer to its constant
and not past it. It reaches the constant where some variable has room and no bound is in the way,
and changes nothing only where each variable that counts is at its bound. No variable goes against
the direction it is needed in, and none goes that is not in the constraint. -/
theorem relax_never_overshoots (hshared : c.kind.isShared = true) (hready : c.Ready vars)
    (hdistinct : (c.terms.map (·.1.index)).Nodup) (hepsilon : Scalar.zero ≤ epsilon)
    (hviolated : c.isSatisfied (reading vars) epsilon = false) :
    ((c.evaluate (reading vars) ≤ c.constant →
        c.evaluate (reading vars) ≤ c.evaluate (reading (relax vars c)) ∧
          c.evaluate (reading (relax vars c)) ≤ c.constant) ∧
      (c.constant ≤ c.evaluate (reading vars) →
        c.constant ≤ c.evaluate (reading (relax vars c)) ∧
          c.evaluate (reading (relax vars c)) ≤ c.evaluate (reading vars))) ∧
    (movable vars c ≠ [] → (∀ t ∈ movable vars c, ¬ Stopped vars c t) →
      c.evaluate (reading (relax vars c)) = c.constant) ∧
    (c.evaluate (reading (relax vars c)) = c.evaluate (reading vars) →
      ∀ t ∈ c.terms, (t.2 == Scalar.zero) = false → ∀ v, vars[t.1.index]? = some v →
        v.value = v.limit (c.needed vars t)) ∧
    (∀ t ∈ c.terms, ∀ v w, vars[t.1.index]? = some v → (relax vars c)[t.1.index]? = some w →
      (Scalar.zero < c.needed vars t → v.value ≤ w.value) ∧
        (c.needed vars t < Scalar.zero → w.value ≤ v.value) ∧
          ((t.2 == Scalar.zero) = true → w = v)) ∧
    ∀ i, (∀ t ∈ c.terms, t.1.index ≠ i) → (relax vars c)[i]? = vars[i]? := by
  rw [relax_of_isShared vars hshared]
  refine ⟨hready.evaluate_between hdistinct, fun hne hfree => ?_, fun hsame => ?_,
    fun t ht v w hv hw => hready.follows_needed hdistinct ht hv hw, spread_frame vars c⟩
  · rw [hready.after_spread.evaluate_eq, hready.gap_spread_eq_zero hdistinct hne hfree, sub_zero,
      Exact.fin_base hready.finite.constant]
  · have hnone : movable vars c = [] := by
      by_contra hne
      rw [hready.evaluate_eq, hready.after_spread.evaluate_eq] at hsame
      exact hready.gap_spread_ne hdistinct hne (sub_right_injective (Exact.fin.inj hsame))
    have hgap : c.gap vars ≠ 0 := fun hgap => Bool.false_ne_true (hviolated.symm.trans
      (hready.isSatisfied_of_gap_eq_zero (Kind.isObjective_of_isShared hshared) hepsilon hgap))
    exact fun t ht hcounts v hv => hready.value_eq_limit hnone hgap ht hcounts hv

/-- The one that goes up stops at its bound, so the step does not reach the constant. -/
theorem balance_approaches : (balance.kind.isShared = true ∧ balance.Ready balanceSolver.vars ∧
      (balance.terms.map (·.1.index)).Nodup ∧ (Scalar.zero : Exact) ≤ .fin 0 ∧
      balance.isSatisfied (reading balanceSolver.vars) (.fin 0) = false) ∧
    balance.evaluate (reading (relax balanceSolver.vars balance)) ≤ .fin 17 ∧
    balance.evaluate (reading (relax balanceSolver.vars balance)) = .fin (33 / 2) :=
  ⟨⟨rfl, balance_ready, by decide, by decide +kernel, by decide +kernel⟩,
    ((relax_never_overshoots rfl balance_ready (by decide)
      (show Scalar.zero ≤ Exact.fin 0 by decide +kernel) (by decide +kernel)).1.1
        (by decide +kernel)).2, by decide +kernel⟩

end Scene.Solver
