import Mathlib.Algebra.Order.Field.Basic
import Scene.Proofs.Solver.Objectives
import Scene.Proofs.Solver.Spreading

/-! A gap shared out among different variables that have bounds. What is left of it keeps its
direction, and either nothing is left or one more variable has come to its end; so after as many
steps as there were variables with room, the constraint holds or none of them has room. -/
namespace Scene.Solver
variable {vars : List (Variable Exact)} {v : Variable Exact} {c : Constraint Exact}
  {epsilon : Exact} {t : Handle × Exact} {d f : Rat}

def TakesShares (share : Rat) (n : Nat) (full : Prop) (moved : Rat) : Prop :=
  ∃ r : Rat, 0 ≤ r ∧ r ≤ n ∧ moved = r * share ∧ (r = n ∨ full)

namespace TakesShares
variable {share a b : Rat} {m n : Nat} {p q : Prop}

theorem add (ha : TakesShares share m p a) (hb : TakesShares share n q b) :
    TakesShares share (m + n) (p ∨ q) (a + b) := by
  obtain ⟨r, hr, hrm, rfl, hp⟩ := ha
  obtain ⟨s, hs, hsn, rfl, hq⟩ := hb
  refine ⟨r + s, add_nonneg hr hs, ?_, (add_mul r s share).symm, ?_⟩
  · rw [Nat.cast_add]
    exact add_le_add hrm hsn
  · rcases hp with rfl | hp
    · rcases hq with rfl | hq
      · exact .inl (Nat.cast_add m n).symm
      · exact .inr (.inr hq)
    · exact .inr (.inl hp)

theorem sum {β : Type} {l : List β} {moved : β → Rat} {full : β → Prop}
    (h : ∀ t ∈ l, TakesShares share 1 (full t) (moved t)) :
    TakesShares share l.length (∃ t ∈ l, full t) (l.map moved).sum := by
  induction l with
  | nil => exact ⟨0, le_refl 0, Nat.cast_zero.ge, (zero_mul share).symm, .inl Nat.cast_zero.symm⟩
  | cons t l ih =>
    obtain ⟨ht, hl⟩ := List.forall_mem_cons.mp h
    have hboth := ht.add (ih hl)
    rw [List.map_cons, List.sum_cons, List.length_cons, Nat.add_comm l.length 1]
    obtain ⟨r, hr, hrn, hmoved, hfull⟩ := hboth
    refine ⟨r, hr, hrn, hmoved, hfull.imp_right ?_⟩
    rintro (ht | ⟨u, hu, hfull⟩)
    · exact ⟨t, List.mem_cons_self, ht⟩
    · exact ⟨u, List.mem_cons_of_mem t hu, hfull⟩

theorem of_full (hd : d ≠ 0) (hzero : 0 ≤ a / d) (hone : a / d ≤ 1) (hp : p) :
    TakesShares d 1 p a := by
  rw [← Nat.cast_one] at hone
  exact ⟨a / d, hzero, hone, (div_mul_cancel₀ a hd).symm, .inr hp⟩

theorem mul (h : TakesShares share n p a) (k : Rat) : TakesShares (k * share) n p (k * a) := by
  obtain ⟨r, hr, hrn, rfl, hp⟩ := h
  exact ⟨r, hr, hrn, mul_left_comm k r share, hp⟩

end TakesShares

namespace Variable

/-- Room is a matter of direction. -/
theorem canMove_mul (v : Variable Exact) (hf : 0 < f) (d : Rat) :
    v.canMove (.fin (f * d)) = v.canMove (.fin d) := by
  rcases lt_trichotomy d 0 with hd | rfl | hd
  · rw [v.canMove_of_neg hd, v.canMove_of_neg (mul_neg_of_pos_of_neg hf hd)]
  · rw [mul_zero]
  · rw [v.canMove_of_pos hd, v.canMove_of_pos (mul_pos hf hd)]

namespace Held
variable (hv : v.Held)
include hv

theorem value_setValue (q : Rat) :
    (v.setValue (.fin q)).value = .fin q ∨
      (v.setValue (.fin q)).value = v.max ∧ v.max < .fin q ∨
        (v.setValue (.fin q)).value = v.min ∧ .fin q < v.min := by
  have hordered : ¬v.max < v.min :=
    Scalar.Ordered.not_lt_of_ge (Exact.le_trans hv.lower hv.upper)
  change Scalar.clamp v.min v.max (.fin q) = _ ∨ Scalar.clamp v.min v.max (.fin q) = _ ∧ _ ∨
    Scalar.clamp v.min v.max (.fin q) = _ ∧ _
  unfold Scalar.clamp
  dsimp only
  by_cases hlow : Exact.fin q < v.min
  · rw [if_pos hlow, if_neg hordered]
    exact .inr (.inr ⟨rfl, hlow⟩)
  · rw [if_neg hlow]
    by_cases hhigh : v.max < Exact.fin q
    · rw [if_pos hhigh]
      exact .inr (.inl ⟨rfl, hhigh⟩)
    · rw [if_neg hhigh]
      exact .inl rfl

theorem canMove_of_eq_max (hend : v.value = v.max) (hd : 0 < d) : v.canMove (.fin d) = false := by
  have hfull : v.max ≤ v.value := by
    have hupper := hv.upper
    rwa [← hend] at hupper ⊢
  rw [v.canMove_of_pos hd]
  exact decide_eq_false (Scalar.Ordered.not_lt_of_ge hfull)

theorem canMove_of_eq_min (hend : v.value = v.min) (hd : d < 0) : v.canMove (.fin d) = false := by
  have hempty : v.value ≤ v.min := by
    have hlower := hv.lower
    rwa [← hend] at hlower ⊢
  rw [v.canMove_of_neg hd]
  exact decide_eq_false (Scalar.Ordered.not_lt_of_ge hempty)

/-- A step is made in full or up to the end of the room. -/
theorem takes (d : Rat) :
    TakesShares d 1 ((v.setValue (v.value + .fin d)).canMove (.fin d) = false)
      ((v.setValue (v.value + .fin d)).value.base - v.value.base) := by
  obtain ⟨q, hq⟩ := Exact.exists_fin_of_isFinite hv.finite
  obtain ⟨p, hp⟩ := Exact.exists_fin_of_isFinite (hv.setValue (q + d)).finite
  have hbase : v.value.base = q := congrArg Exact.base hq
  have hlower : v.min ≤ .fin q := hq ▸ hv.lower
  have hupper : .fin q ≤ v.max := hq ▸ hv.upper
  rw [hbase, hq, Exact.fin_add, hp]
  change TakesShares d 1 _ (p - q)
  rcases hv.value_setValue (q + d) with hset | ⟨hset, hbeyond⟩ | ⟨hset, hbeyond⟩
  · obtain rfl : p = q + d := Exact.fin.inj (hp.symm.trans hset)
    exact ⟨1, zero_le_one, Nat.cast_one.ge, by ring, .inl Nat.cast_one.symm⟩
  · rw [← hset, hp] at hupper hbeyond
    have hqp : q ≤ p := Exact.fin_le.mp hupper
    have hpd : p < q + d := Exact.fin_lt.mp hbeyond
    have hd : 0 < d := by linarith
    refine .of_full hd.ne' (div_nonneg (sub_nonneg.mpr hqp) hd.le) ?_
      ((hv.setValue _).canMove_of_eq_max hset hd)
    rw [div_le_one hd]
    linarith
  · rw [← hset, hp] at hlower hbeyond
    have hpq : p ≤ q := Exact.fin_le.mp hlower
    have hdp : q + d < p := Exact.fin_lt.mp hbeyond
    have hd : d < 0 := by linarith
    refine .of_full hd.ne (div_nonneg_of_nonpos (sub_nonpos.mpr hpq) hd.le) ?_
      ((hv.setValue _).canMove_of_eq_min hset hd)
    rw [div_le_one_of_neg hd]
    linarith

end Held
end Variable

theorem isMovable_mul (vars : List (Variable Exact)) (ht : Scalar.isFinite t.2 = true) (hf : 0 < f)
    (d : Rat) : isMovable vars (.fin (f * d)) t = isMovable vars (.fin d) t := by
  rw [isMovable, isMovable]
  cases hzero : t.2 == Scalar.zero with
  | true => rfl
  | false =>
    have hweight : IsWeight t.2 := ⟨ht, hzero⟩
    rw [hweight.fin_div, hweight.fin_div, mul_div_assoc]
    cases vars[t.1.index]? with
    | none => rfl
    | some v =>
      dsimp only
      rw [v.canMove_mul hf]

namespace Constraint.Ready
variable (h : c.Ready vars) (hdistinct : (c.terms.map (·.1.index)).Nodup)
include h

theorem mem_movable_iff :
    t ∈ movable vars c ↔ t ∈ c.terms ∧ isMovable vars (.fin (c.gap vars)) t = true := by
  rw [movable, List.mem_filter, h.difference_eq]

theorem not_mem_movable (hstuck : isMovable vars (.fin (c.gap vars)) t = false) :
    t ∉ movable vars c := by
  rw [h.mem_movable_iff, hstuck]
  exact fun hmem => Bool.false_ne_true hmem.2

include hdistinct

theorem getElem?_spread_of_movable (ht : t ∈ movable vars c) (hv : vars[t.1.index]? = some v) :
    (spread vars c)[t.1.index]? = some (v.setValue (v.value +
      .fin (c.gap vars / (movable vars c).length / t.2.base))) := by
  have hterms : (movable vars c).filter (·.1.index = t.1.index) = [t] :=
    filter_place_eq_singleton (hdistinct.sublist (List.filter_sublist.map _)) ht
  rw [h.spread_eq, getElem?_foldl_moveTerm, hv, hterms, Option.map_some,
    ← (h.isWeight_of_movable t ht).fin_div]
  rfl

theorem getElem?_spread_of_not_movable (ht : t ∈ c.terms) (hstuck : t ∉ movable vars c) :
    (spread vars c)[t.1.index]? = vars[t.1.index]? := by
  have hterms : (movable vars c).filter (·.1.index = t.1.index) = [] := by
    refine List.filter_eq_nil_iff.mpr fun u hu hplace => hstuck ?_
    have hterm : u ∈ c.terms.filter (·.1.index = t.1.index) :=
      List.mem_filter.mpr ⟨List.mem_of_mem_filter hu, hplace⟩
    rw [filter_place_eq_singleton hdistinct ht, List.mem_singleton] at hterm
    exact hterm ▸ hu
  rw [h.spread_eq, getElem?_foldl_moveTerm, hterms]
  exact congrFun Option.map_id_fun _

theorem still_of_not_movable (ht : t ∈ c.terms)
    (hstuck : isMovable vars (.fin (c.gap vars)) t = false) :
    t.2.base * ((reading (spread vars c) t.1).base - (reading vars t.1).base) = 0 := by
  have hstay : reading (spread vars c) t.1 = reading vars t.1 := by
    rw [reading, reading,
      h.getElem?_spread_of_not_movable hdistinct ht (h.not_mem_movable hstuck)]
  rw [hstay, sub_self, mul_zero]

/-- A gap changes by what the terms with room move. -/
theorem gap_sub_gap_spread : c.gap vars - c.gap (spread vars c) =
    ((movable vars c).map fun t =>
      t.2.base * ((reading (spread vars c) t.1).base - (reading vars t.1).base)).sum := by
  rw [c.gap_sub_gap, ← sum_map_filter fun t ht => h.still_of_not_movable hdistinct ht,
    ← h.difference_eq, ← movable]

/-- The sum takes its shares from the terms with room. -/
theorem takes : TakesShares (c.gap vars / (movable vars c).length) (movable vars c).length
    (∃ t ∈ movable vars c,
      isMovable (spread vars c) (.fin (c.gap vars / (movable vars c).length)) t = false)
    (c.gap vars - c.gap (spread vars c)) := by
  rw [h.gap_sub_gap_spread hdistinct]
  refine TakesShares.sum fun t ht => ?_
  obtain ⟨v, hv, hheld⟩ := h.held t (h.mem_movable_iff.mp ht).1
  have hweight := h.isWeight_of_movable t ht
  have hafter := h.getElem?_spread_of_movable hdistinct ht hv
  have htaken := (hheld.takes (c.gap vars / (movable vars c).length / t.2.base)).mul t.2.base
  rw [mul_div_cancel₀ _ hweight.base_ne_zero] at htaken
  rw [reading_eq _ hafter, reading_eq _ hv, isMovable_eq hafter, hweight.2, hweight.fin_div]
  exact htaken

/-- While the gap keeps its direction, the terms that have room are among those that had it. -/
theorem movable_spread {g : Rat} (hg : 0 < g) (hbefore : c.gap vars = g * d) (hf : 0 < f)
    (hafter : c.gap (spread vars c) = f * d) :
    movable (spread vars c) c =
      (movable vars c).filter (isMovable (spread vars c) (.fin d)) := by
  rw [movable, movable, List.filter_filter, h.after_spread.difference_eq, h.difference_eq]
  refine List.filter_congr fun t ht => ?_
  have hfinite := h.finite.coefficients t ht
  have hstart : isMovable vars (.fin (c.gap vars)) t = isMovable vars (.fin d) t := by
    rw [hbefore, isMovable_mul vars hfinite hg]
  rw [hafter, isMovable_mul _ hfinite hf, hstart]
  cases hroom : isMovable vars (.fin d) t with
  | true => rw [Bool.and_true]
  | false =>
    have hnot := h.not_mem_movable (hstart.trans hroom)
    rw [Bool.and_false, isMovable, h.getElem?_spread_of_not_movable hdistinct ht hnot]
    exact hroom

/-- A step closes the gap, or a variable loses its room. -/
theorem progress (hne : movable vars c ≠ []) :
    c.gap (spread vars c) = 0 ∨
      (movable (spread vars c) c).length < (movable vars c).length := by
  obtain ⟨r, -, hrn, hmoved, hfull⟩ := h.takes hdistinct
  let n := (movable vars c).length
  have hpos : (0 : Rat) < n := Nat.cast_pos.mpr (List.length_pos_iff.mpr hne)
  have hgap : c.gap vars = n * (c.gap vars / n) := (mul_div_cancel₀ _ hpos.ne').symm
  have hleft : c.gap (spread vars c) = (n - r) * (c.gap vars / n) := by
    rw [sub_mul, ← hgap, ← hmoved, sub_sub_cancel]
  rcases eq_or_lt_of_le hrn with hall | hsome
  · rw [hall, sub_self, zero_mul] at hleft
    exact .inl hleft
  · obtain ⟨t, ht, hfull⟩ := hfull.resolve_left hsome.ne
    right
    rw [h.movable_spread hdistinct hpos hgap (sub_pos.mpr hsome) hleft,
      List.length_filter_lt_length_iff_exists]
    exact ⟨t, ht, Bool.eq_false_iff.mp hfull⟩

/-- With a step for each variable that has room at first. -/
theorem settles_or_saturates (hshared : c.kind.isShared = true) (hepsilon : Scalar.zero ≤ epsilon)
    {n : Nat} (hn : (movable vars c).length ≤ n) :
    c.isSatisfied (reading ((Solver.adjust epsilon · c)^[n] vars)) epsilon = true ∨
      movable ((Solver.adjust epsilon · c)^[n] vars) c = [] := by
  induction n generalizing vars with
  | zero => exact .inr (List.length_eq_zero_iff.mp (Nat.le_zero.mp hn))
  | succ n ih =>
    cases hnow : c.isSatisfied (reading vars) epsilon with
    | true =>
      rw [iterate_adjust_of_isSatisfied hnow]
      exact .inl hnow
    | false =>
      rw [Function.iterate_succ_apply, adjust_of_not_isSatisfied hnow, relax_of_isShared _ hshared]
      by_cases hnone : movable vars c = []
      · rw [h.spread_of_movable_eq_nil hnone]
        exact ih h (hnone ▸ Nat.zero_le n)
      · rcases h.progress hdistinct hnone with hgap | hless
        · have hclosed := h.after_spread.isSatisfied_of_gap_eq_zero
            (Kind.isObjective_of_isShared hshared) hepsilon hgap
          rw [iterate_adjust_of_isSatisfied hclosed]
          exact .inl hclosed
        · exact ih h.after_spread (Nat.le_of_lt_succ (hless.trans_le hn))

end Constraint.Ready

end Scene.Solver
