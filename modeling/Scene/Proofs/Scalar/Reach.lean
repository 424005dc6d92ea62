import Mathlib.Algebra.Order.Field.Basic
import Mathlib.Tactic.Linarith
import Mathlib.Tactic.Ring
import Scene.Proofs.Scalar.Ordered
import Scene.Proofs.Scalar.Sums

/-! How far sums of multiples get in a direction. A sum does not go beyond the sum of what its terms
do not go beyond, also where some of them are infinite. -/
namespace Scene.Exact
variable {a b : Exact} {d k s t : Rat}

theorem eq_of_le_of_le (hab : a ≤ b) (hba : b ≤ a) : a = b := by
  cases a <;> cases b <;> first | rfl | (cases hab; done) | cases hba | skip
  exact congrArg fin (le_antisymm (fin_le.mp hab) (fin_le.mp hba))

theorem eq_of_le_of_not_lt (hle : a ≤ b) (hlt : ¬a < b) : a = b := by
  obtain ⟨ha, hb⟩ := Scalar.Ordered.isNaN_of_le hle
  exact eq_of_le_of_le hle (Scalar.le_of_not_lt ha hb hlt)

theorem scaledInf_add_fin (q p : Rat) : scaledInf q + fin p = scaledInf q := by
  unfold scaledInf
  split_ifs <;> rfl

theorem fin_add_scaledInf (q p : Rat) : fin p + scaledInf q = scaledInf q := by
  unfold scaledInf
  split_ifs <;> rfl

theorem scaledInf_add_self (q : Rat) : scaledInf q + scaledInf q = scaledInf q := by
  unfold scaledInf
  split_ifs <;> rfl

theorem scaledInf_mul (hk : 0 < k) (q : Rat) : scaledInf (k * q) = scaledInf q := by
  simp only [scaledInf, mul_eq_zero, hk.ne', false_or, mul_pos_iff_of_pos_left hk]

theorem fin_mul_scaledInf (k q : Rat) : fin k * scaledInf q = scaledInf (k * q) := by
  rcases lt_trichotomy q 0 with hq | rfl | hq
  · rw [scaledInf_eq_negInf.mpr hq, ← neg_mul_neg k q, mul_comm (-k),
      scaledInf_mul (neg_pos.mpr hq)]
    rfl
  · rw [mul_zero]
    rfl
  · rw [scaledInf_eq_posInf.mpr hq, mul_comm k, scaledInf_mul hq]
    rfl

def Short (d s : Rat) (a : Exact) : Prop :=
  a = nan ∨ a = scaledInf (-d) ∨ ∃ q, a = fin q ∧ 0 ≤ d * (s - q)

namespace Short

theorem add (ha : Short d s a) (hb : Short d t b) : Short d (s + t) (a + b) := by
  rcases ha with rfl | rfl | ⟨p, rfl, hp⟩
  · exact .inl rfl
  · rcases hb with rfl | rfl | ⟨q, rfl, -⟩
    · left
      cases scaledInf (-d) <;> rfl
    · exact .inr (.inl (scaledInf_add_self _))
    · exact .inr (.inl (scaledInf_add_fin _ _))
  · rcases hb with rfl | rfl | ⟨q, rfl, hq⟩
    · exact .inl rfl
    · exact .inr (.inl (fin_add_scaledInf _ _))
    · exact .inr (.inr ⟨p + q, rfl, by linarith⟩)

/-- A factor turns the direction. -/
theorem mul (hk : k ≠ 0) (h : Short (d / k) s a) : Short d (k * s) (fin k * a) := by
  rcases h with rfl | rfl | ⟨q, rfl, hq⟩
  · exact .inl rfl
  · have hback : k * -(d / k) = -d := by rw [mul_neg, mul_div_cancel₀ d hk]
    exact .inr (.inl (by rw [fin_mul_scaledInf, hback]))
  · have hside : d * (k * s - k * q) = k * k * (d / k * (s - q)) := by
      rw [mul_assoc k k, ← mul_assoc k (d / k), mul_div_cancel₀ d hk]
      ring
    exact .inr (.inr ⟨k * q, rfl, hside ▸ mul_nonneg (mul_self_nonneg k) hq⟩)

theorem of_zero (d : Rat) (a : Exact) : Short d 0 (fin 0 * a) := by
  cases a with
  | fin q =>
    refine .inr (.inr ⟨0, ?_, by rw [sub_self, mul_zero]⟩)
    rw [fin_mul, zero_mul]
  | _ => exact .inl rfl

theorem sum {β : Type} {terms : List β} {f : β → Rat} {g : β → Exact}
    (h : ∀ t ∈ terms, Short d (f t) (g t)) (hstart : Short d s a) :
    Short d (s + (terms.map f).sum) (terms.foldl (fun sum t => sum + g t) a) := by
  induction terms generalizing s a with
  | nil => rwa [List.map_nil, List.sum_nil, add_zero]
  | cons t terms ih =>
    obtain ⟨ht, hterms⟩ := List.forall_mem_cons.mp h
    rw [List.map_cons, List.sum_cons, ← add_assoc]
    exact ih hterms (hstart.add ht)

/-- What falls short of `s` is no nearer to what lies in that direction. -/
theorem not_abs_sub_lt (h : Short d s a) : ¬Scalar.abs (a - fin (s + d)) < fin |d| := by
  intro hlt
  rcases h with rfl | rfl | ⟨q, rfl, hq⟩
  · cases hlt
  · revert hlt
    unfold scaledInf
    split_ifs <;> exact nofun
  · rw [fin_sub, abs_fin, fin_lt, ← sq_lt_sq] at hlt
    nlinarith [sq_nonneg (s - q)]

theorem le_of_le_add {e : Exact} (hd : d < 0) (h : Short d s a) (ha : a ≤ fin (s + d) + e) :
    fin (-d) ≤ e := by
  rcases h with rfl | rfl | ⟨q, rfl, hq⟩
  · cases ha
  · rw [scaledInf_eq_posInf.mpr (neg_pos.mpr hd), posInf_le] at ha
    cases e <;> first | rfl | cases ha
  · have hle : -d ≤ q - (s + d) := by nlinarith
    exact le_trans (fin_le.mpr hle) (fin_le_fin_add.mp ha)

theorem le_of_sub_le {e : Exact} (hd : 0 < d) (h : Short d s a) (ha : fin (s + d) - e ≤ a) :
    fin d ≤ e := by
  rcases h with rfl | rfl | ⟨q, rfl, hq⟩
  · cases e <;> cases ha
  · rw [scaledInf_eq_negInf.mpr (neg_neg_of_pos hd), le_negInf] at ha
    cases e <;> first | rfl | cases ha
  · have hle : d ≤ s + d - q := by nlinarith
    exact le_trans (fin_le.mpr hle) (fin_sub_le_fin.mp ha)

end Short
end Scene.Exact
