import Mathlib.Algebra.Order.Field.Rat
import Mathlib.Algebra.Order.BigOperators.Group.List
import Mathlib.Tactic.Linarith
import Scene.Scalar.Exact

/-! Sums of multiples of exact numbers. A sum is finite where all its terms are, and infinite where
its infinite terms all pull the same way. -/
namespace Scene

namespace Exact
variable {far a b : Exact}

@[simp]
theorem fin_add (p q : Rat) : fin p + fin q = fin (p + q) := rfl

@[simp]
theorem fin_mul (p q : Rat) : fin p * fin q = fin (p * q) := rfl

/-- A single term with the coefficient one. -/
theorem zero_add_one_mul (a : Exact) : fin 0 + fin 1 * a = a := by
  cases a with
  | fin q => rw [fin_mul, fin_add, one_mul, zero_add]
  | _ => rfl

theorem fin_sub (p q : Rat) : fin p - fin q = fin (p - q) := congrArg fin (sub_eq_add_neg p q).symm

theorem fin_div {q : Rat} (hq : q ≠ 0) (p : Rat) : fin p / fin q = fin (p / q) := if_neg hq

theorem abs_fin (q : Rat) : Scalar.abs (fin q) = fin |q| := by
  change fin (if q < 0 then -q else q) = fin |q|
  split
  · next h => rw [abs_of_neg h]
  · next h => rw [abs_of_nonneg (not_lt.mp h)]

theorem fin_lt {p q : Rat} : fin p < fin q ↔ p < q := decide_eq_true_iff

@[simp]
theorem fin_le {p q : Rat} : fin p ≤ fin q ↔ p ≤ q := decide_eq_true_iff

theorem not_fin_lt {p q : Rat} : ¬fin p < fin q ↔ fin q ≤ fin p := by
  rw [fin_le, ← not_lt]
  exact not_congr decide_eq_true_iff

theorem exists_fin_of_isFinite (h : Scalar.isFinite a = true) : ∃ q, a = fin q := by
  cases a <;> first | exact ⟨_, rfl⟩ | cases h

theorem posInf_le : posInf ≤ a ↔ a = posInf := by
  change le posInf a = true ↔ _
  cases a <;> simp [le]

theorem le_negInf : a ≤ negInf ↔ a = negInf := by
  change le a negInf = true ↔ _
  cases a <;> simp [le]

theorem abs_sub_le_zero {k : Rat} : Scalar.abs (a - fin k) ≤ Scalar.zero ↔ a = fin k := by
  change le (abs (sub a (fin k))) (fin 0) = true ↔ _
  cases a with
  | fin q =>
    simp only [sub, neg, add, abs, le, decide_eq_true_eq, fin.injEq]
    grind
  | _ => simp [sub, neg, add, abs, le]

theorem le_fin_add_zero {k : Rat} :
    a ≤ fin k + Scalar.zero ↔ a = negInf ∨ ∃ q, a = fin q ∧ q ≤ k := by
  change le a (fin (k + 0)) = true ↔ _
  cases a <;> simp [le]

theorem fin_sub_zero_le {k : Rat} :
    fin k - Scalar.zero ≤ a ↔ a = posInf ∨ ∃ q, a = fin q ∧ k ≤ q := by
  change le (fin (k + -0)) a = true ↔ _
  cases a <;> simp [le]

theorem fin_le_fin_add {s k : Rat} : fin s ≤ fin k + a ↔ fin (s - k) ≤ a := by
  cases a with
  | fin e => rw [fin_add, fin_le, fin_le, sub_le_iff_le_add']
  | _ => exact Iff.rfl

theorem fin_sub_le_fin {s k : Rat} : fin k - a ≤ fin s ↔ fin (k - s) ≤ a := by
  cases a with
  | fin e => rw [fin_sub, fin_le, fin_le, sub_le_comm]
  | _ => exact Iff.rfl

theorem le_trans {c : Exact} (hab : a ≤ b) (hbc : b ≤ c) : a ≤ c := by
  cases a <;> cases b <;> try first | cases hab | skip
  all_goals cases c <;> try first | rfl | cases hbc
  exact fin_le.mpr ((fin_le.mp hab).trans (fin_le.mp hbc))

theorem fin_add_le_fin_add {k : Rat} (h : Scalar.zero ≤ a) : fin k + Scalar.zero ≤ fin k + a := by
  cases a with
  | fin e => exact fin_le.mpr (add_le_add_right (fin_le.mp h) k)
  | posInf => rfl
  | _ => cases h

theorem fin_sub_le_fin_sub {k : Rat} (h : Scalar.zero ≤ a) : fin k - a ≤ fin k - Scalar.zero := by
  cases a with
  | fin e => exact fin_le.mpr (add_le_add_right (neg_le_neg (fin_le.mp h)) k)
  | posInf => rfl
  | _ => cases h

def slope : Exact → Rat
  | posInf => 1
  | negInf => -1
  | _ => 0

theorem ne_nan_of_slope (h : a.slope ≠ 0) : a ≠ nan := by
  rintro rfl
  exact h rfl

def base (x : Exact) : Rat := x.toRat?.getD 0

def drawn (m : Rat) (x : Exact) : Rat := x.base + m * x.slope

def Pulls (far x : Exact) : Prop := x = far ∨ ∃ q, x = fin q

/-- What adds up to something that pulls pulls itself. -/
theorem pulls_of_add (hfar : far ≠ nan) (h : Pulls far (a + b)) : Pulls far a ∧ Pulls far b := by
  change Pulls far (add a b) at h
  cases a <;> cases b <;> simp_all [Pulls, add]

theorem add_eq_far (hfar : far.slope ≠ 0) (ha : Pulls far a) (hb : Pulls far b)
    (hone : a = far ∨ b = far) : a + b = far := by
  change add a b = far
  cases far <;> simp only [slope, ne_eq, not_true_eq_false] at hfar <;>
    rcases ha with rfl | ⟨p, rfl⟩ <;> rcases hb with rfl | ⟨q, rfl⟩ <;> simp_all [add]

theorem pulls_add (hfar : far.slope ≠ 0) (ha : Pulls far a) (hb : Pulls far b) :
    Pulls far (a + b) := by
  by_cases hone : a = far ∨ b = far
  · exact .inl (add_eq_far hfar ha hb hone)
  · obtain ⟨hna, hnb⟩ := not_or.mp hone
    obtain ⟨p, rfl⟩ := ha.resolve_left hna
    obtain ⟨q, rfl⟩ := hb.resolve_left hnb
    exact .inr ⟨p + q, rfl⟩

theorem pulls_of_sum (hfar : far ≠ nan) {ps : List Exact} {s : Exact}
    (h : Pulls far (ps.foldl (· + ·) s)) : Pulls far s ∧ ∀ p ∈ ps, Pulls far p := by
  induction ps generalizing s with
  | nil => exact ⟨h, List.forall_mem_nil _⟩
  | cons p ps ih =>
    obtain ⟨hsum, hps⟩ := ih h
    obtain ⟨hs, hp⟩ := pulls_of_add hfar hsum
    exact ⟨hs, List.forall_mem_cons.mpr ⟨hp, hps⟩⟩

theorem sum_eq_far (hfar : far.slope ≠ 0) {ps : List Exact} {s : Exact} (hs : Pulls far s)
    (hps : ∀ p ∈ ps, Pulls far p) (hone : s = far ∨ far ∈ ps) : ps.foldl (· + ·) s = far := by
  induction ps generalizing s with
  | nil => exact hone.resolve_right List.not_mem_nil
  | cons p ps ih =>
    obtain ⟨hp, hrest⟩ := List.forall_mem_cons.mp hps
    refine ih (pulls_add hfar hs hp) hrest ?_
    rcases hone with rfl | hone
    · exact .inl (add_eq_far hfar hs hp (.inl rfl))
    · rcases List.mem_cons.mp hone with rfl | hone
      · exact .inl (add_eq_far hfar hs hp (.inr rfl))
      · exact .inr hone

theorem sum_fin (qs : List Rat) (s : Rat) :
    (qs.map fin).foldl (· + ·) (fin s) = fin (s + qs.sum) := by
  induction qs generalizing s with
  | nil => simp
  | cons q qs ih =>
    rw [List.map_cons, List.foldl_cons, fin_add, ih, List.sum_cons, add_assoc]

theorem scaledInf_eq_posInf {k : Rat} : scaledInf k = posInf ↔ 0 < k := by
  unfold scaledInf
  grind

theorem scaledInf_eq_negInf {k : Rat} : scaledInf k = negInf ↔ k < 0 := by
  unfold scaledInf
  grind

theorem scaledInf_ne_fin (k q : Rat) : scaledInf k ≠ fin q := by
  unfold scaledInf
  grind

/-- Only a finite number can be scaled to a finite number. -/
theorem eq_fin_of_fin_mul {k q : Rat} (h : fin k * a = fin q) : ∃ p, a = fin p := by
  change mul (fin k) a = fin q at h
  cases a with
  | fin p => exact ⟨p, rfl⟩
  | nan => cases h
  | posInf => exact absurd h (scaledInf_ne_fin _ _)
  | negInf => exact absurd h (scaledInf_ne_fin _ _)

/-- A multiple that is infinite goes where the factor turns the number. -/
theorem slope_of_fin_mul_eq {k : Rat} (hfar : far.slope ≠ 0) (h : fin k * a = far) :
    0 < far.slope * (k * a.slope) := by
  change mul (fin k) a = far at h
  cases far <;> simp only [slope, ne_eq, not_true_eq_false] at hfar
  · cases a <;> simp only [mul, reduceCtorEq, scaledInf_eq_negInf] at h <;> simp [slope] <;>
      linarith
  · cases a <;> simp only [mul, reduceCtorEq, scaledInf_eq_posInf] at h <;> simp [slope] <;>
      linarith

theorem slope_of_pulls {k : Rat} (hfar : far.slope ≠ 0) (h : Pulls far (fin k * a)) :
    0 ≤ far.slope * (k * a.slope) := by
  rcases h with h | ⟨q, h⟩
  · exact (slope_of_fin_mul_eq hfar h).le
  · obtain ⟨p, rfl⟩ := eq_fin_of_fin_mul h
    simp [slope]

theorem fin_div_le {p k : Rat} (hk : 0 < k) (h : fin p ≤ a * fin k) : fin (p / k) ≤ a := by
  cases a with
  | fin q => exact fin_le.mpr ((div_le_iff₀ hk).mpr (fin_le.mp h))
  | posInf => rfl
  | negInf =>
    have hscaled : negInf * fin k = negInf := scaledInf_eq_negInf.mpr (neg_neg_of_pos hk)
    rw [hscaled] at h
    cases h
  | nan => cases h

end Exact

end Scene
