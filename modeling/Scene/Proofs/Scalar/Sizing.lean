import Scene.Proofs.Scalar.Ordered

/-! What the sizes of a layout ask of numbers beside their order: that nothing which is computed
from finite sizes on the way to a further size gets out of the finite numbers. -/
namespace Scene

class Scalar.Sizing (α : Type) [Scalar α] : Prop extends Scalar.Ordered α where
  isNaN_of_isFinite {a : α} : Scalar.isFinite a = true → Scalar.isNaN a = false
  negInf_le_of_isFinite {a : α} : Scalar.isFinite a = true → Scalar.negInf ≤ a
  le_posInf_of_isFinite {a : α} : Scalar.isFinite a = true → a ≤ Scalar.posInf
  isFinite_zero : Scalar.isFinite (Scalar.zero : α) = true
  isFinite_one : Scalar.isFinite (Scalar.one : α) = true
  zero_le_one : (Scalar.zero : α) ≤ Scalar.one
  zero_le_ofNat_zero : (Scalar.zero : α) ≤ Scalar.ofNat 0
  isFinite_div_one {a : α} : Scalar.isFinite a = true → Scalar.isFinite (a / Scalar.one) = true
  isFinite_sub_twice {a p : α} : Scalar.isFinite a = true → Scalar.zero ≤ a → Scalar.zero ≤ p →
    Scalar.zero < a - Scalar.ofNat 2 * p → Scalar.isFinite (a - Scalar.ofNat 2 * p) = true
  /-- A finite number misses a finite one by no more than infinity. -/
  deviation_le {a b e : α} : Scalar.isFinite a = true → Scalar.isFinite b = true →
    Scalar.posInf ≤ e → Scalar.abs (Scalar.negZero + Scalar.one * a - b) ≤ e
  /-- An infinity misses a finite number by no less than infinity. -/
  posInf_le_of_deviation {a b e : α} : Scalar.isFinite a = false → Scalar.isFinite b = true →
    Scalar.abs (Scalar.negZero + Scalar.one * a - b) ≤ e → Scalar.posInf ≤ e

namespace Scalar
variable {α : Type} [Scalar α] [Sizing α] {a lo p : α}

theorem not_lt_of_isFinite (ha : isFinite a = true) : ¬a < (negInf : α) :=
  Ordered.not_lt_of_ge (Sizing.negInf_le_of_isFinite ha)

/-- A number forced above a finite one, or above none, stays finite. -/
theorem isFinite_clamp_posInf (hlo : isFinite lo = true) (ha : isFinite a = true) :
    isFinite (clamp lo posInf a) = true := by
  have hraised : isFinite (if a < lo then lo else a) = true := by split <;> assumption
  rw [clamp, if_neg (Ordered.not_lt_of_ge (Sizing.le_posInf_of_isFinite hraised))]
  exact hraised

theorem clamp_unbounded (ha : isFinite a = true) : clamp negInf posInf a = a := by
  rw [clamp, if_neg (not_lt_of_isFinite ha),
    if_neg (Ordered.not_lt_of_ge (Sizing.le_posInf_of_isFinite ha))]

/-- What a padding leaves of a finite size, and at least nothing. -/
theorem isFinite_nonNegative (ha : isFinite a = true) (hpos : zero ≤ a) (hp : zero ≤ p) :
    isFinite (nonNegative (a - ofNat 2 * p)) = true := by
  rw [nonNegative]
  split
  · next h => exact Sizing.isFinite_sub_twice ha hpos hp h
  · exact Sizing.isFinite_zero

end Scalar

instance : Scalar.Sizing Exact where
  isNaN_of_isFinite {a} h := by cases a <;> first | rfl | cases h
  negInf_le_of_isFinite {a} h := by cases a <;> first | rfl | cases h
  le_posInf_of_isFinite {a} h := by cases a <;> first | rfl | cases h
  isFinite_zero := rfl
  isFinite_one := rfl
  zero_le_one := by decide
  zero_le_ofNat_zero := by decide
  isFinite_div_one {a} h := by cases a <;> first | rfl | cases h
  isFinite_sub_twice {a p} ha hpos hp h := by
    clear hpos
    cases a <;> try cases ha
    next q =>
      cases p with
      | fin r => rfl
      | posInf =>
        have hdouble : Exact.mul (.fin 2) .posInf = .posInf := by decide
        change Exact.lt (.fin 0) (Exact.sub (.fin q) (Exact.mul (.fin 2) .posInf)) = true at h
        rw [hdouble] at h
        cases h
      | _ => cases hp
  deviation_le {a b e} ha hb he := by
    cases a <;> try cases ha
    cases b <;> try cases hb
    cases e <;> first | rfl | cases he
  posInf_le_of_deviation {a b e} ha hb h := by
    cases a <;> try cases ha
    all_goals cases b <;> try cases hb
    all_goals cases e <;> first | rfl | cases h

end Scene
