import Scene.Scalar.Double
import Scene.Scalar.Exact
import Mathlib.Tactic.Common

/-! What the comparisons of numbers promise: all that are numbers stand in one line, with the
infinities at its ends, and a number forced into an interval is in it. -/
namespace Scene

class Scalar.Ordered (α : Type) [Scalar α] : Prop where
  isNaN_of_le {a b : α} : a ≤ b → Scalar.isNaN a = false ∧ Scalar.isNaN b = false
  lt_or_ge {a b : α} : Scalar.isNaN a = false → Scalar.isNaN b = false → a < b ∨ b ≤ a
  le_of_lt {a b : α} : a < b → a ≤ b
  not_lt_of_ge {a b : α} : b ≤ a → ¬a < b
  negInf_le_posInf : (Scalar.negInf : α) ≤ Scalar.posInf

namespace Scalar
variable {α : Type} [Scalar α]

/-- In `[lo, hi]`, unless it is not a number. -/
def Within (lo hi x : α) : Prop := isNaN x = true ∨ lo ≤ x ∧ x ≤ hi

variable [Ordered α] {a b lo hi : α}

theorem le_refl_of_isNaN (ha : isNaN a = false) : a ≤ a := by
  rcases Ordered.lt_or_ge ha ha with h | h
  · exact Ordered.le_of_lt h
  · exact h

theorem le_of_not_lt (ha : isNaN a = false) (hb : isNaN b = false) (h : ¬a < b) : b ≤ a :=
  (Ordered.lt_or_ge ha hb).resolve_left h

theorem within_clamp (hle : lo ≤ hi) (x : α) : Within lo hi (clamp lo hi x) := by
  obtain ⟨hlo, hhi⟩ := Ordered.isNaN_of_le hle
  have hraised : Within lo hi (if x < lo then lo else x) ∨
      hi < (if x < lo then lo else x) := by
    split
    · exact .inl (.inr ⟨le_refl_of_isNaN hlo, hle⟩)
    · next hx =>
      cases hnan : isNaN x with
      | true => exact .inl (.inl hnan)
      | false =>
        rcases Ordered.lt_or_ge hhi hnan with h | h
        · exact .inr h
        · exact .inl (.inr ⟨le_of_not_lt hnan hlo hx, h⟩)
  unfold clamp
  dsimp only
  by_cases hlt : hi < (if x < lo then lo else x)
  · rw [if_pos hlt]
    exact .inr ⟨hle, le_refl_of_isNaN hhi⟩
  · rw [if_neg hlt]
    exact hraised.resolve_right hlt

end Scalar

namespace Exact

instance : Scalar.Ordered Exact where
  isNaN_of_le {a b} h := by cases a <;> cases b <;> first | exact ⟨rfl, rfl⟩ | cases h
  lt_or_ge {a b} ha hb := by
    cases a with
    | nan => cases ha
    | fin p =>
      cases b with
      | nan => cases hb
      | fin q =>
        by_cases h : p < q
        · exact .inl (decide_eq_true h)
        · exact .inr (decide_eq_true (Rat.not_lt.mp h))
      | negInf => exact .inr rfl
      | posInf => exact .inl rfl
    | _ => cases b <;> first | exact .inl rfl | exact .inr rfl | cases hb
  le_of_lt {a b} h := by
    cases a <;> cases b <;> try first | rfl | cases h
    exact decide_eq_true (Rat.le_of_lt (of_decide_eq_true h))
  not_lt_of_ge {a b} h hlt := by
    cases a <;> cases b <;> try first | contradiction | cases hlt | cases h
    exact Rat.not_lt.mpr (of_decide_eq_true h) (of_decide_eq_true hlt)
  negInf_le_posInf := rfl

end Exact

/-! Doubles are compared as what their bits are taken apart into. -/
namespace Double
open Float.Model (UnpackedFloat)

theorem compare_sign_swap (s t : UnpackedFloat.Sign) : compare t s = (compare s t).swap := by
  cases s <;> cases t <;> rfl

theorem compare_then_swap (m n : Nat) (e f : Int) :
    (compare f e).then (compare n m) = ((compare e f).then (compare m n)).swap := by
  rw [Ordering.swap_then, ← Std.OrientedCmp.eq_swap, ← Std.OrientedCmp.eq_swap]

theorem compare_swap (x y : UnpackedFloat) :
    UnpackedFloat.compare y x = (UnpackedFloat.compare x y).map Ordering.swap := by
  cases x with
  | infinity s =>
    cases y with
    | infinity t => exact congrArg some (compare_sign_swap s t)
    | _ => cases s <;> rfl
  | notANumber =>
    cases y with
    | infinity t => cases t <;> rfl
    | finite t => cases t <;> rfl
    | _ => rfl
  | zero s =>
    cases y with
    | infinity t => cases t <;> rfl
    | finite t => cases t <;> rfl
    | _ => rfl
  | finite s m e _ =>
    cases y with
    | finite t n f _ =>
      cases s <;> cases t <;> try rfl
      · exact congrArg (fun o => some (Ordering.swap o)) (compare_then_swap m n e f)
      · exact congrArg some (compare_then_swap m n e f)
    | infinity t => cases t <;> cases s <;> rfl
    | _ => cases s <;> rfl

theorem isSome_compare (x y : UnpackedFloat) :
    (UnpackedFloat.compare x y).isSome = (!x.isNaN && !y.isNaN) := by
  cases x with
  | infinity s => cases y <;> cases s <;> rfl
  | notANumber => rfl
  | zero s =>
    cases y with
    | infinity t => cases t <;> rfl
    | finite t => cases t <;> rfl
    | _ => rfl
  | finite s =>
    cases y with
    | finite t => cases s <;> cases t <;> rfl
    | infinity t => cases t <;> cases s <;> rfl
    | _ => cases s <;> rfl

def order? (a b : Float) : Option Ordering :=
  UnpackedFloat.compare a.toModel.unpack b.toModel.unpack

theorem lt_iff (a b : Float) : a < b ↔ order? a b = some .lt := by
  change decide (a.toModel < b.toModel) = true ↔ _
  rw [decide_eq_true_iff]
  exact beq_iff_eq

theorem le_iff (a b : Float) : a ≤ b ↔ (order? a b).any (·.isLE) = true := by
  change decide (a.toModel ≤ b.toModel) = true ↔ _
  rw [decide_eq_true_iff]
  rfl

theorem order?_swap (a b : Float) : order? b a = (order? a b).map Ordering.swap :=
  compare_swap _ _

theorem isSome_order? (a b : Float) : (order? a b).isSome = (!a.isNaN && !b.isNaN) :=
  isSome_compare _ _

instance : Scalar.Ordered Float where
  isNaN_of_le {a b} h := by
    have hsome : (order? a b).isSome = true := by
      rw [le_iff] at h
      cases horder : order? a b with
      | none => rw [horder] at h; cases h
      | some o => rfl
    rw [isSome_order?, Bool.and_eq_true, Bool.not_eq_true', Bool.not_eq_true'] at hsome
    exact hsome
  lt_or_ge {a b} ha hb := by
    have hsome : (order? a b).isSome = true := by
      rw [isSome_order?, Bool.and_eq_true, Bool.not_eq_true', Bool.not_eq_true']
      exact ⟨ha, hb⟩
    obtain ⟨o, ho⟩ := Option.isSome_iff_exists.mp hsome
    rw [lt_iff, le_iff, order?_swap a b, ho]
    cases o with
    | lt => exact .inl rfl
    | eq => exact .inr rfl
    | gt => exact .inr rfl
  le_of_lt {a b} h := by
    rw [lt_iff] at h
    rw [le_iff, h]
    rfl
  not_lt_of_ge {a b} h hlt := by
    rw [lt_iff] at hlt
    rw [le_iff, order?_swap, hlt] at h
    cases h
  negInf_le_posInf := by
    rw [le_iff]
    decide +kernel

end Double
end Scene
