import Scene.Proofs.Scalar.Doubles

/-! Numbers and what is not a number. A rational becomes a number, and what is computed with
something that is not a number is not a number either. -/
namespace Scene

class Scalar.Contagious (α : Type) [Scalar α] : Prop where
  isNaN_add {a b : α} : Scalar.isNaN (a + b) = false →
    Scalar.isNaN a = false ∧ Scalar.isNaN b = false
  isNaN_sub {a b : α} : Scalar.isNaN (a - b) = false →
    Scalar.isNaN a = false ∧ Scalar.isNaN b = false
  isNaN_mul {a b : α} : Scalar.isNaN (a * b) = false →
    Scalar.isNaN a = false ∧ Scalar.isNaN b = false
  isNaN_abs {a : α} : Scalar.isNaN (Scalar.abs a) = false → Scalar.isNaN a = false
  isNaN_ofRat (q : Rat) : Scalar.isNaN (Scalar.ofRat q : α) = false

namespace Scalar
variable {α : Type} [Scalar α]

/-- Each summand of a sum that is a number is one. -/
theorem isNaN_of_foldl_add [Contagious α] {β : Type} (f : β → α) {terms : List β} {start : α}
    (h : isNaN (terms.foldl (fun sum t => sum + f t) start) = false) :
    isNaN start = false ∧ ∀ t ∈ terms, isNaN (f t) = false := by
  induction terms generalizing start with
  | nil => exact ⟨h, List.forall_mem_nil _⟩
  | cons t terms ih =>
    obtain ⟨hfirst, hrest⟩ := ih h
    obtain ⟨hstart, ht⟩ := Contagious.isNaN_add hfirst
    exact ⟨hstart, List.forall_mem_cons.mpr ⟨ht, hrest⟩⟩

/-- Forcing a number between numbers makes it no other thing. -/
theorem isNaN_clamp {lo hi x : α} (hlo : isNaN lo = false) (hhi : isNaN hi = false)
    (hx : isNaN x = false) : isNaN (clamp lo hi x) = false := by
  have hraised : isNaN (if x < lo then lo else x) = false := by split <;> assumption
  unfold clamp
  dsimp only
  by_cases hlt : hi < (if x < lo then lo else x)
  · rwa [if_pos hlt]
  · rwa [if_neg hlt]

end Scalar

instance : Scalar.Contagious Exact where
  isNaN_add {a b} h := by cases a <;> cases b <;> first | exact ⟨rfl, rfl⟩ | cases h
  isNaN_sub {a b} h := by cases a <;> cases b <;> first | exact ⟨rfl, rfl⟩ | cases h
  isNaN_mul {a b} h := by cases a <;> cases b <;> first | exact ⟨rfl, rfl⟩ | cases h
  isNaN_abs {a} h := by cases a <;> first | rfl | cases h
  isNaN_ofRat _ := rfl

namespace Double
open Float.Model (UnpackedFloat Format)
open Float.Model.UnpackedFloat

/-- What an operation does to the parts of doubles, it does to the doubles. -/
theorem isNaN_operands {op : UnpackedFloat → UnpackedFloat → UnpackedFloat} {a b c : Float}
    (hc : parts c = repack (op (parts a) (parts b)))
    (hop : ∀ x y, (op x y).isNaN = false → x.isNaN = false ∧ y.isNaN = false)
    (h : c.isNaN = false) : a.isNaN = false ∧ b.isNaN = false := by
  change (parts c).isNaN = false at h
  rw [hc, isNaN_repack] at h
  exact hop _ _ h

/-- Bits that are not beyond those of an infinity, apart from the sign, are those of a number. -/
theorem isNaN_ofBits {b : UInt64} (hb : b.toNat % 2 ^ 63 ≤ 2047 * 2 ^ 52) :
    (Float.ofBits b).isNaN = false := by
  change (repack (unpack .binary64 b.toBitVec)).isNaN = false
  rw [isNaN_repack]
  unfold unpack
  dsimp only
  split
  · next hexponent =>
    have hmantissa : (unpackMantissa b.toBitVec :
        BitVec Format.binary64.mantissaBitsWithoutImplicit) = 0#_ := by
      have hlargest := congrArg BitVec.toNat hexponent
      rw [toNat_unpackExponent] at hlargest
      change _ = 2047 at hlargest
      refine BitVec.eq_of_toNat_eq ?_
      rw [toNat_unpackMantissa]
      change _ = 0
      omega
    rw [if_pos hmantissa]
    rfl
  · split
    · split <;> rfl
    · rfl

theorem nearestBits_le (n d : Nat) : Decimal.nearestBits n d ≤ 2047 * 2 ^ 52 := by
  unfold Decimal.nearestBits
  split
  · omega
  · extract_lets e m
    change (if m < 2 ^ 52 then m else min _ (2047 * 2 ^ 52)) ≤ _
    split
    · omega
    · exact Nat.min_le_right _ _

theorem isNaN_floatOfRat (q : Rat) : (Decimal.floatOfRat q).isNaN = false := by
  refine isNaN_ofBits ?_
  have hbits := nearestBits_le q.num.natAbs q.den
  have hsign : Nat.pow 2 63 = 2 ^ 63 := rfl
  rw [Nat.toUInt64_eq, UInt64.toNat_ofNat', hsign]
  split <;> omega

instance : Scalar.Contagious Float where
  isNaN_add {a b} := isNaN_operands (parts_add a b) fun x y h => by
    cases x <;> cases y <;> first | exact ⟨rfl, rfl⟩ | cases h
  isNaN_sub {a b} := isNaN_operands (parts_sub a b) fun x y h => by
    cases x <;> cases y <;> first | exact ⟨rfl, rfl⟩ | cases h
  isNaN_mul {a b} := isNaN_operands (parts_mul a b) fun x y h => by
    cases x <;> cases y <;> first | exact ⟨rfl, rfl⟩ | cases h
  isNaN_abs {a} h := by
    change (parts a.abs).isNaN = false at h
    rw [parts_abs, isNaN_repack] at h
    change (parts a).isNaN = false
    generalize parts a = x at h
    cases x <;> first | rfl | cases h
  isNaN_ofRat := isNaN_floatOfRat

end Double
end Scene
