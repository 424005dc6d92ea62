import Scene.Proofs.Scalar.Contagion
import Scene.Proofs.Scalar.Restored
import Scene.Proofs.Scalar.Sums

/-! Infinities in sums and quotients. Numbers have no sum only where they are opposite infinities,
and an infinity keeps its sign in all that is done with finite numbers, but for that of a factor or
divisor. -/
namespace Scene

namespace Scalar
variable {α : Type} [Scalar α]

/-- One of the two infinities, the positive one for `true`. -/
def IsInf (up : Bool) (a : α) : Prop := if up then posInf ≤ a else a ≤ negInf

structure IsDivisor (k : α) : Prop where
  finite : isFinite k = true
  ne_zero : (k == zero) = false

def turned (k : α) (up : Bool) : Bool := up == decide (zero < k)

theorem turned_turned (k : α) (up : Bool) : turned k (turned k up) = up := by
  cases up <;> simp [turned]

theorem turned_not (k : α) (up : Bool) : turned k (!up) = !turned k up := by
  cases up <;> simp [turned]

end Scalar

def Scalar.countLimit : Nat := 2 ^ 64

class Scalar.Infinities (α : Type) [Scalar α] : Prop extends
    Scalar.Ordered α, Scalar.Contagious α where
  isNaN_add_iff {a b : α} : Scalar.isNaN a = false → Scalar.isNaN b = false →
    (Scalar.isNaN (a + b) = true ↔ ∃ up, Scalar.IsInf up a ∧ Scalar.IsInf (!up) b)
  isInf_add_left {up : Bool} {a b : α} : Scalar.IsInf up a → Scalar.isNaN (a + b) = false →
    Scalar.IsInf up (a + b)
  isInf_add_right {up : Bool} {a b : α} : Scalar.IsInf up b → Scalar.isNaN (a + b) = false →
    Scalar.IsInf up (a + b)
  isInf_sub {up : Bool} {a b : α} : Scalar.isFinite a = true → Scalar.IsInf up b →
    Scalar.IsInf (!up) (a - b)
  isInf_mul {up : Bool} {k a : α} : Scalar.IsDivisor k → Scalar.IsInf up a →
    Scalar.IsInf (Scalar.turned k up) (k * a)
  isInf_div {up : Bool} {k a : α} : Scalar.IsDivisor k → Scalar.IsInf up a →
    Scalar.IsInf (Scalar.turned k up) (a / k)
  isNaN_div {k a : α} : Scalar.IsDivisor k → Scalar.isNaN (a / k) = Scalar.isNaN a
  isNaN_of_isFinite {a : α} : Scalar.isFinite a = true → Scalar.isNaN a = false
  isDivisor_ofNat {n : Nat} : 0 < n → n < Scalar.countLimit →
    Scalar.IsDivisor (Scalar.ofNat n : α) ∧ (Scalar.zero : α) < Scalar.ofNat n

/-- What is forced between numbers is a number if it was one. -/
theorem Scalar.isNaN_clamp_eq {α : Type} [Scalar α] [Ordered α] {lo hi : α}
    (hlo : isNaN lo = false) (hhi : isNaN hi = false) (x : α) :
    isNaN (clamp lo hi x) = isNaN x := by
  cases hx : isNaN x with
  | false => exact isNaN_clamp hlo hhi hx
  | true =>
    have hbelow : ¬ x < lo := fun h => by
      rw [(Ordered.isNaN_of_le (Ordered.le_of_lt h)).1] at hx
      cases hx
    have habove : ¬ hi < x := fun h => by
      rw [(Ordered.isNaN_of_le (Ordered.le_of_lt h)).2] at hx
      cases hx
    rw [clamp, if_neg hbelow, if_neg habove, hx]

namespace Exact
variable {a k : Exact} {up : Bool}

theorem isInf_iff : Scalar.IsInf up a ↔ a = if up then posInf else negInf := by
  cases up with
  | true => exact posInf_le
  | false => exact le_negInf

theorem exists_fin_of_isDivisor (h : Scalar.IsDivisor k) : ∃ q, k = fin q ∧ q ≠ 0 := by
  obtain ⟨q, rfl⟩ := exists_fin_of_isFinite h.finite
  refine ⟨q, rfl, ?_⟩
  rintro rfl
  cases h.ne_zero

theorem mul_infinity {q : Rat} (hq : q ≠ 0) (up : Bool) :
    fin q * (if up then posInf else negInf) = if up == decide (0 < q) then posInf else negInf := by
  have hpos : fin q * posInf = scaledInf q := rfl
  have hneg : fin q * negInf = scaledInf (-q) := rfl
  rcases lt_or_gt_of_ne hq with h | h
  · cases up <;> simp [hpos, hneg, scaledInf, hq, h, not_lt.mpr h.le]
  · cases up <;> simp [hpos, hneg, scaledInf, hq, h, not_lt.mpr h.le]

theorem infinity_div {q : Rat} (hq : q ≠ 0) (up : Bool) :
    (if up then posInf else negInf) / fin q = if up == decide (0 < q) then posInf else negInf := by
  have hpos : posInf / fin q = if q < 0 then negInf else posInf := rfl
  have hneg : negInf / fin q = if q < 0 then posInf else negInf := rfl
  rcases lt_or_gt_of_ne hq with h | h
  · cases up <;> simp [hpos, hneg, h, h.le]
  · cases up <;> simp [hpos, hneg, h, h.le]

theorem turned_fin (q : Rat) (up : Bool) :
    Scalar.turned (fin q) up = (up == decide (0 < q)) := by
  rw [Scalar.turned]
  congr 1
  exact decide_eq_decide.mpr fin_lt

instance : Scalar.Infinities Exact where
  isNaN_add_iff {a b} ha hb := by
    constructor
    · intro h
      cases a <;> cases b <;>
        first
        | exact ⟨true, rfl, rfl⟩
        | exact ⟨false, rfl, rfl⟩
        | (cases h; done)
        | (cases ha; done)
        | cases hb
    · rintro ⟨up, hup, hdown⟩
      rw [isInf_iff.mp hup, isInf_iff.mp hdown]
      cases up <;> rfl
  isInf_add_left {up a b} ha h := by
    rw [isInf_iff] at ha ⊢
    subst ha
    cases up <;> cases b <;> first | rfl | cases h
  isInf_add_right {up a b} hb h := by
    rw [isInf_iff] at hb ⊢
    subst hb
    cases up <;> cases a <;> first | rfl | cases h
  isInf_sub {up a b} ha hb := by
    obtain ⟨q, rfl⟩ := exists_fin_of_isFinite ha
    rw [isInf_iff] at hb ⊢
    subst hb
    cases up <;> rfl
  isInf_mul {up k a} hk ha := by
    obtain ⟨q, rfl, hq⟩ := exists_fin_of_isDivisor hk
    rw [isInf_iff] at ha ⊢
    rw [ha, mul_infinity hq, turned_fin]
  isInf_div {up k a} hk ha := by
    obtain ⟨q, rfl, hq⟩ := exists_fin_of_isDivisor hk
    rw [isInf_iff] at ha ⊢
    rw [ha, infinity_div hq, turned_fin]
  isNaN_div {k a} hk := by
    obtain ⟨q, rfl, hq⟩ := exists_fin_of_isDivisor hk
    cases a with
    | nan => rfl
    | fin p => rw [fin_div hq]; rfl
    | posInf =>
      have h := infinity_div hq true
      rw [if_pos rfl] at h
      rw [h]
      split <;> rfl
    | negInf =>
      have h := infinity_div hq false
      rw [if_neg Bool.false_ne_true] at h
      rw [h]
      split <;> rfl
  isNaN_of_isFinite {a} h := by cases a <;> first | rfl | cases h
  isDivisor_ofNat {n} hn _ := by
    have hpos : (0 : Rat) < n := Nat.cast_pos.mpr hn
    have hne : (fin n == fin 0) = false := by
      rw [← Bool.not_eq_true]
      intro heq
      obtain ⟨hle, -⟩ : fin n ≤ fin 0 ∧ fin 0 ≤ fin n := Bool.and_eq_true_iff.mp heq
      exact absurd (fin_le.mp hle) (not_le.mpr hpos)
    exact ⟨⟨rfl, hne⟩, fin_lt.mpr hpos⟩

end Exact

namespace Double
open Float.Model (UnpackedFloat Format)
open Float.Model.UnpackedFloat
variable {a b k : Float} {up : Bool}

def signOf (up : Bool) : Sign := if up then .positive else .negative

theorem le_negInf_iff (a : Float) : a ≤ (-1.0 / 0.0 : Float) ↔ parts a = .infinity .negative := by
  rw [le_iff_parts, parts_negInf]
  cases parts a with
  | infinity s => cases s <;> simp [UnpackedFloat.compare, compare]
  | finite s => cases s <;> simp [UnpackedFloat.compare]
  | _ => simp [UnpackedFloat.compare]

theorem isInf_iff : Scalar.IsInf up a ↔ parts a = .infinity (signOf up) := by
  cases up with
  | true => exact posInf_le_iff a
  | false => exact le_negInf_iff a

theorem parts_of_isDivisor (h : Scalar.IsDivisor k) : ∃ s m e hm, parts k = .finite s m e hm := by
  obtain ⟨hfinite, hne⟩ := h
  rcases cases_of_isFinite (show (parts k).isFinite = true from hfinite) with
    ⟨s, hk⟩ | ⟨s, m, e, hm, hk⟩
  · change (UnpackedFloat.compare (parts k) (parts 0.0) == some .eq) = false at hne
    rw [hk, parts_zero] at hne
    cases hne
  · exact ⟨s, m, e, hm, hk⟩

theorem signOf_turned {s : Sign} {m : Nat} {e : Int} {hm : 0 < m}
    (hk : parts k = .finite s m e hm) (up : Bool) :
    signOf (Scalar.turned k up) = s * signOf up := by
  have hlt : (Scalar.zero : Float) < k ↔ s = .positive := by
    change (0.0 : Float) < k ↔ _
    rw [lt_iff, order?]
    change UnpackedFloat.compare (parts 0.0) (parts k) = _ ↔ _
    rw [parts_zero, hk]
    cases s <;> simp [UnpackedFloat.compare]
  rw [Scalar.turned]
  cases s with
  | positive =>
    rw [decide_eq_true (hlt.mpr rfl)]
    cases up <;> rfl
  | negative =>
    rw [decide_eq_false fun h => Sign.noConfusion (hlt.mp h)]
    cases up <;> rfl

theorem isNaN_add {x y : UnpackedFloat} (hx : x.isNaN = false) (hy : y.isNaN = false) :
    (add .binary64 x y).isNaN = true ↔
      ∃ up, x = .infinity (signOf up) ∧ y = .infinity (signOf !up) := by
  constructor
  · intro h
    cases x with
    | notANumber => cases hx
    | infinity s =>
      cases y with
      | notANumber => cases hy
      | infinity t =>
        cases s <;> cases t <;>
          first | exact ⟨true, rfl, rfl⟩ | exact ⟨false, rfl, rfl⟩ | cases h
      | _ => cases h
    | zero s =>
      cases y with
      | zero t => cases s <;> cases t <;> cases h
      | notANumber => cases hy
      | _ => cases h
    | finite s m e hm =>
      cases y with
      | finite t n f hn => cases (isNaN_normalize ..).symm.trans h
      | notANumber => cases hy
      | _ => cases h
  · rintro ⟨up, rfl, rfl⟩
    cases up <;> rfl

theorem add_infinity {y : UnpackedFloat} {s : Sign}
    (h : (add .binary64 (.infinity s) y).isNaN = false) :
    add .binary64 (.infinity s) y = .infinity s := by
  cases y with
  | notANumber => cases h
  | infinity t => cases s <;> cases t <;> first | rfl | cases h
  | _ => rfl

theorem infinity_add {x : UnpackedFloat} {s : Sign}
    (h : (add .binary64 x (.infinity s)).isNaN = false) :
    add .binary64 x (.infinity s) = .infinity s := by
  cases x with
  | notANumber => cases h
  | infinity t => cases s <;> cases t <;> first | rfl | cases h
  | _ => rfl

theorem isNaN_div {x : UnpackedFloat} {s : Sign} {m : Nat} {e : Int} {hm : 0 < m} :
    (div .binary64 x (.finite s m e hm)).isNaN = x.isNaN := by
  cases x with
  | finite => exact isNaN_round ..
  | _ => rfl

/-! Counts as doubles. -/

theorem roundEven_between {n d lo hi : Nat} (hd : 0 < d) (hlo : lo * d ≤ n) (hhi : n < hi * d) :
    lo ≤ Decimal.roundEven n d ∧ Decimal.roundEven n d ≤ hi := by
  have hfloor : lo ≤ n / d := (Nat.le_div_iff_mul_le hd).mpr hlo
  have hceil : n / d < hi := (Nat.div_lt_iff_lt_mul hd).mpr hhi
  unfold Decimal.roundEven
  dsimp only
  split_ifs <;> omega

theorem exponentOf_one {n : Nat} (hn : n ≠ 0) : Decimal.exponentOf n 1 = (n.log2 : Int) - 52 := by
  have hlow : (2 : ℚ) ^ n.log2 ≤ n := by exact_mod_cast Nat.log2_self_le hn
  have hhigh : (n : ℚ) < 2 ^ (n.log2 + 1) := by exact_mod_cast Nat.lt_log2_self
  refine Decimal.exponentOf_eq hn one_ne_zero (.inl ?_) ?_ (by omega)
  · rw [show (n.log2 : Int) - 52 + 52 = n.log2 by omega, zpow_natCast, Nat.cast_one, one_mul]
    exact hlow
  · rw [show (n.log2 : Int) - 52 + 53 = (n.log2 + 1 : Nat) by omega, zpow_natCast, Nat.cast_one,
      one_mul]
    exact hhigh

/-- The mantissa of a count has all its digits. -/
theorem mantissa_bounds {n : Nat} (hn : n ≠ 0) {e : Int} (he : e = (n.log2 : Int) - 52) :
    let m := match e with
      | .ofNat k => Decimal.roundEven n (1 * Nat.pow 2 k)
      | .negSucc k => Decimal.roundEven (n * Nat.pow 2 (k + 1)) 1
    2 ^ 52 ≤ m ∧ m ≤ 2 ^ 53 := by
  have hlow : 2 ^ n.log2 ≤ n := Nat.log2_self_le hn
  have hhigh : n < 2 ^ (n.log2 + 1) := Nat.lt_log2_self
  cases e with
  | ofNat k =>
    have hlog : n.log2 = 52 + k := by
      rw [Int.ofNat_eq_natCast] at he
      omega
    rw [hlog] at hlow hhigh
    rw [Nat.pow_add] at hlow
    rw [Nat.add_right_comm, Nat.pow_add] at hhigh
    exact roundEven_between (by simp) (by simpa using hlow) (by simpa using hhigh)
  | negSucc k =>
    have hlog : n.log2 + (k + 1) = 52 := by omega
    have hproduct : 2 ^ 52 ≤ n * 2 ^ (k + 1) := by
      rw [← hlog, Nat.pow_add]
      exact Nat.mul_le_mul_right _ hlow
    have hproduct' : n * 2 ^ (k + 1) < 2 ^ 53 := by
      rw [show 53 = n.log2 + 1 + (k + 1) by omega, Nat.pow_add 2 (n.log2 + 1)]
      exact Nat.mul_lt_mul_of_pos_right hhigh (Nat.two_pow_pos _)
    exact roundEven_between Nat.one_pos (by simpa using hproduct) (by simpa using hproduct')

theorem nearestBits_bounds {n : Nat} (hn : n ≠ 0) (hlimit : n < 2 ^ 64) :
    2 ^ 52 ≤ Decimal.nearestBits n 1 ∧ Decimal.nearestBits n 1 < 2047 * 2 ^ 52 := by
  have hlog : n.log2 < 64 := (Nat.log2_lt hn).mpr hlimit
  unfold Decimal.nearestBits
  rw [if_neg hn]
  extract_lets e m
  have he : e = (n.log2 : Int) - 52 := exponentOf_one hn
  have hm : 2 ^ 52 ≤ m ∧ m ≤ 2 ^ 53 := mantissa_bounds hn he
  clear_value e m
  change 2 ^ 52 ≤ (if m < 2 ^ 52 then m else min ((e + 1074).toNat * 2 ^ 52 + m) (2047 * 2 ^ 52)) ∧
    (if m < 2 ^ 52 then m else min ((e + 1074).toNat * 2 ^ 52 + m) (2047 * 2 ^ 52)) < _
  rw [if_neg (by omega)]
  have hexponent : (e + 1074).toNat ≤ 1085 := by omega
  have hbits : (e + 1074).toNat * 2 ^ 52 ≤ 1085 * 2 ^ 52 := Nat.mul_le_mul_right _ hexponent
  omega

/-- Bits of a magnitude between the least normal number and infinity are those of a number. -/
theorem parts_ofBits {b : UInt64} (hlow : 2 ^ 52 ≤ b.toNat) (hhigh : b.toNat < 2047 * 2 ^ 52) :
    ∃ m e hm, parts (Float.ofBits b) = .finite .positive m e hm := by
  have hexponent : (unpackExponent b.toBitVec : BitVec Format.binary64.exponentBits).toNat =
    b.toNat / 2 ^ 52 % 2 ^ 11 := toNat_unpackExponent b
  have hne : (unpackExponent b.toBitVec : BitVec Format.binary64.exponentBits) ≠ -1#_ := by
    intro heq
    have htop := congrArg BitVec.toNat heq
    rw [hexponent] at htop
    change _ = 2047 at htop
    omega
  have hne' : (unpackExponent b.toBitVec : BitVec Format.binary64.exponentBits) ≠ 0#_ := by
    intro heq
    have hzero := congrArg BitVec.toNat heq
    rw [hexponent] at hzero
    change _ = 0 at hzero
    omega
  have hsign : @unpackSign .binary64 b.toBitVec = 0#1 := by
    refine BitVec.eq_of_toNat_eq ?_
    rw [unpackSign, BitVec.toNat_cast, BitVec.extractLsb_toNat]
    change b.toNat >>> 63 % 2 = 0
    rw [Nat.shiftRight_eq_div_pow]
    omega
  have hparts : parts (Float.ofBits b) = unpack .binary64 b.toBitVec :=
    congrArg (unpack .binary64) (pack_unpack hne)
  rw [hparts]
  unfold unpack
  dsimp only
  rw [if_neg hne, if_neg hne', hsign]
  have hfinite (m : Nat) (e : Int) (hm : 0 < m) :
      ∃ m' e' hm', UnpackedFloat.finite .positive m e hm = .finite .positive m' e' hm' :=
    ⟨m, e, hm, rfl⟩
  exact hfinite ..

theorem parts_ofNat {n : Nat} (hn : 0 < n) (hlimit : n < Scalar.countLimit) :
    ∃ m e hm, parts (Scalar.ofNat n) = .finite .positive m e hm := by
  obtain ⟨hlow, hhigh⟩ := nearestBits_bounds hn.ne' hlimit
  have hfloat : (Scalar.ofNat n : Float) = Float.ofBits (Decimal.nearestBits n 1).toUInt64 := by
    change Decimal.floatOfRat (n : Rat) = _
    have hsign : decide ((n : Int) < 0) = false := decide_eq_false (by omega)
    rw [Decimal.floatOfRat, Decimal.nearestFloat, Rat.num_natCast, Rat.den_natCast, hsign]
    rfl
  have hbits : (Decimal.nearestBits n 1).toUInt64.toNat = Decimal.nearestBits n 1 := by
    rw [Nat.toUInt64_eq, UInt64.toNat_ofNat']
    omega
  rw [hfloat]
  exact parts_ofBits (hlow.trans_eq hbits.symm) (hbits.trans_lt hhigh)

instance : Scalar.Infinities Float where
  isNaN_add_iff {a b} ha hb := by
    change (parts a).isNaN = false at ha
    change (parts b).isNaN = false at hb
    change (parts (a + b)).isNaN = true ↔ _
    rw [parts_add, isNaN_repack, isNaN_add ha hb]
    simp only [isInf_iff]
  isInf_add_left {up a b} ha h := by
    change (parts (a + b)).isNaN = false at h
    rw [isInf_iff] at ha ⊢
    rw [parts_add, ha] at h ⊢
    rw [isNaN_repack] at h
    rw [add_infinity h, repack_infinity]
  isInf_add_right {up a b} hb h := by
    change (parts (a + b)).isNaN = false at h
    rw [isInf_iff] at hb ⊢
    rw [parts_add, hb] at h ⊢
    rw [isNaN_repack] at h
    rw [infinity_add h, repack_infinity]
  isInf_sub {up a b} ha hb := by
    have hsub (s : Sign) : sub .binary64 (parts a) (.infinity s) = .infinity (-s) := by
      rcases cases_of_isFinite (show (parts a).isFinite = true from ha) with
        ⟨t, ha⟩ | ⟨t, m, e, hm, ha⟩ <;> rw [ha] <;> rfl
    rw [isInf_iff] at hb ⊢
    rw [parts_sub, hb, hsub, repack_infinity]
    cases up <;> rfl
  isInf_mul {up k a} hk ha := by
    obtain ⟨s, m, e, hm, hk⟩ := parts_of_isDivisor hk
    rw [isInf_iff] at ha ⊢
    rw [parts_mul, ha, hk, signOf_turned hk, mul, repack_infinity]
  isInf_div {up k a} hk ha := by
    obtain ⟨s, m, e, hm, hk⟩ := parts_of_isDivisor hk
    rw [isInf_iff] at ha ⊢
    rw [parts_div, ha, hk, signOf_turned hk, div, repack_infinity]
    cases s <;> cases up <;> rfl
  isNaN_div {k a} hk := by
    obtain ⟨s, m, e, hm, hk⟩ := parts_of_isDivisor hk
    change (parts (a / k)).isNaN = (parts a).isNaN
    rw [parts_div, isNaN_repack, hk, isNaN_div]
  isNaN_of_isFinite := Scalar.Sizing.isNaN_of_isFinite
  isDivisor_ofNat {n} hn hlimit := by
    obtain ⟨m, e, hm, hparts⟩ := parts_ofNat hn hlimit
    refine ⟨⟨?_, ?_⟩, ?_⟩
    · change (parts (Scalar.ofNat n)).isFinite = true
      rw [hparts]
      rfl
    · change (UnpackedFloat.compare (parts (Scalar.ofNat n)) (parts 0.0) == some .eq) = false
      rw [hparts, parts_zero]
      rfl
    · change (0.0 : Float) < Scalar.ofNat n
      rw [lt_iff, order?]
      change UnpackedFloat.compare (parts 0.0) (parts (Scalar.ofNat n)) = _
      rw [parts_zero, hparts]
      rfl

end Double
end Scene
