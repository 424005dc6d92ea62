import Scene.Proofs.Scalar.Doubles

/-! Doubles and the rationals they are. A finite double is the double nearest to its own rational,
bit by bit; only the sign of zero gets lost. -/
namespace Scene

namespace Scalar
variable {α : Type} [Scalar α]

/-- Zero without its sign; any other number stays. -/
def unsigned (n : α) : α := if toRat? n = some 0 then zero else n

theorem toRat?_of_integer? {x : α} {i : Int} (h : integer? x = some i) :
    toRat? x = some (i : Rat) := by
  rw [integer?] at h
  split at h
  · next q hq =>
    obtain ⟨⟨hden, -⟩, hi⟩ := Option.ite_none_right_eq_some.mp h
    obtain rfl := Option.some.inj hi
    rw [hq, (Rat.den_eq_one_iff q).mp hden]
  · cases h

/-- Zero is an integer. -/
theorem toRat?_ne_zero_of_integer? {x : α} (h : integer? x = none) :
    toRat? x ≠ some 0 := by
  intro hzero
  rw [integer?, hzero] at h
  revert h
  decide

end Scalar

namespace Decimal

/-- A mantissa of 53 bits, or of fewer where the exponent is the least one. -/
structure Binary.Canonical (b : Binary) : Prop where
  lt : b.mantissa < 2 ^ 53
  normal : 2 ^ 52 ≤ b.mantissa ∨ b.exponent = -1074
  least : -1074 ≤ b.exponent
  greatest : b.exponent ≤ 971

def Binary.bits (b : Binary) : Nat :=
  if b.mantissa < 2 ^ 52 then b.mantissa else (b.exponent + 1074).toNat * 2 ^ 52 + b.mantissa

theorem Binary.toRat_eq (b : Binary) : b.toRat = b.mantissa * 2 ^ b.exponent := by
  obtain ⟨m, e⟩ := b
  cases e with
  | ofNat k =>
    change mkRat (m * 2 ^ k : Nat) 1 = _
    simp [Rat.mkRat_eq_div]
  | negSucc k =>
    change mkRat m (2 ^ (k + 1)) = _
    simp [Rat.mkRat_eq_div, zpow_negSucc, div_eq_mul_inv]

theorem Binary.toRat_eq_zero {b : Binary} : b.toRat = 0 ↔ b.mantissa = 0 := by
  rw [toRat_eq, mul_eq_zero, or_iff_left (zpow_ne_zero _ two_ne_zero), Nat.cast_eq_zero]

/-! The exponent of a quotient. -/

/-- The test for an exponent compares fractions, on either side of zero. -/
theorem fits_iff (n d : Nat) (e : Int) :
    (match e with
      | .ofNat k => decide (n < d * Nat.pow 2 k * Nat.pow 2 53)
      | .negSucc k => decide (n * Nat.pow 2 (k + 1) < d * Nat.pow 2 53)) = true ↔
      (n : ℚ) < d * 2 ^ (e + 53) := by
  rw [zpow_add₀ two_ne_zero, ← mul_assoc]
  cases e with
  | ofNat k =>
    rw [decide_eq_true_eq, Int.ofNat_eq_natCast, zpow_natCast]
    exact_mod_cast Iff.rfl
  | negSucc k =>
    have hpos : (0 : ℚ) < 2 ^ (k + 1) := by positivity
    have hswap : (d : ℚ) * 2 ^ Int.negSucc k * 2 ^ (53 : Int) =
        d * 2 ^ (53 : Int) / 2 ^ (k + 1) := by
      rw [zpow_negSucc, div_eq_mul_inv, mul_right_comm]
    rw [decide_eq_true_eq, hswap, lt_div_iff₀ hpos]
    exact_mod_cast Iff.rfl

theorem lt_of_scales {n d : Nat} {e f : Int} (h : (d : ℚ) * 2 ^ e ≤ n) (h' : (n : ℚ) < d * 2 ^ f) :
    e < f := by
  have hpow : (2 : ℚ) ^ e < 2 ^ f := lt_of_mul_lt_mul_left (h.trans_lt h') (Nat.cast_nonneg d)
  exact (zpow_lt_zpow_iff_right₀ one_lt_two).mp hpow

/-- Digits before the point tell a quotient to within a factor of two. -/
theorem scales_of_log2 {n d : Nat} (hn : n ≠ 0) (hd : d ≠ 0) :
    (d : ℚ) * 2 ^ ((n.log2 : Int) - d.log2 - 1) ≤ n ∧
      (n : ℚ) < d * 2 ^ ((n.log2 : Int) - d.log2 + 1) := by
  have hnlow : (2 : ℚ) ^ (n.log2 : Int) ≤ n := by exact_mod_cast Nat.log2_self_le hn
  have hnhigh : (n : ℚ) < 2 ^ ((n.log2 : Int) + 1) := by exact_mod_cast Nat.lt_log2_self
  have hdlow : (2 : ℚ) ^ (d.log2 : Int) ≤ d := by exact_mod_cast Nat.log2_self_le hd
  have hdhigh : (d : ℚ) < 2 ^ ((d.log2 : Int) + 1) := by exact_mod_cast Nat.lt_log2_self
  constructor
  · calc
      (d : ℚ) * 2 ^ ((n.log2 : Int) - d.log2 - 1)
          ≤ 2 ^ ((d.log2 : Int) + 1) * 2 ^ ((n.log2 : Int) - d.log2 - 1) :=
            mul_le_mul_of_nonneg_right hdhigh.le (by positivity)
      _ = 2 ^ (n.log2 : Int) := by
            rw [← zpow_add₀ two_ne_zero]
            congr 1
            omega
      _ ≤ n := hnlow
  · calc
      (n : ℚ) < 2 ^ ((n.log2 : Int) + 1) := hnhigh
      _ = 2 ^ (d.log2 : Int) * 2 ^ ((n.log2 : Int) - d.log2 + 1) := by
            rw [← zpow_add₀ two_ne_zero]
            congr 1
            omega
      _ ≤ d * 2 ^ ((n.log2 : Int) - d.log2 + 1) :=
            mul_le_mul_of_nonneg_right hdlow (by positivity)

/-- An exponent at which a quotient has 53 digits before the point is the only one, unless it has
fewer at the least one. -/
theorem max_eq_of_scales {n d : Nat} {e f : Int} (he : (d : ℚ) * 2 ^ (e + 52) ≤ n)
    (he' : (n : ℚ) < d * 2 ^ (e + 53)) (hf : (d : ℚ) * 2 ^ (f + 52) ≤ n ∨ f = -1074)
    (hf' : (n : ℚ) < d * 2 ^ (f + 53)) (hleast : -1074 ≤ f) : max e (-1074) = f := by
  have hle := lt_of_scales he hf'
  rcases hf with hf | hf
  · have hge := lt_of_scales hf he'
    omega
  · omega

theorem exponentOf_eq {n d : Nat} {f : Int} (hn : n ≠ 0) (hd : d ≠ 0)
    (hf : (d : ℚ) * 2 ^ (f + 52) ≤ n ∨ f = -1074) (hf' : (n : ℚ) < d * 2 ^ (f + 53))
    (hleast : -1074 ≤ f) : exponentOf n d = f := by
  obtain ⟨hlow, hhigh⟩ := scales_of_log2 hn hd
  unfold exponentOf
  extract_lets guess fits e
  have hfits (e : Int) : fits e = true ↔ (n : ℚ) < d * 2 ^ (e + 53) := fits_iff n d e
  -- The guess from the digits is right or too small by one.
  have hguess : (n.log2 : Int) - d.log2 = guess + 53 := by omega
  rw [hguess] at hlow hhigh
  by_cases hfirst : fits guess = true
  · have he : e = guess := if_pos hfirst
    rw [he]
    refine max_eq_of_scales ?_ ((hfits guess).mp hfirst) hf hf' hleast
    rwa [show guess + 53 - 1 = guess + 52 by omega] at hlow
  · have hsecond : fits (guess + 1) = true :=
      (hfits _).mpr (by rwa [show guess + 1 + 53 = guess + 53 + 1 by omega])
    have he : e = guess + 1 := (if_neg hfirst).trans (if_pos hsecond)
    rw [he]
    refine max_eq_of_scales ?_ ((hfits _).mp hsecond) hf hf' hleast
    rw [show guess + 1 + 52 = guess + 53 by omega]
    exact not_lt.mp ((hfits guess).not.mp hfirst)

/-- A whole number needs no rounding. -/
theorem roundEven_mul {m d : Nat} (hd : d ≠ 0) : roundEven (m * d) d = m := by
  have hpos := Nat.pos_of_ne_zero hd
  simp [roundEven, Nat.mul_div_cancel _ hpos, hpos]

/-- What is a whole number of units at an exponent is rounded to that number. -/
theorem mantissa_eq {n d m : Nat} (hd : d ≠ 0) (e : Int) :
    (n : ℚ) = m * 2 ^ e * d →
      (match e with
        | .ofNat k => roundEven n (d * Nat.pow 2 k)
        | .negSucc k => roundEven (n * Nat.pow 2 (k + 1)) d) = m := by
  intro h
  cases e with
  | ofNat k =>
    rw [Int.ofNat_eq_natCast, zpow_natCast] at h
    have hn : n = m * (d * Nat.pow 2 k) := by
      rw [Nat.mul_comm d, ← Nat.mul_assoc]
      exact_mod_cast h
    dsimp only
    rw [hn]
    exact roundEven_mul (Nat.mul_ne_zero hd (Nat.two_pow_pos k).ne')
  | negSucc k =>
    have hn : (n : ℚ) * 2 ^ (k + 1) = m * d := by
      rw [h, zpow_negSucc]
      field_simp
    have hn' : n * Nat.pow 2 (k + 1) = m * d := by exact_mod_cast hn
    dsimp only
    rw [hn']
    exact roundEven_mul hd

theorem exponentOf_mul {b : Binary} (hb : b.Canonical) {n d : Nat} (hn : n ≠ 0) (hd : d ≠ 0)
    (h : (n : ℚ) = b.mantissa * 2 ^ b.exponent * d) : exponentOf n d = b.exponent := by
  have hunit : (0 : ℚ) < 2 ^ b.exponent * d := by positivity
  have hscale (k : Int) : (d : ℚ) * 2 ^ (b.exponent + k) = 2 ^ k * (2 ^ b.exponent * d) := by
    rw [zpow_add₀ two_ne_zero]
    ring
  refine exponentOf_eq hn hd (hb.normal.imp_left fun hnormal => ?_) ?_ hb.least
  · rw [hscale, h, mul_assoc]
    refine mul_le_mul_of_nonneg_right ?_ hunit.le
    exact_mod_cast hnormal
  · rw [hscale, h, mul_assoc]
    refine mul_lt_mul_of_pos_right ?_ hunit
    exact_mod_cast hb.lt

/-- A magnitude other than zero is the one nearest to its own rational. -/
theorem nearestBits_eq {b : Binary} (hb : b.Canonical) (hm : b.mantissa ≠ 0) {n d : Nat}
    (hd : d ≠ 0) (h : (n : ℚ) = b.mantissa * 2 ^ b.exponent * d) : nearestBits n d = b.bits := by
  have hn : n ≠ 0 := by
    rintro rfl
    have hne : (b.mantissa : ℚ) * 2 ^ b.exponent * d ≠ 0 := by positivity
    exact hne (h.symm.trans Nat.cast_zero)
  have hexponent := exponentOf_mul hb hn hd h
  obtain ⟨hlt, hnormal, hleast, hgreatest⟩ := hb
  rw [nearestBits, if_neg hn]
  extract_lets e m
  have he : e = b.exponent := hexponent
  have hmantissa : m = b.mantissa := mantissa_eq hd e (he ▸ h)
  change (if m < 2 ^ 52 then m else min ((e + 1074).toNat * 2 ^ 52 + m) (2047 * 2 ^ 52)) = _
  rw [hmantissa, he]
  unfold Binary.bits
  split
  · rfl
  · exact Nat.min_eq_left (by omega)

/-- Below the normal numbers the fraction is the mantissa; above, a first bit stands before it. -/
theorem cases_of_ofFloat? {x : Float} {m : Nat} {k : Int}
    (h : Binary.ofFloat? x = some ⟨m, k⟩) :
    bitExponent x.toBits ≠ topExponent ∧
      (bitExponent x.toBits = 0 ∧ m = bitFraction x.toBits ∧ k = -1074 ∨
        bitExponent x.toBits ≠ 0 ∧ m = 2 ^ 52 + bitFraction x.toBits ∧
          k = (bitExponent x.toBits : Int) - 1075) := by
  unfold Binary.ofFloat? at h
  dsimp only at h
  split at h
  · cases h
  · next htop =>
    refine ⟨htop, ?_⟩
    split at h
    · next hzero =>
      cases h
      exact .inl ⟨hzero, rfl, rfl⟩
    · next hzero =>
      cases h
      exact .inr ⟨hzero, rfl, rfl⟩

/-- What a finite double is taken apart into, and the bits it stands in. -/
theorem canonical_ofFloat? {x : Float} {b : Binary} (h : Binary.ofFloat? x = some b) :
    b.Canonical ∧ bitExponent x.toBits ≠ topExponent ∧ x.toBits.toNat % 2 ^ 63 = b.bits := by
  obtain ⟨m, k⟩ := b
  obtain ⟨htop, hparts⟩ := cases_of_ofFloat? h
  have he : bitExponent x.toBits = x.toBits.toNat / 2 ^ 52 % 2 ^ 11 := rfl
  have hf : bitFraction x.toBits = x.toBits.toNat % 2 ^ 52 := rfl
  have hlt : m < 2 ^ 53 := by omega
  have hnormal : 2 ^ 52 ≤ m ∨ k = -1074 := by omega
  have hleast : -1074 ≤ k := by omega
  have hgreatest : k ≤ 971 := by
    change bitExponent x.toBits ≠ 2047 at htop
    omega
  refine ⟨⟨hlt, hnormal, hleast, hgreatest⟩, htop, ?_⟩
  change _ = if m < 2 ^ 52 then m else (k + 1074).toNat * 2 ^ 52 + m
  split <;> omega

end Decimal

/-! Bits and the parts they are taken apart into. -/

namespace Double
open Float.Model (UnpackedFloat Format)
open Float.Model.UnpackedFloat

theorem ofBitVec_toBitVec (v : BitVec 1) : (Sign.ofBitVec v).toBitVec = v := by
  rcases BitVec.eq_zero_or_eq_one v with rfl | rfl <;> rfl

theorem packComponents_unpack (b : BitVec Format.binary64.numBits) :
    packComponents .binary64 (Sign.ofBitVec (unpackSign b)) (unpackExponent b) (unpackMantissa b) =
      b := by
  rw [packComponents, ofBitVec_toBitVec, unpackSign, unpackExponent, unpackMantissa]
  refine BitVec.eq_of_getLsbD_eq fun i hi => ?_
  simp only [BitVec.getLsbD_append, BitVec.getLsbD_cast, BitVec.getLsbD_extractLsb]
  grind

theorem pack_unpack_packComponents (s : Sign) {e : BitVec 11} (he : e ≠ -1#11) (m : BitVec 52) :
    pack .binary64 (unpack .binary64 (packComponents .binary64 s e m)) =
      packComponents .binary64 s e m := by
  have hbias : (Format.binary64.exponentBias : Int) = 1023 := by decide
  have hlargest : e.toNat ≠ 2047 := fun heq => he (BitVec.eq_of_toNat_eq heq)
  have hrange := e.isLt
  have hm := m.isLt
  unfold unpack
  simp only [unpackExponent_packComponents, unpackMantissa_packComponents,
    unpackSign_packComponents, Sign.ofBitVec_toBitVec, he, ↓reduceIte, hbias]
  split
  · -- No first bit: a zero, or a magnitude below the normal ones.
    next hzero =>
    subst hzero
    split
    · next hzero =>
      subst hzero
      rfl
    · next hne =>
      have hpos : m.toNat ≠ 0 := fun heq => hne (BitVec.eq_of_toNat_eq heq)
      have hlog : m.toNat.log2 ≠ 52 := ((Nat.log2_lt hpos).mpr hm).ne
      rw [pack_finite, if_neg (by decide), if_neg hlog, BitVec.ofNat_toNat, BitVec.setWidth_eq]
  · next hne =>
    have hpos : e.toNat ≠ 0 := fun heq => hne (BitVec.eq_of_toNat_eq heq)
    have happend : (1#1 ++ m).toNat = 2 ^ 52 + m.toNat := by
      rw [BitVec.toNat_append, ← Nat.shiftLeft_add_eq_or_of_lt hm]
      rfl
    have hlog : (1#1 ++ m).toNat.log2 = 52 := by
      rw [happend]
      refine (Nat.log2_eq_iff (by omega)).mpr ⟨?_, ?_⟩ <;> omega
    rw [pack_finite, if_neg (by omega), if_pos hlog, happend]
    congr 1
    · refine BitVec.eq_of_toNat_eq ?_
      rw [BitVec.toNat_ofNat]
      omega
    · refine BitVec.eq_of_toNat_eq ?_
      rw [BitVec.toNat_ofNat]
      omega

theorem pack_unpack {b : BitVec Format.binary64.numBits}
    (hfinite : (unpackExponent b : BitVec Format.binary64.exponentBits) ≠ -1#_) :
    pack .binary64 (unpack .binary64 b) = b := by
  have h := pack_unpack_packComponents (Sign.ofBitVec (unpackSign b)) hfinite (unpackMantissa b)
  rwa [packComponents_unpack] at h

/-- The bits of a finite double are its own. -/
theorem ofBits_toBits {x : Float} (h : Decimal.bitExponent x.toBits ≠ 2047) :
    Float.ofBits x.toBits = x := by
  obtain ⟨bits, valid⟩ := x
  change Decimal.bitExponent bits ≠ 2047 at h
  have hexponent : (unpackExponent bits.toBitVec : BitVec Format.binary64.exponentBits) ≠ -1#_ := by
    intro heq
    refine h ?_
    change bits.toNat / 2 ^ 52 % 2 ^ 11 = 2047
    rw [← toNat_unpackExponent, heq]
    rfl
  have hbits : UInt64.ofBitVec (pack .binary64 (unpack .binary64 bits.toBitVec)) = bits := by
    rw [pack_unpack hexponent]
  refine congrArg Float.ofModel ?_
  rw [Float.Model.ofBits, Float.Model.pack, Float.Model.mk.injEq]
  exact hbits

theorem zero_of_mantissa {x : Float} {b : Decimal.Binary} (h : Decimal.Binary.ofFloat? x = some b)
    (hm : b.mantissa = 0) : x = 0.0 ∨ x = -0.0 := by
  obtain ⟨-, htop, hbits⟩ := Decimal.canonical_ofFloat? h
  have hnone : x.toBits.toNat % 2 ^ 63 = 0 := by
    rw [hbits, Decimal.Binary.bits, hm]
    rfl
  have hrange := x.toBits.toNat_lt
  have hcases : x.toBits = 0 ∨ x.toBits = 9223372036854775808 := by
    rw [← UInt64.toNat_inj, ← UInt64.toNat_inj]
    change _ = 0 ∨ _ = 9223372036854775808
    omega
  rw [← ofBits_toBits htop]
  rcases hcases with hcase | hcase
  · left
    rw [hcase]
    decide +kernel
  · right
    rw [hcase]
    decide +kernel

open Decimal

/-- The sign stands before the bits of the magnitude. -/
theorem magnitude_with_sign (bits : UInt64) :
    (bits.toNat % 2 ^ 63 + if bitSign bits then Nat.pow 2 63 else 0).toUInt64 = bits := by
  have hrange := bits.toNat_lt
  have hbit : bitSign bits = true ↔ bits.toNat / 2 ^ 63 = 1 := decide_eq_true_iff
  have hpow : Nat.pow 2 63 = 2 ^ 63 := rfl
  rw [← UInt64.toNat_inj, Nat.toUInt64_eq, UInt64.toNat_ofNat', hpow]
  split
  · next h =>
    have := hbit.mp h
    omega
  · next h =>
    have := hbit.not.mp h
    omega

/-- A finite double other than zero is the one nearest to its own rational. -/
theorem floatOfRat_of_toRat? {x : Float} {q : Rat} (h : toRat? x = some q) (hq : q ≠ 0) :
    floatOfRat q = x := by
  obtain ⟨b, hb, hsigned⟩ := Option.map_eq_some_iff.mp h
  obtain ⟨hcanonical, htop, hbits⟩ := canonical_ofFloat? hb
  have hm : b.mantissa ≠ 0 := by
    intro hzero
    rw [Binary.toRat_eq_zero.mpr hzero, neg_zero, ite_self] at hsigned
    exact hq hsigned.symm
  rw [Binary.toRat_eq] at hsigned
  have hpos : (0 : ℚ) < b.mantissa * 2 ^ b.exponent := by
    have := Nat.pos_of_ne_zero hm
    positivity
  have habs : |q| = b.mantissa * 2 ^ b.exponent := by
    rw [← hsigned]
    split
    · rw [abs_neg, abs_of_pos hpos]
    · rw [abs_of_pos hpos]
  have hfraction : (q.num.natAbs : ℚ) = b.mantissa * 2 ^ b.exponent * q.den := by
    rw [Nat.cast_natAbs, Int.cast_abs, ← Rat.mul_den_eq_num, abs_mul, habs, Nat.abs_cast]
  have hsign : decide (q.num < 0) = bitSign x.toBits := by
    rw [← hsigned]
    cases hbit : bitSign x.toBits with
    | true => exact decide_eq_true (Rat.num_neg.mpr (neg_lt_zero.mpr hpos))
    | false => exact decide_eq_false (not_lt.mpr (Rat.num_nonneg.mpr hpos.le))
  rw [floatOfRat, nearestFloat, hsign, nearestBits_eq hcanonical hm q.den_nz hfraction, ← hbits,
    magnitude_with_sign, ofBits_toBits htop]

theorem floatOfRat_zero : floatOfRat 0 = 0.0 := by decide +kernel

/-- What a finite double reads back as, through its rational. -/
theorem floatOfRat_eq_unsigned {x : Float} {q : Rat} (h : toRat? x = some q) :
    floatOfRat q = Scalar.unsigned x := by
  have hunsigned : Scalar.unsigned x = if q = 0 then 0.0 else x := by
    change (if toRat? x = some 0 then 0.0 else x) = _
    simp only [h, Option.some.injEq]
  rw [hunsigned]
  split
  · next hq =>
    rw [hq]
    exact floatOfRat_zero
  · next hq => exact floatOfRat_of_toRat? h hq

theorem beq_self {x : Float} (h : Scalar.isFinite x = true) : (x == x) = true := by
  change (UnpackedFloat.compare (parts x) (parts x) == some .eq) = true
  rcases cases_of_isFinite (show (parts x).isFinite = true from h) with
    ⟨s, hx⟩ | ⟨s, m, e, hm, hx⟩ <;> rw [hx]
  · rfl
  · cases s <;> simp [UnpackedFloat.compare]

/-- A zero of either sign equals zero. -/
theorem beq_unsigned {x : Float} (h : Scalar.isFinite x = true) :
    (Scalar.unsigned x == x) = true := by
  rw [Scalar.unsigned]
  split
  · next hzero =>
    obtain ⟨b, hb, hsigned⟩ := Option.map_eq_some_iff.mp hzero
    have hnone : b.toRat = 0 := by
      split at hsigned
      · exact neg_eq_zero.mp hsigned
      · exact hsigned
    rcases zero_of_mantissa hb (Binary.toRat_eq_zero.mp hnone) with rfl | rfl
    · decide +kernel
    · decide +kernel
  · exact beq_self h

end Double
end Scene
