import Mathlib

/-! Rounding of doubles. An operation puts together what it makes of parts, and that is finite
exactly where the exponent is not beyond the largest one; so what is not larger than a finite double
stays finite when it is rounded. -/
namespace Scene.Double
open Float.Model (UnpackedFloat Format)
open Float.Model.UnpackedFloat

/-! Taking apart what was put together. -/

def repack (u : UnpackedFloat) : UnpackedFloat := (Float.Model.pack u).unpack

def Bears (s : Sign) : UnpackedFloat → Prop
  | .infinity t | .zero t | .finite t .. => t = s
  | .notANumber => False

theorem repack_notANumber : repack .notANumber = .notANumber := @unpack_packedNaN .binary64

theorem repack_zero (s : Sign) : repack (.zero s) = .zero s := unpack_packedZero

theorem repack_infinity (s : Sign) : repack (.infinity s) = .infinity s := by
  cases s <;> with_unfolding_all rfl

/-- Components with any but the largest exponent make a finite number. -/
theorem unpack_packComponents (spec : Format) (s : Sign) {e : BitVec spec.exponentBits}
    (he : e ≠ -1#_) (m : BitVec spec.mantissaBitsWithoutImplicit) :
    Bears s (unpack spec (packComponents spec s e m)) ∧
      (unpack spec (packComponents spec s e m)).isFinite = true := by
  unfold unpack
  simp only [unpackExponent_packComponents, unpackMantissa_packComponents,
    unpackSign_packComponents, Sign.ofBitVec_toBitVec, he, ↓reduceIte]
  split
  · split <;> exact ⟨rfl, rfl⟩
  · exact ⟨rfl, rfl⟩

/-- A number goes by its components, and beyond the largest exponent it is infinite. -/
theorem pack_finite (s : Sign) {m : Nat} (e : Int) (h : 0 < m) :
    pack Format.binary64 (.finite s m e h) =
      if 971 < e then packedInfinity Format.binary64 s
      else packComponents Format.binary64 s
        (if m.log2 = 52 then BitVec.ofNat 11 (e + 1075).toNat else 0#11) (BitVec.ofNat 52 m) := by
  have hbiased : (e + Format.binary64.exponentBias +
      Format.binary64.mantissaBitsWithoutImplicit).toNat = (e + 1075).toNat := by
    have : (Format.binary64.exponentBias : Int) = 1023 := by decide
    rw [this]
    exact congrArg Int.toNat (by change e + 1023 + 52 = _; omega)
  have hbits : m.log2 + 1 = Format.binary64.mantissaBits ↔ m.log2 = 52 := by
    change m.log2 + 1 = 1 + 52 ↔ _
    omega
  have hlarge : 2 ^ Format.binary64.exponentBits ≤ (e + 1075).toNat + 1 ↔ 971 < e := by
    change 2048 ≤ _ ↔ _
    omega
  unfold pack
  simp only [hbiased, hbits, hlarge]
  split
  · rfl
  · split <;> rfl

/-- The exponent alone decides whether a finite number is put together as one. -/
theorem repack_finite (s : Sign) (m : Nat) (e : Int) (h : 0 < m) :
    Bears s (repack (.finite s m e h)) ∧
      ((repack (.finite s m e h)).isFinite = true ↔ e ≤ 971) := by
  have hbits : repack (.finite s m e h) =
      unpack Format.binary64 (pack Format.binary64 (.finite s m e h)) := rfl
  rw [hbits, pack_finite]
  split
  · next hlarge =>
    have hinfinite : unpack Format.binary64 (packedInfinity Format.binary64 s) = .infinity s :=
      repack_infinity s
    rw [hinfinite]
    exact ⟨rfl, iff_of_false Bool.false_ne_true (by omega)⟩
  · next hsmall =>
    have hexponent :
        (if m.log2 = 52 then BitVec.ofNat 11 (e + 1075).toNat else 0#11) ≠ -1#11 := by
      split
      · intro heq
        have hnat := congrArg BitVec.toNat heq
        rw [BitVec.toNat_ofNat] at hnat
        change (e + 1075).toNat % 2048 = 2047 at hnat
        omega
      · decide
    obtain ⟨hsign, hfinite⟩ := unpack_packComponents .binary64 s hexponent (BitVec.ofNat 52 m)
    exact ⟨hsign, iff_of_true hfinite (by omega)⟩

/-- What a double is taken apart into has at most 53 bits, and an exponent within the range. -/
theorem unpack_finite {a : Float} {s : Sign} {m : Nat} {e : Int} {h : 0 < m}
    (ha : a.toModel.unpack = .finite s m e h) : m < 2 ^ 53 ∧ -1074 ≤ e ∧ e ≤ 971 := by
  unfold Float.Model.unpack UnpackedFloat.unpack at ha
  have hbias : (Format.binary64.exponentBias : Int) = 1023 := by decide
  simp only [hbias] at ha
  generalize (unpackExponent _ : BitVec Format.binary64.exponentBits) = exponent at ha
  change BitVec 11 at exponent
  have hrange := exponent.isLt
  split at ha
  · split at ha <;> cases ha
  · next hlargest =>
    have hbelow : exponent.toNat ≠ 2047 := fun heq => hlargest (BitVec.eq_of_toNat_eq heq)
    split at ha
    · split at ha
      · cases ha
      · next hzero _ =>
        obtain ⟨-, hm, he⟩ := UnpackedFloat.finite.inj ha
        have hexponent : exponent.toNat = 0 := congrArg BitVec.toNat hzero
        have hmantissa : m < 2 ^ 52 := hm ▸ BitVec.isLt _
        omega
    · next hzero =>
      obtain ⟨-, hm, he⟩ := UnpackedFloat.finite.inj ha
      have hexponent : exponent.toNat ≠ 0 := fun heq => hzero (BitVec.eq_of_toNat_eq heq)
      have hmantissa : m < 2 ^ 53 := hm ▸ BitVec.isLt _
      omega

/-! The fields of a word. -/

theorem toNat_unpackExponent (b : UInt64) :
    (unpackExponent b.toBitVec : BitVec Format.binary64.exponentBits).toNat =
      b.toNat / 2 ^ 52 % 2 ^ 11 := by
  rw [unpackExponent, BitVec.toNat_cast, BitVec.extractLsb_toNat]
  change b.toNat >>> 52 % 2 ^ 11 = _
  rw [Nat.shiftRight_eq_div_pow]

theorem toNat_unpackMantissa (b : UInt64) :
    (unpackMantissa b.toBitVec : BitVec Format.binary64.mantissaBitsWithoutImplicit).toNat =
      b.toNat % 2 ^ 52 := by
  rw [unpackMantissa, BitVec.toNat_cast, BitVec.extractLsb_toNat]
  rfl

/-! Rounding. -/

theorem mantissa_shift (em : ExtendedMantissa) (k : Nat) :
    (em >>> k).mantissa = em.mantissa / 2 ^ k := by
  induction k with
  | zero => simp [HShiftRight.hShiftRight, Nat.repeat]
  | succ k ih =>
    change (em >>> k).mantissa / 2 = _
    rw [ih, Nat.div_div_eq_div_mul, ← Nat.pow_succ]

/-- Zeros that are shifted out leave no trace. -/
theorem shift_of_dvd {m k : Nat} (h : 2 ^ k ∣ m) :
    (⟨m, false, false⟩ : ExtendedMantissa) >>> k = ⟨m / 2 ^ k, false, false⟩ := by
  induction k with
  | zero => simp [HShiftRight.hShiftRight, Nat.repeat]
  | succ k ih =>
    obtain ⟨c, rfl⟩ := h
    have hbefore : 2 ^ (k + 1) * c = 2 ^ k * (2 * c) := by rw [Nat.pow_succ, Nat.mul_assoc]
    have hdvd : 2 ^ k ∣ 2 ^ (k + 1) * c := ⟨2 * c, hbefore⟩
    change ((⟨2 ^ (k + 1) * c, false, false⟩ : ExtendedMantissa) >>> k).shiftRightOne = _
    rw [ih hdvd]
    have heven : 2 ^ (k + 1) * c / 2 ^ k % 2 = 0 := by
      rw [hbefore, Nat.mul_div_cancel_left _ (Nat.two_pow_pos k), Nat.mul_mod_right]
    simp [ExtendedMantissa.shiftRightOne, heven, Nat.div_div_eq_div_mul, ← Nat.pow_succ]

theorem roundedMantissa_le (em : ExtendedMantissa) : em.roundedMantissa ≤ em.mantissa + 1 := by
  obtain ⟨m, round, sticky⟩ := em
  cases round <;> cases sticky <;>
    simp only [ExtendedMantissa.roundedMantissa, ExtendedMantissa.accuracy,
      Accuracy.roundToNearestEven] <;> omega

/-- Rounding does not pass what needs no rounding. -/
theorem roundedMantissa_shift_le {m k bound : Nat} (h : m ≤ bound * 2 ^ k) :
    ((⟨m, false, false⟩ : ExtendedMantissa) >>> k).roundedMantissa ≤ bound := by
  have hpos : 0 < 2 ^ k := Nat.two_pow_pos k
  have hle : m / 2 ^ k ≤ bound := Nat.div_le_of_le_mul (Nat.mul_comm _ _ ▸ h)
  rcases Nat.lt_or_eq_of_le hle with hlt | heq
  · refine Nat.le_trans (roundedMantissa_le _) ?_
    rw [mantissa_shift]
    exact hlt
  · have hback := Nat.div_mul_le_self m (2 ^ k)
    rw [heq] at hback
    have hdvd : 2 ^ k ∣ m := ⟨bound, by rw [Nat.mul_comm]; omega⟩
    rw [shift_of_dvd hdvd]
    exact hle

def InRange (m : Nat) (e : Int) : Prop := e ≤ 971 ∧ m ≤ (2 ^ 53 - 1) * 2 ^ (971 - e).toNat

theorem InRange.log2_add_le {m : Nat} {e : Int} (h : InRange m e) : (m.log2 : Int) + e ≤ 1023 := by
  obtain ⟨he, hm⟩ := h
  by_cases hzero : m = 0
  · rw [hzero, Nat.log2_zero]
    omega
  · have hlt : m < 2 ^ (53 + (971 - e).toNat) := by
      rw [Nat.pow_add]
      have := Nat.two_pow_pos (971 - e).toNat
      exact Nat.lt_of_le_of_lt hm (Nat.mul_lt_mul_of_pos_right (by decide) this)
    have := (Nat.log2_lt hzero).mpr hlt
    omega

theorem targetExponent_eq (total : Int) :
    Format.binary64.targetExponent total = max (total - 53) (-1074) := by
  have hleast : Format.binary64.minExponent = -1074 := by decide
  have hbits : (Format.binary64.mantissaBits : Int) = 53 := by decide
  rw [Format.targetExponent, hleast, hbits]

theorem isFinite_repack_round {s : Sign} {m : Nat} {e : Int} (h : InRange m e) :
    (repack (roundWithAccuracy .binary64 s m e .exact)).isFinite = true := by
  have hlog := h.log2_add_le
  obtain ⟨he, hm⟩ := h
  unfold roundWithAccuracy shiftToTargetExponent shiftToExponent
  dsimp only
  generalize hk : (Format.binary64.targetExponent (Float.Model.totalExponent m e) - e).toNat = k
  rw [targetExponent_eq, Float.Model.totalExponent] at hk
  have hexponent : e + k ≤ 971 := by omega
  generalize hr : ((ExtendedMantissa.ofMantissaAndAccuracy m .exact) >>> k).roundedMantissa = r
  have hrange : InRange r (e + k) := by
    refine ⟨hexponent, hr ▸ roundedMantissa_shift_le ?_⟩
    have hsplit : (971 - e).toNat = (971 - (e + k)).toNat + k := by omega
    rwa [Nat.mul_assoc, ← Nat.pow_add, ← hsplit]
  split
  · rw [repack_zero]
    rfl
  · refine (repack_finite _ _ _ _).2.mpr ?_
    have hlog' := hrange.log2_add_le
    rw [targetExponent_eq, Float.Model.totalExponent]
    omega

/-- The same number with a smaller exponent. -/
theorem InRange.shiftLeft {m : Nat} {e : Int} (h : InRange m e) (k : Nat) :
    InRange (m <<< k) (e - k) := by
  obtain ⟨he, hm⟩ := h
  refine ⟨by omega, ?_⟩
  have hsplit : (971 - (e - k)).toNat = (971 - e).toNat + k := by omega
  rw [Nat.shiftLeft_eq, hsplit, Nat.pow_add, ← Nat.mul_assoc]
  exact Nat.mul_le_mul_right _ hm

theorem InRange.of_le {m n : Nat} {e : Int} (h : InRange n e) (hle : m ≤ n) : InRange m e :=
  ⟨h.1, Nat.le_trans hle h.2⟩

theorem isFinite_repack_normalize {m : Int} {e : Int} (s : Sign) (h : InRange m.natAbs e) :
    (repack (UnpackedFloat.normalize .binary64 m e s)).isFinite = true := by
  unfold UnpackedFloat.normalize
  split
  · next hlt =>
    have hneg : m < 0 := Std.compare_eq_lt.mp hlt
    refine isFinite_repack_round (InRange.shiftLeft (?_) _)
    rwa [show (-m).toNat = m.natAbs by omega]
  · rw [repack_zero]
    rfl
  · next hgt =>
    have hpos : 0 < m := Std.compare_eq_gt.mp hgt
    refine isFinite_repack_round (InRange.shiftLeft (?_) _)
    rwa [show m.toNat = m.natAbs by omega]

/-- What a double is taken apart into is in range. -/
theorem inRange_unpack {a : Float} {s : Sign} {m : Nat} {e : Int} {h : 0 < m}
    (ha : a.toModel.unpack = .finite s m e h) : InRange m e := by
  obtain ⟨hm, -, he⟩ := unpack_finite ha
  refine ⟨he, Nat.le_trans (Nat.le_sub_one_of_lt hm) ?_⟩
  exact Nat.le_mul_of_pos_right _ (Nat.two_pow_pos _)

theorem isNaN_repack (u : UnpackedFloat) : (repack u).isNaN = u.isNaN := by
  cases u with
  | notANumber => rw [repack_notANumber]
  | infinity s => rw [repack_infinity]
  | zero s => rw [repack_zero]
  | finite s m e h =>
    have hsign := (repack_finite s m e h).1
    cases hrepack : repack (.finite s m e h) with
    | notANumber =>
      rw [hrepack] at hsign
      cases hsign
    | _ => rfl

end Scene.Double
