import Scene.Proofs.Scalar.Rounding
import Scene.Proofs.Scalar.Sizing

/-! Doubles as sizes: what is computed from finite sizes on the way to a size is finite. -/
namespace Scene.Double
open Float.Model (UnpackedFloat Format)
open Float.Model.UnpackedFloat

def parts (a : Float) : UnpackedFloat := a.toModel.unpack

theorem parts_add (a b : Float) : parts (a + b) = repack (add .binary64 (parts a) (parts b)) := rfl
theorem parts_sub (a b : Float) : parts (a - b) = repack (sub .binary64 (parts a) (parts b)) := rfl
theorem parts_mul (a b : Float) : parts (a * b) = repack (mul .binary64 (parts a) (parts b)) := rfl
theorem parts_div (a b : Float) : parts (a / b) = repack (div .binary64 (parts a) (parts b)) := rfl
theorem parts_abs (a : Float) : parts a.abs = repack (parts a).abs := rfl

theorem parts_zero : parts 0.0 = .zero .positive := by with_unfolding_all rfl
theorem parts_negZero : parts (-0.0) = .zero .negative := by with_unfolding_all rfl
theorem parts_one : parts 1.0 = .finite .positive (2 ^ 52) (-52) (by decide) := by
  with_unfolding_all rfl
theorem parts_posInf : parts (1.0 / 0.0) = .infinity .positive := by with_unfolding_all rfl
theorem parts_negInf : parts (-1.0 / 0.0) = .infinity .negative := by with_unfolding_all rfl
theorem parts_ofNat_zero : parts (Scalar.ofNat 0) = .zero .positive := by with_unfolding_all rfl
theorem parts_ofNat_two :
    parts (Scalar.ofNat 2) = .finite .positive (2 ^ 52) (-51) (by decide) := by
  with_unfolding_all rfl

theorem cases_of_isFinite {u : UnpackedFloat} (h : u.isFinite = true) :
    (∃ s, u = .zero s) ∨ ∃ s m e hm, u = .finite s m e hm := by
  cases u with
  | zero s => exact .inl ⟨s, rfl⟩
  | finite s m e hm => exact .inr ⟨s, m, e, hm, rfl⟩
  | _ => cases h

def NotNegative (u : UnpackedFloat) : Prop := Bears .positive u ∨ ∃ s, u = .zero s

theorem NotNegative.cases {u : UnpackedFloat} (h : NotNegative u) :
    u = .infinity .positive ∨ (∃ s, u = .zero s) ∨ ∃ m e hm, u = .finite .positive m e hm := by
  rcases h with h | h
  · cases u with
    | infinity s => exact .inl (by rw [show s = .positive from h])
    | zero s => exact .inr (.inl ⟨s, rfl⟩)
    | finite s m e hm =>
      obtain rfl : s = .positive := h
      exact .inr (.inr ⟨m, e, hm, rfl⟩)
    | notANumber => cases h
  · exact .inr (.inl h)

theorem le_iff_parts (a b : Float) :
    a ≤ b ↔ (UnpackedFloat.compare (parts a) (parts b)).any (·.isLE) = true :=
  le_iff a b

theorem notNegative_of_le {a : Float} (h : (0.0 : Float) ≤ a) : NotNegative (parts a) := by
  rw [le_iff_parts, parts_zero] at h
  cases hparts : parts a with
  | zero s => exact .inr ⟨s, rfl⟩
  | notANumber =>
    rw [hparts] at h
    cases h
  | infinity s =>
    rw [hparts] at h
    cases s with
    | positive => exact .inl rfl
    | negative => cases h
  | finite s m e hm =>
    rw [hparts] at h
    cases s with
    | positive => exact .inl rfl
    | negative => cases h

theorem round_cases (spec : Format) (s : Sign) (m : Nat) (e : Int) (accuracy : Accuracy) :
    roundWithAccuracy spec s m e accuracy = .zero s ∨
      ∃ m' e' h, roundWithAccuracy spec s m e accuracy = .finite s m' e' h := by
  unfold roundWithAccuracy
  dsimp only
  split
  · exact .inl rfl
  · next h => exact .inr ⟨_, _, Nat.pos_of_ne_zero h, rfl⟩

theorem notNegative_double {p : Float} (hp : NotNegative (parts p)) :
    NotNegative (parts (Scalar.ofNat 2 * p)) := by
  rw [parts_mul, parts_ofNat_two]
  rcases hp.cases with hp | ⟨s, hp⟩ | ⟨m, e, h, hp⟩ <;> rw [hp, mul]
  · exact .inl (by rw [repack_infinity]; rfl)
  · exact .inr ⟨_, repack_zero _⟩
  · rcases round_cases .binary64 (.positive * .positive) (2 ^ 52 * m) (-51 + e) .exact with
      hround | ⟨m', e', h', hround⟩
    · exact .inr ⟨_, by rw [hround, repack_zero]⟩
    · rw [hround]
      exact .inl (repack_finite _ m' e' h').1

theorem not_zero_lt_of_negInf {a : Float} (h : parts a = .infinity .negative) :
    ¬(0.0 : Float) < a := by
  rw [lt_iff, order?]
  change ¬UnpackedFloat.compare (parts 0.0) (parts a) = _
  rw [parts_zero, h]
  exact nofun

/-- A difference of numbers that are not negative is not larger than both of them. -/
theorem isFinite_sub {a b : Float} (ha : NotNegative (parts a))
    (hfinite : (parts a).isFinite = true) (hb : NotNegative (parts b))
    (h : (0.0 : Float) < a - b) : (parts (a - b)).isFinite = true := by
  rw [parts_sub]
  rcases hb.cases with hb | ⟨s, hb⟩ | ⟨m, e, hm, hb⟩
  · refine absurd h (not_zero_lt_of_negInf ?_)
    rw [parts_sub, hb]
    rcases cases_of_isFinite hfinite with ⟨t, ha⟩ | ⟨t, n, f, hn, ha⟩ <;> rw [ha]
    · exact repack_infinity _
    · exact repack_infinity _
  · rw [hb]
    rcases cases_of_isFinite hfinite with ⟨t, ha⟩ | ⟨t, n, f, hn, ha⟩ <;> rw [ha]
    · rw [sub]
      split <;> rw [repack_zero] <;> rfl
    · exact (repack_finite t n f hn).2.mpr (inRange_unpack ha).1
  · rw [hb]
    rcases ha.cases with ha | ⟨t, ha⟩ | ⟨n, f, hn, ha⟩ <;> rw [ha]
    · rw [ha] at hfinite
      cases hfinite
    · exact (repack_finite _ m e hm).2.mpr (inRange_unpack hb).1
    · have hleft := (inRange_unpack ha).shiftLeft (f - min f e).toNat
      have hright := (inRange_unpack hb).shiftLeft (e - min f e).toNat
      rw [show f - ((f - min f e).toNat : Int) = min f e by omega] at hleft
      rw [show e - ((e - min f e).toNat : Int) = min f e by omega] at hright
      refine isFinite_repack_normalize _ ?_
      simp only [Sign.apply]
      generalize n <<< (f - min f e).toNat = x at hleft
      generalize m <<< (e - min f e).toNat = y at hright
      rcases Nat.le_total x y with hle | hle
      · exact hright.of_le (by omega)
      · exact hleft.of_le (by omega)

theorem isFinite_div_one {a : Float} (h : (parts a).isFinite = true) :
    (parts (a / 1.0)).isFinite = true := by
  rw [parts_div, parts_one]
  rcases cases_of_isFinite h with ⟨s, ha⟩ | ⟨s, m, e, hm, ha⟩ <;> rw [ha]
  · rw [div, repack_zero]
    rfl
  · obtain ⟨hbits, hleast, -⟩ := unpack_finite ha
    have hlog : m.log2 < 53 := (Nat.log2_lt (by omega)).mpr hbits
    -- the quotient is the mantissa with zeros behind it, so nothing is left to be rounded
    obtain ⟨t, ht⟩ : ∃ t, min (e - -52) (Format.binary64.targetExponent
        (Float.Model.totalExponent m e - Float.Model.totalExponent (2 ^ 52) (-52))) = t := ⟨_, rfl⟩
    have hte : t ≤ e := by
      have hone : Float.Model.totalExponent (2 ^ 52) (-52) = 1 := by decide
      rw [hone, targetExponent_eq, Float.Model.totalExponent] at ht
      omega
    have hshift : (e - -52 - t).toNat = (e - t).toNat + 52 := by omega
    have hcore : divCore .binary64 m e (2 ^ 52) (-52) = (m <<< (e - t).toNat, t, .exact) := by
      have hmantissa : m <<< ((e - t).toNat + 52) = m <<< (e - t).toNat * 2 ^ 52 := by
        rw [Nat.shiftLeft_add, Nat.shiftLeft_eq _ 52]
      simp only [divCore, ht, hshift, hmantissa, Nat.mul_mod_left, accuracyOfFraction, ↓reduceIte]
      rw [Nat.mul_div_cancel _ (Nat.two_pow_pos 52)]
    have hrange := (inRange_unpack ha).shiftLeft (e - t).toNat
    rw [show e - ((e - t).toNat : Int) = t by omega] at hrange
    rw [div, hcore]
    exact isFinite_repack_round hrange

/-- Only positive infinity reaches positive infinity. -/
theorem posInf_le_iff (a : Float) : (1.0 / 0.0 : Float) ≤ a ↔ parts a = .infinity .positive := by
  rw [le_iff_parts, parts_posInf]
  cases parts a with
  | infinity s => cases s <;> simp [UnpackedFloat.compare, compare]
  | _ => simp [UnpackedFloat.compare]

def miss (a b : Float) : Float := Float.abs (-0.0 + 1.0 * a - b)

theorem parts_miss (a b : Float) : parts (miss a b) = repack (repack (sub .binary64
    (repack (add .binary64 (.zero .negative) (repack (mul .binary64
      (.finite .positive (2 ^ 52) (-52) (by decide)) (parts a))))) (parts b))).abs := by
  rw [miss, parts_abs, parts_sub, parts_add, parts_mul, parts_negZero, parts_one]

theorem isNaN_round (spec : Format) (s : Sign) (m : Nat) (e : Int) (accuracy : Accuracy) :
    (roundWithAccuracy spec s m e accuracy).isNaN = false := by
  rcases round_cases spec s m e accuracy with h | ⟨m', e', h', h⟩ <;> rw [h] <;> rfl

theorem isNaN_normalize (spec : Format) (m : Int) (e : Int) (s : Sign) :
    (UnpackedFloat.normalize spec m e s).isNaN = false := by
  unfold UnpackedFloat.normalize
  split
  · exact isNaN_round ..
  · rfl
  · exact isNaN_round ..

theorem isNaN_sub {x y : UnpackedFloat} (hx : x.isNaN = false) (hy : y.isFinite = true) :
    (sub .binary64 x y).isNaN = false := by
  cases x with
  | notANumber => cases hx
  | infinity s => cases y <;> first | rfl | cases hy
  | zero s =>
    cases y with
    | zero t =>
      rw [sub]
      split <;> rfl
    | finite => rfl
    | _ => cases hy
  | finite s m e hm =>
    cases y with
    | zero t => rfl
    | finite t n f hn => exact isNaN_normalize ..
    | _ => cases hy

theorem isNaN_miss {a b : Float} (ha : (parts a).isFinite = true) (hb : (parts b).isFinite = true) :
    (parts (miss a b)).isNaN = false := by
  have hmul : (mul .binary64 (.finite .positive (2 ^ 52) (-52) (by decide)) (parts a)).isNaN =
      false := by
    rcases cases_of_isFinite ha with ⟨s, ha⟩ | ⟨s, m, e, hm, ha⟩ <;> rw [ha]
    · rfl
    · exact isNaN_round ..
  have hadd (u : UnpackedFloat) (hu : u.isNaN = false) :
      (add .binary64 (.zero .negative) u).isNaN = false := by
    cases u with
    | notANumber => cases hu
    | zero s => cases s <;> rfl
    | _ => rfl
  have habs (u : UnpackedFloat) : u.abs.isNaN = u.isNaN := by cases u <;> rfl
  rw [parts_miss, isNaN_repack, habs, isNaN_repack]
  refine isNaN_sub ?_ hb
  rw [isNaN_repack]
  refine hadd _ ?_
  rw [isNaN_repack, hmul]

/-- What is not finite misses a finite number by infinity, if it is a number. -/
theorem miss_cases {a b : Float} (ha : (parts a).isFinite = false)
    (hb : (parts b).isFinite = true) :
    parts (miss a b) = .notANumber ∨ parts (miss a b) = .infinity .positive := by
  rw [parts_miss]
  cases hparts : parts a with
  | zero | finite =>
    rw [hparts] at ha
    cases ha
  | notANumber =>
    left
    have hmul : mul .binary64 (.finite .positive (2 ^ 52) (-52) (by decide)) .notANumber =
        .notANumber := rfl
    have hadd : add .binary64 (.zero .negative) .notANumber = .notANumber := rfl
    have hsub : sub .binary64 .notANumber (parts b) = .notANumber := rfl
    rw [hmul, repack_notANumber, hadd, repack_notANumber, hsub, repack_notANumber,
      UnpackedFloat.abs, repack_notANumber]
  | infinity s =>
    right
    have hsub (t : Sign) : sub .binary64 (.infinity t) (parts b) = .infinity t := by
      rcases cases_of_isFinite hb with ⟨s, hb⟩ | ⟨s, m, e, hm, hb⟩ <;> rw [hb] <;> rfl
    have hadd (t : Sign) : add .binary64 (.zero .negative) (.infinity t) = .infinity t := rfl
    rw [mul, repack_infinity, hadd, repack_infinity, hsub, repack_infinity, UnpackedFloat.abs,
      repack_infinity]

instance : Scalar.Sizing Float where
  isNaN_of_isFinite {a} h := by
    change (parts a).isNaN = false
    rcases cases_of_isFinite h with ⟨s, ha⟩ | ⟨s, m, e, hm, ha⟩ <;> rw [show parts a = _ from ha] <;>
      rfl
  negInf_le_of_isFinite {a} h := by
    change (-1.0 / 0.0 : Float) ≤ a
    rw [le_iff_parts, parts_negInf]
    rcases cases_of_isFinite h with ⟨s, ha⟩ | ⟨s, m, e, hm, ha⟩ <;> rw [show parts a = _ from ha] <;>
      rfl
  le_posInf_of_isFinite {a} h := by
    change a ≤ (1.0 / 0.0 : Float)
    rw [le_iff_parts, parts_posInf]
    rcases cases_of_isFinite h with ⟨s, ha⟩ | ⟨s, m, e, hm, ha⟩ <;> rw [show parts a = _ from ha]
    · rfl
    · cases s <;> rfl
  isFinite_zero := by
    change (parts 0.0).isFinite = true
    rw [parts_zero]
    rfl
  isFinite_one := by
    change (parts 1.0).isFinite = true
    rw [parts_one]
    rfl
  zero_le_one := by
    change (0.0 : Float) ≤ 1.0
    rw [le_iff_parts, parts_zero, parts_one]
    rfl
  zero_le_ofNat_zero := by
    change (0.0 : Float) ≤ Scalar.ofNat 0
    rw [le_iff_parts, parts_zero, parts_ofNat_zero]
    rfl
  isFinite_div_one := isFinite_div_one
  isFinite_sub_twice ha hpos hp h :=
    isFinite_sub (notNegative_of_le hpos) ha (notNegative_double (notNegative_of_le hp)) h
  deviation_le {a b e} ha hb he := by
    have hnumber := isNaN_miss ha hb
    change miss a b ≤ e
    rw [le_iff_parts, (posInf_le_iff e).mp he]
    cases hparts : parts (miss a b) with
    | notANumber =>
      rw [hparts] at hnumber
      cases hnumber
    | infinity s => cases s <;> rfl
    | zero s => rfl
    | finite s => cases s <;> rfl
  posInf_le_of_deviation {a b e} ha hb h := by
    change miss a b ≤ e at h
    change (1.0 / 0.0 : Float) ≤ e
    rw [le_iff_parts] at h ⊢
    rw [parts_posInf]
    rcases miss_cases ha hb with hmiss | hmiss
    · rw [hmiss] at h
      cases h
    · rwa [hmiss] at h

end Scene.Double
