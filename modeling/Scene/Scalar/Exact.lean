import Scene.Scalar

/-! Exact numbers: the rationals with both infinities, and one value for what has no value. -/
namespace Scene

inductive Exact where
  | nan
  | negInf
  | fin (q : Rat)
  | posInf
  deriving DecidableEq, Repr

namespace Exact

def neg : Exact → Exact
  | .nan => .nan
  | .negInf => .posInf
  | .fin q => .fin (-q)
  | .posInf => .negInf

def add : Exact → Exact → Exact
  | .nan, _ | _, .nan => .nan
  | .fin a, .fin b => .fin (a + b)
  | .posInf, .negInf | .negInf, .posInf => .nan
  | .posInf, _ | _, .posInf => .posInf
  | .negInf, _ | _, .negInf => .negInf

def sub (a b : Exact) : Exact := add a (neg b)

def scaledInf (q : Rat) : Exact := if q = 0 then .nan else if 0 < q then .posInf else .negInf

def mul : Exact → Exact → Exact
  | .nan, _ | _, .nan => .nan
  | .fin a, .fin b => .fin (a * b)
  | .fin a, .posInf | .posInf, .fin a => scaledInf a
  | .fin a, .negInf | .negInf, .fin a => scaledInf (-a)
  | .posInf, .posInf | .negInf, .negInf => .posInf
  | .posInf, .negInf | .negInf, .posInf => .negInf

def div : Exact → Exact → Exact
  | .nan, _ | _, .nan => .nan
  | .fin a, .fin b => if b = 0 then scaledInf a else .fin (a / b)
  | .fin _, _ => .fin 0
  | .posInf, .fin b => if b < 0 then .negInf else .posInf
  | .negInf, .fin b => if b < 0 then .posInf else .negInf
  | _, _ => .nan

def lt : Exact → Exact → Bool
  | .nan, _ | _, .nan => false
  | .fin a, .fin b => decide (a < b)
  | .negInf, .negInf | .posInf, _ => false
  | .negInf, _ | _, .posInf => true
  | _, .negInf => false

def le : Exact → Exact → Bool
  | .nan, _ | _, .nan => false
  | .fin a, .fin b => decide (a ≤ b)
  | .negInf, _ => true
  | _, .posInf => true
  | _, _ => false

def beq (a b : Exact) : Bool := le a b && le b a

def abs : Exact → Exact
  | .nan => .nan
  | .negInf | .posInf => .posInf
  | .fin q => .fin (if q < 0 then -q else q)

def toRat? : Exact → Option Rat
  | .fin q => some q
  | _ => none

def isNaN : Exact → Bool
  | .nan => true
  | _ => false

def compareAll (a b : Exact) : Ordering :=
  if lt a b then .lt else if lt b a then .gt
  else match a, b with
    | .nan, .nan => .eq
    | .nan, _ => .gt
    | _, .nan => .lt
    | _, _ => .eq

theorem compareAll_fin (p q : Rat) :
    compareAll (.fin p) (.fin q) = if p < q then .lt else if q < p then .gt else .eq := by
  simp [compareAll, lt]

theorem compareAll_swap (a b : Exact) : compareAll a b = (compareAll b a).swap := by
  cases a with
  | fin p =>
    cases b with
    | fin q =>
      simp only [compareAll_fin]
      grind [Ordering.swap_lt, Ordering.swap_gt, Ordering.swap_eq]
    | _ => rfl
  | _ => cases b <;> rfl

theorem isLE_compareAll_fin (p q : Rat) : (compareAll (.fin p) (.fin q)).isLE ↔ p ≤ q := by
  rw [compareAll_fin]
  by_cases hpq : p < q
  · simp [hpq, Rat.le_of_lt hpq]
  · by_cases hqp : q < p
    · simp [hpq, hqp, Rat.not_le.mpr hqp]
    · simp [hpq, hqp, Rat.not_lt.mp hqp]

theorem isLE_compareAll_trans {a b c : Exact} (hab : (compareAll a b).isLE)
    (hbc : (compareAll b c).isLE) : (compareAll a c).isLE := by
  cases a <;> cases b <;> cases c <;>
    try first
      | rfl
      | exact absurd hab Bool.false_ne_true
      | exact absurd hbc Bool.false_ne_true
  next p q r =>
    have hpq := (isLE_compareAll_fin p q).mp hab
    have hqr := (isLE_compareAll_fin q r).mp hbc
    exact (isLE_compareAll_fin p r).mpr (Rat.le_trans hpq hqr)

instance : Std.TransCmp compareAll where
  eq_swap := compareAll_swap _ _
  isLE_trans := isLE_compareAll_trans

def text : Exact → String
  | .nan => "NaN"
  | .negInf => "-inf"
  | .posInf => "inf"
  | .fin q => if q.den = 1 then toString q.num else s!"{q.num}/{q.den}"

instance : Scalar Exact where
  add := add
  sub := sub
  mul := mul
  div := div
  lt a b := lt a b = true
  le a b := le a b = true
  beq := beq
  decLt a b := inferInstanceAs (Decidable (lt a b = true))
  decLe a b := inferInstanceAs (Decidable (le a b = true))
  zero := .fin 0
  negZero := .fin 0
  one := .fin 1
  posInf := .posInf
  negInf := .negInf
  abs := abs
  isNaN := isNaN
  isFinite x := x.toRat?.isSome
  compareAll := compareAll
  compareAll_trans := inferInstance
  toRat? := toRat?
  ofRat := .fin
  text := text

end Exact
end Scene
