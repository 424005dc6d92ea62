/-! Numbers of a scene, as a parameter. Everything that calculates is written over `Scalar`, so the
same solver and layout run on doubles and are reasoned about on exact numbers. -/
namespace Scene

/-- Arithmetic and comparison as the solver uses them. The order may be partial: a number that is
not a number compares with nothing. -/
class Scalar (α : Type) extends Add α, Sub α, Mul α, Div α, LT α, LE α, BEq α where
  decLt : (a b : α) → Decidable (a < b)
  decLe : (a b : α) → Decidable (a ≤ b)
  zero : α
  /-- Zero with a minus sign, where the numbers have one. -/
  negZero : α
  one : α
  posInf : α
  negInf : α
  abs : α → α
  isNaN : α → Bool
  isFinite : α → Bool
  /-- All numbers in one line, with `negZero` before `zero`. -/
  compareAll : α → α → Ordering
  /-- It is a line: what stands before something stands before all that follows. -/
  compareAll_trans : Std.TransCmp compareAll
  toRat? : α → Option Rat
  ofRat : Rat → α
  /-- Text without an exponent that reads back. -/
  text : α → String

namespace Scalar
variable {α : Type} [Scalar α]

instance : DecidableLT α := decLt
instance : DecidableLE α := decLe
instance : Inhabited α := ⟨zero⟩
instance : Std.TransCmp (compareAll (α := α)) := compareAll_trans

def ofNat (n : Nat) : α := ofRat n

/-- Forced into `[lo, hi]`; what compares with neither end passes. -/
def clamp (lo hi x : α) : α :=
  let raised := if x < lo then lo else x
  if hi < raised then hi else raised

def nonNegative (x : α) : α := if zero < x then x else zero

/-- Magnitude from which a whole number no longer counts as an integer of plain data. -/
def integerLimit : Nat := 9000000000000000

def integer? (x : α) : Option Int :=
  match toRat? x with
  | some q => if q.den = 1 ∧ q.num.natAbs < integerLimit then some q.num else none
  | none => none

end Scalar
end Scene
