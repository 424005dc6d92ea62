/-! Doubles taken apart. A finite double is `mantissa · 2 ^ exponent`; the rationals that round to
it are those between the midpoints to its two neighbours. -/
namespace Scene.Decimal

structure Binary where
  mantissa : Nat
  exponent : Int
  deriving DecidableEq, Repr

def fractionBits : Nat := 52
def topExponent : Nat := 2047

def bitSign (bits : UInt64) : Bool := bits.toNat / Nat.pow 2 63 = 1
def bitExponent (bits : UInt64) : Nat := bits.toNat / Nat.pow 2 fractionBits % Nat.pow 2 11
def bitFraction (bits : UInt64) : Nat := bits.toNat % Nat.pow 2 fractionBits

def Binary.ofFloat? (x : Float) : Option Binary :=
  let bits := x.toBits
  let e := bitExponent bits
  let f := bitFraction bits
  if e = topExponent then none
  else if e = 0 then some ⟨f, -1074⟩
  else some ⟨Nat.pow 2 fractionBits + f, (e : Int) - 1075⟩

namespace Binary

def scale (n : Nat) (e : Int) : Nat × Nat :=
  match e with
  | .ofNat k => (n * Nat.pow 2 k, 1)
  | .negSucc k => (n, Nat.pow 2 (k + 1))

def toRat (b : Binary) : Rat :=
  let (n, d) := scale b.mantissa b.exponent
  mkRat n d

/-- The lower neighbour of a power of two is half as far away as the upper one. -/
def lowIsClose (b : Binary) : Bool := b.mantissa = Nat.pow 2 fractionBits && b.exponent > -1074

/-- The ends of the rounding interval and the value, in quarters of a unit of the last place. -/
def low (b : Binary) : Nat := if b.lowIsClose then 4 * b.mantissa - 1 else 4 * b.mantissa - 2
def high (b : Binary) : Nat := 4 * b.mantissa + 2

/-- A tie goes to the even mantissa, so an even one owns both ends of its interval. -/
def ownsEnds (b : Binary) : Bool := b.mantissa % 2 = 0

end Binary

def roundEven (n d : Nat) : Nat :=
  let q := n / d
  let r := n % d
  if 2 * r < d then q else if d < 2 * r then q + 1 else if q % 2 = 0 then q else q + 1

/-- Exponent at which `n / d` has 53 binary digits before the point, but never below the least
one. -/
def exponentOf (n d : Nat) : Int :=
  let guess : Int := (n.log2 : Int) - d.log2 - 53
  let fits (e : Int) : Bool :=
    match e with
    | .ofNat k => n < d * Nat.pow 2 k * Nat.pow 2 53
    | .negSucc k => n * Nat.pow 2 (k + 1) < d * Nat.pow 2 53
  let e := if fits guess then guess else if fits (guess + 1) then guess + 1 else guess + 2
  max e (-1074)

def nearestBits (n d : Nat) : Nat :=
  if n = 0 then 0 else
  let e := exponentOf n d
  let m := match e with
    | .ofNat k => roundEven n (d * Nat.pow 2 k)
    | .negSucc k => roundEven (n * Nat.pow 2 (k + 1)) d
  -- a mantissa of 2 ^ 53 carries into the exponent field by itself
  if m < Nat.pow 2 fractionBits then m
  else
    let bits := (e + 1074).toNat * Nat.pow 2 fractionBits + m
    min bits (topExponent * Nat.pow 2 fractionBits)

def nearestFloat (negative : Bool) (n d : Nat) : Float :=
  Float.ofBits ((nearestBits n d + if negative then Nat.pow 2 63 else 0).toUInt64)

def floatOfRat (q : Rat) : Float := nearestFloat (q.num < 0) q.num.natAbs q.den

end Scene.Decimal
