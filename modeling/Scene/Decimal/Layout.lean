import Scene.Decimal.Shortest

/-! Written forms of a double: one algorithm for the digits, one record for how a format lays them
out. -/
namespace Scene.Decimal

structure Layout where
  tie : Tie
  /-- Least and greatest position of the first digit that is written without an exponent; `none`
  writes every number so. -/
  positional : Option (Int × Int)
  /-- Whether a whole number keeps `.0`. -/
  keepsPoint : Bool
  /-- Texts for what has no digits; `none` leaves the format without one. -/
  nan : String
  posInf : String
  negInf : String

def zeros (n : Nat) : String := "".pushn '0' n

namespace Layout

def plain (l : Layout) (d : Digits) : String :=
  let s := d.digits.repr
  let len : Int := s.length
  let point := len + d.exponent
  if 0 ≤ d.exponent then
    s ++ zeros d.exponent.toNat ++ (if l.keepsPoint then ".0" else "")
  else if 0 < point then
    String.ofList (s.toList.take point.toNat) ++ "." ++ String.ofList (s.toList.drop point.toNat)
  else
    "0." ++ zeros (-point).toNat ++ s

def scientific (d : Digits) : String :=
  let s := d.digits.repr.toList
  let e := (s.length : Int) - 1 + d.exponent
  let body := match s with
    | c :: [] => String.singleton c
    | c :: rest => String.singleton c ++ "." ++ String.ofList rest
    | [] => ""
  body ++ (if e < 0 then "e-" else "e+") ++ e.natAbs.repr

def magnitudeText (l : Layout) (b : Binary) : String :=
  if b.mantissa = 0 then (if l.keepsPoint then "0.0" else "0")
  else
    let d := b.shortest l.tie
    let first := (length d.digits : Int) - 1 + d.exponent
    match l.positional with
    | none => l.plain d
    | some (lo, hi) => if lo ≤ first && first ≤ hi then l.plain d else scientific d

def write (l : Layout) (x : Float) : String :=
  let negative := bitSign x.toBits
  match Binary.ofFloat? x with
  | some b => (if negative then "-" else "") ++ l.magnitudeText b
  | none =>
    if bitFraction x.toBits ≠ 0 then l.nan else if negative then l.negInf else l.posInf

/-- Texts of attributes and messages: never an exponent, no `.0`, a tie between two decimals goes
up. -/
def display : Layout := ⟨.up, none, false, "NaN", "inf", "-inf"⟩

/-- Recordings: exponents from 16 up and from -6 down, `.0` kept, a tie goes to the even digit;
what is not finite is `null`. -/
def recording : Layout := ⟨.even, some (-5, 15), true, "null", "null", "null"⟩

end Layout
end Scene.Decimal
