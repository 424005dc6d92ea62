import Scene.Decimal.Shortest

/-! Doubles from decimal numerals: once rounded correctly, once through a 64-bit significand. -/
namespace Scene.Decimal

def digit? (c : Char) : Option Nat := if '0' ≤ c ∧ c ≤ '9' then some (c.toNat - 48) else none

def takeDigits : List Char → List Nat × List Char
  | [] => ([], [])
  | c :: rest =>
    match digit? c with
    | some d => let (ds, r) := takeDigits rest; (d :: ds, r)
    | none => ([], c :: rest)

def ofDigits (ds : List Nat) : Nat := ds.foldl (fun n d => 10 * n + d) 0

/-- The double nearest to `n · 10 ^ e`. Beyond four hundred places all is infinite or zero. -/
def nearest (negative : Bool) (n : Nat) (e : Int) : Float :=
  if n = 0 ∨ e + length n < -400 then nearestFloat negative 0 1
  else if 400 < e + length n then nearestFloat negative (Nat.pow 10 400) 1
  else let (p, q) := scaleTen n e; nearestFloat negative p q

/-! Reading through a significand: digits are gathered while they fit into 64 bits, and the double
of what was gathered is multiplied or divided by a power of ten, which rounds a second time. -/

def wordLimit : Nat := Nat.pow 2 64
def exponentLimit : Nat := Nat.pow 2 31

def powerOfTen (k : Nat) : Float := nearestFloat false (Nat.pow 10 k) 1

/-- Division by a power of ten beyond the format's range, 308 places at a time. -/
def divideFar : Nat → Float → Nat → Float
  | 0, f, _ => f
  | fuel + 1, f, k =>
    if k ≤ 308 then f / powerOfTen k
    else if f == 0.0 then f
    else divideFar fuel (f / powerOfTen 308) (k - 308)

def scaled? (n : Nat) (e : Int) : Option Float :=
  let f := nearestFloat false n 1
  match e with
  | .ofNat k =>
    if k ≤ 308 then
      let r := f * powerOfTen k
      if r.isInf then none else some r
    else if n = 0 then some f else none
  | .negSucc k => some (divideFar (k + 2) f (k + 1))

/-- Fraction digits that still fit, and how many they are; later ones are dropped. -/
def gatherFraction : Nat → List Nat → Nat × Nat
  | n, [] => (n, 0)
  | n, d :: ds =>
    if 10 * n + d < wordLimit then let (m, k) := gatherFraction (10 * n + d) ds; (m, k + 1)
    else (n, 0)

/-- Integer digits that still fit, and how many are left over; each of these counts as a factor
ten. -/
def gatherInteger : Nat → List Nat → Nat × Nat
  | n, [] => (n, 0)
  | n, d :: ds =>
    if 10 * n + d < wordLimit then gatherInteger (10 * n + d) ds else (n, ds.length + 1)

def throughWord? (integer fraction : List Nat) (exponentNegative : Bool) (exponent : List Nat) :
    Option Float :=
  let (n, spare) := gatherInteger 0 integer
  let (m, places) := gatherFraction n fraction
  let start : Int := (spare : Int) - places
  let e := ofDigits exponent
  if exponentLimit ≤ e then
    if m ≠ 0 && !exponentNegative then none else some 0.0
  else
    let total := if exponentNegative then start - e else start + e
    scaled? m (max (-(exponentLimit : Int)) (min (exponentLimit - 1) total))

end Scene.Decimal
