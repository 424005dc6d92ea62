import Scene.Decimal.Binary

/-! The shortest decimal that reads back as a given double. Grids of 1, 2, … 17 digits are tried in
turn; on each, only the two neighbours of the value can be nearest. -/
namespace Scene.Decimal

/-- A positive number `digits · 10 ^ exponent`. -/
structure Digits where
  digits : Nat
  exponent : Int
  deriving DecidableEq, Repr

inductive Tie where
  | up
  | even
  deriving DecidableEq, Repr

def length (n : Nat) : Nat := n.repr.length

def scaleTen (n : Nat) (e : Int) : Nat × Nat :=
  match e with
  | .ofNat k => (n * Nat.pow 10 k, 1)
  | .negSucc k => (n, Nat.pow 10 (k + 1))

def magnitude (n d : Nat) : Int :=
  if d ≤ n then (length (n / d) : Int) - 1
  else
    let j := length (d / n) - 1
    if n * Nat.pow 10 j = d then -(j : Int) else -(j : Int) - 1

namespace Binary

def owns (b : Binary) (c : Nat) (k : Int) : Bool :=
  let (n, d) := scaleTen c k
  let (p, q) := scale 1 b.exponent
  -- compare n / d with quarters of p / q
  let x := 4 * n * q
  let lo := b.low * p * d
  let hi := b.high * p * d
  if b.ownsEnds then lo ≤ x && x ≤ hi else lo < x && x < hi

/-- The neighbours of `b` on the grid of multiples of `10 ^ k`: the lower one, and whether the value
is nearer to it (`lt`), to the upper one (`gt`) or halfway. -/
def neighbour (b : Binary) (k : Int) : Nat × Ordering :=
  let (n, d) := scale b.mantissa b.exponent
  let (s, t) := scaleTen 1 k
  let num := n * t
  let den := d * s
  (num / den, compare (2 * (num % den)) den)

def onGrid? (b : Binary) (tie : Tie) (k : Int) : Option Nat :=
  let (c, near) := b.neighbour k
  match b.owns c k, b.owns (c + 1) k with
  | true, true =>
    match near with
    | .lt => some c
    | .gt => some (c + 1)
    | .eq => match tie with
      | .up => some (c + 1)
      | .even => if c % 2 = 0 then some c else some (c + 1)
  | true, false => some c
  | false, true => some (c + 1)
  | false, false => none

end Binary

def Digits.strip : Nat → Digits → Digits
  | 0, d => d
  | fuel + 1, d => if d.digits % 10 = 0 then strip fuel ⟨d.digits / 10, d.exponent + 1⟩ else d

/-- The digits of the shortest decimal that rounds to a positive `b`; seventeen always suffice. -/
def Binary.shortest (tie : Tie) (b : Binary) : Digits :=
  let (n, d) := scale b.mantissa b.exponent
  let top := magnitude n d
  let hit := (List.range 17).findSome? fun (i : Nat) =>
    let k := top - (i : Int)
    (b.onGrid? tie k).map fun c => (⟨c, k⟩ : Digits)
  match hit with
  | some c => c.strip 18
  | none => ⟨n / d, 0⟩

end Scene.Decimal
