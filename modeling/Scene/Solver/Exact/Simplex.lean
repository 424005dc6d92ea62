import Scene.Solver.Exact.Problem

/-! The simplex method on rational numbers. Every relation is written with two amounts, how far its
sum falls short and how far it goes over; both are at least zero, and the ones that count as a
violation have a price. Prices are pairs, so that hard relations come before all soft ones. -/
namespace Scene.Solver.Exact

/-- A price: for breaking hard relations first, for soft ones second. -/
structure Price where
  hard : Rat
  soft : Rat
  deriving DecidableEq, Repr

namespace Price

def zero : Price := ⟨0, 0⟩
def isNegative (p : Price) : Bool := p.hard < 0 || (p.hard = 0 && p.soft < 0)
def scaleSub (p : Price) (k : Rat) (q : Price) : Price := ⟨p.hard - k * q.hard, p.soft - k * q.soft⟩

end Price

/-- `coefficients · columns = rhs`, solved for the basic column. -/
structure Row where
  basic : Nat
  coefficients : List Rat
  rhs : Rat

structure Tableau where
  rows : List Row
  prices : List Price

def subScaled (a : List Rat) (k : Rat) (b : List Rat) : List Rat :=
  if k = 0 then a else List.zipWith (fun x y => if y = 0 then x else x - k * y) a b

def subPrices (a : List Price) (k : Price) (b : List Rat) : List Price :=
  List.zipWith (fun p y => if y = 0 then p else p.scaleSub y k) a b

def Row.at (r : Row) (column : Nat) : Rat := r.coefficients[column]?.getD 0

def Row.enter (r : Row) (column : Nat) : Row :=
  let k := r.at column
  ⟨column, r.coefficients.map (· / k), r.rhs / k⟩

def Tableau.pivot (t : Tableau) (leaving : Nat) (column : Nat) : Tableau :=
  match t.rows.find? (·.basic = leaving) with
  | none => t
  | some r =>
    let r := r.enter column
    let rows := t.rows.map fun q =>
      if q.basic = leaving then r
      else
        let k := q.at column
        ⟨q.basic, subScaled q.coefficients k r.coefficients, q.rhs - k * r.rhs⟩
    ⟨rows, subPrices t.prices (t.prices[column]?.getD .zero) r.coefficients⟩

def Tableau.entering? (t : Tableau) : Option Nat := t.prices.findIdx? (·.isNegative)

/-- The row that stops the entering column first; of several, the one with the first basic
column. -/
def Tableau.leaving? (t : Tableau) (column : Nat) : Option Nat :=
  let best := t.rows.foldl (fun (best : Option (Rat × Nat)) r =>
    let k := r.at column
    if k ≤ 0 then best
    else
      let ratio := r.rhs / k
      match best with
      | none => some (ratio, r.basic)
      | some (q, b) =>
        if ratio < q || (ratio = q && r.basic < b) then some (ratio, r.basic) else best) none
  best.map (·.2)

/-- Pivots while a column lowers the price. Taking the first column and the first row never
returns to an earlier basis, so there are at most as many steps as bases. -/
def Tableau.run : Nat → Tableau → Tableau
  | 0, t => t
  | fuel + 1, t =>
    match t.entering? with
    | none => t
    | some column =>
      match t.leaving? column with
      | none => t
      | some leaving => run fuel (t.pivot leaving column)

/-- Prices of falling short of a relation and of going over it. -/
def amounts (sign : Sign) (price : Price) : Price × Price :=
  match sign with
  | .exactly => (price, price)
  | .atMost => (.zero, price)
  | .atLeast => (price, .zero)

def coefficient (terms : List (Nat × Rat)) (i : Nat) : Rat :=
  terms.foldl (fun s t => if t.1 = i then s + t.2 else s) 0

/-- The tableau of relations over `n` variables. Each variable is the difference of two columns, and
relation `j` has the columns `2n + 2j` (short) and `2n + 2j + 1` (long). -/
def tableau (n : Nat) (relations : List (Relation × Price)) : Tableau :=
  let width := 2 * n + 2 * relations.length
  let rows := relations.zipIdx.map fun ((r, _), j) =>
    let flip : Rat := if r.constant < 0 then -1 else 1
    let cell (c : Nat) : Rat :=
      if c < 2 * n then
        let k := coefficient r.terms (c / 2)
        if c % 2 = 0 then flip * k else -flip * k
      else if c = 2 * n + 2 * j then flip
      else if c = 2 * n + 2 * j + 1 then -flip
      else 0
    { basic := if r.constant < 0 then 2 * n + 2 * j + 1 else 2 * n + 2 * j
      coefficients := (List.range width).map cell
      rhs := flip * r.constant : Row }
  let prices := List.replicate (2 * n) Price.zero ++ relations.flatMap fun (r, p) =>
    let (short, long) := amounts r.sign p
    [short, long]
  -- the prices of the basic columns are carried over to the others
  let reduced := rows.foldl (fun ps (r : Row) =>
    subPrices ps (prices[r.basic]?.getD .zero) r.coefficients) prices
  ⟨rows, reduced⟩

def Tableau.value (t : Tableau) (column : Nat) : Rat :=
  match t.rows.find? (·.basic = column) with
  | some r => r.rhs
  | none => 0

def minimise (n : Nat) (relations : List (Relation × Price)) : List Rat :=
  let t := tableau n relations
  let t := t.run (Nat.pow 2 (2 * n + 2 * relations.length))
  (List.range n).map fun i => t.value (2 * i) - t.value (2 * i + 1)

end Scene.Solver.Exact
