import Scene.Decimal.Numeral
import Scene.Text.Reader

/-! Dates and times of day, each with or without the other: how they are written and read. -/
namespace Scene.Toml
open Decimal Text

structure Date where
  year : Nat
  month : Nat
  day : Nat
  deriving DecidableEq, Repr

structure Time where
  hour : Nat
  minute : Nat
  second : Nat
  nanosecond : Nat
  deriving DecidableEq, Repr

inductive Offset where
  | zulu
  | minutes (n : Int)
  deriving DecidableEq, Repr

structure Moment where
  date : Option Date
  time : Option Time
  offset : Option Offset
  deriving DecidableEq, Repr

def padded (width n : Nat) : String :=
  let ds := toString n
  String.ofList (List.replicate (width - ds.length) '0') ++ ds

def Date.text (d : Date) : String := s!"{padded 4 d.year}-{padded 2 d.month}-{padded 2 d.day}"

def Time.text (t : Time) : String :=
  let whole := s!"{padded 2 t.hour}:{padded 2 t.minute}:{padded 2 t.second}"
  if t.nanosecond = 0 then whole
  else
    let digits := (padded 9 t.nanosecond).toList.reverse.dropWhile (· = '0')
    whole ++ "." ++ String.ofList digits.reverse

def Offset.text : Offset → String
  | .zulu => "Z"
  | .minutes n =>
    let sign := if n < 0 then "-" else "+"
    s!"{sign}{padded 2 (n.natAbs / 60)}:{padded 2 (n.natAbs % 60)}"

def Moment.text (m : Moment) : String :=
  let date := m.date.elim "" Date.text
  let link := if m.date.isSome && m.time.isSome then "T" else ""
  date ++ link ++ m.time.elim "" Time.text ++ m.offset.elim "" Offset.text

/-! Reading. -/

def fixedDigits? : (digits : Nat) → (read : Nat) → Reader Nat
  | 0, n, cs => some (n, cs)
  | digits + 1, n, c :: cs => do fixedDigits? digits (10 * n + (← digit? c)) cs
  | _ + 1, _, [] => none

def pair? (low high : Nat) (cs : Rest) : Option (Nat × Rest) := do
  let (n, cs) ← fixedDigits? 2 0 cs
  if low ≤ n ∧ n ≤ high then some (n, cs) else none

def isLeap (year : Nat) : Bool := year % 4 = 0 && (year % 100 != 0 || year % 400 = 0)

def daysIn (year month : Nat) : Nat :=
  if month = 2 then if isLeap year then 29 else 28
  else if month = 4 ∨ month = 6 ∨ month = 9 ∨ month = 11 then 30
  else 31

def date? (cs : Rest) : Option (Date × Rest) := do
  let (year, cs) ← fixedDigits? 4 0 cs
  let cs ← expect ['-'] cs
  let (month, cs) ← pair? 1 12 cs
  let cs ← expect ['-'] cs
  let (day, cs) ← pair? 1 (daysIn year month) cs
  some (⟨year, month, day⟩, cs)

/-- Parts of a second, cut off after nine digits. -/
def nanosecond : Rest → Nat × Rest
  | '.' :: cs =>
    match takeDigits cs with
    | ([], _) => (0, '.' :: cs)
    | (ds, rest) => (ofDigits (ds.take 9) * Nat.pow 10 (9 - ds.length), rest)
  | cs => (0, cs)

/-- A second may be a leap second. -/
def time? (cs : Rest) : Option (Time × Rest) := do
  let (hour, cs) ← pair? 0 23 cs
  let cs ← expect [':'] cs
  let (minute, cs) ← pair? 0 59 cs
  let cs ← expect [':'] cs
  let (second, cs) ← pair? 0 60 cs
  let (nanosecond, cs) := nanosecond cs
  some (⟨hour, minute, second, nanosecond⟩, cs)

def offset? : Reader Offset
  | [] => none
  | c :: cs =>
    if c = 'Z' ∨ c = 'z' then some (.zulu, cs)
    else if c = '+' ∨ c = '-' then do
      let (hour, cs) ← pair? 0 23 cs
      let cs ← expect [':'] cs
      let (minute, cs) ← pair? 0 59 cs
      let n : Int := hour * 60 + minute
      some (.minutes (if c = '-' then -n else n), cs)
    else none

def optional {β : Type} (r : Reader β) (cs : Rest) : Option β × Rest :=
  match r cs with
  | some (b, rest) => (some b, rest)
  | none => (none, cs)

def timeOfDate? : Reader (Time × Option Offset)
  | [] => none
  | c :: cs =>
    if c = 'T' ∨ c = 't' ∨ c = ' ' then do
      let (time, cs) ← time? cs
      let (offset, cs) := optional offset? cs
      some ((time, offset), cs)
    else none

def moment? (cs : Rest) : Option (Moment × Rest) :=
  match date? cs with
  | some (date, cs) =>
    let (rest, cs) := optional timeOfDate? cs
    some (⟨some date, rest.map Prod.fst, rest.bind Prod.snd⟩, cs)
  | none => (time? cs).map fun (time, cs) => (⟨none, some time, none⟩, cs)

end Scene.Toml
