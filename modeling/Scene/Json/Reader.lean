import Scene.Json
import Scene.Decimal.Numeral
import Scene.Text.Reader

/-! Reading plain data from text. Nested containers are read within a fixed room, so reading is
structural on the room that is left; loops over members count down the characters at hand. -/
namespace Scene.Json
open Decimal Text

def nestingLimit : Nat := 127

def isBlank (c : Char) : Bool := c = ' ' || c = '\t' || c = '\n' || c = '\r'

def skipBlanks (cs : Rest) : Rest := cs.dropWhile isBlank

def unicodeEscape? (cs : Rest) : Option (Char × Rest) := do
  let (u, cs) ← hexNumber? 4 0 cs
  if 0xDC00 ≤ u ∧ u ≤ 0xDFFF then none
  else if 0xD800 ≤ u ∧ u ≤ 0xDBFF then
    let cs ← expect ['\\', 'u'] cs
    let (v, cs) ← hexNumber? 4 0 cs
    if 0xDC00 ≤ v ∧ v ≤ 0xDFFF then
      some (Char.ofNat (0x10000 + (u - 0xD800) * 0x400 + (v - 0xDC00)), cs)
    else none
  else some (Char.ofNat u, cs)

def letterEscape? (c : Char) : Option Char :=
  if c = '"' ∨ c = '\\' ∨ c = '/' then some c
  else if c = 'b' then some (Char.ofNat 8)
  else if c = 'f' then some (Char.ofNat 12)
  else if c = 'n' then some '\n'
  else if c = 'r' then some '\r'
  else if c = 't' then some '\t'
  else none

def stringTail? : Nat → Reader (List Char)
  | 0, _ => none
  | fuel + 1, cs =>
    match cs with
    | [] => none
    | '"' :: rest => some ([], rest)
    | '\\' :: 'u' :: rest => do
      let (c, rest) ← unicodeEscape? rest
      let (s, rest) ← stringTail? fuel rest
      some (c :: s, rest)
    | '\\' :: e :: rest => do
      let c ← letterEscape? e
      let (s, rest) ← stringTail? fuel rest
      some (c :: s, rest)
    | c :: rest =>
      if c = '\\' ∨ c.toNat < 32 then none
      else do
        let (s, rest) ← stringTail? fuel rest
        some (c :: s, rest)

def quoted? : Reader String
  | '"' :: cs => (stringTail? (cs.length + 1) cs).map fun (s, rest) => (String.ofList s, rest)
  | _ => none

def integerDigits? (cs : Rest) : Option (List Nat × Rest) :=
  match takeDigits cs with
  | ([], _) => none
  | (0 :: _ :: _, _) => none
  | (ds, rest) => some (ds, rest)

def fraction? : Reader (Option (List Nat))
  | '.' :: cs =>
    match takeDigits cs with
    | ([], _) => none
    | (ds, rest) => some (some ds, rest)
  | cs => some (none, cs)

def exponentSign : Rest → Bool × Rest
  | '+' :: cs => (false, cs)
  | '-' :: cs => (true, cs)
  | cs => (false, cs)

def exponent? : Reader (Option (Bool × List Nat))
  | c :: cs =>
    if c = 'e' ∨ c = 'E' then
      let (negative, cs) := exponentSign cs
      match takeDigits cs with
      | ([], _) => none
      | (ds, rest) => some (some (negative, ds), rest)
    else some (none, c :: cs)
  | [] => some (none, [])

/-- A whole number of 64 bits stays an integer, unless it is a negative zero. -/
def wholeOrDouble? (negative : Bool) (ds : List Nat) : Option (Json Float) :=
  let n := ofDigits ds
  let limit := if negative then Nat.pow 2 63 + 1 else wordLimit
  if n < limit ∧ ¬(negative ∧ n = 0) then some (.integer (if negative then -(n : Int) else n))
  else (throughWord? ds [] false []).map fun x => .number (if negative then -x else x)

def numeral? (negative : Bool) (cs : Rest) : Option (Json Float × Rest) := do
  let (ds, cs) ← integerDigits? cs
  let (frac, cs) ← fraction? cs
  let (expo, cs) ← exponent? cs
  match frac, expo with
  | none, none => (wholeOrDouble? negative ds).map (·, cs)
  | _, _ =>
    let (en, es) := expo.getD (false, [])
    let x ← throughWord? ds (frac.getD []) en es
    some (.number (if negative then -x else x), cs)

def number? : Reader (Json Float)
  | '-' :: cs => numeral? true cs
  | cs => numeral? false cs

def members? {β : Type} (close : Char) (member : Reader β) : Nat → Reader (List β)
  | 0, _ => none
  | fuel + 1, cs => do
    let (m, cs) ← member (skipBlanks cs)
    match skipBlanks cs with
    | c :: rest =>
      if c = ',' then
        let (ms, rest) ← members? close member fuel rest
        some (m :: ms, rest)
      else if c = close then some ([m], rest)
      else none
    | [] => none

def container? {β : Type} (close : Char) (member : Reader β) (cs : Rest) :
    Option (List β × Rest) :=
  match skipBlanks cs with
  | c :: rest => if c = close then some ([], rest) else members? close member (cs.length + 1) cs
  | [] => none

def field? {β : Type} (value : Reader β) (cs : Rest) : Option ((String × β) × Rest) := do
  let (key, cs) ← quoted? cs
  let cs ← expect [':'] (skipBlanks cs)
  let (v, cs) ← value cs
  some ((key, v), cs)

def value? : (room : Nat) → Reader (Json Float)
  | room, cs =>
    match skipBlanks cs with
    | [] => none
    | '"' :: rest => (quoted? ('"' :: rest)).map fun (s, r) => (.string s, r)
    | 'n' :: rest => (expect ['u', 'l', 'l'] rest).map (.null, ·)
    | 't' :: rest => (expect ['r', 'u', 'e'] rest).map (.bool true, ·)
    | 'f' :: rest => (expect ['a', 'l', 's', 'e'] rest).map (.bool false, ·)
    | '[' :: rest =>
      match room with
      | 0 => none
      | inner + 1 => (container? ']' (value? inner) rest).map fun (items, r) => (.array items, r)
    | '{' :: rest =>
      match room with
      | 0 => none
      | inner + 1 => (container? '}' (field? (value? inner)) rest).map
          fun (fields, r) => (.object (Dict.ofList fields), r)
    | c :: rest => number? (c :: rest)

/-- The one value a text holds, with nothing but blanks around it. Of several fields with one key
the last counts. -/
def read? (source : String) : Option (Json Float) := do
  let (v, rest) ← value? nestingLimit source.toList
  if skipBlanks rest = [] then some v else none

end Scene.Json
