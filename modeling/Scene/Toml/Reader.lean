import Scene.Toml.Table
import Scene.Toml.Quoted
import Scene.Scalar.Double

/-! Reading a TOML document: a line is a header, a pair, or empty but for a comment. Values nest
within a fixed room. -/
namespace Scene.Toml
open Decimal Text

/-- Arrays and tables between brackets and braces may nest this deep, and a dotted key may have so
many parts. -/
def nestingLimit : Nat := 79

def skipBlanks (cs : Rest) : Rest := cs.dropWhile isBlank

/-! Numbers. -/

/-- Digits after a first one; an underscore may stand between two. -/
def moreDigits (value? : Char → Option Nat) : Rest → List Nat × Rest
  | [] => ([], [])
  | [c] =>
    match value? c with
    | some d => ([d], [])
    | none => ([], [c])
  | c :: next :: cs =>
    match value? c with
    | some d =>
      let (ds, rest) := moreDigits value? (next :: cs)
      (d :: ds, rest)
    | none =>
      match value? next with
      | some d =>
        if c = '_' then
          let (ds, rest) := moreDigits value? cs
          (d :: ds, rest)
        else ([], c :: next :: cs)
      | none => ([], c :: next :: cs)

def digits? (value? : Char → Option Nat) : Reader (List Nat)
  | [] => none
  | c :: cs => do
    let d ← value? c
    let (ds, rest) := moreDigits value? cs
    some (d :: ds, rest)

def sign : Rest → Option Bool × Rest
  | '+' :: cs => (some false, cs)
  | '-' :: cs => (some true, cs)
  | cs => (none, cs)

def whole? : Reader (List Nat)
  | '0' :: cs => some ([0], cs)
  | cs => digits? digit? cs

def fraction? : Reader (List Nat)
  | '.' :: cs => digits? digit? cs
  | _ => none

def exponent? : Reader Int
  | [] => none
  | c :: cs =>
    if c = 'e' ∨ c = 'E' then do
      let (s, cs) := sign cs
      let (ds, cs) ← digits? digit? cs
      let n : Int := ofDigits ds
      some (if s = some true then -n else n, cs)
    else none

def float? (cs : Rest) : Option (Float × Rest) := do
  let (s, cs) := sign cs
  let negative := s = some true
  let (ds, cs) ← whole? cs
  let (frac, cs) := optional fraction? cs
  let (expo, cs) := optional exponent? cs
  if frac.isNone && expo.isNone then none
  let places := frac.getD []
  let x := nearest negative (ofDigits (ds ++ places)) (expo.getD 0 - places.length)
  if x.isInf && !negative then none else some (x, cs)

def specialFloat? (cs : Rest) : Option (Float × Rest) :=
  let (s, cs) := sign cs
  match expect ['i', 'n', 'f'] cs with
  | some rest => some (if s = some true then Scalar.negInf else Scalar.posInf, rest)
  | none => (expect ['n', 'a', 'n'] cs).map ((0.0 / 0.0 : Float), ·)

def inRange? (n : Int) : Option Int :=
  if -(Nat.pow 2 63 : Int) ≤ n ∧ n < (Nat.pow 2 63 : Int) then some n else none

def ofBase? (base : Nat) (cs : Rest) : Option (Int × Rest) := do
  let value? (c : Char) : Option Nat := (hexValue? c).filter (· < base)
  let (ds, cs) ← digits? value? cs
  some (← inRange? (ds.foldl (fun n d => base * n + d) 0 : Nat), cs)

def integer? : Reader Int
  | '0' :: 'x' :: cs => ofBase? 16 cs
  | '0' :: 'o' :: cs => ofBase? 8 cs
  | '0' :: 'b' :: cs => ofBase? 2 cs
  | cs => do
    let (s, cs) := sign cs
    let (ds, cs) ← whole? cs
    let n : Int := ofDigits ds
    some (← inRange? (if s = some true then -n else n), cs)

def number? (cs : Rest) : Option (Toml × Rest) :=
  ((moment? cs).map fun (m, r) => (.moment m, r))
    <|> ((float? cs).map fun (x, r) => (.float x, r))
    <|> ((specialFloat? cs).map fun (x, r) => (.float x, r))
    <|> ((integer? cs).map fun (n, r) => (.integer n, r))

/-! Keys. -/

def isBare (c : Char) : Bool := c.isAlphanum || c = '_' || c = '-'

def key? (cs : Rest) : Option (String × Rest) :=
  match singleLine? cs with
  | some found => some found
  | none =>
    let name := cs.takeWhile isBare
    if name = [] then none else some (String.ofList name, cs.dropWhile isBare)

def keys? : Nat → Reader (List String)
  | 0, _ => none
  | limit + 1, cs => do
    let (k, cs) ← key? (skipBlanks cs)
    match skipBlanks cs with
    | '.' :: rest => do
      let (ks, rest) ← keys? limit rest
      some (k :: ks, rest)
    | rest => some ([k], rest)

/-! Values. -/

def pairOf? (value : Reader Toml) (cs : Rest) : Option ((List String × Toml) × Rest) := do
  let (ks, cs) ← keys? nestingLimit cs
  let cs ← expect ['='] cs
  let (v, cs) ← value (skipBlanks cs)
  some ((ks, v), cs)

def skipFill? : (comment : Bool) → Rest → Option Rest
  | _, '\n' :: cs => skipFill? false cs
  | _, '\r' :: '\n' :: cs => skipFill? false cs
  | true, c :: cs => if isPrintable c then skipFill? true cs else none
  | true, [] => none
  | false, '#' :: cs => skipFill? true cs
  | false, c :: cs => if isBlank c then skipFill? false cs else some (c :: cs)
  | false, [] => some []

def items? (value : Reader Toml) : Nat → Reader (List Toml)
  | 0, _ => none
  | fuel + 1, cs => do
    match ← skipFill? false cs with
    | ']' :: rest => some ([], rest)
    | cs => do
      let (v, cs) ← value cs
      match ← skipFill? false cs with
      | ',' :: rest => do
        let (vs, rest) ← items? value fuel rest
        some (v :: vs, rest)
      | ']' :: rest => some ([v], rest)
      | _ => none

/-- Pairs up to the closing brace; no comma follows the last. -/
def pairs? (value : Reader Toml) : Nat → Reader (List (List String × Toml))
  | 0, _ => none
  | fuel + 1, cs => do
    let (p, cs) ← pairOf? value cs
    match skipBlanks cs with
    | ',' :: rest => do
      let (ps, rest) ← pairs? value fuel rest
      some (p :: ps, rest)
    | '}' :: rest => some ([p], rest)
    | _ => none

def braced? (value : Reader Toml) (cs : Rest) : Option (Toml × Rest) :=
  match skipBlanks cs with
  | '}' :: rest => some (.table [], rest)
  | _ => do
    let (ps, rest) ← pairs? value (cs.length + 1) cs
    some (← inlineTable? ps, rest)

def value? : (room : Nat) → Reader Toml
  | room, cs =>
    match cs with
    | '[' :: rest =>
      match room with
      | 0 => none
      | inner + 1 => (items? (value? inner) (rest.length + 1) rest).map
          fun (vs, r) => (.array vs, r)
    | '{' :: rest =>
      match room with
      | 0 => none
      | inner + 1 => braced? (value? inner) rest
    | 't' :: rest => (expect ['r', 'u', 'e'] rest).map (.bool true, ·)
    | 'f' :: rest => (expect ['a', 'l', 's', 'e'] rest).map (.bool false, ·)
    | cs =>
      match quoted? cs with
      | some (s, rest) => some (.string s, rest)
      | none => number? cs

/-! Lines. -/

def lineEnd? : (comment : Bool) → Rest → Option Rest
  | _, [] => some []
  | _, '\n' :: cs => some cs
  | _, '\r' :: '\n' :: cs => some cs
  | true, c :: cs => if isPrintable c then lineEnd? true cs else none
  | false, '#' :: cs => lineEnd? true cs
  | false, c :: cs => if isBlank c then lineEnd? false cs else none

def header? (closing : List Char) (cs : Rest) : Option (List String × Rest) := do
  let (ks, cs) ← keys? nestingLimit cs
  some (ks, ← expect closing cs)

def statement? : Reader (Option Statement)
  | '[' :: '[' :: cs => (header? [']', ']'] cs).map fun (ks, r) => (some (.item ks), r)
  | '[' :: cs => (header? [']'] cs).map fun (ks, r) => (some (.table ks), r)
  | cs =>
    match lineEnd? false cs with
    | some _ => some (none, cs)
    | none => (pairOf? (value? nestingLimit) cs).map fun ((ks, v), r) => (some (.pair ks v), r)

def statements? : Nat → Rest → Option (List Statement)
  | 0, _ => none
  | fuel + 1, cs =>
    match skipBlanks cs with
    | [] => some []
    | cs => do
      let (s, cs) ← statement? cs
      let cs ← lineEnd? false cs
      some (s.toList ++ (← statements? fuel cs))

def skipMark : Rest → Rest
  | c :: cs => if c = Char.ofNat 0xFEFF then cs else c :: cs
  | [] => []

def read? (source : String) : Option Toml := do
  let cs := skipMark source.toList
  some (.table (← assemble? (← statements? (cs.length + 1) cs)))

end Scene.Toml
