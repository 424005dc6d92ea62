import Scene.Text.Reader

/-! Quoted texts of TOML: with escapes between quotation marks, as they stand between apostrophes,
and each over several lines between three of its marks. -/
namespace Scene.Toml
open Text

def isPrintable (c : Char) : Bool := c = '\t' || (0x20 ≤ c.toNat && c.toNat ≠ 0x7F)

def isBlank (c : Char) : Bool := c = ' ' || c = '\t'

def scalar? (n : Nat) : Option Char := if n.isValidChar then some (Char.ofNat n) else none

def escape? : Reader Char
  | [] => none
  | c :: cs =>
    if c = 'b' then some (Char.ofNat 8, cs)
    else if c = 't' then some ('\t', cs)
    else if c = 'n' then some ('\n', cs)
    else if c = 'f' then some (Char.ofNat 12, cs)
    else if c = 'r' then some ('\r', cs)
    else if c = '"' ∨ c = '\\' then some (c, cs)
    else if c = 'u' then do
      let (n, cs) ← hexNumber? 4 0 cs
      some (← scalar? n, cs)
    else if c = 'U' then do
      let (n, cs) ← hexNumber? 8 0 cs
      some (← scalar? n, cs)
    else none

def basicTail? : Nat → Reader (List Char)
  | 0, _ => none
  | fuel + 1, cs =>
    match cs with
    | [] => none
    | '"' :: rest => some ([], rest)
    | '\\' :: rest => do
      let (c, rest) ← escape? rest
      let (s, rest) ← basicTail? fuel rest
      some (c :: s, rest)
    | c :: rest => do
      if !isPrintable c then none
      let (s, rest) ← basicTail? fuel rest
      some (c :: s, rest)

def literalTail? : Reader (List Char)
  | [] => none
  | c :: rest =>
    if c = Char.ofNat 39 then some ([], rest)
    else if isPrintable c then (literalTail? rest).map fun (s, rest) => (c :: s, rest)
    else none

def newline? : Rest → Option Rest
  | '\n' :: rest => some rest
  | '\r' :: '\n' :: rest => some rest
  | _ => none

/-- A line break that directly follows the opening marks does not count. -/
def skipNewline (cs : Rest) : Rest := (newline? cs).getD cs

/-- What follows a backslash at the end of a line: white space up to the next thing that is none. -/
def lineContinuation? (cs : Rest) : Option Rest := do
  let rest ← newline? (cs.dropWhile isBlank)
  some (skipGap rest)
where
  skipGap : Rest → Rest
    | '\r' :: '\n' :: cs => skipGap cs
    | c :: cs => if c = '\n' || isBlank c then skipGap cs else c :: cs
    | [] => []

/-- Up to the three closing marks, of which there may be two more that belong to the text. `escapes`
says whether a backslash means something. -/
def linesTail? (mark : Char) (escapes : Bool) : Nat → Reader (List Char)
  | 0, _ => none
  | fuel + 1, cs =>
    let marks := (cs.takeWhile (· = mark)).length
    if 3 ≤ marks then
      let own := min (marks - 3) 2
      some (List.replicate own mark, cs.drop (own + 3))
    else match newline? cs, cs with
      | some rest, _ => do
        let (s, rest) ← linesTail? mark escapes fuel rest
        some ('\n' :: s, rest)
      | none, [] => none
      | none, c :: rest =>
        if c = '\\' ∧ escapes then
          match lineContinuation? rest with
          | some rest => linesTail? mark escapes fuel rest
          | none => do
            let (c, rest) ← escape? rest
            let (s, rest) ← linesTail? mark escapes fuel rest
            some (c :: s, rest)
        else if isPrintable c then do
          let (s, rest) ← linesTail? mark escapes fuel rest
          some (c :: s, rest)
        else none

def apostrophe : Char := Char.ofNat 39

def singleLine? : Reader String
  | [] => none
  | c :: cs =>
    if c = '"' then (basicTail? (cs.length + 1) cs).map fun (s, rest) => (String.ofList s, rest)
    else if c = apostrophe then (literalTail? cs).map fun (s, rest) => (String.ofList s, rest)
    else none

def quoted? (cs : Rest) : Option (String × Rest) :=
  let lines (mark : Char) (escapes : Bool) : Option (String × Rest) := do
    let rest ← expect [mark, mark, mark] cs
    let (s, rest) ← linesTail? mark escapes (cs.length + 1) (skipNewline rest)
    some (String.ofList s, rest)
  match cs with
  | '"' :: '"' :: '"' :: _ => lines '"' true
  | c :: d :: e :: _ =>
    if c = apostrophe ∧ d = apostrophe ∧ e = apostrophe then lines apostrophe false
    else singleLine? cs
  | _ => singleLine? cs

end Scene.Toml
