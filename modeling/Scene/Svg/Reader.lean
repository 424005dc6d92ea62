import Scene.Svg.Markup
import Scene.Text.Reader

/-! Markup read back: elements with start and end tags or a self-closing tag, attributes in double
quotes, character data, and the five entities. Between the tags of an element with child elements
there may be white space, which means nothing; in an element without, every character counts. -/
namespace Scene.Svg
open Text

def isNameStart (c : Char) : Bool :=
  let n := c.toNat
  c = ':' || c = '_' || ('A' ≤ c && c ≤ 'Z') || ('a' ≤ c && c ≤ 'z') || (0xC0 ≤ n && n ≤ 0xD6)
    || (0xD8 ≤ n && n ≤ 0xF6) || (0xF8 ≤ n && n ≤ 0x2FF) || (0x370 ≤ n && n ≤ 0x37D)
    || (0x37F ≤ n && n ≤ 0x1FFF) || (0x200C ≤ n && n ≤ 0x200D) || (0x2070 ≤ n && n ≤ 0x218F)
    || (0x2C00 ≤ n && n ≤ 0x2FEF) || (0x3001 ≤ n && n ≤ 0xD7FF) || (0xF900 ≤ n && n ≤ 0xFDCF)
    || (0xFDF0 ≤ n && n ≤ 0xFFFD) || (0x10000 ≤ n && n ≤ 0xEFFFF)

def isNameChar (c : Char) : Bool :=
  let n := c.toNat
  isNameStart c || c = '-' || c = '.' || ('0' ≤ c && c ≤ '9') || n = 0xB7
    || (0x300 ≤ n && n ≤ 0x36F) || (0x203F ≤ n && n ≤ 0x2040)

def isName (s : String) : Bool := s.toList.head?.any isNameStart && s.toList.all isNameChar

def isSpace (c : Char) : Bool := c = ' ' || c = '\t' || c = '\n' || c = '\r'

def skipSpace (cs : Rest) : Rest := cs.dropWhile isSpace

def name? : Reader String := fun cs =>
  if cs.head?.any isNameStart then
    some (String.ofList (cs.takeWhile isNameChar), cs.dropWhile isNameChar)
  else none

/-- The characters that data stands for. A mark of markup has to be written as its entity. -/
def decode? : List Char → Option (List Char)
  | [] => some []
  | '&' :: 'a' :: 'm' :: 'p' :: ';' :: cs => (decode? cs).map ('&' :: ·)
  | '&' :: 'l' :: 't' :: ';' :: cs => (decode? cs).map ('<' :: ·)
  | '&' :: 'g' :: 't' :: ';' :: cs => (decode? cs).map ('>' :: ·)
  | '&' :: 'q' :: 'u' :: 'o' :: 't' :: ';' :: cs => (decode? cs).map ('"' :: ·)
  | '&' :: 'a' :: 'p' :: 'o' :: 's' :: ';' :: cs => (decode? cs).map ('\'' :: ·)
  | c :: cs => if c = '&' || c = '<' then none else (decode? cs).map (c :: ·)

def data? (mark : Char) : Reader (List Char) := fun cs => do
  let data ← decode? (cs.takeWhile (· ≠ mark))
  some (data, cs.dropWhile (· ≠ mark))

def attribute? : Reader (String × String) := fun cs => do
  let (name, cs) ← name? cs
  let cs ← expect ['=', '"'] cs
  let (value, cs) ← data? '"' cs
  let cs ← expect ['"'] cs
  some ((name, String.ofList value), cs)

def attributes? : Nat → Reader (List (String × String))
  | 0, _ => none
  | fuel + 1, cs =>
    if cs.head?.any isSpace && (skipSpace cs).head?.any isNameStart then do
      let (a, cs) ← attribute? (skipSpace cs)
      let (rest, cs) ← attributes? fuel cs
      some (a :: rest, cs)
    else some ([], skipSpace cs)

/-- What stands between two tags makes an element: data alone, or elements with nothing else. -/
def enclose? (tag : String) (attributes : List (String × String)) (data : List Char) :
    List Markup → Option Markup
  | [] => some (.element tag attributes (some (String.ofList data)) [])
  | m :: ms => if data.all isSpace then some (.element tag attributes none (m :: ms)) else none

mutual

/-- No two attributes of an element have one name. -/
def element? : Nat → Reader Markup
  | 0, _ => none
  | fuel + 1, cs => do
    let (tag, cs) ← name? (← expect ['<'] cs)
    let (attributes, cs) ← attributes? cs.length cs
    if (attributes.map (·.1)).Nodup then
      match expect ['/', '>'] cs with
      | some cs => some (.element tag attributes none [], cs)
      | none => do
        let ((data, children), cs) ← content? fuel (← expect ['>'] cs)
        let cs ← expect tag.toList cs
        let cs ← expect ['>'] (skipSpace cs)
        let m ← enclose? tag attributes data children
        some (m, cs)
    else none

def content? : Nat → Reader (List Char × List Markup)
  | 0, _ => none
  | fuel + 1, cs => do
    let (data, cs) ← data? '<' cs
    match expect ['<', '/'] cs with
    | some cs => some ((data, []), cs)
    | none => do
      let (m, cs) ← element? fuel cs
      let ((more, ms), cs) ← content? fuel cs
      some ((data ++ more, m :: ms), cs)

end

def after? (ws : List Char) : Rest → Option Rest
  | [] => none
  | c :: cs =>
    match expect ws (c :: cs) with
    | some rest => some rest
    | none => after? ws cs

def skipDeclaration? (cs : Rest) : Option Rest :=
  match expect ['<', '?', 'x', 'm', 'l', ' '] cs with
  | some cs => after? ['?', '>'] cs
  | none => some cs

def read? (s : String) : Option Markup := do
  let cs ← skipDeclaration? s.toList
  let (m, cs) ← element? cs.length (skipSpace cs)
  if cs.all isSpace then some m else none

end Scene.Svg
