/-! Escaping of text in markup, and its inverse. -/
namespace Scene.Svg

def entities : List (Char × List Char) :=
  [('&', "&amp;".toList), ('<', "&lt;".toList), ('>', "&gt;".toList), ('"', "&quot;".toList),
    ('\'', "&apos;".toList)]

def escapeChar (c : Char) : List Char := (entities.lookup c).getD [c]

def escapeChars (cs : List Char) : List Char := cs.flatMap escapeChar

def escape (s : String) : String := String.ofList (escapeChars s.toList)

def entity? (cs : List Char) : Option (Char × List Char) :=
  entities.findSome? fun (c, e) => if e.isPrefixOf cs then some (c, cs.drop e.length) else none

def unescapeChars : Nat → List Char → List Char
  | 0, cs => cs
  | _ + 1, [] => []
  | fuel + 1, c :: cs =>
    match entity? (c :: cs) with
    | some (x, rest) => x :: unescapeChars fuel rest
    | none => c :: unescapeChars fuel cs

def unescape (s : String) : String := String.ofList (unescapeChars s.length s.toList)

theorem escapeChars_append (a b : List Char) :
    escapeChars (a ++ b) = escapeChars a ++ escapeChars b := by
  simp [escapeChars]

end Scene.Svg
