import Scene.Svg.Document
import Scene.Svg.Escape
import Scene.Settings

/-! Markup: what is written of a document. A document is first read off as a tree, with its classes
as one attribute, and the tree is then written. -/
namespace Scene.Svg

inductive Markup where
  | element (tag : String) (attributes : List (String × String)) (text : Option String)
      (children : List Markup)

/-- The attributes of an element; added classes follow as one attribute. -/
def Element.writtenAttributes (e : Element) (classPrefix : Option String) :
    List (String × String) :=
  if e.classes.isEmpty then e.attributes
  else
    let names := e.classes.map fun c => classPrefix.getD "" ++ c
    e.attributes ++ [("class", " ".intercalate names)]

/-- The tree under an element, to a depth; nothing for a missing element. A path longer than there
are elements runs in a circle. -/
def Document.subtree (d : Document) (classPrefix : Option String) :
    Nat → NodeId → Walk (Option Markup)
  | 0, _ => .endless
  | depth + 1, n =>
    match d.element? n with
    | none => .ends none
    | some e => do
      let children ← e.children.mapM (d.subtree classPrefix depth)
      pure (some (.element e.tag (e.writtenAttributes classPrefix) e.text (children.filterMap id)))

def Document.markup (d : Document) (classPrefix : Option String) (n : NodeId) :
    Walk (Option Markup) :=
  d.subtree classPrefix (d.nodes.size + 1) n

namespace Markup

def attributeText (a : String × String) : String := " " ++ a.1 ++ "=\"" ++ escape a.2 ++ "\""

def openTag (tag : String) (attributes : List (String × String)) : String :=
  "<" ++ tag ++ String.join (attributes.map attributeText)

def indentation (indent : Bool) (depth : Nat) : String :=
  if indent then "".pushn ' ' (2 * depth) else ""

def newline (indent : Bool) : String := if indent then "\n" else ""

mutual

def write (indent : Bool) (depth : Nat) : Markup → String
  | .element tag attributes text children =>
    let start := indentation indent depth ++ openTag tag attributes
    let body := match text, children with
      | none, [] => "/>"
      | some t, [] => ">" ++ escape t ++ "</" ++ tag ++ ">"
      | _, _ :: _ =>
        ">" ++ escape (text.getD "") ++ newline indent ++ writeAll indent (depth + 1) children
          ++ indentation indent depth ++ "</" ++ tag ++ ">"
    start ++ body ++ newline indent

def writeAll (indent : Bool) (depth : Nat) : List Markup → String
  | [] => ""
  | m :: ms => write indent depth m ++ writeAll indent depth ms

end

end Markup

namespace Document
open Settings

def declaration : String := "<?xml version=\"1.0\" encoding=\"UTF-8\"?>"

def fragmentText (d : Document) (n : NodeId) (settings : Writing) : Walk String := do
  let m ← d.markup settings.classPrefix n
  pure (match m with
    | some m => m.write settings.indent 0
    | none => "")

def text (d : Document) (settings : Writing) : Walk String := do
  let body ← d.fragmentText root settings
  let head := if settings.declaration then declaration ++ Markup.newline settings.indent else ""
  pure (head ++ body)

end Document
end Scene.Svg
