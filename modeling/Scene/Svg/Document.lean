/-! Documents: an arena of elements that know their children and their parent. An element may be in
the arena without being reachable from the root. Nothing but putting an element into itself is
refused, so links can run in a circle; walks along them say when they have no end. -/
namespace Scene.Svg

structure NodeId where
  index : Nat
  deriving DecidableEq, Repr

structure Element where
  tag : String
  attributes : List (String × String)
  /-- Class names without a prefix. -/
  classes : List String
  text : Option String
  children : List NodeId
  parent : Option NodeId
  deriving DecidableEq, Repr

/-- The element at index 0 is the root. -/
structure Document where
  nodes : Array Element
  deriving DecidableEq, Repr

inductive Walk (β : Type) where
  | ends (result : β)
  /-- The walk came back to a node and would go on for ever. -/
  | endless
  deriving DecidableEq, Repr

namespace Walk
variable {β γ : Type}

def bind : Walk β → (β → Walk γ) → Walk γ
  | .ends b, f => f b
  | .endless, _ => .endless

instance : Monad Walk where
  pure := .ends
  bind := bind

def result? : Walk β → Option β
  | .ends b => some b
  | .endless => none

end Walk

def Element.create (tag : String) : Element := ⟨tag, [], [], none, [], none⟩

def Element.attribute? (e : Element) (name : String) : Option String := e.attributes.lookup name

def setEntry (name value : String) : List (String × String) → List (String × String)
  | [] => [(name, value)]
  | (k, v) :: rest => if k = name then (k, value) :: rest else (k, v) :: setEntry name value rest

namespace Document

def namespaceUri : String := "http://www.w3.org/2000/svg"

def create : Document := ⟨#[{ Element.create "svg" with attributes := [("xmlns", namespaceUri)] }]⟩

def root : NodeId := ⟨0⟩

def contains (d : Document) (n : NodeId) : Bool := n.index < d.nodes.size

def element? (d : Document) (n : NodeId) : Option Element := d.nodes[n.index]?

def modify (d : Document) (n : NodeId) (f : Element → Element) : Document :=
  ⟨d.nodes.modify n.index f⟩

def children (d : Document) (n : NodeId) : List NodeId :=
  match d.element? n with
  | some e => e.children
  | none => []

def parent? (d : Document) (n : NodeId) : Option NodeId := (d.element? n).bind (·.parent)

def attribute? (d : Document) (n : NodeId) (name : String) : Option String :=
  (d.element? n).bind (·.attribute? name)

def createElement (d : Document) (tag : String) : NodeId × Document :=
  (⟨d.nodes.size⟩, ⟨d.nodes.push (.create tag)⟩)

def unlink (d : Document) (n parent : NodeId) : Document :=
  (d.modify parent fun e => { e with children := e.children.filter (· ≠ n) }).modify n
    fun e => { e with parent := none }

def detach (d : Document) (n : NodeId) : Document × Bool :=
  match d.parent? n with
  | some p => (d.unlink n p, true)
  | none => (d, false)

def appendChild (d : Document) (parent child : NodeId) : Document × Bool :=
  if !d.contains parent || !d.contains child || parent = child then (d, false)
  else
    let d := (d.detach child).1
    let d := d.modify parent fun e => { e with children := e.children ++ [child] }
    (d.modify child fun e => { e with parent := some parent }, true)

def append (d : Document) (parent : NodeId) (tag : String) : NodeId × Document :=
  let (n, d) := d.createElement tag
  (n, (d.appendChild parent n).1)

def substitute (old new : NodeId) : List NodeId → List NodeId
  | [] => []
  | c :: cs => if c = old then new :: cs else c :: substitute old new cs

def replace (d : Document) (old new : NodeId) : Document × Bool :=
  match d.parent? old with
  | none => (d, false)
  | some p =>
    if !d.contains new || old = new then (d, false)
    else
      let d := (d.detach new).1
      let d := d.modify p fun e => { e with children := substitute old new e.children }
      let d := d.modify old fun e => { e with parent := none }
      (d.modify new fun e => { e with parent := some p }, true)

/-- A name keeps its place when its value is replaced. -/
def setAttribute (d : Document) (n : NodeId) (name value : String) : Document :=
  d.modify n fun e => { e with attributes := setEntry name value e.attributes }

def addClass (d : Document) (n : NodeId) (name : String) : Document :=
  d.modify n fun e =>
    if e.classes.contains name then e else { e with classes := e.classes ++ [name] }

def setText (d : Document) (n : NodeId) (text : String) : Document :=
  d.modify n fun e => { e with text := some text }

/-- Climbs to the root; more steps than there are elements lead nowhere. -/
def climb (d : Document) : Nat → NodeId → Walk Bool
  | 0, _ => .endless
  | fuel + 1, n =>
    if n = root then .ends true
    else match d.parent? n with
      | some p => climb d fuel p
      | none => .ends false

def isAttached (d : Document) (n : NodeId) : Walk Bool := d.climb (d.nodes.size + 1) n

/-- Looks through a stack of elements, each followed by its children. -/
def search (d : Document) (id : String) : Nat → List NodeId → Walk (Option NodeId)
  | _, [] => .ends none
  | 0, _ :: _ => .endless
  | fuel + 1, n :: rest =>
    if d.attribute? n "id" = some id then .ends (some n)
    else search d id fuel (d.children n ++ rest)

/-- The first element under the root, in written order, with the given `id`. -/
def findById (d : Document) (id : String) : Walk (Option NodeId) :=
  d.search id (d.nodes.size + 1) [root]

end Document
end Scene.Svg
