import Scene.Definition
import Scene.Layout

/-! Scripts: what an implementation does, as a finite tree. It ends with a result, or asks for
something and goes on with the answer: a new node, a resolved child, the registry, a registration,
or a fresh resolution by the engine itself. -/
namespace Scene

structure Context (α : Type) where
  typeName : String
  depth : Nat
  container : Option (Container α)
  layout : Option (Layout.Solution α)

namespace Context
variable {α : Type} [Scalar α]

/-- The container that children see: the solved size on the axes that the layout constrained, and
the enclosing size on the others. -/
def childContainer (c : Context α) : Option (Container α) :=
  match c.layout with
  | none => c.container
  | some l =>
    if !l.isConstrained "width" && !l.isConstrained "height" then c.container
    else
      let enclosing := c.container.getD .unknown
      let axis (name : String) (fallback : Option α) : Option α :=
        if l.isConstrained name then l.get? name else fallback
      some ⟨axis "width" enclosing.width, axis "height" enclosing.height⟩

end Context

/-- A renderable that is not a node yet. -/
structure Draft (φ α : Type) where
  kind : String
  props : Props φ α
  painters : Painters α

def Draft.node {φ α : Type} (d : Draft φ α) (node : Nat) : Renderable φ α :=
  { node, kind := d.kind, props := d.props, origin := none, painters := d.painters }

structure Builder (φ α : Type) where
  kind : String
  props : Props φ α
  svg? : Option (Svg.NodeId → SvgPaint α (Option Svg.NodeId))
  canvas? : Option (CanvasPaint α Bool)

def Builder.draft? {φ α : Type} (b : Builder φ α) : Except (ResolveError α) (Draft φ α) :=
  match b.svg?, b.canvas? with
  | none, _ => .error (.contract b.kind "renderable has no SVG painter")
  | some _, none => .error (.contract b.kind "renderable has no canvas painter")
  | some svg, some canvas => .ok ⟨b.kind, b.props, ⟨svg, canvas⟩⟩

def Draft.empty {φ α : Type} : Draft φ α := ⟨"empty", [], ⟨fun _ => pure none, pure true⟩⟩

inductive Script (φ α : Type) where
  | finish (result : Except (ResolveError α) (Visual φ α))
  | build (draft : Draft φ α) (next : Renderable φ α → Script φ α)
  | child (visual : Visual φ α) (container : Option (Container α))
      (next : Except (ResolveError α) (Renderable φ α) → Script φ α)
  | inspect (next : Registry φ α → Script φ α)
  | register (d : Definition φ α) (next : Script φ α)
  | remove (name : String) (next : Bool → Script φ α)
  /-- Resolves by the engine, outside of any nesting. -/
  | reenter (visual : Visual φ α) (container : Option (Container α))
      (next : Except (ResolveError α) (Renderable φ α) → Script φ α)

namespace Script
variable {φ α : Type}

def bind : Script φ α → (Visual φ α → Script φ α) → Script φ α
  | .finish (.ok v), f => f v
  | .finish (.error e), _ => .finish (.error e)
  | .build d next, f => .build d fun r => (next r).bind f
  | .child v c next, f => .child v c fun r => (next r).bind f
  | .inspect next, f => .inspect fun r => (next r).bind f
  | .register d next, f => .register d (next.bind f)
  | .remove n next, f => .remove n fun b => (next b).bind f
  | .reenter v c next, f => .reenter v c fun r => (next r).bind f

def fail (e : ResolveError α) : Script φ α := .finish (.error e)

def ofExcept {β : Type} (r : Except (ResolveError α) β) (f : β → Script φ α) : Script φ α :=
  match r with
  | .ok b => f b
  | .error e => fail e

def ofDraft (d : Draft φ α) : Script φ α := .build d fun r => .finish (.ok (.resolved r))

def ofBuilder (b : Builder φ α) : Script φ α := ofExcept b.draft? ofDraft

def childOfValue (container : Option (Container α)) (v : Value φ α)
    (next : Renderable φ α → Script φ α) : Script φ α :=
  ofExcept (Visual.ofValue? v) fun viz => .child viz container fun r => ofExcept r next

def childrenOfValues (container : Option (Container α)) :
    List (Value φ α) → (List (Renderable φ α) → Script φ α) → Script φ α
  | [], next => next []
  | v :: vs, next =>
    childOfValue container v fun r =>
      childrenOfValues container vs fun rs => next (r :: rs)

/-- The children that a property lists: none for null or an absent one, several for an array, one
for anything else. -/
def listed : Option (Value φ α) → List (Value φ α)
  | none | some .null => []
  | some (.array items) => items
  | some other => [other]

end Script
end Scene
