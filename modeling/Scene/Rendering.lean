import Scene.Engine

/-! Renderings: what was drawn of a renderable, and where. A rendering can be taken away again, or
replaced by what comes of changed properties. -/
namespace Scene

/-- An element that is no drawing surface itself; it gets a document of full size when first drawn
into. -/
structure Panel (α : Type) where
  container : Container α
  svg : Option Svg.Document

namespace Panel
variable {α : Type}

def create (container : Container α) : Panel α := ⟨container, none⟩

def fullSize : Svg.Document :=
  (Svg.Document.create.setAttribute Svg.Document.root "width" "100%").setAttribute
    Svg.Document.root "height" "100%"

def document (p : Panel α) : Svg.Document := p.svg.getD fullSize

end Panel

inductive Surface (α : Type) where
  | panel (p : Panel α)
  | svg (d : Svg.Document) (parent : Svg.NodeId)
  | canvas (r : Canvas.Recording α)

inductive Drawn where
  | svg (element : Option Svg.NodeId)
  | canvas (drew : Bool)
  deriving DecidableEq, Repr

def Drawn.element? : Drawn → Option Svg.NodeId
  | .svg e => e
  | .canvas _ => none

structure Rendering (φ α : Type) where
  renderable : Renderable φ α
  drawn : Drawn

namespace Rendering
variable {φ α : Type}

def swapIn (r : Renderable φ α) (parent : Svg.NodeId) (previous : Option Svg.NodeId) :
    SvgPaint α (Option Svg.NodeId) := do
  let element ← r.paintSvg parent
  match previous, element with
  | some old, some new => modify fun d => (d.replace old new).1
  | some old, none => modify fun d => (d.detach old).1
  | none, _ => pure ()
  pure element

def drawOn (r : Renderable φ α) (previous : Option Svg.NodeId) :
    Surface α → Except (PaintError α) Drawn × Surface α
  | .canvas c =>
    let (result, c) := r.paintCanvas.run c
    (result.map .canvas, .canvas c)
  | .svg d parent =>
    let (result, d) := (swapIn r parent previous).run d
    (result.map .svg, .svg d parent)
  | .panel p =>
    let (result, d) := (swapIn r Svg.Document.root previous).run p.document
    (result.map .svg, .panel { p with svg := some d })

def render (r : Renderable φ α) (surface : Surface α) :
    Except (PaintError α) (Rendering φ α) × Surface α :=
  let (result, surface) := drawOn r none surface
  (result.map fun drawn => ⟨r, drawn⟩, surface)

def cleanup (h : Rendering φ α) (d : Svg.Document) : Svg.Document × Bool :=
  match h.drawn.element? with
  | some e => d.detach e
  | none => (d, false)

def update [Scalar α] (s : Surroundings φ α) (h : Rendering φ α) (partials : Props φ α)
    (surface : Surface α) :
    Resolve φ α (Except (PaintError α) (Rendering φ α) × Surface α) := do
  match ← Resolve.attempt (Engine.update s h.renderable partials) with
  | .error e => pure (.error (.build e), surface)
  | .ok r =>
    let (result, surface) := drawOn r h.drawn.element? surface
    pure (result.map fun drawn => ⟨r, drawn⟩, surface)

end Rendering
end Scene
