import Scene.Spec

/-! Renderables: painting them, and looking their properties up. -/
namespace Scene.Renderable
variable {φ α : Type}

/-- Paints below `parent`, which must be part of the document. -/
def paintSvg (r : Renderable φ α) (parent : Svg.NodeId) : SvgPaint α (Option Svg.NodeId) := do
  let d ← get
  if d.contains parent then r.painters.svg parent
  else throw (.unknownNode parent.index)

def paintCanvas (r : Renderable φ α) : CanvasPaint α Bool := r.painters.canvas

/-- A property of the spec this was resolved from, defaults included, else one of those painted. -/
def property? (r : Renderable φ α) (name : String) : Option (Value φ α) :=
  match r.origin.bind fun o => Dict.get? o.2 name with
  | some v => some v
  | none => Dict.get? r.props name

def spec? (r : Renderable φ α) : Option (Spec φ α) := r.origin.map (·.1)

def withOrigin (r : Renderable φ α) (node : Nat) (spec : Spec φ α) (completed : Props φ α) :
    Renderable φ α :=
  { r with node, origin := some (spec, completed) }

/-- The spec to resolve in place of this one when some of its properties change. -/
def revised (r : Renderable φ α) (partials : Props φ α) : Spec φ α :=
  match r.spec? with
  | some s => s.merged partials
  | none => (Spec.ofProps r.kind r.props).merged partials

end Scene.Renderable
