import Scene.Primitive.Painting
import Scene.Script

/-! Visuals of any tag: one element with the numbers, texts and truth values among its properties as
attributes, and the renderables among them inside. A canvas shows the tag as a text. -/
namespace Scene.Primitive
variable {φ α : Type} [Scalar α]

def renderables (props : Props φ α) : List (Renderable φ α) :=
  props.flatMap fun e => match e.2 with
    | .renderable r => [r]
    | .array items => items.filterMap Value.asRenderable?
    | _ => []

def attributeText? : Value φ α → Option String
  | .number x => some (Scalar.text x)
  | .string s => some s
  | .bool true => some "true"
  | .bool false => some "false"
  | _ => none

def elementSvg (tag : String) (props : Props φ α) (parent : Svg.NodeId) :
    SvgPaint α (Option Svg.NodeId) := do
  let n ← modifyGet fun d => d.append parent tag
  props.forM fun e =>
    match attributeText? e.2 with
    | some text => setAttribute n e.1 text
    | none => pure ()
  (renderables props).forM fun c => do
    let _ ← c.paintSvg n
  pure (some n)

def elementCanvas (tag : String) (props : Props φ α) (drew : Bool) : CanvasPaint α Bool := do
  draw (.fillText tag Scalar.zero Scalar.zero)
  let rest ← drawAll (renderables props)
  pure (drew && rest)

end Scene.Primitive
