import Scene.Renderable

/-! How the built-in shapes are drawn, in a document and on a canvas. -/
namespace Scene
namespace Primitive
variable {φ α : Type} [Scalar α]

def defaultFill : String := "black"

/-- A number among the properties; anything else counts as zero. -/
def number (props : Props φ α) (key : String) : α :=
  ((Dict.get? props key).bind Value.asNumber?).getD Scalar.zero

def string? (props : Props φ α) (key : String) : Option String :=
  (Dict.get? props key).bind Value.asString?

def children (props : Props φ α) : List (Renderable φ α) :=
  (((Dict.get? props "children").bind Value.asArray?).getD []).filterMap Value.asRenderable?

/-! Drawing in a document. -/

def setAttribute (n : Svg.NodeId) (name value : String) : SvgPaint α Unit :=
  modify fun d => d.setAttribute n name value

def numberAttributes (n : Svg.NodeId) (props : Props φ α) (keys : List String) :
    SvgPaint α Unit :=
  keys.forM fun k => setAttribute n k (Scalar.text (number props k))

def stringAttribute (n : Svg.NodeId) (props : Props φ α) (key : String) : SvgPaint α Unit :=
  match string? props key with
  | some s => setAttribute n key s
  | none => pure ()

def element (parent : Svg.NodeId) (tag shape : String) : SvgPaint α Svg.NodeId := do
  let n ← modifyGet fun d => d.append parent tag
  modify fun d => d.addClass n shape
  pure n

def rectSvg (props : Props φ α) (parent : Svg.NodeId) : SvgPaint α (Option Svg.NodeId) := do
  let n ← element parent "rect" "rect"
  numberAttributes n props ["x", "y", "width", "height"]
  stringAttribute n props "fill"
  stringAttribute n props "stroke"
  pure (some n)

def circleSvg (props : Props φ α) (parent : Svg.NodeId) : SvgPaint α (Option Svg.NodeId) := do
  let n ← element parent "circle" "circle"
  numberAttributes n props ["cx", "cy", "r"]
  stringAttribute n props "fill"
  stringAttribute n props "stroke"
  pure (some n)

def lineSvg (props : Props φ α) (parent : Svg.NodeId) : SvgPaint α (Option Svg.NodeId) := do
  let n ← element parent "line" "line"
  numberAttributes n props ["x1", "y1", "x2", "y2"]
  setAttribute n "stroke" ((string? props "stroke").getD defaultFill)
  setAttribute n "stroke-width" (Scalar.text (number props "strokeWidth"))
  pure (some n)

def textSvg (props : Props φ α) (parent : Svg.NodeId) : SvgPaint α (Option Svg.NodeId) := do
  let n ← element parent "text" "text"
  numberAttributes n props ["x", "y"]
  setAttribute n "font-size" (Scalar.text (number props "fontSize"))
  stringAttribute n props "fill"
  modify fun d => d.setText n ((string? props "text").getD "")
  pure (some n)

def groupSvg (props : Props φ α) (parent : Svg.NodeId) : SvgPaint α (Option Svg.NodeId) := do
  let n ← element parent "g" "group"
  let x := number props "x"
  let y := number props "y"
  if !(x == Scalar.zero) || !(y == Scalar.zero) then
    setAttribute n "transform" ("translate(" ++ Scalar.text x ++ "," ++ Scalar.text y ++ ")")
  (children props).forM fun c => do
    let _ ← c.paintSvg n
  pure (some n)

/-! Drawing on a canvas. -/

def draw (c : Canvas.Command α) : CanvasPaint α Unit := modify fun r => r.push c

def fillStyle (props : Props φ α) : CanvasPaint α Unit :=
  draw (.setFillStyle ((string? props "fill").getD defaultFill))

def rectCanvas (props : Props φ α) : CanvasPaint α Bool := do
  let x := number props "x"
  let y := number props "y"
  let w := number props "width"
  let h := number props "height"
  fillStyle props
  draw (.fillRect x y w h)
  if let some stroke := string? props "stroke" then
    draw (.setStrokeStyle stroke)
    draw (.strokeRect x y w h)
  pure true

def turn : α := Scalar.ofRat (6283185307179586476925286766559 / 1000000000000000000000000000000)

def circleCanvas (props : Props φ α) : CanvasPaint α Bool := do
  draw .beginPath
  draw (.arc (number props "cx") (number props "cy") (number props "r") Scalar.zero turn)
  fillStyle props
  draw .fill
  if let some stroke := string? props "stroke" then
    draw (.setStrokeStyle stroke)
    draw .stroke
  pure true

def lineCanvas (props : Props φ α) : CanvasPaint α Bool := do
  draw .beginPath
  draw (.moveTo (number props "x1") (number props "y1"))
  draw (.lineTo (number props "x2") (number props "y2"))
  draw (.setStrokeStyle ((string? props "stroke").getD defaultFill))
  draw (.setLineWidth (number props "strokeWidth"))
  draw .stroke
  pure true

def textCanvas (props : Props φ α) : CanvasPaint α Bool := do
  draw (.setFont (Scalar.text (number props "fontSize") ++ "px sans-serif"))
  fillStyle props
  draw (.fillText ((string? props "text").getD "") (number props "x") (number props "y"))
  pure true

def drawAll : List (Renderable φ α) → CanvasPaint α Bool
  | [] => pure true
  | c :: cs => do
    let drew ← c.paintCanvas
    let rest ← drawAll cs
    pure (drew && rest)

def groupCanvas (props : Props φ α) : CanvasPaint α Bool := do
  draw .save
  draw (.translate (number props "x") (number props "y"))
  let drew ← drawAll (children props)
  draw .restore
  pure drew

end Primitive

open Primitive in
/-- The painters of a shape over its properties. A frame is drawn as the group it resolves to. -/
def Shape.painters {φ α : Type} [Scalar α] (s : Shape) (props : Props φ α) : Painters α :=
  match s with
  | .rect => ⟨rectSvg props, rectCanvas props⟩
  | .circle => ⟨circleSvg props, circleCanvas props⟩
  | .line => ⟨lineSvg props, lineCanvas props⟩
  | .text => ⟨textSvg props, textCanvas props⟩
  | .group | .frame => ⟨groupSvg props, groupCanvas props⟩

end Scene
