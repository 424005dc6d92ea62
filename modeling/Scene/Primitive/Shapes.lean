import Scene.Primitive.Painting
import Scene.Declaration
import Scene.Script

/-! The built-in shapes as types: their declarations and what their implementations do.

shape  | required        | optional
rect   | width height    | x 0, y 0, fill black, stroke
circle | r               | cx 0, cy 0, fill black, stroke
line   | x1 y1 x2 y2     | stroke black, strokeWidth 1
text   | text            | x 0, y 0, fontSize 12, fill black
group  |                 | x 0, y 0, children
frame  |                 | padding 0, background, children

A frame takes the size of its container and lays its children out in what the padding leaves. -/
namespace Scene.Shape
variable {φ α : Type} [Scalar α]

def name : Shape → String
  | .rect => "rect"
  | .circle => "circle"
  | .line => "line"
  | .text => "text"
  | .group => "group"
  | .frame => "frame"

def all : List Shape := [.rect, .circle, .line, .text, .group, .frame]

def numberOr (n : Nat) : Schema φ α :=
  (Schema.optional.withDefault (.number (Scalar.ofNat n))).ofTag .number
def someNumber : Schema φ α := Schema.mandatory.ofTag .number
def someSize : Schema φ α := someNumber.validatedBy .notNegative
def colour : Schema φ α := Schema.optional.ofTag .string
def colourOr (c : String) : Schema φ α := (Schema.optional.withDefault (.string c)).ofTag .string

def properties : Shape → List (String × Schema φ α)
  | .rect =>
    [("x", numberOr 0), ("y", numberOr 0), ("width", someSize), ("height", someSize),
      ("fill", colourOr Primitive.defaultFill), ("stroke", colour)]
  | .circle =>
    [("cx", numberOr 0), ("cy", numberOr 0), ("r", someSize),
      ("fill", colourOr Primitive.defaultFill), ("stroke", colour)]
  | .line =>
    [("x1", someNumber), ("y1", someNumber), ("x2", someNumber), ("y2", someNumber),
      ("stroke", colourOr Primitive.defaultFill), ("strokeWidth", numberOr 1)]
  | .text =>
    [("text", Schema.mandatory.ofTag .string), ("x", numberOr 0), ("y", numberOr 0),
      ("fontSize", numberOr 12), ("fill", colourOr Primitive.defaultFill)]
  | .group => [("x", numberOr 0), ("y", numberOr 0), ("children", Schema.optional)]
  | .frame =>
    [("padding", (numberOr 0).validatedBy .notNegative), ("background", colour),
      ("children", Schema.optional)]

def declaration (s : Shape) : Declaration φ α :=
  { name := s.name
    properties := Dict.ofList s.properties
    implementation? := some (.shape s)
    extends? := none
    validate? := none
    layout? := if s = .frame then some .fit else none }

def draft (s : Shape) (props : Props φ α) : Draft φ α := ⟨s.name, props, s.painters props⟩

def withChildren (props : Props φ α) (rs : List (Renderable φ α)) : Props φ α :=
  Dict.insert props "children" (.array (rs.map .renderable))

def inner (l : Layout.Solution α) (padding : α) : Container α :=
  let both := Scalar.ofNat 2 * padding
  .known (Scalar.nonNegative (l.width - both)) (Scalar.nonNegative (l.height - both))

/-- What a frame stands for: a group of its background and of a group, moved by the padding, with
its children. -/
def framed (props : Props φ α) (l : Layout.Solution α) (rs : List (Renderable φ α)) : Spec φ α :=
  let padding := Primitive.number props "padding"
  let background := match Primitive.string? props "background" with
    | some c =>
      [(((Spec.create "rect").set "width" (.number l.width)).set "height"
        (.number l.height)).set "fill" (.string c)]
    | none => []
  let content := (((Spec.create "group").set "x" (.number padding)).set "y"
    (.number padding)).set "children" (.array (rs.map .renderable))
  (Spec.create "group").set "children" (.array ((background ++ [content]).map Spec.toValue))

def script (s : Shape) (props : Props φ α) (c : Context α) : Script φ α :=
  match s with
  | .rect | .circle | .line | .text => .ofDraft (s.draft props)
  | .group =>
    .childrenOfValues c.childContainer (Script.listed (Dict.get? props "children")) fun rs =>
      .ofDraft (Shape.group.draft (withChildren props rs))
  | .frame =>
    match c.layout with
    | none => .fail (.implementation "frame" "layout was not solved")
    | some l =>
      .childrenOfValues (some (inner l (Primitive.number props "padding")))
        (Script.listed (Dict.get? props "children")) fun rs =>
          .finish (.ok (.spec (framed props l rs)))

end Scene.Shape
