import Scene.Scalar

/-! Pictures: shapes in groups, apart from how a document or a canvas holds them. Read in the order
of drawing, a picture is a list of marks. -/
namespace Scene

/-- A shape with its numbers and colours. A fill that is left out is black, a stroke is not
there. -/
inductive Sketch (α : Type) where
  | rect (x y width height : α) (fill? stroke? : Option String)
  | circle (cx cy r : α) (fill? stroke? : Option String)
  | line (x1 y1 x2 y2 width : α) (stroke : String)
  | text (x y size : α) (content : String) (fill? : Option String)

inductive Picture (α : Type) where
  | sketch (s : Sketch α)
  /-- Parts drawn in order, moved together. -/
  | group (x y : α) (parts : List (Picture α))

inductive Figure where
  | rect (x y width height : String)
  | circle (cx cy r : String)
  | line (x1 y1 x2 y2 width : String)
  | text (x y size content : String)
  deriving DecidableEq, Repr

structure Mark where
  figure : Figure
  /-- Offsets of the groups around it, the outermost first. -/
  offsets : List (String × String)
  /-- Lines have none. -/
  fill? : Option String
  stroke? : Option String
  deriving DecidableEq, Repr

variable {α : Type} [Scalar α]

def writtenOffset (x y : α) : String × String :=
  if x == Scalar.zero && y == Scalar.zero then
    (Scalar.text (Scalar.zero : α), Scalar.text (Scalar.zero : α))
  else (Scalar.text x, Scalar.text y)

namespace Sketch

def figure : Sketch α → Figure
  | .rect x y w h _ _ => .rect (Scalar.text x) (Scalar.text y) (Scalar.text w) (Scalar.text h)
  | .circle cx cy r _ _ => .circle (Scalar.text cx) (Scalar.text cy) (Scalar.text r)
  | .line x1 y1 x2 y2 w _ =>
    .line (Scalar.text x1) (Scalar.text y1) (Scalar.text x2) (Scalar.text y2) (Scalar.text w)
  | .text x y size content _ =>
    .text (Scalar.text x) (Scalar.text y) (Scalar.text size) content

def mark (offsets : List (String × String)) (s : Sketch α) : Mark :=
  match s with
  | .rect _ _ _ _ fill? stroke? | .circle _ _ _ fill? stroke? =>
    ⟨s.figure, offsets, some (fill?.getD "black"), stroke?⟩
  | .line _ _ _ _ _ stroke => ⟨s.figure, offsets, none, some stroke⟩
  | .text _ _ _ _ fill? => ⟨s.figure, offsets, some (fill?.getD "black"), none⟩

end Sketch

namespace Picture

mutual

/-- What is seen of a picture inside groups with the given offsets. -/
def marks (offsets : List (String × String)) : Picture α → List Mark
  | .sketch s => [s.mark offsets]
  | .group x y parts => marksAll (offsets ++ [writtenOffset x y]) parts

def marksAll (offsets : List (String × String)) : List (Picture α) → List Mark
  | [] => []
  | p :: ps => marks offsets p ++ marksAll offsets ps

end

end Picture
end Scene
