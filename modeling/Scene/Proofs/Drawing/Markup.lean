import Mathlib.Data.List.Basic
import Scene.Proofs.Drawing.Picture
import Scene.Proofs.Scalar.Listable
import Scene.Svg.Markup

/-! Pictures as markup. What shapes a markup shows is read from tags, attributes and texts; from the
markup of a picture it reads the marks of the picture. -/
namespace Scene

namespace Svg

def translation? (transform : String) : Option (String × String) := do
  let list ← (← transform.toList.dropPrefix? "translate(".toList).dropSuffix? ")".toList
  match list.dropWhile (· ≠ ',') with
  | _ :: y => some (String.ofList (list.takeWhile (· ≠ ',')), String.ofList y)
  | [] => none

variable (α : Type) [Scalar α]

def offset? (attributes : List (String × String)) : Option (String × String) :=
  match attributes.lookup "transform" with
  | some transform => translation? transform
  | none => some (Scalar.text (Scalar.zero : α), Scalar.text (Scalar.zero : α))

def mark? (tag : String) (attributes : List (String × String)) (text : Option String)
    (offsets : List (String × String)) : Option Mark :=
  let value (name : String) := attributes.lookup name
  let fill := some ((value "fill").getD "black")
  match tag with
  | "rect" => do
    let figure := Figure.rect (← value "x") (← value "y") (← value "width") (← value "height")
    some ⟨figure, offsets, fill, value "stroke"⟩
  | "circle" => do
    let figure := Figure.circle (← value "cx") (← value "cy") (← value "r")
    some ⟨figure, offsets, fill, value "stroke"⟩
  | "line" => do
    let figure := Figure.line (← value "x1") (← value "y1") (← value "x2") (← value "y2")
      (← value "stroke-width")
    some ⟨figure, offsets, none, value "stroke"⟩
  | "text" => do
    let figure := Figure.text (← value "x") (← value "y") (← value "font-size") (text.getD "")
    some ⟨figure, offsets, fill, value "stroke"⟩
  | _ => none

mutual

/-- The shapes of a markup in document order, inside groups with the given offsets. -/
def Markup.marks? (offsets : List (String × String)) : Markup → Option (List Mark)
  | .element tag attributes text children =>
    if tag = "g" then do
      let offset ← offset? α attributes
      marksAll? (offsets ++ [offset]) children
    else do
      let m ← mark? tag attributes text offsets
      some [m]

def Markup.marksAll? (offsets : List (String × String)) : List Markup → Option (List Mark)
  | [] => some []
  | m :: ms => do
    let seen ← marks? offsets m
    let rest ← marksAll? offsets ms
    some (seen ++ rest)

end

theorem translation?_text {x : String} (hx : ',' ∉ x.toList) (y : String) :
    translation? ("translate(" ++ x ++ "," ++ y ++ ")") = some (x, y) := by
  have hopen : ("translate(" ++ x ++ "," ++ y ++ ")").toList.dropPrefix? "translate(".toList =
      some (x.toList ++ ',' :: y.toList ++ ")".toList) := by
    simp [List.dropPrefix?_eq_some_iff]
  have hclose : (x.toList ++ ',' :: y.toList ++ ")".toList).dropSuffix? ")".toList =
      some (x.toList ++ ',' :: y.toList) := by
    simp [List.dropSuffix?_eq_some_iff]
  have hall : ∀ c ∈ x.toList, (decide (c ≠ ',')) = true := by
    intro c hc
    simpa using fun h : c = ',' => hx (h ▸ hc)
  rw [translation?, hopen]
  simp only [Option.bind_eq_bind, Option.bind_some, hclose]
  rw [List.dropWhile_append_of_pos hall, List.takeWhile_append_of_pos hall]
  simp

end Svg

namespace Sketch
variable {α : Type} [Scalar α]

def tag : Sketch α → String
  | .rect .. => "rect"
  | .circle .. => "circle"
  | .line .. => "line"
  | .text .. => "text"

def given (name : String) (value? : Option String) : List (String × String) :=
  (value?.map fun v => (name, v)).toList

def attributes : Sketch α → List (String × String)
  | .rect x y w h fill? stroke? =>
    [("x", Scalar.text x), ("y", Scalar.text y), ("width", Scalar.text w),
      ("height", Scalar.text h)] ++ given "fill" fill? ++ given "stroke" stroke?
  | .circle cx cy r fill? stroke? =>
    [("cx", Scalar.text cx), ("cy", Scalar.text cy), ("r", Scalar.text r)] ++ given "fill" fill? ++
      given "stroke" stroke?
  | .line x1 y1 x2 y2 width stroke =>
    [("x1", Scalar.text x1), ("y1", Scalar.text y1), ("x2", Scalar.text x2),
      ("y2", Scalar.text y2), ("stroke", stroke), ("stroke-width", Scalar.text width)]
  | .text x y size _ fill? =>
    [("x", Scalar.text x), ("y", Scalar.text y), ("font-size", Scalar.text size)] ++
      given "fill" fill?

def content? : Sketch α → Option String
  | .text _ _ _ content _ => some content
  | _ => none

def element (s : Sketch α) : Svg.Element := ⟨s.tag, s.attributes, [s.tag], s.content?, [], none⟩

end Sketch

namespace Picture
variable {α : Type} [Scalar α]

def transform (x y : α) : List (String × String) :=
  if !(x == Scalar.zero) || !(y == Scalar.zero) then
    [("transform", "translate(" ++ Scalar.text x ++ "," ++ Scalar.text y ++ ")")]
  else []

def groupElement (x y : α) : Svg.Element := ⟨"g", transform x y, ["group"], none, [], none⟩

mutual

def markup (classPrefix : Option String) : Picture α → Svg.Markup
  | .sketch s => .element s.tag (s.element.writtenAttributes classPrefix) s.content? []
  | .group x y parts =>
    .element "g" ((groupElement x y).writtenAttributes classPrefix) none
      (markupAll classPrefix parts)

def markupAll (classPrefix : Option String) : List (Picture α) → List Svg.Markup
  | [] => []
  | p :: ps => markup classPrefix p :: markupAll classPrefix ps

end

/-- The class comes after all that is looked up. -/
theorem lookup_writtenAttributes (e : Svg.Element) (classPrefix : Option String) {name : String}
    (hname : name ≠ "class") :
    (e.writtenAttributes classPrefix).lookup name = e.attributes.lookup name := by
  rw [Svg.Element.writtenAttributes]
  split
  · rfl
  · have hclass (names : String) : [("class", names)].lookup name = none := by
      simp [List.lookup_cons, beq_false_of_ne hname]
    dsimp only
    rw [List.lookup_append, hclass, Option.or_none]

theorem mark?_element (s : Sketch α) (classPrefix : Option String)
    (offsets : List (String × String)) :
    Svg.mark? s.tag (s.element.writtenAttributes classPrefix) s.content? offsets =
      some (s.mark offsets) := by
  have hlookup {name : String} (hname : name ≠ "class") :
      (s.element.writtenAttributes classPrefix).lookup name = s.attributes.lookup name :=
    lookup_writtenAttributes s.element classPrefix hname
  cases s with
  | rect x y w h fill? stroke? =>
    cases fill? <;> cases stroke? <;>
      simp [Svg.mark?, Sketch.tag, hlookup, Sketch.attributes, Sketch.given, List.lookup_cons,
        Sketch.mark, Sketch.figure]
  | circle cx cy r fill? stroke? =>
    cases fill? <;> cases stroke? <;>
      simp [Svg.mark?, Sketch.tag, hlookup, Sketch.attributes, Sketch.given, List.lookup_cons,
        Sketch.mark, Sketch.figure]
  | line x1 y1 x2 y2 width stroke =>
    simp [Svg.mark?, Sketch.tag, hlookup, Sketch.attributes, List.lookup_cons, Sketch.mark,
      Sketch.figure]
  | text x y size content fill? =>
    cases fill? <;>
      simp [Svg.mark?, Sketch.tag, hlookup, Sketch.attributes, Sketch.given, List.lookup_cons,
        Sketch.mark, Sketch.figure, Sketch.content?]

theorem offset?_groupElement [Scalar.Listable α] (x y : α) (classPrefix : Option String) :
    Svg.offset? α ((groupElement x y).writtenAttributes classPrefix) =
      some (writtenOffset x y) := by
  rw [Svg.offset?, lookup_writtenAttributes _ _ (by decide), groupElement, transform, writtenOffset]
  by_cases h : (x == Scalar.zero && y == Scalar.zero) = true
  · obtain ⟨hx, hy⟩ := Bool.and_eq_true_iff.mp h
    simp [hx, hy]
  · have hmoved : (!(x == Scalar.zero) || !(y == Scalar.zero)) = true := by
      rw [← Bool.not_and, Bool.not_eq_true']
      exact eq_false_of_ne_true h
    rw [if_pos hmoved, if_neg h]
    exact Svg.translation?_text (Scalar.Listable.comma_not_mem x) (Scalar.text y)

mutual

theorem marks?_markup [Scalar.Listable α] (classPrefix : Option String)
    (offsets : List (String × String)) :
    (p : Picture α) → (p.markup classPrefix).marks? α offsets = some (p.marks offsets)
  | .sketch s => by
    have hshape : s.tag ≠ "g" := by cases s <;> simp [Sketch.tag]
    rw [markup, Svg.Markup.marks?, if_neg hshape, mark?_element, marks]
    rfl
  | .group x y parts => by
    rw [markup, Svg.Markup.marks?, if_pos rfl, offset?_groupElement, marks]
    exact marksAll?_markupAll classPrefix _ parts

theorem marksAll?_markupAll [Scalar.Listable α] (classPrefix : Option String)
    (offsets : List (String × String)) :
    (ps : List (Picture α)) →
      Svg.Markup.marksAll? α offsets (markupAll classPrefix ps) = some (marksAll offsets ps)
  | [] => rfl
  | p :: ps => by
    rw [markupAll, Svg.Markup.marksAll?, marks?_markup, marksAll?_markupAll, marksAll]
    rfl

end

end Picture
end Scene
