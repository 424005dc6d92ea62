import Scene.Proofs.Drawing.Markup
import Scene.Proofs.Svg.Graft
import Scene.Proofs.Svg.Walk

/-! Pictures as blocks of elements: an element is followed by all that is below it. A document that
holds the block of a picture has the markup of the picture there. -/
namespace Scene

namespace Svg.Document
variable {d : Document} {lo : Nat}

/-- The document has these elements in a row, the first at the given index. -/
def Holds (d : Document) (lo : Nat) (block : List Element) : Prop :=
  ∀ i e, block[i]? = some e → d.element? ⟨lo + i⟩ = some e

namespace Holds
variable {e : Element} {block block' : List Element}

theorem head (h : d.Holds lo (e :: block)) : d.element? ⟨lo⟩ = some e := h 0 e rfl

theorem tail (h : d.Holds lo (e :: block)) : d.Holds (lo + 1) block := by
  intro i f hf
  rw [Nat.add_assoc, Nat.add_comm 1]
  exact h (i + 1) f hf

theorem left (h : d.Holds lo (block ++ block')) : d.Holds lo block := by
  intro i f hf
  refine h i f ?_
  rw [List.getElem?_append_left (List.getElem?_eq_some_iff.mp hf).1]
  exact hf

theorem right (h : d.Holds lo (block ++ block')) : d.Holds (lo + block.length) block' := by
  intro i f hf
  rw [Nat.add_assoc]
  refine h (block.length + i) f ?_
  rw [List.getElem?_append_right (Nat.le_add_right _ _), Nat.add_sub_cancel_left]
  exact hf

end Holds

theorem holds_graft (d : Document) (parent : NodeId) (starts : List NodeId) (block : List Element) :
    (d.graft parent starts block).Holds d.nodes.size block := by
  intro i e he
  rw [element?_graft, if_neg (Nat.not_lt_of_le (Nat.le_add_right _ _)), Nat.add_sub_cancel_left]
  exact he

end Svg.Document

open Svg

namespace Picture

section
variable {α : Type}

mutual

def size : Picture α → Nat
  | .sketch _ => 1
  | .group _ _ parts => sizeAll parts + 1

def sizeAll : List (Picture α) → Nat
  | [] => 0
  | p :: ps => size p + sizeAll ps

end

theorem size_pos (p : Picture α) : 0 < p.size := by
  cases p with
  | sketch s => exact Nat.one_pos
  | group x y parts => exact Nat.succ_pos _

def starts (lo : Nat) : List (Picture α) → List NodeId
  | [] => []
  | p :: ps => ⟨lo⟩ :: starts (lo + p.size) ps

end

variable {α : Type} [Scalar α]

mutual

def elements (parent : NodeId) (lo : Nat) : Picture α → List Element
  | .sketch s => [{ s.element with parent := some parent }]
  | .group x y parts =>
    { groupElement x y with parent := some parent, children := starts (lo + 1) parts } ::
      elementsAll ⟨lo⟩ (lo + 1) parts

def elementsAll (parent : NodeId) (lo : Nat) : List (Picture α) → List Element
  | [] => []
  | p :: ps => elements parent lo p ++ elementsAll parent (lo + p.size) ps

end

mutual

theorem length_elements (parent : NodeId) (lo : Nat) :
    (p : Picture α) → (p.elements parent lo).length = p.size
  | .sketch s => rfl
  | .group x y parts => by
    rw [elements, List.length_cons, length_elementsAll, size]

theorem length_elementsAll (parent : NodeId) (lo : Nat) :
    (ps : List (Picture α)) → (elementsAll parent lo ps).length = sizeAll ps
  | [] => rfl
  | p :: ps => by
    rw [elementsAll, List.length_append, length_elements, length_elementsAll, sizeAll]

end

mutual

/-- The markup of a picture is found where its elements are; a picture is no deeper than it has
elements. -/
theorem subtree_of_holds {d : Document} {parent : NodeId} (classPrefix : Option String) :
    (p : Picture α) → {lo depth : Nat} → d.Holds lo (p.elements parent lo) → p.size ≤ depth →
      d.subtree classPrefix depth ⟨lo⟩ = .ends (some (p.markup classPrefix))
  | p, lo, 0, _, hdepth => absurd hdepth (Nat.not_le_of_lt p.size_pos)
  | .sketch s, lo, depth + 1, h, _ => by
    rw [elements] at h
    rw [Document.subtree, h.head, markup]
    rfl
  | .group x y parts, lo, depth + 1, h, hdepth => by
    rw [elements] at h
    have hparts := subtree_of_holdsAll classPrefix parts h.tail (Nat.le_of_succ_le_succ hdepth)
    have hall : ((markupAll classPrefix parts).map some).filterMap id =
        markupAll classPrefix parts := by simp
    rw [Document.subtree, h.head, markup]
    dsimp only
    rw [hparts]
    exact congrArg (fun ms => Walk.ends (some (Markup.element "g" _ none ms))) hall

theorem subtree_of_holdsAll {d : Document} {parent : NodeId} (classPrefix : Option String) :
    (ps : List (Picture α)) → {lo depth : Nat} → d.Holds lo (elementsAll parent lo ps) →
      sizeAll ps ≤ depth →
        (starts lo ps).mapM (d.subtree classPrefix depth) =
          .ends ((markupAll classPrefix ps).map some)
  | [], lo, depth, _, _ => rfl
  | p :: ps, lo, depth, h, hdepth => by
    rw [elementsAll] at h
    have hsizes : p.size + sizeAll ps ≤ depth := hdepth
    have hfirst := subtree_of_holds classPrefix p h.left (Nat.le_of_add_right_le hsizes)
    have hright := h.right
    rw [length_elements] at hright
    have hrest := subtree_of_holdsAll classPrefix ps hright (Nat.le_of_add_left_le hsizes)
    rw [starts, List.mapM_cons, hfirst, hrest]
    rfl

end

end Picture
end Scene
