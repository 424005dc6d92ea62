import Mathlib.Data.List.Induction
import Scene.Proofs.Svg.Links

/-! Edits of a document, and the documents they lead to from an empty one. In these the links agree,
and no edit changes an element that is not there. -/
namespace Scene.Svg

inductive Edit where
  | createElement (tag : String)
  | append (parent : NodeId) (tag : String)
  | appendChild (parent child : NodeId)
  | detach (n : NodeId)
  | replace (old new : NodeId)
  | setAttribute (n : NodeId) (name value : String)
  | addClass (n : NodeId) (name : String)
  | setText (n : NodeId) (text : String)

namespace Edit

def apply (d : Document) : Edit → Document
  | .createElement tag => (d.createElement tag).2
  | .append parent tag => (d.append parent tag).2
  | .appendChild parent child => (d.appendChild parent child).1
  | .detach n => (d.detach n).1
  | .replace old new => (d.replace old new).1
  | .setAttribute n name value => d.setAttribute n name value
  | .addClass n name => d.addClass n name
  | .setText n text => d.setText n text

end Edit

namespace Document
variable {d : Document} {n p c old new : NodeId}

def edited (edits : List Edit) : Document := edits.foldl Edit.apply create

@[simp] theorem edited_concat (edits : List Edit) (e : Edit) :
    edited (edits ++ [e]) = e.apply (edited edits) := by
  simp [edited]

theorem Linked.createElement (h : d.Linked) (tag : String) : (d.createElement tag).2.Linked :=
  h.congr (children_createElement d tag) (parent?_createElement d tag)

theorem append_eq (d : Document) (p : NodeId) (tag : String) :
    (d.append p tag).2 = ((d.createElement tag).2.appendChild p ⟨d.nodes.size⟩).1 := rfl

theorem Linked.apply (h : d.Linked) (e : Edit) : (e.apply d).Linked := by
  cases e with
  | createElement tag => exact h.createElement tag
  | append parent tag => exact (h.createElement tag).appendChild parent _
  | appendChild parent child => exact h.appendChild parent child
  | detach n => exact h.detach n
  | replace old new => exact h.replace old new
  | setAttribute n name value =>
    exact h.congr (children_setAttribute d n · name value) (parent?_setAttribute d n · name value)
  | addClass n name => exact h.congr (children_addClass d n · name) (parent?_addClass d n · name)
  | setText n text => exact h.congr (children_setText d n · text) (parent?_setText d n · text)

theorem linked_edited (edits : List Edit) : (edited edits).Linked := by
  induction edits using List.reverseRecOn with
  | nil => exact linked_create
  | append_singleton edits e ih =>
    rw [edited_concat]
    exact ih.apply e

/-- Elements stay, if only outside the tree. -/
theorem contains_apply (h : d.contains n = true) (e : Edit) : (e.apply d).contains n = true := by
  cases e with
  | createElement tag => exact contains_createElement h tag
  | append parent tag =>
    rw [Edit.apply, append_eq, contains_appendChild]
    exact contains_createElement h tag
  | appendChild parent child => rwa [Edit.apply, contains_appendChild]
  | detach m => rwa [Edit.apply, contains_detach]
  | replace old new => rwa [Edit.apply, contains_replace]
  | setAttribute m name value => rwa [Edit.apply, setAttribute, contains_modify]
  | addClass m name => rwa [Edit.apply, addClass, contains_modify]
  | setText m text => rwa [Edit.apply, setText, contains_modify]

theorem contains_root_edited (edits : List Edit) : (edited edits).contains root = true := by
  induction edits using List.reverseRecOn with
  | nil => rfl
  | append_singleton edits e ih =>
    rw [edited_concat]
    exact contains_apply ih e

/-! The same calls where an element that is changed by its number has to be there. -/

def modifyAt? (d : Document) (n : NodeId) (f : Element → Element) : Option Document :=
  if d.contains n then some (d.modify n f) else none

def detach? (d : Document) (n : NodeId) : Option Document :=
  match d.parent? n with
  | none => some d
  | some p => do
    let d ← d.modifyAt? p fun e => { e with children := e.children.filter (· ≠ n) }
    d.modifyAt? n fun e => { e with parent := none }

def appendChild? (d : Document) (parent child : NodeId) : Option Document :=
  if !d.contains parent || !d.contains child || parent = child then some d
  else do
    let d ← d.detach? child
    let d ← d.modifyAt? parent fun e => { e with children := e.children ++ [child] }
    d.modifyAt? child fun e => { e with parent := some parent }

def replace? (d : Document) (old new : NodeId) : Option Document :=
  match d.parent? old with
  | none => some d
  | some p =>
    if !d.contains new || old = new then some d
    else do
      let d ← d.detach? new
      let d ← d.modifyAt? p fun e => { e with children := substitute old new e.children }
      let d ← d.modifyAt? old fun e => { e with parent := none }
      d.modifyAt? new fun e => { e with parent := some p }

theorem detach?_eq (h : d.Linked) (n : NodeId) : d.detach? n = some (d.detach n).1 := by
  rw [detach?, detach]
  cases hp : d.parent? n with
  | none => rfl
  | some p =>
    have hparent := h.contains_parent hp
    have hchild := contains_of_parent? hp
    simp [modifyAt?, hparent, hchild, unlink]

theorem appendChild?_eq (h : d.Linked) (p c : NodeId) :
    d.appendChild? p c = some (d.appendChild p c).1 := by
  rw [appendChild?, appendChild]
  split
  · rfl
  · next hok =>
    simp only [Bool.or_eq_true, Bool.not_eq_true', decide_eq_true_eq, not_or,
      Bool.not_eq_false] at hok
    simp [detach?_eq h, modifyAt?, hok]

theorem replace?_eq (h : d.Linked) (old new : NodeId) :
    d.replace? old new = some (d.replace old new).1 := by
  rw [replace?, replace]
  cases hp : d.parent? old with
  | none => rfl
  | some p =>
    dsimp only
    split
    · rfl
    · next hok =>
      simp only [Bool.or_eq_true, Bool.not_eq_true', decide_eq_true_eq, not_or,
        Bool.not_eq_false] at hok
      simp [detach?_eq h, modifyAt?, hok, h.contains_parent hp, contains_of_parent? hp]

end Document

/-- The edit where every element that it changes by its number has to be there. An attribute, a class
or a text is set only on an element that was found. -/
def Edit.apply? (d : Document) : Edit → Option Document
  | .createElement tag => some (d.createElement tag).2
  | .append parent tag => (d.createElement tag).2.appendChild? parent ⟨d.nodes.size⟩
  | .appendChild parent child => d.appendChild? parent child
  | .detach n => d.detach? n
  | .replace old new => d.replace? old new
  | .setAttribute n name value => some (d.setAttribute n name value)
  | .addClass n name => some (d.addClass n name)
  | .setText n text => some (d.setText n text)

namespace Document

theorem apply?_eq {d : Document} (h : d.Linked) (e : Edit) : e.apply? d = some (e.apply d) := by
  cases e with
  | append parent tag => exact appendChild?_eq (h.createElement tag) parent _
  | appendChild parent child => exact appendChild?_eq h parent child
  | detach n => exact detach?_eq h n
  | replace old new => exact replace?_eq h old new
  | _ => rfl

/-- Whatever elements edits name, be they detached or missing: an element is among the children of
another exactly where that one is its parent, it is there once, both are there, and no edit reaches
for an element that is not. -/
theorem links_agree (edits : List Edit) :
    (∀ c p, c ∈ (edited edits).children p ↔ (edited edits).parent? c = some p) ∧
      (∀ p, ((edited edits).children p).Nodup) ∧
      (∀ p, ∀ c ∈ (edited edits).children p, (edited edits).contains c = true) ∧
      (∀ c, ∀ p ∈ (edited edits).parent? c, (edited edits).contains p = true) ∧
      ∀ e : Edit, e.apply? (edited edits) = some (e.apply (edited edits)) := by
  have h := linked_edited edits
  refine ⟨h.agree, h.nodup, ?_, ?_, apply?_eq h⟩
  · intro p c hc
    exact h.contains_child hc
  · intro c p hp
    exact h.contains_parent hp

end Document
end Scene.Svg
