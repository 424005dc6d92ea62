import Scene.Proofs.Drawing.Slots
import Scene.Proofs.Resolution.Shapes

/-! What painting adds to a document: one subtree, which looks the same wherever it is painted. -/
namespace Scene
open Svg
variable {φ α : Type} [Scalar α]

namespace Slot.Filled
variable {d : Document} {parent m : NodeId} (p : Picture α)

/-- The elements of a grafted picture are those that were not there before. -/
theorem below_graft_iff (hparent : d.contains parent = true) :
    (d.graft parent [d.nextId] (p.elements parent d.nodes.size)).Below d.nextId m ↔
      (d.graft parent [d.nextId] (p.elements parent d.nodes.size)).contains m = true ∧
        d.contains m = false := by
  rw [(graft hparent p).below_iff]
  simp [Covers, Document.nextId, Document.contains, p.length_elements, and_comm]

end Slot.Filled

/-- A renderable of built-in shapes, however they are nested, can be painted below any element of any
document. A new element comes behind the children of that one; what was there keeps all that it
holds, its parent and its children; what is new hangs from the new element; and that is written as it
is in every other document. -/
theorem painting_adds_subtree (r : Renderable φ α) (hr : r.OfShapes) :
    ∃ written : Settings.Writing → String, ∀ d parent, d.contains parent = true →
      ∃ n d', (r.paintSvg parent).run d = (.ok (some n), d') ∧ d.contains n = false ∧
        d'.children parent = d.children parent ++ [n] ∧ d'.parent? n = some parent ∧
        (∀ m, d.contains m = true → d'.element? m =
          if m = parent then (d.element? m).map fun e => e.adopt [n] else d.element? m) ∧
        (∀ m, d'.Below n m ↔ d'.contains m = true ∧ d.contains m = false) ∧
        ∀ settings, d'.fragmentText n settings = .ends (written settings) := by
  obtain ⟨p, hdepicts⟩ := hr.exists_picture
  refine ⟨fun settings => (p.markup settings.classPrefix).write settings.indent 0,
    fun d parent hparent => ?_⟩
  have hfilled := Slot.Filled.graft hparent p
  refine ⟨d.nextId, _, hdepicts.svg d parent hparent, ?_, Document.children_graft hparent _ _,
    hfilled.parent?_node, fun m hm => ?_, fun m => Slot.Filled.below_graft_iff p hparent,
    hfilled.fragmentText⟩
  · simp [Document.contains, Document.nextId]
  · rw [Document.element?_graft, if_pos (Document.index_lt_of_contains hm)]
    simp only [eq_comm]

def pearl : Renderable Empty Exact :=
  (Shape.circle.draft [("fill", .string "white"), ("r", .number (.fin 5))]).node 1

def drop : Renderable Empty Exact :=
  (Shape.group.draft (Shape.withChildren [("x", .number (.fin 2))] [pearl])).node 2

def pendant : Renderable Empty Exact :=
  (Shape.group.draft (Shape.withChildren [] [pearl, drop])).node 3

theorem pendant_ofShapes : pendant.OfShapes := by
  have hpearl : pearl.OfShapes := Shape.node_ofShapes (fun h => absurd h (by decide)) 1
  have hdrop : drop.OfShapes := by
    refine Shape.node_ofShapes (fun _ c hc => ?_) 2
    rw [Shape.children_withChildren] at hc
    exact List.mem_singleton.mp hc ▸ hpearl
  refine Shape.node_ofShapes (fun _ c hc => ?_) 3
  rw [Shape.children_withChildren] at hc
  rcases List.mem_pair.mp hc with rfl | rfl
  · exact hpearl
  · exact hdrop

/-- Also below an element that is below itself, and just as below the root of a new document. -/
theorem pendant_adds_subtree : pendant.OfShapes ∧ Document.embraced.contains ⟨2⟩ = true ∧
    ∃ n d' m fresh, (pendant.paintSvg ⟨2⟩).run Document.embraced = (.ok (some n), d') ∧
      (pendant.paintSvg Document.root).run .create = (.ok (some m), fresh) ∧
      d'.children ⟨2⟩ = [⟨1⟩, n] ∧ d'.children ⟨1⟩ = [⟨2⟩] ∧ d'.parent? n = some ⟨2⟩ ∧
      (∀ m, d'.Below n m ↔ d'.contains m = true ∧ Document.embraced.contains m = false) ∧
      ∀ settings, ∃ text,
        d'.fragmentText n settings = .ends text ∧ fresh.fragmentText m settings = .ends text := by
  obtain ⟨written, hpaint⟩ := painting_adds_subtree pendant pendant_ofShapes
  obtain ⟨n, d', hrun, -, hchildren, hparent, hkept, hbelow, htext⟩ :=
    hpaint Document.embraced ⟨2⟩ rfl
  obtain ⟨m, fresh, hfresh, -, -, -, -, -, htext'⟩ := hpaint .create Document.root rfl
  have hother : d'.children ⟨1⟩ = Document.embraced.children ⟨1⟩ := by
    rw [Document.children, hkept ⟨1⟩ rfl]
    rfl
  exact ⟨pendant_ofShapes, rfl, n, d', m, fresh, hrun, hfresh, hchildren, hother, hparent, hbelow,
    fun settings => ⟨written settings, htext settings, htext' settings⟩⟩

example : (((pendant.paintSvg Document.root).run .create).2.fragmentText ⟨1⟩ .compact) =
    .ends ("<g class=\"group\"><circle cx=\"0\" cy=\"0\" r=\"5\" fill=\"white\" " ++
      "class=\"circle\"/><g transform=\"translate(2,0)\" class=\"group\"><circle cx=\"0\" " ++
      "cy=\"0\" r=\"5\" fill=\"white\" class=\"circle\"/></g></g>") := by
  decide +kernel

end Scene
