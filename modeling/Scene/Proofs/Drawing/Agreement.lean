import Scene.Proofs.Resolution.Shapes
import Scene.Scalar.Exact

/-! The two ways to draw agree. What is seen of a renderable of shapes in a document is what is seen
of it on a canvas. -/
namespace Scene
open Resolution
variable {φ α : Type} [Scalar α]

namespace Renderable
variable [Scalar.Listable α] {r : Renderable φ α} {p : Picture α}

theorem Depicts.svg_marks (h : r.Depicts p) {d : Svg.Document} {parent : Svg.NodeId}
    (hparent : d.contains parent = true) :
    ∃ n d', (r.paintSvg parent).run d = (.ok (some n), d') ∧
      ∀ classPrefix, ∃ m, d'.markup classPrefix n = .ends (some m) ∧
        m.marks? α [] = some (p.marks []) := by
  refine ⟨_, _, h.svg d parent hparent, fun classPrefix => ?_⟩
  refine ⟨p.markup classPrefix, ?_, p.marks?_markup classPrefix []⟩
  refine Picture.subtree_of_holds classPrefix p (Svg.Document.holds_graft d parent _ _) ?_
  rw [Svg.Document.size_graft, Picture.length_elements]
  omega

end Renderable

/-- What is resolved from a spec of shapes can be painted in every document and on every canvas, and
shows the same there: the shapes that are read from the markup of the new element, in document
order, are those that its calls show, which restore just what they saved. -/
theorem paintings_agree [Scalar.Listable α] (s : Surroundings φ α) (w : Workspace φ α)
    (hframes : w.registry.KnowsFrames) (spec : Spec φ α)
    (hspec : Visual.OfShapes s w.registry (.spec spec)) (container : Option (Container α))
    (r : Renderable φ α) (w' : Workspace φ α)
    (hresolve : Engine.resolve s (.spec spec) container w = some (.ok r, w')) :
    ∃ marks : List Mark,
      (∀ d parent, d.contains parent = true →
        ∃ n d', (r.paintSvg parent).run d = (.ok (some n), d') ∧
          ∀ classPrefix, ∃ m, d'.markup classPrefix n = .ends (some m) ∧
            m.marks? α [] = some marks) ∧
      ∀ recording, ∃ calls,
        r.paintCanvas.run recording =
          (.ok true, { recording with commands := recording.commands ++ calls.toArray }) ∧
        Canvas.Balanced calls ∧ Canvas.marks? calls = some marks := by
  obtain ⟨-, hr⟩ := Sound.engine hframes (.spec spec) container hspec w r w' rfl hresolve
  obtain ⟨p, hp⟩ := hr.exists_picture
  refine ⟨p.marks [], fun d parent hparent => hp.svg_marks hparent, fun recording => ?_⟩
  exact ⟨p.calls, hp.canvas recording, p.balanced_calls, p.marks?_calls⟩

def gallery : Surroundings Empty Exact where
  settings := ⟨8, (.fin 800, .fin 400), ⟨0, .fin (1 / 1000000), true⟩⟩
  backend := fun _ _ => .ok [.fin 0, .fin 0, .fin 800, .fin 400]
  meaning := .none

def shapeDefinition (s : Shape) : Definition Empty Exact where
  name := s.name
  properties := Dict.ofList s.properties
  implementation := .shape s
  extends? := none
  validators := []
  layout? := if s = .frame then some .fit else none

theorem implementation_shapeDefinition (s : Shape) :
    (shapeDefinition s).implementation = .shape s := rfl

def badge : Declaration Empty Exact where
  name := "badge"
  properties := [("fill", Shape.colourOr "gold")]
  implementation? := none
  extends? := some "rect"
  validate? := none
  layout? := none

def badgeDefinition : Definition Empty Exact :=
  { shapeDefinition .rect with
    name := "badge"
    properties := Dict.overlay (shapeDefinition .rect).properties badge.properties
    extends? := some "rect" }

theorem build_badge : badge.build? (some (shapeDefinition .rect)) = .ok badgeDefinition := rfl

def hung : Workspace Empty Exact where
  registry :=
    [("badge", badgeDefinition), ("circle", shapeDefinition .circle),
      ("frame", shapeDefinition .frame), ("group", shapeDefinition .group),
      ("line", shapeDefinition .line), ("rect", shapeDefinition .rect),
      ("text", shapeDefinition .text)]
  warnings := #[]
  nextNode := 0

theorem hung_knowsFrames : hung.registry.KnowsFrames := by
  intro s hs
  rcases List.mem_pair.mp hs with rfl | rfl <;> exact ⟨_, rfl, rfl⟩

def ofNumbers (typeName : String) (numbers : List (String × Nat)) : Spec Empty Exact :=
  ⟨typeName, numbers.map fun e => (e.1, .number (.fin e.2))⟩

def exhibit : Spec Empty Exact where
  typeName := "frame"
  props :=
    [("background", .string "white"),
      ("children", .array
        ([ofNumbers "badge" [("height", 20), ("width", 30)],
          ofNumbers "line" [("strokeWidth", 5), ("x1", 1), ("x2", 2), ("y1", 3), ("y2", 4)],
          (ofNumbers "circle" [("r", 6)]).set "stroke" (.string "red")].map Spec.toValue)),
      ("padding", .number (.fin 2))]

theorem exhibit_ofShapes : Visual.OfShapes gallery hung.registry (.spec exhibit) := by
  have hbadge : badgeDefinition.implementation = .shape .rect :=
    Declaration.implementation_of_extends rfl build_badge
  refine Shape.nesting_ofShapes rfl (implementation_shapeDefinition .frame) rfl fun x hx v hv => ?_
  obtain ⟨part, hpart, rfl⟩ := List.mem_map.mp hx
  obtain ⟨spec, rfl, htype, -⟩ := Spec.ofValue?_toValue hv
  simp only [List.mem_cons, List.not_mem_nil, or_false] at hpart
  rcases hpart with rfl | rfl | rfl
  · exact Shape.leaf_ofShapes (htype ▸ rfl) hbadge rfl
  · exact Shape.leaf_ofShapes (htype ▸ rfl) (implementation_shapeDefinition .line) rfl
  · exact Shape.leaf_ofShapes (htype ▸ rfl) (implementation_shapeDefinition .circle) rfl

def resolved? (x : Option (Except (ResolveError Exact) (Renderable Empty Exact) ×
    Workspace Empty Exact)) : Option (Renderable Empty Exact) :=
  match x with
  | some (.ok r, _) => some r
  | _ => none

theorem resolves_of_isSome {x : Option (Except (ResolveError Exact) (Renderable Empty Exact) ×
    Workspace Empty Exact)} (h : (resolved? x).isSome = true) : ∃ r w, x = some (.ok r, w) := by
  obtain _ | ⟨_ | r, w⟩ := x
  · cases h
  · cases h
  · exact ⟨r, w, rfl⟩

theorem refuses_of_isNone {x : Option (Except (ResolveError Exact) (Renderable Empty Exact) ×
    Workspace Empty Exact)} (hends : x.isSome = true) (h : (resolved? x).isNone = true) :
    ∃ e w, x = some (.error e, w) := by
  obtain _ | ⟨e | r, w⟩ := x
  · cases hends
  · exact ⟨e, w, rfl⟩
  · cases h

theorem exhibit_agrees :
    hung.registry.KnowsFrames ∧ Visual.OfShapes gallery hung.registry (.spec exhibit) ∧
      ∃ r w' marks, Engine.resolve gallery (.spec exhibit) none hung = some (.ok r, w') ∧
        (∀ d parent, d.contains parent = true →
          ∃ n d', (r.paintSvg parent).run d = (.ok (some n), d') ∧
            ∀ classPrefix, ∃ m, d'.markup classPrefix n = .ends (some m) ∧
              m.marks? Exact [] = some marks) ∧
        ∀ recording, ∃ calls,
          r.paintCanvas.run recording =
            (.ok true, { recording with commands := recording.commands ++ calls.toArray }) ∧
          Canvas.Balanced calls ∧ Canvas.marks? calls = some marks := by
  obtain ⟨r, w', hresolve⟩ : ∃ r w', Engine.resolve gallery (.spec exhibit) none hung =
      some (.ok r, w') := resolves_of_isSome (by decide +kernel)
  obtain ⟨marks, hmarks⟩ :=
    paintings_agree gallery hung hung_knowsFrames exhibit exhibit_ofShapes none r w' hresolve
  exact ⟨hung_knowsFrames, exhibit_ofShapes, r, w', marks, hresolve, hmarks⟩

example :
    (resolved? (Engine.resolve gallery (.spec exhibit) none hung)).bind
        (fun r => Canvas.marks? (r.paintCanvas.run (.create none)).2.commands.toList) =
      some
        [⟨.rect "0" "0" "800" "400", [("0", "0")], some "white", none⟩,
          ⟨.rect "0" "0" "30" "20", [("0", "0"), ("2", "2")], some "gold", none⟩,
          ⟨.line "1" "3" "2" "4" "5", [("0", "0"), ("2", "2")], none, some "black"⟩,
          ⟨.circle "0" "0" "6", [("0", "0"), ("2", "2")], some "black", some "red"⟩] := by
  decide +kernel

end Scene
