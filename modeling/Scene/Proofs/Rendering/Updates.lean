import Scene.Proofs.Drawing.Agreement
import Scene.Proofs.Rendering.Places

/-! Calls one after another. Whatever is drawn below one element and updated there, in any order,
the renderings keep their order, and each shows what it would show alone. -/
namespace Scene
open Svg Board
variable {φ α : Type} [Scalar α]

namespace Arranged
variable {d : Document} {parent : NodeId} {places : List (Place φ α)}

theorem step (h : Arranged d parent places) {a : Action φ α}
    (ha : a.Suits (places.map (·.rendering.renderable))) :
    ∃ d' places', a.Rearranges parent d d' places places' := by
  cases a with
  | render r => exact h.render ha
  | update s w index partials =>
    cases hplace : places[index]? with
    | none =>
      refine ⟨d, places, ?_, h, ?_, fun i p _ hp => ⟨hp, fun _ _ => rfl⟩⟩
      · simp [Action.apply, holding, hplace]
      · simp [Action.shown, hplace]
    | some place =>
      have hrenderable := Place.getElem?_renderables hplace
      obtain ⟨result, w', hbuild, hshapes⟩ := ha _ hrenderable
      cases result with
      | ok r => exact h.update hplace (hshapes r rfl) hbuild
      | error e =>
        have hfound : (Board.holding d parent places).renderings[index]? =
            some place.rendering := Board.getElem?_renderings hplace
        refine ⟨d, places, Action.apply_update_of_error hfound hbuild, h, ?_,
          fun i p _ hp => ⟨hp, fun _ _ => rfl⟩⟩
        rw [Action.shown, hrenderable]
        simp [hbuild]

theorem run (h : Arranged d parent places) {calls : List (Action φ α)}
    (hcalls : Suited (places.map (·.rendering.renderable)) calls) :
    ∃ d' places',
      calls.foldlM Action.apply (.holding d parent places) = some (.holding d' parent places') ∧
        Arranged d' parent places' ∧
        places'.map (·.rendering.renderable) =
          calls.foldl Action.shown (places.map (·.rendering.renderable)) := by
  induction calls generalizing d places with
  | nil => exact ⟨d, places, rfl, h, rfl⟩
  | cons a calls ih =>
    obtain ⟨ha, hcalls⟩ := hcalls
    obtain ⟨d', places', hstep⟩ := h.step ha
    rw [← hstep.shown_eq] at hcalls
    obtain ⟨d'', places'', hrun, h'', hshown⟩ := ih hstep.arranged hcalls
    refine ⟨d'', places'', ?_, h'', ?_⟩
    · rw [List.foldlM_cons, hstep.apply_eq]
      exact hrun
    · rw [List.foldl_cons, ← hstep.shown_eq, hshown]

end Arranged

theorem Board.suited_concat {rs : List (Renderable φ α)} {calls : List (Action φ α)}
    {a : Action φ α} :
    Suited rs (calls ++ [a]) ↔ Suited rs calls ∧ a.Suits (calls.foldl Action.shown rs) := by
  induction calls generalizing rs with
  | nil => simp [Suited]
  | cons c calls ih => simp [Suited, ih, and_assoc]

/-- What is drawn in a slot is written as it would be in a document of its own. -/
theorem Place.Stands.fragmentText_fresh {d : Document} {parent : NodeId} {p : Place φ α}
    (h : p.Stands d parent) :
    ∃ m fresh,
      (p.rendering.renderable.paintSvg Document.root).run Document.create = (.ok (some m), fresh) ∧
        ∀ settings, ∃ text, fresh.fragmentText m settings = .ends text ∧
          d.fragmentText p.slot.node settings = .ends text := by
  have hroot : Document.create.contains Document.root = true := rfl
  refine ⟨_, _, h.depicts.svg _ _ hroot, fun settings => ⟨_, ?_, h.filled.fragmentText settings⟩⟩
  exact (Slot.Filled.graft hroot p.slot.picture).fragmentText settings

/-- Renderings below one element that had no children, drawn and updated in any order. After each
call the children are the elements of the renderings, in the order in which they were first drawn;
each is written as its renderable would be in an empty document; and whatever belongs to a rendering
that was not updated is as before. -/
theorem renderings_keep_places (start : Document) (parent : NodeId)
    (hparent : start.contains parent = true) (hempty : start.children parent = [])
    (calls : List (Action φ α)) (last : Action φ α) (hsuited : Suited [] (calls ++ [last])) :
    ∃ b d b' d',
      calls.foldlM Action.apply ⟨.svg start parent, []⟩ = some b ∧ b.surface = .svg d parent ∧
      last.apply b = some b' ∧ b'.surface = .svg d' parent ∧
      b'.renderings.map (·.renderable) = (calls ++ [last]).foldl Action.shown [] ∧
      b'.renderings.map (·.drawn) = (d'.children parent).map (fun n => .svg (some n)) ∧
      (∀ h ∈ b'.renderings, ∀ n, h.drawn = .svg (some n) →
        ∃ m fresh,
          (h.renderable.paintSvg Document.root).run Document.create = (.ok (some m), fresh) ∧
            ∀ settings, ∃ text, fresh.fragmentText m settings = .ends text ∧
              d'.fragmentText n settings = .ends text) ∧
      ∀ i h n, last.target? ≠ some i → b.renderings[i]? = some h → h.drawn = .svg (some n) →
        b'.renderings[i]? = some h ∧ ∀ m, d.Below n m → d'.element? m = d.element? m := by
  obtain ⟨hcalls, hlast⟩ := suited_concat.mp hsuited
  obtain ⟨d, places, hrun, h, hshown⟩ :=
    (Arranged.nil (φ := φ) (α := α) hparent hempty).run hcalls
  rw [List.map_nil] at hshown
  rw [← hshown] at hlast
  obtain ⟨d', places', happly, h', hshown', hspares⟩ := h.step hlast
  refine ⟨.holding d parent places, d, .holding d' parent places', d', hrun, rfl, happly, rfl, ?_,
    ?_, ?_, ?_⟩
  · rw [List.foldl_concat, ← hshown, ← hshown', holding, List.map_map]
    rfl
  · rw [holding, h'.children_eq, List.map_map, List.map_map]
    exact List.map_congr_left fun p hp => (h'.stands_of_mem hp).drawn_eq
  · intro rendering hmem n hdrawn
    obtain ⟨p, hp, rfl⟩ := List.mem_map.mp hmem
    have hstands := h'.stands_of_mem hp
    obtain rfl : n = p.slot.node := by simpa [hstands.drawn_eq] using hdrawn.symm
    exact hstands.fragmentText_fresh
  · intro i rendering n hother hfound hdrawn
    rw [holding, List.getElem?_map] at hfound
    obtain ⟨p, hp, rfl⟩ := Option.map_eq_some_iff.mp hfound
    obtain ⟨hp', hsame⟩ := hspares i p hother hp
    have hstands := h.stands i p hp
    obtain rfl : n = p.slot.node := by simpa [hstands.drawn_eq] using hdrawn.symm
    exact ⟨Board.getElem?_renderings hp',
      fun m hm => hsame m (hstands.filled.covers_of_below hm)⟩

/-- What comes of an update in the gallery is of shapes where its spec is. -/
theorem Board.Action.suits_gallery {rs : List (Renderable Empty Exact)} {index : Nat}
    {partials : Props Empty Exact} {r : Renderable Empty Exact} (hr : rs[index]? = some r)
    (hspec : Visual.OfShapes gallery hung.registry (.spec (r.revised partials)))
    (hends : (Engine.update gallery r partials hung).isSome = true) :
    (Action.update gallery hung index partials).Suits rs := by
  intro r' hr'
  obtain rfl : r = r' := Option.some.inj (hr.symm.trans hr')
  obtain ⟨⟨result, w'⟩, hupdate⟩ := Option.isSome_iff_exists.mp hends
  refine ⟨result, w', hupdate, fun r' hresult => ?_⟩
  rw [hresult] at hupdate
  have hsound := Resolution.Sound.engine hung_knowsFrames _ none hspec
  exact (hsound hung r' w' rfl hupdate).2

def disc : Renderable Empty Exact :=
  (Shape.circle.draft [("fill", .string "red"), ("r", .number (.fin 5))]).node 1

def sign : Renderable Empty Exact :=
  (Shape.group.draft (Shape.withChildren [("x", .number (.fin 2))] [disc])).node 2

def mishap : Action Empty Exact := .update gallery hung 1 [("type", .string "badge")]

def makeover : Action Empty Exact :=
  .update gallery hung 0
    [("height", .number (.fin 4)), ("type", .string "badge"), ("width", .number (.fin 3))]

theorem shown_mishap : Action.shown [disc, sign] mishap = [disc, sign] := by
  have hnone : resolved? (Engine.update gallery sign [("type", .string "badge")] hung) = none :=
    Option.isNone_iff_eq_none.mp (by decide +kernel)
  rw [mishap, Action.shown]
  split
  · next hok =>
    change Engine.update gallery sign [("type", .string "badge")] hung = _ at hok
    rw [hok] at hnone
    cases hnone
  · rfl

theorem suited_makeover : Suited [] ([.render disc, .render sign, mishap] ++ [makeover]) := by
  have hdisc : disc.OfShapes := Shape.node_ofShapes (fun h => absurd h (by decide)) 1
  have hsign : sign.OfShapes := by
    refine Shape.node_ofShapes (fun _ c hc => ?_) 2
    rw [Shape.children_withChildren] at hc
    exact List.mem_singleton.mp hc ▸ hdisc
  have hbadge : badgeDefinition.implementation = .shape .rect :=
    Declaration.implementation_of_extends rfl build_badge
  have hmishap : mishap.Suits [disc, sign] :=
    Action.suits_gallery (r := sign) rfl (Shape.leaf_ofShapes rfl hbadge rfl) (by decide +kernel)
  have hmakeover : makeover.Suits [disc, sign] :=
    Action.suits_gallery (r := disc) rfl (Shape.leaf_ofShapes rfl hbadge rfl) (by decide +kernel)
  rw [suited_concat]
  refine ⟨⟨hdisc, hsign, hmishap, trivial⟩, ?_⟩
  change makeover.Suits (Action.shown [disc, sign] mishap)
  rw [shown_mishap]
  exact hmakeover

theorem makeover_keeps_places :
    Document.create.contains Document.root = true ∧ Document.create.children Document.root = [] ∧
      Suited [] ([.render disc, .render sign, mishap] ++ [makeover]) ∧
      ∃ b b' d',
        [.render disc, .render sign, mishap].foldlM Action.apply
          ⟨.svg .create Document.root, []⟩ = some b ∧
        makeover.apply b = some b' ∧ b'.surface = .svg d' Document.root ∧
        b'.renderings.map (·.renderable.kind) = ["rect", "group"] ∧
        b'.renderings.map (·.drawn) =
          (d'.children Document.root).map (fun n => .svg (some n)) ∧
        ∀ h ∈ b'.renderings, ∀ n, h.drawn = .svg (some n) →
          ∃ m fresh,
            (h.renderable.paintSvg Document.root).run Document.create = (.ok (some m), fresh) ∧
              ∀ settings, ∃ text, fresh.fragmentText m settings = .ends text ∧
                d'.fragmentText n settings = .ends text := by
  obtain ⟨b, d, b', d', hrun, -, happly, hsurface, hshown, hdrawn, hwritten, -⟩ :=
    renderings_keep_places .create Document.root rfl rfl [.render disc, .render sign, mishap]
      makeover suited_makeover
  have hkinds := congrArg (List.map (·.kind)) hshown
  rw [List.map_map] at hkinds
  refine ⟨rfl, rfl, suited_makeover, b, b', d', hrun, happly, hsurface, hkinds.trans ?_, hdrawn,
    hwritten⟩
  decide +kernel

end Scene
