import Scene.Rendering
import Scene.Proofs.Drawing.Slots
import Scene.Proofs.Resolution.Run

/-! Renderings side by side below one element. Drawing and updating them, in any order, keeps each
rendering in its place: it starts a slot of its own, and a call changes no other slot. -/
namespace Scene
open Svg
variable {φ α : Type}

structure Board (φ α : Type) where
  surface : Surface α
  renderings : List (Rendering φ α)

/-- A call that draws on a board. An update has the engine of its time. -/
inductive Board.Action (φ α : Type) where
  | render (r : Renderable φ α)
  | update (s : Surroundings φ α) (w : Workspace φ α) (index : Nat) (partials : Props φ α)

namespace Board.Action

def target? : Action φ α → Option Nat
  | .render _ => none
  | .update _ _ index _ => some index

variable [Scalar α]

def apply (b : Board φ α) : Action φ α → Option (Board φ α)
  | .render r =>
    match Rendering.render r b.surface with
    | (.ok h, surface) => some ⟨surface, b.renderings ++ [h]⟩
    | (.error _, surface) => some ⟨surface, b.renderings⟩
  | .update s w index partials =>
    match b.renderings[index]? with
    | none => some b
    | some h =>
      match Rendering.update s h partials b.surface w with
      | some (.ok (.ok h, surface), _) => some ⟨surface, b.renderings.set index h⟩
      | some (.ok (.error _, surface), _) => some ⟨surface, b.renderings⟩
      | _ => none

def shown (rs : List (Renderable φ α)) : Action φ α → List (Renderable φ α)
  | .render r => rs ++ [r]
  | .update s w index partials =>
    match rs[index]?.bind fun r => Engine.update s r partials w with
    | some (.ok r, _) => rs.set index r
    | _ => rs

def Suits (rs : List (Renderable φ α)) : Action φ α → Prop
  | .render r => r.OfShapes
  | .update s w index partials =>
    ∀ r, rs[index]? = some r →
      ∃ result w', Engine.update s r partials w = some (result, w') ∧
        ∀ r', result = .ok r' → r'.OfShapes

end Board.Action

def Board.Suited [Scalar α] : List (Renderable φ α) → List (Board.Action φ α) → Prop
  | _, [] => True
  | rs, a :: rest => a.Suits rs ∧ Suited (a.shown rs) rest

namespace Rendering
variable [Scalar α] {r : Renderable φ α} {p : Picture α} {d : Document} {parent old : NodeId}

theorem render_svg (h : r.Depicts p) (hparent : d.contains parent = true) :
    render r (.svg d parent) =
      (.ok ⟨r, .svg (some d.nextId)⟩,
        .svg (d.graft parent [d.nextId] (p.elements parent d.nodes.size)) parent) := by
  have hswap : (swapIn r parent none).Gives d (some d.nextId)
      (d.graft parent [d.nextId] (p.elements parent d.nodes.size)) :=
    (h.svg d parent hparent).bind (.pure _ _)
  rw [render, drawOn, hswap]
  rfl

theorem drawOn_svg (h : r.Depicts p) (hparent : d.contains parent = true) (old : NodeId) :
    drawOn r (some old) (.svg d parent) =
      (.ok (.svg (some d.nextId)),
        .svg (d.exchange parent old (p.elements parent d.nodes.size)) parent) := by
  have hswap : (swapIn r parent (some old)).Gives d (some d.nextId)
      (d.exchange parent old (p.elements parent d.nodes.size)) :=
    (h.svg d parent hparent).bind rfl
  rw [drawOn, hswap]
  rfl

variable {s : Surroundings φ α} {h : Rendering φ α} {partials : Props φ α} {w w' : Workspace φ α}
  {surface : Surface α}

theorem update_of_error {e : ResolveError α}
    (hbuild : Engine.update s h.renderable partials w = some (.error e, w')) :
    update s h partials surface w = some (.ok (.error (.build e), surface), w') := by
  rw [update, Resolve.bind_run, Resolve.attempt_run hbuild]
  rfl

theorem update_of_ok (hbuild : Engine.update s h.renderable partials w = some (.ok r, w')) :
    update s h partials surface w =
      some (.ok (((drawOn r h.drawn.element? surface).1.map fun drawn => ⟨r, drawn⟩),
        (drawOn r h.drawn.element? surface).2), w') := by
  rw [update, Resolve.bind_run, Resolve.attempt_run hbuild]
  rfl

end Rendering

namespace Board.Action
variable [Scalar α] {s : Surroundings φ α} {w w' : Workspace φ α} {index : Nat}
  {partials : Props φ α} {b : Board φ α} {h : Rendering φ α}

theorem apply_update_of_error (hfound : b.renderings[index]? = some h) {e : ResolveError α}
    (hbuild : Engine.update s h.renderable partials w = some (.error e, w')) :
    apply b (.update s w index partials) = some b := by
  simp only [apply, hfound, Rendering.update_of_error hbuild]

theorem apply_update_of_ok (hfound : b.renderings[index]? = some h) {r : Renderable φ α}
    (hbuild : Engine.update s h.renderable partials w = some (.ok r, w')) {drawn : Drawn}
    {surface : Surface α}
    (hdraw : Rendering.drawOn r h.drawn.element? b.surface = (.ok drawn, surface)) :
    apply b (.update s w index partials) =
      some ⟨surface, b.renderings.set index ⟨r, drawn⟩⟩ := by
  simp only [apply, hfound, Rendering.update_of_ok hbuild, hdraw, Except.map]

end Board.Action

structure Place (φ α : Type) where
  rendering : Rendering φ α
  slot : Slot α

def Place.next (d : Document) (r : Renderable φ α) (picture : Picture α) : Place φ α :=
  ⟨⟨r, .svg (some d.nextId)⟩, ⟨d.nextId, picture⟩⟩

def Board.holding (d : Document) (parent : NodeId) (places : List (Place φ α)) : Board φ α :=
  ⟨.svg d parent, places.map (·.rendering)⟩

theorem Board.getElem?_renderings {d : Document} {parent : NodeId} {places : List (Place φ α)}
    {i : Nat} {p : Place φ α} (h : places[i]? = some p) :
    (Board.holding d parent places).renderings[i]? = some p.rendering := by
  rw [holding, List.getElem?_map, h]
  rfl

theorem Place.getElem?_renderables {places : List (Place φ α)} {i : Nat} {p : Place φ α}
    (h : places[i]? = some p) :
    (places.map (·.rendering.renderable))[i]? = some p.rendering.renderable := by
  rw [List.getElem?_map, h]
  rfl

variable [Scalar α]

structure Place.Stands (d : Document) (parent : NodeId) (p : Place φ α) : Prop where
  drawn_eq : p.rendering.drawn = .svg (some p.slot.node)
  depicts : p.rendering.renderable.Depicts p.slot.picture
  filled : p.slot.Filled d parent

/-- The children of an element start places that do not overlap, in this order. -/
structure Arranged (d : Document) (parent : NodeId) (places : List (Place φ α)) : Prop where
  contains : d.contains parent = true
  children_eq : d.children parent = places.map (·.slot.node)
  stands (i : Nat) (p : Place φ α) (hp : places[i]? = some p) : p.Stands d parent
  apart (i j : Nat) (p q : Place φ α) (hij : i ≠ j) (hp : places[i]? = some p)
    (hq : places[j]? = some q) : p.slot.Apart q.slot

namespace Arranged
variable {d d' : Document} {parent : NodeId} {places places' : List (Place φ α)}

theorem nil (hparent : d.contains parent = true) (hempty : d.children parent = []) :
    Arranged d parent ([] : List (Place φ α)) :=
  ⟨hparent, hempty, nofun, nofun⟩

theorem stands_of_mem (h : Arranged d parent places) {p : Place φ α} (hp : p ∈ places) :
    p.Stands d parent := by
  obtain ⟨i, hi⟩ := List.mem_iff_getElem?.mp hp
  exact h.stands i p hi

theorem contains_child (h : Arranged d parent places) {c : NodeId}
    (hc : c ∈ d.children parent) : d.contains c = true := by
  rw [h.children_eq] at hc
  obtain ⟨p, hp, rfl⟩ := List.mem_map.mp hc
  exact (h.stands_of_mem hp).filled.contains p.slot.covers_node

theorem nodup_children (h : Arranged d parent places) : (d.children parent).Nodup := by
  rw [h.children_eq, List.nodup_iff_getElem?_ne_getElem?]
  intro i j hij hj heq
  rw [List.length_map] at hj
  obtain ⟨p, hp⟩ : ∃ p, places[i]? = some p := ⟨_, List.getElem?_eq_getElem (by omega)⟩
  obtain ⟨q, hq⟩ : ∃ q, places[j]? = some q := ⟨_, List.getElem?_eq_getElem hj⟩
  rw [List.getElem?_map, List.getElem?_map, hp, hq] at heq
  have hnode : p.slot.node = q.slot.node := Option.some.inj heq
  refine h.apart i j p q (Nat.ne_of_lt hij) hp hq q.slot.node ?_ q.slot.covers_node
  exact hnode ▸ p.slot.covers_node

/-- A place that is new at the end of the document, beside the places that stay or instead of one of
them. -/
theorem put (h : Arranged d parent places) {q : Place φ α} {i : Nat} (hq : q.Stands d' parent)
    (hnode : q.slot.node = d.nextId)
    (hplaces : ∀ j, places'[j]? = if j = i then some q else places[j]?)
    (hsame : ∀ j p, j ≠ i → places[j]? = some p →
      ∀ m, p.slot.Covers m → d'.element? m = d.element? m)
    (hcontains : d'.contains parent = true)
    (hchildren : d'.children parent = places'.map (·.slot.node)) :
    Arranged d' parent places' := by
  have hbehind (j : Nat) (p : Place φ α) (hp : places[j]? = some p) : p.slot.Apart q.slot := by
    intro m hm hqm
    have hlt := Document.index_lt_of_contains ((h.stands j p hp).filled.contains hm)
    have hge := hqm.1
    rw [hnode] at hge
    exact absurd hlt (Nat.not_lt_of_le hge)
  refine ⟨hcontains, hchildren, fun j p hp => ?_, fun j k p p' hjk hp hp' => ?_⟩
  · rw [hplaces] at hp
    split at hp
    · obtain rfl := Option.some.inj hp
      exact hq
    · next hj =>
      obtain ⟨hdrawn, hdepicts, hfilled⟩ := h.stands j p hp
      exact ⟨hdrawn, hdepicts, hfilled.congr (hsame j p hj hp)⟩
  · rw [hplaces] at hp hp'
    split at hp <;> split at hp'
    · next hj hk => exact absurd (hj.trans hk.symm) hjk
    · obtain rfl := Option.some.inj hp
      exact (hbehind k p' hp').symm
    · obtain rfl := Option.some.inj hp'
      exact hbehind j p hp
    · exact h.apart j k p p' hjk hp hp'

end Arranged

structure Board.Action.Rearranges (a : Board.Action φ α) (parent : NodeId) (d d' : Document)
    (places places' : List (Place φ α)) : Prop where
  apply_eq : a.apply (.holding d parent places) = some (.holding d' parent places')
  arranged : Arranged d' parent places'
  shown_eq :
    places'.map (·.rendering.renderable) = a.shown (places.map (·.rendering.renderable))
  spares (i : Nat) (p : Place φ α) (hi : a.target? ≠ some i) (hp : places[i]? = some p) :
    places'[i]? = some p ∧ ∀ m, p.slot.Covers m → d'.element? m = d.element? m

namespace Arranged
open Board
variable {d : Document} {parent : NodeId} {places : List (Place φ α)}

theorem render (h : Arranged d parent places) {r : Renderable φ α} (hr : r.OfShapes) :
    ∃ d' places', (Action.render r).Rearranges parent d d' places places' := by
  obtain ⟨picture, hdepicts⟩ := hr.exists_picture
  have hsame (j : Nat) (p : Place φ α) (hp : places[j]? = some p) (m : NodeId)
      (hm : p.slot.Covers m) :
      (d.graft parent [d.nextId] (picture.elements parent d.nodes.size)).element? m =
        d.element? m := by
    have hfilled := (h.stands j p hp).filled
    exact Document.element?_graft_of_ne (hfilled.contains hm) (hfilled.ne_parent hm) _ _
  have hplaces (j : Nat) : (places ++ [Place.next d r picture])[j]? =
      if j = places.length then some (Place.next d r picture) else places[j]? := by grind
  refine ⟨_, places ++ [.next d r picture], ?_, ?_, ?_, fun j p _ hp => ⟨?_, hsame j p hp⟩⟩
  · rw [Action.apply, holding, Rendering.render_svg hdepicts h.contains]
    simp [holding, Place.next]
  · refine h.put ⟨rfl, hdepicts, .graft h.contains picture⟩ rfl hplaces
      (fun j p _ hp => hsame j p hp) (Document.contains_graft h.contains _ _ _) ?_
    rw [Document.children_graft h.contains, h.children_eq]
    simp [Place.next]
  · simp [Action.shown, Place.next]
  · exact List.getElem?_append_left (List.getElem?_eq_some_iff.mp hp).1 ▸ hp

theorem update (h : Arranged d parent places) {s : Surroundings φ α} {w w' : Workspace φ α}
    {index : Nat} {partials : Props φ α} {place : Place φ α} (hplace : places[index]? = some place)
    {r : Renderable φ α} (hr : r.OfShapes)
    (hbuild : Engine.update s place.rendering.renderable partials w = some (.ok r, w')) :
    ∃ d' places', (Action.update s w index partials).Rearranges parent d d' places places' := by
  obtain ⟨picture, hdepicts⟩ := hr.exists_picture
  obtain ⟨hdrawn, -, hfilled⟩ := h.stands index place hplace
  have hold := hfilled.parent?_node
  have hne : parent ≠ place.slot.node := (hfilled.ne_parent place.slot.covers_node).symm
  have hhead := picture.parent_head parent d.nodes.size
  have hsame (j : Nat) (p : Place φ α) (hj : j ≠ index) (hp : places[j]? = some p) (m : NodeId)
      (hm : p.slot.Covers m) :
      (d.exchange parent place.slot.node
        (picture.elements parent d.nodes.size)).element? m = d.element? m := by
    have hp' := (h.stands j p hp).filled
    have hmo : m ≠ place.slot.node := by
      rintro rfl
      exact h.apart j index p place hj hp hplace _ hm place.slot.covers_node
    exact Document.element?_exchange_of_ne h.contains hold hne hhead (hp'.contains hm)
      (hp'.ne_parent hm) hmo
  have hlt : index < places.length := (List.getElem?_eq_some_iff.mp hplace).1
  have hplaces (j : Nat) : (places.set index (.next d r picture))[j]? =
      if j = index then some (Place.next d r picture) else places[j]? := by grind
  refine ⟨d.exchange parent place.slot.node (picture.elements parent d.nodes.size),
    places.set index (.next d r picture), ?_, ?_, ?_, fun j p hj hp => ?_⟩
  · have hfound : (Board.holding d parent places).renderings[index]? = some place.rendering :=
      Board.getElem?_renderings hplace
    have hdraw := Rendering.drawOn_svg hdepicts h.contains place.slot.node
    have helement : place.rendering.drawn.element? = some place.slot.node := by
      rw [hdrawn]
      rfl
    rw [← helement] at hdraw
    rw [Action.apply_update_of_ok hfound hbuild hdraw, holding, holding, List.map_set]
    rfl
  · refine h.put ⟨rfl, hdepicts, .exchange h.contains hold hne picture⟩ rfl hplaces hsame
      (Document.contains_exchange h.contains _ _ _) ?_
    have hi : (d.children parent)[index]? = some place.slot.node := by
      rw [h.children_eq, List.getElem?_map, hplace]
      rfl
    have hin (c : NodeId) (hc : c ∈ d.children parent) : d.contains c = true := h.contains_child hc
    rw [Document.children_exchange h.contains hold hne hhead hin h.nodup_children hi,
      h.children_eq, List.map_set]
    rfl
  · rw [Action.shown, Place.getElem?_renderables hplace]
    simp [hbuild, List.map_set, Place.next]
  · have hne : j ≠ index := by
      rintro rfl
      exact hj rfl
    rw [hplaces, if_neg hne]
    exact ⟨hp, hsame j p hne hp⟩

end Arranged
end Scene
