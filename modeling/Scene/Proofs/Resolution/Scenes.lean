import Scene.Proofs.Define.Suits
import Scene.Proofs.Resolution.Shapes

/-! Scenes of built-in shapes, and their height. Every level of nesting adds one. A frame is at
least two high: it stands for a group, in which its children are resolved already. -/
namespace Scene
open Resolution
variable {φ α β : Type}

def Shape.height : Shape → Nat → Nat
  | .rect, _ | .circle, _ | .line, _ | .text, _ => 1
  | .group, tallest => 1 + tallest
  | .frame, tallest => max 2 (1 + tallest)

def heightOf (typeName : String) (tallest : Nat) : Nat :=
  ((Shape.ofName? typeName).map (·.height tallest)).getD 0

mutual

def Value.height : Value φ α → Nat
  | .object fields =>
    match Dict.get? fields "type" with
    | some (.string name) => heightOf name (tallestChild fields)
    | _ => 0
  | _ => 0

def tallestChild : List (String × Value φ α) → Nat
  | [] => 0
  | (key, .array items) :: rest => if key = "children" then tallest items else tallestChild rest
  | (key, v) :: rest => if key = "children" then v.height else tallestChild rest

def tallest : List (Value φ α) → Nat
  | [] => 0
  | v :: vs => max v.height (tallest vs)

end

def Spec.tallest (s : Spec φ α) : Nat :=
  Scene.tallest (Script.listed (Dict.get? s.props "children"))

def Visual.height : Visual φ α → Nat
  | .resolved _ => 0
  | .spec s => heightOf s.typeName s.tallest

theorem tallestChild_eq (fields : List (String × Value φ α)) :
    tallestChild fields = tallest (Script.listed (Dict.get? fields "children")) := by
  induction fields with
  | nil => simp [tallestChild, Script.listed, tallest]
  | cons e rest ih =>
    obtain ⟨key, v⟩ := e
    rw [Dict.get?]
    by_cases hkey : key = "children"
    · cases v <;> simp [tallestChild, hkey, Script.listed, tallest, Value.height]
    · cases v <;> simp [tallestChild, hkey, ih]

theorem Spec.ofValue?_object {fields : Props φ α} {s : Spec φ α}
    (h : ofValue? (.object fields) = .ok s) :
    ∃ name, Dict.get? fields "type" = some (.string name) ∧ s = ofProps name fields := by
  rw [ofValue?] at h
  split at h
  · next name htype =>
    split at h
    · cases h
    · exact ⟨name, htype, (Except.ok.inj h).symm⟩
  · cases h
  · cases h

/-- A value is as high as the visual it is read as. -/
theorem Value.height_eq {x : Value φ α} {v : Visual φ α} (h : Visual.ofValue? x = .ok v) :
    x.height = v.height := by
  cases x with
  | object fields =>
    obtain ⟨s, hs, rfl⟩ := map_eq_ok.mp (show (Spec.ofValue? (.object fields)).map _ = _ from h)
    obtain ⟨name, htype, rfl⟩ := Spec.ofValue?_object hs
    have hother : "children" ≠ "type" := by decide
    rw [Value.height, htype, tallestChild_eq, Visual.height, Spec.tallest, Spec.ofProps]
    simp only [Dict.get?_erase_of_ne _ hother]
  | renderable r =>
    cases h
    rfl
  | _ => cases h

theorem tallest_le_iff {xs : List (Value φ α)} {n : Nat} :
    tallest xs ≤ n ↔ ∀ x ∈ xs, x.height ≤ n := by
  induction xs with
  | nil => simp [tallest]
  | cons x xs ih => rw [tallest, Nat.max_le, ih, List.forall_mem_cons]

theorem Spec.tallest_le {s : Spec φ α} {xs : List (Value φ α)} {n : Nat}
    (hxs : Dict.get? s.props "children" = some (.array xs)) (h : ∀ x ∈ xs, x.height ≤ n) :
    s.tallest ≤ n := by
  rw [tallest, hxs, Script.listed]
  exact tallest_le_iff.mpr h

theorem Shape.heightOf_name (s : Shape) (tallest : Nat) :
    heightOf s.name tallest = s.height tallest := by
  rw [heightOf, s.ofName?_name]
  rfl

theorem Shape.height_pos (s : Shape) (tallest : Nat) : 1 ≤ s.height tallest := by
  cases s <;> simp only [height] <;> omega

/-- What a shape needs of the room below it. -/
theorem Shape.height_le_iff {s : Shape} {tallest room : Nat} :
    s.height tallest ≤ room + 1 ↔
      (s.nests = true → tallest ≤ room) ∧ (s = .frame → 1 ≤ room) := by
  cases s <;> simp only [height, nests] <;> simp <;> omega

/-! Scenes of built-in shapes. -/

def Spec.IsPlain (s : Spec φ α) : Prop := ∀ e ∈ s.props, e.1 ≠ "type" ∧ e.2.isComputed = false

theorem Spec.create_isPlain (name : String) : (Spec.create (φ := φ) (α := α) name).IsPlain := nofun

theorem Spec.IsPlain.set {s : Spec φ α} (h : s.IsPlain) {key : String} {v : Value φ α}
    (hkey : key ≠ "type") (hv : v.isComputed = false) : (s.set key v).IsPlain := by
  intro e he
  rw [props_set hkey] at he
  rcases Dict.mem_of_mem_insert he with rfl | he
  · exact ⟨hkey, hv⟩
  · exact h e he

/-- A spec without a stray `type` reads back from its object form. -/
theorem Spec.ofValue?_toValue_self {s : Spec φ α} (hname : Text.isBlank s.typeName = false)
    (h : s.IsPlain) : Visual.ofValue? s.toValue = .ok (.spec s) := by
  have hread : ofValue? s.toValue = .ok s := by
    rw [ofValue?_toValue_eq fun e he => (h e he).1, hname]
    rfl
  change (ofValue? s.toValue).map Visual.spec = .ok (.spec s)
  rw [hread]
  rfl

variable [Scalar α]

/-- What is resolved already, or a spec of a built-in shape with properties that suit it, which
nests nothing but scenes. -/
inductive Visual.IsScene (m : Meaning φ α) : Visual φ α → Prop where
  | resolved (r : Renderable φ α) : IsScene m (.resolved r)
  | spec {spec : Spec φ α} {shape : Shape} (typeName_eq : spec.typeName = shape.name)
      (suits : shape.Suits m spec.props)
      (reads : shape.nests = true →
        ∀ x ∈ Script.listed (Dict.get? spec.props "children"), ∃ v, Visual.ofValue? x = .ok v)
      (nested : shape.nests = true → ∀ v, Nests spec.props v → IsScene m v) :
      IsScene m (.spec spec)

namespace Shape
variable {m : Meaning φ α} {l : Layout.Solution α}

theorem backdrop_isPlain (l : Layout.Solution α) (fill : String) :
    (backdrop (φ := φ) l fill).IsPlain :=
  (((Spec.create_isPlain "rect").set (by decide) rfl).set (by decide) rfl).set (by decide) rfl

omit [Scalar α] in
theorem content_isPlain (padding : α) (rs : List (Renderable φ α)) : (content padding rs).IsPlain :=
  (((Spec.create_isPlain "group").set (by decide) rfl).set (by decide) rfl).set (by decide) rfl

theorem backdrop_suits (hwidth : Scalar.zero ≤ l.width) (hheight : Scalar.zero ≤ l.height)
    (fill : String) : Shape.rect.Suits m (backdrop (φ := φ) l fill).props where
  plain e he := (backdrop_isPlain l fill e he).2
  required := by
    simp [properties, numberOr, someSize, someNumber, colour, colourOr, Schema.optional,
      Schema.mandatory, Schema.ofTag, Schema.withDefault, Schema.validatedBy, backdrop, Spec.set,
      Spec.create, Validation.present?, Dict.get?_insert]
  admitted := by
    simp [properties, someSize, someNumber, colourOr, Schema.optional, Schema.mandatory,
      Schema.ofTag, Schema.withDefault, Schema.validatedBy, backdrop, Spec.set, Spec.create,
      Validation.present?, Dict.get?_insert, Schema.Admits, Tag.admits, Predicate.test, hwidth,
      hheight]
  data := by simp [backdrop, Spec.set, Spec.create, Validation.present?, Dict.get?_insert]

theorem numberOr_admits (default : Nat) (n : α) : (numberOr default).Admits m (.number n) := by
  simp [numberOr, Schema.ofTag, Schema.withDefault, Schema.optional, Schema.Admits, Tag.admits]

theorem group_suits {props : Props φ α} (hplain : ∀ e ∈ props, e.2.isComputed = false)
    (hnumbers : ∀ key ∈ ["x", "y"], ∀ v, Validation.present? props key = some v →
      ∃ n, v = .number n)
    (hdata : Dict.get? props "data" = none) : Shape.group.Suits m props where
  plain := hplain
  required := by
    simp [properties, numberOr, Schema.optional, Schema.ofTag, Schema.withDefault]
  admitted e he v hv := by
    have hkeys : e.1 ∈ ["x", "y"] ∧ e.2 = numberOr 0 ∨ e.2 = Schema.optional := by
      simp only [properties, List.mem_cons, List.not_mem_nil, or_false] at he
      rcases he with rfl | rfl | rfl <;> simp
    rcases hkeys with ⟨hkey, hschema⟩ | hschema
    · obtain ⟨n, rfl⟩ := hnumbers e.1 hkey v hv
      rw [hschema]
      exact numberOr_admits 0 n
    · rw [hschema]
      exact Schema.optional_admits v
  data v hv := by
    rw [Validation.present?, hdata] at hv
    cases hv

theorem backdrop_isScene (hwidth : Scalar.zero ≤ l.width) (hheight : Scalar.zero ≤ l.height)
    (fill : String) : (Visual.spec (backdrop l fill)).IsScene m :=
  .spec (show _ = Shape.rect.name from rfl) (backdrop_suits hwidth hheight fill) nofun nofun

/-- A group of scenes that is not computed is a scene. -/
theorem group_isScene {spec : Spec φ α} {xs : List (Value φ α)}
    (htype : spec.typeName = Shape.group.name) (hsuits : Shape.group.Suits m spec.props)
    (hxs : Dict.get? spec.props "children" = some (.array xs))
    (h : ∀ x ∈ xs, ∃ v, Visual.ofValue? x = .ok v ∧ v.IsScene m) :
    (Visual.spec spec).IsScene m := by
  refine .spec htype hsuits (fun _ x hx => ?_) fun _ v ⟨x, hx, hv⟩ => ?_
  · rw [hxs] at hx
    obtain ⟨v, hv, -⟩ := h x hx
    exact ⟨v, hv⟩
  · rw [hxs] at hx
    obtain ⟨u, hu, hscene⟩ := h x hx
    obtain rfl := Except.ok.inj (hu.symm.trans hv)
    exact hscene

theorem content_suits (padding : α) (rs : List (Renderable φ α)) :
    Shape.group.Suits m (content padding rs).props := by
  refine group_suits (fun e he => (content_isPlain padding rs e he).2) ?_ ?_
  · simp [content, Spec.set, Spec.create, Dict.get?_insert, Validation.present?]
  · simp [content, Spec.set, Spec.create, Dict.get?_insert]

theorem framed_suits (props : Props φ α) (l : Layout.Solution α) (rs : List (Renderable φ α)) :
    Shape.group.Suits m (framed props l rs).props := by
  refine group_suits (fun e he => ?_) ?_ ?_
  · obtain rfl := List.mem_singleton.mp he
    rfl
  · simp [framed, Spec.set, Spec.create, Dict.get?_insert, Validation.present?]
  · simp [framed, Spec.set, Spec.create, Dict.get?_insert]

theorem content_isScene (padding : α) (rs : List (Renderable φ α)) :
    (Visual.spec (content padding rs)).IsScene m := by
  refine group_isScene rfl (content_suits padding rs) (children_content padding rs) fun x hx => ?_
  obtain ⟨r, -, rfl⟩ := List.mem_map.mp hx
  exact ⟨.resolved r, rfl, .resolved r⟩

omit [Scalar α] in
theorem height_content (padding : α) (rs : List (Renderable φ α)) :
    (Visual.spec (content padding rs)).height ≤ 1 := by
  have hnone : (content padding rs).tallest ≤ 0 := by
    refine Spec.tallest_le (children_content padding rs) fun x hx => ?_
    obtain ⟨r, -, rfl⟩ := List.mem_map.mp hx
    exact Nat.le_of_eq (by rw [Value.height.eq_def])
  have hname : (content padding rs).typeName = Shape.group.name := rfl
  rw [Visual.height, hname, heightOf_name]
  exact height_le_iff.mpr ⟨fun _ => hnone, nofun⟩

/-- A part of a frame reads back as a scene that nests nothing but what is resolved. -/
theorem part_isScene {part : Spec φ α} {padding : α} {rs : List (Renderable φ α)}
    (hwidth : Scalar.zero ≤ l.width) (hheight : Scalar.zero ≤ l.height)
    (h : (∃ fill, part = backdrop l fill) ∨ part = content padding rs) :
    Visual.ofValue? part.toValue = .ok (.spec part) ∧
      (Visual.spec part).IsScene m ∧ (Visual.spec part).height ≤ 1 := by
  rcases h with ⟨fill, rfl⟩ | rfl
  · exact ⟨Spec.ofValue?_toValue_self Shape.rect.isBlank_name (backdrop_isPlain l fill),
      backdrop_isScene hwidth hheight fill, Nat.le_refl 1⟩
  · exact ⟨Spec.ofValue?_toValue_self Shape.group.isBlank_name (content_isPlain padding rs),
      content_isScene padding rs, height_content padding rs⟩

theorem framed_isScene (props : Props φ α) (rs : List (Renderable φ α))
    (hwidth : Scalar.zero ≤ l.width) (hheight : Scalar.zero ≤ l.height) :
    (Visual.spec (framed props l rs)).IsScene m ∧ (framed props l rs).tallest ≤ 1 := by
  obtain ⟨parts, hchildren, hall⟩ := exists_parts props l rs
  have hpart (part) (hpart : part ∈ parts) := part_isScene (m := m) hwidth hheight (hall part hpart)
  constructor
  · refine group_isScene rfl (framed_suits props l rs) hchildren fun x hx => ?_
    obtain ⟨part, hmem, rfl⟩ := List.mem_map.mp hx
    exact ⟨_, (hpart part hmem).1, (hpart part hmem).2.1⟩
  · refine Spec.tallest_le hchildren fun x hx => ?_
    obtain ⟨part, hmem, rfl⟩ := List.mem_map.mp hx
    rw [Value.height_eq (hpart part hmem).1]
    exact (hpart part hmem).2.2

end Shape

end Scene
