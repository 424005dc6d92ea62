import Scene.Proofs.Define.Stock
import Scene.Proofs.Scalar.Sizing

/-! Properties that suit a built-in shape. Completing and checking lets them through, with the
defaults of the shape for those that are absent. -/
namespace Scene
variable {φ α : Type} [Scalar α]

def Schema.Admits (m : Meaning φ α) (c : Schema φ α) (v : Value φ α) : Prop :=
  (∀ tag ∈ c.tag?, tag.admits v = true) ∧ ∀ p ∈ c.validate?, p.test m v = true

theorem Schema.optional_admits {m : Meaning φ α} (v : Value φ α) : optional.Admits m v := by
  simp [optional, Admits]

namespace Shape
open Validation

/-- None is computed; what the shape requires is there, and what is there is as the shape declares
it. Anything may be null that is not required. -/
structure Suits (m : Meaning φ α) (s : Shape) (props : Props φ α) : Prop where
  plain : ∀ e ∈ props, e.2.isComputed = false
  required : ∀ e ∈ s.properties (φ := φ) (α := α), e.2.required = true →
    (present? props e.1).isSome = true
  admitted : ∀ e ∈ s.properties, ∀ v, present? props e.1 = some v → e.2.Admits m v
  data : ∀ v, present? props "data" = some v → ∃ items, v = .array items

def completed (s : Shape) (props : Props φ α) : Props φ α :=
  Dict.complete props s.definition.defaults

theorem sorted_definition (s : Shape) : (s.definition (φ := φ) (α := α)).properties.Sorted :=
  Dict.Sorted.overlay List.Pairwise.nil _

theorem mem_properties {s : Shape} {e : String × Schema φ α} (h : e ∈ s.definition.properties) :
    e ∈ s.properties := by
  have hlist : e ∈ Dict.overlay [] (properties s) :=
    (Dict.mem_of_mem_overlay h).resolve_left List.not_mem_nil
  exact (Dict.mem_of_mem_overlay hlist).resolve_left List.not_mem_nil

theorem get?_definition {s : Shape} {e : String × Schema φ α} (h : e ∈ s.properties) :
    Dict.get? s.definition.properties e.1 = some e.2 := by
  have hkeys : ((s.properties (φ := φ) (α := α)).map (·.1)).Nodup := by
    cases s <;> simp [properties]
  have hlist : Dict.Sorted (Dict.ofList (s.properties (φ := φ) (α := α))) :=
    Dict.Sorted.overlay List.Pairwise.nil _
  rw [definition, Dict.get?_overlay [] hlist, Dict.get?_ofList_of_mem hkeys h, Option.some_or]

theorem get?_completed (s : Shape) (props : Props φ α) (key : String) :
    Dict.get? (s.completed props) key =
      (Dict.get? props key).or ((Dict.get? s.definition.properties key).bind (·.default?)) := by
  rw [completed, Dict.get?_complete_or]
  exact congrArg _ (Dict.get?_filterMap s.sorted_definition (·.default?) key)

/-- Every default passes the checks of its own schema. -/
theorem defaults_admitted [Scalar.Sizing α] (m : Meaning φ α) (s : Shape) :
    ∀ e ∈ s.properties, ∀ v ∈ e.2.default?, e.2.Admits m v ∧ v.isComputed = false := by
  have hzero : (Scalar.zero : α) ≤ Scalar.ofNat 0 := Scalar.Sizing.zero_le_ofNat_zero
  cases s <;> simp [properties, numberOr, someSize, someNumber, colour, colourOr, Schema.optional,
    Schema.mandatory, Schema.ofTag, Schema.withDefault, Schema.validatedBy, Schema.Admits,
    Tag.admits, Predicate.test, Value.isComputed, hzero]

/-- Where a shape has no default, its completed properties have what was supplied. -/
theorem get?_completed_of_no_default {s : Shape} {key : String}
    (h : ∀ e ∈ s.properties (φ := φ) (α := α), e.1 = key → e.2.default? = none)
    (props : Props φ α) : Dict.get? (s.completed props) key = Dict.get? props key := by
  rw [get?_completed]
  cases hkey : Dict.get? (s.definition (φ := φ) (α := α)).properties key with
  | none => exact Option.or_none ..
  | some c =>
    rw [Option.bind_some, h _ (mem_properties (Dict.mem_of_get? hkey)) rfl, Option.or_none]

theorem data_completed (s : Shape) (props : Props φ α) :
    Dict.get? (s.completed props) "data" = Dict.get? props "data" :=
  get?_completed_of_no_default (by cases s <;> simp [properties]) props

theorem children_completed (s : Shape) (props : Props φ α) :
    Dict.get? (s.completed props) "children" = Dict.get? props "children" :=
  get?_completed_of_no_default (by cases s <;> simp [properties, Schema.optional]) props

theorem present?_completed {s : Shape} {props : Props φ α} {e : String × Schema φ α}
    (he : e ∈ s.definition.properties) {v : Value φ α}
    (hv : present? (s.completed props) e.1 = some v) :
    present? props e.1 = some v ∨ e.2.default? = some v := by
  have hget := get?_of_present? hv
  have hschema := s.sorted_definition.get?_eq_some_iff.mpr he
  rw [get?_completed, hschema] at hget
  cases hkey : Dict.get? props e.1 with
  | none => exact .inr (by simpa [hkey] using hget)
  | some u =>
    left
    rwa [present?, get?_completed, hkey, Option.some_or, ← hkey] at hv

namespace Suits
variable {m : Meaning φ α} {s : Shape} {props : Props φ α} (h : s.Suits m props)
include h

theorem complete [Scalar.Sizing α] : Completion.complete m s.definition props =
    .ok (s.completed props) := by
  have hdefaults : ∀ e ∈ (s.definition : Definition φ α).defaults, e.2.isComputed = false := by
    intro e he
    obtain ⟨f, hf, hdefault⟩ := List.mem_filterMap.mp he
    obtain ⟨v, hv, rfl⟩ := Option.map_eq_some_iff.mp hdefault
    exact (s.defaults_admitted m f (mem_properties hf) v hv).2
  exact Completion.evaluateAll_of_plain m _ _
    (Dict.forall_mem_complete (P := (Value.isComputed · = false)) h.plain hdefaults)

theorem checkData (name : String) : Validation.checkData name (s.completed props) = .ok () := by
  rw [Validation.checkData, data_completed]
  cases hkey : Dict.get? props "data" with
  | none => rfl
  | some v =>
    by_cases hnull : v = .null
    · rw [hnull]
    · have hpresent : present? props "data" = some v := by
        rw [present?, hkey]
        cases v <;> first | rfl | exact absurd rfl hnull
      obtain ⟨items, rfl⟩ := h.data v hpresent
      rfl

theorem checkRequired :
    Validation.checkRequired s.definition (s.completed props) = .ok () := by
  rw [Validation.checkRequired, forM_eq_ok]
  intro key hkey
  obtain ⟨e, he, hrequired⟩ := List.mem_filterMap.mp hkey
  split at hrequired
  · next hneeded =>
    obtain rfl := Option.some.inj hrequired
    obtain ⟨v, hv⟩ := Option.isSome_iff_exists.mp (h.required e (mem_properties he) hneeded)
    have hsame : present? (s.completed props) e.1 = present? props e.1 := by
      rw [present?, get?_completed, get?_of_present? hv, Option.some_or, present?,
        get?_of_present? hv]
    rw [hsame, hv]
    rfl
  · cases hrequired

variable [Scalar.Sizing α]

theorem admits {e : String × Schema φ α} (he : e ∈ s.definition.properties) {v : Value φ α}
    (hv : present? (s.completed props) e.1 = some v) : e.2.Admits m v := by
  rcases present?_completed he hv with hv | hv
  · exact h.admitted e (mem_properties he) v hv
  · exact (s.defaults_admitted m e (mem_properties he) v hv).1

theorem validate : Validation.validate m s.definition (s.completed props) = .ok () := by
  have htags : s.definition.properties.forM (checkTag s.definition (s.completed props)) =
      .ok () := by
    refine forM_eq_ok.mpr fun e he => ?_
    unfold checkTag
    split
    · next tag v htag hv => exact if_pos ((h.admits he hv).1 tag htag)
    · rfl
  have hpredicates : s.definition.properties.forM
      (checkPredicate m s.definition (s.completed props)) = .ok () := by
    refine forM_eq_ok.mpr fun e he => ?_
    unfold checkPredicate
    split
    · next p v hp hv => exact if_pos ((h.admits he hv).2 p hp)
    · rfl
  rw [Validation.validate, h.checkRequired, ok_bind, htags, ok_bind, hpredicates]
  rfl

end Suits

/-- A padding that was checked is not negative; one that is not there counts as zero. -/
theorem zero_le_padding [Scalar.Sizing α] {m : Meaning φ α} {props : Props φ α}
    (h : Validation.validate m Shape.frame.definition props = .ok ()) :
    Scalar.zero ≤ Primitive.number props "padding" := by
  have hzero : (Scalar.zero : α) ≤ Scalar.zero :=
    Scalar.le_refl_of_isNaN (Scalar.Sizing.isNaN_of_isFinite Scalar.Sizing.isFinite_zero)
  have hschema := get?_definition (φ := φ) (α := α) (s := .frame)
    (e := ("padding", (numberOr 0).validatedBy .notNegative)) List.mem_cons_self
  simp only [Validation.validate, bind_eq_ok] at h
  obtain ⟨_, -, _, -, _, hpredicates, -⟩ := h
  have hcheck := forM_eq_ok.mp hpredicates _ (Dict.mem_of_get? hschema)
  rw [Primitive.number]
  cases hv : present? props "padding" with
  | none =>
    unfold present? at hv
    split at hv
    · next hget => simpa [hget] using hzero
    · next hget => simpa [hget, Value.asNumber?] using hzero
    · cases hv
  | some v =>
    have htest : Predicate.test m .notNegative v = true := by
      by_contra hfails
      simp [checkPredicate, Schema.validatedBy, hv, hfails] at hcheck
    rw [get?_of_present? hv]
    cases v with
    | number n => exact of_decide_eq_true htest
    | _ => cases htest

/-- The padding of a frame, be it supplied or the default, is not negative. -/
theorem Suits.zero_le_padding [Scalar.Sizing α] {m : Meaning φ α} {props : Props φ α}
    (h : Shape.frame.Suits m props) :
    Scalar.zero ≤ Primitive.number (Shape.frame.completed props) "padding" :=
  Shape.zero_le_padding h.validate

/-- Properties that suit a shape reach its implementation. -/
theorem Suits.prepare [Scalar.Sizing α] {s : Surroundings φ α} {shape : Shape} {props : Props φ α}
    (h : shape.Suits s.meaning props) :
    Resolution.prepare s shape.definition props = .ok (shape.completed props) := by
  rw [Resolution.prepare, h.complete, ok_bind, h.checkData, ok_bind, h.validate]
  rfl

end Shape
end Scene
