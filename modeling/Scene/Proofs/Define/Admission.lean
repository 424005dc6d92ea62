import Scene.Resolution
import Scene.Proofs.Define.Reading
import Scene.Proofs.Resolution.Completion

/-! The type `define` as it bootstraps itself, and what its own schema lets through: a declaration
with a name, and with an implementation or a type to extend. -/
namespace Scene
variable {φ α : Type}

def Definition.ofDefine : Definition φ α where
  name := defineName
  properties := [
    ("extend", Schema.optional.ofTag .string),
    ("implementation", Schema.optional.ofTag .function),
    ("layout", Schema.optional.ofTag .function),
    ("name", (Schema.mandatory.ofTag .string).validatedBy .notBlank),
    ("properties", (Schema.optional.withDefault (.object [])).ofTag .object),
    ("validate", Schema.optional.ofTag .function)]
  implementation := .define
  extends? := none
  validators := [.implementable]
  layout? := none

theorem Declaration.properties_ofDefine :
    (Declaration.ofDefine : Declaration φ α).properties = Definition.ofDefine.properties := by
  simp only [ofDefine, property, create, Dict.insert, String.reduceLT, String.reduceEq, ↓reduceIte,
    Definition.ofDefine]

theorem Declaration.build?_ofDefine :
    (Declaration.ofDefine : Declaration φ α).build? none = .ok .ofDefine := by
  have hoverlay : Dict.overlay [] (Declaration.ofDefine : Declaration φ α).properties =
      Definition.ofDefine.properties := by
    rw [properties_ofDefine]
    simp only [Dict.overlay, List.foldl_cons, List.foldl_nil, Dict.insert, String.reduceLT,
      String.reduceEq, ↓reduceIte, Definition.ofDefine]
  have hbuild : (Declaration.ofDefine : Declaration φ α).build? none =
      .ok { (Definition.ofDefine : Definition φ α) with
        properties := Dict.overlay [] (Declaration.ofDefine : Declaration φ α).properties } := rfl
  rw [hbuild, hoverlay]

theorem Definition.bootstrap?_eq :
    (Definition.bootstrap? : Except (ResolveError α) (Definition φ α)) = .ok .ofDefine := by
  rw [Definition.bootstrap?, (Declaration.declares_toSpec _).ofProps?]
  exact Declaration.build?_ofDefine

/-- Whatever is registered as `define` is what `define` bootstraps to. -/
def Registry.KnowsDefine (r : Registry φ α) : Prop :=
  ∀ t, Dict.get? r defineName = some t → t = Definition.ofDefine

namespace Validation

theorem get?_of_present? {props : Props φ α} {key : String} {v : Value φ α}
    (h : present? props key = some v) : Dict.get? props key = some v := by
  unfold present? at h
  split at h
  · cases h
  · cases h
  · next hv => rw [hv, h]

/-- A property whose values are all of one form passes where the declared type admits that form. -/
theorem checkTag_of_map {β : Type} {f : β → Value φ α} {b? : Option β} {props : Props φ α}
    {t : Definition φ α} {e : String × Schema φ α} {tag : Tag} (htag : e.2.tag? = some tag)
    (hadmits : ∀ b, tag.admits (f b) = true) (hget : Dict.get? props e.1 = b?.map f) :
    checkTag t props e = .ok () := by
  rw [checkTag, htag]
  cases hpresent : present? props e.1 with
  | none => rfl
  | some v =>
    have hv := get?_of_present? hpresent
    rw [hget] at hv
    obtain ⟨b, -, rfl⟩ := Option.map_eq_some_iff.mp hv
    exact if_pos (hadmits b)

end Validation

namespace Declaration.Declares
variable {props : Props φ α} {d : Declaration φ α}

theorem complete (h : Declares props d) (m : Meaning φ α) :
    Completion.complete m .ofDefine props = .ok props := by
  have hdefaults : (Definition.ofDefine : Definition φ α).defaults =
      [("properties", .object [])] := rfl
  have hpresent : Dict.contains props "properties" = true := by
    rw [Dict.contains, h.properties_eq]
    rfl
  have hfilled : Completion.withDefaults .ofDefine props = props := by
    rw [Completion.withDefaults, hdefaults, Dict.complete, List.foldl_cons, if_pos hpresent]
    rfl
  rw [Completion.complete, hfilled]
  exact Completion.evaluateAll_of_plain m _ props h.plain

theorem checkData (h : Declares props d) :
    Validation.checkData defineName props = .ok () := by
  rw [Validation.checkData, h.data_eq]

theorem present_name (h : Declares props d) :
    Validation.present? props "name" = some (.string d.name) := by
  rw [Validation.present?, h.name_eq]

theorem checkRequired (h : Declares props d) :
    Validation.checkRequired .ofDefine props = .ok () := by
  have hrequired : (Definition.ofDefine : Definition φ α).required = ["name"] := rfl
  rw [Validation.checkRequired, hrequired, forM_eq_ok]
  intro property hproperty
  obtain rfl := List.mem_singleton.mp hproperty
  rw [h.present_name]
  rfl

theorem checkTags (h : Declares props d) :
    (Definition.ofDefine : Definition φ α).properties.forM (Validation.checkTag .ofDefine props) =
      .ok () := by
  have hname : Dict.get? props "name" = (some d.name).map .string := h.name_eq
  have hproperties : Dict.get? props "properties" =
      (some (Dict.mapValues Schema.toValue d.properties)).map .object := h.properties_eq
  rw [forM_eq_ok]
  simp only [Definition.ofDefine, List.forall_mem_cons]
  refine ⟨?_, ?_, ?_, ?_, ?_, ?_, by simp⟩
  · exact Validation.checkTag_of_map rfl (fun _ => rfl) h.extends_eq
  · exact Validation.checkTag_of_map rfl (fun _ => rfl) h.implementation_eq
  · exact Validation.checkTag_of_map rfl (fun _ => rfl) h.layout_eq
  · exact Validation.checkTag_of_map rfl (fun _ => rfl) hname
  · exact Validation.checkTag_of_map rfl (fun _ => rfl) hproperties
  · exact Validation.checkTag_of_map rfl (fun _ => rfl) h.validate_eq

theorem checkWhole (h : Declares props d) (m : Meaning φ α) :
    Validation.checkWhole m .ofDefine props .implementable =
      if d.implementation?.isSome || d.extends?.isSome then .ok ()
      else .error (.specValidation defineName
        "a type needs an implementation or a type to extend") := by
  have himplementation :
      Validator.isMissing props "implementation" = d.implementation?.isNone := by
    rw [Validator.isMissing, h.implementation_eq]
    cases d.implementation? <;> rfl
  have hextends : Validator.isMissing props "extend" = d.extends?.isNone := by
    rw [Validator.isMissing, h.extends_eq]
    cases d.extends? <;> rfl
  rw [Validation.checkWhole, Validator.check, himplementation, hextends]
  cases d.implementation? <;> cases d.extends? <;> rfl

variable [Scalar α]

theorem checkPredicates (h : Declares props d) (m : Meaning φ α) :
    (Definition.ofDefine : Definition φ α).properties.forM
        (Validation.checkPredicate m .ofDefine props) =
      if Text.isBlank d.name then .error (.propertyValidation defineName "name") else .ok () := by
  -- the name is the only property with a predicate
  have hname : (Definition.ofDefine : Definition φ α).properties.forM
      (Validation.checkPredicate m .ofDefine props) =
        Validation.checkPredicate m .ofDefine props
          ("name", (Schema.mandatory.ofTag .string).validatedBy .notBlank) >>=
            fun _ => .ok () := rfl
  have htest : Validation.checkPredicate m .ofDefine props
      ("name", (Schema.mandatory.ofTag .string).validatedBy .notBlank) =
        if !Text.isBlank d.name then .ok ()
        else .error (.propertyValidation defineName "name") := by
    rw [Validation.checkPredicate, h.present_name]
    rfl
  rw [hname, htest]
  cases Text.isBlank d.name <;> rfl

end Declaration.Declares

def Declaration.vet (d : Declaration φ α) : Except (ResolveError α) Unit :=
  if Text.isBlank d.name then .error (.propertyValidation defineName "name")
  else if d.implementation?.isSome || d.extends?.isSome then .ok ()
  else .error (.specValidation defineName "a type needs an implementation or a type to extend")

theorem Resolution.prepare_ofDefine [Scalar α] {s : Surroundings φ α}
    {d : Declaration φ α} {props : Props φ α} (h : d.Declares props) :
    prepare s .ofDefine props = d.vet.map fun _ => props := by
  have hdata : Validation.checkData (Definition.ofDefine : Definition φ α).name props = .ok () :=
    h.checkData
  have hvalidators : (Definition.ofDefine : Definition φ α).validators.forM
      (Validation.checkWhole s.meaning .ofDefine props) =
        Validation.checkWhole s.meaning .ofDefine props .implementable >>= fun _ => .ok () := rfl
  rw [prepare, h.complete, ok_bind, hdata, ok_bind, Validation.validate, h.checkRequired, ok_bind,
    h.checkTags, ok_bind, h.checkPredicates, hvalidators, h.checkWhole, Declaration.vet]
  cases Text.isBlank d.name <;> cases d.implementation? <;> cases d.extends? <;> rfl

end Scene
