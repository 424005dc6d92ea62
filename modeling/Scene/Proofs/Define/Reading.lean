import Scene.Declaration
import Scene.Proofs.Dict
import Scene.Proofs.Except

/-! Declarations in the form of specs. What a declaration is written as reads back: every schema
with all it says, every function, and the type to extend. -/
namespace Scene
variable {φ α : Type}

namespace Schema

theorem toValue_eq (s : Schema φ α) :
    s.toValue = .object
      ((((Dict.put [] "required" (if s.required then some (.bool true) else none)).put "default"
        s.default?).put "type" (s.tag?.map fun t => .string t.name)).put "validate"
          (s.validate?.map fun p => .function (.predicate p))) := by
  obtain ⟨required, default?, tag?, validate?⟩ := s
  cases required <;> cases default? <;> cases tag? <;> cases validate? <;> rfl

theorem ofValue?_toValue (name : String) (s : Schema φ α) : ofValue? name s.toValue = .ok s := by
  obtain ⟨required, default?, tag?, validate?⟩ := s
  have hrequired : readRequired? (φ := φ) (α := α) name
      (if required then some (.bool true) else none) = .ok required := by
    cases required <;> rfl
  have htag : readTag? (φ := φ) (α := α) name (tag?.map fun t => .string t.name) = .ok tag? := by
    cases tag? with
    | none => rfl
    | some t => rw [Option.map_some, readTag?, Tag.parse?_name]
  have hpredicate : readPredicate? (φ := φ) (α := α) name
      (validate?.map fun p => .function (.predicate p)) = .ok validate? := by
    cases validate? <;> rfl
  rw [toValue_eq, ofValue?]
  simp only [Dict.get?_put, Dict.get?_nil, Option.or_none, String.reduceEq, ↓reduceIte]
  rw [hrequired, htag, hpredicate]
  rfl

end Schema

namespace Declaration

theorem readSchemas?_mapValues (properties : Dict (Schema φ α)) :
    readSchemas? (Dict.mapValues Schema.toValue properties) = .ok properties := by
  induction properties with
  | nil => rfl
  | cons e rest ih =>
    have hrest : Dict.mapValues Schema.toValue (e :: rest) =
        (e.1, e.2.toValue) :: Dict.mapValues Schema.toValue rest := rfl
    rw [hrest, readSchemas?, Schema.ofValue?_toValue, ih]
    rfl

structure Declares (props : Props φ α) (d : Declaration φ α) : Prop where
  name_eq : Dict.get? props "name" = some (.string d.name)
  properties_eq :
    Dict.get? props "properties" = some (.object (Dict.mapValues Schema.toValue d.properties))
  implementation_eq : Dict.get? props "implementation" =
    d.implementation?.map fun f => .function (.implementation f)
  extends_eq : Dict.get? props "extend" = d.extends?.map .string
  validate_eq : Dict.get? props "validate" = d.validate?.map fun f => .function (.validator f)
  layout_eq : Dict.get? props "layout" = d.layout?.map fun f => .function (.generator f)
  data_eq : Dict.get? props "data" = none
  plain : ∀ e ∈ props, e.2.isComputed = false

theorem props_toSpec (d : Declaration φ α) :
    d.toSpec.props =
      (((((Dict.insert (Dict.insert [] "name" (.string d.name)) "properties"
        (.object (Dict.mapValues Schema.toValue d.properties))).put "implementation"
          (d.implementation?.map fun f => .function (.implementation f))).put "extend"
            (d.extends?.map .string)).put "validate"
              (d.validate?.map fun f => .function (.validator f))).put "layout"
                (d.layout?.map fun f => .function (.generator f))) := by
  obtain ⟨name, properties, implementation?, extends?, validate?, layout?⟩ := d
  cases implementation? <;> cases extends? <;> cases validate? <;> cases layout? <;> rfl

theorem typeName_toSpec (d : Declaration φ α) : d.toSpec.typeName = defineName := by
  obtain ⟨name, properties, implementation?, extends?, validate?, layout?⟩ := d
  cases implementation? <;> cases extends? <;> cases validate? <;> cases layout? <;> rfl

theorem declares_toSpec (d : Declaration φ α) : Declares d.toSpec.props d := by
  rw [props_toSpec]
  have hmap {β : Type} {f : β → Value φ α} (hf : ∀ b, (f b).isComputed = false) (b? : Option β) :
      ∀ v, b?.map f = some v → v.isComputed = false := by
    intro v hv
    obtain ⟨b, -, rfl⟩ := Option.map_eq_some_iff.mp hv
    exact hf b
  constructor
  case plain =>
    iterate 4
      refine Dict.forall_mem_put (P := (Value.isComputed · = false)) ?_ (hmap (fun _ => rfl) _)
    refine Dict.forall_mem_insert (P := (Value.isComputed · = false)) ?_ rfl
    exact Dict.forall_mem_insert (P := (Value.isComputed · = false)) (by simp) rfl
  all_goals simp [Dict.get?_put, Dict.get?_insert]

/-- Properties that declare a type read as the declaration. -/
theorem Declares.ofProps? {props : Props φ α} {d : Declaration φ α} (h : Declares props d) :
    ofProps? props = .ok d := by
  obtain ⟨name, properties, implementation?, extends?, validate?, layout?⟩ := d
  have hname : readName? (Dict.get? props "name") = .ok name := by
    rw [h.name_eq]
    rfl
  have hproperties : readProperties? (Dict.get? props "properties") = .ok properties := by
    rw [h.properties_eq]
    exact readSchemas?_mapValues properties
  have himplementation :
      readImplementation? (Dict.get? props "implementation") = .ok implementation? := by
    rw [h.implementation_eq]
    cases implementation? <;> rfl
  have hextends : readExtends? (Dict.get? props "extend") = .ok extends? := by
    rw [h.extends_eq]
    cases extends? <;> rfl
  have hvalidate : readValidator? (Dict.get? props "validate") = .ok validate? := by
    rw [h.validate_eq]
    cases validate? <;> rfl
  have hlayout : readGenerator? (Dict.get? props "layout") = .ok layout? := by
    rw [h.layout_eq]
    cases layout? <;> rfl
  rw [Declaration.ofProps?, hname, hproperties, himplementation, hextends, hvalidate, hlayout]
  rfl

/-- A declaration is written as a spec of type `define`, and read from its properties as the same
declaration, whatever it says and leaves open. -/
theorem reads_back_from_spec (d : Declaration φ α) :
    d.toSpec.typeName = defineName ∧ ofProps? d.toSpec.props = .ok d :=
  ⟨typeName_toSpec d, (declares_toSpec d).ofProps?⟩

end Declaration
end Scene
