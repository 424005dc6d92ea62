import Scene.Proofs.Define.Admission
import Scene.Proofs.Nodes.Renaming

/-! Definitions under other names of nodes. What declarations are read as, and which definitions
they yield, does not depend on the names. -/
namespace Scene
variable {φ α : Type} (ρ : Renaming φ)

def Schema.rename (c : Schema φ α) : Schema φ α :=
  { c with default? := c.default?.map (Value.rename ρ), validate? := c.validate?.map (·.rename ρ) }

def Definition.rename (d : Definition φ α) : Definition φ α :=
  { d with
    properties := Dict.mapValues (Schema.rename ρ) d.properties
    implementation := d.implementation.rename ρ
    validators := d.validators.map (Validator.rename ρ)
    layout? := d.layout?.map (Generator.rename ρ) }

def Registry.rename (R : Registry φ α) : Registry φ α := Dict.mapValues (Definition.rename ρ) R

def Declaration.rename (d : Declaration φ α) : Declaration φ α :=
  { d with
    properties := Dict.mapValues (Schema.rename ρ) d.properties
    implementation? := d.implementation?.map (Implementation.rename ρ)
    validate? := d.validate?.map (Validator.rename ρ)
    layout? := d.layout?.map (Generator.rename ρ) }

namespace Definition
variable (d : Definition φ α)

@[simp] theorem required_rename : (d.rename ρ).required = d.required := by
  rw [required, required, rename, Dict.mapValues, List.filterMap_map]
  rfl

@[simp] theorem defaults_rename : (d.rename ρ).defaults = Dict.rename ρ d.defaults := by
  rw [defaults, defaults, rename, Dict.mapValues, List.filterMap_map, Dict.rename, Dict.mapValues,
    List.map_filterMap]
  refine congrArg (d.properties.filterMap ·) (funext fun e => ?_)
  simp [Schema.rename, Function.comp_def]

theorem rename_ofDefine : (ofDefine : Definition φ α).rename ρ = ofDefine := rfl

end Definition

namespace Registry
variable (R : Registry φ α)

@[simp] theorem get?_rename (name : String) :
    Dict.get? (R.rename ρ) name = (Dict.get? R name).map (Definition.rename ρ) :=
  Dict.get?_mapValues ..

@[simp] theorem contains_rename (name : String) :
    Dict.contains (R.rename ρ) name = Dict.contains R name :=
  Dict.contains_mapValues ..

theorem register_rename (d : Definition φ α) :
    register (R.rename ρ) (d.rename ρ) = ((R.register d).1.rename ρ, (R.register d).2) := by
  rw [register, contains_rename]
  exact congrArg (·, _) (Dict.mapValues_insert ..).symm

theorem remove_rename (name : String) :
    remove (R.rename ρ) name = ((R.remove name).1.rename ρ, (R.remove name).2) := by
  rw [remove, contains_rename]
  exact congrArg (·, _) (Dict.mapValues_erase ..).symm

end Registry

namespace Schema

theorem readRequired?_rename (name : String) (v? : Option (Value φ α)) :
    readRequired? name (v?.map (Value.rename ρ)) = readRequired? name v? := by
  rcases v? with _ | v
  · rfl
  · cases v <;> rfl

theorem readTag?_rename (name : String) (v? : Option (Value φ α)) :
    readTag? name (v?.map (Value.rename ρ)) = readTag? name v? := by
  rcases v? with _ | v
  · rfl
  · cases v <;> rfl

theorem readPredicate?_rename (name : String) (v? : Option (Value φ α)) :
    readPredicate? name (v?.map (Value.rename ρ)) =
      (readPredicate? name v?).map (Option.map (Predicate.rename ρ)) := by
  rcases v? with _ | v
  · rfl
  · cases v with
    | function f => cases f <;> rfl
    | _ => rfl

theorem ofValue?_rename (name : String) (v : Value φ α) :
    ofValue? name (v.rename ρ) = (ofValue? name v).map (rename ρ) := by
  cases v with
  | object entry =>
    rw [Value.rename_object, ofValue?, ofValue?]
    simp only [Dict.get?_rename, readRequired?_rename, readTag?_rename, readPredicate?_rename]
    cases readRequired? name (Dict.get? entry "required") with
    | error e => rfl
    | ok required =>
      cases readTag? name (Dict.get? entry "type") with
      | error e => rfl
      | ok tag? => cases readPredicate? name (Dict.get? entry "validate") <;> rfl
  | _ => rfl

end Schema

namespace Declaration

theorem readName?_rename (v? : Option (Value φ α)) :
    readName? (v?.map (Value.rename ρ)) = readName? v? := by
  rcases v? with _ | v
  · rfl
  · cases v <;> rfl

theorem readSchemas?_rename (entries : Props φ α) :
    readSchemas? (Dict.rename ρ entries) =
      (readSchemas? entries).map (Dict.mapValues (Schema.rename ρ)) := by
  induction entries with
  | nil => rfl
  | cons e rest ih =>
    change (Schema.ofValue? e.1 (e.2.rename ρ) >>= fun s =>
      readSchemas? (Dict.rename ρ rest) >>= fun rest => .ok ((e.1, s) :: rest)) = _
    rw [readSchemas?, ih, Schema.ofValue?_rename]
    exact map_bind fun s => map_bind fun rest => rfl

theorem readProperties?_rename (v? : Option (Value φ α)) :
    readProperties? (v?.map (Value.rename ρ)) =
      (readProperties? v?).map (Dict.mapValues (Schema.rename ρ)) := by
  rcases v? with _ | v
  · rfl
  · cases v with
    | object entries =>
      rw [Option.map_some, Value.rename_object]
      exact readSchemas?_rename ρ entries
    | _ => rfl

theorem readImplementation?_rename (v? : Option (Value φ α)) :
    readImplementation? (v?.map (Value.rename ρ)) =
      (readImplementation? v?).map (Option.map (Implementation.rename ρ)) := by
  rcases v? with _ | v
  · rfl
  · cases v with
    | function f => cases f <;> rfl
    | _ => rfl

theorem readExtends?_rename (v? : Option (Value φ α)) :
    readExtends? (v?.map (Value.rename ρ)) = readExtends? v? := by
  rcases v? with _ | v
  · rfl
  · cases v <;> rfl

theorem readValidator?_rename (v? : Option (Value φ α)) :
    readValidator? (v?.map (Value.rename ρ)) =
      (readValidator? v?).map (Option.map (Validator.rename ρ)) := by
  rcases v? with _ | v
  · rfl
  · cases v with
    | function f => cases f <;> rfl
    | _ => rfl

theorem readGenerator?_rename (v? : Option (Value φ α)) :
    readGenerator? (v?.map (Value.rename ρ)) =
      (readGenerator? v?).map (Option.map (Generator.rename ρ)) := by
  rcases v? with _ | v
  · rfl
  · cases v with
    | function f => cases f <;> rfl
    | _ => rfl

theorem ofProps?_rename (props : Props φ α) :
    ofProps? (Dict.rename ρ props) = (ofProps? props).map (rename ρ) := by
  rw [ofProps?, ofProps?]
  simp only [Dict.get?_rename, readName?_rename, readExtends?_rename]
  cases readName? (Dict.get? props "name") with
  | error e => rfl
  | ok name =>
    rw [ok_bind, ok_bind, readProperties?_rename]
    refine map_bind fun properties => ?_
    rw [readImplementation?_rename]
    refine map_bind fun implementation? => ?_
    cases readExtends? (Dict.get? props "extend") with
    | error e => rfl
    | ok extends? =>
      rw [ok_bind, ok_bind, readValidator?_rename]
      refine map_bind fun validate? => ?_
      rw [readGenerator?_rename]
      exact map_bind fun layout? => rfl

theorem composed?_rename (parent own : Option (Implementation φ)) :
    composed? (parent.map (Implementation.rename ρ)) (own.map (Implementation.rename ρ)) =
      (composed? parent own).map (Implementation.rename ρ) := by
  cases parent <;> cases own <;> rfl

theorem build?_rename (d : Declaration φ α) (parent? : Option (Definition φ α)) :
    (d.rename ρ).build? (parent?.map (Definition.rename ρ)) =
      (d.build? parent?).map (Definition.rename ρ) := by
  have himplementation :
      (parent?.map (Definition.rename ρ)).map (·.implementation) =
        (parent?.map (·.implementation)).map (Implementation.rename ρ) := by
    cases parent? <;> rfl
  have hcomposed : composed? ((parent?.map (Definition.rename ρ)).map (·.implementation))
      (d.rename ρ).implementation? =
      (composed? (parent?.map (·.implementation)) d.implementation?).map
        (Implementation.rename ρ) := by
    rw [himplementation]
    exact composed?_rename ρ _ _
  rw [build?, build?, hcomposed]
  cases composed? (parent?.map (·.implementation)) d.implementation? with
  | none => rfl
  | some implementation =>
    obtain ⟨name, properties, implementation?, extends?, validate?, layout?⟩ := d
    refine congrArg Except.ok ?_
    cases parent? <;> cases layout? <;> cases validate? <;>
      simp [Definition.rename, rename, Dict.mapValues_overlay]

theorem define?_rename (d : Declaration φ α) (R : Registry φ α) :
    (d.rename ρ).define? (Dict.get? (R.rename ρ)) =
      (d.define? (Dict.get? R)).map (Definition.rename ρ) := by
  have hextends : (d.rename ρ).extends? = d.extends? := rfl
  rw [define?, define?, hextends]
  cases d.extends? with
  | none => exact build?_rename ρ d none
  | some parent =>
    dsimp only
    rw [Registry.get?_rename]
    cases Dict.get? R parent with
    | none => rfl
    | some p => exact build?_rename ρ d (some p)

end Declaration
end Scene
