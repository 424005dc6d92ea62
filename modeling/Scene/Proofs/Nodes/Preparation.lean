import Scene.Proofs.Nodes.Scripts

/-! Preparing properties under other names of nodes: they are completed, checked and laid out in the
same way. -/
namespace Scene
open Resolution
variable {φ α : Type} {ρ : Renaming φ}

namespace Completion

theorem withDefaults_rename (d : Definition φ α) (props : Props φ α) :
    withDefaults (d.rename ρ) (Dict.rename ρ props) = Dict.rename ρ (withDefaults d props) := by
  rw [withDefaults, withDefaults, Definition.defaults_rename]
  exact (Dict.mapValues_complete ..).symm

section
variable {m : Meaning φ α} (hm : m.Respects ρ)
include hm

theorem evaluate_rename (typeName : String) (snapshot : Props φ α) (property : String)
    (v : Value φ α) :
    evaluate m typeName (Dict.rename ρ snapshot) property (v.rename ρ) =
      (evaluate m typeName snapshot property v).map (Value.rename ρ) := by
  cases v with
  | computed code =>
    have hcompute := hm.compute code ⟨typeName, property, snapshot⟩
    change (m.compute (ρ.code code) _ >>= _) = (m.compute code _ >>= _).map _
    rw [show (⟨typeName, property, Dict.rename ρ snapshot⟩ : Evaluation φ α) =
      Evaluation.rename ρ ⟨typeName, property, snapshot⟩ from rfl, hcompute]
    exact map_bind fun v => by cases v <;> rfl
  | _ => rfl

theorem evaluateAll_rename (typeName : String) (snapshot props : Props φ α) :
    evaluateAll m typeName (Dict.rename ρ snapshot) (Dict.rename ρ props) =
      (evaluateAll m typeName snapshot props).map (Dict.rename ρ) := by
  induction props with
  | nil => rfl
  | cons e rest ih =>
    change (evaluate m typeName (Dict.rename ρ snapshot) e.1 (e.2.rename ρ) >>= fun v =>
      evaluateAll m typeName (Dict.rename ρ snapshot) (Dict.rename ρ rest) >>= fun rest =>
        .ok ((e.1, v) :: rest)) = _
    rw [evaluateAll, evaluate_rename hm, ih]
    exact map_bind fun v => map_bind fun rest => rfl

theorem complete_rename (d : Definition φ α) (props : Props φ α) :
    complete m (d.rename ρ) (Dict.rename ρ props) = (complete m d props).map (Dict.rename ρ) := by
  simp only [complete, withDefaults_rename]
  exact evaluateAll_rename hm _ _ _

end
end Completion

namespace Validation
variable (d : Definition φ α) (props : Props φ α)

theorem present?_rename (key : String) :
    present? (Dict.rename ρ props) key = (present? props key).map (Value.rename ρ) := by
  rw [present?, present?, Dict.get?_rename]
  rcases Dict.get? props key with _ | v
  · rfl
  · cases v <;> rfl

theorem checkRequired_rename :
    checkRequired (d.rename ρ) (Dict.rename ρ props) = checkRequired d props := by
  simp only [checkRequired, Definition.required_rename, present?_rename, Option.isSome_map]
  rfl

theorem admits_rename (tag : Tag) (v : Value φ α) : tag.admits (v.rename ρ) = tag.admits v := by
  cases tag <;> cases v <;> rfl

theorem checkTag_rename (e : String × Schema φ α) :
    checkTag (d.rename ρ) (Dict.rename ρ props) (e.1, e.2.rename ρ) = checkTag d props e := by
  have htag : (e.2.rename ρ).tag? = e.2.tag? := rfl
  simp only [checkTag, htag, present?_rename]
  cases e.2.tag? with
  | none => rfl
  | some tag =>
    cases present? props e.1 with
    | none => rfl
    | some v =>
      simp only [Option.map_some, admits_rename]
      rfl

theorem checkData_rename (typeName : String) :
    checkData typeName (Dict.rename ρ props) = checkData typeName props := by
  rw [checkData, checkData, Dict.get?_rename]
  rcases Dict.get? props "data" with _ | v
  · rfl
  · cases v with
    | array items => rw [Option.map_some, Value.rename_array]
    | _ => rfl

variable [Scalar α] {m : Meaning φ α} (hm : m.Respects ρ)
include hm

theorem test_rename (p : Predicate φ) (v : Value φ α) :
    (p.rename ρ).test m (v.rename ρ) = p.test m v := by
  cases p with
  | host code => exact hm.test code v
  | notBlank => cases v <;> rfl
  | notNegative => cases v <;> rfl

theorem checkPredicate_rename (e : String × Schema φ α) :
    checkPredicate m (d.rename ρ) (Dict.rename ρ props) (e.1, e.2.rename ρ) =
      checkPredicate m d props e := by
  have hpredicate : (e.2.rename ρ).validate? = e.2.validate?.map (Predicate.rename ρ) := rfl
  simp only [checkPredicate, hpredicate, present?_rename]
  cases e.2.validate? with
  | none => rfl
  | some p =>
    cases present? props e.1 with
    | none => rfl
    | some v =>
      simp only [Option.map_some, test_rename hm]
      rfl

omit [Scalar α] in
theorem check_rename (v : Validator φ) :
    (v.rename ρ).check m (Dict.rename ρ props) = v.check m props := by
  cases v with
  | host code => exact hm.check code props
  | implementable =>
    have hmissing (key : String) :
        Validator.isMissing (Dict.rename ρ props) key = Validator.isMissing props key := by
      rw [Validator.isMissing, Validator.isMissing, Dict.get?_rename]
      rcases Dict.get? props key with _ | v
      · rfl
      · cases v <;> rfl
    simp only [Validator.rename, Validator.check, hmissing]

omit [Scalar α] in
theorem checkWhole_rename (v : Validator φ) :
    checkWhole m (d.rename ρ) (Dict.rename ρ props) (v.rename ρ) = checkWhole m d props v := by
  rw [checkWhole, checkWhole, check_rename props hm]
  rfl

theorem validate_rename :
    validate m (d.rename ρ) (Dict.rename ρ props) = validate m d props := by
  have htags : (d.rename ρ).properties.forM (checkTag (d.rename ρ) (Dict.rename ρ props)) =
      d.properties.forM (checkTag d props) := forM_map_congr (checkTag_rename d props) _
  have hpredicates :
      (d.rename ρ).properties.forM (checkPredicate m (d.rename ρ) (Dict.rename ρ props)) =
        d.properties.forM (checkPredicate m d props) :=
    forM_map_congr (checkPredicate_rename d props hm) _
  have hwhole : (d.rename ρ).validators.forM (checkWhole m (d.rename ρ) (Dict.rename ρ props)) =
      d.validators.forM (checkWhole m d props) := forM_map_congr (checkWhole_rename d props hm) _
  rw [validate, validate, checkRequired_rename, htags, hpredicates, hwhole]

end Validation

namespace Resolution
variable [Scalar α] {s : Surroundings φ α} (hm : s.meaning.Respects ρ)
include hm

theorem prepare_rename (d : Definition φ α) (props : Props φ α) :
    prepare s (d.rename ρ) (Dict.rename ρ props) = (prepare s d props).map (Dict.rename ρ) := by
  rw [prepare, prepare, Completion.complete_rename hm]
  refine map_bind fun completed => ?_
  have hname : (d.rename ρ).name = d.name := rfl
  rw [hname, Validation.checkData_rename, Validation.validate_rename _ _ hm]
  cases Validation.checkData d.name completed with
  | error e => rfl
  | ok _ => cases Validation.validate s.meaning d completed <;> rfl

/-- The same rules are solved, so the layout is the same. -/
theorem layout_rename (d : Definition φ α) (props : Props φ α)
    (container : Option (Container α)) :
    layout s (d.rename ρ) (Dict.rename ρ props) container = layout s d props container := by
  have hrules (g : Generator φ) (place : Placement α) :
      (g.rename ρ).rules s.meaning (Dict.rename ρ props) place =
        g.rules s.meaning props place := by
    cases g with
    | fit => rfl
    | host code => exact hm.rules code props place
  have hlayout : (d.rename ρ).layout? = d.layout?.map (Generator.rename ρ) := rfl
  have hname : (d.rename ρ).name = d.name := rfl
  rw [layout, layout, hlayout]
  cases d.layout? with
  | none => rfl
  | some g => simp only [Option.map_some, hname, hrules]

end Resolution
end Scene
