import Scene.Proofs.Dict
import Scene.Renderable

/-! Values under other names of their nodes. Where a function of a host program holds on to nodes, a
renaming takes its code along. What is read of a value, and what is put together from values, does
not depend on the names. -/
namespace Scene
variable {φ α β γ : Type}

structure Renaming (φ : Type) where
  node : Nat → Nat
  code : φ → φ

/-! Functions -/

def Implementation.rename (ρ : Renaming φ) : Implementation φ → Implementation φ
  | .define => .define
  | .shape s => .shape s
  | .host code => .host (ρ.code code)
  | .inherited parent own => .inherited (rename ρ parent) (rename ρ own)

def Predicate.rename (ρ : Renaming φ) : Predicate φ → Predicate φ
  | .notBlank => .notBlank
  | .notNegative => .notNegative
  | .host code => .host (ρ.code code)

def Validator.rename (ρ : Renaming φ) : Validator φ → Validator φ
  | .implementable => .implementable
  | .host code => .host (ρ.code code)

def Generator.rename (ρ : Renaming φ) : Generator φ → Generator φ
  | .fit => .fit
  | .host code => .host (ρ.code code)

def Function.rename (ρ : Renaming φ) : Function φ → Function φ
  | .implementation f => .implementation (f.rename ρ)
  | .validator f => .validator (f.rename ρ)
  | .predicate f => .predicate (f.rename ρ)
  | .generator f => .generator (f.rename ρ)

/-! Values -/

mutual

def Value.rename (ρ : Renaming φ) : Value φ α → Value φ α
  | .null => .null
  | .bool b => .bool b
  | .number n => .number n
  | .string s => .string s
  | .array items => .array (renameItems ρ items)
  | .object fields => .object (renameFields ρ fields)
  | .renderable r => .renderable (r.rename ρ)
  | .computed code => .computed (ρ.code code)
  | .function f => .function (f.rename ρ)

def renameItems (ρ : Renaming φ) : List (Value φ α) → List (Value φ α)
  | [] => []
  | v :: vs => v.rename ρ :: renameItems ρ vs

def renameFields (ρ : Renaming φ) : List (String × Value φ α) → List (String × Value φ α)
  | [] => []
  | (k, v) :: rest => (k, v.rename ρ) :: renameFields ρ rest

def Spec.rename (ρ : Renaming φ) : Spec φ α → Spec φ α
  | ⟨typeName, props⟩ => ⟨typeName, renameFields ρ props⟩

def Renderable.rename (ρ : Renaming φ) : Renderable φ α → Renderable φ α
  | ⟨node, kind, props, origin, painters⟩ =>
    ⟨ρ.node node, kind, renameFields ρ props, renameOrigin ρ origin, painters⟩

def renameOrigin (ρ : Renaming φ) : Option (Spec φ α × List (String × Value φ α)) →
    Option (Spec φ α × List (String × Value φ α))
  | none => none
  | some (s, completed) => some (s.rename ρ, renameFields ρ completed)

end

def Dict.rename (ρ : Renaming φ) (props : Props φ α) : Props φ α :=
  Dict.mapValues (Value.rename ρ) props

def Visual.rename (ρ : Renaming φ) : Visual φ α → Visual φ α
  | .spec s => .spec (s.rename ρ)
  | .resolved r => .resolved (r.rename ρ)

variable (ρ : Renaming φ)

theorem renameItems_eq (items : List (Value φ α)) :
    renameItems ρ items = items.map (Value.rename ρ) := by
  induction items with
  | nil => rfl
  | cons v vs ih => rw [renameItems, ih, List.map_cons]

theorem renameFields_eq (fields : List (String × Value φ α)) :
    renameFields ρ fields = Dict.rename ρ fields := by
  induction fields with
  | nil => rfl
  | cons e rest ih =>
    rw [renameFields, ih]
    rfl

namespace Dict

@[simp] theorem get?_rename (props : Props φ α) (key : String) :
    get? (rename ρ props) key = (get? props key).map (Value.rename ρ) := get?_mapValues ..

theorem rename_insert (props : Props φ α) (key : String) (v : Value φ α) :
    rename ρ (insert props key v) = insert (rename ρ props) key (v.rename ρ) :=
  mapValues_insert ..

end Dict

namespace Value

@[simp] theorem rename_array (items : List (Value φ α)) :
    (array items).rename ρ = .array (items.map (rename ρ)) := by
  rw [rename, renameItems_eq]

@[simp] theorem rename_object (fields : Props φ α) :
    (object fields).rename ρ = .object (Dict.rename ρ fields) := by
  rw [rename, renameFields_eq]

variable (v : Value φ α)

@[simp] theorem asNumber?_rename : (v.rename ρ).asNumber? = v.asNumber? := by cases v <;> rfl

@[simp] theorem asString?_rename : (v.rename ρ).asString? = v.asString? := by cases v <;> rfl

@[simp] theorem asRenderable?_rename :
    (v.rename ρ).asRenderable? = v.asRenderable?.map (Renderable.rename ρ) := by
  cases v <;> rfl

end Value

namespace Spec
variable (s : Spec φ α)

@[simp] theorem typeName_rename : (s.rename ρ).typeName = s.typeName := by cases s; rfl

@[simp] theorem props_rename : (s.rename ρ).props = Dict.rename ρ s.props := by
  cases s
  exact renameFields_eq ρ _

theorem rename_eq : s.rename ρ = ⟨s.typeName, Dict.rename ρ s.props⟩ := by
  cases s
  rw [rename, renameFields_eq]

theorem rename_ofProps (typeName : String) (props : Props φ α) :
    (ofProps typeName props).rename ρ = ofProps typeName (Dict.rename ρ props) := by
  rw [rename_eq, ofProps, ofProps]
  exact congrArg _ (Dict.mapValues_erase ..)

theorem rename_set (key : String) (v : Value φ α) :
    (s.set key v).rename ρ = (s.rename ρ).set key (v.rename ρ) := by
  by_cases hkey : key = "type"
  · cases v <;> simp [set, hkey, rename_eq, Value.rename]
  · simp [set, hkey, rename_eq, Dict.rename_insert]

theorem rename_merged (partials : Props φ α) :
    (s.merged partials).rename ρ = (s.rename ρ).merged (Dict.rename ρ partials) := by
  induction partials generalizing s with
  | nil => rfl
  | cons e rest ih =>
    refine (ih _).trans ?_
    rw [rename_set]
    rfl

@[simp] theorem toValue_rename : (s.rename ρ).toValue = s.toValue.rename ρ := by
  rw [toValue, toValue, Value.rename_object, Dict.rename_insert, typeName_rename, props_rename]
  rfl

theorem ofValue?_rename (v : Value φ α) :
    ofValue? (v.rename ρ) = (ofValue? v).map (rename ρ) := by
  cases v with
  | object fields =>
    rw [Value.rename_object, ofValue?, ofValue?, Dict.get?_rename]
    cases Dict.get? fields "type" with
    | none => rfl
    | some u =>
      cases u with
      | string name =>
        dsimp only [Option.map_some, Value.rename]
        split
        · rfl
        · rw [Except.map, rename_ofProps]
      | _ => rfl
  | _ => rfl

end Spec

namespace Renderable
variable (r : Renderable φ α)

@[simp] theorem node_rename : (r.rename ρ).node = ρ.node r.node := by cases r; rfl
@[simp] theorem kind_rename : (r.rename ρ).kind = r.kind := by cases r; rfl
@[simp] theorem painters_rename : (r.rename ρ).painters = r.painters := by cases r; rfl

@[simp] theorem props_rename : (r.rename ρ).props = Dict.rename ρ r.props := by
  cases r
  exact renameFields_eq ρ _

@[simp] theorem origin_rename :
    (r.rename ρ).origin = r.origin.map fun o => (o.1.rename ρ, Dict.rename ρ o.2) := by
  obtain ⟨node, kind, props, origin, painters⟩ := r
  cases origin with
  | none => rfl
  | some o => rw [rename, renameOrigin, renameFields_eq, renameFields_eq]; rfl

@[simp] theorem spec?_rename : (r.rename ρ).spec? = r.spec?.map (Spec.rename ρ) := by
  simp [spec?, Function.comp_def]

@[simp] theorem property?_rename (name : String) :
    (r.rename ρ).property? name = (r.property? name).map (Value.rename ρ) := by
  rw [property?, property?, origin_rename, props_rename]
  cases r.origin with
  | none => simp
  | some o => cases h : Dict.get? o.2 name <;> simp [h]

theorem rename_revised (partials : Props φ α) :
    (r.revised partials).rename ρ = (r.rename ρ).revised (Dict.rename ρ partials) := by
  rw [revised, revised, spec?_rename]
  cases r.spec? with
  | none => rw [Spec.rename_merged, Spec.rename_ofProps, kind_rename, props_rename]; rfl
  | some s => rw [Spec.rename_merged]; rfl

theorem rename_withOrigin (node : Nat) (spec : Spec φ α) (completed : Props φ α) :
    (r.withOrigin node spec completed).rename ρ =
      (r.rename ρ).withOrigin (ρ.node node) (spec.rename ρ) (Dict.rename ρ completed) := by
  cases r
  simp only [withOrigin, rename, renameOrigin, renameFields_eq]

end Renderable

namespace Visual

theorem ofValue?_rename (v : Value φ α) :
    ofValue? (v.rename ρ) = (ofValue? v).map (rename ρ) := by
  cases v with
  | renderable r => rfl
  | object fields =>
    change (Spec.ofValue? ((Value.object fields).rename ρ)).map spec =
      ((Spec.ofValue? (.object fields)).map spec).map (rename ρ)
    rw [Spec.ofValue?_rename]
    cases Spec.ofValue? (.object fields) <;> rfl
  | _ => rfl

@[simp] theorem typeName_rename (v : Visual φ α) : (v.rename ρ).typeName = v.typeName := by
  cases v with
  | spec s => exact s.typeName_rename ρ
  | resolved r => exact r.kind_rename ρ

end Visual
end Scene
