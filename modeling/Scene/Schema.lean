import Scene.Spec

/-! Schemas of properties, and the object form in which a type declaration writes them. -/
namespace Scene

structure Schema (φ α : Type) where
  required : Bool
  default? : Option (Value φ α)
  tag? : Option Tag
  validate? : Option (Predicate φ)

/-- Whether a value is of the declared type. A resolved renderable counts as an object. -/
def Tag.admits {φ α : Type} : Tag → Value φ α → Bool
  | .number, .number _ => true
  | .string, .string _ => true
  | .boolean, .bool _ => true
  | .array, .array _ => true
  | .object, .object _ | .object, .renderable _ => true
  | .function, .function _ => true
  | _, _ => false

def defineName : String := "define"

namespace Schema
variable {φ α : Type}

def optional : Schema φ α := ⟨false, none, none, none⟩
def mandatory : Schema φ α := ⟨true, none, none, none⟩

def withDefault (s : Schema φ α) (v : Value φ α) : Schema φ α := { s with default? := some v }
def ofTag (s : Schema φ α) (t : Tag) : Schema φ α := { s with tag? := some t }
def validatedBy (s : Schema φ α) (p : Predicate φ) : Schema φ α := { s with validate? := some p }

def invalid {β : Type} (message : String) : Except (ResolveError α) β :=
  .error (.specValidation defineName message)

def readRequired? (name : String) : Option (Value φ α) → Except (ResolveError α) Bool
  | none | some .null => .ok false
  | some (.bool b) => .ok b
  | some _ => invalid s!"'required' of property '{name}' must be a boolean"

def readTag? (name : String) : Option (Value φ α) → Except (ResolveError α) (Option Tag)
  | none | some .null => .ok none
  | some (.string tag) =>
    match Tag.parse? tag with
    | some t => .ok (some t)
    | none => invalid s!"unknown type tag '{tag}' for property '{name}'"
  | some _ => invalid s!"'type' of property '{name}' must be a string"

def readPredicate? (name : String) :
    Option (Value φ α) → Except (ResolveError α) (Option (Predicate φ))
  | none | some .null => .ok none
  | some (.function (.predicate p)) => .ok (some p)
  | some _ => invalid s!"'validate' of property '{name}' must be a predicate"

def ofValue? (name : String) : Value φ α → Except (ResolveError α) (Schema φ α)
  | .object entry => do
    let required ← readRequired? name (Dict.get? entry "required")
    let tag? ← readTag? name (Dict.get? entry "type")
    let validate? ← readPredicate? name (Dict.get? entry "validate")
    .ok ⟨required, Dict.get? entry "default", tag?, validate?⟩
  | other => invalid s!"schema for property '{name}' must be an object, found {other.label}"

def toValue (s : Schema φ α) : Value φ α :=
  let entry (key : String) (v? : Option (Value φ α)) (d : Props φ α) : Props φ α :=
    match v? with
    | some v => Dict.insert d key v
    | none => d
  .object <| entry "validate" (s.validate?.map fun p => .function (.predicate p)) <|
    entry "type" (s.tag?.map fun t => .string t.name) <|
    entry "default" s.default? <|
    entry "required" (if s.required then some (.bool true) else none) []

end Schema
end Scene
