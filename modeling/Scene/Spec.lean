import Scene.Value
import Scene.Text.Blank

/-! Specs and visuals. Inside, the type has a field of its own; outside, it is the property
`type`. -/
namespace Scene

namespace Spec
variable {φ α : Type}

def create (typeName : String) : Spec φ α := ⟨typeName, []⟩

def ofProps (typeName : String) (props : Props φ α) : Spec φ α :=
  ⟨typeName, Dict.erase props "type"⟩

def set (s : Spec φ α) (key : String) (value : Value φ α) : Spec φ α :=
  if key = "type" then
    match value with
    | .string name => { s with typeName := name }
    | _ => s
  else { s with props := Dict.insert s.props key value }

def get? (s : Spec φ α) (key : String) : Option (Value φ α) := Dict.get? s.props key

def merged (s : Spec φ α) (partials : Props φ α) : Spec φ α :=
  partials.foldl (fun s e => s.set e.1 e.2) s

def toValue (s : Spec φ α) : Value φ α :=
  .object (Dict.insert s.props "type" (.string s.typeName))

/-- Reads an object with a `type` that is more than white space. -/
def ofValue? : Value φ α → Except (ResolveError α) (Spec φ α)
  | .null => .error (.specShape "spec is null")
  | .object fields =>
    match Dict.get? fields "type" with
    | some (.string name) =>
      if Text.isBlank name then .error (.specShape "spec has an empty 'type'")
      else .ok (ofProps name fields)
    | some other =>
      .error (.specShape s!"spec 'type' must be a string, found {other.label}")
    | none => .error (.specShape "spec is missing a 'type' string")
  | other => .error (.specShape s!"spec must be an object, found {other.label}")

def beq [DecidableEq φ] [BEq α] (a b : Spec φ α) : Bool :=
  a.typeName == b.typeName && Value.beqFields a.props b.props

end Spec

namespace Visual
variable {φ α : Type}

def ofValue? : Value φ α → Except (ResolveError α) (Visual φ α)
  | .renderable r => .ok (.resolved r)
  | other => (Spec.ofValue? other).map .spec

def toValue : Visual φ α → Value φ α
  | .spec s => s.toValue
  | .resolved r => .renderable r

def typeName : Visual φ α → String
  | .spec s => s.typeName
  | .resolved r => r.kind

def isResolved : Visual φ α → Bool
  | .spec _ => false
  | .resolved _ => true

end Visual
end Scene
