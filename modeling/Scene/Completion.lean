import Scene.Meaning

/-! Completion of properties: defaults for absent ones, then computed ones evaluated on one
snapshot. -/
namespace Scene.Completion
variable {φ α : Type}

/-- Supplied properties are never replaced, an explicit null included. -/
def withDefaults (d : Definition φ α) (props : Props φ α) : Props φ α :=
  Dict.complete props d.defaults

def evaluate (m : Meaning φ α) (typeName : String) (snapshot : Props φ α) (property : String) :
    Value φ α → Except (ResolveError α) (Value φ α)
  | .computed code => do
    match ← m.compute code ⟨typeName, property, snapshot⟩ with
    | .computed _ => .error (.specValidation typeName
        s!"computed property '{property}' produced another computed value")
    | v => .ok v
  | v => .ok v

def evaluateAll (m : Meaning φ α) (typeName : String) (snapshot : Props φ α) :
    Props φ α → Except (ResolveError α) (Props φ α)
  | [] => .ok []
  | (k, v) :: rest => do
    let v ← evaluate m typeName snapshot k v
    let rest ← evaluateAll m typeName snapshot rest
    .ok ((k, v) :: rest)

/-- Defaults first, so that computed properties see them. -/
def complete (m : Meaning φ α) (d : Definition φ α) (props : Props φ α) :
    Except (ResolveError α) (Props φ α) :=
  let filled := withDefaults d props
  evaluateAll m d.name filled filled

end Scene.Completion
