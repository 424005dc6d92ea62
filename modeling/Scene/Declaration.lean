import Scene.Definition

/-! Declarations of types: the spec form in which a type is defined, and the definition it yields.
A type that extends another takes over its schema, validators, layout and implementation; own schema
entries win, an own implementation runs after the inherited one. -/
namespace Scene

structure Declaration (φ α : Type) where
  name : String
  properties : Dict (Schema φ α)
  implementation? : Option (Implementation φ)
  extends? : Option String
  validate? : Option (Validator φ)
  layout? : Option (Generator φ)

namespace Declaration
variable {φ α : Type}

def create (name : String) : Declaration φ α := ⟨name, [], none, none, none, none⟩

def property (d : Declaration φ α) (name : String) (s : Schema φ α) : Declaration φ α :=
  { d with properties := Dict.insert d.properties name s }

def toSpec (d : Declaration φ α) : Spec φ α :=
  let add (key : String) (v? : Option (Value φ α)) (s : Spec φ α) : Spec φ α :=
    match v? with
    | some v => s.set key v
    | none => s
  add "layout" (d.layout?.map fun f => .function (.generator f)) <|
    add "validate" (d.validate?.map fun f => .function (.validator f)) <|
    add "extend" (d.extends?.map .string) <|
    add "implementation" (d.implementation?.map fun f => .function (.implementation f)) <|
    ((Spec.create defineName).set "name" (.string d.name)).set "properties"
      (.object (Dict.mapValues Schema.toValue d.properties))

def invalid {β : Type} (message : String) : Except (ResolveError α) β :=
  .error (.specValidation defineName message)

def wrongFunction {β : Type} (field : String) : Except (ResolveError α) β :=
  invalid s!"'{field}' holds the wrong kind of function"

def readName? : Option (Value φ α) → Except (ResolveError α) String
  | some (.string name) => .ok name
  | _ => invalid "'name' must be a string"

def readSchemas? : List (String × Value φ α) → Except (ResolveError α) (Dict (Schema φ α))
  | [] => .ok []
  | (name, entry) :: rest => do
    let s ← Schema.ofValue? name entry
    let rest ← readSchemas? rest
    .ok ((name, s) :: rest)

def readProperties? : Option (Value φ α) → Except (ResolveError α) (Dict (Schema φ α))
  | none | some .null => .ok []
  | some (.object entries) => readSchemas? entries
  | some other => invalid s!"'properties' must be an object, found {other.label}"

def readImplementation? :
    Option (Value φ α) → Except (ResolveError α) (Option (Implementation φ))
  | none | some .null => .ok none
  | some (.function (.implementation f)) => .ok (some f)
  | some _ => wrongFunction "implementation"

def readExtends? : Option (Value φ α) → Except (ResolveError α) (Option String)
  | none | some .null => .ok none
  | some (.string parent) => .ok (some parent)
  | some _ => invalid "'extend' must name a type"

def readValidator? : Option (Value φ α) → Except (ResolveError α) (Option (Validator φ))
  | none | some .null => .ok none
  | some (.function (.validator f)) => .ok (some f)
  | some _ => wrongFunction "validate"

def readGenerator? : Option (Value φ α) → Except (ResolveError α) (Option (Generator φ))
  | none | some .null => .ok none
  | some (.function (.generator f)) => .ok (some f)
  | some _ => wrongFunction "layout"

def ofProps? (props : Props φ α) : Except (ResolveError α) (Declaration φ α) := do
  let name ← readName? (Dict.get? props "name")
  let properties ← readProperties? (Dict.get? props "properties")
  let implementation? ← readImplementation? (Dict.get? props "implementation")
  let extends? ← readExtends? (Dict.get? props "extend")
  let validate? ← readValidator? (Dict.get? props "validate")
  let layout? ← readGenerator? (Dict.get? props "layout")
  .ok { name, properties, implementation?, extends?, validate?, layout? }

def composed? : Option (Implementation φ) → Option (Implementation φ) → Option (Implementation φ)
  | some parent, some own => some (.inherited parent own)
  | some parent, none => some parent
  | none, own => own

def build? (d : Declaration φ α) (parent? : Option (Definition φ α)) :
    Except (ResolveError α) (Definition φ α) :=
  match composed? (parent?.map (·.implementation)) d.implementation? with
  | none => invalid s!"type '{d.name}' needs an implementation or a type to extend"
  | some implementation => .ok {
      name := d.name
      properties := Dict.overlay ((parent?.map (·.properties)).getD []) d.properties
      implementation
      extends? := parent?.map (·.name)
      validators := ((parent?.map (·.validators)).getD []) ++ d.validate?.toList
      layout? := d.layout?.orElse fun _ => parent?.bind (·.layout?) }

def define? (d : Declaration φ α) (find : String → Option (Definition φ α)) :
    Except (ResolveError α) (Definition φ α) :=
  match d.extends? with
  | none => d.build? none
  | some parent =>
    match find parent with
    | some p => d.build? (some p)
    | none => .error (.extension d.name parent)

def ofDefine : Declaration φ α :=
  let d := create defineName
    |>.property "name" ((Schema.mandatory.ofTag .string).validatedBy .notBlank)
    |>.property "properties" ((Schema.optional.withDefault (.object [])).ofTag .object)
    |>.property "implementation" (Schema.optional.ofTag .function)
    |>.property "extend" (Schema.optional.ofTag .string)
    |>.property "validate" (Schema.optional.ofTag .function)
    |>.property "layout" (Schema.optional.ofTag .function)
  { d with implementation? := some .define, validate? := some .implementable }

end Declaration

def Definition.bootstrap? {φ α : Type} : Except (ResolveError α) (Definition φ α) := do
  let spec := (Declaration.ofDefine (φ := φ) (α := α)).toSpec
  (← Declaration.ofProps? spec.props).define? fun _ => none

end Scene
