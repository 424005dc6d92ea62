import Scene.Meaning

/-! Validation of completed properties. Checks run in a fixed order and the first failure counts:
required presence, declared types, property predicates, validators of the whole. -/
namespace Scene.Validation
variable {φ α : Type} [Scalar α]

def present? (props : Props φ α) (property : String) : Option (Value φ α) :=
  match Dict.get? props property with
  | none | some .null => none
  | some v => some v

def checkRequired (d : Definition φ α) (props : Props φ α) : Except (ResolveError α) Unit :=
  d.required.forM fun property =>
    if (present? props property).isSome then .ok () else .error (.missingProperty d.name property)

def checkTag (d : Definition φ α) (props : Props φ α) (e : String × Schema φ α) :
    Except (ResolveError α) Unit :=
  match e.2.tag?, present? props e.1 with
  | some tag, some v => if tag.admits v then .ok () else .error (.propertyType d.name e.1 tag)
  | _, _ => .ok ()

def checkPredicate (m : Meaning φ α) (d : Definition φ α) (props : Props φ α)
    (e : String × Schema φ α) : Except (ResolveError α) Unit :=
  match e.2.validate?, present? props e.1 with
  | some p, some v => if p.test m v then .ok () else .error (.propertyValidation d.name e.1)
  | _, _ => .ok ()

def checkWhole (m : Meaning φ α) (d : Definition φ α) (props : Props φ α) (v : Validator φ) :
    Except (ResolveError α) Unit :=
  match v.check m props with
  | .ok () => .ok ()
  | .error message => .error (.specValidation d.name message)

def validate (m : Meaning φ α) (d : Definition φ α) (props : Props φ α) :
    Except (ResolveError α) Unit := do
  checkRequired d props
  d.properties.forM (checkTag d props)
  d.properties.forM (checkPredicate m d props)
  d.validators.forM (checkWhole m d props)

def checkData (typeName : String) (props : Props φ α) : Except (ResolveError α) Unit :=
  match Dict.get? props "data" with
  | none | some .null | some (.array _) => .ok ()
  | some other =>
    .error (.specShape s!"'data' of '{typeName}' must be an array, found {other.label}")

end Scene.Validation
