import Scene.Solver.Variable
import Scene.Tag

/-! Causes of failure while a spec is resolved and while a result is painted. -/
namespace Scene

inductive ResolveError (α : Type) where
  | specShape (reason : String)
  | unknownType (name : String)
  | missingProperty (typeName property : String)
  | propertyType (typeName property : String) (expected : Tag)
  | propertyValidation (typeName property : String)
  | specValidation (typeName message : String)
  | extension (typeName parent : String)
  | infiniteLoop (chain : List String)
  | depthExceeded (typeName : String) (limit : Nat)
  | contract (typeName reason : String)
  | layout (typeName : String) (cause : Solver.Error α)
  | implementation (typeName message : String)
  deriving Repr

inductive Category where
  | specShape
  | unknownType
  | propertyValidation
  | extension
  | recursionGuard
  | implementationContract
  | layout
  | implementation
  deriving DecidableEq, Repr

namespace ResolveError
variable {α : Type}

def category : ResolveError α → Category
  | .specShape _ => .specShape
  | .unknownType _ => .unknownType
  | .missingProperty .. | .propertyType .. | .propertyValidation .. | .specValidation .. =>
    .propertyValidation
  | .extension .. => .extension
  | .infiniteLoop _ | .depthExceeded .. => .recursionGuard
  | .contract .. => .implementationContract
  | .layout .. => .layout
  | .implementation .. => .implementation

def typeName? : ResolveError α → Option String
  | .specShape _ | .unknownType _ | .infiniteLoop _ => none
  | .missingProperty t _ | .propertyType t _ _ | .propertyValidation t _ | .specValidation t _
  | .extension t _ | .depthExceeded t _ | .contract t _ | .layout t _
  | .implementation t _ => some t

def message [Scalar α] : ResolveError α → String
  | .specShape reason => .join ["invalid visualization spec: ", reason]
  | .unknownType name => .join ["Unknown visualization type: ", name]
  | .missingProperty _ property => .join ["Required property '", property, "' is missing"]
  | .propertyType _ property expected =>
    .join ["Property '", property, "' must be of type ", expected.name]
  | .propertyValidation _ property => .join [property, " failed validation"]
  | .specValidation typeName message => .join [typeName, " failed validation: ", message]
  | .extension typeName parent =>
    .join ["cannot extend '", parent, "' in '", typeName, "': type '", parent, "' does not exist"]
  | .infiniteLoop chain =>
    .join ["infinite loop detected while resolving: ", " -> ".intercalate chain]
  | .depthExceeded typeName limit =>
    .join ["resolution depth limit of ", toString limit, " exceeded at '", typeName, "'"]
  | .contract typeName reason =>
    .join ["implementation of '", typeName, "' broke its contract: ", reason]
  | .layout typeName cause => .join ["layout of '", typeName, "' failed: ", cause.message]
  | .implementation typeName message => .join [typeName, ": ", message]

end ResolveError

inductive PaintError (α : Type) where
  | unknownNode (index : Nat)
  | painter (kind message : String)
  | build (cause : ResolveError α)

def PaintError.message {α : Type} [Scalar α] : PaintError α → String
  | .unknownNode index =>
    .join ["element NodeId(", toString index, ") is not part of this document"]
  | .painter kind message => .join [kind, ": ", message]
  | .build cause => .join ["re-resolving for update failed: ", cause.message]

end Scene
