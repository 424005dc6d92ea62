import Scene.Scalar

/-! Variables of a solver, their handles, and what can go wrong with either. -/
namespace Scene.Solver

/-- Names a variable of the solver with the given number. -/
structure Handle where
  solver : Nat
  index : Nat
  deriving DecidableEq, Repr

def Handle.text (h : Handle) : String :=
  .join ["VariableId \x7b solver: ", toString h.solver, ", index: ", toString h.index, " \x7d"]

structure Variable (α : Type) where
  name : String
  value : α
  min : α
  max : α
  /-- What `value` goes back to on a reset. -/
  initial : α

inductive Error (α : Type) where
  | coefficientMismatch (handles coefficients : Nat)
  | invalidStrength (strength : α)
  | fixedArity (handles : Nat)
  | nonFinite
  | unknownVariable (handle : Handle)
  | invalidBounds (name : String) (min max : α)
  | unsatisfiable (reason : String)
  | internal (reason : String)
  deriving Repr

variable {α : Type} [Scalar α]

def Error.message : Error α → String
  | .coefficientMismatch v c =>
    .join ["constraint has ", toString v, " variables but ", toString c, " coefficients"]
  | .invalidStrength s => .join ["strength ", Scalar.text s, " is outside [0, 1]"]
  | .fixedArity n => .join ["FIXED constraints take exactly one variable, got ", toString n]
  | .nonFinite => "constraint contains a non-finite number"
  | .unknownVariable h => .join ["variable ", h.text, " does not belong to this solver"]
  | .invalidBounds name lo hi =>
    .join ["variable '", name, "' has bounds [", Scalar.text lo, ", ", Scalar.text hi, "]"]
  | .unsatisfiable reason => .join ["Unsatisfiable constraints: ", reason]
  | .internal reason => .join ["Internal solver error: ", reason]

namespace Variable

def clamp (v : Variable α) (x : α) : α := Scalar.clamp v.min v.max x

def create (name : String) (value min max : α) : Variable α :=
  let start := Scalar.clamp min max value
  ⟨name, start, min, max, start⟩

def setValue (v : Variable α) (x : α) : Variable α := { v with value := v.clamp x }

def reset (v : Variable α) : Variable α := { v with value := v.initial }

def canMove (v : Variable α) (delta : α) : Bool :=
  if Scalar.zero < delta then v.value < v.max
  else if delta < Scalar.zero then v.min < v.value
  else false

end Variable
end Scene.Solver
