/-! Functions that a spec or a definition can hold. Functions of a host program stand as codes in
`φ`; what a code does is said apart from the data, so that values stay data. -/
namespace Scene

inductive Shape where
  | rect
  | circle
  | line
  | text
  | group
  | frame
  deriving DecidableEq, Repr

inductive Implementation (φ : Type) where
  | define
  | shape (s : Shape)
  | host (code : φ)
  /-- The parent's runs first and its result is handed on as the base. -/
  | inherited (parent own : Implementation φ)
  deriving DecidableEq, Repr

inductive Predicate (φ : Type) where
  | notBlank
  | notNegative
  | host (code : φ)
  deriving DecidableEq, Repr

inductive Validator (φ : Type) where
  | implementable
  | host (code : φ)
  deriving DecidableEq, Repr

inductive Generator (φ : Type) where
  | fit
  | host (code : φ)
  deriving DecidableEq, Repr

inductive Function (φ : Type) where
  | implementation (f : Implementation φ)
  | validator (f : Validator φ)
  | predicate (f : Predicate φ)
  | generator (f : Generator φ)
  deriving DecidableEq, Repr

def Function.role {φ : Type} : Function φ → String
  | .implementation _ => "implementation"
  | .validator _ => "validator"
  | .predicate _ => "predicate"
  | .generator _ => "constraints"

end Scene
