import Scene.Script

/-! The meaning of function codes: what a host program supplies to make its functions run. -/
namespace Scene

structure Evaluation (φ α : Type) where
  typeName : String
  property : String
  /-- All properties with defaults, none of them evaluated. -/
  props : Props φ α

structure Placement (α : Type) where
  typeName : String
  container : Option (Container α)

/-- What each code does in each role it can be put in. -/
structure Meaning (φ α : Type) where
  compute : φ → Evaluation φ α → Except (ResolveError α) (Value φ α)
  test : φ → Value φ α → Bool
  check : φ → Props φ α → Except String Unit
  rules : φ → Props φ α → Placement α → List (Layout.Rule α)
  implement : φ → Props φ α → Option (Visual φ α) → Context α → Script φ α

def Meaning.none {α : Type} : Meaning Empty α where
  compute := nofun
  test := nofun
  check := nofun
  rules := nofun
  implement := nofun

namespace Predicate
variable {φ α : Type} [Scalar α]

def test (m : Meaning φ α) : Predicate φ → Value φ α → Bool
  | .notBlank, .string s => !Text.isBlank s
  | .notBlank, _ => false
  | .notNegative, .number n => Scalar.zero ≤ n
  | .notNegative, _ => false
  | .host code, v => m.test code v

end Predicate

namespace Validator
variable {φ α : Type}

def isMissing (props : Props φ α) (key : String) : Bool :=
  match Dict.get? props key with
  | none | some .null => true
  | some _ => false

def check (m : Meaning φ α) : Validator φ → Props φ α → Except String Unit
  | .implementable, props =>
    if isMissing props "implementation" && isMissing props "extend" then
      .error "a type needs an implementation or a type to extend"
    else .ok ()
  | .host code, props => m.check code props

end Validator

namespace Generator
variable {φ α : Type}

def rules (m : Meaning φ α) : Generator φ → Props φ α → Placement α → List (Layout.Rule α)
  | .fit, _, _ => [.fit none]
  | .host code, props, place => m.rules code props place

end Generator
end Scene
