import Scene.Solver.Variable

/-! Linear constraints with a strength. -/
namespace Scene.Solver

inductive Kind where
  | equal
  | lessEqual
  | greaterEqual
  | fixed
  | minimize
  | maximize
  deriving DecidableEq, Repr

def Kind.name : Kind → String
  | .equal => "EQUAL"
  | .lessEqual => "LESS_EQUAL"
  | .greaterEqual => "GREATER_EQUAL"
  | .fixed => "FIXED"
  | .minimize => "MINIMIZE"
  | .maximize => "MAXIMIZE"

def Kind.all : List Kind := [.equal, .lessEqual, .greaterEqual, .fixed, .minimize, .maximize]

def Kind.parse? (s : String) : Option Kind := all.find? fun k => k.name = s

def Kind.isObjective : Kind → Bool
  | .minimize | .maximize => true
  | _ => false

structure Constraint (α : Type) where
  kind : Kind
  /-- Variables with their coefficients; a variable may stand more than once. -/
  terms : List (Handle × α)
  constant : α
  strength : α

namespace Constraint
variable {α : Type} [Scalar α]

def isStrength (s : α) : Bool := Scalar.zero ≤ s && s ≤ Scalar.one

def make? (kind : Kind) (handles : List Handle) (coefficients : List α) (constant strength : α) :
    Except (Error α) (Constraint α) :=
  if handles.length ≠ coefficients.length then
    .error (.coefficientMismatch handles.length coefficients.length)
  else if !isStrength strength then .error (.invalidStrength strength)
  else if !Scalar.isFinite constant || coefficients.any (!Scalar.isFinite ·) then .error .nonFinite
  else if kind = .fixed ∧ handles.length ≠ 1 then .error (.fixedArity handles.length)
  else .ok ⟨kind, handles.zip coefficients, constant, strength⟩

def evaluate (c : Constraint α) (value : Handle → α) : α :=
  c.terms.foldl (fun sum t => sum + t.2 * value t.1) Scalar.negZero

def isSatisfied (c : Constraint α) (value : Handle → α) (epsilon : α) : Bool :=
  match c.kind with
  | .equal | .fixed => Scalar.abs (c.evaluate value - c.constant) ≤ epsilon
  | .lessEqual => c.evaluate value ≤ c.constant + epsilon
  | .greaterEqual => c.constant - epsilon ≤ c.evaluate value
  | .minimize | .maximize => true

end Constraint
end Scene.Solver
