import Scene.Solver.Relaxation

/-! A solver owns bounded variables and constraints over them. Handles carry the number of the
solver that gave them out, and every solver has a number of its own, so a foreign handle is told
from an own one. -/
namespace Scene

structure Solver (α : Type) where
  number : Nat
  vars : List (Solver.Variable α)
  constraints : List (Solver.Constraint α)
  settings : Settings.Solving α

namespace Solver
variable {α : Type} [Scalar α]

/-- Finds one value per variable for a whole system, or says why there is none. -/
abbrev Backend (α : Type) :=
  List (Variable α) → List (Constraint α) → Except (Error α) (List α)

/-- Numbers for solvers, counted in a machine word. -/
structure Supply where
  next : Nat
  deriving DecidableEq, Repr

def Supply.size : Nat := Nat.pow 2 64

def Supply.take (s : Supply) : Nat × Supply := (s.next, ⟨(s.next + 1) % Supply.size⟩)

def create (number : Nat) (settings : Settings.Solving α) : Solver α := ⟨number, [], [], settings⟩

def nextHandle (s : Solver α) : Handle := ⟨s.number, s.vars.length⟩

def pushVariable (s : Solver α) (v : Variable α) : Handle × Solver α :=
  (s.nextHandle, { s with vars := s.vars ++ [v] })

def createVariable (s : Solver α) (name : String) (value : α) : Handle × Solver α :=
  s.pushVariable (.create name value Scalar.negInf Scalar.posInf)

def createBounded? (s : Solver α) (name : String) (value min max : α) :
    Except (Error α) (Handle × Solver α) :=
  if Scalar.isNaN min || Scalar.isNaN max || max < min then .error (.invalidBounds name min max)
  else if Scalar.isNaN value then .error .nonFinite
  else .ok (s.pushVariable (.create name value min max))

def owns (s : Solver α) (h : Handle) : Bool :=
  h.solver = s.number && h.index < s.vars.length

def checkOwned (s : Solver α) (h : Handle) : Except (Error α) Unit :=
  if s.owns h then .ok () else .error (.unknownVariable h)

def lookup? (s : Solver α) (h : Handle) : Option (Variable α) :=
  if s.owns h then s.vars[h.index]? else none

def value? (s : Solver α) (h : Handle) : Option α := (s.lookup? h).map (·.value)

def find? (s : Solver α) (name : String) : Option Handle :=
  (s.vars.findIdx? (·.name == name)).map fun i => ⟨s.number, i⟩

def setValue? (s : Solver α) (h : Handle) (value : α) : Except (Error α) (Solver α) := do
  s.checkOwned h
  if Scalar.isNaN value then .error .nonFinite
  else .ok { s with vars := s.vars.modify h.index (·.setValue value) }

def addConstraint? (s : Solver α) (c : Constraint α) : Except (Error α) (Solver α) := do
  c.terms.forM fun t => s.checkOwned t.1
  .ok { s with constraints := s.constraints ++ [c] }

def addLinear? (s : Solver α) (kind : Kind) (handles : List Handle) (coefficients : List α)
    (constant strength : α) : Except (Error α) (Solver α) := do
  s.addConstraint? (← Constraint.make? kind handles coefficients constant strength)

def addFixed? (s : Solver α) (h : Handle) (value : α) : Except (Error α) (Solver α) :=
  s.addLinear? .fixed [h] [Scalar.one] value Scalar.one

def isSatisfied (s : Solver α) : Bool :=
  allSatisfied s.constraints s.settings.epsilon s.vars

def solve (s : Solver α) : Solver α × Bool :=
  let (vars, clean) :=
    passes s.settings.epsilon (visitOrder s.constraints) s.settings.maxIterations s.vars
  let s := { s with vars }
  (s, clean || s.isSatisfied)

def handOut (take : Variable α → α → Variable α) :
    List (Variable α) → List α → List (Variable α)
  | v :: vars, x :: values => take v x :: handOut take vars values
  | vars, _ => vars

/-- Takes over the backend's values, forced into the bounds; says whether every constraint holds. -/
def solveExact? (backend : Backend α) (s : Solver α) : Except (Error α) (Solver α × Bool) := do
  let values ← backend s.vars s.constraints
  let s := { s with vars := handOut Variable.setValue s.vars values }
  .ok (s, s.isSatisfied)

def snapshot (s : Solver α) : List α := s.vars.map (·.value)

def restore (s : Solver α) (values : List α) : Solver α :=
  { s with vars := handOut (fun v x => { v with value := x }) s.vars values }

def reset (s : Solver α) : Solver α := { s with vars := s.vars.map (·.reset) }

/-- Empties the solver under a new number, so that older handles are foreign. -/
def clear (s : Solver α) (number : Nat) : Solver α :=
  { s with number, vars := [], constraints := [] }

end Solver
end Scene
