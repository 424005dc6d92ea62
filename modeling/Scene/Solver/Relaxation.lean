import Scene.Solver.Constraint
import Scene.Settings

/-! Relaxation: pass over the constraints from strong to weak and move the variables of every
violated one towards its constant, until a pass finds nothing violated. -/
namespace Scene.Solver
variable {α : Type} [Scalar α]

/-- The values that handles stand for; every stored constraint names variables that exist. -/
def reading (vars : List (Variable α)) (h : Handle) : α :=
  match vars[h.index]? with
  | some v => v.value
  | none => Scalar.zero

def allSatisfied (constraints : List (Constraint α)) (epsilon : α) (vars : List (Variable α)) :
    Bool :=
  constraints.all fun c => c.isSatisfied (reading vars) epsilon

def visitsFirst (a b : Constraint α) : Bool :=
  Scalar.compareAll a.strength b.strength != .lt

/-- Strongest first; among equals the one that was added first. -/
def visitOrder (constraints : List (Constraint α)) : List (Constraint α) :=
  constraints.mergeSort visitsFirst

/-- Whether the variable of a term has room to bring the sum nearer by `difference`. -/
def isMovable (vars : List (Variable α)) (difference : α) (t : Handle × α) : Bool :=
  !(t.2 == Scalar.zero) &&
    match vars[t.1.index]? with
    | some v => v.canMove (difference / t.2)
    | none => false

def moveTerm (share : α) (vars : List (Variable α)) (t : Handle × α) : List (Variable α) :=
  vars.modify t.1.index fun v => v.setValue (v.value + share / t.2)

/-- Every movable term takes the same share of the difference. -/
def spread (vars : List (Variable α)) (c : Constraint α) : List (Variable α) :=
  let difference := c.constant - c.evaluate (reading vars)
  let movable := c.terms.filter (isMovable vars difference)
  if movable.isEmpty then vars
  else
    let share := difference / Scalar.ofNat movable.length
    movable.foldl (moveTerm share) vars

def pin (vars : List (Variable α)) (c : Constraint α) : List (Variable α) :=
  match c.terms with
  | [] => vars
  | (h, k) :: _ =>
    if k == Scalar.zero then vars else vars.modify h.index fun v => v.setValue (c.constant / k)

def relax (vars : List (Variable α)) (c : Constraint α) : List (Variable α) :=
  match c.kind with
  | .fixed => pin vars c
  | .minimize | .maximize => vars
  | .equal | .lessEqual | .greaterEqual => spread vars c

def visit (epsilon : α) (state : List (Variable α) × Bool) (c : Constraint α) :
    List (Variable α) × Bool :=
  if c.isSatisfied (reading state.1) epsilon then state else (relax state.1 c, false)

def pass (epsilon : α) (order : List (Constraint α)) (vars : List (Variable α)) :
    List (Variable α) × Bool :=
  order.foldl (visit epsilon) (vars, true)

/-- At most so many passes, up to one that finds everything satisfied. -/
def passes (epsilon : α) (order : List (Constraint α)) :
    Nat → List (Variable α) → List (Variable α) × Bool
  | 0, vars => (vars, false)
  | n + 1, vars =>
    let (vars, clean) := pass epsilon order vars
    if clean then (vars, true) else passes epsilon order n vars

end Scene.Solver
