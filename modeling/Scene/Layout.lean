import Scene.Solver
import Scene.Dict

/-! Layout of a sized type: abstract rules over named variables become a solver system. The
variables `x`, `y`, `width` and `height` always exist, and the two sizes are never negative. -/
namespace Scene

structure Container (α : Type) where
  width : Option α
  height : Option α

namespace Container
variable {α : Type}

def unknown : Container α := ⟨none, none⟩
def known (width height : α) : Container α := ⟨some width, some height⟩

def sizeOr (c : Container α) (fallback : α × α) : α × α :=
  (c.width.getD fallback.1, c.height.getD fallback.2)

end Container

namespace Layout
open Solver

inductive Rule (α : Type) where
  /-- Take the size of a container: the given one, else the enclosing one, else the default. -/
  | fit (container : Option (Container α))
  | declare (name : String) (value : α) (min max : Option α)
  | fixed (name : String) (value : α) (strength : α)
  | linear (kind : Kind) (terms : List (String × α)) (constant : α) (strength : α)

structure Solution (α : Type) where
  values : Dict α
  /-- Names that some rule mentioned, in order. -/
  constrained : List String
  converged : Bool

namespace Solution
variable {α : Type} [Scalar α]

def get? (s : Solution α) (name : String) : Option α := Dict.get? s.values name
def getOrZero (s : Solution α) (name : String) : α := (s.get? name).getD Scalar.zero
def x (s : Solution α) : α := s.getOrZero "x"
def y (s : Solution α) : α := s.getOrZero "y"
def width (s : Solution α) : α := s.getOrZero "width"
def height (s : Solution α) : α := s.getOrZero "height"
def isConstrained (s : Solution α) (name : String) : Bool := s.constrained.contains name

end Solution

structure Outcome (α : Type) where
  solution : Solution α
  constraints : Nat

variable {α : Type} [Scalar α]

structure System (α : Type) where
  solver : Solver α
  names : Dict Unit

def System.mention (s : System α) (name : String) : System α :=
  { s with names := Dict.insert s.names name () }

def System.start (settings : Settings.Solving α) : System α :=
  let s := Solver.create 0 settings
  let s := (s.createVariable "x" Scalar.zero).2
  let s := (s.createVariable "y" Scalar.zero).2
  let size (name : String) : Variable α := .create name Scalar.zero Scalar.zero Scalar.posInf
  let s := (s.pushVariable (size "width")).2
  let s := (s.pushVariable (size "height")).2
  ⟨s, Dict.empty⟩

/-- The variable of a name, made without bounds at zero on its first mention. -/
def findOrCreate (s : Solver α) (name : String) : Handle × Solver α :=
  match s.find? name with
  | some h => (h, s)
  | none => s.createVariable name Scalar.zero

def findAll : Solver α → List String → List Handle × Solver α
  | s, [] => ([], s)
  | s, name :: rest =>
    let (h, s) := findOrCreate s name
    let (hs, s) := findAll s rest
    (h :: hs, s)

def pickSize (own enclosing : Option (Container α)) (fallback : α × α) : α × α :=
  let own := own.getD .unknown
  let enclosing := enclosing.getD .unknown
  ((own.width.orElse fun _ => enclosing.width).getD fallback.1,
    (own.height.orElse fun _ => enclosing.height).getD fallback.2)

def System.pin (s : System α) (name : String) (value strength : α) :
    Except (Error α) (System α) := do
  let (h, solver) := findOrCreate s.solver name
  let c ← Constraint.make? .fixed [h] [Scalar.one] value strength
  let solver ← solver.addConstraint? c
  .ok { s.mention name with solver }

/-- A name that exists keeps its bounds and only moves. -/
def System.declare (s : System α) (name : String) (value : α) (min max : Option α) :
    Except (Error α) (System α) := do
  let solver ← match s.solver.find? name with
    | some h => s.solver.setValue? h value
    | none => do
      let (_, solver) ← s.solver.createBounded? name value (min.getD Scalar.negInf)
        (max.getD Scalar.posInf)
      .ok solver
  .ok { s.mention name with solver }

def System.add (enclosing : Option (Container α)) (fallback : α × α) (s : System α) :
    Rule α → Except (Error α) (System α)
  | .fit own => do
    let (w, h) := pickSize own enclosing fallback
    let s ← s.pin "width" w Scalar.one
    s.pin "height" h Scalar.one
  | .declare name value min max => s.declare name value min max
  | .fixed name value strength => s.pin name value strength
  | .linear kind terms constant strength => do
    let (handles, solver) := findAll s.solver (terms.map (·.1))
    let c ← Constraint.make? kind handles (terms.map (·.2)) constant strength
    let solver ← solver.addConstraint? c
    .ok { (terms.foldl (fun s t => s.mention t.1) s) with solver }

def System.ofRules (rules : List (Rule α)) (enclosing : Option (Container α))
    (settings : Settings.Resolving α) : Except (Error α) (System α) :=
  rules.foldlM (System.add enclosing settings.container) (.start settings.solving)

/-- Tries the exact backend, if that is allowed. Its values stay only where they satisfy every
constraint; otherwise the ones before it come back. -/
def fallBack (backend : Backend α) (s : Solver α) : Solver α × Bool :=
  if !s.settings.exactFallback then (s, false)
  else
    match s.solveExact? backend with
    | .ok (exact, true) => (exact, true)
    | .ok (exact, false) => (exact.restore s.snapshot, false)
    | .error _ => (s.restore s.snapshot, false)

def settle (backend : Backend α) (s : Solver α) : Solver α × Bool :=
  let (relaxed, converged) := s.solve
  if converged then (relaxed, true) else fallBack backend relaxed

def System.outcome (s : System α) (settled : Solver α × Bool) : Outcome α where
  solution :=
    { values := Dict.ofList (settled.1.vars.map fun v => (v.name, v.value))
      constrained := Dict.keys s.names
      converged := settled.2 }
  constraints := settled.1.constraints.length

/-- Solves a list of rules. A system that cannot be satisfied is no error: the solution says so and
holds the values of the last pass. -/
def solve (backend : Backend α) (rules : List (Rule α)) (enclosing : Option (Container α))
    (settings : Settings.Resolving α) : Except (Error α) (Outcome α) := do
  let system ← System.ofRules rules enclosing settings
  .ok (system.outcome (settle backend system.solver))

end Layout
end Scene
