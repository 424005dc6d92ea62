import Scene.Solver

/-! The weighted problem that exact solving poses: hold the hard relations, and keep the weighted
sum of the violations of the soft ones as small as it gets. -/
namespace Scene.Solver.Exact

inductive Sign where
  | atMost
  | exactly
  | atLeast
  deriving DecidableEq, Repr

/-- `Σ coefficient · variable (sign) constant` over variables named by position. -/
structure Relation where
  terms : List (Nat × Rat)
  sign : Sign
  constant : Rat
  deriving DecidableEq, Repr

def Relation.sum (r : Relation) (x : Nat → Rat) : Rat :=
  r.terms.foldl (fun s t => s + t.2 * x t.1) 0

def Relation.violation (r : Relation) (x : Nat → Rat) : Rat :=
  let d := r.sum x - r.constant
  match r.sign with
  | .exactly => if d < 0 then -d else d
  | .atMost => if 0 < d then d else 0
  | .atLeast => if d < 0 then -d else 0

structure Problem where
  width : Nat
  hard : List Relation
  soft : List (Relation × Rat)

def Problem.Feasible (p : Problem) (x : Nat → Rat) : Prop := ∀ r ∈ p.hard, r.violation x = 0

def Problem.cost (p : Problem) (x : Nat → Rat) : Rat :=
  p.soft.foldl (fun s r => s + r.2 * r.1.violation x) 0

/-- What exact solving looks for. -/
def Problem.IsMinimiser (p : Problem) (x : Nat → Rat) : Prop :=
  p.Feasible x ∧ ∀ y, p.Feasible y → p.cost x ≤ p.cost y

variable {α : Type} [Scalar α]

/-- Nothing for the strongest, otherwise the weight of a constraint that may give way. -/
def weight? (strength : α) : Option Rat :=
  if Scalar.one ≤ strength then none
  else if (Scalar.ofRat (66 / 100) : α) ≤ strength then some 1000000
  else if (Scalar.ofRat (33 / 100) : α) ≤ strength then some 1000
  else some 1

def boundName (v : Variable α) (sign : String) (bound : α) : String :=
  s!"{v.name} {sign} {Scalar.text bound}"

def kindSign : Kind → String
  | .equal | .fixed => "="
  | .lessEqual => "<="
  | .greaterEqual => ">="
  | .minimize => "~min"
  | .maximize => "~max"

def constraintName (vars : List (Variable α)) (c : Constraint α) : String :=
  let term (t : Handle × α) : String :=
    Scalar.text t.2 ++ "*" ++ (vars[t.1.index]?.map (·.name)).getD ""
  let sum := " + ".intercalate (c.terms.map term)
  s!"{sum} {kindSign c.kind} {Scalar.text c.constant}"

abbrev Named := Relation × String

def boundRelations (vars : List (Variable α)) : List Named :=
  vars.zipIdx.flatMap fun (v, i) =>
    let bound (sign : Sign) (mark : String) (b : α) : List Named :=
      match Scalar.toRat? b with
      | some q => [(⟨[(i, 1)], sign, q⟩, boundName v mark b)]
      | none => []
    bound .atLeast ">=" v.min ++ bound .atMost "<=" v.max

def relationOf (c : Constraint α) : Relation :=
  let sign := match c.kind with
    | .lessEqual => Sign.atMost
    | .greaterEqual => .atLeast
    | .equal | .fixed | .minimize | .maximize => .exactly
  ⟨c.terms.map fun t => (t.1.index, (Scalar.toRat? t.2).getD 0), sign,
    (Scalar.toRat? c.constant).getD 0⟩

/-- An objective pulls its sum towards its constant with weight one. -/
def constraintWeight? (c : Constraint α) : Option Rat :=
  if c.kind.isObjective then some 1 else weight? c.strength

def hardRelations (vars : List (Variable α)) (constraints : List (Constraint α)) :
    List Named :=
  boundRelations vars ++
    (constraints.filter fun c => (constraintWeight? c).isNone).map fun c =>
      (relationOf c, constraintName vars c)

def softRelations (constraints : List (Constraint α)) : List (Relation × Rat) :=
  constraints.filterMap fun c => (constraintWeight? c).map fun w => (relationOf c, w)

/-- Every variable with a finite value stays there with weight one. -/
def anchors (vars : List (Variable α)) : List (Relation × Rat) :=
  vars.zipIdx.filterMap fun (v, i) =>
    (Scalar.toRat? v.value).map fun q => (⟨[(i, 1)], .exactly, q⟩, 1)

def pose (vars : List (Variable α)) (constraints : List (Constraint α)) : Problem :=
  { width := vars.length
    hard := (hardRelations vars constraints).map (·.1)
    soft := softRelations constraints ++ anchors vars }

end Scene.Solver.Exact
