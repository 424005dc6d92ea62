import Scene.Solver.Exact.Simplex

/-! The exact backend: conflicts among hard relations are found one relation at a time, then the
weighted problem is solved on rational numbers. -/
namespace Scene.Solver.Exact
variable {α : Type} [Scalar α]

def assign (xs : List Rat) (i : Nat) : Rat := xs[i]?.getD 0

def leastViolation (n : Nat) (hard : List Relation) : Rat :=
  let x := assign (minimise n (hard.map fun r => (r, ⟨1, 0⟩)))
  hard.foldl (fun s r => s + r.violation x) 0

/-- A violation up to here still counts as none. -/
def tolerance : Rat := 1 / 100000000

/-- The first relation that cannot be kept together with those before it. -/
def firstConflict? (n : Nat) (kept : List Relation) : List Named → Option String
  | [] => none
  | (r, name) :: rest =>
    if tolerance < leastViolation n (kept ++ [r]) then some name
    else firstConflict? n (kept ++ [r]) rest

def conflict? (n : Nat) (hard : List Named) : Option String :=
  if leastViolation n (hard.map (·.1)) = 0 then none else firstConflict? n [] hard

def backend : Backend α := fun vars constraints =>
  match conflict? vars.length (hardRelations vars constraints) with
  | some name =>
    .error (.unsatisfiable s!"cannot satisfy {name}: conflicts with existing constraints")
  | none =>
    let p := pose vars constraints
    let relations := p.hard.map (fun r => (r, ⟨1, 0⟩)) ++ p.soft.map fun (r, w) => (r, ⟨0, w⟩)
    .ok ((minimise p.width relations).map Scalar.ofRat)

end Scene.Solver.Exact
