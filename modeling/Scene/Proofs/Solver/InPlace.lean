import Scene.Proofs.Layout.System

/-! The calls that change a solver, statement by statement on the solver itself. A call checks all
that can be wrong before its first write, so it has the result of its one-piece form, and what it
refuses changes nothing. -/
namespace Scene.Solver
variable {α β γ : Type}

/-- Statements on a solver that may fail midway; what was written until then stays written. -/
abbrev InPlace (α β : Type) : Type := ExceptT (Error α) (StateM (Solver α)) β

def InPlace.from (x : InPlace α β) (s : Solver α) : Except (Error α) β × Solver α := x s

def settle (s : Solver α) : Except (Error α) (β × Solver α) → Except (Error α) β × Solver α
  | .ok (b, s') => (.ok b, s')
  | .error e => (.error e, s)

namespace InPlace
variable {s : Solver α}

def lift (x : Except (Error α) β) : InPlace α β := ExceptT.mk (pure x)

theorem from_bind (x : InPlace α β) (f : β → InPlace α γ) :
    (x >>= f).from s =
      match x.from s with
      | (.ok b, s') => (f b).from s'
      | (.error e, s') => (.error e, s') := by
  change (ExceptT.bind x f) s = _
  rw [ExceptT.bind, ExceptT.mk]
  change ExceptT.bindCont f (x s).1 (x s).2 =
    match x s with | (.ok b, s') => _ | (.error e, s') => _
  rcases x s with ⟨_ | _, _⟩ <;> rfl

theorem from_lift (x : Except (Error α) β) : (lift x).from s = (x, s) := rfl

/-- Reading the solver first. -/
theorem from_get_bind (f : Solver α → InPlace α γ) : (get >>= f).from s = (f s).from s := rfl

/-- Something that can fail before anything is written. -/
theorem from_lift_bind (x : Except (Error α) β) (f : β → InPlace α γ) :
    (lift x >>= f).from s =
      match x with
      | .ok b => (f b).from s
      | .error e => (.error e, s) := by
  rw [from_bind, from_lift]
  cases x <;> rfl

theorem from_map (f : β → γ) (x : InPlace α β) :
    (f <$> x).from s = ((x.from s).1.map f, (x.from s).2) := by
  have hmap : f <$> x = x >>= fun b => pure (f b) := map_eq_pure_bind f x
  rw [hmap, from_bind]
  rcases x.from s with ⟨_ | _, _⟩ <;> rfl

def checkOwned (h : Handle) : InPlace α Unit := do lift ((← get).checkOwned h)

def push (v : Variable α) : InPlace α Handle := do
  let s ← get
  set { s with vars := s.vars ++ [v] }
  return s.nextHandle

def addConstraint (c : Constraint α) : InPlace α Unit := do
  c.terms.forM fun t => checkOwned t.1
  modify fun s => { s with constraints := s.constraints ++ [c] }

theorem from_checkOwned (h : Handle) :
    (checkOwned h : InPlace α Unit).from s = (s.checkOwned h, s) := rfl

/-- Looking at handles writes nothing, however far it gets. -/
theorem from_forM_checkOwned (terms : List (Handle × α)) :
    (terms.forM fun t => checkOwned t.1 : InPlace α Unit).from s =
      (terms.forM fun t => s.checkOwned t.1, s) := by
  induction terms with
  | nil => rfl
  | cons t terms ih =>
    have hcons : (t :: terms).forM (fun t => (checkOwned t.1 : InPlace α Unit)) =
        checkOwned t.1 >>= fun _ => terms.forM fun t => checkOwned t.1 := rfl
    have hcons' : (t :: terms).forM (fun t => s.checkOwned t.1) =
        s.checkOwned t.1 >>= fun _ => terms.forM fun t => s.checkOwned t.1 := rfl
    rw [hcons, hcons', from_bind, from_checkOwned]
    cases s.checkOwned t.1 with
    | error e => rfl
    | ok _ => exact ih

theorem from_addConstraint (c : Constraint α) :
    (addConstraint c).from s = settle s ((s.addConstraint? c).map ((), ·)) := by
  rw [addConstraint, from_bind, from_forM_checkOwned, addConstraint?]
  cases c.terms.forM fun t => s.checkOwned t.1 <;> rfl

variable [Scalar α]

def createBounded (name : String) (value min max : α) : InPlace α Handle := do
  if Scalar.isNaN min || Scalar.isNaN max || max < min then throw (.invalidBounds name min max)
  if Scalar.isNaN value then throw .nonFinite
  push (.create name value min max)

def setValue (h : Handle) (value : α) : InPlace α Unit := do
  checkOwned h
  if Scalar.isNaN value then throw .nonFinite
  modify fun s => { s with vars := s.vars.modify h.index (·.setValue value) }

def addLinear (kind : Kind) (handles : List Handle) (coefficients : List α)
    (constant strength : α) : InPlace α Unit := do
  let c ← lift (Constraint.make? kind handles coefficients constant strength)
  addConstraint c

def solve : InPlace α Bool := do
  let (s, holds) := (← get).solve
  set s
  return holds

def solveExact (backend : Backend α) : InPlace α Bool := do
  let s ← get
  let values ← lift (backend s.vars s.constraints)
  modify fun s => { s with vars := handOut Variable.setValue s.vars values }
  return (← get).isSatisfied

def reset : InPlace α Unit := modify Solver.reset

theorem from_createBounded (name : String) (value min max : α) :
    (createBounded name value min max).from s =
      settle s (s.createBounded? name value min max) := by
  rw [createBounded, createBounded?]
  split
  · rfl
  · split <;> rfl

theorem from_setValue (h : Handle) (value : α) :
    (setValue h value).from s = settle s ((s.setValue? h value).map ((), ·)) := by
  rw [setValue, from_bind, from_checkOwned, setValue?]
  cases s.checkOwned h with
  | error e => rfl
  | ok _ =>
    rw [ok_bind]
    dsimp only
    split <;> rfl

theorem from_addLinear (kind : Kind) (handles : List Handle) (coefficients : List α)
    (constant strength : α) :
    (addLinear kind handles coefficients constant strength).from s =
      settle s ((s.addLinear? kind handles coefficients constant strength).map ((), ·)) := by
  rw [addLinear, from_lift_bind, addLinear?]
  cases Constraint.make? kind handles coefficients constant strength with
  | error e => rfl
  | ok c => exact from_addConstraint c

theorem from_solveExact (backend : Backend α) :
    (solveExact backend).from s = settle s ((s.solveExact? backend).map Prod.swap) := by
  rw [solveExact, from_get_bind, from_lift_bind, solveExact?]
  cases backend s.vars s.constraints <;> rfl

end InPlace

inductive Call (α : Type) where
  | createVariable (name : String) (value : α)
  | createBounded (name : String) (value min max : α)
  | setValue (h : Handle) (value : α)
  | addConstraint (c : Constraint α)
  | addLinear (kind : Kind) (handles : List Handle) (coefficients : List α) (constant strength : α)
  | solve
  | solveExact
  | reset

inductive Answer where
  | handle (h : Handle)
  | truth (b : Bool)
  | done
  deriving DecidableEq, Repr

variable [Scalar α]

def Call.perform (backend : Backend α) : Call α → InPlace α Answer
  | .createVariable name value =>
    .handle <$> InPlace.push (.create name value Scalar.negInf Scalar.posInf)
  | .createBounded name value min max => .handle <$> InPlace.createBounded name value min max
  | .setValue h value => (fun _ => .done) <$> InPlace.setValue h value
  | .addConstraint c => (fun _ => .done) <$> InPlace.addConstraint c
  | .addLinear kind handles coefficients constant strength =>
    (fun _ => .done) <$> InPlace.addLinear kind handles coefficients constant strength
  | .solve => .truth <$> InPlace.solve
  | .solveExact => .truth <$> InPlace.solveExact backend
  | .reset => (fun _ => .done) <$> InPlace.reset

/-- The outcome of a call and the solver after it: a new variable, a new constraint over own
variables, other values, or nothing at all. -/
inductive Change (s : Solver α) : Except (Error α) Answer → Solver α → Prop
  | grown (v : Variable α) : Change s (.ok (.handle s.nextHandle)) (s.pushVariable v).2
  | bound (c : Constraint α) (howned : ∀ t ∈ c.terms, s.owns t.1 = true) :
    Change s (.ok .done) { s with constraints := s.constraints ++ [c] }
  | moved (answer : Answer) (vars : List (Variable α)) (hquiet : ∀ h, answer ≠ .handle h)
    (hsame : SameButValues vars s.vars) : Change s (.ok answer) { s with vars }
  | refused (e : Error α) : Change s (.error e) s

omit [Scalar α] in
/-- A call in one piece keeps what its result has. -/
theorem settle_keeps {P : Solver α → Prop} {s : Solver α} {f : β → Answer} {x : InPlace α β}
    {result : Except (Error α) (β × Solver α)} (hx : x.from s = settle s result) (hs : P s)
    (hok : ∀ b s', result = .ok (b, s') → P s') : P ((f <$> x).from s).2 := by
  rw [InPlace.from_map, hx]
  cases hresult : result with
  | error e => exact hs
  | ok r => exact hok r.1 r.2 hresult

omit [Scalar α] in
/-- What a call in one piece changes is all that the call changes. -/
theorem change_settle {s : Solver α} {f : β → Answer} {x : InPlace α β}
    {result : Except (Error α) (β × Solver α)} (hx : x.from s = settle s result)
    (hok : ∀ b s', result = .ok (b, s') → Change s (.ok (f b)) s') :
    Change s ((f <$> x).from s).1 ((f <$> x).from s).2 := by
  rw [InPlace.from_map, hx]
  cases hresult : result with
  | error e => exact .refused e
  | ok r => exact hok r.1 r.2 hresult

theorem change_perform (backend : Backend α) (s : Solver α) (c : Call α) :
    Change s ((c.perform backend).from s).1 ((c.perform backend).from s).2 := by
  cases c with
  | createVariable name value => exact .grown _
  | createBounded name value min max =>
    refine change_settle (InPlace.from_createBounded name value min max) fun h s' hs => ?_
    cases createBounded?_eq_ok hs
    exact .grown _
  | setValue h value =>
    refine change_settle (InPlace.from_setValue h value) fun _ s' hs => ?_
    obtain ⟨_, hset, hs⟩ := map_eq_ok.mp hs
    cases hs
    rw [setValue?_eq_ok hset]
    exact .moved _ _ nofun (.modify _ _ _ fun v => fixedPart_setValue v value)
  | addConstraint c =>
    refine change_settle (InPlace.from_addConstraint c) fun _ s' hs => ?_
    obtain ⟨_, hadd, hs⟩ := map_eq_ok.mp hs
    cases hs
    obtain ⟨rfl, howned⟩ := addConstraint?_eq_ok hadd
    exact .bound c howned
  | addLinear kind handles coefficients constant strength =>
    refine change_settle
      (InPlace.from_addLinear kind handles coefficients constant strength) fun _ s' hs => ?_
    obtain ⟨_, hlinear, hs⟩ := map_eq_ok.mp hs
    cases hs
    obtain ⟨c, -, hadd⟩ := bind_eq_ok.mp hlinear
    obtain ⟨rfl, howned⟩ := addConstraint?_eq_ok hadd
    exact .bound c howned
  | solve =>
    change Change s (.ok (.truth s.solve.2)) s.solve.1
    rw [solve_fst]
    exact .moved _ _ nofun (settled_sameButValues s)
  | solveExact =>
    refine change_settle (InPlace.from_solveExact backend) fun b s' hs => ?_
    obtain ⟨⟨t, b'⟩, hexact, hs⟩ := map_eq_ok.mp hs
    cases hs
    obtain ⟨hsame, ht, -⟩ := solveExact?_eq_ok hexact
    rw [ht]
    exact .moved _ _ nofun hsame
  | reset => exact .moved _ _ nofun (by simp [SameButValues, Variable.fixedPart, Variable.reset])

end Scene.Solver
