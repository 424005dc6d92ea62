import Scene.Solver.Exact.Problem
import Scene.Proofs.Solver.Frame

/-! Solving where every variable that is looked up by its number has to be there. For constraints
over existing variables nothing is missing at any point of a solve, and the result is the same. -/
namespace Scene.Solver
variable {α : Type}

def Constraint.Over (n : Nat) (c : Constraint α) : Prop := ∀ t ∈ c.terms, t.1.index < n

def reading? (vars : List (Variable α)) (h : Handle) : Option α := vars[h.index]?.map (·.value)

def changeAt? (vars : List (Variable α)) (h : Handle) (f : Variable α → Variable α) :
    Option (List (Variable α)) :=
  if h.index < vars.length then some (vars.modify h.index f) else none

variable [Scalar α]

def Constraint.evaluate? (c : Constraint α) (value : Handle → Option α) : Option α :=
  c.terms.foldlM (fun sum t => (value t.1).map fun x => sum + t.2 * x) Scalar.negZero

def Constraint.admits (c : Constraint α) (epsilon sum : α) : Bool :=
  match c.kind with
  | .equal | .fixed => Scalar.abs (sum - c.constant) ≤ epsilon
  | .lessEqual => sum ≤ c.constant + epsilon
  | .greaterEqual => c.constant - epsilon ≤ sum
  | .minimize | .maximize => true

/-- The sum is taken for every kind of constraint, also where it does not matter. -/
def Constraint.isSatisfied? (c : Constraint α) (value : Handle → Option α) (epsilon : α) :
    Option Bool :=
  (c.evaluate? value).map (c.admits epsilon)

def isMovable? (vars : List (Variable α)) (difference : α) (t : Handle × α) : Option Bool :=
  if t.2 == Scalar.zero then some false
  else vars[t.1.index]?.map (·.canMove (difference / t.2))

def movable? (vars : List (Variable α)) (difference : α) :
    List (Handle × α) → Option (List (Handle × α))
  | [] => some []
  | t :: terms => do
    let movable ← isMovable? vars difference t
    let rest ← movable? vars difference terms
    some (if movable then t :: rest else rest)

def moveTerm? (share : α) (vars : List (Variable α)) (t : Handle × α) :
    Option (List (Variable α)) :=
  changeAt? vars t.1 fun v => v.setValue (v.value + share / t.2)

def spread? (vars : List (Variable α)) (c : Constraint α) : Option (List (Variable α)) := do
  let sum ← c.evaluate? (reading? vars)
  let difference := c.constant - sum
  let movable ← movable? vars difference c.terms
  if movable.isEmpty then some vars
  else movable.foldlM (moveTerm? (difference / Scalar.ofNat movable.length)) vars

def pin? (vars : List (Variable α)) (c : Constraint α) : Option (List (Variable α)) :=
  match c.terms with
  | [] => some vars
  | (h, k) :: _ =>
    if k == Scalar.zero then some vars
    else changeAt? vars h fun v => v.setValue (c.constant / k)

def relax? (vars : List (Variable α)) (c : Constraint α) : Option (List (Variable α)) :=
  match c.kind with
  | .fixed => pin? vars c
  | .minimize | .maximize => some vars
  | .equal | .lessEqual | .greaterEqual => spread? vars c

def visit? (epsilon : α) (state : List (Variable α) × Bool) (c : Constraint α) :
    Option (List (Variable α) × Bool) := do
  if ← c.isSatisfied? (reading? state.1) epsilon then some state
  else (relax? state.1 c).map (·, false)

def passes? (epsilon : α) (order : List (Constraint α)) :
    Nat → List (Variable α) → Option (List (Variable α) × Bool)
  | 0, vars => some (vars, false)
  | n + 1, vars => do
    let (vars, clean) ← order.foldlM (visit? epsilon) (vars, true)
    if clean then some (vars, true) else passes? epsilon order n vars

/-- Stops at the first constraint that does not hold. -/
def allSatisfied? (epsilon : α) (vars : List (Variable α)) : List (Constraint α) → Option Bool
  | [] => some true
  | c :: constraints => do
    if ← c.isSatisfied? (reading? vars) epsilon then allSatisfied? epsilon vars constraints
    else some false

def isSatisfied? (s : Solver α) : Option Bool :=
  allSatisfied? s.settings.epsilon s.vars s.constraints

def solve? (s : Solver α) : Option (Solver α × Bool) := do
  let (vars, clean) ←
    passes? s.settings.epsilon (visitOrder s.constraints) s.settings.maxIterations s.vars
  let s := { s with vars }
  if clean then some (s, true) else (isSatisfied? s).map (s, ·)

variable {vars : List (Variable α)} {c : Constraint α}

omit [Scalar α] in
theorem SameButValues.length_eq {v w : List (Variable α)} (h : SameButValues v w) :
    v.length = w.length := by
  simpa using congrArg List.length h

omit [Scalar α] in
theorem changeAt?_eq {h : Handle} (hlt : h.index < vars.length) (f : Variable α → Variable α) :
    changeAt? vars h f = some (vars.modify h.index f) := if_pos hlt

theorem reading?_eq {h : Handle} (hlt : h.index < vars.length) :
    reading? vars h = some (reading vars h) := by
  rw [reading?, reading, List.getElem?_eq_getElem hlt]
  rfl

theorem foldlM_terms_eq (terms : List (Handle × α)) (h : ∀ t ∈ terms, t.1.index < vars.length)
    (start : α) :
    terms.foldlM (fun sum t => (reading? vars t.1).map fun x => sum + t.2 * x) start =
      some (terms.foldl (fun sum t => sum + t.2 * reading vars t.1) start) := by
  induction terms generalizing start with
  | nil => rfl
  | cons t terms ih =>
    rw [List.foldlM_cons, reading?_eq (h t List.mem_cons_self)]
    exact ih (fun u hu => h u (List.mem_cons_of_mem t hu)) _

theorem evaluate?_eq (h : c.Over vars.length) :
    c.evaluate? (reading? vars) = some (c.evaluate (reading vars)) :=
  foldlM_terms_eq c.terms h Scalar.negZero

theorem Constraint.isSatisfied?_eq (h : c.Over vars.length) (epsilon : α) :
    c.isSatisfied? (reading? vars) epsilon = some (c.isSatisfied (reading vars) epsilon) := by
  have hadmits : c.isSatisfied (reading vars) epsilon =
      c.admits epsilon (c.evaluate (reading vars)) := by
    unfold isSatisfied admits
    cases c.kind <;> rfl
  rw [isSatisfied?, evaluate?_eq h, hadmits]
  rfl

theorem isMovable?_eq {t : Handle × α} (h : t.1.index < vars.length) (difference : α) :
    isMovable? vars difference t = some (isMovable vars difference t) := by
  rw [isMovable?, isMovable, List.getElem?_eq_getElem h]
  cases t.2 == Scalar.zero <;> rfl

theorem movable?_eq (terms : List (Handle × α)) (h : ∀ t ∈ terms, t.1.index < vars.length)
    (difference : α) :
    movable? vars difference terms = some (terms.filter (isMovable vars difference)) := by
  induction terms with
  | nil => rfl
  | cons t terms ih =>
    rw [movable?, isMovable?_eq (h t List.mem_cons_self),
      ih fun u hu => h u (List.mem_cons_of_mem t hu), List.filter_cons]
    rfl

theorem foldlM_moveTerm?_eq (share : α) (terms : List (Handle × α))
    (h : ∀ t ∈ terms, t.1.index < vars.length) :
    terms.foldlM (moveTerm? share) vars = some (terms.foldl (moveTerm share) vars) := by
  induction terms generalizing vars with
  | nil => rfl
  | cons t terms ih =>
    have hmoved : moveTerm? share vars t = some (moveTerm share vars t) :=
      changeAt?_eq (h t List.mem_cons_self) _
    rw [List.foldlM_cons, hmoved]
    refine ih fun u hu => ?_
    rw [moveTerm, List.length_modify]
    exact h u (List.mem_cons_of_mem t hu)

theorem spread?_eq (h : c.Over vars.length) : spread? vars c = some (spread vars c) := by
  simp only [spread?, evaluate?_eq h, movable?_eq c.terms h, Option.bind_eq_bind, Option.bind_some]
  rw [spread]
  split
  · rfl
  · exact foldlM_moveTerm?_eq _ _ fun t ht => h t (List.mem_filter.mp ht).1

theorem pin?_eq (h : c.Over vars.length) : pin? vars c = some (pin vars c) := by
  rw [pin?, pin]
  cases hterms : c.terms with
  | nil => rfl
  | cons t terms =>
    dsimp only
    split
    · rfl
    · exact changeAt?_eq (h t (by simp [hterms])) _

theorem relax?_eq (h : c.Over vars.length) : relax? vars c = some (relax vars c) := by
  rw [relax?, relax]
  cases c.kind with
  | fixed => exact pin?_eq h
  | minimize => rfl
  | maximize => rfl
  | _ => exact spread?_eq h

theorem visit?_eq (h : c.Over vars.length) (epsilon : α) (clean : Bool) :
    visit? epsilon (vars, clean) c = some (visit epsilon (vars, clean) c) := by
  rw [visit?, visit, Constraint.isSatisfied?_eq h, relax?_eq h]
  cases c.isSatisfied (reading vars) epsilon <;> rfl

theorem length_visit (epsilon : α) (vars : List (Variable α)) (clean : Bool) (c : Constraint α) :
    (visit epsilon (vars, clean) c).1.length = vars.length := by
  rw [visit_eq]
  exact (adjust_sameButValues epsilon vars c).length_eq

theorem foldlM_visit?_eq (epsilon : α) (order : List (Constraint α)) (clean : Bool)
    (h : ∀ c ∈ order, c.Over vars.length) :
    order.foldlM (visit? epsilon) (vars, clean) =
      some (order.foldl (visit epsilon) (vars, clean)) := by
  induction order generalizing vars clean with
  | nil => rfl
  | cons c order ih =>
    have hrest : ∀ d ∈ order, d.Over (visit epsilon (vars, clean) c).1.length := by
      intro d hd
      rw [length_visit]
      exact h d (List.mem_cons_of_mem c hd)
    rw [List.foldlM_cons, visit?_eq (h c List.mem_cons_self)]
    exact ih _ hrest

theorem passes?_eq (epsilon : α) (order : List (Constraint α)) (n : Nat)
    (h : ∀ c ∈ order, c.Over vars.length) :
    passes? epsilon order n vars = some (passes epsilon order n vars) := by
  induction n generalizing vars with
  | zero => rfl
  | succ n ih =>
    have hlength : (sweep epsilon order vars).length = vars.length :=
      (sweep_sameButValues epsilon order vars).length_eq
    have hpass : order.foldlM (visit? epsilon) (vars, true) =
        some (sweep epsilon order vars, allSatisfied order epsilon vars) :=
      (foldlM_visit?_eq epsilon order true h).trans (congrArg some (pass_eq epsilon order vars))
    rw [passes?, passes, hpass, pass_eq]
    cases allSatisfied order epsilon vars with
    | true => rfl
    | false => exact ih fun c hc => hlength ▸ h c hc

theorem allSatisfied?_eq (epsilon : α) (constraints : List (Constraint α))
    (h : ∀ c ∈ constraints, c.Over vars.length) :
    allSatisfied? epsilon vars constraints = some (allSatisfied constraints epsilon vars) := by
  induction constraints with
  | nil => rfl
  | cons c constraints ih =>
    rw [allSatisfied?, Constraint.isSatisfied?_eq (h c List.mem_cons_self),
      ih fun d hd => h d (List.mem_cons_of_mem c hd), allSatisfied, allSatisfied, List.all_cons]
    cases c.isSatisfied (reading vars) epsilon <;> rfl

variable {s : Solver α}

theorem isSatisfied?_eq (h : ∀ c ∈ s.constraints, c.Over s.vars.length) :
    isSatisfied? s = some s.isSatisfied :=
  allSatisfied?_eq _ _ h

/-- Where constraints are over existing variables, solving looks up no other. -/
theorem solve?_eq (h : ∀ c ∈ s.constraints, c.Over s.vars.length) : solve? s = some s.solve := by
  have hpasses := passes?_eq s.settings.epsilon (visitOrder s.constraints)
    s.settings.maxIterations fun c hc => h c (List.mem_mergeSort.mp hc)
  have hlength : s.settled.length = s.vars.length := (settled_sameButValues s).length_eq
  have hafter : isSatisfied? { s with vars := s.settled } =
      some (Solver.isSatisfied { s with vars := s.settled }) :=
    isSatisfied?_eq fun c hc => hlength ▸ h c hc
  have hfst := passes_fst s.settings.epsilon (visitOrder s.constraints) s.settings.maxIterations
    s.vars
  rw [solve?, solve, hpasses]
  cases hresult : passes s.settings.epsilon (visitOrder s.constraints) s.settings.maxIterations
    s.vars with
  | mk vars clean =>
    rw [hresult] at hfst
    obtain rfl : vars = s.settled := hfst
    cases clean with
    | true => rfl
    | false =>
      change (isSatisfied? { s with vars := s.settled }).map _ = _
      rw [hafter]
      rfl

namespace Exact
variable {vars : List (Variable α)} {constraints : List (Constraint α)}

def Relation.Over (n : Nat) (r : Relation) : Prop := ∀ t ∈ r.terms, t.1 < n

theorem relationOf_over {c : Constraint α} {n : Nat} (h : c.Over n) : (relationOf c).Over n := by
  intro t ht
  obtain ⟨u, hu, rfl⟩ := List.mem_map.mp ht
  exact h u hu

omit [Scalar α] in
theorem single_over {v : Variable α} {i : Nat} (h : (v, i) ∈ vars.zipIdx) (sign : Sign) (q : Rat) :
    Relation.Over vars.length ⟨[(i, 1)], sign, q⟩ := by
  intro t ht
  obtain rfl := List.mem_singleton.mp ht
  simpa using List.snd_lt_of_mem_zipIdx h

theorem boundRelations_over : ∀ r ∈ boundRelations vars, r.1.Over vars.length := by
  intro r hr
  obtain ⟨⟨v, i⟩, hv, hr⟩ := List.mem_flatMap.mp hr
  rcases List.mem_append.mp hr with hr | hr
  all_goals
    dsimp only at hr
    split at hr
    · obtain rfl := List.mem_singleton.mp hr
      exact single_over hv _ _
    · cases hr

/-- The problem that exact solving poses speaks of its own variables. -/
theorem pose_over (h : ∀ c ∈ constraints, c.Over vars.length) :
    (∀ r ∈ (pose vars constraints).hard, r.Over (pose vars constraints).width) ∧
      ∀ r ∈ (pose vars constraints).soft, r.1.Over (pose vars constraints).width := by
  constructor
  · intro r hr
    obtain ⟨named, hnamed, rfl⟩ := List.mem_map.mp hr
    rcases List.mem_append.mp hnamed with hnamed | hnamed
    · exact boundRelations_over named hnamed
    · obtain ⟨c, hc, rfl⟩ := List.mem_map.mp hnamed
      exact relationOf_over (h c (List.mem_filter.mp hc).1)
  · intro r hr
    rcases List.mem_append.mp hr with hr | hr
    · obtain ⟨c, hc, hr⟩ := List.mem_filterMap.mp hr
      obtain ⟨w, -, rfl⟩ := Option.map_eq_some_iff.mp hr
      exact relationOf_over (h c hc)
    · obtain ⟨⟨v, i⟩, hv, hr⟩ := List.mem_filterMap.mp hr
      obtain ⟨q, -, rfl⟩ := Option.map_eq_some_iff.mp hr
      exact single_over hv _ _

end Exact

end Scene.Solver
