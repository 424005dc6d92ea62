import Scene.Proofs.Solver.Convergence

/-! A constraint reads and moves its own variables only. Two lists of variables that agree on those
are found satisfied alike, and agree on them again after an adjustment. -/
namespace Scene.Solver
variable {α : Type}

/-- The variable in the given place is in a term of a constraint that can be violated. -/
def Constraint.Involves (c : Constraint α) (i : Nat) : Prop :=
  c.kind.isObjective = false ∧ ∃ t ∈ c.terms, t.1.index = i

def Involved (constraints : List (Constraint α)) (i : Nat) : Prop :=
  ∃ c ∈ constraints, c.Involves i

def AgreeOn (places : Nat → Prop) (v w : List (Variable α)) : Prop :=
  ∀ i, places i → v[i]? = w[i]?

theorem AgreeOn.refl (places : Nat → Prop) (v : List (Variable α)) : AgreeOn places v v :=
  fun _ _ => rfl

theorem AgreeOn.trans {places : Nat → Prop} {u v w : List (Variable α)}
    (huv : AgreeOn places u v) (hvw : AgreeOn places v w) : AgreeOn places u w :=
  fun i hi => (huv i hi).trans (hvw i hi)

theorem AgreeOn.modify {places : Nat → Prop} {v w : List (Variable α)}
    (h : AgreeOn places v w) (i : Nat) (f : Variable α → Variable α) :
    AgreeOn places (v.modify i f) (w.modify i f) := by
  intro j hj
  rw [List.getElem?_modify, List.getElem?_modify, h j hj]

section
variable [Scalar α]

theorem reading_congr {places : Nat → Prop} {v w : List (Variable α)} (h : AgreeOn places v w)
    {x : Handle} (hx : places x.index) : reading v x = reading w x := by
  rw [reading, reading, h _ hx]

theorem foldl_terms_congr {places : Nat → Prop} {v w : List (Variable α)}
    (h : AgreeOn places v w) (terms : List (Handle × α)) (hp : ∀ t ∈ terms, places t.1.index)
    (start : α) :
    terms.foldl (fun sum t => sum + t.2 * reading v t.1) start =
      terms.foldl (fun sum t => sum + t.2 * reading w t.1) start := by
  induction terms generalizing start with
  | nil => rfl
  | cons t terms ih =>
    rw [List.foldl_cons, List.foldl_cons, reading_congr h (hp t (by simp))]
    exact ih (fun u hu => hp u (List.mem_cons_of_mem t hu)) _

theorem Constraint.evaluate_congr {places : Nat → Prop} {v w : List (Variable α)}
    (h : AgreeOn places v w) (c : Constraint α) (hp : ∀ t ∈ c.terms, places t.1.index) :
    c.evaluate (reading v) = c.evaluate (reading w) :=
  foldl_terms_congr h c.terms hp Scalar.negZero

theorem Constraint.isSatisfied_of_isObjective (c : Constraint α) (value : Handle → α)
    (epsilon : α) (h : c.kind.isObjective = true) : c.isSatisfied value epsilon = true := by
  cases hk : c.kind <;> simp_all [Constraint.isSatisfied, Kind.isObjective]

theorem Constraint.isSatisfied_congr {places : Nat → Prop} {v w : List (Variable α)}
    (h : AgreeOn places v w) (c : Constraint α) (hp : ∀ i, c.Involves i → places i)
    (epsilon : α) :
    c.isSatisfied (reading v) epsilon = c.isSatisfied (reading w) epsilon := by
  by_cases ho : c.kind.isObjective = true
  · rw [c.isSatisfied_of_isObjective _ _ ho, c.isSatisfied_of_isObjective _ _ ho]
  · have ht : ∀ t ∈ c.terms, places t.1.index :=
      fun t ht => hp _ ⟨by simpa using ho, t, ht, rfl⟩
    simp only [Constraint.isSatisfied, c.evaluate_congr h ht]

theorem isMovable_congr {places : Nat → Prop} {v w : List (Variable α)} (h : AgreeOn places v w)
    (difference : α) (t : Handle × α) (ht : places t.1.index) :
    isMovable v difference t = isMovable w difference t := by
  rw [isMovable, isMovable, h _ ht]

theorem foldl_moveTerm_agree {places : Nat → Prop} {v w : List (Variable α)}
    (h : AgreeOn places v w) (share : α) (terms : List (Handle × α)) :
    AgreeOn places (terms.foldl (moveTerm share) v) (terms.foldl (moveTerm share) w) := by
  induction terms generalizing v w with
  | nil => exact h
  | cons t terms ih => exact ih (h.modify t.1.index _)

theorem spread_agree {places : Nat → Prop} {v w : List (Variable α)} (h : AgreeOn places v w)
    (c : Constraint α) (hp : ∀ t ∈ c.terms, places t.1.index) :
    AgreeOn places (spread v c) (spread w c) := by
  have he := c.evaluate_congr h hp
  have hm : c.terms.filter (isMovable v (c.constant - c.evaluate (reading w))) =
      c.terms.filter (isMovable w (c.constant - c.evaluate (reading w))) :=
    List.filter_congr fun t ht => isMovable_congr h _ t (hp t ht)
  simp only [spread, he, hm]
  split
  · exact h
  · exact foldl_moveTerm_agree h _ _

theorem pin_agree {places : Nat → Prop} {v w : List (Variable α)} (h : AgreeOn places v w)
    (c : Constraint α) : AgreeOn places (pin v c) (pin w c) := by
  unfold pin
  split
  · exact h
  · split
    · exact h
    · exact h.modify _ _

theorem relax_agree {places : Nat → Prop} {v w : List (Variable α)} (h : AgreeOn places v w)
    (c : Constraint α) (hp : ∀ i, c.Involves i → places i) :
    AgreeOn places (relax v c) (relax w c) := by
  have ht : c.kind.isObjective = false → ∀ t ∈ c.terms, places t.1.index :=
    fun ho t ht => hp _ ⟨ho, t, ht, rfl⟩
  cases hk : c.kind <;> simp only [relax, hk]
  case fixed => exact pin_agree h c
  case minimize | maximize => exact h
  all_goals exact spread_agree h c (ht (by simp [hk, Kind.isObjective]))

/-- Adjusting a constraint within the common places keeps them common. -/
theorem adjust_agree {places : Nat → Prop} {v w : List (Variable α)} (h : AgreeOn places v w)
    (epsilon : α) (c : Constraint α) (hp : ∀ i, c.Involves i → places i) :
    AgreeOn places (adjust epsilon v c) (adjust epsilon w c) := by
  rw [adjust, adjust, c.isSatisfied_congr h hp]
  split
  · exact h
  · exact relax_agree h c hp

theorem foldl_moveTerm_frame (share : α) (terms : List (Handle × α)) (v : List (Variable α))
    (i : Nat) (hi : ∀ t ∈ terms, t.1.index ≠ i) :
    (terms.foldl (moveTerm share) v)[i]? = v[i]? := by
  induction terms generalizing v with
  | nil => rfl
  | cons t terms ih =>
    rw [List.foldl_cons, ih _ fun u hu => hi u (List.mem_cons_of_mem t hu), moveTerm,
      List.getElem?_modify_ne _ _ (hi t (by simp))]

theorem spread_frame (v : List (Variable α)) (c : Constraint α) (i : Nat)
    (hi : ∀ t ∈ c.terms, t.1.index ≠ i) : (spread v c)[i]? = v[i]? := by
  simp only [spread]
  split
  · rfl
  · exact foldl_moveTerm_frame _ _ v i fun t ht => hi t (List.mem_filter.mp ht).1

theorem pin_frame (v : List (Variable α)) (c : Constraint α) (i : Nat)
    (hi : ∀ t ∈ c.terms, t.1.index ≠ i) : (pin v c)[i]? = v[i]? := by
  cases ht : c.terms with
  | nil => simp [pin, ht]
  | cons t terms =>
    have hne : t.1.index ≠ i := hi t (by simp [ht])
    simp only [pin, ht]
    split
    · rfl
    · exact List.getElem?_modify_ne _ _ hne

/-- Adjusting a constraint leaves every other variable alone. -/
theorem adjust_frame (epsilon : α) (v : List (Variable α)) (c : Constraint α) (i : Nat)
    (hi : ¬ c.Involves i) : (adjust epsilon v c)[i]? = v[i]? := by
  have ht : c.kind.isObjective = false → ∀ t ∈ c.terms, t.1.index ≠ i :=
    fun ho t ht he => hi ⟨ho, t, ht, he⟩
  unfold adjust
  split
  · rfl
  · cases hk : c.kind <;> simp only [relax, hk]
    case fixed => exact pin_frame v c i (ht (by simp [hk, Kind.isObjective]))
    all_goals exact spread_frame v c i (ht (by simp [hk, Kind.isObjective]))

/-- A pass leaves alone what none of its constraints involves. -/
theorem sweep_frame (epsilon : α) (order : List (Constraint α)) (v : List (Variable α)) (i : Nat)
    (hi : ¬ Involved order i) : (sweep epsilon order v)[i]? = v[i]? := by
  induction order generalizing v with
  | nil => rfl
  | cons c order ih =>
    have hc : ¬ c.Involves i := fun h => hi ⟨c, by simp, h⟩
    have horder : ¬ Involved order i := fun ⟨d, hd, h⟩ => hi ⟨d, List.mem_cons_of_mem c hd, h⟩
    rw [sweep_cons, ih _ horder, adjust_frame epsilon v c i hc]

theorem allSatisfied_congr {places : Nat → Prop} {v w : List (Variable α)}
    (h : AgreeOn places v w) (constraints : List (Constraint α)) (epsilon : α)
    (hp : ∀ i, Involved constraints i → places i) :
    allSatisfied constraints epsilon v = allSatisfied constraints epsilon w := by
  induction constraints with
  | nil => rfl
  | cons c constraints ih =>
    have hc := c.isSatisfied_congr h (fun i hi => hp i ⟨c, by simp, hi⟩) epsilon
    have hrest := ih fun i ⟨d, hd, hi⟩ => hp i ⟨d, List.mem_cons_of_mem c hd, hi⟩
    simp only [allSatisfied, List.all_cons] at hrest ⊢
    rw [hc, hrest]

end
end Scene.Solver
