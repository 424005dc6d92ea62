import Scene.Proofs.Solver.Locality
import Scene.Proofs.Solver.VisitOrder
import Scene.Scalar.Exact

/-! Two groups of constraints that share no variable do not notice each other. Each pass of the whole
system is a pass of either group side by side, and a group that is satisfied already stays put while
the other goes on. -/
namespace Scene.Solver
variable {α : Type}

abbrev Split (α : Type) := List (Bool × Constraint α)

namespace Split

def whole (p : Split α) : List (Constraint α) := p.map (·.2)

def group (g : Bool) (p : Split α) : List (Constraint α) := (p.filter (·.1 == g)).map (·.2)

def Apart (p : Split α) : Prop := ∀ i, ¬ (Involved (p.group true) i ∧ Involved (p.group false) i)

theorem mem_group {p : Split α} {g : Bool} {c : Constraint α} : c ∈ p.group g ↔ (g, c) ∈ p := by
  simp [group]

theorem group_cons_self (g : Bool) (c : Constraint α) (p : Split α) :
    group g ((g, c) :: p) = c :: p.group g := by
  simp [group]

theorem group_cons_of_ne {g b : Bool} (h : b ≠ g) (c : Constraint α) (p : Split α) :
    group g ((b, c) :: p) = p.group g := by
  simp [group, h]

/-- What one group involves, the other leaves free. -/
theorem Apart.not_involves {p : Split α} (h : p.Apart) {g b : Bool} (hb : b ≠ g)
    {c : Constraint α} (hc : (b, c) ∈ p) {i : Nat} (hi : Involved (p.group g) i) :
    ¬ c.Involves i := by
  intro hci
  have hother : Involved (p.group b) i := ⟨c, mem_group.mpr hc, hci⟩
  cases g <;> cases b <;> simp_all [Apart]

variable [Scalar α]

def sorted (p : Split α) : Split α := p.mergeSort fun a b => visitsFirst a.2 b.2

theorem whole_sorted (p : Split α) : p.sorted.whole = visitOrder p.whole :=
  List.map_mergeSort fun _ _ _ _ => rfl

/-- Either group is visited in the order it would be visited in alone. -/
theorem group_sorted (g : Bool) (p : Split α) : p.sorted.group g = visitOrder (p.group g) := by
  have hf : p.sorted.filter (·.1 == g) = sorted (p.filter (·.1 == g)) :=
    filter_mergeSort (fun a b c => visitsFirst_trans a.2 b.2 c.2)
      (fun a b => visitsFirst_total a.2 b.2) _ p
  rw [group, hf]
  exact whole_sorted _

theorem mem_sorted {p : Split α} {e : Bool × Constraint α} : e ∈ p.sorted ↔ e ∈ p :=
  List.mem_mergeSort

/-- While the whole is passed over, the places of a group see that group alone. -/
theorem sweep_agree (g : Bool) (epsilon : α) {places : Nat → Prop} (p : Split α)
    (hin : ∀ c, (g, c) ∈ p → ∀ i, c.Involves i → places i)
    (hout : ∀ b c, b ≠ g → (b, c) ∈ p → ∀ i, places i → ¬ c.Involves i)
    {v w : List (Variable α)} (h : AgreeOn places v w) :
    AgreeOn places (sweep epsilon p.whole v) (sweep epsilon (p.group g) w) := by
  induction p generalizing v w with
  | nil => exact h
  | cons e p ih =>
    obtain ⟨b, c⟩ := e
    have ih' := @ih (fun c hc => hin c (List.mem_cons_of_mem _ hc))
      (fun b c hb hc => hout b c hb (List.mem_cons_of_mem _ hc))
    by_cases hb : b = g
    · subst b
      rw [group_cons_self]
      exact ih' (adjust_agree h epsilon c (hin c (by simp)))
    · rw [group_cons_of_ne hb]
      have hframe : AgreeOn places (adjust epsilon v c) v :=
        fun i hi => adjust_frame epsilon v c i (hout b c hb (by simp) i hi)
      exact ih' (hframe.trans h)

theorem allSatisfied_whole (epsilon : α) (p : Split α) (v : List (Variable α)) :
    allSatisfied p.whole epsilon v =
      (allSatisfied (p.group true) epsilon v && allSatisfied (p.group false) epsilon v) := by
  induction p with
  | nil => rfl
  | cons e p ih =>
    obtain ⟨b, c⟩ := e
    have hcons : allSatisfied (whole ((b, c) :: p)) epsilon v =
        (c.isSatisfied (reading v) epsilon && allSatisfied (whole p) epsilon v) := rfl
    rw [hcons, ih]
    cases b
    · simp [group_cons_self, group_cons_of_ne, allSatisfied, Bool.and_left_comm]
    · simp [group_cons_self, group_cons_of_ne, allSatisfied, Bool.and_assoc]

end Split

def only (s : Solver α) (constraints : List (Constraint α)) : Solver α := { s with constraints }

section
variable [Scalar α] (s : Solver α)

/-- Solving the whole ends, in the places of a group, where solving that group alone ends. -/
theorem settled_agree (p : Split α) (h : p.Apart) (g : Bool) :
    AgreeOn (Involved (p.group g)) (s.only p.whole).settled (s.only (p.group g)).settled := by
  have hsweep : ∀ v w, AgreeOn (Involved (p.group g)) v w →
      AgreeOn (Involved (p.group g)) (sweep s.settings.epsilon (visitOrder p.whole) v)
        (sweep s.settings.epsilon (visitOrder (p.group g)) w) := by
    intro v w hvw
    rw [← p.whole_sorted, ← p.group_sorted]
    refine p.sorted.sweep_agree g _ ?_ ?_ hvw
    · intro c hc i hi
      exact ⟨c, Split.mem_group.mpr (Split.mem_sorted.mp hc), hi⟩
    · intro b c hb hc i hi
      exact h.not_involves hb (Split.mem_sorted.mp hc) hi
  simp only [settled, only]
  induction s.settings.maxIterations with
  | zero => exact .refl _ _
  | succ n ih =>
    rw [Function.iterate_succ_apply', Function.iterate_succ_apply']
    exact hsweep _ _ ih

/-- A variable that no constraint involves keeps its value. -/
theorem settled_frame (i : Nat) (hi : ¬ Involved s.constraints i) : s.settled[i]? = s.vars[i]? := by
  have horder : ¬ Involved (visitOrder s.constraints) i :=
    fun ⟨c, hc, h⟩ => hi ⟨c, List.mem_mergeSort.mp hc, h⟩
  rw [settled]
  induction s.settings.maxIterations with
  | zero => rfl
  | succ n ih => rw [Function.iterate_succ_apply', sweep_frame _ _ _ _ horder, ih]

/-- The answer for a group is the same whether it is asked of its own values or of the whole's. -/
theorem isSatisfied_group (p : Split α) (h : p.Apart) (g : Bool) :
    allSatisfied (p.group g) s.settings.epsilon (s.only p.whole).settled =
      (s.only (p.group g)).solve.2 := by
  rw [solve_snd, solve_fst]
  exact allSatisfied_congr (s.settled_agree p h g) _ _ fun _ hi => hi

/-- Solving a system of two groups without a common variable gives the variables of either group what
solving that group alone gives them, keeps all others, and succeeds where both groups do. -/
theorem solve_of_apart (p : Split α) (hs : s.constraints = p.whole) (h : p.Apart) :
    (∀ g i, Involved (p.group g) i →
        s.solve.1.vars[i]? = (s.only (p.group g)).solve.1.vars[i]?) ∧
      (∀ i, ¬ Involved s.constraints i → s.solve.1.vars[i]? = s.vars[i]?) ∧
      s.solve.2 = ((s.only (p.group true)).solve.2 && (s.only (p.group false)).solve.2) := by
  have hw : s.only p.whole = s := by rw [only, ← hs]
  refine ⟨?_, ?_, ?_⟩
  · intro g i hi
    have hagree := s.settled_agree p h g i hi
    rw [hw] at hagree
    simpa only [solve_fst] using hagree
  · intro i hi
    rw [solve_fst]
    exact s.settled_frame i hi
  · have hsplit := p.allSatisfied_whole s.settings.epsilon (s.only p.whole).settled
    rw [s.isSatisfied_group p h true, s.isSatisfied_group p h false, hw, ← hs] at hsplit
    rw [← hsplit, solve_snd, solve_fst]
    rfl

end

def quarrel : Split Exact :=
  [(true, ⟨.fixed, [(⟨0, 0⟩, .fin 1)], .fin 10, .fin (1 / 4)⟩),
    (false, ⟨.greaterEqual, [(⟨0, 1⟩, .fin 1)], .fin 5, .fin 1⟩),
    (false, ⟨.minimize, [(⟨0, 0⟩, .fin 1), (⟨0, 1⟩, .fin 1)], .fin 0, .fin (1 / 2)⟩),
    (true, ⟨.equal, [(⟨0, 0⟩, .fin 1)], .fin 20, .fin 1⟩)]

def quarrelling : Solver Exact :=
  { number := 0
    vars := [.create "x" (.fin 0) .negInf .posInf, .create "y" (.fin 0) (.fin 0) .posInf]
    constraints := quarrel.whole
    settings := .standard }

theorem quarrel_apart : quarrel.Apart := by
  intro i ⟨hx, hy⟩
  have hx : 0 = i := by
    simpa [Involved, Constraint.Involves, Split.group, quarrel, Kind.isObjective] using hx
  have hy : 1 = i := by
    simpa [Involved, Constraint.Involves, Split.group, quarrel, Kind.isObjective] using hy
  omega

theorem solve_quarrelling :
    (quarrelling.constraints = quarrel.whole ∧ quarrel.Apart) ∧
      (∀ g i, Involved (quarrel.group g) i →
        quarrelling.solve.1.vars[i]? = (quarrelling.only (quarrel.group g)).solve.1.vars[i]?) ∧
      (∀ i, ¬ Involved quarrelling.constraints i →
        quarrelling.solve.1.vars[i]? = quarrelling.vars[i]?) ∧
      quarrelling.solve.2 =
        ((quarrelling.only (quarrel.group true)).solve.2 &&
          (quarrelling.only (quarrel.group false)).solve.2) :=
  ⟨⟨rfl, quarrel_apart⟩, solve_of_apart quarrelling quarrel rfl quarrel_apart⟩

end Scene.Solver
