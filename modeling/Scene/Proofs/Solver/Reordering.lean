import Mathlib.Data.List.Basic
import Scene.Scalar.Exact
import Scene.Proofs.Solver.Convergence
import Scene.Proofs.Solver.VisitOrder

/-! When constraints were added counts among constraints of one strength only. The visiting order is
sorted and stable, so it is told by the order within each strength, and solving is told by the
visiting order. -/
namespace Scene.Solver
variable {α β : Type}

section
variable {le : β → β → Bool}

def tied (le : β → β → Bool) (a b : β) : Bool := le a b && le b a

variable (total : ∀ a b, le a b || le b a)
include total

theorem tied_self (a : β) : tied le a a = true := by simpa [tied] using total a a

theorem mem_filter_tied {a : β} {l : List β} : a ∈ l.filter (tied le a) ↔ a ∈ l := by
  rw [List.mem_filter, and_iff_left (tied_self total a)]

theorem le_head {a b : β} {l : List β} (hl : (b :: l).Pairwise (le · ·)) (ha : a ∈ b :: l) :
    le b a = true := by
  rcases List.mem_cons.mp ha with rfl | ha
  · simpa using total a a
  · exact (List.pairwise_cons.mp hl).1 a ha

/-- Two sorted lists are one if they hold the same, in the same order, in each class of ties. -/
theorem eq_of_filter_tied {l l' : List β} (hl : l.Pairwise (le · ·)) (hl' : l'.Pairwise (le · ·))
    (h : ∀ c, l.filter (tied le c) = l'.filter (tied le c)) : l = l' := by
  have hmem : ∀ a, a ∈ l ↔ a ∈ l' := fun a => by
    rw [← mem_filter_tied total, h, mem_filter_tied total]
  induction l generalizing l' with
  | nil =>
    exact (List.eq_nil_iff_forall_not_mem.mpr fun a ha => List.not_mem_nil ((hmem a).mpr ha)).symm
  | cons a l ih =>
    cases l' with
    | nil => exact absurd ((hmem a).mp List.mem_cons_self) List.not_mem_nil
    | cons b l' =>
      have hba : le b a = true := le_head total hl' ((hmem a).mp List.mem_cons_self)
      have hab : le a b = true := le_head total hl ((hmem b).mpr List.mem_cons_self)
      have hclass := h a
      rw [List.filter_cons_of_pos (tied_self total a),
        List.filter_cons_of_pos (by rw [tied, hab, hba]; rfl)] at hclass
      obtain rfl : a = b := (List.cons.inj hclass).1
      have htails : ∀ c, l.filter (tied le c) = l'.filter (tied le c) := fun c => by
        have hc := h c
        rw [List.filter_cons, List.filter_cons] at hc
        split at hc
        · exact (List.cons.inj hc).2
        · exact hc
      refine congrArg _ (ih (List.pairwise_cons.mp hl).2 (List.pairwise_cons.mp hl').2 htails ?_)
      intro c
      rw [← mem_filter_tied total, htails, mem_filter_tied total]

/-- A stable sort sees of a list the order within each class of ties and nothing else. -/
theorem mergeSort_eq_of_filter_tied (trans : ∀ a b c, le a b → le b c → le a c) {l l' : List β}
    (h : ∀ c, l.filter (tied le c) = l'.filter (tied le c)) : l.mergeSort le = l'.mergeSort le := by
  refine eq_of_filter_tied total (List.pairwise_mergeSort trans total l)
    (List.pairwise_mergeSort trans total l') fun c => ?_
  rw [filter_mergeSort trans total, filter_mergeSort trans total, h]

end

def Constraint.inSolver (number : Nat) (c : Constraint α) : Constraint α :=
  { c with terms := c.terms.map fun t => (⟨number, t.1.index⟩, t.2) }

variable [Scalar α]

/-- At one place in the line of all numbers, in which minus zero and zero have places of their
own. -/
def SameStrength (c d : Constraint α) : Prop := Scalar.compareAll c.strength d.strength = .eq

instance (c d : Constraint α) : Decidable (SameStrength c d) :=
  inferInstanceAs (Decidable (_ = Ordering.eq))

/-- The same constraints, added in another order: each of them with the place that it had before.
Constraints of the same strength come in the order of their places. -/
def Reordered (before after : List (Constraint α)) : Prop :=
  ∃ placed : List (Constraint α × Nat), placed.Perm before.zipIdx ∧ placed.map Prod.fst = after ∧
    placed.Pairwise fun a b => SameStrength a.1 b.1 → a.2 < b.2

theorem tied_visitsFirst (c d : Constraint α) :
    tied visitsFirst c d = true ↔ SameStrength c d := by
  have hswap : Scalar.compareAll d.strength c.strength =
      (Scalar.compareAll c.strength d.strength).swap := Std.OrientedCmp.eq_swap
  rw [tied, Bool.and_eq_true, visitsFirst_iff, visitsFirst_iff, SameStrength, hswap]
  cases Scalar.compareAll c.strength d.strength <;> decide

theorem SameStrength.of_common {b c d : Constraint α} (hc : SameStrength b c)
    (hd : SameStrength b d) : SameStrength c d :=
  Std.TransCmp.eq_trans (Std.OrientedCmp.eq_symm hc) hd

theorem Reordered.filter_tied {before after : List (Constraint α)} (h : Reordered before after)
    (c : Constraint α) :
    before.filter (tied visitsFirst c) = after.filter (tied visitsFirst c) := by
  obtain ⟨placed, hperm, rfl, hplaced⟩ := h
  have hrising : before.zipIdx.Pairwise (·.2 < ·.2) :=
    List.pairwise_iff_getElem.mpr fun i j _ _ hlt => by simpa using hlt
  have hclass : (placed.filter fun a => tied visitsFirst c a.1).Pairwise (·.2 < ·.2) := by
    refine (hplaced.sublist List.filter_sublist).imp_of_mem fun ha hb hlt => hlt ?_
    have ha := (tied_visitsFirst c _).mp (List.mem_filter.mp ha).2
    exact ha.of_common ((tied_visitsFirst c _).mp (List.mem_filter.mp hb).2)
  have hsame : (placed.filter fun a => tied visitsFirst c a.1) =
      before.zipIdx.filter fun a => tied visitsFirst c a.1 :=
    List.Perm.eq_of_pairwise (fun a b _ _ hab hba => absurd hba (Nat.lt_asymm hab)) hclass
      (hrising.sublist List.filter_sublist) (hperm.filter _)
  have hfirst := congrArg (List.map Prod.fst) hsame
  rw [← Function.comp_def (tied visitsFirst c) Prod.fst, ← List.filter_map, ← List.filter_map,
    List.zipIdx_map_fst] at hfirst
  exact hfirst.symm

theorem Reordered.visitOrder_eq {before after : List (Constraint α)} (h : Reordered before after) :
    visitOrder before = visitOrder after :=
  mergeSort_eq_of_filter_tied visitsFirst_total visitsFirst_trans h.filter_tied

/-! Handles count as places only. -/

variable (number : Nat) (c : Constraint α) (epsilon : α) (vars : List (Variable α))

theorem evaluate_inSolver : (c.inSolver number).evaluate (reading vars) =
    c.evaluate (reading vars) :=
  List.foldl_map

theorem isSatisfied_inSolver : (c.inSolver number).isSatisfied (reading vars) epsilon =
    c.isSatisfied (reading vars) epsilon := by
  rw [Constraint.isSatisfied, evaluate_inSolver]
  rfl

theorem spread_inSolver : spread vars (c.inSolver number) = spread vars c := by
  have hmovable (difference : α) : (c.inSolver number).terms.filter (isMovable vars difference) =
      (c.terms.filter (isMovable vars difference)).map fun t => (⟨number, t.1.index⟩, t.2) :=
    List.filter_map
  simp only [spread, evaluate_inSolver, hmovable, List.isEmpty_map, List.length_map,
    List.foldl_map]
  rfl

theorem pin_inSolver : pin vars (c.inSolver number) = pin vars c := by
  unfold pin Constraint.inSolver
  cases c.terms <;> rfl

theorem adjust_inSolver : adjust epsilon vars (c.inSolver number) = adjust epsilon vars c := by
  rw [adjust, adjust, isSatisfied_inSolver, relax, relax, spread_inSolver, pin_inSolver]
  rfl

theorem sweep_inSolver (order : List (Constraint α)) :
    sweep epsilon (order.map (·.inSolver number)) vars = sweep epsilon order vars := by
  rw [sweep, sweep, List.foldl_map]
  simp only [adjust_inSolver]

theorem allSatisfied_inSolver (constraints : List (Constraint α)) :
    allSatisfied (constraints.map (·.inSolver number)) epsilon vars =
      allSatisfied constraints epsilon vars := by
  simp only [allSatisfied, List.all_map, Function.comp_def, isSatisfied_inSolver]

theorem visitOrder_inSolver (constraints : List (Constraint α)) :
    visitOrder (constraints.map (·.inSolver number)) =
      (visitOrder constraints).map (·.inSolver number) :=
  (List.map_mergeSort (f := Constraint.inSolver number) fun _ _ _ _ => rfl).symm

/-- Two solvers with the same variables and settings, and with the same constraints but for the
order in which those of different strengths were added, give every variable the same value and the
same answer. -/
theorem solve_of_reordered {s t : Solver α} (hvars : t.vars = s.vars)
    (hsettings : t.settings = s.settings)
    (h : Reordered s.constraints (t.constraints.map (·.inSolver s.number))) :
    t.solve.1.vars = s.solve.1.vars ∧ t.solve.2 = s.solve.2 := by
  have horder : visitOrder s.constraints = (visitOrder t.constraints).map (·.inSolver s.number) :=
    h.visitOrder_eq.trans (visitOrder_inSolver s.number t.constraints)
  have hsettled : t.settled = s.settled := by
    have hsweep : sweep s.settings.epsilon (visitOrder s.constraints) =
        sweep s.settings.epsilon (visitOrder t.constraints) := by
      funext vars
      rw [horder, sweep_inSolver]
    rw [settled, settled, hvars, hsettings, hsweep]
  constructor
  · rw [solve_fst, solve_fst, hsettled]
  · rw [solve_snd, solve_snd, solve_fst, solve_fst, isSatisfied, isSatisfied, hsettled, hsettings,
      ← allSatisfied_visitOrder s.constraints, horder, allSatisfied_inSolver,
      allSatisfied_visitOrder]

def wish (number : Nat) (width strength : Rat) : Constraint Exact :=
  ⟨.fixed, [(⟨number, 0⟩, .fin 1)], .fin width, .fin strength⟩

def wishing (number : Nat) (constraints : List (Constraint Exact)) : Solver Exact :=
  ⟨number, [.create "width" (.fin 0) .negInf .posInf], constraints, ⟨2, .fin 0, false⟩⟩

def weakLast : Solver Exact := wishing 0 [wish 0 10 1, wish 0 30 1, wish 0 20 (1 / 2)]

def weakFirst : Solver Exact := wishing 1 [wish 1 20 (1 / 2), wish 1 10 1, wish 1 30 1]

theorem weakFirst_reordered :
    Reordered weakLast.constraints (weakFirst.constraints.map (·.inSolver weakLast.number)) :=
  ⟨[(wish 0 20 (1 / 2), 2), (wish 0 10 1, 0), (wish 0 30 1, 1)],
    (List.perm_append_singleton _ [_, _]).symm, rfl, by decide +kernel⟩

theorem visitOrder_weakLast : visitOrder weakLast.constraints = weakLast.constraints :=
  List.mergeSort_of_pairwise (by decide +kernel)

/-- Either way the weak wish has the last word. -/
theorem weakFirst_solves_alike :
    Reordered weakLast.constraints (weakFirst.constraints.map (·.inSolver weakLast.number)) ∧
      weakFirst.solve.1.snapshot = [.fin 20] ∧ weakFirst.solve.2 = false := by
  obtain ⟨hvars, hanswer⟩ := solve_of_reordered (s := weakLast) (t := weakFirst) rfl rfl
    weakFirst_reordered
  rw [snapshot, hvars, hanswer, solve, visitOrder_weakLast]
  exact ⟨weakFirst_reordered, by decide +kernel⟩

end Scene.Solver
