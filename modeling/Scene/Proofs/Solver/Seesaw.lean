import Mathlib.Data.List.Permutation
import Scene.Proofs.Solver.LastWord
import Scene.Proofs.Solver.Repeats

/-! Two constraints that undo each other. Adjusting one closes its gap and opens one in the other,
and a whole pass leaves a gap in the constraint visited first that is a fixed part of the gap before.
An equation and a pin on one of its variables shrink it to the part that one term has in the
equation. -/
namespace Scene.Solver

/-- In all states with `P`, adjusting `c` where it is violated closes its gap, and `d` pays for it
at a fixed rate. -/
structure Trades (P : List (Variable Exact) → Prop) (epsilon : Exact) (c d : Constraint Exact)
    (rate : Rat) : Prop where
  holds : ∀ vars, P vars →
    (c.isSatisfied (reading vars) epsilon = true ↔ .fin |c.gap vars| ≤ epsilon)
  keeps : ∀ vars, P vars → P (adjust epsilon vars c)
  closes : ∀ vars, P vars → c.isSatisfied (reading vars) epsilon = false →
    c.gap (adjust epsilon vars c) = 0
  costs : ∀ vars, P vars → c.isSatisfied (reading vars) epsilon = false →
    d.gap (adjust epsilon vars c) = d.gap vars - rate * c.gap vars

/-- Both constraints hold, or only the first does not hold exactly, by no more than `b`. -/
def Levelled (epsilon : Exact) (c d : Constraint Exact) (b : Rat) (vars : List (Variable Exact)) :
    Prop :=
  allSatisfied [c, d] epsilon vars = true ∨ d.gap vars = 0 ∧ |c.gap vars| ≤ b

section
variable {P : List (Variable Exact) → Prop} {epsilon : Exact} {c d : Constraint Exact}
  {r r' b : Rat} {vars : List (Variable Exact)}

theorem allSatisfied_pair : allSatisfied [c, d] epsilon vars = true ↔
    c.isSatisfied (reading vars) epsilon = true ∧ d.isSatisfied (reading vars) epsilon = true := by
  rw [allSatisfied, List.all_cons, List.all_cons, List.all_nil, Bool.and_true, Bool.and_eq_true]

theorem Trades.isSatisfied_of_gap (hc : Trades P epsilon c d r) (hepsilon : Scalar.zero ≤ epsilon)
    (hP : P vars) (hgap : c.gap vars = 0) : c.isSatisfied (reading vars) epsilon = true := by
  rw [hc.holds vars hP, hgap, abs_zero]
  exact hepsilon

section
variable (hc : Trades P epsilon c d r) (hd : Trades P epsilon d c r')
  (hepsilon : Scalar.zero ≤ epsilon) (hP : P vars)
include hc hd hepsilon hP

/-- One pass, from anywhere: whatever was skipped, the second constraint has no gap unless both
hold. -/
theorem Levelled.start :
    Levelled epsilon c d |c.gap (sweep epsilon [c, d] vars)| (sweep epsilon [c, d] vars) := by
  let moved := adjust epsilon vars c
  have hmoved : P moved := hc.keeps vars hP
  change Levelled epsilon c d |c.gap (adjust epsilon moved d)| (adjust epsilon moved d)
  cases hdnow : d.isSatisfied (reading moved) epsilon with
  | false => exact .inr ⟨hd.closes moved hmoved hdnow, le_refl _⟩
  | true =>
    rw [adjust_of_isSatisfied hdnow]
    refine .inl (allSatisfied_pair.mpr ⟨?_, hdnow⟩)
    cases hcnow : c.isSatisfied (reading vars) epsilon with
    | true =>
      have hstay : moved = vars := adjust_of_isSatisfied hcnow
      rw [hstay, hcnow]
    | false => exact hc.isSatisfied_of_gap hepsilon hmoved (hc.closes vars hP hcnow)

/-- A further pass: the gap goes over to the second constraint and back again. -/
theorem Levelled.sweep (h : Levelled epsilon c d b vars) :
    Levelled epsilon c d (|r * r'| * b) (sweep epsilon [c, d] vars) := by
  obtain hall | ⟨hgap, hbound⟩ := h
  · rw [sweep_of_allSatisfied _ _ _ hall]
    exact .inl hall
  · let moved := adjust epsilon vars c
    have hmoved : P moved := hc.keeps vars hP
    cases hcnow : c.isSatisfied (reading vars) epsilon with
    | true =>
      have hall : allSatisfied [c, d] epsilon vars = true :=
        allSatisfied_pair.mpr ⟨hcnow, hd.isSatisfied_of_gap hepsilon hP hgap⟩
      rw [sweep_of_allSatisfied _ _ _ hall]
      exact .inl hall
    | false =>
      have hclosed : c.gap moved = 0 := hc.closes vars hP hcnow
      have hpaid : d.gap moved = d.gap vars - r * c.gap vars := hc.costs vars hP hcnow
      change Levelled epsilon c d _ (adjust epsilon moved d)
      cases hdnow : d.isSatisfied (reading moved) epsilon with
      | true =>
        rw [adjust_of_isSatisfied hdnow]
        exact .inl (allSatisfied_pair.mpr ⟨hc.isSatisfied_of_gap hepsilon hmoved hclosed, hdnow⟩)
      | false =>
        refine .inr ⟨hd.closes moved hmoved hdnow, ?_⟩
        have hback : c.gap (adjust epsilon moved d) = r * r' * c.gap vars := by
          rw [hd.costs moved hmoved hdnow, hclosed, hpaid, hgap]
          ring
        rw [hback, abs_mul]
        exact mul_le_mul_of_nonneg_left hbound (abs_nonneg _)

end

theorem Levelled.iterate (hc : Trades P epsilon c d r) (hd : Trades P epsilon d c r')
    (hepsilon : Scalar.zero ≤ epsilon) (hP : P vars) (h : Levelled epsilon c d b vars) (n : Nat) :
    P ((Solver.sweep epsilon [c, d])^[n] vars) ∧
      Levelled epsilon c d (|r * r'| ^ n * b) ((Solver.sweep epsilon [c, d])^[n] vars) := by
  induction n generalizing vars b with
  | zero => exact ⟨hP, by rwa [pow_zero, one_mul]⟩
  | succ n ih =>
    have hnext := ih (hd.keeps _ (hc.keeps vars hP)) (h.sweep hc hd hepsilon hP)
    rw [Function.iterate_succ_apply, pow_succ, mul_assoc]
    exact hnext

theorem Levelled.allSatisfied (hc : Trades P epsilon c d r) (hd : Trades P epsilon d c r')
    (hepsilon : Scalar.zero ≤ epsilon) (hP : P vars) (h : Levelled epsilon c d b vars)
    (hb : .fin b ≤ epsilon) : allSatisfied [c, d] epsilon vars = true := by
  obtain hall | ⟨hgap, hbound⟩ := h
  · exact hall
  · have hnear : .fin |c.gap vars| ≤ epsilon := Exact.le_trans (Exact.fin_le.mpr hbound) hb
    exact allSatisfied_pair.mpr
      ⟨(hc.holds vars hP).mpr hnear, hd.isSatisfied_of_gap hepsilon hP hgap⟩

/-- With a pass more than there are powers, the pair is settled. -/
theorem Trades.settles (hc : Trades P epsilon c d r) (hd : Trades P epsilon d c r') (hP : P vars)
    (n : Nat) (hb : .fin (|r * r'| ^ n * |c.gap (sweep epsilon [c, d] vars)|) ≤ epsilon) :
    allSatisfied [c, d] epsilon ((sweep epsilon [c, d])^[n + 1] vars) = true := by
  have hepsilon : Scalar.zero ≤ epsilon := by
    refine Exact.le_trans (Exact.fin_le.mpr ?_) hb
    exact mul_nonneg (pow_nonneg (abs_nonneg _) n) (abs_nonneg _)
  have hstart := Levelled.start hc hd hepsilon hP
  obtain ⟨hend, hlevelled⟩ := hstart.iterate hc hd hepsilon (hd.keeps _ (hc.keeps vars hP)) n
  rw [Function.iterate_succ_apply]
  exact hlevelled.allSatisfied hc hd hepsilon hend hb

/-- Solving for such a pair, which the objectives beside it do not disturb. -/
theorem Trades.solved {s : Solver Exact} (hc : Trades P s.settings.epsilon c d r)
    (hd : Trades P s.settings.epsilon d c r') (hP : P s.vars)
    (horder : visitOrder (binding s.constraints) = [c, d]) {n : Nat}
    (hn : s.settings.maxIterations = n + 1)
    (hb : .fin (|r * r'| ^ n * |c.gap (sweep s.settings.epsilon [c, d] s.vars)|) ≤
      s.settings.epsilon) : s.solve.2 = true := by
  rw [solve_snd_eq_binding, ← allSatisfied_visitOrder, horder, settled_eq_of_visitOrder horder, hn]
  exact hc.settles hd hP n hb

end

/-- An equation over different variables without bounds, and a pin on the variable of its term `t`.
The variables start at finite values: exact arithmetic knows no others, and from an infinite one the
sum that a step closes in on is none. -/
structure PinnedEquation (equation pin : Constraint Exact) (t : Handle × Exact)
    (vars : List (Variable Exact)) : Prop where
  equal : equation.kind = .equal
  ready : equation.Ready vars
  unbounded : equation.Unbounded vars
  distinct : (equation.terms.map (·.1.index)).Nodup
  weights : ∀ u ∈ equation.terms, (u.2 == Scalar.zero) = false
  fixed : pin.kind = .fixed
  pinned : ∃ h : Handle, pin.terms = [(h, .fin 1)] ∧ h.index = t.1.index
  target : Scalar.isFinite pin.constant = true
  shared : t ∈ equation.terms

namespace PinnedEquation
variable {equation pin : Constraint Exact} {t : Handle × Exact} {vars : List (Variable Exact)}
  {epsilon : Exact} (h : PinnedEquation equation pin t vars)
include h

theorem isWeight : ∀ u ∈ equation.terms, IsWeight u.2 := fun u hu =>
  ⟨h.ready.finite.coefficients u hu, h.weights u hu⟩

theorem pin_ready : pin.Ready vars := by
  obtain ⟨x, hterms, hplace⟩ := h.pinned
  refine ⟨⟨h.target, ?_⟩, ?_⟩
  · rw [hterms]
    exact List.forall_mem_singleton.mpr rfl
  · rw [hterms]
    exact List.forall_mem_singleton.mpr (hplace ▸ h.ready.held t h.shared)

theorem gap_pin : pin.gap vars = pin.constant.base - (reading vars t.1).base := by
  obtain ⟨x, hterms, hplace⟩ := h.pinned
  have hsame : reading vars x = reading vars t.1 := by rw [reading, reading, hplace]
  rw [Constraint.gap, hterms, List.map_singleton, List.sum_singleton, hsame]
  exact congrArg (pin.constant.base - ·) (one_mul _)

theorem of_same {vars' : List (Variable Exact)} (hready : equation.Ready vars')
    (hsame : SameButValues vars' vars) : PinnedEquation equation pin t vars' :=
  { h with ready := hready, unbounded := h.unbounded.of_same hsame }

theorem weighted_eq : equation.weighted = equation.terms :=
  List.filter_eq_self.mpr fun u hu => by rw [h.weights u hu]; rfl

theorem residue_eq_zero : equation.residue = 0 := by
  refine h.ready.finite.residue_eq_zero ?_ ?_
  · rw [h.weighted_eq]
    exact h.distinct
  · rw [h.weighted_eq]
    exact List.ne_nil_of_mem h.shared

theorem lever_eq : equation.lever t.1.index = 1 / t.2.base := by
  refine Constraint.lever_of_distinct ?_ ?_
  · rw [h.weighted_eq]
    exact h.distinct
  · rw [h.weighted_eq]
    exact h.shared

theorem gap_pin_relax_equation : pin.gap (relax vars equation) =
    pin.gap vars - 1 / (equation.terms.length * t.2.base) * equation.gap vars := by
  have hshared : equation.kind.isShared = true := by rw [h.equal]; rfl
  have hready : equation.Ready (relax vars equation) :=
    ⟨h.ready.finite, fun u hu => h.ready.heldAt_relax (h.ready.held u hu)⟩
  have hafter := h.of_same hready (relax_sameButValues vars equation)
  rw [hafter.gap_pin, h.gap_pin, relax_of_isShared _ hshared,
    h.ready.base_reading_spread h.unbounded h.shared, h.weighted_eq, h.lever_eq]
  ring

theorem relax_pin_eq : relax vars pin =
    vars.modify t.1.index fun v => v.setValue (.fin pin.constant.base) := by
  obtain ⟨x, hterms, hplace⟩ := h.pinned
  have hone : pin.constant / .fin 1 = .fin pin.constant.base := by
    rw [← Exact.fin_base h.target, Exact.fin_div one_ne_zero, div_one]
    rfl
  rw [relax_pin h.fixed hterms rfl, hone, hplace]

theorem base_reading_relax_pin : (reading (relax vars pin) t.1).base = pin.constant.base := by
  obtain ⟨v, hv, -⟩ := h.ready.held t h.shared
  obtain ⟨hmin, hmax⟩ := h.unbounded t h.shared v hv
  rw [h.relax_pin_eq, reading_modify hv, v.value_setValue_of_unbounded hmin hmax]
  rfl

theorem gap_equation_relax_pin : equation.gap (relax vars pin) =
    equation.gap vars - t.2.base * pin.gap vars := by
  have hchange := equation.gap_sub_gap vars (relax vars pin)
  have hothers : ∀ u ∈ equation.terms, decide (u.1.index = t.1.index) = false →
      u.2.base * ((reading (relax vars pin) u.1).base - (reading vars u.1).base) = 0 := by
    intro u _ hne
    have hstay : reading (relax vars pin) u.1 = reading vars u.1 := by
      rw [h.relax_pin_eq, reading, reading,
        List.getElem?_modify_ne _ _ (Ne.symm (of_decide_eq_false hne))]
    rw [hstay, sub_self, mul_zero]
  rw [← sum_map_filter hothers, filter_place_eq_singleton h.distinct h.shared, List.map_singleton,
    List.sum_singleton, h.base_reading_relax_pin, ← h.gap_pin] at hchange
  linarith

omit h

theorem equation_trades :
    Trades (PinnedEquation equation pin t) epsilon equation pin
      (1 / (equation.terms.length * t.2.base)) where
  holds vars h := by
    rw [h.ready.isSatisfied_iff (by rw [h.equal]; rfl), h.equal]
    rfl
  keeps vars h := h.of_same (h.ready.adjust h.ready) (adjust_sameButValues epsilon vars equation)
  closes vars h hviolated := by
    have hshared : equation.kind.isShared = true := by rw [h.equal]; rfl
    rw [adjust_of_not_isSatisfied hviolated, relax_of_isShared _ hshared,
      h.ready.gap_spread h.unbounded, h.residue_eq_zero, zero_mul]
  costs vars h hviolated := by
    rw [adjust_of_not_isSatisfied hviolated, h.gap_pin_relax_equation]

theorem pin_trades :
    Trades (PinnedEquation equation pin t) epsilon pin equation t.2.base where
  holds vars h := by
    rw [h.pin_ready.isSatisfied_iff (by rw [h.fixed]; rfl), h.fixed]
    rfl
  keeps vars h := h.of_same (h.ready.adjust h.pin_ready) (adjust_sameButValues epsilon vars pin)
  closes vars h hviolated := by
    have hafter := h.of_same (h.ready.adjust h.pin_ready) (adjust_sameButValues epsilon vars pin)
    rw [adjust_of_not_isSatisfied hviolated] at hafter ⊢
    rw [hafter.gap_pin, h.base_reading_relax_pin, sub_self]
  costs vars h hviolated := by
    rw [adjust_of_not_isSatisfied hviolated, h.gap_equation_relax_pin]

/-- There and back, whichever goes first. -/
theorem abs_rates (h : PinnedEquation equation pin t vars) :
    |1 / (equation.terms.length * t.2.base) * t.2.base| = 1 / (equation.terms.length : Rat) := by
  have hweight := (h.isWeight t h.shared).base_ne_zero
  have hrate : 1 / (equation.terms.length * t.2.base) * t.2.base =
      1 / (equation.terms.length : Rat) := by
    rw [← div_div, div_mul_cancel₀ _ hweight]
  rw [hrate, abs_of_nonneg (one_div_nonneg.mpr (Nat.cast_nonneg _))]

end PinnedEquation

/-- Solving an equation with a pin on one of its variables, whichever is visited first and whatever
finite values the variables start at: once the violations that the first pass leaves are within epsilon times a power of
the number of terms, so many further passes are enough. -/
theorem pinned_equation_converges (s : Solver Exact) {equation pin : Constraint Exact}
    {t : Handle × Exact} (hs : (binding s.constraints).Perm [equation, pin])
    (h : PinnedEquation equation pin t s.vars) (hpasses : 1 ≤ s.settings.maxIterations)
    (hfirst : ∀ c ∈ [equation, pin],
      c.violation (reading (pass s.settings.epsilon (visitOrder s.constraints) s.vars).1) ≤
        s.settings.epsilon * .fin (equation.terms.length ^ (s.settings.maxIterations - 1))) :
    s.solve.2 = true := by
  obtain ⟨n, hn⟩ := Nat.exists_eq_add_of_le' hpasses
  have hequation : Trades (PinnedEquation equation pin t) s.settings.epsilon equation pin
      (1 / (equation.terms.length * t.2.base)) := PinnedEquation.equation_trades
  have hpin : Trades (PinnedEquation equation pin t) s.settings.epsilon pin equation t.2.base :=
    PinnedEquation.pin_trades
  have hlength : 0 < (equation.terms.length : Rat) ^ n :=
    pow_pos (Nat.cast_pos.mpr (List.length_pos_of_mem h.shared)) n
  have hperm : (visitOrder (binding s.constraints)).Perm [equation, pin] :=
    (List.mergeSort_perm _ _).trans hs
  have hready : ∀ c ∈ [equation, pin], c.Ready s.vars := by simp [h.ready, h.pin_ready]
  have hgap : ∀ c ∈ [equation, pin], .fin ((1 / (equation.terms.length : Rat)) ^ n *
      |c.gap (sweep s.settings.epsilon (visitOrder (binding s.constraints)) s.vars)|) ≤
        s.settings.epsilon := by
    intro c hc
    have hafter := hfirst c hc
    have hheld : c.Ready
        (sweep s.settings.epsilon (visitOrder (binding s.constraints)) s.vars) :=
      (hready c hc).sweep fun d hd => hready d (hperm.subset hd)
    rw [pass_eq, ← sweep_binding, binding_visitOrder, hheld.violation_eq, hn,
      Nat.add_sub_cancel] at hafter
    have hshrunk := Exact.fin_div_le hlength hafter
    rwa [div_eq_inv_mul, ← inv_pow, ← one_div] at hshrunk
  rcases List.perm_pair.mp hperm with horder | horder
  · refine hequation.solved hpin h horder hn ?_
    rw [h.abs_rates, ← horder]
    exact hgap equation (by simp)
  · refine hpin.solved hequation h horder hn ?_
    rw [mul_comm t.2.base, h.abs_rates, ← horder]
    exact hgap pin (by simp)

def lengths : Constraint Exact :=
  ⟨.equal, [(⟨0, 0⟩, .fin 2), (⟨0, 1⟩, .fin 1), (⟨0, 2⟩, .fin (-1))], .fin 9, .fin (1 / 2)⟩

def middle : Constraint Exact := ⟨.fixed, [(⟨0, 1⟩, .fin 1)], .fin 3, .fin 1⟩

def lengthsSolver : Solver Exact where
  number := 0
  vars := ["left", "middle", "right"].map fun name => .create name (.fin 0) .negInf .posInf
  constraints := [middle, lengths, ⟨.minimize, [(⟨0, 2⟩, .fin 1)], .fin 0, .fin (1 / 4)⟩]
  settings := ⟨7, .fin (1 / 100), false⟩

theorem visitOrder_lengths : visitOrder lengthsSolver.constraints = lengthsSolver.constraints :=
  List.mergeSort_of_pairwise (by decide +kernel)

theorem lengths_pinned : PinnedEquation lengths middle (⟨0, 1⟩, .fin 1) lengthsSolver.vars where
  equal := rfl
  ready := Constraint.IsFinite.ready ⟨rfl, by decide⟩
    (List.forall_mem_map.mpr fun _ _ => ⟨rfl, rfl, rfl⟩) (by decide)
  unbounded := .of_forall (List.forall_mem_map.mpr fun _ _ => ⟨rfl, rfl⟩)
  distinct := by decide
  weights := by decide +kernel
  fixed := rfl
  pinned := ⟨⟨0, 1⟩, rfl, rfl⟩
  target := rfl
  shared := by simp [lengths]

theorem lengths_settle :
    ((binding lengthsSolver.constraints).Perm [lengths, middle] ∧
        PinnedEquation lengths middle (⟨0, 1⟩, .fin 1) lengthsSolver.vars ∧
        1 ≤ lengthsSolver.settings.maxIterations ∧
        ∀ c ∈ [lengths, middle], c.violation (reading (pass lengthsSolver.settings.epsilon
            (visitOrder lengthsSolver.constraints) lengthsSolver.vars).1) ≤
          lengthsSolver.settings.epsilon *
            .fin (lengths.terms.length ^ (lengthsSolver.settings.maxIterations - 1))) ∧
      lengthsSolver.solve.2 = true := by
  have hperm : (binding lengthsSolver.constraints).Perm [lengths, middle] := .swap _ _ _
  have hfirst : ∀ c ∈ [lengths, middle], c.violation (reading (pass lengthsSolver.settings.epsilon
      (visitOrder lengthsSolver.constraints) lengthsSolver.vars).1) ≤
        lengthsSolver.settings.epsilon *
          .fin (lengths.terms.length ^ (lengthsSolver.settings.maxIterations - 1)) := by
    rw [visitOrder_lengths]
    decide +kernel
  exact ⟨⟨hperm, lengths_pinned, by decide, hfirst⟩,
    pinned_equation_converges lengthsSolver hperm lengths_pinned (by decide) hfirst⟩

end Scene.Solver
