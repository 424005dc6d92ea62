import Mathlib.Data.List.Nodup
import Mathlib.Tactic.Ring
import Scene.Proofs.Scalar.Sums
import Scene.Proofs.Solver.Convergence
import Scene.Proofs.Solver.Posing

/-! How far a constraint is from holding, in exact numbers. Where its variables have finite values,
everything that relaxation calculates for it is finite and can be told by the gap between its sum
and its constant. -/
namespace Scene

theorem Exact.fin_base {a : Exact} (h : Scalar.isFinite a = true) : .fin a.base = a := by
  obtain ⟨q, rfl⟩ := Exact.exists_fin_of_isFinite h
  rfl

namespace Solver

def Constraint.violation {α : Type} [Scalar α] (c : Constraint α) (value : Handle → α) : α :=
  Scalar.abs (c.evaluate value - c.constant)

def Kind.shortfall (d : Rat) : Kind → Rat
  | .equal | .fixed => |d|
  | .lessEqual => -d
  | .greaterEqual => d
  | .minimize | .maximize => 0

/-- What the sum has to rise by to its constant. -/
def Constraint.gap (c : Constraint Exact) (vars : List (Variable Exact)) : Rat :=
  c.constant.base - (c.terms.map fun t => t.2.base * (reading vars t.1).base).sum

structure Variable.Held (v : Variable Exact) : Prop where
  finite : Scalar.isFinite v.value = true
  lower : v.min ≤ v.value
  upper : v.value ≤ v.max

def HeldAt (vars : List (Variable Exact)) (i : Nat) : Prop := ∃ v, vars[i]? = some v ∧ v.Held

/-- The numbers of a constraint and the values of its variables are finite. -/
structure Constraint.Ready (c : Constraint Exact) (vars : List (Variable Exact)) : Prop where
  finite : c.IsFinite
  held : ∀ t ∈ c.terms, HeldAt vars t.1.index

variable {vars : List (Variable Exact)} {v : Variable Exact} {c d : Constraint Exact}
  {epsilon : Exact} {i : Nat} {q : Rat}

theorem reading_eq (h : Handle) (hv : vars[h.index]? = some v) : reading vars h = v.value := by
  rw [reading, hv]

theorem HeldAt.reading_eq_fin {h : Handle} (hheld : HeldAt vars h.index) :
    reading vars h = .fin (reading vars h).base := by
  obtain ⟨v, hv, hheld⟩ := hheld
  rw [reading_eq h hv, Exact.fin_base hheld.finite]

theorem Constraint.IsFinite.ready (hc : c.IsFinite) (hvars : ∀ v ∈ vars, v.Held)
    (hplaces : ∀ t ∈ c.terms, t.1.index < vars.length) : c.Ready vars :=
  ⟨hc, fun t ht => ⟨_, List.getElem?_eq_getElem (hplaces t ht), hvars _ (List.getElem_mem _)⟩⟩

theorem Constraint.IsFinite.base_eq_zero (h : c.IsFinite) {t : Handle × Exact} (ht : t ∈ c.terms)
    (hzero : (t.2 == Scalar.zero) = true) : t.2.base = 0 := by
  obtain ⟨k, hk⟩ := Exact.exists_fin_of_isFinite (h.coefficients t ht)
  rw [hk] at hzero ⊢
  obtain ⟨hle, hge⟩ : Exact.fin k ≤ .fin 0 ∧ Exact.fin 0 ≤ .fin k := Bool.and_eq_true_iff.mp hzero
  exact le_antisymm (Exact.fin_le.mp hle) (Exact.fin_le.mp hge)

namespace Constraint.Ready
variable (h : c.Ready vars)
include h

theorem evaluate_eq : c.evaluate (reading vars) = .fin (c.constant.base - c.gap vars) := by
  have hterms : c.terms.map (fun t => t.2 * reading vars t.1) =
      (c.terms.map fun t => t.2.base * (reading vars t.1).base).map Exact.fin := by
    rw [List.map_map]
    refine List.map_congr_left fun t ht => ?_
    rw [Function.comp_apply, ← Exact.fin_mul, Exact.fin_base (h.finite.coefficients t ht),
      ← (h.held t ht).reading_eq_fin]
  have hsum : c.evaluate (reading vars) =
      (c.terms.map fun t => t.2 * reading vars t.1).foldl (· + ·) (.fin 0) := List.foldl_map.symm
  rw [hsum, hterms, Exact.sum_fin, gap, zero_add, sub_sub_cancel]

theorem constant_eq : ∃ k, c.constant = .fin k ∧ c.constant.base = k := by
  obtain ⟨k, hk⟩ := Exact.exists_fin_of_isFinite h.finite.constant
  exact ⟨k, hk, congrArg Exact.base hk⟩

theorem difference_eq : c.constant - c.evaluate (reading vars) = .fin (c.gap vars) := by
  obtain ⟨k, hk, hbase⟩ := h.constant_eq
  rw [h.evaluate_eq, hbase, hk, Exact.fin_sub, sub_sub_cancel]

theorem violation_eq : c.violation (reading vars) = .fin |c.gap vars| := by
  obtain ⟨k, hk, hbase⟩ := h.constant_eq
  rw [violation, h.evaluate_eq, hbase, hk, Exact.fin_sub, Exact.abs_fin, sub_sub_cancel_left,
    abs_neg]

theorem isSatisfied_iff (hkind : c.kind.isObjective = false) :
    c.isSatisfied (reading vars) epsilon = true ↔
      .fin (c.kind.shortfall (c.gap vars)) ≤ epsilon := by
  obtain ⟨k, hk, hbase⟩ := h.constant_eq
  rw [isSatisfied, h.evaluate_eq, hbase, hk]
  cases hc : c.kind <;> rw [hc] at hkind
  case minimize | maximize => cases hkind
  all_goals simp only [Kind.shortfall, decide_eq_true_iff]
  case lessEqual => rw [Exact.fin_le_fin_add, sub_sub_cancel_left]
  case greaterEqual => rw [Exact.fin_sub_le_fin, sub_sub_cancel]
  all_goals rw [Exact.fin_sub, Exact.abs_fin, sub_sub_cancel_left, abs_neg]

theorem isSatisfied_of_gap_eq_zero (hkind : c.kind.isObjective = false)
    (hepsilon : Scalar.zero ≤ epsilon) (hgap : c.gap vars = 0) :
    c.isSatisfied (reading vars) epsilon = true := by
  have hnone : c.kind.shortfall 0 = 0 := by cases c.kind <;> simp [Kind.shortfall]
  rw [h.isSatisfied_iff hkind, hgap, hnone]
  exact hepsilon

end Constraint.Ready

/-- A gap changes by what the terms move. -/
theorem Constraint.gap_sub_gap (c : Constraint Exact) (vars vars' : List (Variable Exact)) :
    c.gap vars - c.gap vars' =
      (c.terms.map fun t => t.2.base * ((reading vars' t.1).base - (reading vars t.1).base)).sum := by
  unfold gap
  induction c.terms with
  | nil => simp
  | cons t terms ih =>
    rw [List.map_cons, List.sum_cons, List.map_cons, List.sum_cons, List.map_cons, List.sum_cons]
    linarith

/-- Terms that add nothing may be left out of a sum. -/
theorem sum_map_filter {β : Type} {p : β → Bool} {f : β → Rat} {l : List β}
    (h : ∀ t ∈ l, p t = false → f t = 0) : ((l.filter p).map f).sum = (l.map f).sum := by
  induction l with
  | nil => rfl
  | cons t l ih =>
    obtain ⟨ht, hl⟩ := List.forall_mem_cons.mp h
    cases hp : p t with
    | true => rw [List.filter_cons_of_pos hp, List.map_cons, List.sum_cons, ih hl, List.map_cons,
        List.sum_cons]
    | false =>
      rw [List.filter_cons_of_neg (Bool.eq_false_iff.mp hp), ih hl, List.map_cons, List.sum_cons,
        ht hp, zero_add]

/-- Among terms over different variables, only one is over a given variable. -/
theorem filter_place_eq_singleton {β : Type} {terms : List (Handle × β)}
    (hdistinct : (terms.map (·.1.index)).Nodup) {t : Handle × β} (ht : t ∈ terms) :
    terms.filter (·.1.index = t.1.index) = [t] := by
  obtain ⟨before, after, rfl⟩ := List.append_of_mem ht
  rw [List.map_append, List.map_cons] at hdistinct
  obtain ⟨-, hafter, hbefore⟩ := List.nodup_append.mp hdistinct
  have hnone (rest : List (Handle × β)) (hrest : ∀ u ∈ rest, u.1.index ≠ t.1.index) :
      rest.filter (·.1.index = t.1.index) = [] :=
    List.filter_eq_nil_iff.mpr fun u hu => by simpa using hrest u hu
  rw [List.filter_append, List.filter_cons_of_pos (by simp), hnone before, hnone after,
    List.nil_append]
  · intro u hu heq
    exact (List.nodup_cons.mp hafter).1 (List.mem_map.mpr ⟨u, hu, heq⟩)
  · intro u hu
    exact hbefore _ (List.mem_map_of_mem hu) _ (by simp)

end Solver
end Scene
