import Mathlib.Order.Filter.AtTopBot.Field
import Mathlib.Order.Filter.Finite
import Mathlib.Algebra.BigOperators.Ring.List
import Mathlib.Data.Set.Finite.Basic
import Mathlib.Tactic.Linarith
import Mathlib.Tactic.Ring
import Scene.Scalar.Exact
import Scene.Solver.Exact
import Scene.Proofs.Scalar.Sums
import Scene.Proofs.Solver.Lookup

/-! What solves a system solves the problem that is posed for it, and the other way round. A system
may be solved by infinite values, of which the posed problem knows nothing: values far enough out
take their place, and where only the infinite value is within the bounds, it comes back when the
values are written. -/
namespace Scene

namespace Solver

theorem getElem?_handOut {α : Type} (take : Variable α → α → Variable α) {vars : List (Variable α)}
    {values : List α} {i : Nat} {v : Variable α} {x : α} (hv : vars[i]? = some v)
    (hx : values[i]? = some x) : (handOut take vars values)[i]? = some (take v x) := by
  induction vars generalizing values i with
  | nil => cases hv
  | cons w vars ih =>
    cases values with
    | nil => cases hx
    | cons y values =>
      cases i with
      | zero =>
        cases hv
        cases hx
        rfl
      | succ i => exact ih hv hx

structure Constraint.IsFinite {α : Type} [Scalar α] (c : Constraint α) : Prop where
  constant : Scalar.isFinite c.constant = true
  coefficients : ∀ t ∈ c.terms, Scalar.isFinite t.2 = true

namespace Exact

def Sign.Holds : Sign → Rat → Rat → Prop
  | .atMost, s, k => s ≤ k
  | .exactly, s, k => s = k
  | .atLeast, s, k => k ≤ s

def Sign.far : Sign → Exact
  | .atMost => .negInf
  | .exactly => .fin 0
  | .atLeast => .posInf

def Sign.Allows (sign : Sign) (s : Exact) (k : Rat) : Prop :=
  s = sign.far ∧ sign.far.slope ≠ 0 ∨ ∃ q, s = .fin q ∧ sign.Holds q k

namespace Relation
variable {r : Relation} {a b : Nat → Exact} {x : Nat → Rat}

def evaluate (r : Relation) (a : Nat → Exact) : Exact :=
  (r.terms.map fun t => Exact.fin t.2 * a t.1).foldl (· + ·) (.fin 0)

def Satisfied (r : Relation) (a : Nat → Exact) : Prop := r.sign.Allows (r.evaluate a) r.constant

theorem sum_eq (r : Relation) (x : Nat → Rat) :
    r.sum x = (r.terms.map fun t => t.2 * x t.1).sum := by
  rw [sum, List.sum_eq_foldl, List.foldl_map]

theorem sum_add_mul (r : Relation) (x y : Nat → Rat) (m : Rat) :
    r.sum (fun i => x i + m * y i) = r.sum x + m * r.sum y := by
  simp only [sum_eq]
  induction r.terms with
  | nil => simp
  | cons t terms ih =>
    simp only [List.map_cons, List.sum_cons, ih]
    ring

theorem violation_eq_zero (r : Relation) (x : Nat → Rat) :
    r.violation x = 0 ↔ r.sign.Holds (r.sum x) r.constant := by
  unfold violation Sign.Holds
  cases r.sign <;> grind

theorem evaluate_congr (h : ∀ t ∈ r.terms, a t.1 = b t.1) : r.evaluate a = r.evaluate b := by
  unfold evaluate
  congr 1
  exact List.map_congr_left fun t ht => by rw [h t ht]

theorem evaluate_fin (r : Relation) (x : Nat → Rat) :
    r.evaluate (fun i => .fin (x i)) = .fin (r.sum x) := by
  have hsum := Exact.sum_fin (r.terms.map fun t => t.2 * x t.1) 0
  rw [List.map_map, zero_add, ← sum_eq] at hsum
  exact hsum

theorem evaluate_of_finite (h : ∀ t ∈ r.terms, a t.1 = .fin (x t.1)) :
    r.evaluate a = .fin (r.sum x) := by
  rw [← evaluate_fin]
  exact evaluate_congr h

theorem satisfied_fin : r.Satisfied (fun i => .fin (x i)) ↔ r.violation x = 0 := by
  rw [Satisfied, evaluate_fin, violation_eq_zero]
  constructor
  · rintro (⟨h, hfar⟩ | ⟨q, h, hq⟩)
    · rw [← h] at hfar
      exact absurd rfl hfar
    · cases h
      exact hq
  · exact fun h => .inr ⟨_, rfl, h⟩

/-- Only finite numbers have a finite sum. -/
theorem finite_of_evaluate {q : Rat} (h : r.evaluate a = .fin q) :
    ∀ t ∈ r.terms, ∃ p, a t.1 = .fin p := by
  intro t ht
  have hpulls : Exact.Pulls (.fin 0) (r.evaluate a) := .inr ⟨q, h⟩
  have hterm := (Exact.pulls_of_sum (by decide) hpulls).2 _ (List.mem_map_of_mem ht)
  rcases hterm with hterm | ⟨p, hterm⟩ <;> exact Exact.eq_fin_of_fin_mul hterm

/-- The terms of an infinite sum pull with it. -/
theorem pulls_of_evaluate {far : Exact} (hfar : far.slope ≠ 0) (h : r.evaluate a = far) :
    ∀ t ∈ r.terms, Exact.Pulls far (.fin t.2 * a t.1) := fun _ ht =>
  (Exact.pulls_of_sum (Exact.ne_nan_of_slope hfar) (.inl h)).2 _ (List.mem_map_of_mem ht)

/-- A sum of finite numbers is finite. -/
theorem exists_of_evaluate_far {far : Exact} (hfar : far.slope ≠ 0) (h : r.evaluate a = far) :
    ∃ t ∈ r.terms, Exact.fin t.2 * a t.1 = far := by
  by_contra hnone
  have hfinite : ∀ t ∈ r.terms, a t.1 = .fin (a t.1).base := by
    intro t ht
    rcases pulls_of_evaluate hfar h t ht with hterm | ⟨p, hterm⟩
    · exact absurd ⟨t, ht, hterm⟩ hnone
    · obtain ⟨q, hq⟩ := Exact.eq_fin_of_fin_mul hterm
      rw [hq]
      rfl
  rw [← h, evaluate_of_finite (x := fun i => (a i).base) hfinite] at hfar
  exact hfar rfl

/-- Values far out satisfy what the infinities satisfy. -/
theorem eventually_violation (h : r.Satisfied a) :
    ∀ᶠ m in Filter.atTop, r.violation (fun i => (a i).drawn m) = 0 := by
  simp only [violation_eq_zero, Exact.drawn, sum_add_mul]
  rcases h with ⟨hsum, hfar⟩ | ⟨q, hsum, hq⟩
  · have hpulls := pulls_of_evaluate hfar hsum
    obtain ⟨t, ht, hterm⟩ := exists_of_evaluate_far hfar hsum
    have hpos : 0 < r.sign.far.slope * r.sum fun i => (a i).slope := by
      rw [sum_eq, ← List.sum_map_mul_left]
      refine lt_of_lt_of_le (Exact.slope_of_fin_mul_eq hfar hterm)
        (List.single_le_sum ?_ _ (List.mem_map.mpr ⟨t, ht, rfl⟩))
      exact List.forall_mem_map.mpr fun u hu => Exact.slope_of_pulls hfar (hpulls u hu)
    have hfarther := (Filter.tendsto_id.atTop_mul_const hpos).eventually_ge_atTop
      (r.sign.far.slope * (r.constant - r.sum fun i => (a i).base))
    refine hfarther.mono fun m hm => ?_
    rw [id_eq] at hm
    revert hm hfar
    unfold Sign.Holds
    cases r.sign with
    | atMost => simp only [Sign.far, Exact.slope]; intros; linarith
    | exactly => exact fun hfar => absurd rfl hfar
    | atLeast => simp only [Sign.far, Exact.slope]; intros; linarith
  · refine Filter.Eventually.of_forall fun m => ?_
    have hfinite := finite_of_evaluate hsum
    have hdrawn : r.evaluate a = .fin (r.sum fun i => (a i).drawn m) := by
      refine evaluate_of_finite fun t ht => ?_
      obtain ⟨p, hp⟩ := hfinite t ht
      rw [hp]
      simp [Exact.drawn, Exact.base, Exact.slope, Exact.toRat?]
    simp only [Exact.drawn, sum_add_mul] at hdrawn
    rw [hsum] at hdrawn
    rw [← Exact.fin.inj hdrawn]
    exact hq

/-- A solution of the posed problem solves the system, also where some of its values have to give
way to the only infinite ones within their bounds. -/
theorem satisfied_of_agree (ha : r.Satisfied a) (hx : r.violation x = 0)
    (h : ∀ t ∈ r.terms, b t.1 = .fin (x t.1) ∨ b t.1 = a t.1 ∧ ∀ q, a t.1 ≠ .fin q) :
    r.Satisfied b := by
  by_cases hfinite : ∀ t ∈ r.terms, b t.1 = .fin (x t.1)
  · have hsum : r.evaluate b = r.evaluate fun i => .fin (x i) := evaluate_congr hfinite
    rw [Satisfied, hsum]
    exact satisfied_fin.mpr hx
  · simp only [not_forall] at hfinite
    obtain ⟨t, ht, hne⟩ := hfinite
    obtain ⟨hb, hinfinite⟩ := (h t ht).resolve_left hne
    obtain ⟨hsum, hfar⟩ | ⟨q, hsum, -⟩ := ha
    · have hpulls := pulls_of_evaluate hfar hsum
      refine .inl ⟨Exact.sum_eq_far hfar (.inr ⟨0, rfl⟩) ?_ (.inr ?_), hfar⟩
      · refine List.forall_mem_map.mpr fun u hu => ?_
        rcases h u hu with hu' | ⟨hu', -⟩
        · exact .inr ⟨u.2 * x u.1, by rw [hu']; rfl⟩
        · rw [hu']
          exact hpulls u hu
      · refine List.mem_map.mpr ⟨t, ht, ?_⟩
        rw [hb]
        refine (hpulls t ht).resolve_right fun ⟨q, hq⟩ => ?_
        obtain ⟨p, hp⟩ := Exact.eq_fin_of_fin_mul hq
        exact hinfinite p hp
    · obtain ⟨p, hp⟩ := finite_of_evaluate hsum t ht
      exact absurd hp (hinfinite p)

end Relation

/-! Bounds and constraints of a system as relations. -/

variable {vars : List (Variable Exact)} {constraints : List (Constraint Exact)}
  {c : Constraint Exact} {a : Nat → Exact}

theorem weight?_eq_none {strength : Exact} : weight? strength = none ↔ Scalar.one ≤ strength := by
  unfold weight?
  split
  · next h => exact iff_of_true rfl h
  · next h =>
    refine iff_of_false ?_ h
    split
    · nofun
    · split <;> nofun

theorem constraintWeight?_eq_none :
    constraintWeight? c = none ↔ c.kind.isObjective = false ∧ Scalar.one ≤ c.strength := by
  unfold constraintWeight?
  split
  · next h => simp [h]
  · next h => simp [h, weight?_eq_none]

theorem toRat?_eq_some {b : Exact} {q : Rat} : Scalar.toRat? b = some q ↔ b = .fin q := by
  change b.toRat? = some q ↔ _
  cases b <;> simp [Exact.toRat?]

theorem forall_boundRelations (P : Relation → Prop) :
    (∀ r ∈ boundRelations vars, P r.1) ↔ ∀ i v, vars[i]? = some v →
      (∀ q, v.min = .fin q → P ⟨[(i, 1)], .atLeast, q⟩) ∧
        ∀ q, v.max = .fin q → P ⟨[(i, 1)], .atMost, q⟩ := by
  simp only [boundRelations, List.forall_mem_flatMap, List.forall_mem_append]
  constructor
  · intro h i v hv
    obtain ⟨hmin, hmax⟩ := h (v, i) (List.mem_zipIdx_iff_getElem?.mpr hv)
    constructor
    · intro q hq
      exact hmin (_, _) (by rw [hq]; exact List.mem_singleton_self _)
    · intro q hq
      exact hmax (_, _) (by rw [hq]; exact List.mem_singleton_self _)
  · intro h vi hvi
    obtain ⟨hmin, hmax⟩ := h vi.2 vi.1 (List.mem_zipIdx_iff_getElem?.mp hvi)
    constructor
    · intro r hr
      split at hr
      · next q hq =>
        obtain rfl := List.mem_singleton.mp hr
        exact hmin q (toRat?_eq_some.mp hq)
      · cases hr
    · intro r hr
      split at hr
      · next q hq =>
        obtain rfl := List.mem_singleton.mp hr
        exact hmax q (toRat?_eq_some.mp hq)
      · cases hr

theorem forall_hard (P : Relation → Prop) :
    (∀ r ∈ (pose vars constraints).hard, P r) ↔ (∀ r ∈ boundRelations vars, P r.1) ∧
      ∀ c ∈ constraints, c.kind.isObjective = false → Scalar.one ≤ c.strength →
        P (relationOf c) := by
  simp only [pose, hardRelations, List.forall_mem_map, List.forall_mem_append, List.mem_filter,
    Option.isNone_iff_eq_none, constraintWeight?_eq_none]
  grind

/-- The posed relation of a constraint over finite numbers has its sum. -/
theorem evaluate_relationOf (hc : c.IsFinite) (a : Nat → Exact) :
    (relationOf c).evaluate a = c.evaluate fun h => a h.index := by
  have hsum : (c.evaluate fun h => a h.index) =
      (c.terms.map fun t => t.2 * a t.1.index).foldl (· + ·) (.fin 0) := List.foldl_map.symm
  rw [hsum, Relation.evaluate, relationOf, List.map_map]
  congr 1
  refine List.map_congr_left fun t ht => ?_
  obtain ⟨k, hk⟩ := Exact.exists_fin_of_isFinite (hc.coefficients t ht)
  simp [hk, Scalar.toRat?, Exact.toRat?]

/-- Without tolerance a constraint says what its relation says. -/
theorem isSatisfied_iff (hc : c.IsFinite) (hkind : c.kind.isObjective = false) :
    c.isSatisfied (fun h => a h.index) Scalar.zero = true ↔ (relationOf c).Satisfied a := by
  obtain ⟨k, hk⟩ := Exact.exists_fin_of_isFinite hc.constant
  have hconstant : (relationOf c).constant = k := by
    simp [relationOf, hk, Scalar.toRat?, Exact.toRat?]
  rw [Relation.Satisfied, evaluate_relationOf hc, hconstant, Constraint.isSatisfied, hk]
  generalize (c.evaluate fun h => a h.index) = s
  cases hc : c.kind <;> simp only [hc, Kind.isObjective, reduceCtorEq] at hkind
  all_goals
    simp only [relationOf, hc, Sign.Allows, Sign.far, Sign.Holds, decide_eq_true_eq,
      Exact.abs_sub_le_zero, Exact.le_fin_add_zero, Exact.fin_sub_zero_le]
    simp [Exact.slope]

/-- What holds without tolerance holds with any. -/
theorem isSatisfied_of_zero (hc : c.IsFinite) {value : Handle → Exact} {epsilon : Exact}
    (hepsilon : Scalar.zero ≤ epsilon) (h : c.isSatisfied value Scalar.zero = true) :
    c.isSatisfied value epsilon = true := by
  obtain ⟨k, hk⟩ := Exact.exists_fin_of_isFinite hc.constant
  rw [Constraint.isSatisfied, hk] at h ⊢
  cases hkind : c.kind with
  | equal | fixed =>
    rw [hkind] at h
    exact decide_eq_true (Exact.le_trans (of_decide_eq_true h) hepsilon)
  | lessEqual =>
    rw [hkind] at h
    exact decide_eq_true (Exact.le_trans (of_decide_eq_true h) (Exact.fin_add_le_fin_add hepsilon))
  | greaterEqual =>
    rw [hkind] at h
    exact decide_eq_true (Exact.le_trans (Exact.fin_sub_le_fin_sub hepsilon) (of_decide_eq_true h))
  | minimize | maximize => rfl

theorem evaluate_single (i : Nat) (sign : Sign) (k : Rat) (a : Nat → Exact) :
    (⟨[(i, 1)], sign, k⟩ : Relation).evaluate a = a i := by
  change Exact.fin 0 + .fin 1 * a i = a i
  cases a i with
  | fin q => simp
  | _ => rfl

theorem satisfied_lower {i : Nat} {k : Rat} :
    (⟨[(i, 1)], .atLeast, k⟩ : Relation).Satisfied a ↔ .fin k ≤ a i := by
  rw [Relation.Satisfied, evaluate_single]
  change Sign.Allows .atLeast (a i) k ↔ Exact.le (.fin k) (a i) = true
  cases a i <;> simp [Sign.Allows, Sign.far, Sign.Holds, Exact.slope, Exact.le]

theorem satisfied_upper {i : Nat} {k : Rat} :
    (⟨[(i, 1)], .atMost, k⟩ : Relation).Satisfied a ↔ a i ≤ .fin k := by
  rw [Relation.Satisfied, evaluate_single]
  change Sign.Allows .atMost (a i) k ↔ Exact.le (a i) (.fin k) = true
  cases a i <;> simp [Sign.Allows, Sign.far, Sign.Holds, Exact.slope, Exact.le]

/-- What solves the posed problem is within all bounds that some finite value is within. -/
theorem clamp_of_feasible {x : Nat → Rat} (hx : (pose vars constraints).Feasible x) {i : Nat}
    {v : Variable Exact} (hv : vars[i]? = some v) (hlo : v.min ≠ .posInf) (hhi : v.max ≠ .negInf) :
    v.clamp (.fin (x i)) = .fin (x i) := by
  obtain ⟨hlow, hhigh⟩ := (forall_boundRelations (·.violation x = 0)).mp
    ((forall_hard _).mp hx).1 i v hv
  simp only [← Relation.satisfied_fin, satisfied_lower, satisfied_upper] at hlow hhigh
  have hbelow : ¬.fin (x i) < v.min := by
    cases hmin : v.min with
    | posInf => exact absurd hmin hlo
    | fin q => exact Exact.not_fin_lt.mpr (hlow q hmin)
    | _ => exact Bool.false_ne_true
  have habove : ¬v.max < .fin (x i) := by
    cases hmax : v.max with
    | negInf => exact absurd hmax hhi
    | fin q => exact Exact.not_fin_lt.mpr (hhigh q hmax)
    | _ => exact Bool.false_ne_true
  rw [Variable.clamp, Scalar.clamp]
  simp [hbelow, habove]

/-- Values by position that are within the bounds and with which all constraints hold exactly. -/
structure Attains (vars : List (Variable Exact)) (constraints : List (Constraint Exact))
    (a : Nat → Exact) : Prop where
  bounded : ∀ i v, vars[i]? = some v → v.min ≤ a i ∧ a i ≤ v.max
  satisfied : ∀ c ∈ constraints, c.isSatisfied (fun h => a h.index) Scalar.zero = true

namespace Attains
variable (h : Attains vars constraints a) (hfinite : ∀ c ∈ constraints, c.IsFinite)
include h

/-- What solves the posed problem is only changed where just an infinite value is within the
bounds. -/
theorem clamp_agrees {x : Nat → Rat} (hx : (pose vars constraints).Feasible x) {i : Nat}
    {v : Variable Exact} (hv : vars[i]? = some v) :
    v.clamp (.fin (x i)) = .fin (x i) ∨
      v.clamp (.fin (x i)) = a i ∧ ∀ q, a i ≠ .fin q := by
  obtain ⟨hmin, hmax⟩ := h.bounded i v hv
  by_cases hforced : v.min = .posInf ∨ v.max = .negInf
  · right
    rcases hforced with heq | heq
    · rw [heq, Exact.posInf_le] at hmin
      rw [hmin, Exact.posInf_le] at hmax
      rw [Variable.clamp, heq, hmax, hmin]
      exact ⟨rfl, nofun⟩
    · rw [heq, Exact.le_negInf] at hmax
      rw [hmax, Exact.le_negInf] at hmin
      rw [Variable.clamp, heq, hmin, hmax]
      exact ⟨rfl, nofun⟩
  · obtain ⟨hlo, hhi⟩ := not_or.mp hforced
    exact .inl (clamp_of_feasible hx hv hlo hhi)

include hfinite

theorem hard_satisfied : ∀ r ∈ (pose vars constraints).hard, r.Satisfied a := by
  refine (forall_hard _).mpr ⟨?_, fun c hc hkind _ => ?_⟩
  · refine (forall_boundRelations (·.Satisfied a)).mpr fun i v hv => ?_
    obtain ⟨hmin, hmax⟩ := h.bounded i v hv
    exact ⟨fun q hq => satisfied_lower.mpr (hq ▸ hmin), fun q hq => satisfied_upper.mpr (hq ▸ hmax)⟩
  · exact (isSatisfied_iff (hfinite c hc) hkind).mp (h.satisfied c hc)

/-- A system that can be solved poses a problem that can be solved. -/
theorem feasible : ∃ x, (pose vars constraints).Feasible x := by
  have hfar : ∀ᶠ m in Filter.atTop, ∀ r ∈ {r | r ∈ (pose vars constraints).hard},
      r.violation (fun i => (a i).drawn m) = 0 :=
    (Filter.eventually_all_finite (List.finite_toSet _)).mpr fun r hr =>
      Relation.eventually_violation (h.hard_satisfied hfinite r hr)
  obtain ⟨m, hm⟩ := hfar.exists
  exact ⟨_, hm⟩

/-- A solution of the posed problem, written to the variables, solves the system. -/
theorem allSatisfied_handOut {xs : List Rat} (hx : (pose vars constraints).Feasible (assign xs))
    (hlength : xs.length = vars.length) (hover : ∀ c ∈ constraints, c.Over vars.length)
    (hrequired : ∀ c ∈ constraints, c.kind.isObjective = false → Scalar.one ≤ c.strength)
    {epsilon : Exact} (hepsilon : Scalar.zero ≤ epsilon) :
    allSatisfied constraints epsilon (handOut Variable.setValue vars (xs.map .fin)) = true := by
  refine List.all_eq_true.mpr fun c hc => isSatisfied_of_zero (hfinite c hc) hepsilon ?_
  cases hkind : c.kind.isObjective with
  | true =>
    rw [Constraint.isSatisfied]
    cases hk : c.kind <;> first | rfl | (rw [hk] at hkind; cases hkind)
  | false =>
    -- the values depend on the position of a variable and not on the solver that a handle names
    refine (isSatisfied_iff (a := fun i => reading _ ⟨0, i⟩) (hfinite c hc) hkind).mpr ?_
    refine Relation.satisfied_of_agree
      ((isSatisfied_iff (hfinite c hc) hkind).mp (h.satisfied c hc))
      (((forall_hard _).mp hx).2 c hc hkind (hrequired c hc hkind)) fun t ht => ?_
    obtain ⟨u, hu, rfl⟩ := List.mem_map.mp ht
    have hv := List.getElem?_eq_getElem (hover c hc u hu)
    have hxs : (xs.map Exact.fin)[u.1.index]? = some (.fin (assign xs u.1.index)) := by
      have hlt : u.1.index < xs.length := hlength ▸ hover c hc u hu
      simp [assign, hlt]
    have hwritten := getElem?_handOut Variable.setValue hv hxs
    simp only [reading, hwritten]
    exact h.clamp_agrees hx hv

end Attains
end Exact
end Solver
end Scene
