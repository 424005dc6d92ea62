import Scene.Proofs.Scalar.Sizing
import Scene.Proofs.Solver.Gap
import Scene.Proofs.Solver.Bounds

/-! One step for a violated constraint, variable by variable. The terms that have room take equal
shares of the gap, and values that are finite and within their bounds stay so. -/
namespace Scene.Solver

def Kind.isShared : Kind → Bool
  | .equal | .lessEqual | .greaterEqual => true
  | .fixed | .minimize | .maximize => false

theorem Kind.isObjective_of_isShared {k : Kind} (hk : k.isShared = true) :
    k.isObjective = false := by
  cases k <;> first | rfl | cases hk

section
variable {α : Type} [Scalar α]

theorem relax_of_isShared (vars : List (Variable α)) {c : Constraint α}
    (hkind : c.kind.isShared = true) : relax vars c = spread vars c := by
  unfold relax
  cases hc : c.kind <;> rw [hc] at hkind <;> first | rfl | cases hkind

def movable (vars : List (Variable α)) (c : Constraint α) : List (Handle × α) :=
  c.terms.filter (isMovable vars (c.constant - c.evaluate (reading vars)))

def share (vars : List (Variable α)) (c : Constraint α) : α :=
  (c.constant - c.evaluate (reading vars)) / Scalar.ofNat (movable vars c).length

/-- With nothing to move there is no share, and none is given. -/
theorem spread_eq_foldl (vars : List (Variable α)) (c : Constraint α) :
    spread vars c = (movable vars c).foldl (moveTerm (share vars c)) vars := by
  rw [spread, share]
  change (if (movable vars c).isEmpty then vars else
    (movable vars c).foldl (moveTerm (_ / Scalar.ofNat (movable vars c).length)) vars) = _
  cases movable vars c with
  | nil => rfl
  | cons t terms => rfl

theorem isMovable_eq {vars : List (Variable α)} {t : Handle × α} {v : Variable α}
    (hv : vars[t.1.index]? = some v) (difference : α) :
    isMovable vars difference t = (!(t.2 == Scalar.zero) && v.canMove (difference / t.2)) := by
  rw [isMovable, hv]

def Variable.takeShares (share : α) (terms : List (Handle × α)) (v : Variable α) : Variable α :=
  terms.foldl (fun v t => v.setValue (v.value + share / t.2)) v

theorem getElem?_foldl_moveTerm (share : α) (terms : List (Handle × α)) (vars : List (Variable α))
    (i : Nat) :
    (terms.foldl (moveTerm share) vars)[i]? =
      vars[i]?.map (Variable.takeShares share (terms.filter (·.1.index = i))) := by
  induction terms generalizing vars with
  | nil =>
    have hid : Variable.takeShares share ([] : List (Handle × α)) = id := rfl
    rw [List.filter_nil, hid, Option.map_id_fun, id_eq, List.foldl_nil]
  | cons t terms ih =>
    rw [List.foldl_cons, ih, moveTerm, List.getElem?_modify]
    cases vars[i]? with
    | none => rfl
    | some v =>
      by_cases ht : t.1.index = i
      · rw [List.filter_cons_of_pos (by simpa using ht), Option.map_eq_map, Option.map_some,
          if_pos ht]
        rfl
      · rw [List.filter_cons_of_neg (by simpa using ht), Option.map_eq_map, Option.map_some,
          if_neg ht]

end

variable {vars : List (Variable Exact)} {v : Variable Exact} {c d : Constraint Exact}
  {epsilon : Exact} {i : Nat} {q : Rat}

theorem Exact.isFinite_clamp {lo hi a : Exact} (hfinite : Scalar.isFinite a = true) (hlo : lo ≤ a)
    (hhi : a ≤ hi) (q : Rat) : Scalar.isFinite (Scalar.clamp lo hi (.fin q)) = true := by
  obtain ⟨p, rfl⟩ := Exact.exists_fin_of_isFinite hfinite
  unfold Scalar.clamp
  cases lo <;> cases hi <;> first | cases hlo | cases hhi | skip
  all_goals
    dsimp only
    split_ifs <;> first | rfl | contradiction

theorem Variable.Held.setValue (hv : v.Held) (q : Rat) : (v.setValue (.fin q)).Held := by
  have hfinite : Scalar.isFinite (v.clamp (.fin q)) = true :=
    Exact.isFinite_clamp hv.finite hv.lower hv.upper q
  have hnumber : Scalar.isNaN (v.clamp (.fin q)) ≠ true := by
    rw [Scalar.Sizing.isNaN_of_isFinite hfinite]
    exact Bool.false_ne_true
  have hwithin : Scalar.Within v.min v.max (v.clamp (.fin q)) :=
    Scalar.within_clamp (Exact.le_trans hv.lower hv.upper) (.fin q)
  obtain ⟨hlower, hupper⟩ := hwithin.resolve_left hnumber
  exact ⟨hfinite, hlower, hupper⟩

theorem Variable.canMove_of_pos (v : Variable Exact) (hq : 0 < q) :
    v.canMove (.fin q) = decide (v.value < v.max) := if_pos (Exact.fin_lt.mpr hq)

theorem Variable.canMove_of_neg (v : Variable Exact) (hq : q < 0) :
    v.canMove (.fin q) = decide (v.min < v.value) := by
  have hnot : ¬(Scalar.zero : Exact) < .fin q := Exact.not_fin_lt.mpr (Exact.fin_le.mpr hq.le)
  have hlt : Exact.fin q < Scalar.zero := Exact.fin_lt.mpr hq
  rw [canMove, if_neg hnot, if_pos hlt]

def IsWeight (k : Exact) : Prop := Scalar.isFinite k = true ∧ (k == Scalar.zero) = false

theorem IsWeight.base_ne_zero {k : Exact} (hk : IsWeight k) : k.base ≠ 0 := by
  obtain ⟨hfinite, hne⟩ := hk
  obtain ⟨k, rfl⟩ := Exact.exists_fin_of_isFinite hfinite
  rintro (rfl : k = 0)
  cases hne

theorem IsWeight.fin_div {k : Exact} (hk : IsWeight k) (q : Rat) :
    .fin q / k = .fin (q / k.base) := by
  have hdiv := Exact.fin_div hk.base_ne_zero q
  rwa [Exact.fin_base hk.1] at hdiv

theorem Variable.Held.add_share (hv : v.Held) {k : Exact} (hk : IsWeight k) (share : Rat) :
    v.value + .fin share / k = .fin (v.value.base + share / k.base) := by
  rw [hk.fin_div, ← Exact.fin_add, Exact.fin_base hv.finite]

theorem Variable.Held.takeShares (hv : v.Held) (share : Rat) {terms : List (Handle × Exact)}
    (hterms : ∀ t ∈ terms, IsWeight t.2) : (v.takeShares (.fin share) terms).Held := by
  induction terms generalizing v with
  | nil => exact hv
  | cons t terms ih =>
    obtain ⟨ht, hterms⟩ := List.forall_mem_cons.mp hterms
    have hmoved : (v.setValue (v.value + .fin share / t.2)).Held := by
      rw [hv.add_share ht]
      exact hv.setValue _
    exact ih hmoved hterms

namespace HeldAt
variable (hi : HeldAt vars i)
include hi

theorem foldl_moveTerm (share : Rat) {terms : List (Handle × Exact)}
    (hterms : ∀ t ∈ terms, IsWeight t.2) : HeldAt (terms.foldl (moveTerm (.fin share)) vars) i := by
  obtain ⟨v, hv, hheld⟩ := hi
  refine ⟨_, by rw [getElem?_foldl_moveTerm, hv]; rfl, hheld.takeShares share fun t ht => ?_⟩
  exact hterms t (List.mem_of_mem_filter ht)

theorem modify_setValue (j : Nat) (q : Rat) :
    HeldAt (vars.modify j fun v => v.setValue (.fin q)) i := by
  obtain ⟨v, hv, hheld⟩ := hi
  by_cases hij : j = i
  · exact ⟨v.setValue (.fin q), by simp [hij, hv], hheld.setValue q⟩
  · exact ⟨v, by simp [hij, hv], hheld⟩

end HeldAt

namespace Constraint.Ready
variable (h : c.Ready vars)
include h

theorem isWeight_of_movable : ∀ t ∈ movable vars c, IsWeight t.2 := by
  intro t ht
  obtain ⟨hterm, hmovable⟩ := List.mem_filter.mp ht
  refine ⟨h.finite.coefficients t hterm, ?_⟩
  rw [isMovable, Bool.and_eq_true, Bool.not_eq_true'] at hmovable
  exact hmovable.1

theorem share_eq (hne : movable vars c ≠ []) :
    share vars c = .fin (c.gap vars / (movable vars c).length) := by
  have hlength : ((movable vars c).length : Rat) ≠ 0 :=
    Nat.cast_ne_zero.mpr (List.length_pos_iff.mpr hne).ne'
  rw [share, h.difference_eq]
  exact Exact.fin_div hlength _

theorem spread_eq : spread vars c =
    (movable vars c).foldl (moveTerm (.fin (c.gap vars / (movable vars c).length))) vars := by
  rw [spread_eq_foldl]
  by_cases hne : movable vars c = []
  · rw [hne, List.foldl_nil, List.foldl_nil]
  · rw [h.share_eq hne]

theorem spread_of_movable_eq_nil (hnone : movable vars c = []) : spread vars c = vars := by
  rw [h.spread_eq, hnone]
  rfl

theorem heldAt_spread (hi : HeldAt vars i) : HeldAt (spread vars c) i := by
  rw [h.spread_eq]
  exact hi.foldl_moveTerm _ h.isWeight_of_movable

/-- A step for a constraint whose numbers are finite leaves finite values. -/
theorem heldAt_relax (hi : HeldAt vars i) : HeldAt (relax vars c) i := by
  unfold relax
  split
  · unfold pin
    split
    · exact hi
    · next x k terms hterms =>
      split
      · exact hi
      · next hk =>
        have hweight : IsWeight k :=
          ⟨h.finite.coefficients (x, k) (by simp [hterms]), Bool.not_eq_true _ ▸ hk⟩
        obtain ⟨q, hq, -⟩ := h.constant_eq
        rw [hq, hweight.fin_div]
        exact hi.modify_setValue _ _
  · exact hi
  · exact hi
  all_goals exact h.heldAt_spread hi

theorem heldAt_adjust (hi : HeldAt vars i) : HeldAt (adjust epsilon vars c) i := by
  unfold adjust
  split
  · exact hi
  · exact h.heldAt_relax hi

theorem after_spread : c.Ready (spread vars c) :=
  ⟨h.finite, fun t ht => h.heldAt_spread (h.held t ht)⟩

theorem adjust (hd : d.Ready vars) : c.Ready (adjust epsilon vars d) :=
  ⟨h.finite, fun t ht => hd.heldAt_adjust (h.held t ht)⟩

theorem iterate_adjust (n : Nat) : c.Ready ((Solver.adjust epsilon · c)^[n] vars) := by
  induction n generalizing vars with
  | zero => exact h
  | succ n ih => exact ih (h.adjust h)

theorem sweep {order : List (Constraint Exact)} (horder : ∀ d ∈ order, d.Ready vars) :
    c.Ready (sweep epsilon order vars) := by
  induction order generalizing vars with
  | nil => exact h
  | cons d order ih =>
    obtain ⟨hd, horder⟩ := List.forall_mem_cons.mp horder
    exact ih (h.adjust hd) fun e he => (horder e he).adjust hd

end Constraint.Ready

end Scene.Solver
