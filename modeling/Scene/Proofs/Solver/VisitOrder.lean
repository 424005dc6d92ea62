import Scene.Solver.Relaxation
import Mathlib.Data.List.Basic

/-! The visiting order is a stable sort. Leaving constraints out before or after sorting is the same,
so what part of a system is visited in which order does not depend on the rest. -/
namespace Scene.Solver
variable {α β : Type}

/-- Where a test divides a list in two, it decides both parts. -/
theorem eq_of_append_of_test (q : β → Bool) {xs ys us vs : List β}
    (h : xs ++ ys = us ++ vs) (hx : ∀ b ∈ xs, q b = true) (hy : ∀ b ∈ ys, q b = false)
    (hu : ∀ b ∈ us, q b = true) (hv : ∀ b ∈ vs, q b = false) : xs = us ∧ ys = vs := by
  have hxu : xs = us := by
    have hq := congrArg (List.filter q) h
    rwa [List.filter_append, List.filter_append, List.filter_eq_self.mpr hx,
      List.filter_eq_self.mpr hu, List.filter_eq_nil_iff.mpr (by simpa using hy),
      List.filter_eq_nil_iff.mpr (by simpa using hv), List.append_nil, List.append_nil] at hq
  subst hxu
  exact ⟨rfl, List.append_cancel_left h⟩

section
variable {le : β → β → Bool} (trans : ∀ a b c, le a b → le b c → le a c)
  (total : ∀ a b, le a b || le b a)
include trans total

/-- An entry of a sorted list stands behind exactly the ones it is not before. -/
theorem mergeSort_cons_split (a : β) (l : List β) :
    ∃ front back, (a :: l).mergeSort le = front ++ a :: back ∧ l.mergeSort le = front ++ back ∧
      (∀ b ∈ front, !le a b) ∧ ∀ b ∈ back, (!le a b) = false := by
  obtain ⟨front, back, hcons, hl, hfront⟩ := List.mergeSort_cons trans total a l
  refine ⟨front, back, hcons, hl, hfront, ?_⟩
  have hs := List.pairwise_mergeSort trans total (a :: l)
  rw [hcons] at hs
  have hback := (List.pairwise_cons.mp (List.pairwise_append.mp hs).2.1).1
  simpa using hback

theorem filter_mergeSort (p : β → Bool) (l : List β) :
    (l.mergeSort le).filter p = (l.filter p).mergeSort le := by
  induction l with
  | nil => simp
  | cons a l ih =>
    obtain ⟨front, back, hcons, hl, hfront, hback⟩ := mergeSort_cons_split trans total a l
    rw [hl, List.filter_append] at ih
    by_cases ha : p a = true
    · obtain ⟨front', back', hcons', hl', hfront', hback'⟩ :=
        mergeSort_cons_split trans total a (l.filter p)
      have hparts := eq_of_append_of_test (fun b => !le a b) (ih.trans hl')
        (fun b hb => hfront b (List.mem_of_mem_filter hb))
        (fun b hb => hback b (List.mem_of_mem_filter hb)) hfront' hback'
      rw [List.filter_cons_of_pos ha, hcons, hcons', List.filter_append,
        List.filter_cons_of_pos ha, hparts.1, hparts.2]
    · rw [List.filter_cons_of_neg ha, hcons, List.filter_append, List.filter_cons_of_neg ha, ih]

end

section
variable [Scalar α]

theorem visitsFirst_iff (a b : Constraint α) :
    visitsFirst a b = true ↔ (Scalar.compareAll a.strength b.strength).isGE = true := by
  cases h : Scalar.compareAll a.strength b.strength <;> simp [visitsFirst, h]

theorem visitsFirst_trans (a b c : Constraint α) (hab : visitsFirst a b = true)
    (hbc : visitsFirst b c = true) : visitsFirst a c = true := by
  rw [visitsFirst_iff] at *
  exact Std.TransCmp.isGE_trans hab hbc

theorem visitsFirst_total (a b : Constraint α) : (visitsFirst a b || visitsFirst b a) = true := by
  have hswap : Scalar.compareAll b.strength a.strength =
      (Scalar.compareAll a.strength b.strength).swap := Std.OrientedCmp.eq_swap
  rw [Bool.or_eq_true, visitsFirst_iff, visitsFirst_iff, hswap]
  cases Scalar.compareAll a.strength b.strength <;> simp

/-- A constraint with its place comes after another: it is weaker, or as strong and was added later.
A tie is one of the total order of numbers, so 0.0 is visited before -0.0. -/
def VisitedAfter (a b : Constraint α × Nat) : Prop :=
  Scalar.compareAll b.1.strength a.1.strength = .lt ∨
    Scalar.compareAll b.1.strength a.1.strength = .eq ∧ a.2 < b.2

instance (a b : Constraint α × Nat) : Decidable (VisitedAfter a b) :=
  inferInstanceAs (Decidable (_ ∨ _))

theorem visitedAfter_of_zipIdxLE {a b : Constraint α × Nat} (hne : a.2 ≠ b.2)
    (h : List.zipIdxLE visitsFirst a b = true) : VisitedAfter a b := by
  have hswap : Scalar.compareAll a.1.strength b.1.strength =
      (Scalar.compareAll b.1.strength a.1.strength).swap := Std.OrientedCmp.eq_swap
  unfold List.zipIdxLE visitsFirst at h
  unfold VisitedAfter
  rw [hswap] at h
  cases hcompare : Scalar.compareAll b.1.strength a.1.strength with
  | lt => exact .inl rfl
  | eq =>
    have hle : a.2 ≤ b.2 := by simpa [hcompare] using h
    exact .inr ⟨rfl, Nat.lt_of_le_of_ne hle hne⟩
  | gt => simp [hcompare] at h

/-- Behind a constraint stand those that come after it. -/
theorem exists_visitOrder_split {constraints : List (Constraint α)} {c : Constraint α} {i : Nat}
    (hc : constraints[i]? = some c) :
    ∃ before after, visitOrder constraints = before ++ c :: after ∧
      ∀ d ∈ after, ∃ j, constraints[j]? = some d ∧ VisitedAfter (c, i) (d, j) := by
  -- sorted together with their places, no two entries are alike
  let sorted := constraints.zipIdx.mergeSort (List.zipIdxLE visitsFirst)
  have hperm : sorted.Perm constraints.zipIdx := List.mergeSort_perm _ _
  have hmem : (c, i) ∈ sorted := hperm.mem_iff.mpr (List.mem_zipIdx_iff_getElem?.mpr hc)
  obtain ⟨front, back, hsplit⟩ := List.append_of_mem hmem
  have hpairs : sorted.Pairwise fun a b => List.zipIdxLE visitsFirst a b = true :=
    List.pairwise_mergeSort (List.zipIdxLE_trans visitsFirst_trans)
      (List.zipIdxLE_total visitsFirst_total) _
  have hplaces : (sorted.map Prod.snd).Nodup := by
    rw [(hperm.map Prod.snd).nodup_iff, List.zipIdx_map_snd]
    exact List.nodup_range'
  rw [hsplit] at hpairs hplaces
  have hback := (List.pairwise_cons.mp (List.pairwise_append.mp hpairs).2.1).1
  rw [List.map_append, List.map_cons] at hplaces
  have hother := (List.nodup_cons.mp (List.nodup_append.mp hplaces).2.1).1
  refine ⟨front.map Prod.fst, back.map Prod.fst, ?_, ?_⟩
  · have horder : sorted.map Prod.fst = visitOrder constraints := List.mergeSort_zipIdx
    rw [← horder, hsplit, List.map_append, List.map_cons]
  · intro d hd
    obtain ⟨⟨d, j⟩, he, rfl⟩ := List.mem_map.mp hd
    refine ⟨j, ?_, visitedAfter_of_zipIdxLE ?_ (hback _ he)⟩
    · have hd : (d, j) ∈ sorted := by
        rw [hsplit]
        exact List.mem_append_right _ (List.mem_cons_of_mem _ he)
      exact List.mem_zipIdx_iff_getElem?.mp (hperm.mem_iff.mp hd)
    · rintro rfl
      exact hother (List.mem_map.mpr ⟨_, he, rfl⟩)

end
end Scene.Solver
