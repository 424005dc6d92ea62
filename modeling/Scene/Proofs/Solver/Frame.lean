import Scene.Proofs.Solver.Convergence

/-! Solving changes values and nothing else: names, bounds and start values of all variables stay,
and so a snapshot of the values brings every variable back. -/
namespace Scene.Solver
variable {α : Type}

def Variable.fixedPart (v : Variable α) : String × α × α × α := (v.name, v.min, v.max, v.initial)

def SameButValues (v w : List (Variable α)) : Prop :=
  v.map Variable.fixedPart = w.map Variable.fixedPart

namespace SameButValues

theorem refl (v : List (Variable α)) : SameButValues v v := rfl

theorem symm {v w : List (Variable α)} (h : SameButValues v w) : SameButValues w v := Eq.symm h

theorem trans {u v w : List (Variable α)} (huv : SameButValues u v) (hvw : SameButValues v w) :
    SameButValues u w :=
  Eq.trans huv hvw

theorem getElem? {v w : List (Variable α)} (h : SameButValues v w) (i : Nat) :
    v[i]?.map Variable.fixedPart = w[i]?.map Variable.fixedPart := by
  simpa only [List.getElem?_map] using congrArg (·[i]?) h

/-- Bounds are found where they were. -/
theorem exists_same {v w : List (Variable α)} (h : SameButValues v w) {i : Nat} {x : Variable α}
    (hx : w[i]? = some x) : ∃ y, v[i]? = some y ∧ y.min = x.min ∧ y.max = x.max := by
  have hparts := h.getElem? i
  rw [hx, Option.map_some, Option.map_eq_some_iff] at hparts
  obtain ⟨y, hy, hfixed⟩ := hparts
  simp only [Variable.fixedPart, Prod.mk.injEq] at hfixed
  exact ⟨y, hy, hfixed.2.1, hfixed.2.2.1⟩

theorem names {v w : List (Variable α)} (h : SameButValues v w) :
    v.map (·.name) = w.map (·.name) := by
  have hn := congrArg (List.map Prod.fst) h
  simpa [Variable.fixedPart, Function.comp_def] using hn

theorem modify (vars : List (Variable α)) (i : Nat) (f : Variable α → Variable α)
    (hf : ∀ v, (f v).fixedPart = v.fixedPart) : SameButValues (vars.modify i f) vars := by
  apply List.ext_getElem?
  intro j
  simp only [List.getElem?_map, List.getElem?_modify]
  cases vars[j]? with
  | none => rfl
  | some v => by_cases hij : i = j <;> simp [hij, hf]

theorem handOut (take : Variable α → α → Variable α)
    (htake : ∀ v x, (take v x).fixedPart = v.fixedPart) (vars : List (Variable α))
    (values : List α) : SameButValues (handOut take vars values) vars := by
  induction vars generalizing values with
  | nil => exact refl []
  | cons v vars ih =>
    cases values with
    | nil => exact refl _
    | cons x values =>
      have hvars : (Solver.handOut take vars values).map Variable.fixedPart =
          vars.map Variable.fixedPart := ih values
      simp [SameButValues, Solver.handOut, htake, hvars]

end SameButValues

/-- Values handed back to the variables they were taken from. -/
theorem handOut_values {v w : List (Variable α)} (h : SameButValues v w) :
    handOut (fun u x => { u with value := x }) v (w.map (·.value)) = w := by
  induction w generalizing v with
  | nil =>
    have hv : v = [] := by simpa [SameButValues] using h
    simp [hv, handOut]
  | cons u w ih =>
    cases v with
    | nil => simp [SameButValues] at h
    | cons t v =>
      obtain ⟨htu, hvw⟩ : t.fixedPart = u.fixedPart ∧ SameButValues v w := by
        simpa [SameButValues] using h
      obtain ⟨hname, hmin, hmax, hinitial⟩ :
          t.name = u.name ∧ t.min = u.min ∧ t.max = u.max ∧ t.initial = u.initial := by
        simpa [Variable.fixedPart] using htu
      cases u
      simp_all [handOut]

theorem restore_snapshot (s t : Solver α) (h : SameButValues t.vars s.vars) :
    t.restore s.snapshot = { t with vars := s.vars } := by
  rw [restore, snapshot, handOut_values h]

section
variable [Scalar α]

theorem fixedPart_setValue (v : Variable α) (x : α) : (v.setValue x).fixedPart = v.fixedPart := rfl

theorem foldl_moveTerm_sameButValues (share : α) (terms : List (Handle × α))
    (vars : List (Variable α)) : SameButValues (terms.foldl (moveTerm share) vars) vars := by
  induction terms generalizing vars with
  | nil => exact .refl vars
  | cons t terms ih => exact (ih _).trans (.modify vars _ _ fun v => fixedPart_setValue v _)

theorem relax_sameButValues (vars : List (Variable α)) (c : Constraint α) :
    SameButValues (relax vars c) vars := by
  unfold relax
  split
  · unfold pin
    split
    · exact .refl vars
    · split
      · exact .refl vars
      · exact .modify vars _ _ fun v => fixedPart_setValue v _
  · exact .refl vars
  · exact .refl vars
  all_goals
    simp only [spread]
    split
    · exact .refl vars
    · exact foldl_moveTerm_sameButValues _ _ vars

theorem adjust_sameButValues (epsilon : α) (vars : List (Variable α)) (c : Constraint α) :
    SameButValues (adjust epsilon vars c) vars := by
  unfold adjust
  split
  · exact .refl vars
  · exact relax_sameButValues vars c

theorem sweep_sameButValues (epsilon : α) (order : List (Constraint α))
    (vars : List (Variable α)) : SameButValues (sweep epsilon order vars) vars := by
  induction order generalizing vars with
  | nil => exact .refl vars
  | cons c order ih => exact (ih _).trans (adjust_sameButValues epsilon vars c)

theorem iterate_sweep_sameButValues (epsilon : α) (order : List (Constraint α))
    (vars : List (Variable α)) (n : Nat) :
    SameButValues ((sweep epsilon order)^[n] vars) vars := by
  induction n with
  | zero => exact .refl _
  | succ n ih =>
    rw [Function.iterate_succ_apply']
    exact (sweep_sameButValues _ _ _).trans ih

theorem settled_sameButValues (s : Solver α) : SameButValues s.settled s.vars :=
  iterate_sweep_sameButValues ..

/-- Whatever the backend hands out, only values change, and the answer is about the new ones. -/
theorem solveExact?_eq_ok {backend : Backend α} {s t : Solver α} {b : Bool}
    (h : s.solveExact? backend = .ok (t, b)) :
    SameButValues t.vars s.vars ∧ t = { s with vars := t.vars } ∧ b = t.isSatisfied := by
  unfold solveExact? at h
  cases hb : backend s.vars s.constraints with
  | error e => simp [hb, bind, Except.bind] at h
  | ok values =>
    obtain ⟨rfl, rfl⟩ : { s with vars := handOut Variable.setValue s.vars values } = t ∧ _ = b := by
      simpa [hb, bind, Except.bind] using h
    exact ⟨.handOut _ fixedPart_setValue s.vars values, rfl, rfl⟩

end
end Scene.Solver
