import Scene.Proofs.Solver.Frame
import Scene.Proofs.Solver.Locality
import Scene.Proofs.Solver.VisitOrder
import Scene.Scalar.Double

/-! The last word on a variable. A pass leaves a variable the way the last constraint that involves
it left it. So a pin that no such constraint follows is kept at the end of each pass, as far as the
bounds of its variable let it, whatever the constraints before it want. -/
namespace Scene.Solver
variable {α : Type} [Scalar α] {vars : List (Variable α)} {c : Constraint α} {h : Handle} {k : α}
  {v : Variable α}

theorem sweep_append (epsilon : α) (before after : List (Constraint α))
    (vars : List (Variable α)) :
    sweep epsilon (before ++ after) vars = sweep epsilon after (sweep epsilon before vars) :=
  List.foldl_append

/-- A pin of `v` by the coefficient `k` holds, or `v` was set to the number in its bounds that is
nearest to what the pin wants. -/
def Constraint.IsKept (c : Constraint α) (epsilon k : α) (h : Handle) (v : Variable α)
    (vars : List (Variable α)) : Prop :=
  c.isSatisfied (reading vars) epsilon = true ∨ reading vars h = v.clamp (c.constant / k)

theorem relax_pin (hfixed : c.kind = .fixed) (hterms : c.terms = [(h, k)])
    (hk : (k == Scalar.zero) = false) :
    relax vars c = vars.modify h.index fun v => v.setValue (c.constant / k) := by
  simp [relax, pin, hfixed, hterms, hk]

theorem reading_modify (hv : vars[h.index]? = some v) (f : Variable α → Variable α) :
    reading (vars.modify h.index f) h = (f v).value := by
  simp [reading, hv]

theorem adjust_keeps_pin (hfixed : c.kind = .fixed) (hterms : c.terms = [(h, k)])
    (hk : (k == Scalar.zero) = false) {start : List (Variable α)}
    (hv : start[h.index]? = some v) (hsame : SameButValues vars start) (epsilon : α) :
    c.IsKept epsilon k h v (adjust epsilon vars c) := by
  unfold adjust
  split
  · next hsatisfied => exact .inl hsatisfied
  · obtain ⟨w, hw, hmin, hmax⟩ := hsame.exists_same hv
    right
    rw [relax_pin hfixed hterms hk, reading_modify hw]
    change Scalar.clamp w.min w.max _ = Scalar.clamp v.min v.max _
    rw [hmin, hmax]

/-- What no further constraint involves stays kept. -/
theorem Constraint.IsKept.sweep {epsilon : α} (hkept : c.IsKept epsilon k h v vars)
    (hterms : c.terms = [(h, k)]) {after : List (Constraint α)}
    (hafter : ∀ d ∈ after, ¬d.Involves h.index) :
    c.IsKept epsilon k h v (sweep epsilon after vars) := by
  have hframe : AgreeOn (· = h.index) (Solver.sweep epsilon after vars) vars := by
    rintro _ rfl
    exact sweep_frame epsilon after vars h.index fun ⟨d, hd, hinvolves⟩ => hafter d hd hinvolves
  have hplaces : ∀ i, c.Involves i → i = h.index := by
    rintro i ⟨-, t, ht, rfl⟩
    rw [hterms] at ht
    exact congrArg (·.1.index) (List.mem_singleton.mp ht)
  unfold IsKept
  rwa [c.isSatisfied_congr hframe hplaces, reading_congr hframe rfl]

/-- However a solve ends, and whatever the other constraints are: a pin with no constraint behind it
that involves its variable holds, or its variable is as near to what the pin wants as its bounds
let it. -/
theorem last_pin_kept (s : Solver α) {i : Nat} (hc : s.constraints[i]? = some c)
    (hfixed : c.kind = .fixed) (hterms : c.terms = [(h, k)]) (hk : (k == Scalar.zero) = false)
    (hv : s.vars[h.index]? = some v)
    (hlast : ∀ d j, s.constraints[j]? = some d → VisitedAfter (c, i) (d, j) →
      ¬d.Involves h.index)
    (hpasses : 1 ≤ s.settings.maxIterations) :
    c.isSatisfied (reading s.solve.1.vars) s.settings.epsilon = true ∨
      reading s.solve.1.vars h = v.clamp (c.constant / k) := by
  obtain ⟨before, after, horder, hafter⟩ := exists_visitOrder_split hc
  obtain ⟨n, hn⟩ := Nat.exists_eq_add_of_le' hpasses
  let order := visitOrder s.constraints
  let start := (sweep s.settings.epsilon order)^[n] s.vars
  have hsame : SameButValues (sweep s.settings.epsilon before start) s.vars :=
    (sweep_sameButValues ..).trans (iterate_sweep_sameButValues ..)
  have hpin := adjust_keeps_pin hfixed hterms hk hv hsame s.settings.epsilon
  have hkept := hpin.sweep hterms fun d hd => by
    obtain ⟨j, hj, hvisited⟩ := hafter d hd
    exact hlast d j hj hvisited
  have hsettled : s.settled = sweep s.settings.epsilon after
      (adjust s.settings.epsilon (sweep s.settings.epsilon before start) c) := by
    rw [settled, hn, Function.iterate_succ_apply', ← sweep_cons, ← sweep_append, ← horder]
  rw [solve_fst, hsettled]
  exact hkept

def doubled : Constraint Float := ⟨.fixed, [(⟨0, 0⟩, 2.0)], 20.0, 0.5⟩

def contested : Solver Float where
  number := 0
  vars := [.create "width" 0.0 0.0 8.0, .create "height" 0.0 0.0 8.0]
  constraints := [doubled, ⟨.equal, [(⟨0, 0⟩, 1.0), (⟨0, 1⟩, 1.0)], 5.0, 1.0⟩,
    ⟨.greaterEqual, [(⟨0, 1⟩, 1.0)], 1.0, 0.5⟩, ⟨.minimize, [(⟨0, 0⟩, 1.0)], 0.0, 0.25⟩]
  settings := .standard

theorem contested_last (d : Constraint Float) (j : Nat) (hd : contested.constraints[j]? = some d)
    (hvisited : VisitedAfter (doubled, 0) (d, j)) : ¬d.Involves 0 := by
  rintro ⟨hkind, t, ht, hplace⟩
  match j with
  | 0 | 1 =>
    cases hd
    exact absurd hvisited (by decide +kernel)
  | 2 =>
    cases hd
    obtain rfl := List.mem_singleton.mp ht
    cases hplace
  | 3 =>
    cases hd
    cases hkind
  | _ + 4 => cases hd

theorem contested_width_kept :
    (contested.constraints[0]? = some doubled ∧
        (∀ d j, contested.constraints[j]? = some d → VisitedAfter (doubled, 0) (d, j) →
          ¬d.Involves 0) ∧ 1 ≤ contested.settings.maxIterations) ∧
      (doubled.isSatisfied (reading contested.solve.1.vars) contested.settings.epsilon = true ∨
        reading contested.solve.1.vars ⟨0, 0⟩ =
          (Variable.create "width" 0.0 0.0 8.0).clamp (20.0 / 2.0)) :=
  ⟨⟨rfl, contested_last, by decide⟩,
    last_pin_kept contested rfl rfl rfl (by decide +kernel) rfl contested_last (by decide)⟩

end Scene.Solver
