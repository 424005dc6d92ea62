import Scene.Proofs.Layout.Fit
import Scene.Proofs.Scalar.Sums

/-! The layout of a type that takes the size of its container, in exact numbers. One pass settles
it: a size stays at zero, where it begins, if that is near enough, and is that of the container
otherwise. -/
namespace Scene.Layout
open Solver

/-- Where a value ends that is pinned to a size. -/
def taken (epsilon start size : Exact) : Exact :=
  if Scalar.abs (start - size) ≤ epsilon then start else size

def sized (width height : Exact) : List (Variable Exact) :=
  [.create "x" (.fin 0) .negInf .posInf, .create "y" (.fin 0) .negInf .posInf,
    ⟨"width", width, .fin 0, .posInf, .fin 0⟩, ⟨"height", height, .fin 0, .posInf, .fin 0⟩]

def takenSolution (epsilon : Exact) (size : Exact × Exact) : Solution Exact where
  values := [("height", taken epsilon (.fin 0) size.2), ("width", taken epsilon (.fin 0) size.1),
    ("x", .fin 0), ("y", .fin 0)]
  constrained := ["height", "width"]
  converged := true

section
variable {epsilon : Exact} {a b w h : Rat}

theorem values_sized (width height : Exact) :
    Dict.ofList ((sized width height).map fun v => (v.name, v.value)) =
      [("height", height), ("width", width), ("x", .fin 0), ("y", .fin 0)] := by
  have hzero : Scalar.clamp Exact.negInf .posInf (.fin 0) = .fin 0 := rfl
  have hafter : ¬"y" < "x" ∧ ¬"y" = "x" := by decide
  have hbefore : "width" < "x" ∧ "height" < "width" := by decide
  simp only [sized, Variable.create, hzero, Dict.ofList, Dict.empty, Dict.insert, List.map_cons,
    List.map_nil, List.foldl_cons, List.foldl_nil, if_neg hafter.1, if_neg hafter.2,
    if_pos hbefore.1, if_pos hbefore.2]

theorem isSatisfied_pin (x : Handle) (value : Handle → Exact) (size : Exact) :
    (pinning x size).isSatisfied value epsilon =
      decide (Scalar.abs (value x - size) ≤ epsilon) := by
  have hevaluate : (pinning x size).evaluate value = value x := Exact.zero_add_one_mul (value x)
  rw [Constraint.isSatisfied, hevaluate]
  rfl

theorem isSatisfied_pinning {x : Handle} {value : Handle → Exact} (hx : value x = .fin a)
    (size : Exact) : (pinning x size).isSatisfied value epsilon =
      decide (Scalar.abs (.fin a - size) ≤ epsilon) := by
  rw [isSatisfied_pin, hx]

theorem clamp_size (hw : 0 ≤ w) :
    Scalar.clamp (Exact.fin 0) .posInf (Exact.fin w / Scalar.one) = .fin w := by
  have hone : Exact.fin w / Scalar.one = .fin w := by
    change Exact.fin (w / 1) = .fin w
    rw [div_one]
  have hlow : ¬Exact.fin w < .fin 0 := Exact.not_fin_lt.mpr (Exact.fin_le.mpr hw)
  rw [hone, Scalar.clamp, if_neg hlow]
  rfl

theorem adjust_width (hw : 0 ≤ w) (height : Exact) :
    adjust epsilon (sized (.fin a) height) (pinning ⟨0, 2⟩ (.fin w)) =
      sized (taken epsilon (.fin a) (.fin w)) height := by
  rw [adjust, isSatisfied_pinning (a := a) rfl, taken]
  split
  · next hnear => rw [if_pos (of_decide_eq_true hnear)]
  · next hfar =>
    rw [if_neg (by simpa using hfar)]
    change sized (Scalar.clamp (.fin 0) .posInf (Exact.fin w / Scalar.one)) height = _
    rw [clamp_size hw]

theorem adjust_height (hh : 0 ≤ h) (width : Exact) :
    adjust epsilon (sized width (.fin b)) (pinning ⟨0, 3⟩ (.fin h)) =
      sized width (taken epsilon (.fin b) (.fin h)) := by
  rw [adjust, isSatisfied_pinning (a := b) rfl, taken]
  split
  · next hnear => rw [if_pos (of_decide_eq_true hnear)]
  · next hfar =>
    rw [if_neg (by simpa using hfar)]
    change sized width (Scalar.clamp (.fin 0) .posInf (Exact.fin h / Scalar.one)) = _
    rw [clamp_size hh]

/-- Pinned values are finite and near what they are pinned to. -/
theorem exists_taken (hepsilon : Scalar.zero ≤ epsilon) (a w : Rat) :
    ∃ q, taken epsilon (.fin a) (.fin w) = .fin q ∧
      Scalar.abs (.fin q - .fin w) ≤ epsilon := by
  unfold taken
  split
  · next hnear => exact ⟨a, rfl, hnear⟩
  · exact ⟨w, rfl, Exact.le_trans (Exact.abs_sub_le_zero.mpr rfl) hepsilon⟩

variable {settings : Settings.Solving Exact}

/-- After one pass nothing is left to do. -/
theorem solve_fitted (hepsilon : Scalar.zero ≤ settings.epsilon)
    (hpasses : 1 ≤ settings.maxIterations) (hw : 0 ≤ w) (hh : 0 ≤ h) :
    (System.fitted settings (.fin w, .fin h)).solver.solve =
      ({ (System.fitted settings (.fin w, .fin h)).solver with
        vars := sized (taken settings.epsilon (.fin 0) (.fin w))
          (taken settings.epsilon (.fin 0) (.fin h)) }, true) := by
  let order : List (Constraint Exact) := [pinning ⟨0, 2⟩ (.fin w), pinning ⟨0, 3⟩ (.fin h)]
  obtain ⟨p, hp, hpnear⟩ := exists_taken hepsilon 0 w
  obtain ⟨q, hq, hqnear⟩ := exists_taken hepsilon 0 h
  have horder : visitOrder order = order :=
    List.mergeSort_of_pairwise (List.pairwise_pair.mpr rfl)
  have hsweep : sweep settings.epsilon order (sized (.fin 0) (.fin 0)) =
      sized (.fin p) (.fin q) := by
    rw [sweep_cons, adjust_width hw, sweep_cons, adjust_height hh, hp, hq]
    rfl
  have hsatisfied : allSatisfied order settings.epsilon (sized (.fin p) (.fin q)) = true := by
    refine List.all_eq_true.mpr (List.forall_mem_cons.mpr ⟨?_, List.forall_mem_singleton.mpr ?_⟩)
    · rw [isSatisfied_pinning (a := p) rfl]
      exact decide_eq_true hpnear
    · rw [isSatisfied_pinning (a := q) rfl]
      exact decide_eq_true hqnear
  have hsettled : (System.fitted settings (.fin w, .fin h)).solver.settled =
      sized (.fin p) (.fin q) := by
    obtain ⟨n, hn⟩ := Nat.exists_eq_add_of_le' hpasses
    change (sweep settings.epsilon (visitOrder order))^[settings.maxIterations]
      (sized (.fin 0) (.fin 0)) = _
    rw [horder, hn, Function.iterate_succ_apply, hsweep]
    exact Function.iterate_fixed (sweep_of_allSatisfied _ _ _ hsatisfied) n
  have hfst := solve_fst (System.fitted settings (.fin w, .fin h)).solver
  rw [hsettled] at hfst
  rw [hp, hq]
  refine Prod.ext hfst ?_
  rw [solve_snd, hfst]
  exact hsatisfied

end

/-- A type that takes the size of its container: each size ends at zero if that is near enough, and
is the container's otherwise. -/
theorem solve_fit_exact (backend : Backend Exact) {container : Option (Container Exact)}
    {settings : Settings.Resolving Exact} {w h : Rat}
    (hepsilon : Scalar.zero ≤ settings.solving.epsilon)
    (hpasses : 1 ≤ settings.solving.maxIterations) (hw : 0 ≤ w) (hh : 0 ≤ h)
    (hsize : pickSize none container settings.container = (.fin w, .fin h)) :
    solve backend [.fit none] container settings =
      .ok ⟨takenSolution settings.solving.epsilon (.fin w, .fin h), 2⟩ := by
  have hsystem : System.ofRules [.fit none] container settings =
      .ok (System.fitted settings.solving (.fin w, .fin h)) := by
    rw [← hsize]
    exact ofRules_fit (hsize ▸ rfl) (hsize ▸ rfl)
  refine solve_eq_ok.mpr ⟨_, hsystem, ?_⟩
  rw [settle_eq, solve_fitted hepsilon hpasses hw hh, if_pos rfl]
  simp only [System.outcome, values_sized]
  rfl

/-- It cannot take an infinite size. -/
theorem isFinite_of_solve_fit {α : Type} [Scalar α] {backend : Backend α}
    {container : Option (Container α)} {settings : Settings.Resolving α} {o : Outcome α}
    (h : solve backend [.fit none] container settings = .ok o) :
    Scalar.isFinite (pickSize none container settings.container).1 = true ∧
      Scalar.isFinite (pickSize none container settings.container).2 = true := by
  have hpin {s s' : System α} {name : String} {value : α}
      (hs : s.pin name value Scalar.one = .ok s') : Scalar.isFinite value = true := by
    simp only [System.pin, bind_eq_ok] at hs
    obtain ⟨c, hc, -⟩ := hs
    unfold Constraint.make? at hc
    split at hc
    · cases hc
    · split at hc
      · cases hc
      · split at hc
        · cases hc
        · next hfinite =>
          rw [Bool.or_eq_true, not_or, Bool.not_eq_true', Bool.not_eq_false] at hfinite
          exact hfinite.1
  obtain ⟨system, hsystem, -⟩ := solve_eq_ok.mp h
  rw [System.ofRules, List.foldlM_cons, bind_eq_ok] at hsystem
  obtain ⟨s, hs, -⟩ := hsystem
  simp only [System.add, bind_eq_ok] at hs
  obtain ⟨t, hwidth, hheight⟩ := hs
  exact ⟨hpin hwidth, hpin hheight⟩

/-! What paddings leave of a size. -/

/-- What a padding leaves of a size, on both of its sides. -/
def inset (q : Rat) : Exact → Rat
  | .fin p => max 0 (q - 2 * p)
  | _ => 0

section
variable {epsilon p p' x : Exact} {q : Rat}

theorem fin_or_posInf (hp : Scalar.zero ≤ p) : (∃ r, 0 ≤ r ∧ p = .fin r) ∨ p = .posInf := by
  cases p with
  | fin r => exact .inl ⟨r, Exact.fin_le.mp hp, rfl⟩
  | posInf => exact .inr rfl
  | _ => cases hp

theorem zero_le_add (hp : Scalar.zero ≤ p) (hp' : Scalar.zero ≤ p') : Scalar.zero ≤ p + p' := by
  obtain ⟨r, hr, rfl⟩ | rfl := fin_or_posInf hp <;> obtain ⟨r', hr', rfl⟩ | rfl := fin_or_posInf hp'
  · exact Exact.fin_le.mpr (add_nonneg hr hr')
  all_goals rfl

theorem nonNegative_sub (hp : Scalar.zero ≤ p) :
    Scalar.nonNegative (.fin q - Scalar.ofNat 2 * p) = .fin (inset q p) := by
  obtain ⟨r, -, rfl⟩ | rfl := fin_or_posInf hp
  · have hsub : Exact.fin q - Scalar.ofNat 2 * .fin r = .fin (q - 2 * r) := by
      change Exact.fin (q + -((2 : Nat) * r)) = _
      rw [Nat.cast_ofNat, sub_eq_add_neg]
    rw [hsub, Scalar.nonNegative, inset]
    split
    · next hpos => rw [max_eq_right (of_decide_eq_true hpos : 0 < q - 2 * r).le]
    · next hneg => rw [max_eq_left (Exact.fin_le.mp (Exact.not_fin_lt.mp hneg))]; rfl
  · rfl

theorem zero_le_inset : 0 ≤ inset q p := by
  unfold inset
  split
  · exact le_max_left ..
  · exact le_refl 0

theorem inset_zero (hp : Scalar.zero ≤ p) : inset 0 p = 0 := by
  obtain ⟨r, hr, rfl⟩ | rfl := fin_or_posInf hp
  · exact max_eq_left (by linarith)
  · rfl

theorem inset_le (hq : 0 ≤ q) (hp : Scalar.zero ≤ p) : inset q p ≤ q := by
  obtain ⟨r, hr, rfl⟩ | rfl := fin_or_posInf hp
  · exact max_le hq (by linarith)
  · exact hq

theorem inset_nothing (hq : 0 ≤ q) : inset q Scalar.zero = q := by
  change max 0 (q - 2 * 0) = q
  rw [mul_zero, sub_zero, max_eq_right hq]

/-- Paddings add up. -/
theorem inset_inset (hp : Scalar.zero ≤ p) (hp' : Scalar.zero ≤ p') :
    inset (inset q p) p' = inset q (p + p') := by
  obtain ⟨r, hr, rfl⟩ | rfl := fin_or_posInf hp
  · obtain ⟨r', hr', rfl⟩ | rfl := fin_or_posInf hp'
    · simp only [inset, Exact.fin_add]
      grind
    · rfl
  · obtain ⟨r', hr', rfl⟩ | rfl := fin_or_posInf hp'
    · exact inset_zero hp'
    · rfl

/-- A size that is what a padding leaves of another, or nothing where that is near enough. -/
def EndsAt (epsilon : Exact) (q : Rat) (p x : Exact) : Prop :=
  x = .fin (inset q p) ∨ x = .fin 0 ∧ Exact.fin (inset q p) ≤ epsilon

theorem abs_zero_sub (hq : 0 ≤ q) : Scalar.abs (Exact.fin 0 - .fin q) = .fin q := by
  change Exact.fin (if 0 + -q < 0 then -(0 + -q) else 0 + -q) = .fin q
  refine congrArg Exact.fin ?_
  split <;> linarith

theorem EndsAt.near (h : EndsAt epsilon q p x) (hepsilon : Scalar.zero ≤ epsilon) :
    Scalar.abs (x - .fin (inset q p)) ≤ epsilon := by
  obtain rfl | ⟨rfl, hnear⟩ := h
  · exact Exact.le_trans (Exact.abs_sub_le_zero.mpr rfl) hepsilon
  · rwa [abs_zero_sub zero_le_inset]

/-- Tolerances do not add up: a size that was taken for nothing leaves nothing, however often it is
inset. -/
theorem EndsAt.of_taken {a : Rat} (hq : 0 ≤ q) (hp : Scalar.zero ≤ p) (hp' : Scalar.zero ≤ p')
    (ha : taken epsilon (.fin 0) (.fin q) = .fin a) (h : EndsAt epsilon (inset a p) p' x) :
    EndsAt epsilon q (p + p') x := by
  rw [taken, abs_zero_sub hq] at ha
  split at ha
  · next hnear =>
    obtain rfl : 0 = a := Exact.fin.inj ha
    rw [EndsAt, inset_zero hp, inset_zero hp'] at h
    refine .inr ⟨h.elim id And.left, Exact.le_trans (Exact.fin_le.mpr ?_) hnear⟩
    exact inset_le hq (zero_le_add hp hp')
  · obtain rfl : q = a := Exact.fin.inj ha
    rwa [EndsAt, inset_inset hp hp'] at h

end
end Scene.Layout
