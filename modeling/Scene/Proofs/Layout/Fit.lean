import Scene.Proofs.Layout.Fallback
import Scene.Proofs.Scalar.Sizing
import Scene.Proofs.Solver.Bounds

/-! The layout of a type that takes the size of its container. Whatever the solver may do and the
backend answers, its size is finite and not negative. -/
namespace Scene
variable {α : Type} [Scalar α]

structure Container.IsFinite (c : Container α) : Prop where
  width : ∀ w ∈ c.width, Scalar.isFinite w = true
  height : ∀ h ∈ c.height, Scalar.isFinite h = true

namespace Layout
open Solver

def pinning (h : Handle) (value : α) : Constraint α :=
  ⟨.fixed, [(h, Scalar.one)], value, Scalar.one⟩

def System.fitted (settings : Settings.Solving α) (size : α × α) : System α where
  solver :=
    { (System.start settings).solver with
      constraints := [pinning ⟨0, 2⟩ size.1, pinning ⟨0, 3⟩ size.2] }
  names := Dict.insert (Dict.insert Dict.empty "width" ()) "height" ()

theorem isFinite_pickSize {container : Option (Container α)}
    (hcontainer : ∀ c ∈ container, c.IsFinite) {fallback : α × α}
    (hfallback : Scalar.isFinite fallback.1 = true ∧ Scalar.isFinite fallback.2 = true) :
    Scalar.isFinite (pickSize none container fallback).1 = true ∧
      Scalar.isFinite (pickSize none container fallback).2 = true := by
  cases container with
  | none => exact hfallback
  | some c =>
    obtain ⟨hwidth, hheight⟩ := hcontainer c rfl
    obtain ⟨w, h⟩ := c
    constructor
    · cases w with
      | none => exact hfallback.1
      | some w => exact hwidth w rfl
    · cases h with
      | none => exact hfallback.2
      | some h => exact hheight h rfl

section
variable [Scalar.Sizing α]

theorem isStrength_one : Constraint.isStrength (Scalar.one : α) = true := by
  have hle : (Scalar.one : α) ≤ Scalar.one :=
    Scalar.le_refl_of_isNaN (Scalar.Sizing.isNaN_of_isFinite Scalar.Sizing.isFinite_one)
  simp [Constraint.isStrength, Scalar.Sizing.zero_le_one, hle]

/-- Pinning a variable that exists to a finite number. -/
theorem System.pin_eq_ok {s : System α} {name : String} {h : Handle} {value : α}
    (hfind : s.solver.find? name = some h) (howns : s.solver.owns h = true)
    (hvalue : Scalar.isFinite value = true) :
    s.pin name value Scalar.one = .ok { s.mention name with
      solver := { s.solver with constraints := s.solver.constraints ++ [pinning h value] } } := by
  have hmake : Constraint.make? .fixed [h] [Scalar.one] value Scalar.one =
      .ok (pinning h value) := by
    simp [Constraint.make?, isStrength_one, hvalue, Scalar.Sizing.isFinite_one, pinning]
  have hcreate : findOrCreate s.solver name = (h, s.solver) := by simp [findOrCreate, hfind]
  have hadd : s.solver.addConstraint? (pinning h value) =
      .ok { s.solver with constraints := s.solver.constraints ++ [pinning h value] } := by
    have hchecked : (pinning h value).terms.forM (fun t => s.solver.checkOwned t.1) = .ok () :=
      forM_eq_ok.mpr fun t ht => checkOwned_eq_ok.mpr (List.mem_singleton.mp ht ▸ howns)
    rw [addConstraint?, hchecked, ok_bind]
  simp only [System.pin, hcreate, hmake, ok_bind, hadd]

theorem ofRules_fit {container : Option (Container α)} {settings : Settings.Resolving α}
    (hwidth : Scalar.isFinite (pickSize none container settings.container).1 = true)
    (hheight : Scalar.isFinite (pickSize none container settings.container).2 = true) :
    System.ofRules [.fit none] container settings =
      .ok (.fitted settings.solving (pickSize none container settings.container)) := by
  generalize hsize : pickSize none container settings.container = size at hwidth hheight
  have hpins : (do
      let s ← System.pin (.start settings.solving) "width" size.1 Scalar.one
      s.pin "height" size.2 Scalar.one) = .ok (.fitted settings.solving size) := by
    rw [System.pin_eq_ok (h := ⟨0, 2⟩) rfl rfl hwidth, ok_bind,
      System.pin_eq_ok (h := ⟨0, 3⟩) rfl rfl hheight]
    rfl
  have hadd : System.add container settings.container (.start settings.solving) (.fit none) =
      .ok (.fitted settings.solving size) := by
    rw [System.add, hsize]
    exact hpins
  rw [System.ofRules, List.foldlM_cons, hadd, ok_bind]
  rfl

/-! What pinned variables are settled to. -/

structure TakesFinite (v : Variable α) : Prop where
  value : Scalar.isFinite v.value = true
  clamp : ∀ x, Scalar.isFinite x = true → Scalar.isFinite (v.clamp x) = true

structure IsPinned (s : Solver α) : Prop where
  vars : ∀ v ∈ s.vars, TakesFinite v
  constraints : ∀ c ∈ s.constraints, ∃ h w, Scalar.isFinite w = true ∧ c = pinning h w

theorem isFinite_reading {vars : List (Variable α)} (hvars : ∀ v ∈ vars, TakesFinite v)
    (h : Handle) : Scalar.isFinite (reading vars h) = true := by
  unfold reading
  split
  · next v hv => exact (hvars v (List.mem_of_getElem? hv)).value
  · exact Scalar.Sizing.isFinite_zero

namespace IsPinned
variable {s : Solver α} (hs : IsPinned s)
include hs

theorem solve : ∀ v ∈ s.solve.1.vars, TakesFinite v := by
  rw [solve_fst, settled]
  refine iterate_sweep_keeps (P := fun vars => ∀ v ∈ vars, TakesFinite v) _
    (fun c hc vars hvars => ?_) hs.vars _
  obtain ⟨h, w, hw, rfl⟩ := hs.constraints c ((List.mergeSort_perm _ _).mem_iff.mp hc)
  change ∀ v ∈ Solver.pin vars (pinning h w), TakesFinite v
  simp only [Solver.pin, pinning]
  split
  · exact hvars
  · exact forall_mem_modify hvars h.index fun v hv =>
      ⟨hv.clamp _ (Scalar.Sizing.isFinite_div_one hw), hv.clamp⟩

/-- Also where the backend answers with an infinity, it is not kept: a tolerance that lets it pass
lets any finite number pass, and so the backend is not asked. -/
theorem settle (backend : Backend α) {h : Handle} {w : α} (hpinned : pinning h w ∈ s.constraints) :
    Scalar.isFinite (reading (settle backend s).1.vars h) = true := by
  have hrelaxed := isFinite_reading hs.solve
  have hfinite (h' : Handle) (w' : α) (hmem : pinning h' w' ∈ s.constraints) :
      Scalar.isFinite w' = true := by
    obtain ⟨_, _, hw, heq⟩ := hs.constraints _ hmem
    cases heq
    exact hw
  rw [settle_eq]
  split
  · exact hrelaxed h
  · next hunsatisfied =>
    rcases fallBack_cases backend s.solve.1 with heq | ⟨t, heq, hsatisfied, -, hrest⟩
    · rw [heq]
      exact hrelaxed h
    · rw [heq]
      refine Bool.of_not_eq_false fun hinfinite => hunsatisfied ?_
      have hconstraints : t.constraints = s.constraints := by rw [hrest, solve_fst]
      have hepsilon : t.settings.epsilon = s.settings.epsilon := by rw [hrest, solve_fst]
      rw [isSatisfied, hconstraints, hepsilon] at hsatisfied
      have hnear := of_decide_eq_true (List.all_eq_true.mp hsatisfied _ hpinned)
      have hwide := Scalar.Sizing.posInf_le_of_deviation hinfinite (hfinite h w hpinned) hnear
      rw [solve_snd, isSatisfied, solve_fst]
      refine List.all_eq_true.mpr fun c hc => ?_
      obtain ⟨h', w', hw', rfl⟩ := hs.constraints c hc
      rw [solve_fst] at hrelaxed
      exact decide_eq_true (Scalar.Sizing.deviation_le (hrelaxed h') hw' hwide)

end IsPinned

omit [Scalar.Sizing α] in
theorem settle_bounded [Scalar.Ordered α] (backend : Backend α) {s : Solver α}
    (hs : Bounded s.vars) : Bounded (settle backend s).1.vars := by
  have hsolve : Bounded s.solve.1.vars := by
    rw [solve_fst]
    exact hs.iterate_sweep _ _ _
  exact settle_keeps Bounded hsolve fun values _ => hsolve.handOut values

/-! The layout of a size that is to be taken. -/

def IsSize (x : α) : Prop := Scalar.isFinite x = true ∧ Scalar.zero ≤ x

theorem takesFinite_unbounded (name : String) :
    TakesFinite (Variable.create name (Scalar.zero : α) Scalar.negInf Scalar.posInf) where
  value := by
    rw [Variable.create, Scalar.clamp_unbounded Scalar.Sizing.isFinite_zero]
    exact Scalar.Sizing.isFinite_zero
  clamp x hx := by
    change Scalar.isFinite (Scalar.clamp Scalar.negInf Scalar.posInf x) = true
    rwa [Scalar.clamp_unbounded hx]

theorem takesFinite_size (name : String) :
    TakesFinite (Variable.create name (Scalar.zero : α) Scalar.zero Scalar.posInf) where
  value := Scalar.isFinite_clamp_posInf Scalar.Sizing.isFinite_zero Scalar.Sizing.isFinite_zero
  clamp _ hx := Scalar.isFinite_clamp_posInf Scalar.Sizing.isFinite_zero hx

namespace System
variable {settings : Settings.Solving α} {size : α × α}

theorem fitted_isPinned (hwidth : Scalar.isFinite size.1 = true)
    (hheight : Scalar.isFinite size.2 = true) : IsPinned (fitted settings size).solver where
  vars := by
    have hx := takesFinite_unbounded (α := α) "x"
    have hy := takesFinite_unbounded (α := α) "y"
    have hsizes := takesFinite_size (α := α)
    exact List.forall_mem_cons.mpr ⟨hx, List.forall_mem_cons.mpr ⟨hy, List.forall_mem_cons.mpr
      ⟨hsizes "width", List.forall_mem_singleton.mpr (hsizes "height")⟩⟩⟩
  constraints := List.forall_mem_cons.mpr
    ⟨⟨_, _, hwidth, rfl⟩, List.forall_mem_singleton.mpr ⟨_, _, hheight, rfl⟩⟩

theorem start_bounded (settings : Settings.Solving α) : Bounded (start settings).solver.vars := by
  have hall : (Scalar.negInf : α) ≤ Scalar.posInf := Scalar.Ordered.negInf_le_posInf
  have hsizes : (Scalar.zero : α) ≤ Scalar.posInf :=
    Scalar.Sizing.le_posInf_of_isFinite Scalar.Sizing.isFinite_zero
  exact List.forall_mem_cons.mpr ⟨.create hall _ _, List.forall_mem_cons.mpr ⟨.create hall _ _,
    List.forall_mem_cons.mpr ⟨.create hsizes _ _, List.forall_mem_singleton.mpr
      (.create hsizes _ _)⟩⟩⟩

/-- One axis. -/
theorem fitted_isSize (backend : Backend α) (hpinned : IsPinned (fitted settings size).solver)
    (hw : (fitted settings size).solver.WellFormed) {i : Nat} {name : String} {w : α}
    (hv : (start settings).solver.vars[i]? =
      some (.create name Scalar.zero Scalar.zero Scalar.posInf))
    (hc : pinning ⟨0, i⟩ w ∈ (fitted settings size).solver.constraints) :
    IsSize (((fitted settings size).outcome
      (settle backend (fitted settings size).solver)).solution.getOrZero name) := by
  have hsettles := settle_settles backend (fitted settings size).solver
  obtain ⟨u, hu, hget⟩ := get?_outcome_of_settles hw hsettles hv
  have hvalue : ((fitted settings size).outcome
      (settle backend (fitted settings size).solver)).solution.getOrZero name = u.value := by
    rw [Solution.getOrZero]
    exact congrArg (·.getD Scalar.zero) hget
  have hreading :
      reading (settle backend (fitted settings size).solver).1.vars ⟨0, i⟩ = u.value := by
    rw [reading, hu]
  have hfinite : Scalar.isFinite u.value = true := hreading ▸ hpinned.settle backend hc
  have hmin : u.min = Scalar.zero := by
    have hsame := hsettles.same.getElem? i
    rw [hu, show (fitted settings size).solver.vars[i]? = _ from hv] at hsame
    exact congrArg (·.2.1) (Option.some.inj hsame)
  have hbounded : Bounded (fitted settings size).solver.vars := start_bounded settings
  have hwithin := (settle_bounded backend hbounded u (List.mem_of_getElem? hu)).value
  rw [hvalue]
  refine ⟨hfinite, ?_⟩
  rcases hwithin with hnan | ⟨hlow, -⟩
  · rw [Scalar.Sizing.isNaN_of_isFinite hfinite] at hnan
    cases hnan
  · exact hmin ▸ hlow

end System

/-- A type that takes the size of its container is always laid out, with finite sizes that are not
negative; whether they are those of the container is another matter. -/
theorem solve_fit (backend : Backend α) {container : Option (Container α)}
    {settings : Settings.Resolving α} (hcontainer : ∀ c ∈ container, c.IsFinite)
    (hdefault : Scalar.isFinite settings.container.1 = true ∧
      Scalar.isFinite settings.container.2 = true) :
    ∃ o, solve backend [.fit none] container settings = .ok o ∧ IsSize o.solution.width ∧
      IsSize o.solution.height := by
  obtain ⟨hwidth, hheight⟩ := isFinite_pickSize hcontainer hdefault
  have hsystem := ofRules_fit hwidth hheight
  have hw := System.ofRules_wellFormed hsystem
  have hpinned : IsPinned (System.fitted settings.solving _).solver :=
    System.fitted_isPinned hwidth hheight
  refine ⟨_, solve_eq_ok.mpr ⟨_, hsystem, rfl⟩, ?_, ?_⟩
  · exact System.fitted_isSize backend hpinned hw rfl List.mem_cons_self
  · exact System.fitted_isSize backend hpinned hw rfl (List.mem_cons_of_mem _ List.mem_cons_self)

end
end Layout
end Scene
