import Scene.Proofs.Scalar.Ordered
import Scene.Proofs.Solver.Ownership

/-! Bounds always hold. Whatever is written to a variable goes through its bounds first, so neither
a call, nor a moment within one, nor a backend that answers anything at all leaves a variable
outside them. -/
namespace Scene.Solver
variable {α : Type} [Scalar α]

/-- The bounds are in order, and both values are within them or not a number. -/
structure Variable.Bounded (v : Variable α) : Prop where
  ordered : v.min ≤ v.max
  value : Scalar.Within v.min v.max v.value
  initial : Scalar.Within v.min v.max v.initial

def Bounded (vars : List (Variable α)) : Prop := ∀ v ∈ vars, v.Bounded

/-- The variables in the middle of a solve: after some passes, after the visits of a further pass to
the constraints `order`, and after the terms `moved` of the next one took their share. -/
def midway (s : Solver α) (n : Nat) (order : List (Constraint α)) (share : α)
    (moved : List (Handle × α)) : List (Variable α) :=
  moved.foldl (moveTerm share) (sweep s.settings.epsilon order
    ((sweep s.settings.epsilon (visitOrder s.constraints))^[n] s.vars))

def Pool.runAll (steps : List (Backend α × Action α)) : Pool α :=
  steps.foldl (fun p step => (p.step step.1 step.2).2) ⟨⟨0⟩, []⟩

theorem createBounded?_ordered [Scalar.Ordered α] {s : Solver α} {name : String}
    {value min max : α} {r : Handle × Solver α}
    (h : s.createBounded? name value min max = .ok r) : min ≤ max := by
  unfold createBounded? at h
  split at h
  · cases h
  · next hguard =>
    simp only [Bool.or_eq_true, decide_eq_true_eq, not_or, Bool.not_eq_true] at hguard
    exact Scalar.le_of_not_lt hguard.1.2 hguard.1.1 hguard.2

theorem Variable.Bounded.create [Scalar.Ordered α] {min max : α} (hle : min ≤ max) (name : String)
    (value : α) : (Variable.create name value min max).Bounded where
  ordered := hle
  value := Scalar.within_clamp hle value
  initial := Scalar.within_clamp hle value

theorem Variable.Bounded.setValue [Scalar.Ordered α] {v : Variable α} (hv : v.Bounded) (x : α) :
    (v.setValue x).Bounded where
  ordered := hv.ordered
  value := Scalar.within_clamp hv.ordered x
  initial := hv.initial

omit [Scalar α] in
theorem forall_mem_modify {P : Variable α → Prop} {vars : List (Variable α)}
    (hvars : ∀ v ∈ vars, P v) (i : Nat) {f : Variable α → Variable α} (hf : ∀ v, P v → P (f v)) :
    ∀ v ∈ vars.modify i f, P v := by
  intro v hv
  obtain ⟨j, hj⟩ := List.mem_iff_getElem?.mp hv
  rw [List.getElem?_modify, Option.map_eq_map, Option.map_eq_some_iff] at hj
  obtain ⟨w, hw, rfl⟩ := hj
  have hP := hvars w (List.mem_of_getElem? hw)
  split
  · exact hf w hP
  · exact hP

/-- What relaxing any of the constraints keeps, a pass over them keeps. -/
theorem sweep_keeps {P : List (Variable α) → Prop} (epsilon : α) {order : List (Constraint α)}
    (hrelax : ∀ c ∈ order, ∀ vars, P vars → P (relax vars c)) {vars : List (Variable α)}
    (hvars : P vars) : P (sweep epsilon order vars) := by
  induction order generalizing vars with
  | nil => exact hvars
  | cons c order ih =>
    obtain ⟨hc, horder⟩ := List.forall_mem_cons.mp hrelax
    refine ih horder ?_
    unfold adjust
    split
    · exact hvars
    · exact hc vars hvars

theorem iterate_sweep_keeps {P : List (Variable α) → Prop} (epsilon : α)
    {order : List (Constraint α)} (hrelax : ∀ c ∈ order, ∀ vars, P vars → P (relax vars c))
    {vars : List (Variable α)} (hvars : P vars) (n : Nat) :
    P ((sweep epsilon order)^[n] vars) := by
  induction n with
  | zero => exact hvars
  | succ n ih =>
    rw [Function.iterate_succ_apply']
    exact sweep_keeps epsilon hrelax ih

namespace Bounded
variable {vars : List (Variable α)} [Scalar.Ordered α]

theorem handOut (hvars : Bounded vars) (values : List α) :
    Bounded (handOut Variable.setValue vars values) := by
  induction vars generalizing values with
  | nil => exact hvars
  | cons v vars ih =>
    obtain ⟨hv, hrest⟩ := List.forall_mem_cons.mp hvars
    cases values with
    | nil => exact hvars
    | cons x values => exact List.forall_mem_cons.mpr ⟨hv.setValue x, ih hrest values⟩

theorem foldl_moveTerm (hvars : Bounded vars) (share : α) (terms : List (Handle × α)) :
    Bounded (terms.foldl (moveTerm share) vars) := by
  induction terms generalizing vars with
  | nil => exact hvars
  | cons t terms ih => exact ih (forall_mem_modify hvars t.1.index fun _ hv => hv.setValue _)

theorem relax (hvars : Bounded vars) (c : Constraint α) : Bounded (relax vars c) := by
  unfold Solver.relax
  split
  · unfold pin
    split
    · exact hvars
    · split
      · exact hvars
      · exact forall_mem_modify hvars _ fun _ hv => hv.setValue _
  · exact hvars
  · exact hvars
  all_goals
    simp only [spread]
    split
    · exact hvars
    · exact hvars.foldl_moveTerm _ _

theorem sweep (hvars : Bounded vars) (epsilon : α) (order : List (Constraint α)) :
    Bounded (sweep epsilon order vars) :=
  sweep_keeps epsilon (fun c _ _ hvars => hvars.relax c) hvars

theorem iterate_sweep (hvars : Bounded vars) (epsilon : α) (order : List (Constraint α)) (n : Nat) :
    Bounded ((Solver.sweep epsilon order)^[n] vars) :=
  iterate_sweep_keeps epsilon (fun c _ _ hvars => hvars.relax c) hvars n

theorem midway {s : Solver α} (hs : Bounded s.vars) (n : Nat) (order : List (Constraint α))
    (share : α) (moved : List (Handle × α)) : Bounded (s.midway n order share moved) :=
  ((hs.iterate_sweep _ _ n).sweep _ order).foldl_moveTerm share moved

end Bounded

section
variable {s : Solver α} {backend : Backend α}

/-- A call in one piece keeps the bounds if what it returns does. -/
theorem bounded_settle {β : Type} {f : β → Answer} {x : InPlace α β}
    {result : Except (Error α) (β × Solver α)} (hx : x.from s = settle s result)
    (hs : Bounded s.vars) (hok : ∀ b s', result = .ok (b, s') → Bounded s'.vars) :
    Bounded ((f <$> x).from s).2.vars :=
  settle_keeps (P := fun s => Bounded s.vars) hx hs hok

theorem bounded_pushVariable (hs : Bounded s.vars) {v : Variable α} (hv : v.Bounded) :
    Bounded (s.pushVariable v).2.vars :=
  List.forall_mem_append.mpr ⟨hs, List.forall_mem_singleton.mpr hv⟩

variable [Scalar.Ordered α]

theorem bounded_solveExact? (hs : Bounded s.vars) {t : Solver α} {b : Bool}
    (h : s.solveExact? backend = .ok (t, b)) : Bounded t.vars := by
  obtain ⟨values, -, h⟩ := bind_eq_ok.mp h
  cases h
  exact hs.handOut values

/-- One call. -/
theorem bounded_perform (hs : Bounded s.vars) (c : Call α) :
    Bounded ((c.perform backend).from s).2.vars := by
  cases c with
  | createVariable name value =>
    exact bounded_pushVariable hs (.create Scalar.Ordered.negInf_le_posInf name value)
  | createBounded name value min max =>
    refine bounded_settle (InPlace.from_createBounded name value min max) hs fun h s' hs' => ?_
    obtain ⟨-, rfl⟩ := Prod.mk.inj (createBounded?_eq_ok hs')
    exact bounded_pushVariable hs (.create (createBounded?_ordered hs') name value)
  | setValue h value =>
    refine bounded_settle (InPlace.from_setValue h value) hs fun _ s' hs' => ?_
    obtain ⟨_, hset, hs'⟩ := map_eq_ok.mp hs'
    cases hs'
    rw [setValue?_eq_ok hset]
    exact forall_mem_modify hs h.index fun _ hv => .setValue hv value
  | addConstraint c =>
    refine bounded_settle (InPlace.from_addConstraint c) hs fun _ s' hs' => ?_
    obtain ⟨_, hadd, hs'⟩ := map_eq_ok.mp hs'
    cases hs'
    rw [(addConstraint?_eq_ok hadd).1]
    exact hs
  | addLinear kind handles coefficients constant strength =>
    refine bounded_settle (InPlace.from_addLinear kind handles coefficients constant strength) hs
      fun _ s' hs' => ?_
    obtain ⟨_, hlinear, hs'⟩ := map_eq_ok.mp hs'
    cases hs'
    obtain ⟨c, -, hadd⟩ := bind_eq_ok.mp hlinear
    rw [(addConstraint?_eq_ok hadd).1]
    exact hs
  | solve =>
    change Bounded s.solve.1.vars
    rw [solve_fst]
    exact hs.iterate_sweep _ _ _
  | solveExact =>
    refine bounded_settle (InPlace.from_solveExact backend) hs fun b s' hs' => ?_
    obtain ⟨⟨t, b'⟩, hexact, hs'⟩ := map_eq_ok.mp hs'
    cases hs'
    exact bounded_solveExact? hs hexact
  | reset =>
    refine List.forall_mem_map.mpr fun v hv => ?_
    exact ⟨(hs v hv).ordered, (hs v hv).initial, (hs v hv).initial⟩

/-- One action of a program. -/
theorem Pool.bounded_step {p : Pool α} (hp : ∀ s ∈ p.solvers, Bounded s.vars) (a : Action α) :
    ∀ s ∈ (p.step backend a).2.solvers, Bounded s.vars := by
  have hset : ∀ (i : Nat) (s' : Solver α), Bounded s'.vars →
      ∀ s ∈ p.solvers.set i s', Bounded s.vars := fun i s' hs' s hs =>
    (List.mem_or_eq_of_mem_set hs).elim (hp s) fun heq => heq ▸ hs'
  cases a with
  | create settings =>
    exact List.forall_mem_append.mpr ⟨hp, List.forall_mem_singleton.mpr (List.forall_mem_nil _)⟩
  | call i c =>
    cases hi : p.solvers[i]? with
    | none =>
      rw [step, hi]
      exact hp
    | some s =>
      rw [step_call hi]
      exact hset i _ (bounded_perform (hp s (List.mem_of_getElem? hi)) c)
  | clear i =>
    rw [step]
    split
    · exact hp
    · exact hset i _ (List.forall_mem_nil _)

theorem Pool.bounded_runAll (steps : List (Backend α × Action α)) :
    ∀ s ∈ (runAll steps).solvers, Bounded s.vars := by
  induction steps using List.reverseRecOn with
  | nil => exact List.forall_mem_nil _
  | append_singleton steps step ih =>
    rw [runAll, List.foldl_append]
    exact bounded_step ih step.2

end

/-- After any program, with backends that answer what they like, all variables of all solvers are
within their bounds, and they stay so at each moment of a further solve, of either kind. -/
theorem bounds_always_hold [Scalar.Ordered α] (steps : List (Backend α × Action α)) :
    ∀ s ∈ (Pool.runAll steps).solvers,
      Bounded s.vars ∧
        (∀ (n : Nat) (order : List (Constraint α)) (share : α) (moved : List (Handle × α)),
          Bounded (s.midway n order share moved)) ∧
        ∀ values : List α, Bounded (handOut Variable.setValue s.vars values) := by
  intro s hs
  have hbounded := Pool.bounded_runAll steps s hs
  exact ⟨hbounded, hbounded.midway, hbounded.handOut⟩

def overshot : List (Backend Float × Action Float) :=
  [(fun _ _ => .ok [], .create .standard),
    (fun _ _ => .ok [], .call 0 (.createBounded "width" 0.5 0.0 1.0)),
    (fun _ _ => .ok [Scalar.posInf], .call 0 .solveExact)]

theorem overshot_bounded :
    (∀ s ∈ (Pool.runAll overshot).solvers, Bounded s.vars) ∧
      (Pool.runAll overshot).solvers.map (·.snapshot) = [[1.0]] :=
  ⟨fun s hs => (bounds_always_hold overshot s hs).1, by decide +kernel⟩

end Scene.Solver
