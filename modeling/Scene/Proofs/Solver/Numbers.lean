import Scene.Proofs.Layout.Completeness
import Scene.Proofs.Solver.Tearing

/-! Calls that start variables with numbers and constrain them with what was accepted. All values
are numbers up to a solve that tears a variable, and there they are not. -/
namespace Scene.Solver
variable {α : Type} [Scalar α]

/-- It was accepted, with as many terms as lists can have. -/
def Constraint.Accepted (c : Constraint α) : Prop :=
  ∃ kind handles coefficients constant strength,
    make? kind handles coefficients constant strength = .ok c ∧ handles.length < Scalar.countLimit

/-- A call that starts variables with numbers and uses accepted constraints. It does not ask an
exact backend, which could answer with anything. -/
def Call.Careful : Call α → Prop
  | .createVariable _ value => Scalar.isNaN value = false
  | .addConstraint c => c.Accepted
  | .addLinear _ handles .. => handles.length < Scalar.countLimit
  | .createBounded .. | .setValue .. | .solve | .reset => True
  | .solveExact => False

def afterCalls (backend : Backend α) (number : Nat) (settings : Settings.Solving α)
    (calls : List (Call α)) : Solver α :=
  calls.foldl (fun s call => ((call.perform backend).from s).2) (create number settings)

/-- The variables at some time of a run, between two calls or in the middle of a solve. -/
def Shown (backend : Backend α) (number : Nat) (settings : Settings.Solving α)
    (calls : List (Call α)) (vars : List (Variable α)) : Prop :=
  ∃ before after, calls = before ++ after ∧
    (vars = (afterCalls backend number settings before).vars ∨
      ∃ rest left, after = .solve :: rest ∧
        (afterCalls backend number settings before).Moment vars left)

structure Succeeds (s s' : Solver α) : Prop where
  sound : s'.Sound
  numbers : Numbers s.vars → Numbers s'.vars

variable {backend : Backend α} {number : Nat} {settings : Settings.Solving α} {s s' : Solver α}
  {vars : List (Variable α)} {v : Variable α} {c : Constraint α} {call : Call α}
  {calls : List (Call α)} {min max value : α}

theorem afterCalls_concat (before : List (Call α)) (call : Call α) :
    afterCalls backend number settings (before ++ [call]) =
      ((call.perform backend).from (afterCalls backend number settings before)).2 := by
  rw [afterCalls, afterCalls, List.foldl_append, List.foldl_cons, List.foldl_nil]

theorem Constraint.Accepted.sound (h : c.Accepted) : c.Sound := by
  obtain ⟨kind, handles, coefficients, constant, strength, hmake, hlength⟩ := h
  refine ⟨isFinite_of_make? hmake, ?_⟩
  rw [make?_eq_ok hmake, List.length_zip]
  exact (min_le_left _ _).trans_lt hlength

theorem succeeds_create [Scalar.Ordered α] (hs : s.Sound) (hle : min ≤ max)
    (hvalue : Scalar.isNaN value = false) (name : String) :
    Succeeds s (s.pushVariable (.create name value min max)).2 := by
  obtain ⟨hmin, hmax⟩ := Scalar.Ordered.isNaN_of_le hle
  have hstart : Scalar.isNaN (Scalar.clamp min max value) = false :=
    Scalar.isNaN_clamp hmin hmax hvalue
  refine ⟨⟨List.forall_mem_append.mpr ⟨hs.framed, List.forall_mem_singleton.mpr ?_⟩,
    hs.constraints⟩, fun h => List.forall_mem_append.mpr ⟨h, List.forall_mem_singleton.mpr ?_⟩⟩
  · exact ⟨hmin, hmax, hstart⟩
  · exact hstart

theorem succeeds_addConstraint? (hs : s.Sound) (hc : c.Sound) (h : s.addConstraint? c = .ok s') :
    Succeeds s s' := by
  rw [(addConstraint?_eq_ok h).1]
  exact ⟨⟨hs.framed, List.forall_mem_append.mpr ⟨hs.constraints, List.forall_mem_singleton.mpr hc⟩⟩,
    id⟩

/-- Any call but a solve. -/
theorem succeeds_perform [Scalar.Ordered α] (hs : s.Sound) (hcareful : call.Careful)
    (hsolve : call ≠ .solve) : Succeeds s ((call.perform backend).from s).2 := by
  have hsame : Succeeds s s := ⟨hs, id⟩
  cases call with
  | createVariable name value =>
    exact succeeds_create hs Scalar.Ordered.negInf_le_posInf hcareful name
  | createBounded name value min max =>
    refine settle_keeps (InPlace.from_createBounded name value min max) hsame fun h s' hs' => ?_
    obtain ⟨-, rfl⟩ := Prod.mk.inj (createBounded?_eq_ok hs')
    exact succeeds_create hs (createBounded?_ordered hs') (isNaN_of_createBounded? hs') name
  | setValue h value =>
    refine settle_keeps (InPlace.from_setValue h value) hsame fun _ s' hs' => ?_
    obtain ⟨_, hset, hs'⟩ := map_eq_ok.mp hs'
    cases hs'
    rw [setValue?_eq_ok hset]
    have hframed : ∀ v ∈ s.vars.modify h.index (·.setValue value), v.Framed :=
      forall_framed_of_same (.modify _ _ _ fun v => fixedPart_setValue v value) hs.framed
    exact ⟨⟨hframed, hs.constraints⟩,
      fun hnumbers => numbers_modify hs.framed hnumbers (isNaN_of_setValue? hset) h.index⟩
  | addConstraint c =>
    refine settle_keeps (InPlace.from_addConstraint c) hsame fun _ s' hs' => ?_
    obtain ⟨_, hadd, hs'⟩ := map_eq_ok.mp hs'
    cases hs'
    exact succeeds_addConstraint? hs hcareful.sound hadd
  | addLinear kind handles coefficients constant strength =>
    refine settle_keeps (InPlace.from_addLinear kind handles coefficients constant strength) hsame
      fun _ s' hs' => ?_
    obtain ⟨_, hlinear, hs'⟩ := map_eq_ok.mp hs'
    cases hs'
    obtain ⟨c, hmake, hadd⟩ := bind_eq_ok.mp hlinear
    have haccepted : c.Accepted :=
      ⟨kind, handles, coefficients, constant, strength, hmake, hcareful⟩
    exact succeeds_addConstraint? hs haccepted.sound hadd
  | solve => cases hsolve rfl
  | solveExact => cases hcareful
  | reset =>
    have hframed : ∀ v ∈ s.vars.map Variable.reset, v.Framed :=
      List.forall_mem_map.mpr fun v hv => ⟨(hs.framed v hv).min, (hs.framed v hv).max,
        (hs.framed v hv).initial⟩
    exact ⟨⟨hframed, hs.constraints⟩,
      fun _ => List.forall_mem_map.mpr fun v hv => (hs.framed v hv).initial⟩

/-- Solving changes nothing that calls have checked. -/
theorem sound_solve (hs : s.Sound) : s.solve.1.Sound := by
  rw [solve_fst]
  exact ⟨forall_framed_of_same s.settled_sameButValues hs.framed, hs.constraints⟩

theorem sound_afterCalls [Scalar.Ordered α] (hcareful : ∀ call ∈ calls, call.Careful) :
    (afterCalls backend number settings calls).Sound := by
  induction calls using List.reverseRecOn with
  | nil => exact ⟨List.forall_mem_nil _, List.forall_mem_nil _⟩
  | append_singleton before call ih =>
    obtain ⟨hbefore, hcall⟩ := List.forall_mem_append.mp hcareful
    have hs := ih hbefore
    rw [afterCalls_concat]
    by_cases hsolve : call = .solve
    · subst hsolve
      exact sound_solve hs
    · exact (succeeds_perform hs (hcall call (List.mem_singleton_self call)) hsolve).sound

variable [Scalar.Infinities α]

theorem numbers_solve (hs : s.Sound) (hnumbers : Numbers s.vars) (hsafe : ¬ s.Tears) :
    Numbers s.solve.1.vars := by
  rw [solve_fst]
  exact hs.numbers_passes hnumbers hsafe le_rfl

/-- Between calls. -/
theorem numbers_afterCalls (hcareful : ∀ call ∈ calls, call.Careful)
    (hsafe : ∀ before after, calls = before ++ .solve :: after →
      ¬ (afterCalls backend number settings before).Tears) :
    Numbers (afterCalls backend number settings calls).vars := by
  induction calls using List.reverseRecOn with
  | nil => exact List.forall_mem_nil _
  | append_singleton before call ih =>
    obtain ⟨hbefore, hcall⟩ := List.forall_mem_append.mp hcareful
    have hs : (afterCalls backend number settings before).Sound := sound_afterCalls hbefore
    have hnumbers := ih hbefore fun before' after heq =>
      hsafe before' (after ++ [call]) (by rw [heq, List.append_assoc, List.cons_append])
    rw [afterCalls_concat]
    by_cases hsolve : call = .solve
    · subst hsolve
      exact numbers_solve hs hnumbers (hsafe before [] rfl)
    · have hcareful := hcall call (List.mem_singleton_self call)
      exact (succeeds_perform hs hcareful hsolve).numbers hnumbers

/-- With careful calls, all values are numbers at all times if and only if no solve comes to a
violated constraint that tears a variable. A constraint over different variables tears one if and
only if it is to move an infinite one. -/
theorem numbers_until_torn (backend : Backend α) (number : Nat) (settings : Settings.Solving α)
    (calls : List (Call α)) (hcareful : ∀ call ∈ calls, call.Careful) :
    ((∀ vars, Shown backend number settings calls vars → Numbers vars) ↔
      ∀ before after, calls = before ++ .solve :: after →
        ¬ (afterCalls backend number settings before).Tears) ∧
      ∀ c ∈ (afterCalls backend number settings calls).constraints, c.kind.isShared = true →
        (c.terms.map (·.1.index)).Nodup → ∀ vars, Torn vars c ↔
          ∃ t ∈ movable vars c, ∃ v, vars[t.1.index]? = some v ∧ ∃ up, Scalar.IsInf up v.value := by
  have huntil {before after : List (Call α)} (heq : calls = before ++ after) :
      ∀ call ∈ before, call.Careful := fun call h => hcareful call (heq ▸ List.mem_append_left _ h)
  refine ⟨⟨fun hall before after heq => ?_, fun hsafe vars hshown => ?_⟩,
    fun c hc hshared hdistinct vars => ?_⟩
  · have hnumbers := hall _ ⟨before, .solve :: after, heq, .inl rfl⟩
    refine ((sound_afterCalls (huntil heq)).numbers_moment_iff hnumbers).mp fun vars left h => ?_
    exact hall vars ⟨before, .solve :: after, heq, .inr ⟨after, left, rfl, h⟩⟩
  · obtain ⟨before, after, heq, hvars⟩ := hshown
    have hnumbers : Numbers (afterCalls backend number settings before).vars :=
      numbers_afterCalls (huntil heq) fun before' after' heq' =>
        hsafe before' (after' ++ after) (by rw [heq, heq', List.append_assoc, List.cons_append])
    obtain rfl | ⟨rest, left, rfl, hmoment⟩ := hvars
    · exact hnumbers
    · exact ((sound_afterCalls (huntil heq)).numbers_moment_iff hnumbers).mpr
        (hsafe before rest heq) vars left hmoment
  · exact ((sound_afterCalls hcareful).constraints c hc).torn_iff hshared hdistinct

def toOrigin (start coefficient : Float) : List (Call Float) :=
  [.createVariable "x" start, .addLinear .equal [⟨0, 0⟩] [coefficient] 0.0 1.0, .solve]

theorem toOrigin_careful {start : Float} (hstart : Scalar.isNaN start = false)
    (coefficient : Float) : ∀ call ∈ toOrigin start coefficient, call.Careful := by
  simp only [toOrigin, List.forall_mem_cons]
  exact ⟨hstart, show 1 < Scalar.countLimit by decide, trivial, List.forall_mem_nil _⟩

/-- The outcome shows that the solve tears the variable. -/
theorem infinity_torn : (∀ call ∈ toOrigin Scalar.posInf 1.0, call.Careful) ∧
    ∃ before after, toOrigin Scalar.posInf 1.0 = before ++ .solve :: after ∧
      (afterCalls (fun _ _ => .ok []) 0 .standard before).Tears := by
  have hcareful := toOrigin_careful (show Scalar.isNaN Scalar.posInf = false by decide +kernel) 1.0
  refine ⟨hcareful, ?_⟩
  by_contra hsafe
  have hnumbers := (numbers_until_torn (fun _ _ => .ok []) 0 .standard _ hcareful).1.mpr
    (fun before after heq htears => hsafe ⟨before, after, heq, htears⟩) _
    ⟨_, [], (List.append_nil _).symm, .inl rfl⟩
  revert hnumbers
  decide +kernel

/-- Where all that is given was accepted, a value can still come to be no number. It need not start
at infinity: the finite one goes there first, because ten times its value is beyond all doubles. -/
theorem infinity_minus_infinity :
    ((∀ call ∈ toOrigin Scalar.posInf 1.0, call.Careful) ∧
      ¬ Numbers (afterCalls (fun _ _ => .ok []) 0 .standard (toOrigin Scalar.posInf 1.0)).vars) ∧
    (∀ call ∈ toOrigin 1e308 10.0, call.Careful) ∧
      ¬ Numbers (afterCalls (fun _ _ => .ok []) 0 .standard (toOrigin 1e308 10.0)).vars :=
  ⟨⟨toOrigin_careful (by decide +kernel) 1.0, by decide +kernel⟩,
    toOrigin_careful (by decide +kernel) 10.0, by decide +kernel⟩

end Scene.Solver
