import Scene.Proofs.Scalar.Infinities
import Scene.Proofs.Solver.Locality
import Scene.Proofs.Solver.Spreading

/-! How a value that is not a number comes into a solver. A step calculates with values that may be
infinite, and a variable is torn where it is at one infinity and is to move by the other. Nothing
else in a solve makes anything but numbers of numbers. -/
namespace Scene.Solver
open Scalar (IsInf IsDivisor)
variable {α : Type} [Scalar α]

def Numbers (vars : List (Variable α)) : Prop := ∀ v ∈ vars, Scalar.isNaN v.value = false

instance (vars : List (Variable α)) : Decidable (Numbers vars) :=
  inferInstanceAs (Decidable (∀ v ∈ vars, Scalar.isNaN v.value = false))

structure Variable.Framed (v : Variable α) : Prop where
  min : Scalar.isNaN v.min = false
  max : Scalar.isNaN v.max = false
  initial : Scalar.isNaN v.initial = false

/-- The variable of a term is at one infinity and is to move by the other. -/
def TornAt (share : α) (vars : List (Variable α)) (t : Handle × α) : Prop :=
  ∃ v, vars[t.1.index]? = some v ∧ ∃ up, IsInf up v.value ∧ IsInf (!up) (share / t.2)

/-- Some term tears its variable, after those before it have moved theirs. -/
def TornAlong (share : α) (vars : List (Variable α)) (terms : List (Handle × α)) : Prop :=
  ∃ before t after, terms = before ++ t :: after ∧
    TornAt share (before.foldl (moveTerm share) vars) t

/-- A step for the constraint tears a variable. -/
def Torn (vars : List (Variable α)) (c : Constraint α) : Prop :=
  c.kind.isShared = true ∧ TornAlong (share vars c) vars (movable vars c)

structure Constraint.Sound (c : Constraint α) : Prop where
  finite : c.IsFinite
  length : c.terms.length < Scalar.countLimit

variable {s : Solver α} {vars vars' : List (Variable α)} {v : Variable α} {c : Constraint α}
  {t : Handle × α} {terms : List (Handle × α)} {left : List (Constraint α)} {x d : α}

theorem numbers_iff :
    Numbers vars ↔
      ∀ (i : Nat) (v : Variable α), vars[i]? = some v → Scalar.isNaN v.value = false := by
  simp only [Numbers, List.mem_iff_getElem?, forall_exists_index]
  exact forall_comm

theorem getElem?_moveTerm (x : α) (vars : List (Variable α)) (t : Handle × α) (i : Nat) :
    (moveTerm x vars t)[i]? =
      vars[i]?.map fun v => if t.1.index = i then v.setValue (v.value + x / t.2) else v := by
  rw [moveTerm, List.getElem?_modify]
  rfl

theorem not_tornAlong_nil : ¬ TornAlong x vars [] := by
  rintro ⟨before, t, after, heq, -⟩
  simp at heq

/-- The first term that tears its variable is the first one, or one of those behind it. -/
theorem tornAlong_cons :
    TornAlong x vars (t :: terms) ↔ TornAt x vars t ∨ TornAlong x (moveTerm x vars t) terms := by
  constructor
  · rintro ⟨before, u, after, heq, htorn⟩
    cases before with
    | nil =>
      cases heq
      exact .inl htorn
    | cons t' before =>
      cases heq
      exact .inr ⟨before, u, after, rfl, htorn⟩
  · rintro (htorn | ⟨before, u, after, rfl, htorn⟩)
    · exact ⟨[], t, terms, rfl, htorn⟩
    · exact ⟨t :: before, u, after, rfl, htorn⟩

theorem forall_framed_of_same (hsame : SameButValues vars' vars) (h : ∀ v ∈ vars, v.Framed) :
    ∀ v ∈ vars', v.Framed := by
  intro v hv
  have hpart : v.fixedPart ∈ vars.map Variable.fixedPart := hsame ▸ List.mem_map_of_mem hv
  obtain ⟨w, hw, heq⟩ := List.mem_map.mp hpart
  simp only [Variable.fixedPart, Prod.mk.injEq] at heq
  obtain ⟨-, hmin, hmax, hinitial⟩ := heq
  exact ⟨hmin ▸ (h w hw).min, hmax ▸ (h w hw).max, hinitial ▸ (h w hw).initial⟩

theorem forall_framed_moveTerm (h : ∀ v ∈ vars, v.Framed) (x : α) (t : Handle × α) :
    ∀ v ∈ moveTerm x vars t, v.Framed :=
  forall_framed_of_same (foldl_moveTerm_sameButValues x [t] vars) h

/-- A number that is written to a variable leaves numbers. -/
theorem numbers_modify (hframed : ∀ v ∈ vars, v.Framed) (hnumbers : Numbers vars)
    (hx : Scalar.isNaN x = false) (i : Nat) : Numbers (vars.modify i (·.setValue x)) := by
  have hboth := forall_mem_modify (P := fun v => v.Framed ∧ Scalar.isNaN v.value = false)
    (fun v hv => ⟨hframed v hv, hnumbers v hv⟩) i (f := (·.setValue x)) fun v hv =>
      ⟨⟨hv.1.min, hv.1.max, hv.1.initial⟩, Scalar.isNaN_clamp hv.1.min hv.1.max hx⟩
  exact fun v hv => (hboth v hv).2

theorem Constraint.Sound.isDivisor (hc : c.Sound) (ht : t ∈ movable vars c) : IsDivisor t.2 := by
  obtain ⟨hterm, hmovable⟩ := List.mem_filter.mp ht
  rw [isMovable, Bool.and_eq_true, Bool.not_eq_true'] at hmovable
  exact ⟨hc.finite.coefficients t hterm, hmovable.1⟩

/-- The variables after some passes and some visits of the next one, which has still to make the
visits `left`. -/
def Moment (s : Solver α) (vars : List (Variable α)) (left : List (Constraint α)) : Prop :=
  ∃ n < s.settings.maxIterations, ∃ made, visitOrder s.constraints = made ++ left ∧
    vars = sweep s.settings.epsilon made
      ((sweep s.settings.epsilon (visitOrder s.constraints))^[n] s.vars)

/-- Solving comes to a violated constraint that tears a variable. -/
def Tears (s : Solver α) : Prop :=
  ∃ vars c left, s.Moment vars (c :: left) ∧
    c.isSatisfied (reading vars) s.settings.epsilon = false ∧ Torn vars c

/-- Made by calls that check what they are given. -/
structure Sound (s : Solver α) : Prop where
  framed : ∀ v ∈ s.vars, v.Framed
  constraints : ∀ c ∈ s.constraints, c.Sound

theorem Sound.of_moment (hs : s.Sound) (h : s.Moment vars left) :
    (∀ v ∈ vars, v.Framed) ∧ ∀ c ∈ left, c.Sound := by
  obtain ⟨n, -, made, horder, rfl⟩ := h
  refine ⟨forall_framed_of_same ?_ hs.framed, fun c hc => hs.constraints c ?_⟩
  · exact (sweep_sameButValues _ _ _).trans (iterate_sweep_sameButValues _ _ _ n)
  · refine (List.mergeSort_perm s.constraints visitsFirst).mem_iff.mp ?_
    rw [← visitOrder, horder]
    exact List.mem_append_right made hc

/-- The next visit. -/
theorem Moment.visit (h : s.Moment vars (c :: left)) :
    s.Moment (adjust s.settings.epsilon vars c) left := by
  obtain ⟨n, hn, made, horder, rfl⟩ := h
  refine ⟨n, hn, made ++ [c], by rw [horder, List.append_assoc, List.singleton_append], ?_⟩
  rw [sweep, sweep, List.foldl_append, List.foldl_cons, List.foldl_nil]

variable [Scalar.Infinities α]

theorem Variable.Framed.isNaN_clamp (hv : v.Framed) (x : α) :
    Scalar.isNaN (v.clamp x) = Scalar.isNaN x :=
  Scalar.isNaN_clamp_eq hv.min hv.max x

/-- One variable moves, and is torn or stays a number. -/
theorem numbers_moveTerm_iff (hframed : ∀ v ∈ vars, v.Framed) (hnumbers : Numbers vars)
    (ht : Scalar.isNaN (x / t.2) = false) :
    Numbers (moveTerm x vars t) ↔ ¬ TornAt x vars t := by
  have hmoved (v : Variable α) (hv : vars[t.1.index]? = some v) :
      Scalar.isNaN (v.setValue (v.value + x / t.2)).value = true ↔
        ∃ up, IsInf up v.value ∧ IsInf (!up) (x / t.2) := by
    rw [← Scalar.Infinities.isNaN_add_iff (numbers_iff.mp hnumbers _ v hv) ht]
    exact iff_of_eq (congrArg (· = true) ((hframed v (List.mem_of_getElem? hv)).isNaN_clamp _))
  rw [numbers_iff]
  constructor
  · rintro hall ⟨v, hv, htorn⟩
    have hnumber := hall t.1.index (v.setValue (v.value + x / t.2)) (by
      rw [getElem?_moveTerm, hv, Option.map_some, if_pos rfl])
    rw [(hmoved v hv).mpr htorn] at hnumber
    cases hnumber
  · intro hno i w hw
    rw [getElem?_moveTerm, Option.map_eq_some_iff] at hw
    obtain ⟨v, hv, rfl⟩ := hw
    split
    · next hi =>
      subst hi
      rw [← Bool.not_eq_true, hmoved v hv]
      exact fun htorn => hno ⟨v, hv, htorn⟩
    · exact numbers_iff.mp hnumbers i v hv

/-- What is not a number stays none while others move. -/
theorem numbers_of_moveTerm (hframed : ∀ v ∈ vars, v.Framed) (h : Numbers (moveTerm x vars t)) :
    Numbers vars := by
  rw [numbers_iff] at h ⊢
  intro i v hv
  have hnumber := h i _ (by rw [getElem?_moveTerm, hv, Option.map_some])
  split at hnumber
  · change Scalar.isNaN (v.clamp _) = false at hnumber
    rw [(hframed v (List.mem_of_getElem? hv)).isNaN_clamp] at hnumber
    exact (Scalar.Contagious.isNaN_add hnumber).1
  · exact hnumber

theorem numbers_of_foldl (hframed : ∀ v ∈ vars, v.Framed)
    (h : Numbers (terms.foldl (moveTerm x) vars)) : Numbers vars := by
  induction terms generalizing vars with
  | nil => exact h
  | cons t terms ih =>
    exact numbers_of_moveTerm hframed (ih (forall_framed_moveTerm hframed x t) h)

theorem numbers_foldl_iff (hframed : ∀ v ∈ vars, v.Framed) (hnumbers : Numbers vars)
    (hterms : ∀ t ∈ terms, Scalar.isNaN (x / t.2) = false) :
    Numbers (terms.foldl (moveTerm x) vars) ↔ ¬ TornAlong x vars terms := by
  induction terms generalizing vars with
  | nil => exact iff_of_true hnumbers not_tornAlong_nil
  | cons t terms ih =>
    obtain ⟨ht, hterms⟩ := List.forall_mem_cons.mp hterms
    have hframed' := forall_framed_moveTerm hframed x t
    have hfirst := numbers_moveTerm_iff hframed hnumbers ht
    rw [tornAlong_cons, not_or, List.foldl_cons]
    constructor
    · intro h
      have hnumbers' := numbers_of_foldl hframed' h
      exact ⟨hfirst.mp hnumbers', (ih hframed' hnumbers' hterms).mp h⟩
    · rintro ⟨htorn, hrest⟩
      exact (ih hframed' (hfirst.mpr htorn) hterms).mpr hrest

/-! One step. -/

/-- Nothing moves by what compares with nothing. -/
theorem isNaN_of_canMove (h : v.canMove d = true) : Scalar.isNaN d = false := by
  rw [Variable.canMove] at h
  split at h
  · next hpos => exact (Scalar.Ordered.isNaN_of_le (Scalar.Ordered.le_of_lt hpos)).2
  · split at h
    · next hneg => exact (Scalar.Ordered.isNaN_of_le (Scalar.Ordered.le_of_lt hneg)).1
    · cases h

/-- Where a term moves, the sum of its constraint is a number. -/
theorem Constraint.Sound.isNaN_difference (hc : c.Sound) (ht : t ∈ movable vars c) :
    Scalar.isNaN (c.constant - c.evaluate (reading vars)) = false := by
  have hdivisor := hc.isDivisor ht
  obtain ⟨-, hmovable⟩ := List.mem_filter.mp ht
  rw [isMovable, Bool.and_eq_true] at hmovable
  rw [← Scalar.Infinities.isNaN_div hdivisor]
  cases hv : vars[t.1.index]? with
  | none =>
    rw [hv] at hmovable
    cases hmovable.2
  | some v =>
    rw [hv] at hmovable
    exact isNaN_of_canMove hmovable.2

/-- So many terms can be counted. -/
theorem Constraint.Sound.isDivisor_length (hc : c.Sound) (ht : t ∈ movable vars c) :
    IsDivisor (Scalar.ofNat (movable vars c).length : α) ∧
      (Scalar.zero : α) < Scalar.ofNat (movable vars c).length :=
  Scalar.Infinities.isDivisor_ofNat (List.length_pos_of_mem ht)
    ((List.length_filter_le _ _).trans_lt hc.length)

theorem Constraint.Sound.isNaN_share (hc : c.Sound) (ht : t ∈ movable vars c) :
    Scalar.isNaN (share vars c / t.2) = false := by
  rw [Scalar.Infinities.isNaN_div (hc.isDivisor ht), share,
    Scalar.Infinities.isNaN_div (hc.isDivisor_length ht).1]
  exact hc.isNaN_difference ht

theorem numbers_pin (hc : c.Sound) (hframed : ∀ v ∈ vars, v.Framed) (hnumbers : Numbers vars) :
    Numbers (pin vars c) := by
  rw [pin]
  split
  · exact hnumbers
  · next h k rest hterms =>
    split
    · exact hnumbers
    · next hk =>
      have hdivisor : IsDivisor k :=
        ⟨hc.finite.coefficients (h, k) (by simp [hterms]), Bool.not_eq_true _ ▸ hk⟩
      refine numbers_modify hframed hnumbers ?_ h.index
      rw [Scalar.Infinities.isNaN_div hdivisor]
      exact Scalar.Infinities.isNaN_of_isFinite hc.finite.constant

/-- A step leaves numbers, unless it tears a variable. -/
theorem numbers_relax_iff (hc : c.Sound) (hframed : ∀ v ∈ vars, v.Framed)
    (hnumbers : Numbers vars) : Numbers (relax vars c) ↔ ¬ Torn vars c := by
  cases hshared : c.kind.isShared with
  | true =>
    rw [relax_of_isShared vars hshared, spread_eq_foldl, Torn, and_iff_right hshared]
    exact numbers_foldl_iff hframed hnumbers fun t ht => hc.isNaN_share ht
  | false =>
    refine iff_of_true ?_ fun htorn => Bool.false_ne_true (hshared.symm.trans htorn.1)
    unfold relax
    cases hkind : c.kind <;> rw [hkind] at hshared
    case fixed => exact numbers_pin hc hframed hnumbers
    case minimize | maximize => exact hnumbers
    all_goals cases hshared

/-! A whole solve. -/

section
variable (hs : s.Sound)
include hs

theorem Sound.numbers_visit (hmoment : s.Moment vars (c :: left))
    (hnumbers : Numbers vars) (hsafe : ¬ s.Tears) :
    Numbers (adjust s.settings.epsilon vars c) := by
  obtain ⟨hframed, hsound⟩ := hs.of_moment hmoment
  rw [adjust]
  split
  · exact hnumbers
  · next hviolated =>
    refine (numbers_relax_iff (hsound c List.mem_cons_self) hframed hnumbers).mpr fun htorn => ?_
    exact hsafe ⟨vars, c, left, hmoment, Bool.eq_false_iff.mpr hviolated, htorn⟩

/-- The visits of a pass, one after the other. -/
theorem Sound.numbers_visits (hsafe : ¬ s.Tears) {n : Nat} (hn : n < s.settings.maxIterations)
    (hstart : Numbers ((sweep s.settings.epsilon (visitOrder s.constraints))^[n] s.vars))
    {made : List (Constraint α)} (horder : visitOrder s.constraints = made ++ left) :
    Numbers (sweep s.settings.epsilon made
      ((sweep s.settings.epsilon (visitOrder s.constraints))^[n] s.vars)) := by
  induction made using List.reverseRecOn generalizing left with
  | nil => exact hstart
  | append_singleton made c ih =>
    rw [List.append_assoc, List.singleton_append] at horder
    rw [sweep, List.foldl_append]
    exact hs.numbers_visit ⟨n, hn, made, horder, rfl⟩ (ih horder) hsafe

theorem Sound.numbers_passes (hnumbers : Numbers s.vars) (hsafe : ¬ s.Tears) {n : Nat}
    (hn : n ≤ s.settings.maxIterations) :
    Numbers ((sweep s.settings.epsilon (visitOrder s.constraints))^[n] s.vars) := by
  induction n with
  | zero => exact hnumbers
  | succ n ih =>
    rw [Function.iterate_succ_apply']
    exact hs.numbers_visits hsafe hn (ih (Nat.le_of_succ_le hn)) (List.append_nil _).symm

/-- Solving makes nothing but numbers of numbers, exactly if it tears no variable. -/
theorem Sound.numbers_moment_iff (hnumbers : Numbers s.vars) :
    (∀ vars left, s.Moment vars left → Numbers vars) ↔ ¬ s.Tears := by
  constructor
  · rintro hall ⟨vars, c, left, hmoment, hviolated, htorn⟩
    obtain ⟨hframed, hsound⟩ := hs.of_moment hmoment
    have hnext := hall _ left hmoment.visit
    rw [adjust, if_neg (Bool.eq_false_iff.mp hviolated)] at hnext
    exact (numbers_relax_iff (hsound c List.mem_cons_self) hframed (hall vars _ hmoment)).mp hnext
      htorn
  · rintro hsafe vars left ⟨n, hn, made, horder, rfl⟩
    exact hs.numbers_visits hsafe hn (hs.numbers_passes hnumbers hsafe hn.le) horder

end

/-! Terms over different variables. -/

/-- An infinity is all that a sum of numbers can be if it has that infinity in it. -/
theorem isInf_foldl_add {up : Bool} (f : Handle × α → α) {start : α} (ht : t ∈ terms)
    (hinf : IsInf up (f t))
    (hsum : Scalar.isNaN (terms.foldl (fun sum t => sum + f t) start) = false) :
    IsInf up (terms.foldl (fun sum t => sum + f t) start) := by
  have hstays {rest : List (Handle × α)} {start : α} (hstart : IsInf up start)
      (hsum : Scalar.isNaN (rest.foldl (fun sum t => sum + f t) start) = false) :
      IsInf up (rest.foldl (fun sum t => sum + f t) start) := by
    induction rest generalizing start with
    | nil => exact hstart
    | cons u rest ih =>
      rw [List.foldl_cons] at hsum ⊢
      exact ih (Scalar.Infinities.isInf_add_left hstart (Scalar.isNaN_of_foldl_add f hsum).1) hsum
  obtain ⟨before, after, rfl⟩ := List.append_of_mem ht
  rw [List.foldl_append, List.foldl_cons] at hsum ⊢
  exact hstays (Scalar.Infinities.isInf_add_right hinf (Scalar.isNaN_of_foldl_add f hsum).1) hsum

/-- A variable at an infinity that is to move is to move by the other one. -/
theorem Constraint.Sound.isInf_share (hc : c.Sound) (ht : t ∈ movable vars c) {up : Bool}
    (hv : vars[t.1.index]? = some v) (hinf : IsInf up v.value) :
    IsInf (!up) (share vars c / t.2) := by
  have hdivisor := hc.isDivisor ht
  have hdifference := hc.isNaN_difference ht
  have hterm : IsInf (Scalar.turned t.2 up) (t.2 * reading vars t.1) := by
    have hreading : reading vars t.1 = v.value := by rw [reading, hv]
    rw [hreading]
    exact Scalar.Infinities.isInf_mul hdivisor hinf
  have hsum : IsInf (Scalar.turned t.2 up) (c.evaluate (reading vars)) :=
    isInf_foldl_add (fun t => t.2 * reading vars t.1) (List.mem_of_mem_filter ht) hterm
      (Scalar.Contagious.isNaN_sub hdifference).2
  obtain ⟨hcount, hpositive⟩ := hc.isDivisor_length ht
  have hshare := Scalar.Infinities.isInf_div hcount
    (Scalar.Infinities.isInf_sub hc.finite.constant hsum)
  have hsame (b : Bool) :
      Scalar.turned (Scalar.ofNat (movable vars c).length : α) b = b := by
    rw [Scalar.turned, decide_eq_true hpositive, beq_true]
  rw [hsame] at hshare
  have hback := Scalar.Infinities.isInf_div hdivisor hshare
  rwa [Scalar.turned_not, Scalar.turned_turned] at hback

/-- A step for a constraint over different variables tears one where one that is to move is
infinite. -/
theorem Constraint.Sound.torn_iff (hc : c.Sound) (hshared : c.kind.isShared = true)
    (hdistinct : (c.terms.map (·.1.index)).Nodup) :
    Torn vars c ↔
      ∃ t ∈ movable vars c, ∃ v, vars[t.1.index]? = some v ∧ ∃ up, IsInf up v.value := by
  -- the variable of a term is where it was when the terms before have moved
  have hbefore {before after : List (Handle × α)} {t : Handle × α}
      (hterms : movable vars c = before ++ t :: after) :
      (before.foldl (moveTerm (share vars c)) vars)[t.1.index]? = vars[t.1.index]? := by
    have hnodup : ((movable vars c).map (·.1.index)).Nodup :=
      hdistinct.sublist (List.filter_sublist.map _)
    rw [hterms, List.map_append, List.map_cons] at hnodup
    exact foldl_moveTerm_frame _ before vars _ fun u hu =>
      (List.nodup_append.mp hnodup).2.2 _ (List.mem_map_of_mem hu) _ List.mem_cons_self
  rw [Torn, and_iff_right hshared]
  constructor
  · rintro ⟨before, t, after, hterms, v, hv, up, hinf, -⟩
    rw [hbefore hterms] at hv
    exact ⟨t, hterms ▸ List.mem_append_right before List.mem_cons_self, v, hv, up, hinf⟩
  · rintro ⟨t, ht, v, hv, up, hinf⟩
    obtain ⟨before, after, hterms⟩ := List.append_of_mem ht
    refine ⟨before, t, after, hterms, v, ?_, up, hinf, hc.isInf_share ht hv hinf⟩
    rw [hbefore hterms, hv]


end Scene.Solver
