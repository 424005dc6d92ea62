import Mathlib.Tactic.Common

/-! Chains of steps that can fail: what a success says about each step. -/
namespace Scene
variable {ε β β' γ γ' δ : Type}

theorem ok_bind (b : β) (f : β → Except ε γ) : (Except.ok b >>= f) = f b := rfl

theorem bind_eq_ok {x : Except ε β} {f : β → Except ε γ} {c : γ} :
    (x >>= f) = .ok c ↔ ∃ b, x = .ok b ∧ f b = .ok c := by
  cases x <;> simp [bind, Except.bind]

theorem map_eq_ok {x : Except ε β} {f : β → γ} {c : γ} :
    x.map f = .ok c ↔ ∃ b, x = .ok b ∧ f b = c := by
  cases x <;> simp [Except.map]

/-- Steps on a state, where there may be no result at all. -/
theorem bind_stateT_run {σ : Type} (x : ExceptT ε (StateT σ Option) β)
    (f : β → ExceptT ε (StateT σ Option) γ) (s : σ) :
    (x >>= f) s =
      match x s with
      | none => none
      | some (.ok b, s') => f b s'
      | some (.error e, s') => some (.error e, s') := by
  change Option.bind (x s) _ = _
  cases x s with
  | none => rfl
  | some r =>
    obtain ⟨r, s'⟩ := r
    cases r <;> rfl

/-- A change of the result that every further step lets through. -/
theorem map_bind {x : Except ε β} {f : β → β'} {g : β → Except ε γ} {g' : β' → Except ε γ'}
    {h : γ → γ'} (hg : ∀ b, g' (f b) = (g b).map h) : (x.map f >>= g') = (x >>= g).map h := by
  cases x with
  | error e => rfl
  | ok b => exact hg b

/-- Checks in a row succeed where each of them does. -/
theorem forM_eq_ok {g : γ → Except ε Unit} {l : List γ} {u : Unit} :
    l.forM g = .ok u ↔ ∀ c ∈ l, g c = .ok () := by
  induction l with
  | nil => simp [pure, Except.pure]
  | cons c l ih =>
    have hcons : (c :: l).forM g = g c >>= fun _ => l.forM g := rfl
    rw [hcons, bind_eq_ok, List.forall_mem_cons, ← ih]
    exact ⟨fun ⟨_, hc, hl⟩ => ⟨hc, hl⟩, fun ⟨hc, hl⟩ => ⟨_, hc, hl⟩⟩

/-- Checks in a row of what was changed one by one, where each lets the change through. -/
theorem forM_map_congr {f : β → γ} {g : β → Except ε Unit} {g' : γ → Except ε Unit}
    (h : ∀ b, g' (f b) = g b) (l : List β) : (l.map f).forM g' = l.forM g := by
  induction l with
  | nil => rfl
  | cons b l ih =>
    change (g' (f b) >>= fun _ => (l.map f).forM g') = (g b >>= fun _ => l.forM g)
    rw [h, ih]

/-- Of checks that stand in order, the first that fails decides. -/
theorem forM_eq_error {g : γ → Except ε Unit} {before : γ → γ → Prop} {l : List γ}
    (hl : l.Pairwise before) (hasymm : ∀ {a b}, before a b → ¬before b a) {e : ε} :
    l.forM g = .error e ↔
      ∃ c ∈ l, g c = .error e ∧ ∀ b ∈ l, before b c → g b = .ok () := by
  induction l with
  | nil => simp [pure, Except.pure]
  | cons c l ih =>
    obtain ⟨hfirst, hrest⟩ := List.pairwise_cons.mp hl
    have hcons : (c :: l).forM g = g c >>= fun _ => l.forM g := rfl
    rw [hcons]
    cases hc : g c with
    | error e' =>
      constructor
      · rintro h
        cases h
        refine ⟨c, List.mem_cons_self, hc, List.forall_mem_cons.mpr ⟨fun h => ?_, fun b hb h => ?_⟩⟩
        · exact absurd h (hasymm h)
        · exact absurd h (hasymm (hfirst b hb))
      · rintro ⟨b, hb, he, hbefore⟩
        rcases List.mem_cons.mp hb with rfl | hb
        · rw [← he, hc]
          rfl
        · rw [hbefore c List.mem_cons_self (hfirst b hb)] at hc
          cases hc
    | ok _ =>
      rw [ok_bind, ih hrest]
      constructor
      · rintro ⟨b, hb, he, hbefore⟩
        exact ⟨b, List.mem_cons_of_mem c hb, he, List.forall_mem_cons.mpr ⟨fun _ => hc, hbefore⟩⟩
      · rintro ⟨b, hb, he, hbefore⟩
        rcases List.mem_cons.mp hb with rfl | hb
        · rw [hc] at he
          cases he
        · exact ⟨b, hb, he, fun a ha => hbefore a (List.mem_cons_of_mem c ha)⟩

/-- What every step keeps, a chain of steps keeps. -/
theorem foldlM_keeps {step : β → γ → Except ε β} (P : β → Prop)
    (hstep : ∀ b c b', P b → step b c = .ok b' → P b') (l : List γ) {b b' : β} (hb : P b)
    (h : l.foldlM step b = .ok b') : P b' := by
  induction l generalizing b with
  | nil =>
    obtain rfl : b = b' := by simpa [pure, Except.pure] using h
    exact hb
  | cons c l ih =>
    rw [List.foldlM_cons, bind_eq_ok] at h
    obtain ⟨m, hm, hl⟩ := h
    exact ih (hstep b c m hb hm) hl

/-- What is known of each stage from the steps before it. -/
theorem foldlM_tracks {step : β → γ → Except ε β} (P : List γ → β → Prop)
    (hstep : ∀ before b c b', P before b → step b c = .ok b' → P (before ++ [c]) b') (l : List γ)
    {before : List γ} {b b' : β} (hb : P before b) (h : l.foldlM step b = .ok b') :
    P (before ++ l) b' := by
  induction l generalizing before b with
  | nil =>
    obtain rfl : b = b' := by simpa [pure, Except.pure] using h
    rwa [List.append_nil]
  | cons c l ih =>
    rw [List.foldlM_cons, bind_eq_ok] at h
    obtain ⟨m, hm, hl⟩ := h
    have hrest := ih (hstep before b c m hb hm) hl
    rwa [List.append_assoc] at hrest

/-- A change that every step lets through, a chain of steps lets through. -/
theorem foldlM_map {step step' : β → γ → Except ε β} (f : β → β)
    (hstep : ∀ b c, step' (f b) c = (step b c).map f) (l : List γ) (b : β) :
    l.foldlM step' (f b) = (l.foldlM step b).map f := by
  induction l generalizing b with
  | nil => rfl
  | cons c l ih =>
    rw [List.foldlM_cons, List.foldlM_cons, hstep]
    cases step b c with
    | error e => rfl
    | ok m => exact ih m

end Scene
