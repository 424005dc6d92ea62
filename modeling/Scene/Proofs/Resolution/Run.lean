import Scene.Proofs.Except
import Scene.Resolution

/-! Runs of the resolving monad. A run returns where it ends at all, with a result or with a failure;
sequences of runs that return do so too. What a run that succeeds leaves behind is tracked through
its parts. -/
namespace Scene.Resolve
variable {φ α β γ : Type}

theorem bind_run (x : Resolve φ α β) (f : β → Resolve φ α γ) (w : Workspace φ α) :
    (x >>= f) w =
      match x w with
      | none => none
      | some (.ok b, w') => f b w'
      | some (.error e, w') => some (.error e, w') := by
  rw [bind_stateT_run x f w]
  rcases x w with _ | ⟨_ | _, _⟩ <;> rfl

theorem bind_run_eq_ok {x : Resolve φ α β} {f : β → Resolve φ α γ} {w w'' : Workspace φ α} {c : γ} :
    (x >>= f) w = some (.ok c, w'') ↔
      ∃ b w', x w = some (.ok b, w') ∧ f b w' = some (.ok c, w'') := by
  rw [bind_run]
  rcases x w with _ | ⟨e | b, w'⟩ <;> simp [and_assoc]

theorem bind_run_eq_error {x : Resolve φ α β} {f : β → Resolve φ α γ} {w w'' : Workspace φ α}
    {e : ResolveError α} :
    (x >>= f) w = some (.error e, w'') ↔
      x w = some (.error e, w'') ∨
        ∃ b w', x w = some (.ok b, w') ∧ f b w' = some (.error e, w'') := by
  rw [bind_run]
  rcases x w with _ | ⟨e' | b, w'⟩ <;> simp [and_assoc]

theorem attempt_run {x : Resolve φ α β} {w w' : Workspace φ α} {r : Except (ResolveError α) β}
    (h : x w = some (r, w')) : attempt x w = some (.ok r, w') := by
  change Option.bind (x w) _ = _
  rw [h]
  rfl

theorem attempt_run_iff {x : Resolve φ α β} {w w' : Workspace φ α}
    {r : Except (ResolveError α) β} :
    attempt x w = some (.ok r, w') ↔ x w = some (r, w') := by
  refine ⟨fun h => ?_, attempt_run⟩
  change Option.bind (x w) _ = _ at h
  obtain ⟨⟨r', u⟩, hxw, h⟩ := Option.bind_eq_some_iff.mp h
  cases h
  exact hxw

def Returns (x : Resolve φ α β) : Prop := ∀ w, ∃ r w', x w = some (r, w')

namespace Returns

theorem pure (b : β) : Returns (Pure.pure b : Resolve φ α β) := fun w => ⟨.ok b, w, rfl⟩

theorem throw (e : ResolveError α) : Returns (MonadExcept.throw e : Resolve φ α β) :=
  fun w => ⟨.error e, w, rfl⟩

theorem ofExcept (r : Except (ResolveError α) β) : Returns (Resolve.ofExcept r : Resolve φ α β) :=
  fun w => ⟨r, w, rfl⟩

theorem get : Returns (MonadState.get : Resolve φ α (Workspace φ α)) := fun w => ⟨.ok w, w, rfl⟩

theorem modifyGet (f : Workspace φ α → β × Workspace φ α) :
    Returns (MonadState.modifyGet f : Resolve φ α β) :=
  fun w => ⟨.ok (f w).1, (f w).2, rfl⟩

theorem register (d : Definition φ α) : Returns (Resolve.register d) := fun _ => ⟨.ok (), _, rfl⟩

theorem bind {x : Resolve φ α β} {f : β → Resolve φ α γ} (hx : Returns x)
    (hf : ∀ b, Returns (f b)) : Returns (x >>= f) := by
  intro w
  obtain ⟨r, w', hr⟩ := hx w
  rw [bind_run, hr]
  cases r with
  | ok b => exact hf b w'
  | error e => exact ⟨.error e, w', rfl⟩

theorem attempt {x : Resolve φ α β} (hx : Returns x) : Returns (Resolve.attempt x) := by
  intro w
  obtain ⟨r, w', hr⟩ := hx w
  exact ⟨.ok r, w', attempt_run hr⟩

end Returns

def Tracks (R : Registry φ α) (n : Nat) (x : Resolve φ α β) (P : β → Nat → Prop) : Prop :=
  ∀ w b w', w.registry = R → w.nextNode = n → x w = some (.ok b, w') →
    w'.registry = R ∧ P b w'.nextNode

namespace Tracks
variable {R : Registry φ α} {n : Nat} {x : Resolve φ α β} {P : β → Nat → Prop} {Q : γ → Nat → Prop}

theorem mono {P' : β → Nat → Prop} (hx : Tracks R n x P) (h : ∀ b m, P b m → P' b m) :
    Tracks R n x P' := by
  intro w b w' hw hn hrun
  obtain ⟨hw', hp⟩ := hx w b w' hw hn hrun
  exact ⟨hw', h b _ hp⟩

theorem pure {b : β} (h : P b n) : Tracks R n (Pure.pure b) P := by
  intro w _ w' hw hn hrun
  cases hrun
  exact ⟨hw, hn ▸ h⟩

theorem throw (e : ResolveError α) : Tracks R n (MonadExcept.throw e : Resolve φ α β) P := by
  intro w b w' _ _ hrun
  cases hrun

theorem ofExcept {r : Except (ResolveError α) β} (h : ∀ b, r = .ok b → P b n) :
    Tracks R n (Resolve.ofExcept r) P := by
  intro w b w' hw hn hrun
  cases r with
  | error e => cases hrun
  | ok _ =>
    cases hrun
    exact ⟨hw, hn ▸ h _ rfl⟩

theorem freshNode :
    Tracks R n (Resolve.freshNode : Resolve φ α Nat) fun b m => b = n ∧ m = n + 1 := by
  intro w _ w' hw hn hrun
  cases hrun
  exact ⟨hw, hn, congrArg (· + 1) hn⟩

theorem warn (ws : List Warning) :
    Tracks R n (Resolve.warn ws : Resolve φ α Unit) fun _ m => n = m := by
  intro w _ w' hw hn hrun
  cases hrun
  exact ⟨hw, hn.symm⟩

theorem bind {f : β → Resolve φ α γ} (hx : Tracks R n x P)
    (hf : ∀ b k, P b k → Tracks R k (f b) Q) : Tracks R n (x >>= f) Q := by
  intro w c w'' hw hn hrun
  obtain ⟨b, w', hb, hc⟩ := bind_run_eq_ok.mp hrun
  obtain ⟨hw', hp⟩ := hx w b w' hw hn hb
  exact hf b _ hp w' c w'' hw' rfl hc

/-- Goes on with the failure as a value, and cannot succeed after one. -/
theorem attempt {f : Except (ResolveError α) β → Resolve φ α γ} (hx : Tracks R n x P)
    (hf : ∀ b k, P b k → Tracks R k (f (.ok b)) Q)
    (hfail : ∀ e w c w', f (.error e) w ≠ some (.ok c, w')) :
    Tracks R n (Resolve.attempt x >>= f) Q := by
  intro w c w'' hw hn hrun
  obtain ⟨r, w', hr, hc⟩ := bind_run_eq_ok.mp hrun
  cases r with
  | error e => exact absurd hc (hfail e w' c w'')
  | ok b =>
    obtain ⟨hw', hp⟩ := hx w b w' hw hn (attempt_run_iff.mp hr)
    exact hf b _ hp w' c w'' hw' rfl hc

end Tracks

def Yields (R : Registry φ α) (x : Resolve φ α β) (P : β → Prop) : Prop :=
  ∀ w b w', w.registry = R → x w = some (.ok b, w') → w'.registry = R ∧ P b

theorem yields_iff {R : Registry φ α} {x : Resolve φ α β} {P : β → Prop} :
    Yields R x P ↔ ∀ n, Tracks R n x fun b _ => P b :=
  ⟨fun h _ w b w' hw _ hrun => h w b w' hw hrun,
    fun h w b w' hw hrun => h w.nextNode w b w' hw rfl hrun⟩

namespace Yields
variable {R : Registry φ α} {P : β → Prop} {Q : γ → Prop}

theorem pure {b : β} (h : P b) : Yields R (Pure.pure b) P := yields_iff.mpr fun _ => .pure h

theorem throw (e : ResolveError α) : Yields R (MonadExcept.throw e : Resolve φ α β) P :=
  yields_iff.mpr fun _ => .throw e

theorem ofExcept {r : Except (ResolveError α) β} (h : ∀ b, r = .ok b → P b) :
    Yields R (Resolve.ofExcept r) P :=
  yields_iff.mpr fun _ => .ofExcept h

theorem get : Yields R (MonadState.get : Resolve φ α (Workspace φ α)) (·.registry = R) := by
  intro w _ w' hw hrun
  cases hrun
  exact ⟨hw, hw⟩

theorem freshNode : Yields R (Resolve.freshNode : Resolve φ α Nat) fun _ => True :=
  yields_iff.mpr fun _ => Tracks.freshNode.mono fun _ _ _ => trivial

theorem warn (ws : List Warning) : Yields R (Resolve.warn ws : Resolve φ α Unit) fun _ => True :=
  yields_iff.mpr fun _ => (Tracks.warn ws).mono fun _ _ _ => trivial

theorem bind {x : Resolve φ α β} {f : β → Resolve φ α γ} (hx : Yields R x P)
    (hf : ∀ b, P b → Yields R (f b) Q) : Yields R (x >>= f) Q :=
  yields_iff.mpr fun n => (yields_iff.mp hx n).bind fun b k hb => yields_iff.mp (hf b hb) k

/-- Goes on with the failure as a value, and cannot succeed after one. -/
theorem attempt {x : Resolve φ α β} {f : Except (ResolveError α) β → Resolve φ α γ}
    (hx : Yields R x P) (hf : ∀ b, P b → Yields R (f (.ok b)) Q)
    (hfail : ∀ e w c w', f (.error e) w ≠ some (.ok c, w')) :
    Yields R (Resolve.attempt x >>= f) Q :=
  yields_iff.mpr fun n =>
    (yields_iff.mp hx n).attempt (fun b k hb => yields_iff.mp (hf b hb) k) hfail

end Yields
end Scene.Resolve

namespace Scene.Resolution
variable {φ α : Type} [Scalar α]

/-- What the layout of a type comes to: there is none, it fails, or it is solved, with a warning
where it does not converge. -/
theorem layout_cases (s : Surroundings φ α) (d : Definition φ α) (props : Props φ α)
    (container : Option (Container α)) :
    (d.layout? = none ∧ layout s d props container = pure none) ∨
      (∃ e, layout s d props container = throw (.layout d.name e)) ∨
      ∃ l, layout s d props container = pure (some l) ∨
        ∃ ws, layout s d props container = Resolve.warn ws >>= fun _ => pure (some l) := by
  unfold layout
  split
  · next hnone => exact .inl ⟨hnone, rfl⟩
  · dsimp only
    split
    · next e _ => exact .inr (.inl ⟨e, rfl⟩)
    · next o _ =>
      refine .inr (.inr ⟨o.solution, ?_⟩)
      split
      · exact .inr ⟨_, rfl⟩
      · exact .inl rfl

end Scene.Resolution
