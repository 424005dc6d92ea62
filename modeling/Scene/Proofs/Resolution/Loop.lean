import Scene.Engine
import Scene.Proofs.Resolution.Run

/-! The loop of a resolution. It expands a spec, then the spec that comes out, and so on; what it
expands are specs of different types, no more of them than it has room for. -/
namespace Scene.Resolution
open Resolve
variable {φ α : Type}

section
variable {limit room : Nat} {step step' : Spec φ α → Resolve φ α (Props φ α × Visual φ α)}
  {met : List String} {outer : Option (Props φ α)} {spec next : Spec φ α}
  {props : Props φ α} {w w' : Workspace φ α}

theorem follow_of_mem (h : spec.typeName ∈ met) :
    follow limit step room met outer spec =
      throw (.infiniteLoop (met ++ [spec.typeName])) := by
  unfold follow
  simp [h]

theorem follow_zero (h : spec.typeName ∉ met) :
    follow limit step 0 met outer spec = throw (.depthExceeded spec.typeName limit) := by
  unfold follow
  simp [h]

theorem follow_succ (h : spec.typeName ∉ met) :
    follow limit step (room + 1) met outer spec =
      step spec >>= fun r =>
        match r.2 with
        | .resolved x => pure (outer.getD r.1, x)
        | .spec next =>
          if Text.isBlank next.typeName then
            throw (.contract spec.typeName "returned a spec without a 'type'")
          else
            follow limit step room (met ++ [spec.typeName]) (some (outer.getD r.1)) next := by
  rw [follow]
  exact if_neg (by simpa using h)

def next? (step : Spec φ α → Resolve φ α (Props φ α × Visual φ α)) (spec : Spec φ α)
    (w : Workspace φ α) : Option (Spec φ α × Workspace φ α) :=
  match step spec w with
  | some (.ok (_, .spec next), w') => if Text.isBlank next.typeName then none else some (next, w')
  | _ => none

theorem next?_eq_some :
    next? step spec w = some (next, w') ↔
      ∃ props, step spec w = some (.ok (props, .spec next), w') ∧
        Text.isBlank next.typeName = false := by
  unfold next?
  split
  · next props n v hs =>
    by_cases hb : Text.isBlank n.typeName = true
    · simp only [hb, ↓reduceIte, reduceCtorEq, false_iff, not_exists, not_and]
      intro _ h
      cases hs.symm.trans h
      simp [hb]
    · simp only [hb, hs]
      grind
  · next hs =>
    simp only [reduceCtorEq, false_iff, not_exists, not_and]
    intro props h
    exact absurd h (hs props next w')

theorem follow_of_next (h : spec.typeName ∉ met)
    (hs : step spec w = some (.ok (props, .spec next), w'))
    (hb : Text.isBlank next.typeName = false) :
    follow limit step (room + 1) met outer spec w =
      follow limit step room (met ++ [spec.typeName]) (some (outer.getD props)) next w' := by
  rw [follow_succ h, bind_run, hs]
  simp [hb]

/-- Where nothing comes out that is to be expanded, one expansion decides. -/
theorem follow_of_last (h : spec.typeName ∉ met) (hn : next? step spec w = none)
    (hs : step' spec w = step spec w) :
    follow limit step' (room + 1) met outer spec w =
      follow limit step (room + 1) met outer spec w := by
  rw [follow_succ h, follow_succ h, bind_run, bind_run, hs]
  rcases hw : step spec w with _ | ⟨e | ⟨props, next | x⟩, w'⟩
  · rfl
  · rfl
  · have hb : Text.isBlank next.typeName = true := by simpa [next?, hw] using hn
    simp [hb]
  · rfl

/-- The specs that come of one another, at most so many, each with the workspace it is expanded
in. -/
def turns (step : Spec φ α → Resolve φ α (Props φ α × Visual φ α)) :
    Nat → Spec φ α → Workspace φ α → List (Spec φ α × Workspace φ α)
  | 0, _, _ => []
  | n + 1, spec, w =>
    (spec, w) ::
      match next? step spec w with
      | some (next, w') => turns step n next w'
      | none => []

theorem length_turns (n : Nat) (spec : Spec φ α) (w : Workspace φ α) :
    (turns step n spec w).length ≤ n := by
  induction n generalizing spec w with
  | zero => exact Nat.le_refl 0
  | succ n ih =>
    rw [turns]
    cases next? step spec w with
    | none => simp
    | some t => simpa using ih t.1 t.2

variable (limit step) in
/-- A loop asks for the expansion of so many specs of different types that it has not met, and of
nothing else: any other way to expand gives the same where it agrees on those. -/
theorem follow_reads (room : Nat) (met : List String) (outer : Option (Props φ α))
    (spec : Spec φ α) (w : Workspace φ α) :
    ∃ n ≤ room, ((turns step n spec w).map (·.1.typeName)).Nodup ∧
      (∀ t ∈ turns step n spec w, t.1.typeName ∉ met) ∧
      ∀ step', (∀ t ∈ turns step n spec w, step' t.1 t.2 = step t.1 t.2) →
        follow limit step' room met outer spec w = follow limit step room met outer spec w := by
  induction room generalizing met outer spec w with
  | zero =>
    refine ⟨0, Nat.le_refl 0, List.nodup_nil, by simp [turns], fun step' _ => ?_⟩
    by_cases h : spec.typeName ∈ met
    · rw [follow_of_mem h, follow_of_mem h]
    · rw [follow_zero h, follow_zero h]
  | succ room ih =>
    by_cases h : spec.typeName ∈ met
    · refine ⟨0, Nat.zero_le _, List.nodup_nil, by simp [turns], fun step' _ => ?_⟩
      rw [follow_of_mem h, follow_of_mem h]
    · cases hn : next? step spec w with
      | none =>
        have ht : turns step 1 spec w = [(spec, w)] := by simp [turns, hn]
        refine ⟨1, by omega, by simp [ht], by simpa [ht] using h, fun step' hstep => ?_⟩
        exact follow_of_last h hn (hstep (spec, w) (by simp [ht]))
      | some t =>
        obtain ⟨next, w'⟩ := t
        obtain ⟨props, hs, hb⟩ := next?_eq_some.mp hn
        obtain ⟨n, hle, hnodup, hfresh, hreads⟩ :=
          ih (met ++ [spec.typeName]) (some (outer.getD props)) next w'
        have ht : turns step (n + 1) spec w = (spec, w) :: turns step n next w' := by
          rw [turns, hn]
        refine ⟨n + 1, by omega, ?_, ?_, fun step' hstep => ?_⟩
        · rw [ht, List.map_cons, List.nodup_cons]
          refine ⟨fun hm => ?_, hnodup⟩
          obtain ⟨t, hmem, hname⟩ := List.mem_map.mp hm
          exact hfresh t hmem (by simp [hname])
        · rw [ht]
          intro t hmem
          rcases List.mem_cons.mp hmem with rfl | hmem
          · exact h
          · exact fun hm => hfresh t hmem (List.mem_append_left _ hm)
        · rw [ht] at hstep
          have hs' : step' spec w = some (.ok (props, .spec next), w') :=
            (hstep (spec, w) List.mem_cons_self).trans hs
          rw [follow_of_next h hs hb, follow_of_next h hs' hb]
          exact hreads step' fun t hmem => hstep t (List.mem_cons_of_mem _ hmem)

end

section
variable [Scalar α] {s : Surroundings φ α} {child anew : Resolver φ α} {depth room : Nat}
  {spec : Spec φ α} {container : Option (Container α)}

theorem resolve_of_blank (h : Text.isBlank spec.typeName = true) :
    resolve s child anew depth room (.spec spec) container =
      throw (.specShape "spec is missing a 'type' string") := by
  rw [resolve, if_pos h]
  rfl

theorem resolve_of_not_blank (h : Text.isBlank spec.typeName = false) :
    resolve s child anew depth room (.spec spec) container =
      follow s.settings.maxDepth (expand s child anew ⟨depth, container⟩) room [] none spec >>=
        fun r => freshNode >>= fun node => pure (r.2.withOrigin node spec r.1) := by
  rw [resolve, if_neg (by simp [h])]

end

section
variable [Scalar α] (s : Surroundings φ α) (anew : Resolver φ α) (depth : Nat)
  (container : Option (Container α))

/-- Resolves at a depth, with the room that the settings leave there. -/
def nested : Resolver φ α := within s anew depth (s.settings.maxDepth - depth)

def stepAt : Spec φ α → Resolve φ α (Props φ α × Visual φ α) :=
  expand s (nested s anew (depth + 1)) anew ⟨depth, container⟩

def loop (spec : Spec φ α) : Resolve φ α (Props φ α × Renderable φ α) :=
  follow s.settings.maxDepth (stepAt s anew depth container) (s.settings.maxDepth - depth) [] none
    spec

/-- What resolves for an implementation that calls the engine, where so many levels of such calls
are left. -/
def below : Nat → Resolver φ α
  | 0 => fun _ _ => endless
  | levels + 1 => atRoot s levels

theorem atRoot_eq (levels : Nat) : atRoot s levels = nested s (below s levels) 0 := by
  cases levels <;> rfl

theorem engine_eq : Engine.resolve s = nested s (below s s.stack.levels) 0 := atRoot_eq s _

/-- Whatever room is left, what resolves a spec at a depth is its loop. -/
theorem nested_spec {spec : Spec φ α} (h : Text.isBlank spec.typeName = false) :
    nested s anew depth (.spec spec) container =
      loop s anew depth container spec >>=
        fun r => freshNode >>= fun node => pure (r.2.withOrigin node spec r.1) := by
  unfold nested loop
  cases hroom : s.settings.maxDepth - depth with
  | zero =>
    rw [within, resolve_of_not_blank h, follow_zero List.not_mem_nil, follow_zero List.not_mem_nil]
  | succ room =>
    have hbelow : s.settings.maxDepth - (depth + 1) = room := by omega
    rw [within, resolve_of_not_blank h, stepAt, nested, hbelow]

end
end Scene.Resolution
