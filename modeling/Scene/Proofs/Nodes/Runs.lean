import Scene.Proofs.Nodes.Preparation
import Scene.Proofs.Resolution.Loop

/-! Resolution under other names of nodes. Two workspaces of which one is the other one renamed stay
so, and what comes of a visual is renamed with them: nothing ends, fails or goes on differently. -/
namespace Scene
open Resolve Resolution
variable {φ α β β' γ γ' : Type} {ρ : Renaming φ}

/-- The same registry under other names of nodes, and other names for the nodes that are given out
next. Warnings are not looked at. -/
structure Workspace.Renamed (ρ : Renaming φ) (w u : Workspace φ α) : Prop where
  registry_eq : u.registry = w.registry.rename ρ
  node_eq : ∀ i, ρ.node (w.nextNode + i) = u.nextNode + i

namespace Resolve

/-- Outcomes of two runs in renamed workspaces: neither ends, both fail in the same way, or both
have a result. -/
inductive Same (ρ : Renaming φ) (P : β → β' → Prop) :
    Option (Except (ResolveError α) β × Workspace φ α) →
      Option (Except (ResolveError α) β' × Workspace φ α) → Prop where
  | endless : Same ρ P none none
  | error (e : ResolveError α) {w u : Workspace φ α} (h : w.Renamed ρ u) :
      Same ρ P (some (.error e, w)) (some (.error e, u))
  | ok {b : β} {b' : β'} {w u : Workspace φ α} (hb : P b b') (h : w.Renamed ρ u) :
      Same ρ P (some (.ok b, w)) (some (.ok b', u))

theorem Same.mono {P Q : β → β' → Prop}
    {x : Option (Except (ResolveError α) β × Workspace φ α)}
    {y : Option (Except (ResolveError α) β' × Workspace φ α)} (h : Same ρ P x y)
    (hQ : ∀ b b' w u, x = some (.ok b, w) → y = some (.ok b', u) → P b b' → Q b b') :
    Same ρ Q x y := by
  cases h with
  | endless => exact .endless
  | error e h => exact .error e h
  | ok hb h => exact .ok (hQ _ _ _ _ rfl rfl hb) h

def Agrees (ρ : Renaming φ) (x : Resolve φ α β) (y : Resolve φ α β') (P : β → β' → Prop) : Prop :=
  ∀ w u, w.Renamed ρ u → Same ρ P (x w) (y u)

namespace Agrees
variable {x : Resolve φ α β} {y : Resolve φ α β'} {P : β → β' → Prop} {Q : γ → γ' → Prop}

theorem pure {b : β} {b' : β'} (h : P b b') : Agrees ρ (Pure.pure b : Resolve φ α β)
    (Pure.pure b') P := fun _ _ hw => .ok h hw

theorem throw (e : ResolveError α) : Agrees ρ (MonadExcept.throw e : Resolve φ α β)
    (MonadExcept.throw e : Resolve φ α β') P := fun _ _ hw => .error e hw

theorem endless : Agrees ρ (Resolve.endless : Resolve φ α β) (Resolve.endless : Resolve φ α β') P :=
  fun _ _ _ => .endless

theorem ofExcept (r : Except (ResolveError α) β) (g : β → β') :
    Agrees ρ (Resolve.ofExcept r : Resolve φ α β) (Resolve.ofExcept (r.map g))
      fun b b' => b' = g b := by
  intro w u hw
  cases r with
  | error e => exact .error e hw
  | ok b => exact .ok rfl hw

theorem get : Agrees ρ (MonadState.get : Resolve φ α (Workspace φ α)) MonadState.get
    (Workspace.Renamed ρ) := fun _ _ hw => .ok hw hw

theorem freshNode : Agrees ρ (Resolve.freshNode : Resolve φ α Nat) Resolve.freshNode
    fun n n' => n' = ρ.node n := by
  intro w u hw
  refine .ok (hw.node_eq 0).symm ⟨hw.registry_eq, fun i => ?_⟩
  have h := hw.node_eq (1 + i)
  rwa [← Nat.add_assoc, ← Nat.add_assoc] at h

theorem warn (ws : List Warning) : Agrees ρ (Resolve.warn ws : Resolve φ α Unit) (Resolve.warn ws)
    fun _ _ => True := fun _ _ hw => .ok trivial ⟨hw.registry_eq, hw.node_eq⟩

theorem register (d : Definition φ α) : Agrees ρ (Resolve.register d)
    (Resolve.register (d.rename ρ)) fun _ _ => True := by
  intro w u hw
  refine .ok trivial ⟨?_, hw.node_eq⟩
  change (Registry.register u.registry (d.rename ρ)).1 =
    Registry.rename ρ (Registry.register w.registry d).1
  rw [hw.registry_eq, Registry.register_rename]

theorem remove (name : String) : Agrees ρ (Resolve.remove name : Resolve φ α Bool)
    (Resolve.remove name) fun b b' => b' = b := by
  intro w u hw
  have hremove := w.registry.remove_rename ρ name
  rw [← hw.registry_eq] at hremove
  exact .ok (congrArg Prod.snd hremove) ⟨congrArg Prod.fst hremove, hw.node_eq⟩

theorem bind {f : β → Resolve φ α γ} {g : β' → Resolve φ α γ'} (hx : Agrees ρ x y P)
    (hf : ∀ b b', P b b' → Agrees ρ (f b) (g b') Q) : Agrees ρ (x >>= f) (y >>= g) Q := by
  intro w u hw
  rw [bind_run, bind_run]
  have hsame := hx w u hw
  generalize x w = a at hsame
  generalize y u = b at hsame
  cases hsame with
  | endless => exact .endless
  | error e h => exact .error e h
  | ok hb h => exact hf _ _ hb _ _ h

theorem attempt {g : β → β'} (hx : Agrees ρ x y fun b b' => b' = g b) :
    Agrees ρ (Resolve.attempt x) (Resolve.attempt y) fun r r' => r' = r.map g := by
  intro w u hw
  change Same ρ _ (Option.bind (x w) _) (Option.bind (y u) _)
  have hsame := hx w u hw
  generalize x w = a at hsame
  generalize y u = b at hsame
  cases hsame with
  | endless => exact .endless
  | error e h => exact .ok rfl h
  | ok hb h => exact .ok (congrArg Except.ok hb) h

end Agrees
end Resolve

def Resolver.Respects (ρ : Renaming φ) (resolver : Resolver φ α) : Prop :=
  ∀ v c, Agrees ρ (resolver v c) (resolver (v.rename ρ) c) fun r r' => r' = r.rename ρ

theorem Script.Renamed.run {child anew : Resolver φ α} (hchild : Resolver.Respects ρ child)
    (hanew : Resolver.Respects ρ anew) {S S' : Script φ α} (h : S.Renamed ρ S') :
    Agrees ρ (S.run child anew) (S'.run child anew) fun v v' => v' = v.rename ρ := by
  induction h with
  | finish result => exact .ofExcept result _
  | build d _ ih =>
    refine .bind .freshNode ?_
    rintro n _ rfl
    rw [Draft.node_rename]
    exact ih _
  | child v c _ ih =>
    refine .bind (.attempt (hchild v c)) ?_
    rintro r _ rfl
    exact ih r
  | inspect _ ih =>
    refine .bind .get fun w u hw => ?_
    rw [hw.registry_eq]
    exact ih _
  | register d _ ih => exact .bind (.register d) fun _ _ _ => ih
  | remove name _ ih =>
    refine .bind (.remove name) ?_
    rintro _ b rfl
    exact ih b
  | reenter v c _ ih =>
    refine .bind (.attempt (hanew v c)) ?_
    rintro r _ rfl
    exact ih r

namespace Resolution

theorem lookup_agrees (name : String) : Agrees ρ (lookup name : Resolve φ α (Definition φ α))
    (lookup name) fun d d' => d' = d.rename ρ := by
  refine .bind .get fun w u hw => ?_
  rw [hw.registry_eq, Registry.get?_rename]
  cases Dict.get? w.registry name with
  | some d => exact .pure rfl
  | none =>
    dsimp only [Option.map_none]
    split
    · rw [Definition.bootstrap?_eq]
      exact .pure (Definition.rename_ofDefine ρ).symm
    · exact .throw _

variable [Scalar α] {s : Surroundings φ α} (hm : s.meaning.Respects ρ) {child anew : Resolver φ α}

def Call.rename (ρ : Renaming φ) (call : Call φ α) : Call φ α :=
  { call with
    implementation := call.implementation.rename ρ
    props := Dict.rename ρ call.props }

theorem layout_agrees (d : Definition φ α) (props : Props φ α) (container : Option (Container α)) :
    Agrees ρ (layout s d props container) (layout s d props container) fun l l' => l' = l := by
  obtain ⟨-, h⟩ | ⟨e, h⟩ | ⟨l, h | ⟨ws, h⟩⟩ := layout_cases s d props container <;> rw [h]
  · exact .pure rfl
  · exact .throw _
  · exact .pure rfl
  · exact .bind (.warn ws) fun _ _ _ => .pure rfl

include hm

theorem ready_agrees (scope : Scope α) (spec : Spec φ α) :
    Agrees ρ (ready s scope spec) (ready s scope (spec.rename ρ))
      fun call call' => call' = call.rename ρ := by
  rw [ready, ready, Spec.typeName_rename]
  refine .bind (lookup_agrees _) ?_
  rintro d _ rfl
  rw [Spec.props_rename, prepare_rename hm]
  refine .bind (.ofExcept _ _) ?_
  rintro props _ rfl
  rw [layout_rename hm]
  refine .bind (layout_agrees d props scope.container) ?_
  rintro l _ rfl
  exact .pure rfl

variable (hchild : Resolver.Respects ρ child) (hanew : Resolver.Respects ρ anew)
include hchild hanew

theorem expand_agrees (scope : Scope α) (spec : Spec φ α) :
    Agrees ρ (expand s child anew scope spec) (expand s child anew scope (spec.rename ρ))
      fun r r' => r' = (Dict.rename ρ r.1, r.2.rename ρ) := by
  refine .bind (ready_agrees hm scope spec) ?_
  rintro call _ rfl
  have hscript := Implementation.script_renamed hm call.props call.context call.implementation none
  refine .bind (hscript.run hchild hanew) ?_
  rintro v _ rfl
  exact .pure rfl

omit hm hchild hanew [Scalar α] in
theorem follow_agrees {limit : Nat} {step : Spec φ α → Resolve φ α (Props φ α × Visual φ α)}
    (hstep : ∀ spec, Agrees ρ (step spec) (step (spec.rename ρ))
      fun r r' => r' = (Dict.rename ρ r.1, r.2.rename ρ))
    (room : Nat) (met : List String) (outer : Option (Props φ α)) (spec : Spec φ α) :
    Agrees ρ (follow limit step room met outer spec)
      (follow limit step room met (outer.map (Dict.rename ρ)) (spec.rename ρ))
      fun r r' => r' = (Dict.rename ρ r.1, r.2.rename ρ) := by
  induction room generalizing met outer spec with
  | zero =>
    have hname : (spec.rename ρ).typeName = spec.typeName := spec.typeName_rename ρ
    by_cases hmet : spec.typeName ∈ met
    · rw [follow_of_mem hmet, follow_of_mem (hname ▸ hmet), hname]
      exact .throw _
    · rw [follow_zero hmet, follow_zero (hname ▸ hmet), hname]
      exact .throw _
  | succ room ih =>
    have hname : (spec.rename ρ).typeName = spec.typeName := spec.typeName_rename ρ
    by_cases hmet : spec.typeName ∈ met
    · rw [follow_of_mem hmet, follow_of_mem (hname ▸ hmet), hname]
      exact .throw _
    · -- the names on the way are the same, so both loops go on or both end
      rw [follow_succ hmet, follow_succ (hname ▸ hmet), hname]
      refine .bind (hstep spec) ?_
      rintro ⟨props, v⟩ _ rfl
      have houter : (outer.map (Dict.rename ρ)).getD (Dict.rename ρ props) =
          Dict.rename ρ (outer.getD props) := by
        cases outer <;> rfl
      dsimp only
      rw [houter]
      cases v with
      | resolved r => exact .pure rfl
      | spec next =>
        have hnext : (next.rename ρ).typeName = next.typeName := next.typeName_rename ρ
        simp only [Visual.rename, hnext]
        split
        · exact .throw _
        · exact ih (met ++ [spec.typeName]) (some (outer.getD props)) next

theorem resolve_respects (depth room : Nat) :
    Resolver.Respects ρ (resolve s child anew depth room) := by
  intro v c
  cases v with
  | resolved r => exact .pure rfl
  | spec spec =>
    have hname : (spec.rename ρ).typeName = spec.typeName := spec.typeName_rename ρ
    change Agrees ρ (resolve s child anew depth room (.spec spec) c)
      (resolve s child anew depth room (.spec (spec.rename ρ)) c) _
    cases hb : Text.isBlank spec.typeName with
    | true =>
      rw [resolve_of_blank hb, resolve_of_blank (hname ▸ hb)]
      exact .throw _
    | false =>
      rw [resolve_of_not_blank hb, resolve_of_not_blank (hname ▸ hb)]
      refine .bind (follow_agrees (expand_agrees hm hchild hanew _) room [] none spec) ?_
      rintro ⟨completed, r⟩ _ rfl
      refine .bind .freshNode ?_
      rintro n _ rfl
      exact .pure (Renderable.rename_withOrigin ρ r n spec completed).symm

omit hchild in
theorem within_respects (depth room : Nat) :
    Resolver.Respects ρ (within s anew depth room) := by
  induction room generalizing depth with
  | zero =>
    refine resolve_respects hm (fun v c => ?_) hanew depth 0
    rw [tooDeep, tooDeep, Visual.typeName_rename]
    exact .throw _
  | succ room ih => exact resolve_respects hm (ih (depth + 1)) hanew depth (room + 1)

omit hchild hanew in
theorem atRoot_respects (levels : Nat) : Resolver.Respects ρ (atRoot s levels) := by
  induction levels with
  | zero => exact within_respects hm (fun _ _ => .endless) 0 s.settings.maxDepth
  | succ levels ih => exact within_respects hm ih 0 s.settings.maxDepth

end Resolution
end Scene
