import Scene.Proofs.Define.Registration
import Scene.Proofs.Plain.Inert
import Scene.Proofs.Resolution.Shapes

/-! Resolution of plain data. All registered types stay plain, whatever is declared on the way and
however deep; what comes out can be drawn, and no implementation is to blame where nothing does. -/
namespace Scene
open Resolution
variable {φ α β γ : Type}

section
variable [Scalar α]

def Safe (x : Resolve φ α β) (P : β → Prop) : Prop :=
  ∀ w, w.registry.Plain → ∃ r w', x w = some (r, w') ∧ w'.registry.Plain ∧ Fair P r

namespace Safe
variable {P : β → Prop} {Q : γ → Prop}

theorem ofExcept {r : Except (ResolveError α) β} (h : Fair P r) :
    Safe (Resolve.ofExcept r : Resolve φ α β) P :=
  fun w hw => ⟨r, w, rfl, hw, h⟩

theorem pure {b : β} (h : P b) : Safe (Pure.pure b : Resolve φ α β) P :=
  fun w hw => ⟨.ok b, w, rfl, hw, h⟩

theorem throw {e : ResolveError α} (h : e.Blameless) :
    Safe (MonadExcept.throw e : Resolve φ α β) P :=
  fun w hw => ⟨.error e, w, rfl, hw, h⟩

theorem get : Safe (MonadState.get : Resolve φ α (Workspace φ α)) (·.registry.Plain) :=
  fun w hw => ⟨.ok w, w, rfl, hw, hw⟩

theorem freshNode : Safe (Resolve.freshNode : Resolve φ α Nat) fun _ => True :=
  fun _ hw => ⟨.ok _, _, rfl, hw, trivial⟩

theorem warn (ws : List Warning) : Safe (Resolve.warn ws : Resolve φ α Unit) fun _ => True :=
  fun _ hw => ⟨.ok (), _, rfl, hw, trivial⟩

theorem bind {x : Resolve φ α β} {f : β → Resolve φ α γ} (hx : Safe x P)
    (hf : ∀ b, P b → Safe (f b) Q) : Safe (x >>= f) Q := by
  intro w hw
  obtain ⟨r, w', hr, hw', hfair⟩ := hx w hw
  rw [Resolve.bind_run, hr]
  cases r with
  | ok b => exact hf b hfair w' hw'
  | error e => exact ⟨.error e, w', rfl, hw', hfair⟩

theorem attempt {x : Resolve φ α β} (hx : Safe x P) : Safe (Resolve.attempt x) (Fair P) := by
  intro w hw
  obtain ⟨r, w', hr, hw', hfair⟩ := hx w hw
  exact ⟨.ok r, w', Resolve.attempt_run hr, hw', hfair⟩

theorem mapM {l : List γ} {f : γ → Resolve φ α β} (hf : ∀ c ∈ l, Safe (f c) P) :
    Safe (l.mapM f) fun bs => ∀ b ∈ bs, P b := by
  induction l with
  | nil => exact pure nofun
  | cons c l ih =>
    rw [List.mapM_cons]
    have hparts := List.forall_mem_cons.mp hf
    exact bind hparts.1 fun b hb => bind (ih hparts.2) fun bs hbs =>
      pure (List.forall_mem_cons.mpr ⟨hb, hbs⟩)

end Safe

theorem Registry.Plain.register {w : Workspace φ α} (h : w.registry.Plain) {t : Definition φ α}
    (ht : t.Plain) : (w.registered t).registry.Plain := by
  intro name u hu
  change Dict.get? (Dict.insert w.registry t.name t) name = some u at hu
  rw [Dict.get?_insert] at hu
  split at hu
  · cases hu
    exact ht
  · exact h name u hu

theorem Safe.register {t : Definition φ α} (ht : t.Plain) :
    Safe (Resolve.register t) fun _ => True :=
  fun w hw => ⟨.ok (), w.registered t, rfl, hw.register ht, trivial⟩

theorem Definition.ofDefine_plain : (Definition.ofDefine : Definition φ α).Plain where
  implementation := .inl rfl
  layout := nofun
  defaults := by
    have hempty : (Value.object [] : Value φ α).Inert := .object nofun
    simp [Definition.ofDefine, Schema.optional, Schema.mandatory, Schema.ofTag, Schema.withDefault,
      Schema.validatedBy, hempty]

namespace Resolution

theorem lookup_safe (name : String) :
    Safe (lookup name : Resolve φ α (Definition φ α)) Definition.Plain := by
  refine .bind .get fun w hw => ?_
  split
  · next t ht => exact .pure (hw name t ht)
  · split
    · rw [Definition.bootstrap?_eq]
      exact .pure Definition.ofDefine_plain
    · exact .throw (.of_category .unknownType rfl (by decide))

/-- A type that asks for a layout gets one, unless the layout is at fault. -/
theorem layout_safe (s : Surroundings φ α) (t : Definition φ α) (props : Props φ α)
    (container : Option (Container α)) :
    Safe (layout s t props container) fun l? => t.layout?.isSome = true → l?.isSome = true := by
  obtain ⟨hnone, h⟩ | ⟨e, h⟩ | ⟨l, h | ⟨ws, h⟩⟩ := layout_cases s t props container <;> rw [h]
  · exact .pure fun hsome => by simp [hnone] at hsome
  · exact .throw (.of_category .layout rfl (by decide))
  · exact .pure fun _ => rfl
  · exact .bind (.warn ws) fun _ _ => .pure fun _ => rfl

structure Call.Plain (call : Call φ α) : Prop where
  implementation : call.implementation = .define ∨ ∃ s, call.implementation = .shape s
  layout : call.implementation = .shape .frame → call.context.layout.isSome = true
  props : Props.Inert call.props

theorem ready_safe (s : Surroundings φ α) (scope : Scope α) {spec : Spec φ α}
    (h : Props.Inert spec.props) : Safe (ready s scope spec) Call.Plain :=
  .bind (lookup_safe _) fun _ ht => .bind (.ofExcept (prepare_fair s ht h)) fun _ hprops =>
    .bind (layout_safe _ _ _ _) fun _ hlayout =>
      .pure ⟨ht.implementation, fun hframe => hlayout (ht.layout hframe), hprops⟩

/-! Scripts. -/

section
variable {child anew : Resolver φ α} {P : Visual φ α → Prop} {Q : β → Prop}

theorem run_ofExcept_safe {r : Except (ResolveError α) β} {f : β → Script φ α} (hr : Fair Q r)
    (hf : ∀ b, Q b → Safe ((f b).run child anew) P) :
    Safe ((Script.ofExcept r f).run child anew) P := by
  cases r with
  | ok b => exact hf b hr
  | error e => exact .ofExcept hr

theorem run_ofDraft_safe {d : Draft φ α} (h : ∀ n, P (.resolved (d.node n))) :
    Safe ((Script.ofDraft d).run child anew) P :=
  .bind .freshNode fun n _ => .pure (h n)

def Draws (resolver : Resolver φ α) : Prop :=
  ∀ v c, v.Inert → Safe (resolver v c) Renderable.Drawable

theorem run_childrenOfValues_safe (hchild : Draws child) (container : Option (Container α))
    {vs : List (Value φ α)} (hvs : ∀ v ∈ vs, v.Inert) {next : List (Renderable φ α) → Script φ α}
    (hnext : ∀ rs, (∀ r ∈ rs, r.Drawable) → Safe ((next rs).run child anew) P) :
    Safe ((Script.childrenOfValues container vs next).run child anew) P := by
  induction vs generalizing next with
  | nil => exact hnext [] nofun
  | cons v vs ih =>
    have hparts := List.forall_mem_cons.mp hvs
    refine run_ofExcept_safe (Visual.ofValue?_fair hparts.1) fun viz hviz =>
      .bind (hchild viz container hviz).attempt fun r hr => run_ofExcept_safe hr fun r hr => ?_
    exact ih hparts.2 fun rs hrs => hnext (r :: rs) (List.forall_mem_cons.mpr ⟨hr, hrs⟩)

theorem run_declaration_safe {props : Props φ α} (h : Props.Inert props) :
    Safe ((Declaration.script props).run child anew) Visual.Inert := by
  refine run_ofExcept_safe (Declaration.ofProps?_fair h) fun d hd => .bind .get fun w hw =>
    run_ofExcept_safe (hd.define?_fair hw) fun t ht => .bind (.register ht) fun _ _ => ?_
  exact run_ofDraft_safe fun n => .resolved (.empty rfl)

/-- What a frame stands for holds numbers, texts and its children. -/
theorem framed_inert (props : Props φ α) (l : Layout.Solution α) {rs : List (Renderable φ α)}
    (hrs : ∀ r ∈ rs, r.Drawable) : Visual.Inert (.spec (Shape.framed props l rs)) := by
  have hnone (name : String) : Props.Inert (Spec.create name : Spec φ α).props := nofun
  have hchildren : (Value.array (rs.map .renderable)).Inert := .array fun v hv => by
    obtain ⟨r, hr, rfl⟩ := List.mem_map.mp hv
    exact .renderable (hrs r hr)
  have hbackground (c : String) := (((hnone "rect").set "width" (.number l.width)).set "height"
    (.number l.height)).set "fill" (.string c)
  have hcontent (padding : α) := (((hnone "group").set "x" (.number padding)).set "y"
    (.number padding)).set "children" hchildren
  rw [Shape.framed]
  refine .spec ?_ ((hnone "group").set "children" (.array fun v hv => ?_))
  · have hgroup : Text.isBlank "group" = false := by decide
    rw [Spec.typeName_set (by decide)]
    exact hgroup
  · obtain ⟨part, hpart, rfl⟩ := List.mem_map.mp hv
    refine Props.Inert.toValue ?_
    rcases List.mem_append.mp hpart with hpart | hpart
    · split at hpart
      · obtain rfl := List.mem_singleton.mp hpart
        exact hbackground _
      · cases hpart
    · obtain rfl := List.mem_singleton.mp hpart
      exact hcontent _

theorem draft_drawable {shape : Shape} {props : Props φ α}
    (h : shape.nests = true → ∀ r ∈ Primitive.children props, r.Drawable) (node : Nat) :
    Visual.Inert (.resolved ((shape.draft props).node node)) :=
  .resolved (.shape shape rfl h)

theorem run_shape_safe (hchild : Draws child) {shape : Shape} {props : Props φ α} {c : Context α}
    (h : Props.Inert props) (hlayout : shape = .frame → c.layout.isSome = true) :
    Safe ((shape.script props c).run child anew) Visual.Inert := by
  have hlisted : ∀ v ∈ Script.listed (Dict.get? props "children"), v.Inert :=
    Props.Inert.listed (h.get? "children")
  cases shape with
  | group =>
    refine run_childrenOfValues_safe hchild _ hlisted fun rs hrs =>
      run_ofDraft_safe (draft_drawable fun _ r hr => hrs r ?_)
    rwa [Shape.children_withChildren] at hr
  | frame =>
    rw [Shape.script]
    obtain ⟨l, hl⟩ := Option.isSome_iff_exists.mp (hlayout rfl)
    rw [hl]
    exact run_childrenOfValues_safe hchild _ hlisted fun rs hrs => .ofExcept (framed_inert _ _ hrs)
  | _ => exact run_ofDraft_safe (draft_drawable fun hnests => absurd hnests Bool.false_ne_true)

theorem Call.Plain.run_safe (hchild : Draws child) {call : Call φ α} (h : call.Plain)
    (m : Meaning φ α) : Safe ((call.script m).run child anew) Visual.Inert := by
  rw [Call.script]
  rcases h.implementation with himplementation | ⟨shape, himplementation⟩
  · rw [himplementation]
    exact run_declaration_safe h.props
  · rw [himplementation]
    refine run_shape_safe hchild h.props fun hframe => h.layout ?_
    rw [himplementation, hframe]

end

theorem expand_safe {s : Surroundings φ α} {child anew : Resolver φ α} (hchild : Draws child)
    (scope : Scope α) {spec : Spec φ α} (h : Props.Inert spec.props) :
    Safe (expand s child anew scope spec) fun r => r.2.Inert :=
  .bind (ready_safe s scope h) fun _ hcall => .bind (hcall.run_safe hchild _) fun _ hv => .pure hv

theorem follow_safe {limit : Nat} {step : Spec φ α → Resolve φ α (Props φ α × Visual φ α)}
    (hstep : ∀ spec, Props.Inert spec.props → Safe (step spec) fun r => r.2.Inert)
    (room : Nat) (met : List String) (outer : Option (Props φ α)) {spec : Spec φ α}
    (h : Props.Inert spec.props) :
    Safe (follow limit step room met outer spec) fun r => r.2.Drawable := by
  induction room generalizing met outer spec with
  | zero =>
    by_cases hmet : spec.typeName ∈ met
    · rw [follow_of_mem hmet]
      exact .throw (.of_category .recursionGuard rfl (by decide))
    · rw [follow_zero hmet]
      exact .throw (.of_category .recursionGuard rfl (by decide))
  | succ room ih =>
    by_cases hmet : spec.typeName ∈ met
    · rw [follow_of_mem hmet]
      exact .throw (.of_category .recursionGuard rfl (by decide))
    · rw [follow_succ hmet]
      refine .bind (hstep spec h) fun r hr => ?_
      obtain ⟨props, v⟩ := r
      cases hr with
      | resolved hdrawable => exact .pure hdrawable
      | spec hnamed hprops =>
        dsimp only
        rw [hnamed, if_neg Bool.false_ne_true]
        exact ih _ _ hprops

theorem Draws.resolve {s : Surroundings φ α} {child anew : Resolver φ α} (hchild : Draws child)
    (depth room : Nat) : Draws (resolve s child anew depth room) := by
  intro v c hv
  cases hv with
  | resolved hr => exact .pure hr
  | spec hnamed hprops =>
    rw [resolve_of_not_blank hnamed]
    refine .bind (follow_safe (fun _ => expand_safe hchild _) _ _ _ hprops) fun r hr =>
      .bind .freshNode fun n _ => .pure ?_
    cases hr with
    | empty hpainters => exact .empty hpainters
    | shape shape hpainters hnested => exact .shape shape hpainters hnested

theorem Draws.tooDeep (limit : Nat) : Draws (tooDeep limit : Resolver φ α) := by
  intro v c _
  rw [Resolution.tooDeep]
  exact .throw (.of_category .recursionGuard rfl (by decide))

/-- The room shrinks where children nest. -/
theorem Draws.within (s : Surroundings φ α) (anew : Resolver φ α) (depth room : Nat) :
    Draws (within s anew depth room) := by
  induction room generalizing depth with
  | zero => exact .resolve (.tooDeep _) depth 0
  | succ room ih => exact .resolve (ih (depth + 1)) depth (room + 1)

theorem Draws.engine (s : Surroundings φ α) : Draws (Engine.resolve s) := by
  rw [engine_eq]
  exact within s _ 0 s.settings.maxDepth

end Resolution

theorem Engine.resolveDocument_safe (s : Surroundings φ α) (document : Json α) :
    Safe (resolveDocument s document) fun rs => ∀ r ∈ rs, r.Drawable :=
  .mapM fun entry _ => .bind (.ofExcept (Visual.ofValue?_fair (Value.ofJson_inert entry)))
    fun v hv => Draws.engine s v _ hv

end
end Scene
