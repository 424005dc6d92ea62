import Scene.Engine
import Scene.Proofs.Resolution.Loop

/-! Implementations are called with the depth of their loop, and no loop at the limit calls any. So
what they would do there, be it never to end, does not matter. -/
namespace Scene
variable {φ α : Type} [Scalar α]

omit [Scalar α] in
def Surroundings.implementing (s : Surroundings φ α)
    (implement : φ → Props φ α → Option (Visual φ α) → Context α → Script φ α) :
    Surroundings φ α :=
  { s with meaning := { s.meaning with implement } }

omit [Scalar α] in
theorem Completion.evaluateAll_implementing (s : Surroundings φ α)
    (implement : φ → Props φ α → Option (Visual φ α) → Context α → Script φ α) (name : String)
    (snapshot props : Props φ α) :
    evaluateAll (s.implementing implement).meaning name snapshot props =
      evaluateAll s.meaning name snapshot props := by
  induction props with
  | nil => rfl
  | cons e props ih =>
    rw [evaluateAll, evaluateAll, ih]
    rfl

namespace Resolution
open Resolve

theorem ready_depth {s : Surroundings φ α} {scope : Scope α} {spec : Spec φ α}
    {w w' : Workspace φ α} {call : Call φ α} (h : ready s scope spec w = some (.ok call, w')) :
    call.context.depth = scope.depth := by
  simp only [ready, bind_run_eq_ok] at h
  obtain ⟨_, _, _, _, _, _, _, _, _, h⟩ := h
  cases h
  rfl

variable (s : Surroundings φ α)
  {implement : φ → Props φ α → Option (Visual φ α) → Context α → Script φ α}
  (himplement : ∀ code props base c, c.depth < s.settings.maxDepth →
    implement code props base c = s.meaning.implement code props base c)
  {child anew : Resolver φ α}

theorem ready_implementing (scope : Scope α) (spec : Spec φ α) :
    ready (s.implementing implement) scope spec = ready s scope spec := by
  have hcomplete : Completion.complete (s.implementing implement).meaning =
      Completion.complete s.meaning := by
    funext d props
    exact Completion.evaluateAll_implementing s implement _ _ _
  have hprepare : prepare (s.implementing implement) = prepare s := by
    funext d props
    unfold prepare
    rw [hcomplete]
    rfl
  unfold ready
  rw [hprepare]
  rfl

include himplement

theorem script_implementing (props : Props φ α) {c : Context α}
    (hc : c.depth < s.settings.maxDepth) (i : Implementation φ) (base : Option (Visual φ α)) :
    i.script (s.implementing implement).meaning props c base = i.script s.meaning props c base := by
  induction i generalizing base with
  | define => rfl
  | shape shape => rfl
  | host code => exact himplement code props base c hc
  | inherited parent own hparent hown =>
    simp only [Implementation.script, hparent, hown]

theorem expand_implementing {scope : Scope α} (hscope : scope.depth < s.settings.maxDepth) :
    expand (s.implementing implement) child anew scope = expand s child anew scope := by
  funext spec w
  unfold expand
  rw [ready_implementing, bind_run, bind_run]
  rcases hr : ready s scope spec w with _ | ⟨e | call, w'⟩
  · rfl
  · rfl
  · have hc : call.context.depth < s.settings.maxDepth := by rwa [ready_depth hr]
    have hscript : call.script (s.implementing implement).meaning = call.script s.meaning :=
      script_implementing s himplement call.props hc call.implementation none
    simp only [hscript]

theorem resolve_implementing {depth room : Nat} (h : depth + room = s.settings.maxDepth) :
    resolve (s.implementing implement) child anew depth room = resolve s child anew depth room := by
  funext v container
  cases v with
  | resolved r => rfl
  | spec spec =>
    cases hb : Text.isBlank spec.typeName with
    | true => rw [resolve_of_blank hb, resolve_of_blank hb]
    | false =>
      rw [resolve_of_not_blank hb, resolve_of_not_blank hb]
      cases room with
      | zero => rw [follow_zero List.not_mem_nil, follow_zero List.not_mem_nil]; rfl
      | succ room =>
        rw [expand_implementing s himplement (show depth < _ by omega)]
        rfl

theorem within_implementing {depth room : Nat} (h : depth + room = s.settings.maxDepth) :
    within (s.implementing implement) anew depth room = within s anew depth room := by
  induction room generalizing depth with
  | zero => exact resolve_implementing s himplement h
  | succ room ih =>
    rw [within, within, ih (by omega)]
    exact resolve_implementing s himplement h

theorem atRoot_implementing (levels : Nat) :
    atRoot (s.implementing implement) levels = atRoot s levels := by
  induction levels with
  | zero => exact within_implementing s himplement (Nat.zero_add _)
  | succ levels ih =>
    rw [atRoot, ih]
    exact within_implementing s himplement (Nat.zero_add _)

end Resolution
end Scene
