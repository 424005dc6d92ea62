import Scene.Proofs.Layout.Names
import Scene.Proofs.Resolution.Path

/-! Descents through a resolution, from a spec through the implementations that nest one another
down to a call. Where each of them nests as a context does by itself, the container that the call
has is put together axis by axis from the layouts above it. -/
namespace Scene
open Resolve
variable {φ α : Type}

inductive Axis where
  | width
  | height
  deriving DecidableEq, Repr

namespace Axis

def name : Axis → String
  | .width => "width"
  | .height => "height"

def size? : Axis → Option (Container α) → Option α
  | .width, container => container.bind (·.width)
  | .height, container => container.bind (·.height)

end Axis

namespace Context
variable [Scalar α]

def constrains (c : Context α) (axis : Axis) : Bool :=
  c.layout.any (·.isConstrained axis.name)

def solved? (c : Context α) (axis : Axis) : Option α := c.layout.bind (·.get? axis.name)

omit [Scalar α] in
/-- Each axis for itself, also where the layout touched none. -/
theorem size?_childContainer (c : Context α) (axis : Axis) :
    axis.size? c.childContainer =
      if c.constrains axis then c.solved? axis else axis.size? c.container := by
  cases hl : c.layout with
  | none => simp [childContainer, constrains, hl]
  | some l =>
    cases hwidth : l.isConstrained "width" <;> cases hheight : l.isConstrained "height" <;>
      cases axis <;> cases hc : c.container <;>
        simp [childContainer, constrains, solved?, Axis.size?, Axis.name, Container.unknown, hl,
          hwidth, hheight, hc]

end Context

namespace Resolution
variable [Scalar α]

/-- An open call of an implementation: what is called, and the container in which it has something
resolved. -/
structure Level (φ α : Type) where
  definition : Definition φ α
  call : Call φ α
  asked : Option (Container α)

/-- From a spec in a scope the resolution gets down to a call. Above it are open calls, the
outermost first: each was reached by its loop, be it at first or through returned specs, and its
implementation has nested what the next loop is about. -/
inductive Descent (s : Surroundings φ α) (levels : Nat) :
    Scope α → Spec φ α → Workspace φ α → List (Level φ α) → Call φ α → Prop
  | here {scope spec w k t call w₁} (hreaches : Reaches s (below s levels) scope spec w k t)
      (hready : ready s scope t.1 t.2 = some (.ok call, w₁)) :
      Descent s levels scope spec w [] call
  | child {scope spec w k t d call w₁ inner container w₂ enclosing last}
      (hreaches : Reaches s (below s levels) scope spec w k t)
      (hlookup : lookup t.1.typeName t.2 = some (.ok d, t.2))
      (hready : ready s scope t.1 t.2 = some (.ok call, w₁))
      (hasks : (call.script s.meaning).Asks (nested s (below s levels) (scope.depth + 1))
        (below s levels) w₁ (.child (.spec inner) container) w₂)
      (hrest : Descent s levels ⟨scope.depth + 1, container⟩ inner w₂ enclosing last) :
      Descent s levels scope spec w (⟨d, call, container⟩ :: enclosing) last

/-- A loop begins with its spec. -/
theorem Reaches.first {s : Surroundings φ α} {anew : Resolver φ α} {scope : Scope α}
    {spec : Spec φ α} {w : Workspace φ α} (hspec : Text.isBlank spec.typeName = false)
    (hroom : 1 ≤ roomAt s scope) : Reaches s anew scope spec w 1 (spec, w) := by
  have hexpanded : expanded s anew scope spec w 1 = [(spec, w)] := by
    rw [expanded_of_not_blank hspec, turns]
    split <;> rfl
  refine ⟨⟨[], hexpanded, rfl⟩, hroom, ?_⟩
  rw [namesMet, hexpanded]
  exact List.pairwise_singleton ..

section
variable {s : Surroundings φ α} {scope : Scope α} {spec : Spec φ α} {w w' : Workspace φ α}
  {call : Call φ α} {d : Definition φ α}

theorem layout_eq_some {props : Props φ α} {container : Option (Container α)}
    {l : Layout.Solution α} (h : layout s d props container w = some (.ok (some l), w')) :
    ∃ g o, d.layout? = some g ∧
      Layout.solve s.backend (g.rules s.meaning props ⟨d.name, container⟩) container s.settings =
        .ok o ∧ o.solution = l := by
  cases hg : d.layout? with
  | none =>
    simp only [layout, hg] at h
    cases h
  | some g =>
    cases ho : Layout.solve s.backend (g.rules s.meaning props ⟨d.name, container⟩) container
        s.settings with
    | error e =>
      simp only [layout, hg, ho] at h
      cases h
    | ok o =>
      refine ⟨g, o, rfl, ho, ?_⟩
      simp only [layout, hg, ho] at h
      split at h <;> cases h <;> rfl

/-- What a type on the way to its call went through. -/
theorem ready_eq_ok : ready s scope spec w = some (.ok call, w') ↔
    ∃ d w₁ props l, lookup spec.typeName w = some (.ok d, w₁) ∧
      prepare s d spec.props = .ok props ∧ layout s d props scope.container w₁ = some (.ok l, w') ∧
      call = ⟨d.implementation, props, ⟨d.name, scope.depth, scope.container, l⟩⟩ := by
  simp only [ready, bind_run_eq_ok]
  constructor
  · rintro ⟨d, w₁, hd, props, w₂, hprops, l, w₃, hl, h⟩
    cases h
    obtain ⟨hprepared, rfl⟩ := Prod.mk.inj (Option.some.inj hprops)
    exact ⟨d, w₁, props, l, hd, hprepared, hl, rfl⟩
  · rintro ⟨d, w₁, props, l, hd, hprops, hl, rfl⟩
    exact ⟨d, w₁, hd, props, w₁, congrArg (fun r => some (r, w₁)) hprops, l, w', hl, rfl⟩

/-- A type sees the container of its loop, whatever came before it there. -/
theorem ready_container (h : ready s scope spec w = some (.ok call, w')) :
    call.context.container = scope.container := by
  obtain ⟨d, w₁, props, l, -, -, -, rfl⟩ := ready_eq_ok.mp h
  rfl

/-- Where a layout decides a size, it has one. -/
theorem exists_solved (h : ready s scope spec w = some (.ok call, w')) {axis : Axis}
    (hconstrains : call.context.constrains axis = true) :
    ∃ x, call.context.solved? axis = some x := by
  obtain ⟨d, w₁, props, l, -, -, hl, rfl⟩ := ready_eq_ok.mp h
  cases l with
  | none => cases hconstrains
  | some l =>
    obtain ⟨g, o, -, ho, rfl⟩ := layout_eq_some hl
    exact Layout.exists_get?_of_solve ho (by cases axis <;> decide)

end

namespace Descent
variable {s : Surroundings φ α} {levels : Nat} {scope : Scope α} {spec : Spec φ α}
  {w : Workspace φ α} {enclosing : List (Level φ α)} {last : Call φ α}

/-- An axis that no layout on the way constrained is that of the outermost container. -/
theorem size?_of_unconstrained (h : Descent s levels scope spec w enclosing last) {axis : Axis}
    (hcontexts : ∀ e ∈ enclosing, e.asked = e.call.context.childContainer)
    (hfree : ∀ e ∈ enclosing, e.call.context.constrains axis = false) :
    axis.size? last.context.container = axis.size? scope.container := by
  induction h with
  | here _ hready => rw [ready_container hready]
  | child _ _ hready _ _ ih =>
    obtain ⟨hasked, hinner⟩ := List.forall_mem_cons.mp hcontexts
    obtain ⟨hhere, hfree⟩ := List.forall_mem_cons.mp hfree
    dsimp only at hasked hhere
    rw [ih hinner hfree, hasked, Context.size?_childContainer, hhere, ready_container hready]
    rfl

/-- An axis that some layout on the way constrained is what the nearest of them was solved to. -/
theorem size?_of_nearest (h : Descent s levels scope spec w enclosing last) {axis : Axis}
    (hcontexts : ∀ e ∈ enclosing, e.asked = e.call.context.childContainer)
    {outer inner : List (Level φ α)} {e : Level φ α} (hsplit : enclosing = outer ++ e :: inner)
    (hconstrains : e.call.context.constrains axis = true)
    (hfree : ∀ f ∈ inner, f.call.context.constrains axis = false) :
    ∃ x, e.call.context.solved? axis = some x ∧ axis.size? last.context.container = some x := by
  induction h generalizing outer with
  | here => simp at hsplit
  | child _ _ hready _ hrest ih =>
    obtain ⟨hasked, hcontexts⟩ := List.forall_mem_cons.mp hcontexts
    cases outer with
    | nil =>
      obtain ⟨rfl, rfl⟩ := List.cons.inj hsplit
      dsimp only at hasked hconstrains ⊢
      obtain ⟨x, hx⟩ := exists_solved hready hconstrains
      refine ⟨x, hx, ?_⟩
      rw [hrest.size?_of_unconstrained hcontexts hfree, hasked, Context.size?_childContainer,
        if_pos hconstrains, hx]
    | cons _ outer => exact ih hcontexts (List.cons.inj hsplit).2

end Descent

/-- The size that a call sees along an axis is the solved one of the nearest level above it whose
layout constrained that axis, and that of the outermost container where none did. Types that come of
one another in one loop see the same container, whatever their layouts are. -/
theorem containers_propagate (s : Surroundings φ α) :
    Engine.resolve s = nested s (below s s.stack.levels) 0 ∧
      (∀ levels scope spec w enclosing last, Descent s levels scope spec w enclosing last →
        (∀ e ∈ enclosing, e.asked = e.call.context.childContainer) → ∀ axis : Axis,
          (∀ outer e inner, enclosing = outer ++ e :: inner →
            e.call.context.constrains axis = true →
            (∀ f ∈ inner, f.call.context.constrains axis = false) →
            ∃ x, e.call.context.solved? axis = some x ∧
              axis.size? last.context.container = some x) ∧
          ((∀ e ∈ enclosing, e.call.context.constrains axis = false) →
            axis.size? last.context.container = axis.size? scope.container)) ∧
      ∀ levels scope spec w k t call k' t' call' w₁ w₂,
        Reaches s (below s levels) scope spec w k t → ready s scope t.1 t.2 = some (.ok call, w₁) →
        Reaches s (below s levels) scope spec w k' t' →
        ready s scope t'.1 t'.2 = some (.ok call', w₂) →
        call'.context.container = call.context.container := by
  refine ⟨engine_eq s, ?_, ?_⟩
  · intro levels scope spec w enclosing last h hcontexts axis
    refine ⟨fun outer e inner hsplit hconstrains hfree => ?_, fun hfree => ?_⟩
    · exact h.size?_of_nearest hcontexts hsplit hconstrains hfree
    · exact h.size?_of_unconstrained hcontexts hfree
  · intro levels scope spec w k t call k' t' call' w₁ w₂ _ hready _ hready'
    rw [ready_container hready, ready_container hready']

def tower : Surroundings String Exact where
  settings := ⟨64, (.fin 800, .fin 400), ⟨100, .fin (1 / 1000000), true⟩⟩
  backend := fun _ _ => .ok []
  meaning :=
    { compute := fun _ _ => .ok .null
      test := fun _ _ => true
      check := fun _ _ => .ok ()
      rules := fun code _ _ => [.fixed code (.fin 90) (.fin 1)]
      implement := fun code _ _ c =>
        if c.typeName = "leaf" then .ofDraft .empty
        else .child (.spec (.create code)) c.childContainer fun r => .finish (r.map .resolved) }

def column : Definition String Exact :=
  ⟨"column", [], .host "cell", none, [], some (.host "width")⟩

def cell : Definition String Exact := ⟨"cell", [], .host "leaf", none, [], none⟩

def leaf : Definition String Exact := ⟨"leaf", [], .host "leaf", none, [], none⟩

def stacked : Workspace String Exact :=
  ⟨[("cell", cell), ("column", column), ("leaf", leaf)], #[], 0⟩

def columnSystem : Layout.System Exact where
  solver :=
    { (Layout.System.start tower.settings.solving).solver with
      constraints := [⟨.fixed, [(⟨0, 2⟩, .fin 1)], .fin 90, .fin 1⟩] }
  names := [("width", ())]

def columnSize : Layout.Solution Exact :=
  ⟨[("height", .fin 0), ("width", .fin 90), ("x", .fin 0), ("y", .fin 0)], ["width"], true⟩

theorem solve_column (container : Option (Container Exact)) :
    Layout.solve tower.backend [.fixed "width" (.fin 90) (.fin 1)] container tower.settings =
      .ok ⟨columnSize, 1⟩ := by
  have horder : Solver.visitOrder columnSystem.solver.constraints =
      columnSystem.solver.constraints := List.mergeSort_singleton _
  refine Layout.solve_eq_ok.mpr ⟨columnSystem, rfl, ?_⟩
  rw [Layout.settle, Solver.solve, horder]
  with_unfolding_all rfl

def calling (d : Definition String Exact) (scope : Scope Exact)
    (l : Option (Layout.Solution Exact)) : Call String Exact :=
  ⟨d.implementation, [], ⟨d.name, scope.depth, scope.container, l⟩⟩

theorem ready_column (scope : Scope Exact) : ready tower scope (.create "column") stacked =
    some (.ok (calling column scope (some columnSize)), stacked) := by
  have hrules : tower.meaning.rules "width" [] ⟨"column", scope.container⟩ =
      [.fixed "width" (.fin 90) (.fin 1)] := rfl
  refine ready_eq_ok.mpr ⟨column, stacked, [], some columnSize, rfl, rfl, ?_, rfl⟩
  simp only [layout, column, Generator.rules, hrules, solve_column]
  rfl

def outermost : Scope Exact := ⟨0, some (.known (.fin 500) (.fin 300))⟩

def narrowed : Container Exact := .known (.fin 90) (.fin 300)

def columnLevel : Level String Exact :=
  ⟨column, calling column outermost (some columnSize), some narrowed⟩

def cellLevel : Level String Exact := ⟨cell, calling cell ⟨1, some narrowed⟩ none, some narrowed⟩

theorem descent_tower (levels : Nat) : Descent tower levels outermost (.create "column") stacked
    [columnLevel, cellLevel] (calling leaf ⟨2, some narrowed⟩ none) :=
  .child (.first (by decide) (by decide)) rfl (ready_column _) .child <|
    .child (.first (by decide) (by decide)) rfl rfl .child <|
      .here (.first (by decide) (by decide)) rfl

/-- The leaf sees the width of the column, two levels above, and the height of the root. -/
theorem tower_propagates :
    Descent tower tower.stack.levels outermost (.create "column") stacked
      [columnLevel, cellLevel] (calling leaf ⟨2, some narrowed⟩ none) ∧
    (∀ e ∈ [columnLevel, cellLevel], e.asked = e.call.context.childContainer) ∧
    (∃ x, columnLevel.call.context.solved? .width = some x ∧
      Axis.width.size? (some narrowed) = some x) ∧
    Axis.height.size? (some narrowed) = Axis.height.size? outermost.container ∧
    ∀ k t call w, Reaches tower (below tower tower.stack.levels) outermost (.create "column")
        stacked k t → ready tower outermost t.1 t.2 = some (.ok call, w) →
      call.context.container = outermost.container := by
  have hcontexts : ∀ e ∈ [columnLevel, cellLevel], e.asked = e.call.context.childContainer :=
    List.forall_mem_cons.mpr ⟨rfl, List.forall_mem_singleton.mpr rfl⟩
  have hdescent := descent_tower tower.stack.levels
  have haxes := (containers_propagate tower).2.1 _ _ _ _ _ _ hdescent hcontexts
  refine ⟨hdescent, hcontexts, (haxes .width).1 [] columnLevel [cellLevel] rfl rfl ?_,
    (haxes .height).2 ?_, fun k t call w hreaches hready => ?_⟩
  · exact List.forall_mem_singleton.mpr rfl
  · exact List.forall_mem_cons.mpr ⟨rfl, List.forall_mem_singleton.mpr rfl⟩
  · have hfirst : Reaches tower (below tower tower.stack.levels) outermost (.create "column")
        stacked 1 (.create "column", stacked) := .first (by decide) (by decide)
    exact (containers_propagate tower).2.2 tower.stack.levels _ _ _ _ _ _ _ _ _ _ _ hfirst
      (ready_column _) hreaches hready

end Resolution
end Scene
