import Scene.Proofs.Define.Suits
import Scene.Proofs.Layout.Taken
import Scene.Proofs.Resolution.Descent

/-! Frames and groups inside one another. A group hands on the container that it sees, a frame what
its padding leaves of it, and in exact numbers what a child sees at the end is what all paddings on
the way leave of the outermost size, up to one tolerance. -/
namespace Scene
open Resolve
variable {φ α : Type}

namespace Script
variable {child anew : Resolver φ α} {w w' : Workspace φ α} {q : Request φ α}

theorem not_asks_finish {r : Except (ResolveError α) (Visual φ α)} :
    ¬(Script.finish r).Asks child anew w q w' := by
  intro h
  cases h

theorem not_asks_ofDraft {d : Draft φ α} : ¬(ofDraft d).Asks child anew w q w' := by
  intro h
  cases h with
  | afterBuild hnext => exact not_asks_finish hnext

theorem asks_first {container : Option (Container α)} {x : Value φ α} {xs : List (Value φ α)}
    {next : List (Renderable φ α) → Script φ α} {v : Visual φ α} (hx : Visual.ofValue? x = .ok v) :
    (childrenOfValues container (x :: xs) next).Asks child anew w (.child v container) w := by
  rw [childrenOfValues, childOfValue, hx]
  exact .child

/-- Children that are listed as values are all asked for in one container. -/
theorem Asks.of_childrenOfValues {container : Option (Container α)} {xs : List (Value φ α)}
    {next : List (Renderable φ α) → Script φ α}
    (h : (childrenOfValues container xs next).Asks child anew w q w') :
    (∃ v, q = .child v container) ∨ ∃ rs w₁, (next rs).Asks child anew w₁ q w' := by
  induction xs generalizing next w with
  | nil => exact .inr ⟨[], w, h⟩
  | cons x xs ih =>
    rw [childrenOfValues, childOfValue] at h
    cases hx : Visual.ofValue? x with
    | error e =>
      rw [hx] at h
      exact absurd h not_asks_finish
    | ok v =>
      rw [hx] at h
      cases h with
      | child => exact .inl ⟨v, rfl⟩
      | @afterChild _ _ _ _ r _ _ _ _ hnext =>
        cases r with
        | error e => exact absurd hnext not_asks_finish
        | ok r =>
          obtain hchild | ⟨rs, w₁, hasks⟩ := ih hnext
          · exact .inl hchild
          · exact .inr ⟨r :: rs, w₁, hasks⟩

end Script

namespace Resolution
variable [Scalar α] {s : Surroundings φ α} {levels : Nat} {scope : Scope α} {spec : Spec φ α}
  {w₀ w₁ w₂ : Workspace φ α} {call : Call φ α} {child anew : Resolver φ α} {v : Visual φ α}
  {container : Option (Container α)}

/-- What the call of a registered type went through. -/
theorem ready_of_lookup {d : Definition φ α} (hlookup : lookup spec.typeName w₀ = some (.ok d, w₀))
    (hready : ready s scope spec w₀ = some (.ok call, w₁)) :
    ∃ props l, prepare s d spec.props = .ok props ∧
      layout s d props scope.container w₀ = some (.ok l, w₁) ∧
      call = ⟨d.implementation, props, ⟨d.name, scope.depth, scope.container, l⟩⟩ := by
  obtain ⟨d', w', props, l, hd, hprops, hl, rfl⟩ := ready_eq_ok.mp hready
  rw [hlookup] at hd
  cases hd
  exact ⟨props, l, hprops, hl, rfl⟩

/-- A group asks for its children in the container that it sees. -/
theorem group_asks (hlookup : lookup spec.typeName w₀ = some (.ok Shape.group.definition, w₀))
    (hready : ready s scope spec w₀ = some (.ok call, w₁))
    (hasks : (call.script s.meaning).Asks child anew w₁ (.child v container) w₂) :
    container = scope.container := by
  obtain ⟨props, l, -, hl, rfl⟩ := ready_of_lookup hlookup hready
  obtain rfl : none = l := by cases hl; rfl
  obtain ⟨v, hv⟩ | ⟨rs, w, hnext⟩ := Script.Asks.of_childrenOfValues hasks
  · cases hv
    rfl
  · exact absurd hnext Script.not_asks_ofDraft

/-- A frame asks for its children in what its padding leaves of its size. -/
theorem frame_asks [Scalar.Sizing α]
    (hlookup : lookup spec.typeName w₀ = some (.ok Shape.frame.definition, w₀))
    (hready : ready s scope spec w₀ = some (.ok call, w₁))
    (hasks : (call.script s.meaning).Asks child anew w₁ (.child v container) w₂) :
    Scalar.zero ≤ Primitive.number call.props "padding" ∧
      ∃ o, Layout.solve s.backend [.fit none] scope.container s.settings = .ok o ∧
        container = some (Shape.inner o.solution (Primitive.number call.props "padding")) := by
  obtain ⟨props, l, hprops, hl, rfl⟩ := ready_of_lookup hlookup hready
  cases l with
  | none => exact absurd hasks Script.not_asks_finish
  | some l =>
    obtain ⟨g, o, hg, ho, rfl⟩ := layout_eq_some hl
    cases hg
    obtain ⟨v, hv⟩ | ⟨rs, w, hnext⟩ := Script.Asks.of_childrenOfValues hasks
    · cases hv
      refine ⟨Shape.zero_le_padding (m := s.meaning) ?_, o, ho, rfl⟩
      simp only [prepare, bind_eq_ok] at hprops
      obtain ⟨_, -, _, -, _, hvalid, hprops⟩ := hprops
      cases hprops
      exact hvalid
    · exact absurd hnext Script.not_asks_finish

def Level.padding? (e : Level φ α) : Option α :=
  match e.call.implementation with
  | .shape .frame => some (Primitive.number e.call.props "padding")
  | _ => none

def paddings (enclosing : List (Level φ α)) : List α := enclosing.filterMap Level.padding?

def total (ps : List α) : α := ps.foldr (· + ·) Scalar.zero

theorem paddings_cons_group {e : Level φ α} (he : e.call.implementation = .shape .group)
    (enclosing : List (Level φ α)) : paddings (e :: enclosing) = paddings enclosing :=
  List.filterMap_cons_none (by rw [Level.padding?, he])

theorem paddings_cons_frame {e : Level φ α} (he : e.call.implementation = .shape .frame)
    (enclosing : List (Level φ α)) :
    paddings (e :: enclosing) = Primitive.number e.call.props "padding" :: paddings enclosing :=
  List.filterMap_cons_some (by rw [Level.padding?, he])

end Resolution

def Axis.of : Axis → α × α → α
  | .width, size => size.1
  | .height, size => size.2

namespace Resolution
open Layout
variable {s : Surroundings φ Exact} {levels : Nat} {scope : Scope Exact} {spec : Spec φ Exact}
  {w : Workspace φ Exact} {enclosing : List (Level φ Exact)} {last : Call φ Exact}

def outerSize (s : Surroundings φ Exact) (scope : Scope Exact) : Exact × Exact :=
  pickSize none scope.container s.settings.container

theorem of_outerSize {axis : Axis} {x : Exact} (h : axis.size? scope.container = some x) :
    axis.of (outerSize s scope) = x := by
  obtain ⟨depth, _ | ⟨width, height⟩⟩ := scope
  · cases axis <;> cases h
  · cases axis <;> obtain rfl : _ = some x := h <;> rfl

/-- What a frame leaves of its container, axis by axis. -/
theorem frame_leaves {o : Outcome Exact} {p : Exact} (hp : Scalar.zero ≤ p)
    (hepsilon : Scalar.zero ≤ s.settings.solving.epsilon)
    (hpasses : 1 ≤ s.settings.solving.maxIterations)
    (hsize : ∀ axis : Axis, Scalar.zero ≤ axis.of (outerSize s scope))
    (ho : solve s.backend [.fit none] scope.container s.settings = .ok o) (axis : Axis) :
    ∃ q a, axis.of (outerSize s scope) = .fin q ∧ 0 ≤ q ∧
      taken s.settings.solving.epsilon (.fin 0) (.fin q) = .fin a ∧
      axis.size? (some (Shape.inner o.solution p)) = some (.fin (inset a p)) := by
  obtain ⟨hwidth, hheight⟩ := isFinite_of_solve_fit ho
  obtain ⟨w, hw⟩ := Exact.exists_fin_of_isFinite hwidth
  obtain ⟨h, hh⟩ := Exact.exists_fin_of_isFinite hheight
  have hw₀ : 0 ≤ w := Exact.fin_le.mp (hw ▸ hsize .width)
  have hh₀ : 0 ≤ h := Exact.fin_le.mp (hh ▸ hsize .height)
  rw [solve_fit_exact s.backend hepsilon hpasses hw₀ hh₀ (Prod.ext hw hh)] at ho
  cases ho
  cases axis with
  | width =>
    obtain ⟨a, ha, -⟩ := exists_taken hepsilon 0 w
    refine ⟨w, a, hw, hw₀, ha, ?_⟩
    change some (Scalar.nonNegative (taken s.settings.solving.epsilon (.fin 0) (.fin w) - _)) = _
    rw [ha, nonNegative_sub hp]
  | height =>
    obtain ⟨a, ha, -⟩ := exists_taken hepsilon 0 h
    refine ⟨h, a, hh, hh₀, ha, ?_⟩
    change some (Scalar.nonNegative (taken s.settings.solving.epsilon (.fin 0) (.fin h) - _)) = _
    rw [ha, nonNegative_sub hp]

theorem zero_le_total {ps : List Exact} (h : ∀ p ∈ ps, Scalar.zero ≤ p) :
    Scalar.zero ≤ total ps := by
  induction ps with
  | nil => exact Exact.fin_le.mpr (le_refl 0)
  | cons p ps ih =>
    obtain ⟨hp, hps⟩ := List.forall_mem_cons.mp h
    exact zero_le_add hp (ih hps)

theorem zero_le_paddings (h : Descent s levels scope spec w enclosing last)
    (hnest : ∀ e ∈ enclosing, e.definition = Shape.group.definition ∨
      e.definition = Shape.frame.definition) :
    ∀ p ∈ paddings enclosing, Scalar.zero ≤ p := by
  induction h with
  | here => exact List.forall_mem_nil _
  | child hreaches hlookup hready hasks hrest ih =>
    obtain ⟨hhere, hinner⟩ := List.forall_mem_cons.mp hnest
    obtain rfl | rfl := hhere
    · obtain ⟨props, l, -, -, rfl⟩ := ready_of_lookup hlookup hready
      rw [paddings_cons_group rfl]
      exact ih hinner
    · obtain ⟨hp, -⟩ := frame_asks hlookup hready hasks
      obtain ⟨props, l, -, -, rfl⟩ := ready_of_lookup hlookup hready
      rw [paddings_cons_frame rfl]
      exact List.forall_mem_cons.mpr ⟨hp, ih hinner⟩

/-- What is seen along an axis below some paddings: the container of the scope where there are none,
and otherwise what they leave of its size. -/
def Leaves (s : Surroundings φ Exact) (scope : Scope Exact) (axis : Axis) (ps : List Exact)
    (seen : Option (Container Exact)) : Prop :=
  ps = [] ∧ axis.size? seen = axis.size? scope.container ∨
    ∃ q x, axis.of (outerSize s scope) = .fin q ∧ axis.size? seen = some x ∧
      EndsAt s.settings.solving.epsilon q (total ps) x

section
variable {o : Outcome Exact} {p : Exact} (hp : Scalar.zero ≤ p)
  (hepsilon : Scalar.zero ≤ s.settings.solving.epsilon)
  (hpasses : 1 ≤ s.settings.solving.maxIterations)
  (hsize : ∀ axis : Axis, Scalar.zero ≤ axis.of (outerSize s scope))
  (ho : solve s.backend [.fit none] scope.container s.settings = .ok o)
include hp hepsilon hpasses hsize ho

theorem zero_le_outerSize_inner (depth : Nat) (axis : Axis) :
    Scalar.zero ≤ axis.of (outerSize s ⟨depth, some (Shape.inner o.solution p)⟩) := by
  obtain ⟨q, a, -, -, -, hinset⟩ := frame_leaves hp hepsilon hpasses hsize ho axis
  rw [of_outerSize hinset]
  exact Exact.fin_le.mpr zero_le_inset

/-- One more frame on the outside. -/
theorem Leaves.frame {depth : Nat} {axis : Axis} {ps : List Exact} (hps : ∀ p ∈ ps, Scalar.zero ≤ p)
    {seen : Option (Container Exact)}
    (h : Leaves s ⟨depth, some (Shape.inner o.solution p)⟩ axis ps seen) :
    Leaves s scope axis (p :: ps) seen := by
  obtain ⟨q, a, hq, hq₀, ha, hinset⟩ := frame_leaves hp hepsilon hpasses hsize ho axis
  obtain ⟨x, hx, hends⟩ : ∃ x, axis.size? seen = some x ∧
      EndsAt s.settings.solving.epsilon (inset a p) (total ps) x := by
    obtain ⟨rfl, hsame⟩ | ⟨q', x, hq', hx, hends⟩ := h
    · refine ⟨_, hsame.trans hinset, .inl ?_⟩
      rw [total, List.foldr_nil, inset_nothing zero_le_inset]
    · obtain rfl := Exact.fin.inj ((of_outerSize hinset).symm.trans hq')
      exact ⟨x, hx, hends⟩
  exact .inr ⟨q, x, hq, hx, hends.of_taken hq₀ hp (zero_le_total hps) ha⟩

end

/-- Groups leave everything, and frames what their paddings leave. -/
theorem Descent.leaves (h : Descent s levels scope spec w enclosing last)
    (hepsilon : Scalar.zero ≤ s.settings.solving.epsilon)
    (hpasses : 1 ≤ s.settings.solving.maxIterations)
    (hnest : ∀ e ∈ enclosing, e.definition = Shape.group.definition ∨
      e.definition = Shape.frame.definition)
    (hsize : ∀ axis : Axis, Scalar.zero ≤ axis.of (outerSize s scope)) (axis : Axis) :
    Leaves s scope axis (paddings enclosing) last.context.container := by
  induction h with
  | here _ hready => exact .inl ⟨rfl, by rw [ready_container hready]⟩
  | child hreaches hlookup hready hasks hrest ih =>
    obtain ⟨hhere, hinner⟩ := List.forall_mem_cons.mp hnest
    obtain rfl | rfl := hhere
    · obtain rfl := group_asks hlookup hready hasks
      obtain ⟨props, l, -, -, rfl⟩ := ready_of_lookup hlookup hready
      rw [paddings_cons_group rfl]
      exact ih hinner hsize
    · obtain ⟨hp, o, ho, rfl⟩ := frame_asks hlookup hready hasks
      obtain ⟨props, l, -, -, rfl⟩ := ready_of_lookup hlookup hready
      rw [paddings_cons_frame rfl]
      have hbelow := ih hinner (zero_le_outerSize_inner hp hepsilon hpasses hsize ho _)
      exact hbelow.frame hp hepsilon hpasses hsize ho (zero_le_paddings hrest hinner)

/-- In exact numbers frames shrink a container by their paddings: below frames and groups that nest
one another, at least one of them a frame, a child sees along each axis what all paddings together
leave of the outermost size, within one tolerance. -/
theorem nested_frames_shrink (s : Surroundings φ Exact)
    (hepsilon : Scalar.zero ≤ s.settings.solving.epsilon)
    (hpasses : 1 ≤ s.settings.solving.maxIterations) (levels : Nat) (scope : Scope Exact)
    (spec : Spec φ Exact) (w : Workspace φ Exact) (enclosing : List (Level φ Exact))
    (last : Call φ Exact) (h : Descent s levels scope spec w enclosing last)
    (hnest : ∀ e ∈ enclosing, e.definition = Shape.group.definition ∨
      e.definition = Shape.frame.definition)
    (hframes : paddings enclosing ≠ [])
    (hsize : ∀ axis : Axis, Scalar.zero ≤
      axis.of (pickSize none scope.container s.settings.container)) (axis : Axis) :
    ∃ x, axis.size? last.context.container = some x ∧
      Scalar.abs (x - Scalar.nonNegative
        (axis.of (pickSize none scope.container s.settings.container) -
          Scalar.ofNat 2 * total (paddings enclosing))) ≤ s.settings.solving.epsilon := by
  obtain ⟨hnone, -⟩ | ⟨q, x, hq, hx, hends⟩ := h.leaves hepsilon hpasses hnest hsize axis
  · exact absurd hnone hframes
  · have htotal := zero_le_total (zero_le_paddings h hnest)
    change axis.of (pickSize none scope.container s.settings.container) = .fin q at hq
    refine ⟨x, hx, ?_⟩
    rw [hq, nonNegative_sub htotal]
    exact hends.near hepsilon

def plainly : Surroundings Empty Exact where
  settings := .standard
  backend := fun _ _ => .ok []
  meaning := .none

def framing : Workspace Empty Exact :=
  ⟨[("frame", Shape.frame.definition), ("group", Shape.group.definition)], #[], 0⟩

def nesting (shape : Shape) (padding : Rat) (inner : Spec Empty Exact) : Spec Empty Exact :=
  ⟨shape.name, [("children", .array [inner.toValue]), ("padding", .number (.fin padding))]⟩

def innermost : Spec Empty Exact := nesting .frame 5 (.create "group")
def between : Spec Empty Exact := nesting .group 0 innermost
def matted : Spec Empty Exact := nesting .frame 8 between

def inSize (depth : Nat) (width height : Rat) : Scope Exact :=
  ⟨depth, some (.known (.fin width) (.fin height))⟩

theorem zero_le_epsilon : Scalar.zero ≤ plainly.settings.solving.epsilon := by decide +kernel

def callOf (shape : Shape) (spec : Spec Empty Exact) (scope : Scope Exact)
    (l : Option (Solution Exact)) : Call Empty Exact :=
  ⟨.shape shape, shape.completed spec.props, ⟨shape.name, scope.depth, scope.container, l⟩⟩

def frameCall (spec : Spec Empty Exact) (depth : Nat) (width height : Rat) : Call Empty Exact :=
  callOf .frame spec (inSize depth width height)
    (some (takenSolution plainly.settings.solving.epsilon (.fin width, .fin height)))

theorem ready_framed {spec : Spec Empty Exact} {width height : Rat} (depth : Nat)
    (htype : spec.typeName = "frame")
    (hprepare : prepare plainly Shape.frame.definition spec.props =
      .ok (Shape.frame.completed spec.props))
    (hw : 0 ≤ width) (hh : 0 ≤ height) :
    ready plainly (inSize depth width height) spec framing =
      some (.ok (frameCall spec depth width height), framing) := by
  have hsize : pickSize none (inSize depth width height).container plainly.settings.container =
      (.fin width, .fin height) := rfl
  have hsolve := solve_fit_exact plainly.backend zero_le_epsilon (by decide) hw hh hsize
  refine ready_eq_ok.mpr ⟨Shape.frame.definition, framing, _, _, htype ▸ rfl, hprepare, ?_, rfl⟩
  simp only [layout, Shape.definition, Generator.rules, if_true, hsolve]
  rfl

theorem asks_framed {child anew : Resolver Empty Exact} {spec : Spec Empty Exact}
    {depth : Nat} {width height : Rat} {container : Container Exact} (padding : Rat)
    (inner : Spec Empty Exact)
    (hchildren : Dict.get? spec.props "children" = some (.array [inner.toValue]))
    (hread : Visual.ofValue? inner.toValue = .ok (.spec inner))
    (hpadding : Primitive.number (Shape.frame.completed spec.props) "padding" = .fin padding)
    (hinner : Shape.inner (takenSolution plainly.settings.solving.epsilon
      (.fin width, .fin height)) (.fin padding) = container) :
    ((frameCall spec depth width height).script plainly.meaning).Asks child anew framing
      (.child (.spec inner) (some container)) framing := by
  change (Script.childrenOfValues
    (some (Shape.inner _ (Primitive.number (Shape.frame.completed spec.props) "padding")))
    (Script.listed (Dict.get? (Shape.frame.completed spec.props) "children")) _).Asks
      child anew framing _ framing
  rw [Shape.children_completed, hchildren, hpadding, hinner]
  exact Script.asks_first hread

theorem inner_matted : Shape.inner (takenSolution plainly.settings.solving.epsilon
    (.fin 200, .fin 100)) (.fin 8) = .known (.fin 184) (.fin 84) := by
  simp only [Shape.inner, Container.known, Container.mk.injEq]
  decide +kernel

theorem inner_innermost : Shape.inner (takenSolution plainly.settings.solving.epsilon
    (.fin 184, .fin 84)) (.fin 5) = .known (.fin 174) (.fin 74) := by
  simp only [Shape.inner, Container.known, Container.mk.injEq]
  decide +kernel

def mattedLevels : List (Level Empty Exact) :=
  [⟨Shape.frame.definition, frameCall matted 0 200 100, (inSize 1 184 84).container⟩,
    ⟨Shape.group.definition, callOf .group between (inSize 1 184 84) none,
      (inSize 2 184 84).container⟩,
    ⟨Shape.frame.definition, frameCall innermost 2 184 84, (inSize 3 174 74).container⟩]

def mattedChild : Call Empty Exact := callOf .group (.create "group") (inSize 3 174 74) none

theorem descent_matted (levels : Nat) :
    Descent plainly levels (inSize 0 200 100) matted framing mattedLevels mattedChild := by
  have houter {child anew : Resolver Empty Exact} :
      ((frameCall matted 0 200 100).script plainly.meaning).Asks child anew framing
        (.child (.spec between) (inSize 1 184 84).container) framing :=
    asks_framed 8 between rfl rfl rfl inner_matted
  have hbetween {child anew : Resolver Empty Exact} :
      ((callOf .group between (inSize 1 184 84) none).script plainly.meaning).Asks child anew
        framing (.child (.spec innermost) (inSize 2 184 84).container) framing := by
    have hscript : (callOf .group between (inSize 1 184 84) none).script plainly.meaning =
        .childrenOfValues (inSize 2 184 84).container
          (Script.listed (Dict.get? (Shape.group.completed between.props) "children")) fun rs =>
            .ofDraft (Shape.group.draft
              (Shape.withChildren (Shape.group.completed between.props) rs)) := rfl
    rw [hscript, Shape.children_completed]
    exact Script.asks_first (x := innermost.toValue) rfl
  have hinner {child anew : Resolver Empty Exact} :
      ((frameCall innermost 2 184 84).script plainly.meaning).Asks child anew framing
        (.child (.spec (.create "group")) (inSize 3 174 74).container) framing :=
    asks_framed 5 (.create "group") rfl rfl rfl inner_innermost
  refine .child (.first (by decide) (by decide)) rfl (ready_framed 0 rfl rfl ?_ ?_) houter <|
    .child (.first (by decide) (by decide)) rfl rfl hbetween <|
    .child (.first (by decide) (by decide)) rfl (ready_framed 2 rfl rfl ?_ ?_) hinner <|
    .here (.first (by decide) (by decide)) rfl
  all_goals norm_num

/-- Two paddings and one tolerance. -/
theorem matted_shrinks :
    Descent plainly plainly.stack.levels (inSize 0 200 100) matted framing mattedLevels
      mattedChild ∧
    (∀ e ∈ mattedLevels, e.definition = Shape.group.definition ∨
      e.definition = Shape.frame.definition) ∧ paddings mattedLevels = [.fin 8, .fin 5] ∧
    ∃ x, Axis.width.size? mattedChild.context.container = some x ∧
      Scalar.abs (x - Scalar.nonNegative
        (Exact.fin 200 - Scalar.ofNat 2 * total [.fin 8, .fin 5])) ≤
          plainly.settings.solving.epsilon := by
  have hnest : ∀ e ∈ mattedLevels, e.definition = Shape.group.definition ∨
      e.definition = Shape.frame.definition :=
    List.forall_mem_cons.mpr ⟨.inr rfl, List.forall_mem_cons.mpr
      ⟨.inl rfl, List.forall_mem_singleton.mpr (.inr rfl)⟩⟩
  have hsize (axis : Axis) : Scalar.zero ≤ axis.of (pickSize none (inSize 0 200 100).container
      plainly.settings.container) := by
    cases axis <;> decide +kernel
  have hdescent := descent_matted plainly.stack.levels
  exact ⟨hdescent, hnest, rfl, nested_frames_shrink plainly zero_le_epsilon (by decide)
    _ _ _ _ _ _ hdescent hnest (List.cons_ne_nil _ _) hsize .width⟩

end Resolution
end Scene
