import Scene.Proofs.Layout.Fit
import Scene.Proofs.Resolution.Scenes
import Scene.Proofs.Scalar.Doubles
import Scene.Solver.Exact

/-! The room that scenes need. Nesting takes room level by level, and a frame takes it twice, so a
scene resolves exactly where there is room for its height, and nothing but a lack of room can fail
it. -/
namespace Scene
open Resolve Resolution
variable {φ α β γ : Type}

namespace Resolve
variable {R : Registry φ α} {limit : Nat} {fits fits' : Prop} {P : β → Prop} {Q : γ → Prop}

def Decided (R : Registry φ α) (limit : Nat) (x : Resolve φ α β) (fits : Prop) (P : β → Prop) :
    Prop :=
  ∀ w, w.registry = R → ∃ r w', x w = some (r, w') ∧ w'.registry = R ∧
    match r with
    | .ok b => fits ∧ P b
    | .error e => ¬fits ∧ ∃ name, e = .depthExceeded name limit

namespace Decided

theorem pure {b : β} (h : P b) : Decided R limit (Pure.pure b) True P :=
  fun w hw => ⟨.ok b, w, rfl, hw, trivial, h⟩

theorem tooDeep (name : String) :
    Decided R limit (MonadExcept.throw (.depthExceeded name limit) : Resolve φ α β) False P :=
  fun w hw => ⟨.error _, w, rfl, hw, id, name, rfl⟩

theorem get : Decided R limit (MonadState.get : Resolve φ α (Workspace φ α)) True
    (·.registry = R) :=
  fun w hw => ⟨.ok w, w, rfl, hw, trivial, hw⟩

theorem freshNode : Decided R limit (Resolve.freshNode : Resolve φ α Nat) True fun _ => True :=
  fun _ hw => ⟨.ok _, _, rfl, hw, trivial, trivial⟩

theorem warn (ws : List Warning) :
    Decided R limit (Resolve.warn ws : Resolve φ α Unit) True fun _ => True :=
  fun _ hw => ⟨.ok _, _, rfl, hw, trivial, trivial⟩

theorem congr {x : Resolve φ α β} (hx : Decided R limit x fits P) (h : fits ↔ fits') :
    Decided R limit x fits' P := by
  rwa [← propext h]

theorem bind {x : Resolve φ α β} {f : β → Resolve φ α γ} (hx : Decided R limit x fits P)
    (hf : ∀ b, P b → Decided R limit (f b) fits' Q) :
    Decided R limit (x >>= f) (fits ∧ fits') Q := by
  intro w hw
  obtain ⟨r, w', hr, hw', hdecided⟩ := hx w hw
  rw [bind_run, hr]
  cases r with
  | error e => exact ⟨.error e, w', rfl, hw', fun h => hdecided.1 h.1, hdecided.2⟩
  | ok b =>
    obtain ⟨hfits, hb⟩ := hdecided
    obtain ⟨r, w'', hr', hw'', hdecided'⟩ := hf b hb w' hw'
    refine ⟨r, w'', hr', hw'', ?_⟩
    cases r with
    | error e => exact ⟨fun h => hdecided'.1 h.2, hdecided'.2⟩
    | ok c => exact ⟨⟨hfits, hdecided'.1⟩, hdecided'.2⟩

/-- What follows a run that needs no room decides. -/
theorem andThen {x : Resolve φ α β} {f : β → Resolve φ α γ} (hx : Decided R limit x True P)
    (hf : ∀ b, P b → Decided R limit (f b) fits Q) : Decided R limit (x >>= f) fits Q :=
  (hx.bind hf).congr (iff_of_eq (true_and _))

/-- What needs no room may follow. -/
theorem withRest {x : Resolve φ α β} {f : β → Resolve φ α γ} (hx : Decided R limit x fits P)
    (hf : ∀ b, P b → Decided R limit (f b) True Q) : Decided R limit (x >>= f) fits Q :=
  (hx.bind hf).congr (iff_of_eq (and_true _))

/-- A failure that is met as a value is passed on. -/
theorem attempt {x : Resolve φ α β} {f : Except (ResolveError α) β → Resolve φ α γ}
    (hx : Decided R limit x fits P) (hf : ∀ b, P b → Decided R limit (f (.ok b)) fits' Q)
    (hfail : ∀ e w, f (.error e) w = some (.error e, w)) :
    Decided R limit (Resolve.attempt x >>= f) (fits ∧ fits') Q := by
  have hpass : Decided R limit (x >>= fun b => f (.ok b)) (fits ∧ fits') Q := hx.bind hf
  intro w hw
  obtain ⟨r, w', hr, -⟩ := hx w hw
  have hsame : (Resolve.attempt x >>= f) w = (x >>= fun b => f (.ok b)) w := by
    rw [bind_run, attempt_run hr, bind_run, hr]
    cases r with
    | ok b => rfl
    | error e => exact hfail e w'
  rw [hsame]
  exact hpass w hw

end Decided
end Resolve

/-- What a padding leaves of a finite size is finite. -/
theorem Shape.inner_isFinite [Scalar α] [Scalar.Sizing α] {l : Layout.Solution α} {padding : α}
    (hwidth : Layout.IsSize l.width) (hheight : Layout.IsSize l.height)
    (hpadding : Scalar.zero ≤ padding) : (inner l padding).IsFinite where
  width w hw := by
    cases hw
    exact Scalar.isFinite_nonNegative hwidth.1 hwidth.2 hpadding
  height h hh := by
    cases hh
    exact Scalar.isFinite_nonNegative hheight.1 hheight.2 hpadding

namespace Resolution
variable [Scalar α] {s : Surroundings φ α} {R : Registry φ α} {child anew : Resolver φ α}
  {scope : Scope α} {spec : Spec φ α} {shape : Shape} {limit room : Nat} {Q : Visual φ α → Prop}

def Bounded (container : Option (Container α)) : Prop := ∀ c ∈ container, c.IsFinite

/-- Resolves scenes up to a height, and no others. -/
def UpTo (s : Surroundings φ α) (R : Registry φ α) (room : Nat) (resolver : Resolver φ α) : Prop :=
  ∀ v container, v.IsScene s.meaning → Bounded container →
    Decided R s.settings.maxDepth (resolver v container) (v.height ≤ room) fun _ => True

structure LaidOut (shape : Shape) (l : Option (Layout.Solution α)) : Prop where
  frame : shape = .frame →
    ∃ solution, l = some solution ∧ Layout.IsSize solution.width ∧ Layout.IsSize solution.height
  other : shape ≠ .frame → l = none

structure Calls (shape : Shape) (scope : Scope α) (props : Props φ α) (call : Call φ α) : Prop where
  implementation_eq : call.implementation = .shape shape
  props_eq : call.props = shape.completed props
  container_eq : call.context.container = scope.container
  laidOut : LaidOut shape call.context.layout

def Expands (m : Meaning φ α) (shape : Shape) : Visual φ α → Prop
  | .resolved _ => shape ≠ .frame
  | .spec next => shape = .frame ∧ next.typeName = Shape.group.name ∧
      (Visual.spec next).IsScene m ∧ next.tallest ≤ 1

omit [Scalar α] in
theorem lookup_decided {name : String} {d : Definition φ α} (h : Dict.get? R name = some d) :
    Decided R limit (lookup name) True (· = d) := by
  refine .andThen .get fun w hw => ?_
  rw [hw, h]
  exact .pure rfl

theorem layout_decided [Scalar.Sizing α] (hdefault : Scalar.isFinite s.settings.container.1 = true ∧
      Scalar.isFinite s.settings.container.2 = true) {container : Option (Container α)}
    (hcontainer : Bounded container) (shape : Shape) (props : Props φ α) :
    Decided R limit (layout s shape.definition props container) True (LaidOut shape) := by
  by_cases hshape : shape = .frame
  · obtain ⟨o, ho, hwidth, hheight⟩ := Layout.solve_fit s.backend hcontainer hdefault
    have hfit : (shape.definition (φ := φ) (α := α)).layout? = some .fit := if_pos hshape
    have hlaid : LaidOut shape (some o.solution) :=
      ⟨fun _ => ⟨_, rfl, hwidth, hheight⟩, fun hother => absurd hshape hother⟩
    rw [layout, hfit]
    simp only [Generator.rules, ho]
    split
    · exact .andThen (.warn _) fun _ _ => .pure hlaid
    · exact .pure hlaid
  · have hnone : (shape.definition (φ := φ) (α := α)).layout? = none := if_neg hshape
    rw [layout, hnone]
    exact .pure ⟨fun h => absurd h hshape, fun _ => rfl⟩

theorem ready_decided [Scalar.Sizing α] (hR : R.Stocked)
    (hdefault : Scalar.isFinite s.settings.container.1 = true ∧
      Scalar.isFinite s.settings.container.2 = true) (hcontainer : Bounded scope.container)
    (htype : spec.typeName = shape.name) (hsuits : shape.Suits s.meaning spec.props) :
    Decided R limit (ready s scope spec) True (Calls shape scope spec.props) := by
  refine .andThen (lookup_decided (htype ▸ hR shape)) fun d hd => ?_
  subst hd
  rw [hsuits.prepare]
  refine .andThen (P := (· = shape.completed spec.props)) (.pure rfl) fun props hprops => ?_
  refine .andThen (layout_decided hdefault hcontainer shape props) fun l hl => .pure ?_
  exact ⟨rfl, hprops, rfl, hl⟩

theorem run_ofDraft_decided (h : shape ≠ .frame) (d : Draft φ α) :
    Decided R limit ((Script.ofDraft d).run child anew) True (Expands s.meaning shape) :=
  .andThen .freshNode fun _ _ => .pure h

/-- Children that are listed as values need the room that the tallest of them needs. -/
theorem run_childrenOfValues_decided (hchild : UpTo s R room child)
    {container : Option (Container α)} (hcontainer : Bounded container) {xs : List (Value φ α)}
    (hxs : ∀ x ∈ xs, ∃ v, Visual.ofValue? x = .ok v ∧ v.IsScene s.meaning)
    {next : List (Renderable φ α) → Script φ α}
    (hnext : ∀ rs, Decided R s.settings.maxDepth ((next rs).run child anew) True Q) :
    Decided R s.settings.maxDepth ((Script.childrenOfValues container xs next).run child anew)
      (tallest xs ≤ room) Q := by
  induction xs generalizing next with
  | nil => exact (hnext []).congr (iff_of_true trivial (Nat.zero_le room))
  | cons x xs ih =>
    obtain ⟨⟨v, hv, hscene⟩, hrest⟩ := List.forall_mem_cons.mp hxs
    rw [Script.childrenOfValues, Script.childOfValue, hv]
    refine (Decided.attempt (hchild v container hscene hcontainer)
      (fun r _ => ih hrest fun rs => hnext (r :: rs)) fun e w => rfl).congr ?_
    rw [tallest, Value.height_eq hv, Nat.max_le]

theorem exists_shape_of_isScene (h : (Visual.spec spec).IsScene s.meaning) :
    ∃ shape : Shape, spec.typeName = shape.name := by
  cases h with
  | spec htype => exact ⟨_, htype⟩

/-- What a scene nests is there to be resolved. -/
theorem exists_of_isScene (h : (Visual.spec spec).IsScene s.meaning)
    (htype : spec.typeName = shape.name) : shape.Suits s.meaning spec.props ∧
      (shape.nests = true → ∀ x ∈ Script.listed (Dict.get? spec.props "children"),
        ∃ v, Visual.ofValue? x = .ok v ∧ v.IsScene s.meaning) := by
  cases h with
  | @spec _ shape' htype' hsuits hreads hnested =>
    obtain rfl : shape' = shape := Shape.name_injective (htype'.symm.trans htype)
    refine ⟨hsuits, fun hnests x hx => ?_⟩
    obtain ⟨v, hv⟩ := hreads hnests x hx
    exact ⟨v, hv, hnested hnests v ⟨x, hx, hv⟩⟩

variable [Scalar.Sizing α]

theorem run_script_decided (hchild : UpTo s R room child) (hcontainer : Bounded scope.container)
    (hscene : (Visual.spec spec).IsScene s.meaning) (htype : spec.typeName = shape.name)
    {call : Call φ α} (hcall : Calls shape scope spec.props call) :
    Decided R s.settings.maxDepth ((call.script s.meaning).run child anew)
      (shape.nests = true → spec.tallest ≤ room) (Expands s.meaning shape) := by
  obtain ⟨hsuits, hchildren⟩ := exists_of_isScene hscene htype
  obtain ⟨implementation, props, context⟩ := call
  obtain ⟨rfl, rfl, hcontext, hlayout⟩ := hcall
  change Decided _ _ ((shape.script (shape.completed spec.props) context).run child anew) _ _
  cases shape with
  | group =>
    have hinherited : Bounded context.childContainer := by
      rw [Context.childContainer, hlayout.other (by decide), hcontext]
      exact hcontainer
    rw [Shape.script, Shape.children_completed]
    exact (run_childrenOfValues_decided hchild hinherited (hchildren rfl) fun rs =>
      run_ofDraft_decided (by decide) _).congr (by simp [Spec.tallest, Shape.nests])
  | frame =>
    obtain ⟨l, hl, hwidth, hheight⟩ := hlayout.frame rfl
    have hpadding := hsuits.zero_le_padding
    have hinner : Bounded (some (Shape.inner l
        (Primitive.number (Shape.frame.completed spec.props) "padding"))) := by
      intro c hc
      cases hc
      exact Shape.inner_isFinite hwidth hheight hpadding
    dsimp only at hl
    rw [Shape.script, hl]
    dsimp only
    rw [Shape.children_completed]
    have hfinish (rs : List (Renderable φ α)) : Decided R s.settings.maxDepth
        ((Script.finish (.ok (.spec (Shape.framed (Shape.frame.completed spec.props) l rs)))).run
          child anew) True (Expands s.meaning .frame) :=
      .pure ⟨rfl, rfl, Shape.framed_isScene _ rs hwidth.2 hheight.2⟩
    exact (run_childrenOfValues_decided hchild hinner (hchildren rfl) hfinish).congr
      (by simp [Spec.tallest, Shape.nests])
  | _ => exact (run_ofDraft_decided (by decide) _).congr (by simp [Shape.nests])

variable (hR : R.Stocked) (hdefault : Scalar.isFinite s.settings.container.1 = true ∧
  Scalar.isFinite s.settings.container.2 = true)
include hR hdefault

theorem expand_decided (hchild : UpTo s R room child) (hcontainer : Bounded scope.container)
    (hscene : (Visual.spec spec).IsScene s.meaning) (htype : spec.typeName = shape.name) :
    Decided R s.settings.maxDepth (expand s child anew scope spec)
      (shape.nests = true → spec.tallest ≤ room) fun r => Expands s.meaning shape r.2 := by
  refine .andThen (ready_decided hR hdefault hcontainer htype (exists_of_isScene hscene htype).1)
    fun call hcall => ?_
  exact (run_script_decided hchild hcontainer hscene htype hcall).withRest fun v hv => .pure hv

/-- A type that is not a frame is expanded once. -/
theorem follow_once_decided (hchild : UpTo s R room child) (hcontainer : Bounded scope.container)
    (hscene : (Visual.spec spec).IsScene s.meaning) (htype : spec.typeName = shape.name)
    (hshape : shape ≠ .frame) {met : List String} (hmet : spec.typeName ∉ met) (turns : Nat)
    (outer : Option (Props φ α)) :
    Decided R s.settings.maxDepth
      (follow s.settings.maxDepth (expand s child anew scope) (turns + 1) met outer spec)
      (shape.nests = true → spec.tallest ≤ room) fun _ => True := by
  rw [follow_succ hmet]
  refine (expand_decided hR hdefault hchild hcontainer hscene htype).withRest fun r hr => ?_
  obtain ⟨props, next | x⟩ := r
  · exact absurd hr.1 hshape
  · exact .pure trivial

/-- Over children that have so much room, a loop has room for one type more. -/
theorem follow_decided (hchild : UpTo s R room child) (hcontainer : Bounded scope.container)
    (hscene : (Visual.spec spec).IsScene s.meaning) :
    Decided R s.settings.maxDepth
      (follow s.settings.maxDepth (expand s child anew scope) (room + 1) [] none spec)
      ((Visual.spec spec).height ≤ room + 1) fun _ => True := by
  obtain ⟨shape, htype⟩ := exists_shape_of_isScene hscene
  have hheight : (Visual.spec spec).height ≤ room + 1 ↔
      (shape.nests = true → spec.tallest ≤ room) ∧ (shape = .frame → 1 ≤ room) := by
    rw [Visual.height, htype, Shape.heightOf_name, Shape.height_le_iff]
  by_cases hshape : shape = .frame
  · rw [follow_succ List.not_mem_nil]
    have hsplit : (shape.nests = true → spec.tallest ≤ room) ∧ 1 ≤ room ↔
        (Visual.spec spec).height ≤ room + 1 := by
      rw [hheight]
      simp [hshape]
    refine ((expand_decided hR hdefault hchild hcontainer hscene htype).bind fun r hr => ?_).congr
      hsplit
    obtain ⟨props, next | x⟩ := r
    · obtain ⟨-, hnext, hgroup, htallest⟩ := hr
      have hblank : Text.isBlank next.typeName = false := hnext ▸ Shape.group.isBlank_name
      have hmet : next.typeName ∉ [] ++ [spec.typeName] := by
        rw [htype, hshape, hnext]
        decide
      simp only [hblank, Bool.false_eq_true, ↓reduceIte]
      -- the group is expanded in the room that is left of the loop, over children with all of it
      cases room with
      | zero =>
        rw [follow_zero hmet]
        exact (Decided.tooDeep _).congr (by simp)
      | succ room =>
        refine (follow_once_decided hR hdefault hchild hcontainer hgroup hnext (by decide) hmet room
          _).congr (iff_of_true (fun _ => ?_) (by omega))
        omega
    · exact absurd hshape hr
  · exact (follow_once_decided hR hdefault hchild hcontainer hscene htype hshape List.not_mem_nil
      room none).congr (by rw [hheight]; simp [hshape])

/-- One level: a scene needs one type more than the tallest of what it nests. -/
theorem UpTo.resolve (hchild : ∀ below, room = below + 1 → UpTo s R below child) (depth : Nat) :
    UpTo s R room (resolve s child anew depth room) := by
  intro v container hscene hcontainer
  cases v with
  | resolved r => exact (Decided.pure trivial).congr (iff_of_true trivial (Nat.zero_le room))
  | spec spec =>
    obtain ⟨shape, htype⟩ := exists_shape_of_isScene hscene
    rw [resolve_of_not_blank (htype ▸ shape.isBlank_name)]
    refine .withRest (P := fun _ => True) ?_ fun r _ => .andThen .freshNode fun n _ => .pure trivial
    cases room with
    | zero =>
      have hpos : 1 ≤ (Visual.spec spec).height := by
        rw [Visual.height, htype, Shape.heightOf_name]
        exact shape.height_pos _
      rw [follow_zero List.not_mem_nil]
      exact (Decided.tooDeep _).congr (iff_of_false id (by omega))
    | succ room => exact follow_decided hR hdefault (hchild room rfl) hcontainer hscene

theorem UpTo.within (anew : Resolver φ α) (depth room : Nat) :
    UpTo s R room (within s anew depth room) := by
  induction room generalizing depth with
  | zero =>
    refine .resolve hR hdefault (fun below hbelow => ?_) depth
    cases hbelow
  | succ room ih =>
    refine .resolve hR hdefault (fun below hbelow => ?_) depth
    cases hbelow
    exact ih (depth + 1)

end Resolution

/-- In an engine with the built-in shapes and a default container of finite size, a scene resolves
exactly where its height is at most the depth limit; otherwise it fails by exceeding that limit. -/
theorem height_decides [Scalar α] [Scalar.Sizing α] (s : Surroundings φ α) (w : Workspace φ α)
    (v : Visual φ α) (container : Option (Container α)) (hshapes : w.registry.Stocked)
    (hdefault : Scalar.isFinite s.settings.container.1 = true ∧
      Scalar.isFinite s.settings.container.2 = true)
    (hcontainer : ∀ c ∈ container, c.IsFinite) (hscene : v.IsScene s.meaning) :
    ∃ r w', Engine.resolve s v container w = some (r, w') ∧
      (v.height ≤ s.settings.maxDepth → ∃ x, r = .ok x) ∧
      (s.settings.maxDepth < v.height →
        ∃ name, r = .error (.depthExceeded name s.settings.maxDepth)) := by
  obtain ⟨r, w', hrun, -, hdecided⟩ := UpTo.within hshapes hdefault
    (below s s.stack.levels) 0 s.settings.maxDepth v container hscene hcontainer w rfl
  rw [engine_eq]
  refine ⟨r, w', hrun, fun hfits => ?_, fun hexceeds => ?_⟩
  · cases r with
    | ok x => exact ⟨x, rfl⟩
    | error e => exact absurd hfits hdecided.1
  · cases r with
    | ok x => exact absurd hdecided.1 (by omega)
    | error e =>
      obtain ⟨-, name, rfl⟩ := hdecided
      exact ⟨name, rfl⟩

def coin : Spec Empty Float := ⟨"circle", [("r", .number 5.0)]⟩

def medal : Spec Empty Float :=
  ⟨"frame", [("children", .array [coin.toValue]), ("padding", .number 8.0)]⟩

theorem coin_isPlain : coin.IsPlain := by simp [Spec.IsPlain, coin, Value.isComputed]

theorem coin_isScene : (Visual.spec coin).IsScene Meaning.none := by
  have hradius : (Scalar.zero : Float) ≤ 5.0 := by decide +kernel
  refine .spec (show _ = Shape.circle.name from rfl) ⟨?_, ?_, ?_, ?_⟩ nofun nofun
  · exact fun e he => (coin_isPlain e he).2
  · simp [coin, Shape.properties, Shape.numberOr, Shape.someSize, Shape.someNumber, Shape.colour,
      Shape.colourOr, Schema.optional, Schema.mandatory, Schema.ofTag, Schema.withDefault,
      Schema.validatedBy, Validation.present?, Dict.get?]
  · simp [coin, Shape.properties, Shape.someSize, Shape.someNumber, Schema.mandatory, Schema.ofTag,
      Schema.validatedBy, Validation.present?, Dict.get?, Schema.Admits, Tag.admits, Predicate.test,
      hradius]
  · simp [coin, Validation.present?, Dict.get?]

theorem medal_isScene : (Visual.spec medal).IsScene Meaning.none := by
  have hpadding : (Scalar.zero : Float) ≤ 8.0 := by decide +kernel
  have hread : Visual.ofValue? coin.toValue = .ok (.spec coin) :=
    Spec.ofValue?_toValue_self Shape.circle.isBlank_name coin_isPlain
  refine .spec (show _ = Shape.frame.name from rfl) ⟨?_, ?_, ?_, ?_⟩ (fun _ x hx => ?_)
    fun _ v hv => ?_
  · simp [medal, Value.isComputed]
  · simp [medal, Shape.properties, Shape.numberOr, Shape.colour, Schema.optional, Schema.ofTag,
      Schema.withDefault, Schema.validatedBy]
  · simp [medal, Shape.properties, Shape.numberOr, Schema.optional, Schema.ofTag,
      Schema.withDefault, Schema.validatedBy, Validation.present?, Dict.get?, Schema.Admits,
      Tag.admits, Predicate.test, hpadding]
  · simp [medal, Validation.present?, Dict.get?]
  · obtain rfl : x = coin.toValue := List.mem_singleton.mp hx
    exact ⟨_, hread⟩
  · obtain ⟨x, hx, hv⟩ := hv
    obtain rfl : x = coin.toValue := List.mem_singleton.mp hx
    rw [hread] at hv
    cases hv
    exact coin_isScene

def roomed (room : Nat) : Surroundings Empty Float :=
  ⟨{ Settings.Resolving.standard with maxDepth := room }, .none, Solver.Exact.backend⟩

theorem medal_needs_two :
    ∃ made, (Engine.bootstrap (roomed 1) >>= fun _ => Engine.install (roomed 1)) (.empty 0) =
        some (.ok (), made) ∧
      (∃ name w', Engine.resolve (roomed 1) (.spec medal) none made =
        some (.error (.depthExceeded name 1), w')) ∧
      ∃ x w', Engine.resolve (roomed 2) (.spec medal) none made = some (.ok x, w') := by
  obtain ⟨made, hmade, hstocked⟩ := Engine.install_stocks (s := roomed 1) (Nat.le_refl 1) 0
  have hheight : (Visual.spec medal).height = 2 := by decide
  have hdefault : Scalar.isFinite (Settings.Resolving.standard (α := Float)).container.1 = true ∧
      Scalar.isFinite (Settings.Resolving.standard (α := Float)).container.2 = true := by
    decide +kernel
  obtain ⟨r, w', hrun, -, hexceeds⟩ := height_decides (roomed 1) made (.spec medal) none hstocked
    hdefault nofun medal_isScene
  obtain ⟨r', w'', hrun', hfits, -⟩ := height_decides (roomed 2) made (.spec medal) none hstocked
    hdefault nofun medal_isScene
  obtain ⟨name, rfl⟩ := hexceeds (by rw [hheight]; decide)
  obtain ⟨x, rfl⟩ := hfits (by rw [hheight]; decide)
  exact ⟨made, hmade, ⟨name, w', hrun⟩, x, w'', hrun'⟩

end Scene
