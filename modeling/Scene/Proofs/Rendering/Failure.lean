import Scene.Proofs.Rendering.Updates

/-! Updates in place, statement by statement: the rendering is written only when all that can fail is
done, and the surface only when there is something to draw. -/
namespace Scene
open Svg
variable {φ α β γ : Type}

namespace Surface

def document : Surface α → Document
  | .panel p => p.document
  | .svg d _ => d
  | .canvas _ => .create

def withDocument (d : Document) : Surface α → Surface α
  | .panel p => .panel { p with svg := some d }
  | .svg _ parent => .svg d parent
  | .canvas c => .canvas c

end Surface

/-- A rendering with the surface to draw on and the workspace to resolve in. -/
structure Stage (φ α : Type) where
  rendering : Rendering φ α
  surface : Surface α
  workspace : Workspace φ α

abbrev OnStage (φ α : Type) := ExceptT (PaintError α) (StateT (Stage φ α) Option)

namespace OnStage

def resolve (x : Resolve φ α β) : OnStage φ α β := ExceptT.mk fun stage => do
  let (result, workspace) ← x stage.workspace
  some (result.mapError .build, { stage with workspace })

def paint (x : SvgPaint α β) : OnStage φ α β := ExceptT.mk fun stage =>
  let (result, d) := x.run stage.surface.document
  some (result, { stage with surface := stage.surface.withDocument d })

def draw (x : CanvasPaint α β) (c : Canvas.Recording α) : OnStage φ α β := ExceptT.mk fun stage =>
  let (result, c) := x.run c
  some (result, { stage with surface := .canvas c })

def ensureDocument : OnStage φ α Unit :=
  modify fun stage =>
    { stage with surface := stage.surface.withDocument stage.surface.document }

def drawOn (r : Renderable φ α) (previous : Option NodeId) : OnStage φ α Drawn := do
  match (← get).surface with
  | .canvas c => .canvas <$> draw r.paintCanvas c
  | .svg _ parent => .svg <$> paint (Rendering.swapIn r parent previous)
  | .panel _ =>
    ensureDocument
    .svg <$> paint (Rendering.swapIn r Document.root previous)

def update [Scalar α] (s : Surroundings φ α) (partials : Props φ α) : OnStage φ α Unit := do
  let r ← resolve (Engine.update s (← get).rendering.renderable partials)
  let previous := (← get).rendering.drawn.element?
  let drawn ← drawOn r previous
  -- nothing fails any more
  modify fun stage => { stage with rendering := { stage.rendering with renderable := r } }
  modify fun stage => { stage with rendering := { stage.rendering with drawn } }

theorem map_run (f : β → γ) (x : OnStage φ α β) (stage : Stage φ α) :
    (f <$> x) stage = (x stage).map fun (r, stage') => (r.map f, stage') := by
  have hmap : f <$> x = x >>= fun b => pure (f b) := map_eq_pure_bind f x
  rw [hmap, bind_stateT_run]
  rcases x stage with _ | ⟨_ | _, _⟩ <;> rfl

theorem resolve_run {x : Resolve φ α β} {stage : Stage φ α} {w : Workspace φ α}
    {result : Except (ResolveError α) β} (h : x stage.workspace = some (result, w)) :
    resolve x stage = some (result.mapError .build, { stage with workspace := w }) := by
  change Option.bind (x stage.workspace) _ = _
  rw [h]
  rfl

theorem drawOn_run (r : Renderable φ α) (previous : Option NodeId) (stage : Stage φ α) :
    drawOn r previous stage =
      some ((Rendering.drawOn r previous stage.surface).1,
        { stage with surface := (Rendering.drawOn r previous stage.surface).2 }) := by
  obtain ⟨h, surface, w⟩ := stage
  cases surface with
  | canvas c => exact map_run Drawn.canvas (draw r.paintCanvas c) _
  | svg d parent => exact map_run Drawn.svg (paint (Rendering.swapIn r parent previous)) _
  | panel p =>
    have hpaint := map_run Drawn.svg (paint (Rendering.swapIn r Document.root previous))
      ⟨h, .panel { p with svg := some p.document }, w⟩
    exact hpaint

section
variable [Scalar α] {s : Surroundings φ α} {partials : Props φ α} {stage : Stage φ α}
  {w : Workspace φ α}

theorem update_of_none
    (hbuild : Engine.update s stage.rendering.renderable partials stage.workspace = none) :
    update s partials stage = none := by
  have hresolve : resolve (Engine.update s stage.rendering.renderable partials) stage = none := by
    change Option.bind (Engine.update s stage.rendering.renderable partials stage.workspace) _ = _
    rw [hbuild]
    rfl
  change (resolve _ >>= _) stage = _
  rw [bind_stateT_run, hresolve]

theorem update_of_error {cause : ResolveError α}
    (hbuild : Engine.update s stage.rendering.renderable partials stage.workspace =
      some (.error cause, w)) :
    update s partials stage = some (.error (.build cause), { stage with workspace := w }) := by
  change (resolve _ >>= _) stage = _
  rw [bind_stateT_run, resolve_run hbuild]
  rfl

theorem update_of_ok {r : Renderable φ α}
    (hbuild : Engine.update s stage.rendering.renderable partials stage.workspace =
      some (.ok r, w)) :
    update s partials stage =
      match Rendering.drawOn r stage.rendering.drawn.element? stage.surface with
      | (.ok drawn, surface) => some (.ok (), ⟨⟨r, drawn⟩, surface, w⟩)
      | (.error e, surface) => some (.error e, ⟨stage.rendering, surface, w⟩) := by
  change (resolve _ >>= _) stage = _
  rw [bind_stateT_run, resolve_run hbuild]
  change (drawOn r stage.rendering.drawn.element? >>= _) { stage with workspace := w } = _
  rw [bind_stateT_run, drawOn_run]
  rcases Rendering.drawOn r stage.rendering.drawn.element? stage.surface with ⟨_ | _, _⟩ <;> rfl

end

end OnStage

variable [Scalar α]

theorem Rendering.update_of_none {s : Surroundings φ α} {h : Rendering φ α} {partials : Props φ α}
    {surface : Surface α} {w : Workspace φ α}
    (hbuild : Engine.update s h.renderable partials w = none) :
    Rendering.update s h partials surface w = none := by
  have hattempt : Resolve.attempt (Engine.update s h.renderable partials) w = none := by
    change Option.bind (Engine.update s h.renderable partials w) _ = _
    rw [hbuild]
    rfl
  rw [Rendering.update, Resolve.bind_run, hattempt]

/-- An update in place fails where resolving again fails, with nothing drawn and no document made
for a panel that has none, and where drawing fails. In both cases the rendering is what it was. -/
theorem failed_update_keeps_rendering (s : Surroundings φ α) (partials : Props φ α)
    (stage stage' : Stage φ α) (e : PaintError α) :
    (OnStage.update s partials stage = some (.error e, stage') ↔
      stage'.rendering = stage.rendering ∧
        ((∃ cause, Engine.update s stage.rendering.renderable partials stage.workspace =
              some (.error cause, stage'.workspace) ∧
            e = .build cause ∧ stage'.surface = stage.surface) ∨
          ∃ r, Engine.update s stage.rendering.renderable partials stage.workspace =
              some (.ok r, stage'.workspace) ∧
            Rendering.drawOn r stage.rendering.drawn.element? stage.surface =
              (.error e, stage'.surface))) ∧
      (OnStage.update s partials stage = some (.error e, stage') ↔
        stage'.rendering = stage.rendering ∧
          Rendering.update s stage.rendering partials stage.surface stage.workspace =
            some (.ok (.error e, stage'.surface), stage'.workspace)) := by
  obtain ⟨h, surface, w⟩ := stage
  obtain ⟨h', surface', w'⟩ := stage'
  rcases hbuild : Engine.update s h.renderable partials w with _ | ⟨cause | r, u⟩
  · rw [OnStage.update_of_none hbuild, Rendering.update_of_none hbuild]
    simp
  · rw [OnStage.update_of_error hbuild, Rendering.update_of_error hbuild]
    simp only [Option.some.injEq, Prod.mk.injEq, Except.error.injEq, Except.ok.injEq,
      Stage.mk.injEq, reduceCtorEq, false_and, exists_false, or_false]
    grind
  · rw [OnStage.update_of_ok hbuild, Rendering.update_of_ok hbuild]
    dsimp only
    rcases hdraw : Rendering.drawOn r h.drawn.element? surface with ⟨cause | drawn, u'⟩
    · simp only [Except.map, hdraw, Option.some.injEq, Prod.mk.injEq, Except.error.injEq,
        Except.ok.injEq, Stage.mk.injEq, reduceCtorEq, false_and, exists_false, false_or,
        ↓existsAndEq, true_and]
      grind
    · simp [Except.map, hdraw]

def unhung : Stage Empty Exact :=
  ⟨⟨sign, .svg (some ⟨4⟩)⟩, .panel (.create (.known (.fin 30) (.fin 20))), hung⟩

def adrift : Stage Empty Exact := ⟨⟨sign, .svg (some ⟨4⟩)⟩, .svg .create ⟨9⟩, hung⟩

theorem sign_kept :
    (∃ cause stage', OnStage.update gallery [("type", .string "badge")] unhung =
        some (.error (.build cause), stage') ∧
      stage'.rendering = unhung.rendering ∧ stage'.surface = unhung.surface) ∧
    ∃ stage', OnStage.update gallery [] adrift = some (.error (.unknownNode 9), stage') ∧
      stage'.rendering = adrift.rendering ∧ stage'.surface = adrift.surface := by
  constructor
  · obtain ⟨cause, w, hbuild⟩ : ∃ cause w,
        Engine.update gallery sign [("type", .string "badge")] hung = some (.error cause, w) :=
      refuses_of_isNone (by decide +kernel) (by decide +kernel)
    have hfails := (failed_update_keeps_rendering gallery [("type", .string "badge")] unhung
      { unhung with workspace := w } (.build cause)).1
    exact ⟨cause, _, hfails.mpr ⟨rfl, .inl ⟨cause, hbuild, rfl, rfl⟩⟩, rfl, rfl⟩
  · obtain ⟨r, w, hbuild⟩ : ∃ r w, Engine.update gallery sign [] hung = some (.ok r, w) :=
      resolves_of_isSome (by decide +kernel)
    have hfails := (failed_update_keeps_rendering gallery [] adrift
      { adrift with workspace := w } (.unknownNode 9)).1
    exact ⟨_, hfails.mpr ⟨rfl, .inr ⟨r, hbuild, rfl⟩⟩, rfl, rfl⟩

end Scene
