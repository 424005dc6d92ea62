import Scene.Pipeline
import Scene.Proofs.Define.Bootstrap
import Scene.Proofs.Define.Stock
import Scene.Proofs.Plain.Resolution
import Scene.Proofs.Svg.Walk

/-! From plain data to a drawing. A document is refused before anything is drawn, for a reason that
has to do with the document, or it is drawn as markup and on a canvas alike. -/
namespace Scene

section
variable {φ α : Type} [Scalar α]

/-! The built-in shapes are plain types. -/

theorem Shape.defaults_inert (s : Shape) :
    ∀ e ∈ (Dict.ofList s.properties : Dict (Schema φ α)), ∀ v ∈ e.2.default?, v.Inert := by
  have hproperties : ∀ e ∈ (s.properties : List (String × Schema φ α)),
      ∀ v ∈ e.2.default?, v.Inert := by
    cases s <;> simp [properties, numberOr, someSize, someNumber, colour, colourOr, Schema.optional,
      Schema.mandatory, Schema.ofTag, Schema.withDefault, Schema.validatedBy, Value.Inert.number,
      Value.Inert.string]
  exact Dict.forall_mem_overlay (P := fun p : Schema φ α => ∀ v ∈ p.default?, v.Inert)
    (List.forall_mem_nil _) hproperties

theorem Shape.definition_plain (s : Shape) : (s.definition : Definition φ α).Plain where
  implementation := .inr ⟨s, rfl⟩
  layout hframe := by
    cases hframe
    rfl
  defaults := Dict.forall_mem_overlay (P := fun p : Schema φ α => ∀ v ∈ p.default?, v.Inert)
    (List.forall_mem_nil _) s.defaults_inert

namespace Engine

/-- A new engine with the shapes installed knows plain types, unless there is no room for any. -/
theorem ready_run (s : Surroundings φ α) (nextNode : Nat) :
    (∃ e w, (bootstrap s >>= fun _ => install s) (.empty nextNode) = some (.error e, w) ∧
        e.Blameless) ∨
      ∃ w, (bootstrap s >>= fun _ => install s) (.empty nextNode) = some (.ok (), w) ∧
        w.registry.Plain := by
  by_cases hroom : 1 ≤ s.settings.maxDepth
  · obtain ⟨w, hrun, hentries⟩ := install_run (s := s) hroom nextNode
    refine .inr ⟨w, hrun, fun name t ht => ?_⟩
    rw [hentries] at ht
    cases hshape : Shape.ofName? name with
    | some shape =>
      rw [hshape] at ht
      cases ht
      exact shape.definition_plain
    | none =>
      rw [hshape, Option.map_none, Option.none_or, Dict.get?] at ht
      split at ht
      · cases ht
        exact Definition.ofDefine_plain
      · cases ht
  · rw [Resolve.bind_run, bootstrap_of_no_room (by omega)]
    exact .inl ⟨_, _, rfl, .of_category .recursionGuard rfl (by decide)⟩

end Engine
end

namespace Pipeline
variable {α : Type} [Scalar α]

theorem resolve_fair (backend : Solver.Backend α) (document : Json α)
    (settings : Settings.Resolving α) :
    (∃ e, resolve backend document settings = .error (.build e) ∧ e.Blameless) ∨
      ∃ rs warnings, resolve backend document settings = .ok (rs, warnings) ∧
        ∀ r ∈ rs, r.Drawable := by
  let s := surroundings settings backend
  have hall : ∀ w, (do
      Engine.bootstrap s
      Engine.install s
      Engine.resolveDocument s document : Resolve Empty α (List (Renderable Empty α))) w =
        ((Engine.bootstrap s >>= fun _ => Engine.install s) >>= fun _ =>
          Engine.resolveDocument s document) w := by
    intro w
    rw [bind_assoc]
  unfold resolve
  dsimp only
  rw [hall, Resolve.bind_run]
  obtain ⟨e, w, hready, he⟩ | ⟨w, hready, hplain⟩ := Engine.ready_run s 0
  · rw [hready]
    exact .inl ⟨e, rfl, he⟩
  · obtain ⟨r, w', hdocument, -, hfair⟩ := Engine.resolveDocument_safe s document w hplain
    rw [hready]
    dsimp only
    rw [hdocument]
    cases r with
    | error e => exact .inl ⟨e, rfl, hfair⟩
    | ok rs => exact .inr ⟨rs, _, rfl, hfair⟩

theorem grown_sized (size : α × α) : Svg.Document.create.Grown (sized size) :=
  ((Svg.Document.Grown.edit _ (.setAttribute _ _ _) trivial).trans
    (.edit _ (.setAttribute _ _ _) trivial)).trans (.edit _ (.setAttribute _ _ _) trivial)

/-- Drawing always ends, and only adds to a document. -/
theorem paintAll_svg {rs : List (Renderable Empty α)} (h : ∀ r ∈ rs, r.Drawable)
    (d : Svg.Document) (parent : Svg.NodeId) (hparent : d.contains parent = true) :
    ∃ d', paintAll rs (.svg d parent) = .ok (.svg d' parent) ∧ d.Grown d' := by
  induction rs generalizing d with
  | nil => exact ⟨d, rfl, .refl d⟩
  | cons r rs ih =>
    have hparts := List.forall_mem_cons.mp h
    obtain ⟨n, d', hpaint, hgrown⟩ := hparts.1.svg d parent hparent
    obtain ⟨d'', hrest, hgrown'⟩ := ih hparts.2 d' (hgrown.contains hparent)
    have hswap : (Rendering.swapIn r parent none).Gives d n d' :=
      hpaint.bind (.pure n d')
    refine ⟨d'', ?_, hgrown.trans hgrown'⟩
    have hrender : Rendering.render r (.svg d parent) =
        (.ok ⟨r, .svg n⟩, .svg d' parent) := by
      rw [Rendering.render, Rendering.drawOn, hswap]
      rfl
    rw [paintAll, List.foldlM_cons, hrender]
    exact hrest

theorem paintAll_canvas {rs : List (Renderable Empty α)} (h : ∀ r ∈ rs, r.Drawable)
    (c : Canvas.Recording α) : ∃ c', paintAll rs (.canvas c) = .ok (.canvas c') := by
  induction rs generalizing c with
  | nil => exact ⟨c, rfl⟩
  | cons r rs ih =>
    have hparts := List.forall_mem_cons.mp h
    obtain ⟨cs, hcs⟩ := hparts.1.canvas
    obtain ⟨c', hrest⟩ := ih hparts.2 { c with commands := c.commands ++ cs.toArray }
    refine ⟨c', ?_⟩
    have hrender : Rendering.render r (.canvas c) =
        (.ok ⟨r, .canvas true⟩, .canvas { c with commands := c.commands ++ cs.toArray }) := by
      rw [Rendering.render, Rendering.drawOn, hcs]
      rfl
    rw [paintAll, List.foldlM_cons, hrender]
    exact hrest

end Pipeline

open Pipeline in
/-- Every document of plain data is drawn as markup and on a canvas, with the same warnings, or it
is refused in both cases for the same reason, which lies neither in an implementation nor in what
one returned. There is no failure of drawing, and there is always a result. -/
theorem plain_documents_draw_or_fail_alike {α : Type} [Scalar α] (backend : Solver.Backend α)
    (document : Json α) (settings : Settings α) :
    (∃ e, toSvg backend document settings = .error (.build e) ∧
        toRecording backend document settings.resolving = .error (.build e) ∧
        e.category ≠ .implementation ∧ e.category ≠ .implementationContract) ∨
      ∃ output recording, toSvg backend document settings = .ok output ∧
        toRecording backend document settings.resolving = .ok (recording, output.warnings) := by
  obtain ⟨e, hresolve, he⟩ | ⟨rs, warnings, hresolve, hrs⟩ :=
    resolve_fair backend document settings.resolving
  · refine .inl ⟨e, ?_, ?_, he⟩
    · rw [toSvg, hresolve]
      rfl
    · rw [toRecording, hresolve]
      rfl
  · have hsized := grown_sized settings.resolving.container
    have hroot : Svg.Document.create.contains Svg.Document.root = true := rfl
    obtain ⟨d, hsvg, hgrown⟩ := paintAll_svg hrs _ _ (hsized.contains hroot)
    obtain ⟨hlinked, htree⟩ :=
      (hsized.trans hgrown).linked_isTree Svg.Document.linked_create Svg.Document.isTree_create
    obtain ⟨text, htext⟩ := Svg.Document.text_ends hlinked htree settings.writing
    obtain ⟨c, hcanvas⟩ := paintAll_canvas hrs (.create (some settings.resolving.container))
    refine .inr ⟨⟨text, warnings⟩, c, ?_, ?_⟩
    · rw [toSvg, hresolve, ok_bind]
      dsimp only
      rw [hsvg, ok_bind]
      dsimp only
      rw [htext]
    · rw [toRecording, hresolve, ok_bind]
      dsimp only
      rw [hcanvas]
      rfl

end Scene
