import Scene.Proofs.Drawing.Interruption
import Scene.Proofs.Rendering.Failure
import Scene.Proofs.Svg.Sprout

/-! What a drawing that fails on its way leaves in a document. A group puts its element into the
document before it draws its children, and a failure inside does not take it out again. -/
namespace Scene
open Primitive Svg
variable {φ α β : Type}

/-- How drawing below `parent` ends. A failure has an error that stands with the number of groups
around it. -/
inductive SvgPaint.Outcome (stands : PaintError α → Nat → Prop) (d : Document) (parent : NodeId) :
    Except (PaintError α) β → Document → Prop where
  | drawn {b : β} {d' : Document} (h : d.Sprouts parent d') : Outcome stands d parent (.ok b) d'
  | refused {e : PaintError α} (h : stands e 0) : Outcome stands d parent (.error e) d
  /-- The outermost group around the failure is there, with what was drawn in it before. -/
  | interrupted {e : PaintError α} {d' : Document} (k : Nat) (hk : stands e (k + 1))
      (h : d.Sprouts parent d') : Outcome stands d parent (.error e) d'

theorem SvgPaint.Outcome.mono {stands stands' : PaintError α → Nat → Prop} {d d' : Document}
    {parent : NodeId} {result : Except (PaintError α) β}
    (hstands : ∀ e k, stands e k → stands' e k) (h : Outcome stands d parent result d') :
    Outcome stands' d parent result d' := by
  cases h with
  | drawn h => exact .drawn h
  | refused h => exact .refused (hstands _ _ h)
  | interrupted k hk h => exact .interrupted k (hstands _ _ hk) h

def SvgPaint.Ends (stands : PaintError α → Nat → Prop) (x : NodeId → SvgPaint α β) : Prop :=
  ∀ d parent, d.contains parent = true → ∃ result d', (x parent).run d = (result, d') ∧
    Outcome stands d parent result d'

namespace SvgPaint
variable {stands : PaintError α → Nat → Prop} {d d' : Document} {parent : NodeId}

/-- Draws one below an element, then the others. -/
theorem forM_cons_run (n : NodeId) (r : Renderable φ α) (rs : List (Renderable φ α))
    (d : Document) :
    ((r :: rs).forM fun c => do let _ ← c.paintSvg n : SvgPaint α Unit).run d =
      match (r.paintSvg n).run d with
      | (.ok _, d') => (rs.forM fun c => do let _ ← c.paintSvg n : SvgPaint α Unit).run d'
      | (.error e, d') => (.error e, d') := by
  change ((do let _ ← r.paintSvg n : SvgPaint α Unit) >>= fun _ => rs.forM _).run d = _
  rw [run_bind, run_bind]
  rcases (r.paintSvg n).run d with ⟨_ | _, _⟩ <;> rfl

/-- Painters that draw one after another below a new element add to what hangs from it. The first
failure is the last thing that happens. -/
theorem forM_sprouts {stands : Renderable φ α → PaintError α → Nat → Prop}
    {rs : List (Renderable φ α)} (h : ∀ r ∈ rs, Ends (stands r) r.paintSvg)
    (hsprouts : d.Sprouts parent d') :
    ∃ result d'', (rs.forM fun c => do let _ ← c.paintSvg d.nextId).run d' = (result, d'') ∧
      d.Sprouts parent d'' ∧ ∀ e, result = .error e → ∃ r ∈ rs, ∃ k, stands r e k := by
  induction rs generalizing d' with
  | nil => exact ⟨.ok (), d', rfl, hsprouts, nofun⟩
  | cons r rs ih =>
    obtain ⟨result, d₁, hrun, houtcome⟩ :=
      h r List.mem_cons_self d' d.nextId hsprouts.contains_nextId
    rw [forM_cons_run, hrun]
    cases houtcome with
    | drawn hchild =>
      obtain ⟨result, d'', hrest, hgrown, herror⟩ :=
        ih (fun c hc => h c (List.mem_cons_of_mem r hc)) (hsprouts.trans hchild)
      refine ⟨result, d'', hrest, hgrown, fun e he => ?_⟩
      obtain ⟨c, hc, hk⟩ := herror e he
      exact ⟨c, List.mem_cons_of_mem r hc, hk⟩
    | @refused e hfail =>
      refine ⟨.error e, d', rfl, hsprouts, ?_⟩
      rintro _ ⟨⟩
      exact ⟨r, List.mem_cons_self, 0, hfail⟩
    | @interrupted e _ k hk hchild =>
      refine ⟨.error e, d₁, rfl, hsprouts.trans hchild, ?_⟩
      rintro _ ⟨⟩
      exact ⟨r, List.mem_cons_self, k + 1, hk⟩

variable [Scalar α]

/-- A group is in the document before anything is drawn in it. -/
theorem groupSvg_run (props : Props φ α) (hparent : d.contains parent = true) :
    ∃ e : Element, e.parent = some parent ∧
      (groupSvg props parent).run d = (do
        (children props).forM fun c => do let _ ← c.paintSvg d.nextId
        pure (some d.nextId) : SvgPaint α (Option NodeId)).run (d.graft parent [d.nextId] [e]) := by
  rw [groupSvg, run_bind, Gives.element hparent]
  dsimp only
  by_cases hmoved :
      (!(number props "x" == Scalar.zero) || !(number props "y" == Scalar.zero)) = true
  · rw [if_pos hmoved, run_bind, Alters.setAttribute]
    exact ⟨_, rfl, rfl⟩
  · rw [if_neg hmoved]
    exact ⟨_, rfl, rfl⟩

theorem Ends.group {stands : Renderable φ α → PaintError α → Nat → Prop} {props : Props φ α}
    (h : ∀ r ∈ children props, Ends (stands r) r.paintSvg) :
    Ends (fun e k => ∃ r ∈ children props, ∃ j, stands r e j ∧ k = j + 1) (groupSvg props) := by
  intro d parent hparent
  obtain ⟨e, he, hgroup⟩ := groupSvg_run props hparent
  obtain ⟨result, d', hrun, hsprouts, herror⟩ := forM_sprouts h (Document.Sprouts.graft he)
  rw [hgroup, run_bind, hrun]
  cases result with
  | ok _ => exact ⟨_, d', rfl, .drawn hsprouts⟩
  | error e =>
    obtain ⟨r, hr, k, hk⟩ := herror e rfl
    exact ⟨_, d', rfl, .interrupted k ⟨r, hr, k, hk, rfl⟩ hsprouts⟩

end SvgPaint

theorem Renderable.paintSvg_run {r : Renderable φ α} {d : Document} {parent : NodeId}
    (h : d.contains parent = true) : (r.paintSvg parent).run d = (r.painters.svg parent).run d := by
  change (if d.contains parent then r.painters.svg parent
    else throw (.unknownNode parent.index)).run d = _
  rw [if_pos h]

/-- Its painter adds one element with nothing in it, as the last child of the parent, or fails and
draws nothing. -/
def Renderable.Plots (r : Renderable φ α) : Prop :=
  ∀ d parent, d.contains parent = true →
    (∃ b e, e.parent = some parent ∧ e.children = [] ∧
      (r.painters.svg parent).run d = (.ok b, d.graft parent [d.nextId] [e])) ∨
    ∃ e, (r.painters.svg parent).run d = (.error e, d)

def Renderable.FailsToPlot (e : PaintError α) (r : Renderable φ α) : Prop :=
  ∃ d parent, (r.painters.svg parent).run d = (.error e, d)

variable [Scalar α] {leaf : Renderable φ α → Prop} {r : Renderable φ α}

theorem Renderable.BuiltOf.ends (hleaf : ∀ c, leaf c → c.Plots) (hr : r.BuiltOf leaf) :
    SvgPaint.Ends (fun e k => r.Encloses (fun c => leaf c ∧ c.FailsToPlot e) k) r.paintSvg := by
  induction hr with
  | @leaf c h =>
    intro d parent hparent
    rw [paintSvg_run hparent]
    rcases hleaf c h d parent hparent with ⟨b, e, he, -, hrun⟩ | ⟨e, hrun⟩
    · exact ⟨_, _, hrun, .drawn (.graft he)⟩
    · exact ⟨_, _, hrun, .refused (.here ⟨h, d, parent, hrun⟩)⟩
  | @shape r s hpainters _ ih =>
    cases hnests : s.nests with
    | false =>
      obtain ⟨k, hk⟩ := Shape.exists_sketch hnests r.props
      intro d parent hparent
      rw [paintSvg_run hparent, hpainters]
      exact ⟨_, _, SvgPaint.Gives.sketch hk hparent, .drawn (.graft rfl)⟩
    | true =>
      rw [Shape.painters_of_nests hnests] at hpainters
      intro d parent hparent
      obtain ⟨result, d', hrun, houtcome⟩ :=
        SvgPaint.Ends.group (fun c hc => ih hnests c hc) d parent hparent
      refine ⟨result, d', ?_, houtcome.mono ?_⟩
      · rw [paintSvg_run hparent, hpainters]
        exact hrun
      · rintro e _ ⟨c, hc, j, hinside, rfl⟩
        exact .inside hpainters hc hinside

namespace Rendering
variable {d d' : Document} {parent : NodeId} {surface : Surface α} {e : PaintError α}

/-- Outside of all groups a failure leaves the document alone. Inside of groups it leaves the
outermost one, with all that was drawn in it, as one more child of the parent: then the tree under
the root, and what is written of it, is as before only if the parent is not in it, or once that child
is taken out. -/
inductive Fails (leaf : Renderable φ α → Prop) (r : Renderable φ α) (e : PaintError α)
    (d : Document) (parent : NodeId) : Document → Prop where
  | alone (h : r.Encloses (fun c => leaf c ∧ c.FailsToPlot e) 0) : Fails leaf r e d parent d
  | inside {d' : Document} (k : Nat) (h : r.Encloses (fun c => leaf c ∧ c.FailsToPlot e) (k + 1))
      (leaves : d.Sprouts parent d')
      (attached_iff : d.SameAttached d' ↔ ¬ d.Below Document.root parent)
      (text_eq : d.SameAttached d' → ∀ settings, d'.text settings = d.text settings)
      (detached : d.SameAttached (d'.detach d.nextId).1)
      (detached_text : ∀ settings, (d'.detach d.nextId).1.text settings = d.text settings) :
      Fails leaf r e d parent d'

theorem fails_of_run (hleaf : ∀ c, leaf c → c.Plots) (hr : r.BuiltOf leaf) (hl : d.Linked)
    (ht : d.IsTree) (hroot : d.contains Document.root = true) (hparent : d.contains parent = true)
    (hrun : (r.paintSvg parent).run d = (.error e, d')) : Fails leaf r e d parent d' := by
  obtain ⟨result, d'', hrun', houtcome⟩ := hr.ends hleaf d parent hparent
  obtain ⟨rfl, rfl⟩ : result = .error e ∧ d'' = d' := Prod.mk.inj (hrun'.symm.trans hrun)
  cases houtcome with
  | refused h => exact .alone h
  | interrupted k hk h =>
    have hdetached := h.sameAttached_detach hl hroot
    refine .inside k hk h (h.sameAttached_iff hl hroot hparent)
      (fun hsame => hsame.text_eq hl ht hroot h.size_le) hdetached
      (hdetached.text_eq hl ht hroot ?_)
    rw [Document.size_detach]
    exact h.size_le

omit [Scalar α] in
theorem drawOn_svg_eq_error {previous : Option NodeId}
    (h : drawOn r previous (.svg d parent) = (.error e, surface)) :
    ∃ d', surface = .svg d' parent ∧ (r.paintSvg parent).run d = (.error e, d') := by
  rw [drawOn, swapIn, run_bind] at h
  rcases hrun : (r.paintSvg parent).run d with ⟨_ | element, d'⟩
  · rw [hrun] at h
    cases h
    exact ⟨d', rfl, rfl⟩
  · rw [hrun] at h
    -- whatever is put in place of whatever, that does not fail
    cases previous <;> cases element <;> cases congrArg Prod.fst h

end Rendering

/-- Let renderables of built-in shapes hold some others, each of which adds one element to a
document or fails without a change. Where drawing one of them in a tree fails, the document is as
`Rendering.Fails` says. So it is where an update fails, unless there was nothing to draw because
resolving failed: then the document is as before. -/
theorem interrupted_drawing_leaves_group (leaf : Renderable φ α → Prop)
    (hleaf : ∀ c, leaf c → c.Plots) (edits : List Edit) (htree : (Document.edited edits).IsTree)
    (parent : NodeId) (hparent : (Document.edited edits).contains parent = true) :
    (∀ r e surface, r.BuiltOf leaf →
      Rendering.render r (.svg (Document.edited edits) parent) = (.error e, surface) →
        ∃ d', surface = .svg d' parent ∧
          Rendering.Fails leaf r e (Document.edited edits) parent d') ∧
      ∀ s h partials w w' e surface,
        Rendering.update s h partials (.svg (Document.edited edits) parent) w =
            some (.ok (.error e, surface), w') →
          (∃ cause, Engine.update s h.renderable partials w = some (.error cause, w') ∧
            e = .build cause ∧ surface = .svg (Document.edited edits) parent) ∨
          ∃ r, Engine.update s h.renderable partials w = some (.ok r, w') ∧
            (r.BuiltOf leaf → ∃ d', surface = .svg d' parent ∧
              Rendering.Fails leaf r e (Document.edited edits) parent d') := by
  have hfails {r : Renderable φ α} {e : PaintError α} {surface : Surface α}
      {previous : Option NodeId} (hr : r.BuiltOf leaf)
      (h : Rendering.drawOn r previous (.svg (Document.edited edits) parent) =
        (.error e, surface)) :
      ∃ d', surface = .svg d' parent ∧
        Rendering.Fails leaf r e (Document.edited edits) parent d' := by
    obtain ⟨d', rfl, hrun⟩ := Rendering.drawOn_svg_eq_error h
    exact ⟨d', rfl, Rendering.fails_of_run hleaf hr (Document.linked_edited edits) htree
      (Document.contains_root_edited edits) hparent hrun⟩
  constructor
  · intro r e surface hr h
    rw [Rendering.render] at h
    rcases hdraw : Rendering.drawOn r none (.svg (Document.edited edits) parent) with ⟨_ | _, _⟩
    · rw [hdraw] at h
      cases h
      exact hfails hr hdraw
    · rw [hdraw] at h
      cases h
  · intro s h partials w w' e surface hupdate
    rcases hbuild : Engine.update s h.renderable partials w with _ | ⟨cause | r, u⟩
    · rw [Rendering.update_of_none hbuild] at hupdate
      cases hupdate
    · rw [Rendering.update_of_error hbuild] at hupdate
      cases hupdate
      exact .inl ⟨cause, rfl, rfl, rfl⟩
    · rw [Rendering.update_of_ok hbuild] at hupdate
      rcases hdraw : Rendering.drawOn r h.drawn.element? (.svg (Document.edited edits) parent)
        with ⟨_ | _, _⟩
      · rw [hdraw] at hupdate
        cases hupdate
        exact .inr ⟨r, rfl, fun hr => hfails hr hdraw⟩
      · rw [hdraw] at hupdate
        cases hupdate

theorem blot_plots (c : Renderable Empty Exact) (hc : c = blot) : c.Plots := by
  subst hc
  exact fun _ _ _ => .inr ⟨_, rfl⟩

def shelf : Document := .edited [.append Document.root "g"]

theorem shelf_isTree : shelf.IsTree := by
  have horderly : Document.Orderly ([] ++ [.append Document.root "g"]) :=
    Document.orderly_concat.mpr ⟨Document.orderly_nil, id⟩
  exact Document.isTree_edited horderly

/-- On a shelf, the outer tray is left behind, with the pearl and the inner tray on it. -/
theorem tray_left_on_shelf : (∀ c, c = blot → c.Plots) ∧ shelf.IsTree ∧
    shelf.contains ⟨1⟩ = true ∧ (tray [pearl, tray [blot]]).BuiltOf (· = blot) ∧
    ∃ d', Rendering.render (tray [pearl, tray [blot]]) (.svg shelf ⟨1⟩) =
        (.error (.painter "blot" "no ink"), .svg d' ⟨1⟩) ∧
      shelf.Sprouts ⟨1⟩ d' ∧ ¬ shelf.SameAttached d' ∧
      shelf.SameAttached (d'.detach ⟨2⟩).1 := by
  have hresult : (Rendering.render (tray [pearl, tray [blot]]) (.svg shelf ⟨1⟩)).1 =
      .error (.painter "blot" "no ink") := rfl
  obtain ⟨d', hsurface, hfails⟩ :=
    (interrupted_drawing_leaves_group (· = blot) blot_plots _ shelf_isTree ⟨1⟩ rfl).1
      _ _ _ trays_builtOf (Prod.ext hresult rfl)
  refine ⟨blot_plots, shelf_isTree, rfl, trays_builtOf, d', Prod.ext hresult hsurface, ?_⟩
  cases hfails with
  | alone h =>
    cases h with
    | here h => exact absurd (congrArg Renderable.node h.1) (by decide)
  | inside k _ hsprouts hattached _ hdetached _ =>
    have hunder : shelf.Below Document.root ⟨1⟩ := .single List.mem_cons_self
    exact ⟨hsprouts, fun hsame => hattached.mp hsame hunder, hdetached⟩

def smear : Props Empty Exact := [("children", .array [.renderable blot])]

def smearedTray : Renderable Empty Exact :=
  ((Shape.group.draft (Shape.withChildren
    (smear ++ [("x", .number (.fin 3)), ("y", .number (.fin 0))]) [blot])).node 0).withOrigin 1
      ⟨"group", smear ++ [("x", .number (.fin 3))]⟩
      (smear ++ [("x", .number (.fin 3)), ("y", .number (.fin 0))])

theorem update_smear : Engine.update gallery (tray [pearl]) smear hung =
    some (.ok smearedTray, { hung with nextNode := 2 }) := by
  with_unfolding_all rfl

theorem smearedTray_builtOf : smearedTray.BuiltOf (· = blot) := by
  refine .shape .group rfl fun _ c hc => .leaf ?_
  rw [smearedTray, Renderable.withOrigin, Draft.node, Shape.draft,
    Shape.children_withChildren] at hc
  exact List.mem_singleton.mp hc

def laid : Document := ((tray [pearl]).paintSvg Document.root).run .create |>.2

/-- An empty tray is left in an empty document; and where a tray is shown, it does not stay alone
when its update fails. -/
theorem blots_leave_trays :
    (∀ c, c = blot → c.Plots) ∧ (tray [blot]).BuiltOf (· = blot) ∧ smearedTray.BuiltOf (· = blot) ∧
      Engine.update gallery (tray [pearl]) smear hung =
        some (.ok smearedTray, { hung with nextNode := 2 }) ∧
      (∃ d', Rendering.render (tray [blot]) (.svg .create Document.root) =
          (.error (.painter "blot" "no ink"), .svg d' Document.root) ∧
        Document.create.text .compact = .ends "<svg xmlns=\"http://www.w3.org/2000/svg\"/>" ∧
        d'.text .compact = .ends ("<svg xmlns=\"http://www.w3.org/2000/svg\">" ++
          "<g transform=\"translate(3,0)\" class=\"group\"/></svg>")) ∧
      ∃ d', Rendering.render (tray [pearl]) (.svg .create Document.root) =
          (.ok ⟨tray [pearl], .svg (some ⟨1⟩)⟩, .svg laid Document.root) ∧
        Rendering.update gallery ⟨tray [pearl], .svg (some ⟨1⟩)⟩ smear (.svg laid Document.root)
            hung =
          some (.ok (.error (.painter "blot" "no ink"), .svg d' Document.root),
            { hung with nextNode := 2 }) ∧
        laid.children Document.root = [⟨1⟩] ∧ d'.children Document.root = [⟨1⟩, ⟨3⟩] ∧
        d'.fragmentText ⟨3⟩ .compact =
          .ends "<g transform=\"translate(3,0)\" class=\"group\"/>" := by
  refine ⟨blot_plots, tray_builtOf fun c hc => .leaf (List.mem_singleton.mp hc),
    smearedTray_builtOf, update_smear,
    ⟨((tray [blot]).paintSvg Document.root).run .create |>.2, rfl, by decide +kernel,
      by decide +kernel⟩,
    (smearedTray.paintSvg Document.root).run laid |>.2, rfl, ?_, by decide +kernel,
    by decide +kernel, by decide +kernel⟩
  rw [Rendering.update_of_ok update_smear]
  rfl

end Scene
