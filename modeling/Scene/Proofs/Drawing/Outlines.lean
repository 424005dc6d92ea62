import Scene.Proofs.Resolution.Shapes
import Scene.Scalar.Exact

/-! Outlines on a canvas. A line sets the width of the pen and leaves it so, and rectangles and
circles are outlined with the pen as it is: with the width of the last line before them in the
groups that are still open. In a document only lines have a width. -/
namespace Scene
variable {φ α : Type} [Scalar α]

namespace Canvas

namespace Replay
variable {s t : Replay α} {cs ds : List (Command α)} {os os' : List (Figure × α)} {width width' : α}

def outline? (s : Replay α) : Command α → Option (Figure × α)
  | .strokeRect x y w h =>
    some (.rect (Scalar.text x) (Scalar.text y) (Scalar.text w) (Scalar.text h), s.pen.width)
  | .stroke => (disc? s.path).map fun f => (f, s.pen.width)
  | _ => none

def outlining (s : Replay α) : List (Command α) → Option (List (Figure × α) × Replay α)
  | [] => some ([], s)
  | c :: cs => do
    let t ← s.step c
    let (os, u) ← t.outlining cs
    some ((s.outline? c).toList ++ os, u)

theorem outlining_append (s : Replay α) (cs ds : List (Command α)) :
    s.outlining (cs ++ ds) =
      (s.outlining cs).bind fun r => (r.2.outlining ds).map fun r' => (r.1 ++ r'.1, r'.2) := by
  induction cs generalizing s with
  | nil => simp [outlining]
  | cons c cs ih =>
    simp only [List.cons_append, outlining]
    cases s.step c with
    | none => rfl
    | some t =>
      simp only [Option.bind_eq_bind, Option.bind_some, ih]
      cases t.outlining cs with
      | none => rfl
      | some r => cases h : r.2.outlining ds <;> simp [h]

def enter (s : Replay α) (x y : α) : Replay α :=
  { s with
    pen := { s.pen with offsets := s.pen.offsets ++ [writtenOffset x y] }
    saved := s.pen :: s.saved }

/-- From a state, calls outline just these shapes, and leave this width and the saved pens. -/
def Outlines (s : Replay α) (cs : List (Command α)) (os : List (Figure × α)) (width : α) : Prop :=
  ∃ t, s.outlining cs = some (os, t) ∧ t.saved = s.saved ∧ t.pen.width = width

namespace Outlines
variable {c : Command α} {o : Figure × α}

theorem nil (s : Replay α) : s.Outlines [] [] s.pen.width := ⟨s, rfl, rfl, rfl⟩

theorem skip (hstep : s.step c = some t) (hnone : s.outline? c = none) (hsaved : t.saved = s.saved)
    (h : t.Outlines cs os width) : s.Outlines (c :: cs) os width := by
  obtain ⟨u, hrun, hsaved', hwidth⟩ := h
  refine ⟨u, ?_, hsaved'.trans hsaved, hwidth⟩
  simp [outlining, hstep, hnone, hrun]

theorem stroke (hstep : s.step c = some t) (ho : s.outline? c = some o)
    (hsaved : t.saved = s.saved) (h : t.Outlines cs os width) :
    s.Outlines (c :: cs) (o :: os) width := by
  obtain ⟨u, hrun, hsaved', hwidth⟩ := h
  refine ⟨u, ?_, hsaved'.trans hsaved, hwidth⟩
  simp [outlining, hstep, ho, hrun]

theorem append (h : s.Outlines cs os width)
    (hnext : ∀ t : Replay α, t.pen.width = width → t.Outlines ds os' width') :
    s.Outlines (cs ++ ds) (os ++ os') width' := by
  obtain ⟨t, hrun, hsaved, hwidth⟩ := h
  obtain ⟨u, hrun', hsaved', hwidth'⟩ := hnext t hwidth
  refine ⟨u, ?_, hsaved'.trans hsaved, hwidth'⟩
  rw [outlining_append, hrun, Option.bind_some, hrun']
  rfl

/-- What is done between a save and its restore leaves the width as it was. -/
theorem wrap {x y : α} (h : (s.enter x y).Outlines cs os width) :
    s.Outlines (.save :: (.translate x y :: cs ++ [.restore])) os s.pen.width := by
  obtain ⟨t, hrun, hsaved, -⟩ := h
  have hsaved' : t.saved = s.pen :: s.saved := hsaved
  have hrestore :
      t.outlining [.restore] = some ([], { t with pen := s.pen, saved := s.saved }) := by
    simp [outlining, step, outline?, hsaved']
  have hinside : (s.enter x y).outlining (cs ++ [.restore]) =
      some (os, { t with pen := s.pen, saved := s.saved }) := by
    simp [outlining_append, hrun, hrestore]
  refine ⟨{ t with pen := s.pen, saved := s.saved }, ?_, rfl, rfl⟩
  change (((s.enter x y).outlining (cs ++ [.restore])).bind _).bind _ = _
  rw [hinside]
  rfl

end Outlines

theorem outline?_stroke {f : Figure} (h : disc? s.path = some f) :
    s.outline? .stroke = some (f, s.pen.width) := by
  rw [outline?, h]
  rfl

end Replay

/-- What calls outline on a new canvas, each with its width, in the order of drawing. -/
def outlines? (cs : List (Command α)) : Option (List (Figure × α)) :=
  (Replay.create.outlining cs).map (·.1)

end Canvas

namespace Sketch
open Canvas

def lineWidth? : Sketch α → Option α
  | .line _ _ _ _ width _ => some width
  | _ => none

def isOutlined : Sketch α → Bool
  | .rect _ _ _ _ _ stroke? | .circle _ _ _ _ stroke? => stroke?.isSome
  | _ => false

def outline? (width : α) (k : Sketch α) : Option (Figure × α) :=
  if k.isOutlined then some (k.figure, width) else none

/-- The width of a pen after sketches: that of the last line, and of a new pen if there is none. -/
def penWidth (ks : List (Sketch α)) : α := (ks.filterMap lineWidth?).getLast?.getD Scalar.one

theorem penWidth_concat (ks : List (Sketch α)) (k : Sketch α) :
    penWidth (ks ++ [k]) = k.lineWidth?.getD (penWidth ks) := by
  rw [penWidth, List.filterMap_append]
  cases h : k.lineWidth? <;> simp [h, penWidth]

/-- A shape is outlined with the width that it finds, and only a line leaves another. -/
theorem outlines_calls (k : Sketch α) (s : Replay α) :
    s.Outlines k.calls (k.outline? s.pen.width).toList (k.lineWidth?.getD s.pen.width) := by
  cases k with
  | rect x y w h fill? stroke? => cases stroke? <;> exact ⟨_, rfl, rfl, rfl⟩
  | circle cx cy r fill? stroke? =>
    have hdisc := disc?_arc cx cy r
    refine .skip rfl rfl rfl (.skip rfl rfl rfl (.skip rfl rfl rfl ?_))
    refine .skip (Replay.step_fill hdisc) rfl rfl ?_
    cases stroke? with
    | none => exact .nil _
    | some stroke =>
      exact .skip rfl rfl rfl <|
        .stroke (Replay.step_stroke hdisc) (Replay.outline?_stroke hdisc) rfl (.nil _)
  | line => exact ⟨_, rfl, rfl, rfl⟩
  | text x y size content fill? =>
    let ready : Replay α :=
      { s with
        pen := { s.pen with
          fill := fill?.getD "black"
          font := Scalar.text size ++ "px sans-serif" } }
    have hsize : fontSize? ready.pen.font = some (Scalar.text size) := fontSize?_text _
    have hlast : ready.Outlines [.fillText content x y] [] s.pen.width :=
      .skip (Replay.step_fillText hsize content x y) rfl rfl (.nil _)
    exact .skip rfl rfl rfl (.skip rfl rfl rfl hlast)

end Sketch

namespace Picture
open Canvas Sketch

def sketch? : Picture α → Option (Sketch α)
  | .sketch k => some k
  | .group .. => none

mutual

def drawn (before : List (Sketch α)) : Picture α → List (List (Sketch α) × Sketch α)
  | .sketch k => [(before, k)]
  | .group _ _ parts => drawnAll before parts

def drawnAll (before : List (Sketch α)) : List (Picture α) → List (List (Sketch α) × Sketch α)
  | [] => []
  | p :: ps => drawn before p ++ drawnAll (before ++ p.sketch?.toList) ps

end

def outlines (ks : List (List (Sketch α) × Sketch α)) : List (Figure × α) :=
  ks.filterMap fun e => e.2.outline? (penWidth e.1)

mutual

/-- Where the pen is as wide as some sketches leave it, the outlines of a picture that comes after
them are drawn with the widths of the last lines. -/
theorem outlines_calls : (p : Picture α) → (before : List (Sketch α)) → (s : Replay α) →
    s.pen.width = penWidth before →
      s.Outlines p.calls (outlines (p.drawn before)) (penWidth (before ++ p.sketch?.toList))
  | .sketch k, before, s, hwidth => by
    have hk := k.outlines_calls s
    rw [hwidth] at hk
    rw [calls, drawn, outlines, sketch?, Option.toList_some, penWidth_concat, List.filterMap_cons]
    cases h : k.outline? (penWidth before) with
    | none => simpa [h] using hk
    | some o => simpa [h] using hk
  | .group x y parts, before, s, hwidth => by
    -- whatever width the parts leave, the one from before them comes back
    have hparts := outlines_callsAll parts before (s.enter x y) hwidth
    rw [calls, drawn, sketch?, Option.toList_none, List.append_nil, ← hwidth]
    exact .wrap hparts

theorem outlines_callsAll : (ps : List (Picture α)) → (before : List (Sketch α)) →
    (s : Replay α) → s.pen.width = penWidth before →
      s.Outlines (callsAll ps) (outlines (drawnAll before ps))
        (penWidth (before ++ ps.filterMap sketch?))
  | [], before, s, hwidth => by
    rw [List.filterMap_nil, List.append_nil, ← hwidth]
    exact .nil s
  | p :: ps, before, s, hwidth => by
    have hopen : before ++ p.sketch?.toList ++ ps.filterMap sketch? =
        before ++ (p :: ps).filterMap sketch? := by
      rw [List.filterMap_cons]
      cases p.sketch? <;> simp
    rw [callsAll, drawnAll, outlines, List.filterMap_append, ← hopen]
    exact (outlines_calls p before s hwidth).append fun t ht => outlines_callsAll ps _ t ht

end

theorem outlines?_calls (p : Picture α) : outlines? p.calls = some (outlines (p.drawn [])) := by
  obtain ⟨s, hrun, -⟩ := p.outlines_calls [] Replay.create rfl
  rw [outlines?, hrun, Option.map_some]

mutual

/-- Only a line has a width of its own. -/
theorem attribute?_strokeWidth : (p : Picture α) → (parent : Svg.NodeId) → (lo : Nat) →
    ∀ e ∈ p.elements parent lo, e.tag ≠ "line" → e.attribute? "stroke-width" = none
  | .sketch k, parent, lo, e, he, htag => by
    rw [elements] at he
    obtain rfl := List.mem_singleton.mp he
    cases k with
    | rect x y w h fill? stroke? =>
      cases fill? <;> cases stroke? <;>
        simp [Svg.Element.attribute?, Sketch.element, Sketch.attributes, Sketch.given]
    | circle cx cy r fill? stroke? =>
      cases fill? <;> cases stroke? <;>
        simp [Svg.Element.attribute?, Sketch.element, Sketch.attributes, Sketch.given]
    | line => exact absurd rfl htag
    | text x y size content fill? =>
      cases fill? <;>
        simp [Svg.Element.attribute?, Sketch.element, Sketch.attributes, Sketch.given]
  | .group x y parts, parent, lo, e, he, htag => by
    rw [elements] at he
    obtain rfl | he := List.mem_cons.mp he
    · rw [Svg.Element.attribute?, groupElement, transform]
      split <;> simp
    · exact attribute?_strokeWidthAll parts ⟨lo⟩ (lo + 1) e he htag

theorem attribute?_strokeWidthAll : (ps : List (Picture α)) → (parent : Svg.NodeId) → (lo : Nat) →
    ∀ e ∈ elementsAll parent lo ps, e.tag ≠ "line" → e.attribute? "stroke-width" = none
  | [], parent, lo, e, he, _ => absurd he List.not_mem_nil
  | p :: ps, parent, lo, e, he, htag => by
    rw [elementsAll] at he
    obtain he | he := List.mem_append.mp he
    · exact attribute?_strokeWidth p parent lo e he htag
    · exact attribute?_strokeWidthAll ps parent (lo + p.size) e he htag

end

theorem outlines_eq_one {ks : List (List (Sketch α) × Sketch α)} :
    (∀ o ∈ outlines ks, o.2 = Scalar.one) ↔
      ∀ before k, (before, k) ∈ ks → k.isOutlined = true → penWidth before = Scalar.one := by
  simp only [outlines, outline?, List.mem_filterMap]
  constructor
  · intro h before k hk houtlined
    exact h _ ⟨(before, k), hk, if_pos houtlined⟩
  · rintro h o ⟨⟨before, k⟩, hk, ho⟩
    obtain ⟨houtlined, hsome⟩ := Option.ite_none_right_eq_some.mp ho
    obtain rfl := Option.some.inj hsome
    exact h before k hk houtlined

end Picture

/-- A renderable of shapes on a canvas and in a document. On a new canvas every outline of a
rectangle or circle has the width of the last line before it in the groups that are still open, or
that of a new pen; so all have the latter just where no such line has another. In a document no new
element but those of lines has a width. -/
theorem outlined_by_last_line (r : Renderable φ α) (hshapes : r.OfShapes) :
    ∃ p : Picture α, r.Depicts p ∧
      (∀ recording, ∃ calls,
        r.paintCanvas.run recording =
          (.ok true, { recording with commands := recording.commands ++ calls.toArray }) ∧
        Canvas.outlines? calls = some (Picture.outlines (p.drawn []))) ∧
      ((∀ o ∈ Picture.outlines (p.drawn []), o.2 = Scalar.one) ↔
        ∀ before k, (before, k) ∈ p.drawn [] → k.isOutlined = true →
          Sketch.penWidth before = Scalar.one) ∧
      ∀ d parent, d.contains parent = true →
        ∃ n d', (r.paintSvg parent).run d = (.ok (some n), d') ∧
          ∀ m e, d.contains m = false → d'.element? m = some e → e.tag ≠ "line" →
            e.attribute? "stroke-width" = none := by
  obtain ⟨p, hp⟩ := hshapes.exists_picture
  refine ⟨p, hp, fun recording => ⟨p.calls, hp.canvas recording, p.outlines?_calls⟩,
    Picture.outlines_eq_one, fun d parent hparent => ⟨_, _, hp.svg d parent hparent, ?_⟩⟩
  intro m e hnew he htag
  have hlater : ¬m.index < d.nodes.size := by simpa [Svg.Document.contains] using hnew
  rw [Svg.Document.element?_graft, if_neg hlater] at he
  exact p.attribute?_strokeWidth parent _ e (List.mem_of_getElem? he) htag

def rail : Renderable Empty Exact :=
  (Shape.line.draft [("strokeWidth", .number (.fin 5)), ("x2", .number (.fin 9))]).node 1

def post : Renderable Empty Exact :=
  (Shape.rect.draft [("height", .number (.fin 3)), ("stroke", .string "red"),
    ("width", .number (.fin 4))]).node 2

def fenced (parts : List (Renderable Empty Exact)) : Renderable Empty Exact :=
  (Shape.group.draft (Shape.withChildren [] parts)).node 3

def fence : Renderable Empty Exact := fenced [fenced [rail], post, rail, post]

theorem fenced_ofShapes {parts : List (Renderable Empty Exact)} (h : ∀ r ∈ parts, r.OfShapes) :
    (fenced parts).OfShapes := by
  refine Shape.node_ofShapes (fun _ r hr => ?_) 3
  rw [Shape.children_withChildren] at hr
  exact h r hr

theorem fence_ofShapes : fence.OfShapes := by
  have hrail : rail.OfShapes := Shape.node_ofShapes (fun h => absurd h (by decide)) 1
  have hpost : post.OfShapes := Shape.node_ofShapes (fun h => absurd h (by decide)) 2
  refine fenced_ofShapes (List.forall_mem_cons.mpr ⟨?_, List.forall_mem_cons.mpr ⟨hpost,
    List.forall_mem_cons.mpr ⟨hrail, List.forall_mem_singleton.mpr hpost⟩⟩⟩)
  exact fenced_ofShapes (List.forall_mem_singleton.mpr hrail)

theorem fence_outlined :
    fence.OfShapes ∧ ∃ p : Picture Exact, fence.Depicts p ∧
      ∀ recording, ∃ calls,
        fence.paintCanvas.run recording =
          (.ok true, { recording with commands := recording.commands ++ calls.toArray }) ∧
        Canvas.outlines? calls = some (Picture.outlines (p.drawn [])) := by
  obtain ⟨p, hp, hcanvas, -⟩ := outlined_by_last_line fence fence_ofShapes
  exact ⟨fence_ofShapes, p, hp, hcanvas⟩

/-- The group hides its rail from the first post, but the second one is outlined with the width of
the rail before it. -/
theorem second_post_is_wide :
    fence.OfShapes ∧
      Canvas.outlines? (fence.paintCanvas.run (.create none)).2.commands.toList =
        some [(.rect "0" "0" "4" "3", Scalar.one), (.rect "0" "0" "4" "3", .fin 5)] ∧
      (.fin 5 : Exact) ≠ Scalar.one := by
  refine ⟨fence_ofShapes, ?_, by decide⟩
  decide +kernel

end Scene
