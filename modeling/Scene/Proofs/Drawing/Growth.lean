import Scene.Proofs.Drawing.Painting
import Scene.Proofs.Svg.Tree
import Scene.Rendering

/-! Drawing where it cannot fail. What draws a shape with its children, or nothing at all, ends on
every canvas, and in every document that has the parent; there it only adds, and so leaves a tree a
tree. -/
namespace Scene
open Relation

def Svg.Edit.Adds : Svg.Edit → Prop
  | .append .. | .setAttribute .. | .addClass .. | .setText .. => True
  | _ => False

namespace Svg.Document
variable {d d' d'' : Document} {n : NodeId}

/-- What comes of a document by additions. -/
def Grown : Document → Document → Prop :=
  ReflTransGen fun d d' => ∃ e : Edit, e.Adds ∧ d' = e.apply d

namespace Grown

theorem refl (d : Document) : Grown d d := ReflTransGen.refl

theorem trans (h : Grown d d') (h' : Grown d' d'') : Grown d d'' := ReflTransGen.trans h h'

theorem edit (d : Document) (e : Edit) (he : e.Adds) : Grown d (e.apply d) := .single ⟨e, he, rfl⟩

theorem contains (h : Grown d d') (hn : d.contains n = true) : d'.contains n = true := by
  induction h with
  | refl => exact hn
  | tail _ hstep ih =>
    obtain ⟨e, -, rfl⟩ := hstep
    exact contains_apply ih e

/-- No addition puts an element below itself. -/
theorem linked_isTree (h : Grown d d') (hl : d.Linked) (ht : d.IsTree) : d'.Linked ∧ d'.IsTree := by
  induction h with
  | refl => exact ⟨hl, ht⟩
  | tail _ hstep ih =>
    obtain ⟨e, hadds, rfl⟩ := hstep
    refine ⟨ih.1.apply e, (ih.2.apply_iff ih.1 e).mpr ?_⟩
    cases e with
    | append => exact id
    | setAttribute => exact id
    | addClass => exact id
    | setText => exact id
    | _ => exact hadds.elim

end Grown
end Svg.Document

variable {φ α β γ : Type}

def SvgPaint.Adds (x : SvgPaint α β) (d : Svg.Document) : Prop :=
  ∃ b d', x.Gives d b d' ∧ d.Grown d'

namespace SvgPaint.Adds
open Primitive
variable {x : SvgPaint α β} {f : β → SvgPaint α γ} {d : Svg.Document}

theorem pure (b : β) (d : Svg.Document) : Adds (Pure.pure b : SvgPaint α β) d :=
  ⟨b, d, .pure b d, .refl d⟩

theorem bind (hx : Adds x d) (hf : ∀ b d', x.Gives d b d' → d.Grown d' → Adds (f b) d') :
    Adds (x >>= f) d := by
  obtain ⟨b, d', hb, hgrown⟩ := hx
  obtain ⟨c, d'', hc, hgrown'⟩ := hf b d' hb hgrown
  exact ⟨c, d'', hb.bind hc, hgrown.trans hgrown'⟩

theorem edit (e : Svg.Edit) (he : e.Adds) :
    Adds (modify fun d => e.apply d : SvgPaint α Unit) d :=
  ⟨(), _, rfl, .edit d e he⟩

theorem setAttribute (n : Svg.NodeId) (name value : String) :
    Adds (Primitive.setAttribute n name value : SvgPaint α Unit) d :=
  edit (.setAttribute n name value) trivial

theorem stringAttribute (n : Svg.NodeId) (props : Props φ α) (key : String) :
    Adds (Primitive.stringAttribute n props key) d := by
  rw [Primitive.stringAttribute]
  split
  · exact setAttribute n key _
  · exact pure () d

theorem forM {l : List γ} {f : γ → SvgPaint α Unit}
    (hf : ∀ c ∈ l, ∀ d', d.Grown d' → Adds (f c) d') : Adds (l.forM f) d := by
  induction l generalizing d with
  | nil => exact pure () d
  | cons c l ih =>
    refine bind (hf c List.mem_cons_self d (.refl d)) fun _ d' _ hgrown => ih fun c' hc' d'' h => ?_
    exact hf c' (List.mem_cons_of_mem c hc') d'' (hgrown.trans h)

theorem element (parent : Svg.NodeId) (tag shape : String) :
    Adds (Primitive.element parent tag shape : SvgPaint α Svg.NodeId) d := by
  have happend : Adds (modifyGet fun d => d.append parent tag : SvgPaint α Svg.NodeId) d :=
    ⟨_, _, rfl, .edit d (.append parent tag) trivial⟩
  refine bind happend fun n _ _ _ => bind (edit (.addClass n shape) trivial) fun _ d' _ _ => ?_
  exact pure n d'

theorem contains_of_element {parent n : Svg.NodeId} {d' : Svg.Document} {tag shape : String}
    (hparent : d.contains parent = true)
    (h : (Primitive.element parent tag shape : SvgPaint α Svg.NodeId).Gives d n d') :
    d'.contains n = true := by
  rw [SvgPaint.Gives, SvgPaint.Gives.element hparent tag shape] at h
  cases h
  simp [Svg.Document.contains, Svg.Document.nextId]

variable [Scalar α]

theorem numberAttributes (n : Svg.NodeId) (props : Props φ α) (keys : List String) :
    Adds (Primitive.numberAttributes n props keys) d :=
  forM fun _ _ _ _ => setAttribute n _ _

/-- Rectangles and circles differ in their tags and numbers only. -/
theorem filled (props : Props φ α) (parent : Svg.NodeId) (tag : String) (names : List String) :
    Adds (do
      let n ← Primitive.element parent tag tag
      Primitive.numberAttributes n props names
      Primitive.stringAttribute n props "fill"
      Primitive.stringAttribute n props "stroke"
      Pure.pure (some n)) d :=
  bind (element parent tag tag) fun n _ _ _ => bind (numberAttributes n props names) fun _ _ _ _ =>
    bind (stringAttribute n props "fill") fun _ _ _ _ =>
      bind (stringAttribute n props "stroke") fun _ _ _ _ => pure _ _

theorem leaf {s : Shape} (hs : s.nests = false) (props : Props φ α) (parent : Svg.NodeId) :
    Adds ((s.painters props).svg parent) d := by
  cases s with
  | rect => exact filled props parent "rect" ["x", "y", "width", "height"]
  | circle => exact filled props parent "circle" ["cx", "cy", "r"]
  | line =>
    refine bind (element parent _ _) fun n _ _ _ => bind (numberAttributes n props _) fun _ _ _ _ =>
      bind (setAttribute n _ _) fun _ _ _ _ => bind (setAttribute n _ _) fun _ _ _ _ => pure _ _
  | text =>
    refine bind (element parent _ _) fun n _ _ _ => bind (numberAttributes n props _) fun _ _ _ _ =>
      bind (setAttribute n _ _) fun _ _ _ _ => bind (stringAttribute n props _) fun _ _ _ _ =>
        bind (edit (.setText n _) trivial) fun _ _ _ _ => pure _ _
  | group => contradiction
  | frame => contradiction

theorem group {props : Props φ α} {parent : Svg.NodeId} (hparent : d.contains parent = true)
    (hchildren : ∀ c ∈ children props, ∀ (d : Svg.Document) (n : Svg.NodeId),
      d.contains n = true → Adds (c.paintSvg n) d) : Adds (groupSvg props parent) d := by
  refine bind (element parent "g" "group") fun n d' hn _ => ?_
  have hinside : d'.contains n = true := contains_of_element hparent hn
  -- what comes after the transform, whether it was set or not
  have hrest (d'' : Svg.Document) (hgrown : d'.Grown d'') : Adds (do
      (children props).forM fun c => do let _ ← c.paintSvg n
      Pure.pure (some n)) d'' := by
    refine bind (forM fun c hc d₃ hgrown' => ?_) fun _ _ _ _ => pure _ _
    have hpaint := hchildren c hc d₃ n ((hgrown.trans hgrown').contains hinside)
    exact bind hpaint fun _ _ _ _ => pure () _
  by_cases hmoved :
      (!(number props "x" == Scalar.zero) || !(number props "y" == Scalar.zero)) = true
  · rw [if_pos hmoved]
    exact bind (setAttribute n _ _) fun _ d'' _ hgrown => hrest d'' hgrown
  · rw [if_neg hmoved]
    exact hrest d' (.refl d')

end SvgPaint.Adds

theorem CanvasPaint.Calls.exists_drawAll [Scalar α] {rs : List (Renderable φ α)}
    (h : ∀ r ∈ rs, ∃ cs, r.paintCanvas.Calls cs true) :
    ∃ cs, (Primitive.drawAll rs).Calls cs true := by
  induction rs with
  | nil => exact ⟨[], pure true⟩
  | cons r rs ih =>
    obtain ⟨cs, hcs⟩ := h r List.mem_cons_self
    obtain ⟨ds, hds⟩ := ih fun r' hr' => h r' (List.mem_cons_of_mem r hr')
    exact ⟨_, hcs.bind (hds.bind (pure true))⟩

namespace Renderable
open Primitive
variable [Scalar α]

/-- Painted as a built-in shape or not at all, and so is all that is nested in it. -/
inductive Drawable : Renderable φ α → Prop where
  | empty {r : Renderable φ α} (painters_eq : r.painters = (Draft.empty : Draft φ α).painters) :
    Drawable r
  | shape {r : Renderable φ α} (s : Shape) (painters_eq : r.painters = s.painters r.props)
    (nested : s.nests = true → ∀ c ∈ children r.props, Drawable c) : Drawable r

namespace Drawable
variable {r : Renderable φ α}

theorem svg (h : r.Drawable) (d : Svg.Document) (parent : Svg.NodeId)
    (hparent : d.contains parent = true) : SvgPaint.Adds (r.paintSvg parent) d := by
  induction h generalizing d parent with
  | @empty r hpainters =>
    obtain ⟨b, d', hpaint, hgrown⟩ := SvgPaint.Adds.pure (α := α) (none : Option Svg.NodeId) d
    refine ⟨b, d', paintSvg_gives hparent ?_, hgrown⟩
    rw [hpainters]
    exact hpaint
  | @shape r s hpainters _ ih =>
    have hadds : SvgPaint.Adds ((s.painters r.props).svg parent) d := by
      cases hnests : s.nests with
      | false => exact .leaf hnests r.props parent
      | true =>
        rw [Shape.painters_of_nests hnests]
        exact .group hparent fun c hc d n hn => ih hnests c hc d n hn
    obtain ⟨b, d', hpaint, hgrown⟩ := hadds
    exact ⟨b, d', paintSvg_gives hparent (hpainters ▸ hpaint), hgrown⟩

theorem canvas (h : r.Drawable) : ∃ cs, r.paintCanvas.Calls cs true := by
  induction h with
  | @empty r hpainters =>
    refine ⟨[], ?_⟩
    rw [paintCanvas, hpainters]
    exact .pure true
  | @shape r s hpainters _ ih =>
    rw [paintCanvas, hpainters]
    cases hnests : s.nests with
    | false =>
      obtain ⟨k, hk⟩ := Shape.exists_sketch hnests r.props
      exact ⟨_, .sketch hk⟩
    | true =>
      obtain ⟨cs, hcs⟩ := CanvasPaint.Calls.exists_drawAll fun c hc => ih hnests c hc
      rw [Shape.painters_of_nests hnests]
      exact ⟨_, .draw _ (.draw _ (hcs.bind (.draw _ (.pure true))))⟩

end Drawable
end Renderable
end Scene
