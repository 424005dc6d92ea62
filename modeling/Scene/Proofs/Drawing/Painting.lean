import Scene.Proofs.Drawing.Elements
import Scene.Proofs.Drawing.Calls

/-! What the painters of the built-in shapes do: a renderable of shapes has a picture, and each of
its painters draws that picture, in any document and on any canvas. -/
namespace Scene
open Primitive
variable {φ α β γ σ : Type}

theorem run_bind (x : ExceptT (PaintError α) (StateM σ) β)
    (f : β → ExceptT (PaintError α) (StateM σ) γ) (s : σ) :
    (x >>= f).run s =
      match x.run s with
      | (.ok b, s') => (f b).run s'
      | (.error e, s') => (.error e, s') := by
  change (ExceptT.bindCont f (x.run s).1).run (x.run s).2 = _
  obtain ⟨r, s'⟩ := x.run s
  cases r <;> rfl

def SvgPaint.Gives (x : SvgPaint α β) (d : Svg.Document) (b : β) (d' : Svg.Document) : Prop :=
  x.run d = (.ok b, d')

/-- Ends with a result after these calls, whatever was recorded before. -/
def CanvasPaint.Calls (x : CanvasPaint α β) (cs : List (Canvas.Command α)) (b : β) : Prop :=
  ∀ r, x.run r = (.ok b, { r with commands := r.commands ++ cs.toArray })

namespace Renderable

/-- Both painters draw the picture, wherever they are used. -/
structure Depicts [Scalar α] (r : Renderable φ α) (p : Picture α) : Prop where
  svg (d : Svg.Document) (parent : Svg.NodeId) (h : d.contains parent = true) :
    (r.paintSvg parent).Gives d (some d.nextId)
      (d.graft parent [d.nextId] (p.elements parent d.nodes.size))
  canvas : r.paintCanvas.Calls p.calls true

end Renderable

def Shape.sketch? [Scalar α] (s : Shape) (props : Props φ α) : Option (Sketch α) :=
  match s with
  | .rect => some (.rect (number props "x") (number props "y") (number props "width")
      (number props "height") (string? props "fill") (string? props "stroke"))
  | .circle => some (.circle (number props "cx") (number props "cy") (number props "r")
      (string? props "fill") (string? props "stroke"))
  | .line => some (.line (number props "x1") (number props "y1") (number props "x2")
      (number props "y2") (number props "strokeWidth") ((string? props "stroke").getD "black"))
  | .text => some (.text (number props "x") (number props "y") (number props "fontSize")
      ((string? props "text").getD "") (string? props "fill"))
  | .group | .frame => none

/-! On a canvas. -/

namespace CanvasPaint.Calls
variable {x : CanvasPaint α β} {f : β → CanvasPaint α γ} {cs ds : List (Canvas.Command α)} {b : β}
  {c : γ}

theorem pure (b : β) : Calls (α := α) (Pure.pure b) [] b := by
  intro r
  change (Except.ok b, r) = _
  simp

theorem bind (hx : Calls x cs b) (hf : Calls (f b) ds c) : Calls (x >>= f) (cs ++ ds) c := by
  intro r
  rw [run_bind, hx]
  refine (hf _).trans ?_
  simp

theorem draw {f : Unit → CanvasPaint α γ} (k : Canvas.Command α) (h : Calls (f ()) ds c) :
    Calls (Primitive.draw k >>= f) (k :: ds) c := by
  have hdraw : Calls (Primitive.draw k) [k] () := fun _ => rfl
  exact bind hdraw h

theorem fillStyle {f : Unit → CanvasPaint α γ} (props : Props φ α) (h : Calls (f ()) ds c) :
    Calls (Primitive.fillStyle props >>= f)
      (.setFillStyle ((string? props "fill").getD "black") :: ds) c :=
  draw _ h

theorem strokes (props : Props φ α) (k : Canvas.Command α) :
    Calls (do
      if let some stroke := string? props "stroke" then
        Primitive.draw (.setStrokeStyle stroke)
        Primitive.draw k
      Pure.pure true) (Sketch.strokes (string? props "stroke") k) true := by
  cases string? props "stroke" with
  | none => exact pure true
  | some stroke => exact draw _ (draw _ (pure true))

variable [Scalar α]

theorem sketch {shape : Shape} {props : Props φ α} {s : Sketch α}
    (h : shape.sketch? props = some s) : Calls (shape.painters props).canvas s.calls true := by
  cases shape with
  | rect =>
    obtain rfl := Option.some.inj h
    exact fillStyle props (draw _ (strokes props _))
  | circle =>
    obtain rfl := Option.some.inj h
    exact draw _ (draw _ (fillStyle props (draw _ (strokes props _))))
  | line =>
    obtain rfl := Option.some.inj h
    exact draw _ (draw _ (draw _ (draw _ (draw _ (draw _ (pure true))))))
  | text =>
    obtain rfl := Option.some.inj h
    exact draw _ (fillStyle props (draw _ (pure true)))
  | group => contradiction
  | frame => contradiction

theorem drawAll {rs : List (Renderable φ α)} {ps : List (Picture α)}
    (h : List.Forall₂ Renderable.Depicts rs ps) :
    Calls (Primitive.drawAll rs) (Picture.callsAll ps) true := by
  induction h with
  | nil => exact pure true
  | cons hfirst _ ih =>
    have hrest := bind ih (pure true)
    rw [List.append_nil] at hrest
    rw [Picture.callsAll]
    exact bind hfirst.canvas hrest

theorem group {props : Props φ α} {ps : List (Picture α)}
    (h : List.Forall₂ Renderable.Depicts (children props) ps) :
    Calls (groupCanvas props)
      (Picture.group (number props "x") (number props "y") ps).calls true := by
  rw [Picture.calls]
  exact draw _ (draw _ (bind (drawAll h) (draw _ (pure true))))

end CanvasPaint.Calls

/-! In a document. -/

namespace SvgPaint

def Alters (x : Svg.NodeId → SvgPaint α Unit) (g : Svg.Element → Svg.Element) : Prop :=
  ∀ (d : Svg.Document) parent starts e,
    Gives (x d.nextId) (d.graft parent starts [e]) () (d.graft parent starts [g e])

def given (name : String) (value? : Option String) (e : Svg.Element) : Svg.Element :=
  match value? with
  | some v => { e with attributes := Svg.setEntry name v e.attributes }
  | none => e

namespace Gives
variable {x : SvgPaint α β} {f : β → SvgPaint α γ} {d d' d'' : Svg.Document} {b : β} {c : γ}

theorem pure (b : β) (d : Svg.Document) : Gives (α := α) (Pure.pure b) d b d := rfl

theorem bind (hx : Gives x d b d') (hf : Gives (f b) d' c d'') : Gives (x >>= f) d c d'' := by
  rw [Gives, run_bind, hx]
  exact hf

end Gives

namespace Alters

theorem ofModify (g : Svg.Element → Svg.Element) :
    Alters (α := α) (fun n => modify fun d => d.modify n g) g := by
  intro d parent starts e
  rw [← Svg.Document.modify_graft]
  rfl

theorem setAttribute (name value : String) :
    Alters (α := α) (fun n => Primitive.setAttribute n name value) (given name (some value)) :=
  ofModify (given name (some value))

theorem stringAttribute (props : Props φ α) (name : String) :
    Alters (fun n => Primitive.stringAttribute n props name) (given name (string? props name)) := by
  intro d parent starts e
  change Gives (Primitive.stringAttribute _ props name) _ _ _
  rw [Primitive.stringAttribute]
  cases string? props name with
  | none => exact .pure () _
  | some value => exact setAttribute name value d parent starts e

theorem numberAttributes [Scalar α] (props : Props φ α) (names : List String) :
    Alters (fun n => Primitive.numberAttributes n props names) fun e =>
      names.foldl (fun e name => given name (some (Scalar.text (number props name))) e) e := by
  intro d parent starts e
  induction names generalizing e with
  | nil => exact .pure () _
  | cons name names ih => exact (setAttribute name _ d parent starts e).bind (ih _)

end Alters

namespace Gives
variable {d : Svg.Document} {parent : Svg.NodeId}

theorem element (h : d.contains parent = true) (tag shape : String) :
    Gives (Primitive.element parent tag shape : SvgPaint α Svg.NodeId) d d.nextId
      (d.graft parent [d.nextId] [⟨tag, [], [shape], none, [], some parent⟩]) := by
  have happend : Gives (modifyGet fun d => d.append parent tag : SvgPaint α Svg.NodeId) d d.nextId
      (d.graft parent [d.nextId] [⟨tag, [], [], none, [], some parent⟩]) := by
    change (Except.ok (d.append parent tag).1, (d.append parent tag).2) = _
    rw [Svg.Document.append_eq_graft h]
    rfl
  exact happend.bind ((Alters.ofModify _ d parent _ _).bind (pure _ _))

theorem of_eq {x : SvgPaint α β} {b : β} {starts : List Svg.NodeId} {e e' : Svg.Element}
    (he : e = e') (h : Gives x d b (d.graft parent starts [e])) :
    Gives x d b (d.graft parent starts [e']) :=
  he ▸ h

variable [Scalar α]

/-- Rectangles and circles differ in their tags and numbers only. -/
theorem filled (props : Props φ α) (hparent : d.contains parent = true) (tag : String)
    (names : List String) :
    Gives (do
      let n ← Primitive.element parent tag tag
      Primitive.numberAttributes n props names
      Primitive.stringAttribute n props "fill"
      Primitive.stringAttribute n props "stroke"
      Pure.pure (some n)) d (some d.nextId)
      (d.graft parent [d.nextId] [given "stroke" (string? props "stroke")
        (given "fill" (string? props "fill")
          (names.foldl (fun e name => given name (some (Scalar.text (number props name))) e)
            ⟨tag, [], [tag], none, [], some parent⟩))]) :=
  (element hparent tag tag).bind
    ((Alters.numberAttributes props names _ _ _ _).bind
      ((Alters.stringAttribute props "fill" _ _ _ _).bind
        ((Alters.stringAttribute props "stroke" _ _ _ _).bind (pure _ _))))

theorem sketch {shape : Shape} {props : Props φ α} {s : Sketch α}
    (h : shape.sketch? props = some s) (hparent : d.contains parent = true) :
    Gives ((shape.painters props).svg parent) d (some d.nextId)
      (d.graft parent [d.nextId] [{ s.element with parent := some parent }]) := by
  cases shape with
  | rect =>
    obtain rfl := Option.some.inj h
    refine of_eq ?_ (filled props hparent "rect" ["x", "y", "width", "height"])
    cases string? props "fill" <;> cases string? props "stroke" <;>
      simp [given, Svg.setEntry, Sketch.element, Sketch.attributes, Sketch.tag, Sketch.content?,
        Sketch.given]
  | circle =>
    obtain rfl := Option.some.inj h
    refine of_eq ?_ (filled props hparent "circle" ["cx", "cy", "r"])
    cases string? props "fill" <;> cases string? props "stroke" <;>
      simp [given, Svg.setEntry, Sketch.element, Sketch.attributes, Sketch.tag, Sketch.content?,
        Sketch.given]
  | line =>
    obtain rfl := Option.some.inj h
    refine of_eq ?_ ((element hparent "line" "line").bind
      ((Alters.numberAttributes props _ _ _ _ _).bind
        ((Alters.setAttribute _ _ _ _ _ _).bind
          ((Alters.setAttribute _ _ _ _ _ _).bind (pure _ _)))))
    simp [given, Svg.setEntry, Sketch.element, Sketch.attributes, Sketch.tag, Sketch.content?,
      defaultFill]
  | text =>
    obtain rfl := Option.some.inj h
    refine of_eq ?_ ((element hparent "text" "text").bind
      ((Alters.numberAttributes props _ _ _ _ _).bind
        ((Alters.setAttribute _ _ _ _ _ _).bind
          ((Alters.stringAttribute props _ _ _ _ _).bind
            ((Alters.ofModify _ _ _ _ _).bind (pure _ _))))))
    cases string? props "fill" <;>
      simp [given, Svg.setEntry, Sketch.element, Sketch.attributes, Sketch.tag, Sketch.content?,
        Sketch.given]
  | group => contradiction
  | frame => contradiction

theorem paintAll {rs : List (Renderable φ α)} {ps : List (Picture α)}
    (h : List.Forall₂ Renderable.Depicts rs ps) (hparent : d.contains parent = true) :
    Gives (rs.forM fun c => do let _ ← c.paintSvg parent) d ()
      (d.graft parent (Picture.starts d.nodes.size ps)
        (Picture.elementsAll parent d.nodes.size ps)) := by
  induction h generalizing d with
  | nil =>
    rw [Picture.starts, Picture.elementsAll, Svg.Document.graft_nil]
    exact pure () d
  | @cons r p rs ps hfirst _ ih =>
    have hpainted : Gives (do let _ ← r.paintSvg parent) d ()
        (d.graft parent [d.nextId] (p.elements parent d.nodes.size)) :=
      (hfirst.svg d parent hparent).bind (pure () _)
    -- the blocks of the rest start where the first one ends
    have hrest := ih
      (Svg.Document.contains_graft hparent parent [d.nextId] (p.elements parent d.nodes.size))
    rw [Svg.Document.graft_graft _ _ _ _ hparent, Svg.Document.size_graft,
      Picture.length_elements] at hrest
    exact hpainted.bind hrest

theorem group {props : Props φ α} {ps : List (Picture α)}
    (h : List.Forall₂ Renderable.Depicts (children props) ps) (hparent : d.contains parent = true) :
    Gives (groupSvg props parent) d (some d.nextId)
      (d.graft parent [d.nextId]
        ((Picture.group (number props "x") (number props "y") ps).elements parent
          d.nodes.size)) := by
  -- what comes after the transform, whether it was set or not
  have hinside (attributes : List (String × String)) :
      Gives (do
        (children props).forM fun c => do let _ ← c.paintSvg d.nextId
        Pure.pure (some d.nextId))
        (d.graft parent [d.nextId] [⟨"g", attributes, ["group"], none, [], some parent⟩])
        (some d.nextId)
        (d.graft parent [d.nextId]
          (⟨"g", attributes, ["group"], none, Picture.starts (d.nodes.size + 1) ps, some parent⟩ ::
            Picture.elementsAll d.nextId (d.nodes.size + 1) ps)) := by
    have hnew : (d.graft parent [d.nextId]
        [⟨"g", attributes, ["group"], none, [], some parent⟩]).contains d.nextId = true := by
      simp [Svg.Document.contains, Svg.Document.nextId]
    have hparts := paintAll h hnew
    rw [Svg.Document.graft_below, Svg.Document.size_graft] at hparts
    exact hparts.bind (pure _ _)
  rw [Picture.elements, Picture.groupElement, Picture.transform, groupSvg]
  refine (element hparent "g" "group").bind ?_
  by_cases hmoved :
      (!(number props "x" == Scalar.zero) || !(number props "y" == Scalar.zero)) = true
  · rw [if_pos hmoved]
    dsimp only
    rw [if_pos hmoved]
    exact (Alters.setAttribute _ _ d parent _ _).bind (hinside _)
  · rw [if_neg hmoved]
    dsimp only
    rw [if_neg hmoved]
    exact hinside []

end Gives
end SvgPaint

def Shape.nests : Shape → Bool
  | .group | .frame => true
  | _ => false

theorem Shape.exists_sketch [Scalar α] {s : Shape} (h : s.nests = false) (props : Props φ α) :
    ∃ k, s.sketch? props = some k := by
  cases s with
  | group => contradiction
  | frame => contradiction
  | _ => exact ⟨_, rfl⟩

theorem Shape.painters_of_nests [Scalar α] {s : Shape} (h : s.nests = true) (props : Props φ α) :
    s.painters props = ⟨groupSvg props, groupCanvas props⟩ := by
  cases s with
  | group => rfl
  | frame => rfl
  | _ => contradiction

theorem exists_forall₂ {R : β → γ → Prop} {bs : List β} (h : ∀ b ∈ bs, ∃ c, R b c) :
    ∃ cs, List.Forall₂ R bs cs := by
  induction bs with
  | nil => exact ⟨[], .nil⟩
  | cons b bs ih =>
    obtain ⟨c, hc⟩ := h b List.mem_cons_self
    obtain ⟨cs, hcs⟩ := ih fun b' hb' => h b' (List.mem_cons_of_mem b hb')
    exact ⟨c :: cs, .cons hc hcs⟩

namespace Renderable

theorem paintSvg_gives {r : Renderable φ α} {d d' : Svg.Document} {parent : Svg.NodeId}
    {n : Option Svg.NodeId} (h : d.contains parent = true)
    (hpaint : (r.painters.svg parent).Gives d n d') : (r.paintSvg parent).Gives d n d' := by
  have hget : SvgPaint.Gives (get : SvgPaint α Svg.Document) d d d := rfl
  refine hget.bind ?_
  rw [if_pos h]
  exact hpaint

variable [Scalar α]

/-- Painted as a built-in shape, and so is all that is nested in it. -/
inductive OfShapes : Renderable φ α → Prop where
  | intro {r : Renderable φ α} (s : Shape) (painters_eq : r.painters = s.painters r.props)
      (nested : s.nests = true → ∀ c ∈ children r.props, OfShapes c) : OfShapes r

theorem OfShapes.exists_picture {r : Renderable φ α} (h : r.OfShapes) :
    ∃ p : Picture α, r.Depicts p := by
  induction h with
  | @intro r s hpainters _ ih =>
    cases hnests : s.nests with
    | false =>
      obtain ⟨k, hk⟩ := Shape.exists_sketch hnests r.props
      refine ⟨.sketch k, fun d parent hparent => paintSvg_gives hparent ?_, ?_⟩
      · rw [hpainters]
        exact .sketch hk hparent
      · rw [paintCanvas, hpainters]
        exact .sketch hk
    | true =>
      obtain ⟨ps, hps⟩ := exists_forall₂ (ih hnests)
      rw [Shape.painters_of_nests hnests] at hpainters
      refine ⟨.group (number r.props "x") (number r.props "y") ps,
        fun d parent hparent => paintSvg_gives hparent ?_, ?_⟩
      · rw [hpainters]
        exact .group hps hparent
      · rw [paintCanvas, hpainters]
        exact .group hps

end Renderable
end Scene
