import Mathlib.Data.List.Basic
import Scene.Proofs.Drawing.Picture
import Scene.Primitive.Painting

/-! Pictures as calls on a canvas. Calls are replayed with a stack of saved pens to see what shapes
they show; from the calls of a picture that gives the marks of the picture. -/
namespace Scene

namespace Canvas
variable {α : Type}

/-- How many saved states are left after some calls; nothing where one is restored that was not
saved. -/
def nesting? : Nat → List (Command α) → Option Nat
  | n, [] => some n
  | n, .save :: cs => nesting? (n + 1) cs
  | 0, .restore :: _ => none
  | n + 1, .restore :: cs => nesting? n cs
  | n, _ :: cs => nesting? n cs

def Balanced (cs : List (Command α)) : Prop := nesting? 0 cs = some 0

theorem nesting?_append (n : Nat) (cs ds : List (Command α)) :
    nesting? n (cs ++ ds) = (nesting? n cs).bind fun m => nesting? m ds := by
  induction cs generalizing n with
  | nil => rfl
  | cons c cs ih =>
    cases c with
    | restore =>
      cases n with
      | zero => rfl
      | succ n => exact ih n
    | _ => exact ih _

/-- What was saved before some calls they leave alone. -/
theorem nesting?_add {n m : Nat} {cs : List (Command α)} (h : nesting? n cs = some m) (k : Nat) :
    nesting? (n + k) cs = some (m + k) := by
  induction cs generalizing n with
  | nil =>
    obtain rfl : n = m := Option.some.inj h
    rfl
  | cons c cs ih =>
    cases c with
    | save =>
      have hsaved := ih (n := n + 1) h
      rwa [Nat.add_right_comm] at hsaved
    | restore =>
      cases n with
      | zero => contradiction
      | succ n =>
        rw [Nat.succ_add]
        exact ih h
    | _ => exact ih h

namespace Balanced

theorem nil : Balanced ([] : List (Command α)) := rfl

theorem append {cs ds : List (Command α)} (hc : Balanced cs) (hd : Balanced ds) :
    Balanced (cs ++ ds) := by
  rw [Balanced, nesting?_append, hc]
  exact hd

/-- A call that neither saves nor restores. -/
theorem cons {c : Command α} {cs : List (Command α)} (hc : nesting? 0 [c] = some 0)
    (hcs : Balanced cs) : Balanced (c :: cs) :=
  append hc hcs

theorem wrap {cs : List (Command α)} (h : Balanced cs) :
    Balanced (.save :: (cs ++ [.restore])) := by
  have hinside : nesting? 1 cs = some 1 := nesting?_add h 1
  rw [Balanced, nesting?, nesting?_append, hinside]
  rfl

end Balanced

structure Pen (α : Type) where
  /-- Offsets in force, as they are written, the first one first. -/
  offsets : List (String × String)
  fill : String
  stroke : String
  width : α
  font : String

structure Replay (α : Type) where
  pen : Pen α
  saved : List (Pen α)
  path : List (Command α)
  /-- The shapes so far, the last one first. -/
  marks : List Mark

def fontSize? (font : String) : Option String :=
  (font.toList.dropSuffix? "px sans-serif".toList).map String.ofList

variable [Scalar α]

def disc? : List (Command α) → Option Figure
  | [.arc x y r start stop] =>
    if Scalar.text start = Scalar.text (Scalar.zero : α) ∧
        Scalar.text stop = Scalar.text (Primitive.turn : α) then
      some (.circle (Scalar.text x) (Scalar.text y) (Scalar.text r))
    else none
  | _ => none

def segment? (width : α) : List (Command α) → Option Figure
  | [.moveTo x1 y1, .lineTo x2 y2] =>
    some (.line (Scalar.text x1) (Scalar.text y1) (Scalar.text x2) (Scalar.text y2)
      (Scalar.text width))
  | _ => none

/-- A stroke around what was filled last, in the same place, is a part of it; any other is a shape
of its own. -/
def outlined (m : Mark) : List Mark → List Mark
  | [] => [m]
  | last :: rest =>
    if last.figure = m.figure ∧ last.offsets = m.offsets ∧ last.stroke? = none then
      { last with stroke? := m.stroke? } :: rest
    else m :: last :: rest

namespace Replay

def create : Replay α := ⟨⟨[], "black", "black", Scalar.one, "10px sans-serif"⟩, [], [], []⟩

def paint (s : Replay α) (f : Figure) : Replay α :=
  { s with marks := ⟨f, s.pen.offsets, some s.pen.fill, none⟩ :: s.marks }

def outline (s : Replay α) (f : Figure) : Replay α :=
  { s with marks := outlined ⟨f, s.pen.offsets, none, some s.pen.stroke⟩ s.marks }

def trace (s : Replay α) (f : Figure) : Replay α :=
  { s with marks := ⟨f, s.pen.offsets, none, some s.pen.stroke⟩ :: s.marks }

/-- One call; nothing where no shape comes out of it, or no pen was saved. -/
def step (s : Replay α) : Command α → Option (Replay α)
  | .save => some { s with saved := s.pen :: s.saved }
  | .restore =>
    match s.saved with
    | pen :: saved => some { s with pen, saved }
    | [] => none
  | .translate x y =>
    some { s with pen := { s.pen with offsets := s.pen.offsets ++ [writtenOffset x y] } }
  | .setFillStyle style => some { s with pen := { s.pen with fill := style } }
  | .setStrokeStyle style => some { s with pen := { s.pen with stroke := style } }
  | .setLineWidth width => some { s with pen := { s.pen with width } }
  | .setFont font => some { s with pen := { s.pen with font } }
  | .fillRect x y w h =>
    some (s.paint (.rect (Scalar.text x) (Scalar.text y) (Scalar.text w) (Scalar.text h)))
  | .strokeRect x y w h =>
    some (s.outline (.rect (Scalar.text x) (Scalar.text y) (Scalar.text w) (Scalar.text h)))
  | .beginPath => some { s with path := [] }
  | .fill => (disc? s.path).map s.paint
  | .stroke =>
    match disc? s.path with
    | some f => some (s.outline f)
    | none => (segment? s.pen.width s.path).map s.trace
  | .fillText content x y =>
    (fontSize? s.pen.font).map fun size =>
      s.paint (.text (Scalar.text x) (Scalar.text y) size content)
  | c => some { s with path := s.path ++ [c] }

def run (s : Replay α) (cs : List (Command α)) : Option (Replay α) := cs.foldlM step s

theorem step_fill {s : Replay α} {f : Figure} (h : disc? s.path = some f) :
    s.step .fill = some (s.paint f) := by
  rw [step, h]
  rfl

theorem step_stroke {s : Replay α} {f : Figure} (h : disc? s.path = some f) :
    s.step .stroke = some (s.outline f) := by
  rw [step, h]

theorem step_fillText {s : Replay α} {size : String} (h : fontSize? s.pen.font = some size)
    (content : String) (x y : α) :
    s.step (.fillText content x y) =
      some (s.paint (.text (Scalar.text x) (Scalar.text y) size content)) := by
  rw [step, h]
  rfl

/-- Between two states of a replay these shapes were drawn, in this order; offsets and saved pens
are as before. -/
structure Adds (s s' : Replay α) (ms : List Mark) : Prop where
  marks_eq : s'.marks = ms.reverse ++ s.marks
  offsets_eq : s'.pen.offsets = s.pen.offsets
  saved_eq : s'.saved = s.saved

omit [Scalar α] in
theorem Adds.append {s t u : Replay α} {ms ns : List Mark} (hst : Adds s t ms) (htu : Adds t u ns) :
    Adds s u (ms ++ ns) where
  marks_eq := by rw [htu.marks_eq, hst.marks_eq, List.reverse_append, List.append_assoc]
  offsets_eq := htu.offsets_eq.trans hst.offsets_eq
  saved_eq := htu.saved_eq.trans hst.saved_eq

theorem run_append (s : Replay α) (cs ds : List (Command α)) :
    s.run (cs ++ ds) = (s.run cs).bind fun t => t.run ds :=
  List.foldlM_append

end Replay

/-- The shapes that calls show on a new canvas, in the order of drawing. -/
def marks? (cs : List (Command α)) : Option (List Mark) :=
  (Replay.create.run cs).map fun s => s.marks.reverse

end Canvas

open Canvas

namespace Sketch
variable {α : Type} [Scalar α]

def strokes (stroke? : Option String) (c : Command α) : List (Command α) :=
  match stroke? with
  | some stroke => [.setStrokeStyle stroke, c]
  | none => []

def calls : Sketch α → List (Command α)
  | .rect x y w h fill? stroke? =>
    [.setFillStyle (fill?.getD "black"), .fillRect x y w h] ++ strokes stroke? (.strokeRect x y w h)
  | .circle cx cy r fill? stroke? =>
    [.beginPath, .arc cx cy r Scalar.zero Primitive.turn, .setFillStyle (fill?.getD "black"),
      .fill] ++ strokes stroke? .stroke
  | .line x1 y1 x2 y2 width stroke =>
    [.beginPath, .moveTo x1 y1, .lineTo x2 y2, .setStrokeStyle stroke, .setLineWidth width, .stroke]
  | .text x y size content fill? =>
    [.setFont (Scalar.text size ++ "px sans-serif"), .setFillStyle (fill?.getD "black"),
      .fillText content x y]

theorem fontSize?_text (size : String) : fontSize? (size ++ "px sans-serif") = some size := by
  have hsize : (size ++ "px sans-serif").toList.dropSuffix? "px sans-serif".toList =
      some size.toList := by
    simp [List.dropSuffix?_eq_some_iff]
  rw [fontSize?, hsize, Option.map_some, String.ofList_toList]

theorem disc?_arc (cx cy r : α) :
    disc? [.arc cx cy r Scalar.zero Primitive.turn] =
      some (.circle (Scalar.text cx) (Scalar.text cy) (Scalar.text r)) :=
  if_pos ⟨rfl, rfl⟩

theorem outlined_filled (f : Figure) (offsets : List (String × String))
    (fill? stroke? : Option String) (ms : List Mark) :
    outlined ⟨f, offsets, none, stroke?⟩ (⟨f, offsets, fill?, none⟩ :: ms) =
      ⟨f, offsets, fill?, stroke?⟩ :: ms :=
  if_pos ⟨rfl, rfl, rfl⟩

theorem balanced_calls (s : Sketch α) : Balanced s.calls := by
  cases s with
  | rect x y w h fill? stroke? => cases stroke? <;> rfl
  | circle cx cy r fill? stroke? => cases stroke? <;> rfl
  | line => rfl
  | text => rfl

/-- A shape is seen as its mark, whatever pen and path it finds. -/
theorem run_calls (s : Sketch α) (r : Replay α) :
    ∃ r', r.run s.calls = some r' ∧ r.Adds r' [s.mark r.pen.offsets] := by
  cases s with
  | rect x y w h fill? stroke? =>
    cases stroke? with
    | none => exact ⟨_, rfl, rfl, rfl, rfl⟩
    | some stroke => exact ⟨_, rfl, outlined_filled _ _ _ _ _, rfl, rfl⟩
  | circle cx cy radius fill? stroke? =>
    -- the path is still there when the disc is stroked
    let f : Figure := .circle (Scalar.text cx) (Scalar.text cy) (Scalar.text radius)
    let ready : Replay α :=
      { r with
        pen := { r.pen with fill := fill?.getD "black" }
        path := [.arc cx cy radius Scalar.zero Primitive.turn] }
    have hfill : ready.step .fill = some (ready.paint f) :=
      Replay.step_fill (disc?_arc cx cy radius)
    cases stroke? with
    | none =>
      refine ⟨ready.paint f, ?_, rfl, rfl, rfl⟩
      change (ready.step .fill).bind some = _
      rw [hfill]
      rfl
    | some stroke =>
      let styled : Replay α := { ready.paint f with pen := { ready.pen with stroke } }
      have hstroke : styled.step .stroke = some (styled.outline f) :=
        Replay.step_stroke (disc?_arc cx cy radius)
      refine ⟨styled.outline f, ?_, outlined_filled _ _ _ _ _, rfl, rfl⟩
      change (ready.step .fill).bind (fun t => t.run [.setStrokeStyle stroke, .stroke]) = _
      rw [hfill]
      change (styled.step .stroke).bind some = _
      rw [hstroke]
      rfl
  | line => exact ⟨_, rfl, rfl, rfl, rfl⟩
  | text x y size content fill? =>
    let f : Figure := .text (Scalar.text x) (Scalar.text y) (Scalar.text size) content
    let ready : Replay α :=
      { r with
        pen := { r.pen with
          fill := fill?.getD "black"
          font := Scalar.text size ++ "px sans-serif" } }
    have hsize : fontSize? ready.pen.font = some (Scalar.text size) := fontSize?_text _
    have hfill : ready.step (.fillText content x y) = some (ready.paint f) :=
      Replay.step_fillText hsize content x y
    refine ⟨ready.paint f, ?_, rfl, rfl, rfl⟩
    change (ready.step (.fillText content x y)).bind some = _
    rw [hfill]
    rfl

end Sketch

namespace Picture
variable {α : Type} [Scalar α]

mutual

def calls : Picture α → List (Command α)
  | .sketch s => s.calls
  | .group x y parts => .save :: (.translate x y :: callsAll parts ++ [.restore])

def callsAll : List (Picture α) → List (Command α)
  | [] => []
  | p :: ps => calls p ++ callsAll ps

end

mutual

theorem balanced_calls : (p : Picture α) → Balanced p.calls
  | .sketch s => by
    rw [calls]
    exact s.balanced_calls
  | .group x y parts => by
    rw [calls]
    exact .wrap (.cons rfl (balanced_callsAll parts))

theorem balanced_callsAll : (ps : List (Picture α)) → Balanced (callsAll ps)
  | [] => rfl
  | p :: ps => by
    rw [callsAll]
    exact (balanced_calls p).append (balanced_callsAll ps)

end

mutual

/-- The calls of a picture show its marks, from whatever state they start. -/
theorem run_calls : (p : Picture α) → (r : Replay α) →
    ∃ r', r.run p.calls = some r' ∧ r.Adds r' (p.marks r.pen.offsets)
  | .sketch s, r => by
    rw [calls, marks]
    exact s.run_calls r
  | .group x y parts, r => by
    let inside : Replay α :=
      { r with
        pen := { r.pen with offsets := r.pen.offsets ++ [writtenOffset x y] }
        saved := r.pen :: r.saved }
    -- the parts leave the saved pens as they are, so the restore gets back to `r.pen`
    obtain ⟨drawn, hdrawn, hadds⟩ := run_callsAll parts inside
    have hrestore : drawn.step .restore = some { drawn with pen := r.pen, saved := r.saved } := by
      rw [Replay.step, hadds.saved_eq]
    refine ⟨{ drawn with pen := r.pen, saved := r.saved }, ?_, ?_, rfl, rfl⟩
    · rw [calls]
      change inside.run (callsAll parts ++ [.restore]) = _
      rw [Replay.run_append, hdrawn]
      change (drawn.step .restore).bind some = _
      rw [hrestore]
      rfl
    · rw [marks]
      exact hadds.marks_eq

theorem run_callsAll : (ps : List (Picture α)) → (r : Replay α) →
    ∃ r', r.run (callsAll ps) = some r' ∧ r.Adds r' (marksAll r.pen.offsets ps)
  | [], r => ⟨r, rfl, rfl, rfl, rfl⟩
  | p :: ps, r => by
    obtain ⟨r', hrun, hadds⟩ := run_calls p r
    obtain ⟨r'', hrun', hadds'⟩ := run_callsAll ps r'
    refine ⟨r'', ?_, ?_⟩
    · rw [callsAll, Replay.run_append, hrun]
      exact hrun'
    · rw [marksAll]
      rw [hadds.offsets_eq] at hadds'
      exact hadds.append hadds'

end

theorem marks?_calls (p : Picture α) : marks? p.calls = some (p.marks []) := by
  obtain ⟨r, hrun, hadds⟩ := p.run_calls Replay.create
  rw [marks?, hrun, Option.map_some, hadds.marks_eq]
  simp [Replay.create]

end Picture
end Scene
