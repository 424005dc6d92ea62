import Scene.Proofs.Drawing.Addition

/-! Painting on a canvas that fails on its way. A group saves the state of the canvas before it
paints its children and restores it behind them, so a failure inside leaves one state saved for each
group around it. -/
namespace Scene
open Primitive Canvas
variable {φ α β γ : Type}

def Canvas.Recording.followedBy (r : Recording α) (cs : List (Command α)) : Recording α :=
  { r with commands := r.commands ++ cs.toArray }

theorem Canvas.Recording.followedBy_followedBy (r : Recording α) (cs ds : List (Command α)) :
    (r.followedBy cs).followedBy ds = r.followedBy (cs ++ ds) := by
  simp [followedBy]

namespace Canvas

theorem nesting?_replicate_restore (k : Nat) :
    nesting? k (List.replicate k .restore : List (Command α)) = some 0 := by
  induction k with
  | zero => rfl
  | succ k ih => exact ih

/-- So many restores as there are states left make up for them. -/
theorem Balanced.of_nesting? {cs : List (Command α)} {k : Nat} (h : nesting? 0 cs = some k) :
    Balanced (cs ++ List.replicate k .restore) := by
  rw [Balanced, nesting?_append, h]
  exact nesting?_replicate_restore k

end Canvas

namespace Renderable
variable [Scalar α]

/-- One of these renderables, or painted as a built-in shape with only such ones in it. -/
inductive BuiltOf (leaf : Renderable φ α → Prop) : Renderable φ α → Prop where
  | leaf {r : Renderable φ α} (h : leaf r) : BuiltOf leaf r
  | shape {r : Renderable φ α} (s : Shape) (painters_eq : r.painters = s.painters r.props)
      (nested : s.nests = true → ∀ c ∈ children r.props, BuiltOf leaf c) : BuiltOf leaf r

/-- There is one with the property `P` in it, inside so many groups, each a child of the one
before. -/
inductive Encloses (P : Renderable φ α → Prop) : Nat → Renderable φ α → Prop where
  | here {r : Renderable φ α} (h : P r) : Encloses P 0 r
  | inside {r c : Renderable φ α} {k : Nat}
      (painters_eq : r.painters = ⟨groupSvg r.props, groupCanvas r.props⟩)
      (mem : c ∈ children r.props) (h : Encloses P k c) : Encloses P (k + 1) r

end Renderable

/-- Wherever it paints, all that was saved is restored if it succeeds; if it fails with an error
`e`, it leaves a number of saved states that stands with `e`. -/
def CanvasPaint.Leaves (stands : PaintError α → Nat → Prop) (x : CanvasPaint α β) : Prop :=
  ∀ r, ∃ cs result, x.run r = (result, r.followedBy cs) ∧
    match result with
    | .ok _ => Canvas.Balanced cs
    | .error e => ∃ k, stands e k ∧ nesting? 0 cs = some k

namespace CanvasPaint.Leaves
variable {stands stands' : PaintError α → Nat → Prop} {x : CanvasPaint α β}
  {f : β → CanvasPaint α γ} {b : β} {cs : List (Command α)}

theorem mono (hstands : ∀ e k, stands e k → stands' e k) (h : Leaves stands x) :
    Leaves stands' x := by
  intro r
  obtain ⟨cs, result, hrun, hleft⟩ := h r
  refine ⟨cs, result, hrun, ?_⟩
  cases result with
  | ok b => exact hleft
  | error e =>
    obtain ⟨k, hk, hnesting⟩ := hleft
    exact ⟨k, hstands e k hk, hnesting⟩

theorem of_calls (h : x.Calls cs b) (hbalanced : Canvas.Balanced cs) : Leaves stands x :=
  fun r => ⟨cs, .ok b, h r, hbalanced⟩

theorem pure (b : β) : Leaves stands (Pure.pure b : CanvasPaint α β) :=
  of_calls (.pure b) .nil

/-- What is recorded before a failure is balanced, so it adds nothing to what the failure leaves. -/
theorem bind (hx : Leaves stands x) (hf : ∀ b, Leaves stands (f b)) : Leaves stands (x >>= f) := by
  intro r
  obtain ⟨cs, result, hrun, hleft⟩ := hx r
  cases result with
  | error e =>
    refine ⟨cs, .error e, ?_, hleft⟩
    rw [run_bind, hrun]
  | ok b =>
    have hbalanced : Canvas.Balanced cs := hleft
    obtain ⟨ds, result, hrun', hleft'⟩ := hf b (r.followedBy cs)
    refine ⟨cs ++ ds, result, ?_, ?_⟩
    · rw [run_bind, hrun, ← Recording.followedBy_followedBy]
      exact hrun'
    · cases result with
      | ok c => exact hbalanced.append hleft'
      | error e =>
        obtain ⟨k, hk, hnesting⟩ := hleft'
        refine ⟨k, hk, ?_⟩
        rw [nesting?_append, hbalanced]
        exact hnesting

/-- Between a save and the restore behind it, a failure leaves one state more. -/
theorem wrap (a b : α) (hx : Leaves stands x) :
    Leaves (fun e k => ∃ j, stands e j ∧ k = j + 1) (do
      draw .save
      draw (.translate a b)
      let result ← x
      draw .restore
      Pure.pure result) := by
  intro r
  obtain ⟨cs, result, hrun, hleft⟩ := hx (r.followedBy [.save, .translate a b])
  have hopened (next : CanvasPaint α β) :
      (draw .save >>= fun _ => draw (.translate a b) >>= fun _ => next).run r =
        next.run (r.followedBy [.save, .translate a b]) := rfl
  rw [hopened, run_bind, hrun]
  cases result with
  | ok b' =>
    have hbalanced : Canvas.Balanced cs := hleft
    refine ⟨.save :: (.translate a b :: cs ++ [.restore]), .ok b', ?_, ?_⟩
    · change (Except.ok b', Recording.push _ _) = _
      simp [Recording.push, Recording.followedBy]
    · exact .wrap (.cons rfl hbalanced)
  | error e =>
    obtain ⟨j, hj, hnesting⟩ := hleft
    refine ⟨.save :: .translate a b :: cs, .error e, ?_, j + 1, ⟨j, hj, rfl⟩, ?_⟩
    · simp [Recording.followedBy]
    · exact nesting?_add hnesting 1

theorem drawAll [Scalar α] {stands : Renderable φ α → PaintError α → Nat → Prop}
    {rs : List (Renderable φ α)} (h : ∀ r ∈ rs, Leaves (stands r) r.paintCanvas) :
    Leaves (fun e k => ∃ r ∈ rs, stands r e k) (Primitive.drawAll rs) := by
  induction rs with
  | nil => exact pure true
  | cons r rs ih =>
    have hfirst : Leaves (fun e k => ∃ c ∈ r :: rs, stands c e k) r.paintCanvas :=
      (h r List.mem_cons_self).mono fun e k hk => ⟨r, List.mem_cons_self, hk⟩
    have hrest : Leaves (fun e k => ∃ c ∈ r :: rs, stands c e k) (Primitive.drawAll rs) :=
      (ih fun c hc => h c (List.mem_cons_of_mem r hc)).mono
        fun e k ⟨c, hc, hk⟩ => ⟨c, List.mem_cons_of_mem r hc, hk⟩
    exact hfirst.bind fun drew => hrest.bind fun rest => pure (drew && rest)

end CanvasPaint.Leaves

variable [Scalar α]

theorem Renderable.BuiltOf.leaves {leaf : Renderable φ α → Prop}
    {stands : Renderable φ α → PaintError α → Prop}
    (hleaf : ∀ c, leaf c → CanvasPaint.Leaves (fun e k => stands c e ∧ k = 0) c.paintCanvas)
    {r : Renderable φ α} (hr : r.BuiltOf leaf) :
    CanvasPaint.Leaves (fun e k => r.Encloses (fun c => leaf c ∧ stands c e) k) r.paintCanvas := by
  induction hr with
  | leaf h => exact (hleaf _ h).mono fun e k ⟨hstands, hk⟩ => hk ▸ .here ⟨h, hstands⟩
  | @shape r s hpainters _ ih =>
    cases hnests : s.nests with
    | false =>
      obtain ⟨k, hk⟩ := Shape.exists_sketch hnests r.props
      rw [paintCanvas, hpainters]
      exact .of_calls (.sketch hk) k.balanced_calls
    | true =>
      rw [Shape.painters_of_nests hnests] at hpainters
      have hgroup := (CanvasPaint.Leaves.drawAll fun c hc => ih hnests c hc).wrap
        (number r.props "x") (number r.props "y")
      rw [paintCanvas, hpainters]
      refine hgroup.mono ?_
      rintro e _ ⟨j, ⟨c, hc, hinside⟩, rfl⟩
      exact .inside hpainters hc hinside

/-- Let some renderables record balanced calls on every canvas, also where they fail. What is built
of them and of the built-in shapes records balanced calls where it succeeds. Where it fails, one of
them in it has failed so, and as many states are left saved as there are groups around that one:
none, and the calls are balanced, only if it stands alone. -/
theorem interrupted_groups_stay_open (leaf : Renderable φ α → Prop)
    (hleaf : ∀ c, leaf c → ∀ recording, ∃ calls result,
      c.paintCanvas.run recording = (result, recording.followedBy calls) ∧ Canvas.Balanced calls)
    (r : Renderable φ α) (hr : r.BuiltOf leaf) (recording : Recording α) :
    ∃ calls result, r.paintCanvas.run recording = (result, recording.followedBy calls) ∧
      (∀ drew, result = .ok drew → Canvas.Balanced calls) ∧
      ∀ e, result = .error e →
        ∃ k, r.Encloses (fun c => leaf c ∧ ∃ before, (c.paintCanvas.run before).1 = .error e) k ∧
          nesting? 0 calls = some k ∧ (Canvas.Balanced calls ↔ k = 0) ∧
          Canvas.Balanced (calls ++ List.replicate k .restore) := by
  have hleaves (c : Renderable φ α) (hc : leaf c) : CanvasPaint.Leaves
      (fun e k => (∃ before, (c.paintCanvas.run before).1 = .error e) ∧ k = 0) c.paintCanvas := by
    intro before
    obtain ⟨calls, result, hrun, hbalanced⟩ := hleaf c hc before
    refine ⟨calls, result, hrun, ?_⟩
    cases result with
    | ok drew => exact hbalanced
    | error e => exact ⟨0, ⟨⟨before, by rw [hrun]⟩, rfl⟩, hbalanced⟩
  obtain ⟨calls, result, hrun, hleft⟩ := hr.leaves hleaves recording
  refine ⟨calls, result, hrun, ?_, ?_⟩
  · rintro drew rfl
    exact hleft
  · rintro e rfl
    obtain ⟨k, hk, hnesting⟩ := hleft
    refine ⟨k, hk, hnesting, ?_, .of_nesting? hnesting⟩
    rw [Canvas.Balanced, hnesting, Option.some.injEq]

def blot : Renderable Empty Exact where
  node := 4
  kind := "blot"
  props := []
  origin := none
  painters :=
    ⟨fun _ => throw (.painter "blot" "no ink"), throw (.painter "blot" "no ink")⟩

def tray (parts : List (Renderable Empty Exact)) : Renderable Empty Exact :=
  (Shape.group.draft (Shape.withChildren [("x", .number (.fin 3))] parts)).node 5

theorem blot_balanced (c : Renderable Empty Exact) (hc : c = blot) (recording : Recording Exact) :
    ∃ calls result, c.paintCanvas.run recording = (result, recording.followedBy calls) ∧
      Canvas.Balanced calls := by
  subst hc
  refine ⟨[], .error (.painter "blot" "no ink"), ?_, .nil⟩
  simp only [Recording.followedBy, Array.append_empty]
  rfl

theorem tray_builtOf {leaf : Renderable Empty Exact → Prop} {parts : List (Renderable Empty Exact)}
    (h : ∀ c ∈ parts, c.BuiltOf leaf) : (tray parts).BuiltOf leaf := by
  refine .shape .group rfl fun _ c hc => h c ?_
  rwa [tray, Draft.node, Shape.draft, Shape.children_withChildren] at hc

theorem pearl_builtOf {leaf : Renderable Empty Exact → Prop} : pearl.BuiltOf leaf :=
  .shape .circle rfl fun h => absurd h (by decide)

theorem trays_builtOf : (tray [pearl, tray [blot]]).BuiltOf (· = blot) := by
  refine tray_builtOf fun c hc => ?_
  rcases List.mem_pair.mp hc with rfl | rfl
  · exact pearl_builtOf
  · exact tray_builtOf fun c hc => .leaf (List.mem_singleton.mp hc)

/-- The pearl is painted, the blot is not, and both trays stay open. -/
theorem trays_stay_open :
    (∀ c, c = blot → ∀ recording, ∃ calls result,
        c.paintCanvas.run recording = (result, recording.followedBy calls) ∧
          Canvas.Balanced calls) ∧
      (tray [pearl, tray [blot]]).BuiltOf (· = blot) ∧
      ∃ calls, (tray [pearl, tray [blot]]).paintCanvas.run (.create none) =
          (.error (.painter "blot" "no ink"), (Recording.create none).followedBy calls) ∧
        ¬ Canvas.Balanced calls ∧ Canvas.Balanced (calls ++ [.restore, .restore]) := by
  obtain ⟨calls, result, hrun, -, herror⟩ :=
    interrupted_groups_stay_open (· = blot) blot_balanced _ trays_builtOf (.create none)
  obtain rfl : result = .error (.painter "blot" "no ink") := congrArg Prod.fst hrun.symm
  obtain ⟨k, -, hnesting, hopen, hrestored⟩ := herror _ rfl
  have hcalls : ((tray [pearl, tray [blot]]).paintCanvas.run (.create none)).2.commands.toList =
      calls := by
    rw [hrun]
    simp [Recording.followedBy, Recording.create]
  have htwo : nesting? 0 calls = some 2 := by
    rw [← hcalls]
    decide +kernel
  obtain rfl : k = 2 := Option.some.inj (hnesting.symm.trans htwo)
  exact ⟨blot_balanced, trays_builtOf, calls, hrun, fun h => absurd (hopen.mp h) (by decide),
    hrestored⟩

/-- After one failure everything is drawn three to the right: nothing has restored the canvas. -/
theorem tray_moves_later_shapes :
    (∀ c, c = blot → ∀ recording, ∃ calls result,
        c.paintCanvas.run recording = (result, recording.followedBy calls) ∧
          Canvas.Balanced calls) ∧
      (tray [blot]).BuiltOf (· = blot) ∧
      ∃ calls, (tray [blot]).paintCanvas.run (.create none) =
          (.error (.painter "blot" "no ink"), (Recording.create none).followedBy calls) ∧
        ¬ Canvas.Balanced calls ∧
        marks? (pearl.paintCanvas.run
            ((Recording.create none).followedBy calls)).2.commands.toList =
          some [⟨.circle "0" "0" "5", [("3", "0")], some "white", none⟩] := by
  refine ⟨blot_balanced, tray_builtOf fun c hc => .leaf (List.mem_singleton.mp hc),
    [.save, .translate (.fin 3) (.fin 0)], rfl, nofun, by decide +kernel⟩

end Scene
