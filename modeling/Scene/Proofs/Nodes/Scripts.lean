import Scene.Proofs.Nodes.Definitions
import Scene.Proofs.Resolution.Mirror

/-! Scripts under other names of nodes. A script and its renamed form ask for the same things, and
go on in the same way when the answers are renamed. The built-in implementations are of that kind,
and so are those of a host program that tells nodes apart by nothing but their identity. -/
namespace Scene
variable {φ α β β' : Type} (ρ : Renaming φ)

def Draft.rename (d : Draft φ α) : Draft φ α := { d with props := Dict.rename ρ d.props }

theorem Draft.node_rename (d : Draft φ α) (n : Nat) :
    (d.rename ρ).node (ρ.node n) = (d.node n).rename ρ := by
  simp only [node, rename, Renderable.rename, renameFields_eq, renameOrigin]

inductive Script.Renamed : Script φ α → Script φ α → Prop where
  | finish (result : Except (ResolveError α) (Visual φ α)) :
      Renamed (.finish result) (.finish (result.map (Visual.rename ρ)))
  | build (d : Draft φ α) {next next' : Renderable φ α → Script φ α}
      (h : ∀ r, Renamed (next r) (next' (r.rename ρ))) :
      Renamed (.build d next) (.build (d.rename ρ) next')
  | child (v : Visual φ α) (c : Option (Container α))
      {next next' : Except (ResolveError α) (Renderable φ α) → Script φ α}
      (h : ∀ r, Renamed (next r) (next' (r.map (Renderable.rename ρ)))) :
      Renamed (.child v c next) (.child (v.rename ρ) c next')
  | inspect {next next' : Registry φ α → Script φ α}
      (h : ∀ R, Renamed (next R) (next' (R.rename ρ))) : Renamed (.inspect next) (.inspect next')
  | register (d : Definition φ α) {next next' : Script φ α} (h : Renamed next next') :
      Renamed (.register d next) (.register (d.rename ρ) next')
  | remove (name : String) {next next' : Bool → Script φ α} (h : ∀ b, Renamed (next b) (next' b)) :
      Renamed (.remove name next) (.remove name next')
  | reenter (v : Visual φ α) (c : Option (Container α))
      {next next' : Except (ResolveError α) (Renderable φ α) → Script φ α}
      (h : ∀ r, Renamed (next r) (next' (r.map (Renderable.rename ρ)))) :
      Renamed (.reenter v c next) (.reenter (v.rename ρ) c next')

namespace Script.Renamed
variable {ρ}

theorem bind {S S' : Script φ α} (h : Renamed ρ S S') {f f' : Visual φ α → Script φ α}
    (hf : ∀ v, Renamed ρ (f v) (f' (v.rename ρ))) : Renamed ρ (S.bind f) (S'.bind f') := by
  induction h with
  | finish result =>
    cases result with
    | error e => exact .finish (.error e)
    | ok v => exact hf v
  | build d _ ih => exact .build d ih
  | child v c _ ih => exact .child v c ih
  | inspect _ ih => exact .inspect ih
  | register d _ ih => exact .register d ih
  | remove name _ ih => exact .remove name ih
  | reenter v c _ ih => exact .reenter v c ih

theorem fail (e : ResolveError α) : Renamed (φ := φ) ρ (.fail e) (.fail e) := .finish (.error e)

theorem ofExcept (r : Except (ResolveError α) β) {g : β → β'} {f : β → Script φ α}
    {f' : β' → Script φ α} (h : ∀ b, Renamed ρ (f b) (f' (g b))) :
    Renamed ρ (.ofExcept r f) (.ofExcept (r.map g) f') := by
  cases r with
  | error e => exact fail e
  | ok b => exact h b

theorem ofDraft (d : Draft φ α) : Renamed ρ (.ofDraft d) (.ofDraft (d.rename ρ)) :=
  .build d fun r => .finish (.ok (.resolved r))

theorem childOfValue (c : Option (Container α)) (v : Value φ α)
    {next next' : Renderable φ α → Script φ α} (h : ∀ r, Renamed ρ (next r) (next' (r.rename ρ))) :
    Renamed ρ (.childOfValue c v next) (.childOfValue c (v.rename ρ) next') := by
  rw [Script.childOfValue, Script.childOfValue, Visual.ofValue?_rename]
  exact ofExcept _ fun v => .child v c fun r => ofExcept r h

theorem childrenOfValues (c : Option (Container α)) (vs : List (Value φ α))
    {next next' : List (Renderable φ α) → Script φ α}
    (h : ∀ rs, Renamed ρ (next rs) (next' (rs.map (Renderable.rename ρ)))) :
    Renamed ρ (.childrenOfValues c vs next)
      (.childrenOfValues c (vs.map (Value.rename ρ)) next') := by
  induction vs generalizing next next' with
  | nil => exact h []
  | cons v vs ih => exact childOfValue c v fun r => ih fun rs => h (r :: rs)

end Script.Renamed

theorem Script.listed_rename (v? : Option (Value φ α)) :
    listed (v?.map (Value.rename ρ)) = (listed v?).map (Value.rename ρ) := by
  rcases v? with _ | v
  · rfl
  · cases v with
    | array items => rw [Option.map_some, Value.rename_array]; rfl
    | object fields => simp [listed]
    | _ => rfl

/-! Shapes -/

namespace Primitive
variable (props : Props φ α)

@[simp] theorem string?_rename (key : String) :
    string? (Dict.rename ρ props) key = string? props key := by
  rw [string?, string?, Dict.get?_rename]
  cases Dict.get? props key <;> simp

@[simp] theorem children_rename :
    children (Dict.rename ρ props) = (children props).map (Renderable.rename ρ) := by
  rw [children, children, Dict.get?_rename]
  rcases Dict.get? props "children" with _ | v
  · rfl
  · cases v with
    | array items => simp [Value.asArray?, List.filterMap_map, List.map_filterMap]
    | _ => rfl

/-- Renderables under other names are drawn in the same way. -/
theorem painters_pairs (rs : List (Renderable φ α)) :
    ∀ p ∈ rs.map fun r => (r.rename ρ, r), p.1.painters = p.2.painters := by
  intro p hp
  obtain ⟨r, -, rfl⟩ := List.mem_map.mp hp
  exact r.painters_rename ρ

theorem drawAll_rename (rs : List (Renderable φ α)) :
    drawAll (rs.map (Renderable.rename ρ)) = drawAll rs := by
  simpa [Function.comp_def] using drawAll_congr (painters_pairs ρ rs)

theorem forM_paintSvg_rename (rs : List (Renderable φ α)) (n : Svg.NodeId) :
    (rs.map (Renderable.rename ρ)).forM (fun c => do let _ ← c.paintSvg n) =
      rs.forM (fun c => do let _ ← c.paintSvg n) := by
  simpa [Function.comp_def] using forM_paintSvg_congr (painters_pairs ρ rs) n

variable [Scalar α]

@[simp] theorem number_rename (key : String) :
    number (Dict.rename ρ props) key = number props key := by
  rw [number, number, Dict.get?_rename]
  cases Dict.get? props key <;> simp

theorem numberAttributes_rename (n : Svg.NodeId) (keys : List String) :
    numberAttributes n (Dict.rename ρ props) keys = numberAttributes n props keys := by
  simp only [numberAttributes, number_rename]

omit [Scalar α] in
theorem stringAttribute_rename (n : Svg.NodeId) (key : String) :
    stringAttribute n (Dict.rename ρ props) key = stringAttribute n props key := by
  simp only [stringAttribute, string?_rename]

omit [Scalar α] in
theorem fillStyle_rename : fillStyle (Dict.rename ρ props) = fillStyle props := by
  simp only [fillStyle, string?_rename]

end Primitive

variable [Scalar α]

namespace Shape

open Primitive in
/-- A shape is drawn in the same way, whatever the nodes in it are called. -/
theorem painters_rename (s : Shape) (props : Props φ α) :
    s.painters (Dict.rename ρ props) = s.painters props := by
  cases s with
  | rect =>
    have hsvg : rectSvg (Dict.rename ρ props) = rectSvg props := by
      funext parent
      simp only [rectSvg, numberAttributes_rename, stringAttribute_rename]
    simp only [painters, hsvg, rectCanvas, number_rename, string?_rename, fillStyle_rename]
  | circle =>
    have hsvg : circleSvg (Dict.rename ρ props) = circleSvg props := by
      funext parent
      simp only [circleSvg, numberAttributes_rename, stringAttribute_rename]
    simp only [painters, hsvg, circleCanvas, number_rename, string?_rename, fillStyle_rename]
  | line =>
    have hsvg : lineSvg (Dict.rename ρ props) = lineSvg props := by
      funext parent
      simp only [lineSvg, numberAttributes_rename, number_rename, string?_rename]
    simp only [painters, hsvg, lineCanvas, number_rename, string?_rename]
  | text =>
    have hsvg : textSvg (Dict.rename ρ props) = textSvg props := by
      funext parent
      simp only [textSvg, numberAttributes_rename, stringAttribute_rename, number_rename,
        string?_rename]
    simp only [painters, hsvg, textCanvas, number_rename, string?_rename, fillStyle_rename]
  | group | frame =>
    have hsvg : groupSvg (Dict.rename ρ props) = groupSvg props := by
      funext parent
      simp only [groupSvg, number_rename, children_rename, forM_paintSvg_rename]
    simp only [painters, hsvg, groupCanvas, number_rename, children_rename, drawAll_rename]

theorem draft_rename (s : Shape) (props : Props φ α) :
    s.draft (Dict.rename ρ props) = (s.draft props).rename ρ := by
  rw [draft, painters_rename]
  rfl

omit [Scalar α] in
theorem withChildren_rename (props : Props φ α) (rs : List (Renderable φ α)) :
    withChildren (Dict.rename ρ props) (rs.map (Renderable.rename ρ)) =
      Dict.rename ρ (withChildren props rs) := by
  rw [withChildren, withChildren, Dict.rename_insert, Value.rename_array, List.map_map,
    List.map_map]
  rfl

theorem backdrop_rename (l : Layout.Solution α) (fill : String) :
    (backdrop l fill).rename ρ = backdrop l fill := by
  rw [backdrop, Spec.rename_set, Spec.rename_set, Spec.rename_set]
  rfl

omit [Scalar α] in
theorem content_rename (padding : α) (rs : List (Renderable φ α)) :
    (content padding rs).rename ρ = content padding (rs.map (Renderable.rename ρ)) := by
  rw [content, Spec.rename_set, Spec.rename_set, Spec.rename_set, Value.rename_array, List.map_map]
  rw [content, List.map_map]
  rfl

theorem framed_rename (props : Props φ α) (l : Layout.Solution α) (rs : List (Renderable φ α)) :
    framed (Dict.rename ρ props) l (rs.map (Renderable.rename ρ)) =
      (framed props l rs).rename ρ := by
  have hvalues : Value.rename ρ ∘ Spec.toValue = Spec.toValue (φ := φ) (α := α) ∘ Spec.rename ρ :=
    funext fun s => (s.toValue_rename ρ).symm
  have hbackdrops : Spec.rename ρ ∘ backdrop (φ := φ) l = backdrop l :=
    funext fun fill => backdrop_rename ρ l fill
  have hparts (fills : List String) (padding : α) :
      (fills.map (backdrop l) ++ [content padding rs]).map (Spec.rename ρ) =
        fills.map (backdrop l) ++ [content padding (rs.map (Renderable.rename ρ))] := by
    rw [List.map_append, List.map_map, hbackdrops, List.map_singleton, content_rename]
  rw [framed_eq, framed_eq, Spec.rename_set, Value.rename_array, List.map_map, hvalues,
    ← List.map_map, hparts, Primitive.string?_rename, Primitive.number_rename]
  rfl

theorem script_renamed (s : Shape) (props : Props φ α) (c : Context α) :
    (s.script props c).Renamed ρ (s.script (Dict.rename ρ props) c) := by
  cases s with
  | group =>
    rw [script, script, Dict.get?_rename, Script.listed_rename]
    refine .childrenOfValues _ _ fun rs => ?_
    rw [withChildren_rename, draft_rename]
    exact .ofDraft _
  | frame =>
    rw [script, script, Dict.get?_rename, Script.listed_rename, Primitive.number_rename]
    cases c.layout with
    | none => exact .fail _
    | some l =>
      refine .childrenOfValues _ _ fun rs => ?_
      rw [framed_rename]
      exact .finish (.ok (.spec (framed props l rs)))
  | _ =>
    rw [script, script, draft_rename]
    exact .ofDraft _

end Shape

omit [Scalar α] in
theorem Declaration.script_renamed (props : Props φ α) :
    (Declaration.script props).Renamed ρ (Declaration.script (Dict.rename ρ props)) := by
  rw [script, script, ofProps?_rename]
  refine .ofExcept _ fun d => .inspect fun R => ?_
  rw [define?_rename]
  exact .ofExcept _ fun definition => .register definition (.ofDraft .empty)

/-! Functions of a host program -/

def Evaluation.rename (e : Evaluation φ α) : Evaluation φ α :=
  { e with props := Dict.rename ρ e.props }

/-- No function of the host program depends on what nodes are called. -/
structure Meaning.Respects (m : Meaning φ α) : Prop where
  compute (code : φ) (e : Evaluation φ α) :
    m.compute (ρ.code code) (e.rename ρ) = (m.compute code e).map (Value.rename ρ)
  test (code : φ) (v : Value φ α) : m.test (ρ.code code) (v.rename ρ) = m.test code v
  check (code : φ) (props : Props φ α) :
    m.check (ρ.code code) (Dict.rename ρ props) = m.check code props
  rules (code : φ) (props : Props φ α) (place : Placement α) :
    m.rules (ρ.code code) (Dict.rename ρ props) place = m.rules code props place
  implement (code : φ) (props : Props φ α) (base : Option (Visual φ α)) (c : Context α) :
    (m.implement code props base c).Renamed ρ
      (m.implement (ρ.code code) (Dict.rename ρ props) (base.map (Visual.rename ρ)) c)

variable {ρ}

theorem Implementation.script_renamed {m : Meaning φ α} (hm : m.Respects ρ) (props : Props φ α)
    (c : Context α) (i : Implementation φ) (base : Option (Visual φ α)) :
    (i.script m props c base).Renamed ρ
      ((i.rename ρ).script m (Dict.rename ρ props) c (base.map (Visual.rename ρ))) := by
  induction i generalizing base with
  | define => exact Declaration.script_renamed ρ props
  | shape s => exact s.script_renamed ρ props c
  | host code => exact hm.implement code props base c
  | inherited parent own ihparent ihown => exact (ihparent none).bind fun v => ihown (some v)

end Scene
