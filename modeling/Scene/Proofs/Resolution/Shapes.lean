import Scene.Proofs.Drawing.Painting
import Scene.Proofs.Resolution.Completion
import Scene.Proofs.Resolution.Loop
import Scene.Engine

/-! Specs of shapes resolve into renderables of shapes. A type is a shape by its implementation,
also where it extends another one; what is nested in it must be of shapes again. -/
namespace Scene
open Resolve Resolution
variable {φ α : Type}

theorem Shape.children_withChildren (props : Props φ α) (rs : List (Renderable φ α)) :
    Primitive.children (withChildren props rs) = rs := by
  rw [Primitive.children, withChildren, Dict.get?_insert_self]
  simp [Value.asArray?, Value.asRenderable?, List.filterMap_map, Function.comp_def]

def Resolution.Nests (props : Props φ α) (v : Visual φ α) : Prop :=
  ∃ x ∈ Script.listed (Dict.get? props "children"), Visual.ofValue? x = .ok v

namespace Spec

theorem typeName_set {s : Spec φ α} {key : String} (h : key ≠ "type") (v : Value φ α) :
    (s.set key v).typeName = s.typeName := by
  simp [set, h]

theorem props_set {s : Spec φ α} {key : String} (h : key ≠ "type") (v : Value φ α) :
    (s.set key v).props = Dict.insert s.props key v := by
  simp [set, h]

/-- The object form of a spec without a stray `type` reads back as the spec, if the type names
anything. -/
theorem ofValue?_toValue_eq {s : Spec φ α} (h : ∀ e ∈ s.props, e.1 ≠ "type") :
    ofValue? s.toValue =
      if Text.isBlank s.typeName then .error (.specShape "spec has an empty 'type'")
      else .ok s := by
  obtain ⟨typeName, props⟩ := s
  simp only [toValue, ofValue?, Dict.get?_insert_self, ofProps, Dict.erase_insert h]

/-- The object form of a spec reads back, up to the order of its properties. -/
theorem ofValue?_toValue {s : Spec φ α} {v : Visual φ α} (h : Visual.ofValue? s.toValue = .ok v) :
    ∃ s', v = .spec s' ∧ s'.typeName = s.typeName ∧
      ∀ key, key ≠ "type" → Dict.get? s'.props key = Dict.get? s.props key := by
  simp only [toValue, Visual.ofValue?, ofValue?, Dict.get?_insert_self] at h
  split at h
  · cases h
  · cases h
    refine ⟨_, rfl, rfl, fun key hkey => ?_⟩
    rw [ofProps, Dict.get?_erase_of_ne _ hkey, Dict.get?_insert_of_ne _ _ hkey]

end Spec

/-- The types that a frame stands for are shapes: they are registered with their implementations,
whatever their schemas and layouts. -/
def Registry.KnowsFrames (R : Registry φ α) : Prop :=
  ∀ s ∈ [Shape.rect, Shape.group],
    ∃ d, Dict.get? R s.name = some d ∧ d.implementation = .shape s

/-- A type that extends a shape without an implementation of its own has that of the shape. -/
theorem Declaration.implementation_of_extends {d : Declaration φ α} {parent built : Definition φ α}
    (hown : d.implementation? = none) (h : d.build? (some parent) = .ok built) :
    built.implementation = parent.implementation := by
  simp only [build?, hown, composed?, Option.map_some] at h
  cases h
  rfl

section
variable [Scalar α]

/-- A renderable of shapes, or a spec of a type that is a shape by its implementation; in its
completed properties nothing else is nested. -/
inductive Visual.OfShapes (s : Surroundings φ α) (R : Registry φ α) : Visual φ α → Prop where
  | resolved {r : Renderable φ α} (h : r.OfShapes) : OfShapes s R (.resolved r)
  | spec {spec : Spec φ α} {d : Definition φ α} {shape : Shape}
      (registered : Dict.get? R spec.typeName = some d)
      (implementation_eq : d.implementation = .shape shape)
      (nested : shape.nests = true → ∀ props, prepare s d spec.props = .ok props →
        ∀ v, Nests props v → OfShapes s R v) : OfShapes s R (.spec spec)

theorem Resolution.prepare_keeps {s : Surroundings φ α} {d : Definition φ α}
    {props props' : Props φ α} (h : prepare s d props = .ok props') {key : String} {v : Value φ α}
    (hv : Dict.get? props key = some v) (hplain : v.isComputed = false) :
    Dict.get? props' key = some v := by
  rw [prepare, bind_eq_ok] at h
  obtain ⟨completed, hcompleted, h⟩ := h
  rw [bind_eq_ok] at h
  obtain ⟨_, _, h⟩ := h
  rw [bind_eq_ok] at h
  obtain ⟨_, _, h⟩ := h
  obtain rfl := Except.ok.inj h
  exact Completion.get?_complete hcompleted hv hplain

namespace Shape

theorem node_ofShapes {shape : Shape} {props : Props φ α}
    (h : shape.nests = true → ∀ c ∈ Primitive.children props, c.OfShapes) (node : Nat) :
    ((shape.draft props).node node).OfShapes :=
  .intro shape rfl h

variable {s : Surroundings φ α} {R : Registry φ α}

theorem leaf_ofShapes {spec : Spec φ α} {d : Definition φ α} {shape : Shape}
    (hregistered : Dict.get? R spec.typeName = some d)
    (himplementation : d.implementation = .shape shape) (h : shape.nests = false) :
    Visual.OfShapes s R (.spec spec) :=
  .spec hregistered himplementation fun hnests => absurd (h.symm.trans hnests) Bool.false_ne_true

theorem nesting_ofShapes {spec : Spec φ α} {d : Definition φ α} {shape : Shape}
    (hregistered : Dict.get? R spec.typeName = some d)
    (himplementation : d.implementation = .shape shape) {xs : List (Value φ α)}
    (hxs : Dict.get? spec.props "children" = some (.array xs))
    (h : ∀ x ∈ xs, ∀ v, Visual.ofValue? x = .ok v → Visual.OfShapes s R v) :
    Visual.OfShapes s R (.spec spec) := by
  refine .spec hregistered himplementation fun _ props hprops v ⟨x, hx, hv⟩ => ?_
  rw [prepare_keeps hprops hxs rfl] at hx
  exact h x hx v hv

def backdrop (l : Layout.Solution α) (fill : String) : Spec φ α :=
  (((Spec.create "rect").set "width" (.number l.width)).set "height" (.number l.height)).set "fill"
    (.string fill)

def content (padding : α) (rs : List (Renderable φ α)) : Spec φ α :=
  (((Spec.create "group").set "x" (.number padding)).set "y" (.number padding)).set "children"
    (.array (rs.map .renderable))

omit [Scalar α] in
theorem children_content (padding : α) (rs : List (Renderable φ α)) :
    Dict.get? (content padding rs).props "children" = some (.array (rs.map .renderable)) := by
  rw [content, Spec.props_set (by decide), Dict.get?_insert_self]

/-- A frame stands for a group of its background, if it has any, and of its content. -/
theorem exists_parts (props : Props φ α) (l : Layout.Solution α) (rs : List (Renderable φ α)) :
    ∃ parts : List (Spec φ α),
      Dict.get? (framed props l rs).props "children" = some (.array (parts.map Spec.toValue)) ∧
      ∀ part ∈ parts, (∃ fill, part = backdrop l fill) ∨
        part = content (Primitive.number props "padding") rs := by
  refine ⟨_, Dict.get?_insert_self .., fun part hpart => ?_⟩
  rcases List.mem_append.mp hpart with hpart | hpart
  · cases hbackground : Primitive.string? props "background" with
    | none => simp [hbackground] at hpart
    | some fill => exact .inl ⟨fill, by simpa [hbackground, backdrop] using hpart⟩
  · exact .inr (List.mem_singleton.mp hpart)

theorem framed_ofShapes (hR : R.KnowsFrames) (props : Props φ α) (l : Layout.Solution α)
    {rs : List (Renderable φ α)} (hrs : ∀ r ∈ rs, r.OfShapes) :
    Visual.OfShapes s R (.spec (framed props l rs)) := by
  obtain ⟨parts, hparts, hall⟩ := exists_parts props l rs
  have htype : (framed props l rs).typeName = Shape.group.name := rfl
  obtain ⟨rect, hrect, hrectShape⟩ := hR .rect (by decide)
  obtain ⟨group, hgroup, hgroupShape⟩ := hR .group (by decide)
  refine nesting_ofShapes (htype ▸ hgroup) hgroupShape hparts fun x hx v hv => ?_
  obtain ⟨part, hpart, rfl⟩ := List.mem_map.mp hx
  -- the parts are nested as values, so what is resolved is read back from their object form
  obtain ⟨spec, rfl, hsame, hprops⟩ := Spec.ofValue?_toValue hv
  rcases hall part hpart with ⟨fill, rfl⟩ | rfl
  · have hname : spec.typeName = Shape.rect.name := hsame
    exact leaf_ofShapes (hname ▸ hrect) hrectShape rfl
  · have hname : spec.typeName = Shape.group.name := hsame
    have hchildren := (hprops _ (by decide)).trans (children_content _ rs)
    refine nesting_ofShapes (hname ▸ hgroup) hgroupShape hchildren fun y hy u hu => ?_
    obtain ⟨r, hr, rfl⟩ := List.mem_map.mp hy
    cases hu
    exact .resolved (hrs r hr)

end Shape
end

namespace Resolution
variable {s : Surroundings φ α} {R : Registry φ α} {child anew : Resolver φ α}
  {P : Visual φ α → Prop}

theorem run_ofDraft {d : Draft φ α} (h : ∀ n, P (.resolved (d.node n))) :
    Yields R ((Script.ofDraft d).run child anew) P :=
  .bind .freshNode fun n _ => .pure (h n)

/-- Children that are listed as values give renderables of shapes, or the script fails. -/
theorem run_childrenOfValues [Scalar α] {container : Option (Container α)} {xs : List (Value φ α)}
    (hchild : ∀ x ∈ xs, ∀ v, Visual.ofValue? x = .ok v →
      Yields R (child v container) Renderable.OfShapes)
    {next : List (Renderable φ α) → Script φ α}
    (hnext : ∀ rs, (∀ r ∈ rs, r.OfShapes) → Yields R ((next rs).run child anew) P) :
    Yields R ((Script.childrenOfValues container xs next).run child anew) P := by
  induction xs generalizing next with
  | nil => exact hnext [] nofun
  | cons x xs ih =>
    rw [Script.childrenOfValues, Script.childOfValue]
    cases hx : Visual.ofValue? x with
    | error e => exact .ofExcept nofun
    | ok v =>
      refine .attempt (hchild x List.mem_cons_self v hx) ?_ nofun
      intro r hr
      refine ih (fun x' hx' => hchild x' (List.mem_cons_of_mem x hx')) fun rs hrs => ?_
      exact hnext (r :: rs) (List.forall_mem_cons.mpr ⟨hr, hrs⟩)

variable [Scalar α]

def Sound (s : Surroundings φ α) (R : Registry φ α) (resolver : Resolver φ α) : Prop :=
  ∀ v c, Visual.OfShapes s R v → Yields R (resolver v c) Renderable.OfShapes

theorem run_script (hR : R.KnowsFrames) (hchild : Sound s R child) {shape : Shape}
    {props : Props φ α} (c : Context α)
    (hnested : shape.nests = true → ∀ v, Nests props v → Visual.OfShapes s R v) :
    Yields R ((shape.script props c).run child anew) (Visual.OfShapes s R) := by
  have hvalues (hnests : shape.nests = true) (container : Option (Container α)) :
      ∀ x ∈ Script.listed (Dict.get? props "children"), ∀ v, Visual.ofValue? x = .ok v →
        Yields R (child v container) Renderable.OfShapes :=
    fun x hx v hv => hchild v container (hnested hnests v ⟨x, hx, hv⟩)
  cases shape with
  | group =>
    refine run_childrenOfValues (hvalues rfl _) fun rs hrs => run_ofDraft fun n => .resolved ?_
    refine Shape.node_ofShapes (fun _ r hr => hrs r ?_) n
    rwa [Shape.children_withChildren] at hr
  | frame =>
    rw [Shape.script]
    cases c.layout with
    | none => exact .ofExcept nofun
    | some l =>
      refine run_childrenOfValues (hvalues rfl _) fun rs hrs => .ofExcept fun v hv => ?_
      obtain rfl := Except.ok.inj hv
      exact Shape.framed_ofShapes hR props l hrs
  | _ =>
    refine run_ofDraft fun n => .resolved (Shape.node_ofShapes (fun hnests => ?_) n)
    exact absurd hnests Bool.false_ne_true

omit [Scalar α] in
theorem lookup_yields {name : String} {d : Definition φ α} (h : Dict.get? R name = some d) :
    Yields R (lookup name) (· = d) := by
  refine .bind .get fun w hw => ?_
  rw [hw, h]
  exact .pure rfl

theorem layout_yields (d : Definition φ α) (props : Props φ α) (container : Option (Container α)) :
    Yields R (layout s d props container) fun _ => True := by
  obtain ⟨-, h⟩ | ⟨e, h⟩ | ⟨l, h | ⟨ws, h⟩⟩ := layout_cases s d props container <;> rw [h]
  · exact .pure trivial
  · exact .throw _
  · exact .pure trivial
  · exact .bind (.warn ws) fun _ _ => .pure trivial

theorem expand_yields (hR : R.KnowsFrames) (hchild : Sound s R child) (scope : Scope α)
    {spec : Spec φ α} (h : Visual.OfShapes s R (.spec spec)) :
    Yields R (expand s child anew scope spec) fun r => Visual.OfShapes s R r.2 := by
  cases h with
  | @spec _ d shape hregistered himplementation hnested =>
    have hready : Yields R (ready s scope spec) fun call =>
        ∃ props c, prepare s d spec.props = .ok props ∧ call = ⟨.shape shape, props, c⟩ := by
      refine .bind (lookup_yields hregistered) fun d' hd => ?_
      subst hd
      refine .bind (.ofExcept fun props hprops => hprops) fun props hprops => ?_
      refine .bind (layout_yields _ _ _) fun l _ => .pure ?_
      rw [himplementation]
      exact ⟨props, _, hprops, rfl⟩
    refine .bind hready ?_
    rintro _ ⟨props, c, hprops, rfl⟩
    refine .bind (run_script hR hchild c fun hnests v hv => ?_) fun v hv => .pure hv
    exact hnested hnests props hprops v hv

theorem follow_yields {limit : Nat} {step : Spec φ α → Resolve φ α (Props φ α × Visual φ α)}
    (hstep : ∀ spec, Visual.OfShapes s R (.spec spec) →
      Yields R (step spec) fun r => Visual.OfShapes s R r.2)
    (room : Nat) (met : List String) (outer : Option (Props φ α)) {spec : Spec φ α}
    (h : Visual.OfShapes s R (.spec spec)) :
    Yields R (follow limit step room met outer spec) fun r => r.2.OfShapes := by
  induction room generalizing met outer spec with
  | zero =>
    by_cases hmet : spec.typeName ∈ met
    · rw [follow_of_mem hmet]
      exact .throw _
    · rw [follow_zero hmet]
      exact .throw _
  | succ room ih =>
    by_cases hmet : spec.typeName ∈ met
    · rw [follow_of_mem hmet]
      exact .throw _
    · rw [follow_succ hmet]
      refine .bind (hstep spec h) fun r hr => ?_
      split
      · next hresolved =>
        rw [hresolved] at hr
        cases hr with
        | resolved hr => exact .pure hr
      · next hspec =>
        rw [hspec] at hr
        split
        · exact .throw _
        · exact ih _ _ hr

theorem Sound.resolve (hR : R.KnowsFrames) (hchild : Sound s R child) (depth room : Nat) :
    Sound s R (resolve s child anew depth room) := by
  intro v c hv
  cases v with
  | resolved r =>
    cases hv with
    | resolved hr => exact .pure hr
  | spec spec =>
    by_cases hb : Text.isBlank spec.typeName = true
    · rw [resolve_of_blank hb]
      exact .throw _
    · rw [resolve_of_not_blank (by simpa using hb)]
      refine .bind (follow_yields (fun _ => expand_yields hR hchild _) _ _ _ hv) fun r hr => ?_
      refine .bind .freshNode fun n _ => .pure ?_
      cases hr with
      | intro shape hpainters hnested => exact .intro shape hpainters hnested

theorem Sound.within (hR : R.KnowsFrames) (anew : Resolver φ α) (depth room : Nat) :
    Sound s R (within s anew depth room) := by
  -- children are resolved one level deeper, with less room; without any they are refused
  induction room generalizing depth with
  | zero => exact .resolve hR (fun _ _ _ => .throw _) depth 0
  | succ room ih => exact .resolve hR (ih (depth + 1)) depth (room + 1)

theorem Sound.engine (hR : R.KnowsFrames) : Sound s R (Engine.resolve s) := by
  rw [engine_eq]
  exact within hR _ 0 s.settings.maxDepth

end Resolution
end Scene
