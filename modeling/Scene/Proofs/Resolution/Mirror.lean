import Scene.Proofs.Resolution.Scenes

/-! Two resolutions side by side. In containers of which a frame would take the same size, a spec of
built-in shapes resolves to renderables that are drawn in the same way: all that it looks at is the
registry, its properties, and that size. -/
namespace Scene
open Resolve Resolution
variable {φ α β β' γ γ' : Type}

namespace Resolve

/-- Where the first run succeeds, so does the second one over the same registry, with a related
result; both keep the registry. -/
def Mirrors (R : Registry φ α) (x : Resolve φ α β) (y : Resolve φ α β') (P : β → β' → Prop) :
    Prop :=
  ∀ w b w', w.registry = R → x w = some (.ok b, w') →
    w'.registry = R ∧ ∀ u, u.registry = R → ∃ b' u', y u = some (.ok b', u') ∧
      u'.registry = R ∧ P b b'

namespace Mirrors
variable {R : Registry φ α} {x : Resolve φ α β} {y : Resolve φ α β'} {P : β → β' → Prop}
  {Q : γ → γ' → Prop}

theorem pure {b : β} {b' : β'} (h : P b b') : Mirrors R (Pure.pure b) (Pure.pure b') P := by
  intro w _ w' hw hrun
  cases hrun
  exact ⟨hw, fun u hu => ⟨b', u, rfl, hu, h⟩⟩

theorem throw (e : ResolveError α) : Mirrors R (MonadExcept.throw e : Resolve φ α β) y P := by
  intro w b w' _ hrun
  cases hrun

theorem ofExcept {r : Except (ResolveError α) β} {r' : Except (ResolveError α) β'}
    (h : ∀ b, r = .ok b → ∃ b', r' = .ok b' ∧ P b b') :
    Mirrors R (Resolve.ofExcept r) (Resolve.ofExcept r') P := by
  intro w b w' hw hrun
  cases r with
  | error e => cases hrun
  | ok _ =>
    cases hrun
    obtain ⟨b', rfl, hp⟩ := h _ rfl
    exact ⟨hw, fun u hu => ⟨b', u, rfl, hu, hp⟩⟩

theorem freshNode : Mirrors R (Resolve.freshNode : Resolve φ α Nat) Resolve.freshNode
    fun _ _ => True := by
  intro w _ w' hw hrun
  cases hrun
  exact ⟨hw, fun u hu => ⟨_, _, rfl, hu, trivial⟩⟩

theorem warn (ws : List Warning) : Mirrors R (Resolve.warn ws : Resolve φ α Unit)
    (Resolve.warn ws) fun _ _ => True := by
  intro w _ w' hw hrun
  cases hrun
  exact ⟨hw, fun u hu => ⟨_, _, rfl, hu, trivial⟩⟩

theorem bind {f : β → Resolve φ α γ} {g : β' → Resolve φ α γ'} (hx : Mirrors R x y P)
    (hf : ∀ b b', P b b' → Mirrors R (f b) (g b') Q) : Mirrors R (x >>= f) (y >>= g) Q := by
  intro w c w'' hw hrun
  obtain ⟨b, w', hb, hc⟩ := bind_run_eq_ok.mp hrun
  obtain ⟨hw', hy⟩ := hx w b w' hw hb
  obtain ⟨b₀, -, -, -, hp₀⟩ := hy w hw
  refine ⟨(hf b b₀ hp₀ w' c w'' hw' hc).1, fun u hu => ?_⟩
  obtain ⟨b', u', hb', hu', hp⟩ := hy u hu
  obtain ⟨-, hg⟩ := hf b b' hp w' c w'' hw' hc
  obtain ⟨c', u'', hc', hu'', hq⟩ := hg u' hu'
  exact ⟨c', u'', bind_run_eq_ok.mpr ⟨b', u', hb', hc'⟩, hu'', hq⟩

/-- Goes on with the failure as a value, and cannot succeed after one. -/
theorem attempt {f : Except (ResolveError α) β → Resolve φ α γ}
    {g : Except (ResolveError α) β' → Resolve φ α γ'} (hx : Mirrors R x y P)
    (hf : ∀ b b', P b b' → Mirrors R (f (.ok b)) (g (.ok b')) Q)
    (hfail : ∀ e w c w', f (.error e) w ≠ some (.ok c, w')) :
    Mirrors R (Resolve.attempt x >>= f) (Resolve.attempt y >>= g) Q := by
  have hpass : Mirrors R (x >>= fun b => f (.ok b)) (y >>= fun b => g (.ok b)) Q := hx.bind hf
  intro w c w'' hw hrun
  obtain ⟨r, w', hr, hc⟩ := bind_run_eq_ok.mp hrun
  cases r with
  | error e => exact absurd hc (hfail e w' c w'')
  | ok b =>
    have hrun' : (x >>= fun b => f (.ok b)) w = some (.ok c, w'') :=
      bind_run_eq_ok.mpr ⟨b, w', attempt_run_iff.mp hr, hc⟩
    obtain ⟨hw'', hy⟩ := hpass w c w'' hw hrun'
    refine ⟨hw'', fun u hu => ?_⟩
    obtain ⟨c', u'', hrun₂, hu'', hq⟩ := hy u hu
    obtain ⟨b', u', hb', hc'⟩ := bind_run_eq_ok.mp hrun₂
    exact ⟨c', u'', bind_run_eq_ok.mpr ⟨.ok b', u', attempt_run hb', hc'⟩, hu'', hq⟩

end Mirrors
end Resolve

/-! Shapes that are drawn in the same way. -/

theorem Renderable.paintSvg_congr {r r' : Renderable φ α} (h : r.painters = r'.painters) :
    r.paintSvg = r'.paintSvg := by
  funext parent
  rw [paintSvg, paintSvg, h]

theorem Renderable.paintCanvas_congr {r r' : Renderable φ α} (h : r.painters = r'.painters) :
    r.paintCanvas = r'.paintCanvas :=
  congrArg Painters.canvas h

section
variable [Scalar α] {ps : List (Renderable φ α × Renderable φ α)}
  (hps : ∀ p ∈ ps, p.1.painters = p.2.painters)
include hps

omit [Scalar α] in
theorem Primitive.drawAll_congr :
    drawAll (ps.map Prod.fst) = drawAll (ps.map Prod.snd) := by
  induction ps with
  | nil => rfl
  | cons p ps ih =>
    obtain ⟨hp, hps⟩ := List.forall_mem_cons.mp hps
    rw [List.map_cons, List.map_cons, drawAll, drawAll, Renderable.paintCanvas_congr hp, ih hps]

omit [Scalar α] in
theorem Primitive.forM_paintSvg_congr (n : Svg.NodeId) :
    (ps.map Prod.fst).forM (fun c => do let _ ← c.paintSvg n) =
      (ps.map Prod.snd).forM (fun c => do let _ ← c.paintSvg n) := by
  induction ps with
  | nil => rfl
  | cons p ps ih =>
    obtain ⟨hp, hps⟩ := List.forall_mem_cons.mp hps
    simp only [List.map_cons, List.forM, Renderable.paintSvg_congr hp, ih hps]

/-- Groups of children that are drawn in the same way, with the same offset. -/
theorem Shape.group_painters_congr {props props' : Props φ α}
    (hoffset : ∀ key ∈ ["x", "y"], Dict.get? props key = Dict.get? props' key)
    (hchildren : Primitive.children props = ps.map Prod.fst)
    (hchildren' : Primitive.children props' = ps.map Prod.snd) :
    Shape.group.painters props = Shape.group.painters props' := by
  have hx : Primitive.number props "x" = Primitive.number props' "x" := by
    rw [Primitive.number, Primitive.number, hoffset "x" (by decide)]
  have hy : Primitive.number props "y" = Primitive.number props' "y" := by
    rw [Primitive.number, Primitive.number, hoffset "y" (by decide)]
  have hsvg : Primitive.groupSvg props = Primitive.groupSvg props' := by
    funext parent
    unfold Primitive.groupSvg
    simp only [hx, hy, hchildren, hchildren', Primitive.forM_paintSvg_congr hps]
  have hcanvas : Primitive.groupCanvas props = Primitive.groupCanvas props' := by
    unfold Primitive.groupCanvas
    rw [hx, hy, hchildren, hchildren', Primitive.drawAll_congr hps]
  simp only [painters, hsvg, hcanvas]

end
section
variable [Scalar α]

/-- A renderable, or a spec of a built-in shape that nests nothing else in its completed properties.
There are frames only where `frames` holds. -/
inductive Visual.OfStock (s : Surroundings φ α) (frames : Prop) : Visual φ α → Prop where
  | resolved (r : Renderable φ α) : OfStock s frames (.resolved r)
  | spec {spec : Spec φ α} {shape : Shape} (typeName_eq : spec.typeName = shape.name)
      (frame : shape = .frame → frames)
      (nested : shape.nests = true → ∀ props, prepare s shape.definition spec.props = .ok props →
        ∀ v, Nests props v → OfStock s frames v) : OfStock s frames (.spec spec)

/-- Visuals that are resolved to what is drawn in the same way: the same spec, renderables that are
drawn so, or groups of such. -/
inductive Visual.Paired (s : Surroundings φ α) (frames : Prop) :
    Visual φ α → Visual φ α → Prop where
  | resolved {r r' : Renderable φ α} (h : r.painters = r'.painters) :
      Paired s frames (.resolved r) (.resolved r')
  | same {spec : Spec φ α} {shape : Shape} (typeName_eq : spec.typeName = shape.name)
      (frame : shape = .frame → frames)
      (nested : shape.nests = true → ∀ props, prepare s shape.definition spec.props = .ok props →
        ∀ v, Nests props v → Paired s frames v v) : Paired s frames (.spec spec) (.spec spec)
  | group {spec spec' : Spec φ α} (vs : List (Visual φ α × Visual φ α))
      (typeName_eq : spec.typeName = Shape.group.name)
      (typeName_eq' : spec'.typeName = Shape.group.name)
      (suits : Shape.group.Suits s.meaning spec.props)
      (suits' : Shape.group.Suits s.meaning spec'.props)
      (offset : ∀ key ∈ ["x", "y"], Dict.get? spec.props key = Dict.get? spec'.props key)
      (children : Dict.get? spec.props "children" = some (.array (vs.map fun v => v.1.toValue)))
      (children' : Dict.get? spec'.props "children" = some (.array (vs.map fun v => v.2.toValue)))
      (reads : ∀ v ∈ vs, Visual.ofValue? v.1.toValue = .ok v.1 ∧
        Visual.ofValue? v.2.toValue = .ok v.2)
      (paired : ∀ v ∈ vs, Paired s frames v.1 v.2) : Paired s frames (.spec spec) (.spec spec')

theorem Visual.OfStock.paired {s : Surroundings φ α} {frames : Prop} {v : Visual φ α}
    (h : v.OfStock s frames) : v.Paired s frames v := by
  induction h with
  | resolved r => exact .resolved rfl
  | spec htype hframe _ ih => exact .same htype hframe ih

namespace Resolution
variable {s : Surroundings φ α} {R : Registry φ α} {frames : Prop} {child anew : Resolver φ α}
  {shape : Shape} {props props' : Props φ α} {spec spec' : Spec φ α}
  {c c' : Option (Container α)}

/-- Frames, where there are any, take the same size in both containers. -/
def SameFit (s : Surroundings φ α) (frames : Prop) (c c' : Option (Container α)) : Prop :=
  frames → Layout.pickSize none c s.settings.container =
    Layout.pickSize none c' s.settings.container

def Pairs (s : Surroundings φ α) (R : Registry φ α) (frames : Prop) (resolver : Resolver φ α) :
    Prop :=
  ∀ v v' c c', v.Paired s frames v' → SameFit s frames c c' →
    Mirrors R (resolver v c) (resolver v' c') fun r r' => r.painters = r'.painters

structure Matches (s : Surroundings φ α) (frames : Prop) (shape : Shape)
    (props props' : Props φ α) : Prop where
  same : shape ≠ .group → props = props'
  offset : ∀ key ∈ ["x", "y"], Dict.get? props key = Dict.get? props' key
  children : shape.nests = true → ∃ xs : List (Value φ α × Value φ α),
    Script.listed (Dict.get? props "children") = xs.map Prod.fst ∧
      Script.listed (Dict.get? props' "children") = xs.map Prod.snd ∧
      ∀ x ∈ xs, ∀ v, Visual.ofValue? x.1 = .ok v → ∃ v', Visual.ofValue? x.2 = .ok v' ∧
        v.Paired s frames v'

/-- Paired specs are of one shape, and where the first has its properties prepared, so has the
second. -/
theorem prepare_paired [Scalar.Sizing α]
    (h : (Visual.spec spec).Paired s frames (.spec spec')) :
    ∃ shape : Shape, spec.typeName = shape.name ∧ spec'.typeName = shape.name ∧
      (shape = .frame → frames) ∧
      ∀ props, prepare s shape.definition spec.props = .ok props →
        ∃ props', prepare s shape.definition spec'.props = .ok props' ∧
          Matches s frames shape props props' := by
  cases h with
  | @same _ shape htype hframe hnested =>
    refine ⟨shape, htype, htype, hframe, fun props hprops => ⟨props, hprops, fun _ => rfl,
      fun _ _ => rfl, fun hnests => ?_⟩⟩
    refine ⟨(Script.listed (Dict.get? props "children")).map fun x => (x, x), ?_, ?_, ?_⟩
    · simp [Function.comp_def]
    · simp [Function.comp_def]
    · intro x hx v hv
      obtain ⟨y, hy, rfl⟩ := List.mem_map.mp hx
      exact ⟨v, hv, hnested hnests props hprops v ⟨y, hy, hv⟩⟩
  | @group _ _ vs htype htype' hsuits hsuits' hoffset hchildren hchildren' hreads hpaired =>
    refine ⟨.group, htype, htype', fun h => absurd h (by decide), fun props hprops => ?_⟩
    obtain rfl := Except.ok.inj (hsuits.prepare.symm.trans hprops)
    refine ⟨_, hsuits'.prepare, fun hother => absurd rfl hother, fun key hkey => ?_, fun _ => ?_⟩
    · rw [Shape.get?_completed, Shape.get?_completed, hoffset key hkey]
    · rw [Shape.children_completed, Shape.children_completed, hchildren, hchildren']
      refine ⟨vs.map fun v => (v.1.toValue, v.2.toValue), ?_, ?_, ?_⟩
      · simp [Script.listed, Function.comp_def]
      · simp [Script.listed, Function.comp_def]
      · intro x hx v hv
        obtain ⟨u, hu, rfl⟩ := List.mem_map.mp hx
        obtain ⟨hread, hread'⟩ := hreads u hu
        obtain rfl := Except.ok.inj (hread.symm.trans hv)
        exact ⟨u.2, hread', hpaired u hu⟩

/-- The layout of a frame is a matter of the size that it takes. -/
theorem solve_fit_congr (h : Layout.pickSize none c s.settings.container =
    Layout.pickSize none c' s.settings.container) :
    Layout.solve s.backend [.fit none] c s.settings =
      Layout.solve s.backend [.fit none] c' s.settings := by
  simp only [Layout.solve, Layout.System.ofRules, List.foldlM_cons, List.foldlM_nil,
    Layout.System.add, h]

theorem layout_mirrors (hframe : shape = .frame → frames) (hfit : SameFit s frames c c') :
    Mirrors R (layout s shape.definition props c) (layout s shape.definition props' c')
      fun l l' => l = l' ∧ (shape ≠ .frame → l = none) := by
  by_cases hshape : shape = .frame
  · have hlayout : (shape.definition (φ := φ) (α := α)).layout? = some .fit := if_pos hshape
    have hsolve := solve_fit_congr (hfit (hframe hshape))
    rw [layout, layout, hlayout]
    simp only [Generator.rules, hsolve]
    split
    · exact .throw _
    · split
      · exact .bind (.warn _) fun _ _ _ => .pure ⟨rfl, fun hother => absurd hshape hother⟩
      · exact .pure ⟨rfl, fun hother => absurd hshape hother⟩
  · have hnone : (shape.definition (φ := φ) (α := α)).layout? = none := if_neg hshape
    rw [layout, layout, hnone]
    exact .pure ⟨rfl, fun _ => rfl⟩

omit [Scalar α] in
/-- Children that are listed as values, one by one. -/
theorem run_childrenOfValues_mirrors {xs : List (Value φ α × Value φ α)}
    (hchild : ∀ x ∈ xs, ∀ v, Visual.ofValue? x.1 = .ok v → ∃ v', Visual.ofValue? x.2 = .ok v' ∧
      Mirrors R (child v c) (child v' c') fun r r' => r.painters = r'.painters)
    {next next' : List (Renderable φ α) → Script φ α} {Q : Visual φ α → Visual φ α → Prop}
    (hnext : ∀ ps : List (Renderable φ α × Renderable φ α),
      (∀ p ∈ ps, p.1.painters = p.2.painters) →
        Mirrors R ((next (ps.map Prod.fst)).run child anew)
          ((next' (ps.map Prod.snd)).run child anew) Q) :
    Mirrors R ((Script.childrenOfValues c (xs.map Prod.fst) next).run child anew)
      ((Script.childrenOfValues c' (xs.map Prod.snd) next').run child anew) Q := by
  induction xs generalizing next next' with
  | nil => exact hnext [] (List.forall_mem_nil _)
  | cons x xs ih =>
    obtain ⟨hx, hxs⟩ := List.forall_mem_cons.mp hchild
    rw [List.map_cons, List.map_cons, Script.childrenOfValues, Script.childrenOfValues,
      Script.childOfValue, Script.childOfValue]
    cases hv : Visual.ofValue? x.1 with
    | error e => exact .throw e
    | ok v =>
      obtain ⟨v', hv', hmirrors⟩ := hx v hv
      rw [hv']
      refine .attempt hmirrors (fun r r' hr => ?_) fun e w b w' hrun => ?_
      · refine ih hxs fun ps hps => ?_
        exact hnext ((r, r') :: ps) (List.forall_mem_cons.mpr ⟨hr, hps⟩)
      · cases hrun

/-- Drafts whose painters are the same. -/
theorem run_ofDraft_mirrors {d d' : Draft φ α} (h : d.painters = d'.painters) :
    Mirrors R ((Script.ofDraft d).run child anew) ((Script.ofDraft d').run child anew)
      (Visual.Paired s frames) :=
  .bind .freshNode fun _ _ _ => .pure (.resolved h)

end Resolution

namespace Shape
variable {s : Surroundings φ α} {frames : Prop} {ps : List (Renderable φ α × Renderable φ α)}
  (hps : ∀ p ∈ ps, p.1.painters = p.2.painters)
include hps

/-- What is nested in a frame. -/
theorem content_paired (padding : α) : (Visual.spec (content padding (ps.map Prod.fst))).Paired s
    frames (.spec (content padding (ps.map Prod.snd))) := by
  refine .group (ps.map fun p => (.resolved p.1, .resolved p.2)) rfl rfl
    (content_suits padding _) (content_suits padding _) (fun key hkey => ?_) ?_ ?_ ?_ ?_
  · have hchildren : key ≠ "children" := by
      rintro rfl
      simp at hkey
    simp [content, Spec.set, Spec.create, Dict.get?_insert, hchildren]
  · rw [children_content, List.map_map, List.map_map]
    rfl
  · rw [children_content, List.map_map, List.map_map]
    rfl
  · intro v hv
    obtain ⟨p, -, rfl⟩ := List.mem_map.mp hv
    exact ⟨rfl, rfl⟩
  · intro v hv
    obtain ⟨p, hp, rfl⟩ := List.mem_map.mp hv
    exact .resolved (hps p hp)

omit hps in
/-- A frame is a group of its background, which is there if it has a fill, and of its content. -/
theorem framed_eq (props : Props φ α) (l : Layout.Solution α) (rs : List (Renderable φ α)) :
    framed props l rs = (Spec.create "group").set "children" (.array
      (((Primitive.string? props "background").toList.map (backdrop l) ++
        [content (Primitive.number props "padding") rs]).map Spec.toValue)) := by
  unfold framed
  cases Primitive.string? props "background" <;> rfl

theorem framed_paired (props : Props φ α) (l : Layout.Solution α) :
    (Visual.spec (framed props l (ps.map Prod.fst))).Paired s frames
      (.spec (framed props l (ps.map Prod.snd))) := by
  let fills := (Primitive.string? props "background").toList
  let padding := Primitive.number props "padding"
  refine .group (fills.map (fun fill => (.spec (backdrop l fill), .spec (backdrop l fill))) ++
      [(.spec (content padding (ps.map Prod.fst)), .spec (content padding (ps.map Prod.snd)))])
    rfl rfl (framed_suits props l _) (framed_suits props l _) (fun key hkey => ?_) ?_ ?_ ?_ ?_
  · have hchildren : key ≠ "children" := by
      rintro rfl
      simp at hkey
    simp [framed, Spec.set, Spec.create, Dict.get?_insert, hchildren]
  · rw [framed_eq]
    simp [Spec.set, Spec.create, Dict.get?_insert, Visual.toValue, fills, padding]
  · rw [framed_eq]
    simp [Spec.set, Spec.create, Dict.get?_insert, Visual.toValue, fills, padding]
  · intro v hv
    rcases List.mem_append.mp hv with hv | hv
    · obtain ⟨fill, -, rfl⟩ := List.mem_map.mp hv
      have hread := Spec.ofValue?_toValue_self Shape.rect.isBlank_name
        (backdrop_isPlain (φ := φ) l fill)
      exact ⟨hread, hread⟩
    · obtain rfl := List.mem_singleton.mp hv
      exact ⟨Spec.ofValue?_toValue_self Shape.group.isBlank_name (content_isPlain padding _),
        Spec.ofValue?_toValue_self Shape.group.isBlank_name (content_isPlain padding _)⟩
  · intro v hv
    rcases List.mem_append.mp hv with hv | hv
    · obtain ⟨fill, -, rfl⟩ := List.mem_map.mp hv
      exact .same (show _ = Shape.rect.name from rfl) (fun h => absurd h (by decide))
        fun h => absurd h (by decide)
    · obtain rfl := List.mem_singleton.mp hv
      exact content_paired hps padding

end Shape

namespace Resolution
variable {s : Surroundings φ α} {R : Registry φ α} {frames : Prop} {child anew : Resolver φ α}
  {shape : Shape} {props props' : Props φ α} {spec spec' : Spec φ α}
  {c c' : Option (Container α)}

/-- What a shape nests is resolved to what is drawn in the same way. -/
theorem run_children_mirrors (hchild : Pairs s R frames child)
    (hmatches : Matches s frames shape props props') (hnests : shape.nests = true)
    (hfit : SameFit s frames c c') {next next' : List (Renderable φ α) → Script φ α}
    {Q : Visual φ α → Visual φ α → Prop}
    (hnext : ∀ ps : List (Renderable φ α × Renderable φ α),
      (∀ p ∈ ps, p.1.painters = p.2.painters) →
        Mirrors R ((next (ps.map Prod.fst)).run child anew)
          ((next' (ps.map Prod.snd)).run child anew) Q) :
    Mirrors R
      ((Script.childrenOfValues c (Script.listed (Dict.get? props "children")) next).run child anew)
      ((Script.childrenOfValues c' (Script.listed (Dict.get? props' "children")) next').run child
        anew) Q := by
  obtain ⟨xs, hxs, hxs', hpaired⟩ := hmatches.children hnests
  rw [hxs, hxs']
  refine run_childrenOfValues_mirrors (fun x hx v hv => ?_) hnext
  obtain ⟨v', hv', hvv'⟩ := hpaired x hx v hv
  exact ⟨v', hv', hchild v v' _ _ hvv' hfit⟩

/-- What the implementation of a shape makes of properties that match. -/
theorem run_script_mirrors (hchild : Pairs s R frames child)
    (hmatches : Matches s frames shape props props') {context context' : Context α}
    (hlayout : context.layout = context'.layout) (hnone : shape ≠ .frame → context.layout = none)
    (hfit : SameFit s frames context.container context'.container) :
    Mirrors R ((shape.script props context).run child anew)
      ((shape.script props' context').run child anew) (Visual.Paired s frames) := by
  cases shape with
  | group =>
    have hinherited : context.childContainer = context.container := by
      rw [Context.childContainer, hnone (by decide)]
    have hinherited' : context'.childContainer = context'.container := by
      rw [Context.childContainer, ← hlayout, hnone (by decide)]
    rw [Shape.script, Shape.script, hinherited, hinherited']
    refine run_children_mirrors hchild hmatches rfl hfit fun ps hps => run_ofDraft_mirrors ?_
    refine Shape.group_painters_congr hps (fun key hkey => ?_)
      (Shape.children_withChildren ..) (Shape.children_withChildren ..)
    have hchildren : key ≠ "children" := by
      rintro rfl
      simp at hkey
    rw [Shape.withChildren, Shape.withChildren, Dict.get?_insert_of_ne _ _ hchildren,
      Dict.get?_insert_of_ne _ _ hchildren, hmatches.offset key hkey]
  | frame =>
    obtain rfl := hmatches.same (by decide)
    rw [Shape.script, Shape.script, ← hlayout]
    cases context.layout with
    | none => exact .throw _
    | some l =>
      refine run_children_mirrors hchild hmatches rfl (fun _ => rfl) fun ps hps => ?_
      exact .pure (Shape.framed_paired hps props l)
  | _ =>
    obtain rfl := hmatches.same (by decide)
    exact run_ofDraft_mirrors rfl

variable [Scalar.Sizing α] (hR : R.Stocked)
include hR

omit [Scalar.Sizing α] in
theorem lookup_mirrors {name name' : String} (hname : name = shape.name)
    (hname' : name' = shape.name) : Mirrors R (lookup name) (lookup name')
      fun d d' => d = shape.definition ∧ d' = shape.definition := by
  have hrun (w : Workspace φ α) (hw : w.registry = R) :
      lookup shape.name w = some (.ok shape.definition, w) := by
    rw [lookup_run, hw, hR shape]
  subst hname hname'
  intro w d w' hw hlookup
  rw [hrun w hw] at hlookup
  cases hlookup
  exact ⟨hw, fun u hu => ⟨_, u, hrun u hu, hu, rfl, rfl⟩⟩

/-- One step over paired specs. -/
theorem expand_mirrors (hchild : Pairs s R frames child) {scope scope' : Scope α}
    (hfit : SameFit s frames scope.container scope'.container)
    (h : (Visual.spec spec).Paired s frames (.spec spec')) :
    Mirrors R (expand s child anew scope spec) (expand s child anew scope' spec')
      fun r r' => r.2.Paired s frames r'.2 := by
  obtain ⟨shape, htype, htype', hframe, hprepare⟩ := prepare_paired h
  have hready : Mirrors R (ready s scope spec) (ready s scope' spec') fun call call' =>
      ∃ props props' context context', call = ⟨.shape shape, props, context⟩ ∧
        call' = ⟨.shape shape, props', context'⟩ ∧ Matches s frames shape props props' ∧
        context.layout = context'.layout ∧ (shape ≠ .frame → context.layout = none) ∧
        SameFit s frames context.container context'.container := by
    refine .bind (lookup_mirrors hR htype htype') ?_
    rintro _ _ ⟨rfl, rfl⟩
    refine .bind (.ofExcept hprepare) fun props props' hmatches => ?_
    refine .bind (layout_mirrors hframe hfit) ?_
    rintro l _ ⟨rfl, hnone⟩
    exact .pure ⟨props, props', _, _, rfl, rfl, hmatches, rfl, hnone, hfit⟩
  refine .bind hready ?_
  rintro _ _ ⟨props, props', context, context', rfl, rfl, hmatches, hlayout, hnone, hfit⟩
  exact .bind (run_script_mirrors hchild hmatches hlayout hnone hfit) fun v v' hv => .pure hv

omit hR in
/-- Paired specs have the same type, and so the loops over them end or go on together. -/
theorem follow_mirrors {limit : Nat} {step step' : Spec φ α → Resolve φ α (Props φ α × Visual φ α)}
    (hstep : ∀ spec spec', (Visual.spec spec).Paired s frames (.spec spec') →
      Mirrors R (step spec) (step' spec') fun r r' => r.2.Paired s frames r'.2)
    (room : Nat) (met : List String) (outer outer' : Option (Props φ α)) {spec spec' : Spec φ α}
    (h : (Visual.spec spec).Paired s frames (.spec spec')) :
    Mirrors R (follow limit step room met outer spec) (follow limit step' room met outer' spec')
      fun r r' => r.2.painters = r'.2.painters := by
  induction room generalizing met outer outer' spec spec' with
  | zero =>
    by_cases hmet : spec.typeName ∈ met
    · rw [follow_of_mem hmet]
      exact .throw _
    · rw [follow_zero hmet]
      exact .throw _
  | succ room ih =>
    by_cases hmet : spec.typeName ∈ met
    · rw [follow_of_mem hmet]
      exact .throw _
    · obtain ⟨shape, htype, htype', -⟩ := prepare_paired h
      have hsame : spec'.typeName = spec.typeName := htype'.trans htype.symm
      rw [follow_succ hmet, follow_succ (hsame ▸ hmet), hsame]
      refine .bind (hstep spec spec' h) ?_
      rintro ⟨props, v⟩ ⟨props', v'⟩ hpaired
      cases v with
      | resolved r =>
        cases hpaired with
        | resolved hr => exact .pure hr
      | spec next =>
        cases v' with
        | resolved r => cases hpaired
        | spec next' =>
          obtain ⟨shape', hnext, hnext', -⟩ := prepare_paired hpaired
          have hb : Text.isBlank next.typeName = false := hnext ▸ shape'.isBlank_name
          have hb' : Text.isBlank next'.typeName = false := hnext' ▸ shape'.isBlank_name
          simp only [hb, hb', Bool.false_eq_true, ↓reduceIte]
          exact ih _ _ _ hpaired

theorem Pairs.resolve (hchild : Pairs s R frames child) (depth room : Nat) :
    Pairs s R frames (resolve s child anew depth room) := by
  intro v v' c c' hpaired hfit
  cases v with
  | resolved r =>
    cases hpaired with
    | resolved hr => exact .pure hr
  | spec spec =>
    cases v' with
    | resolved r => cases hpaired
    | spec spec' =>
      obtain ⟨shape, htype, htype', -⟩ := prepare_paired hpaired
      rw [resolve_of_not_blank (htype ▸ shape.isBlank_name),
        resolve_of_not_blank (htype' ▸ shape.isBlank_name)]
      refine .bind (follow_mirrors (fun _ _ => expand_mirrors hR hchild hfit) _ _ _ _ hpaired) ?_
      exact fun r r' hr => .bind .freshNode fun _ _ _ => .pure hr

theorem Pairs.within (anew : Resolver φ α) (depth room : Nat) :
    Pairs s R frames (within s anew depth room) := by
  induction room generalizing depth with
  | zero => exact .resolve hR (fun _ _ _ _ _ _ => .throw _) depth 0
  | succ room ih => exact .resolve hR (ih (depth + 1)) depth (room + 1)

theorem Pairs.engine : Pairs s R frames (Engine.resolve s) := by
  rw [engine_eq]
  exact within hR _ 0 s.settings.maxDepth

end Resolution
end

end Scene
