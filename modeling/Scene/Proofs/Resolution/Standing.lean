import Scene.Proofs.Rendering.Renewal
import Scene.Proofs.Resolution.Snapshot
import Mathlib.Data.List.Forall2

/-! Where resolved nodes stand. What is resolved already is a child like any other: it keeps its
place among its siblings and costs no node, while every spec among them becomes a new one. A frame
hands its children on to the group that it puts inside. -/
namespace Scene
open Resolve Resolution
variable {φ α β γ : Type}

def Renderable.Holds (r : Renderable φ α) (kids : List (Renderable φ α)) : Prop :=
  Dict.get? r.props "children" = some (.array (kids.map .renderable))

section
variable [Scalar α]

def Shape.backdrops (props : Props φ α) (l : Layout.Solution α) : List (Visual φ α) :=
  (Primitive.string? props "background").toList.map fun fill => .spec (backdrop l fill)

/-- What the completed properties of a shape list as its children. -/
def Shape.Lists (s : Surroundings φ α) (shape : Shape) (props completed : Props φ α)
    (vs : List (Visual φ α)) : Prop :=
  prepare s shape.definition props = .ok completed ∧
    List.Forall₂ (fun x v => Visual.ofValue? x = .ok v)
      (Script.listed (Dict.get? completed "children")) vs

/-- Siblings in their order, and the renderables that stand for them, with the next node before
and after. What is resolved stands for itself and takes no node. A spec takes two when its children
have theirs, one for what its shape draws and one for that with its origin; the group inside a frame
takes two of its own. -/
inductive Visual.Stand (s : Surroundings φ α) :
    Nat → List (Visual φ α) → List (Renderable φ α) → Nat → Prop where
  | nil {n : Nat} : Stand s n [] [] n
  | resolved {n m : Nat} {vs : List (Visual φ α)} {rs : List (Renderable φ α)}
      (r : Renderable φ α) (rest : Stand s n vs rs m) : Stand s n (.resolved r :: vs) (r :: rs) m
  | leaf {n m : Nat} {vs : List (Visual φ α)} {rs : List (Renderable φ α)} {shape : Shape}
      {spec : Spec φ α} {r : Renderable φ α} (nests : shape.nests = false)
      (typeName_eq : spec.typeName = shape.name) (kind_eq : r.kind = shape.name)
      (node_eq : r.node = n + 1) (spec_eq : r.spec? = some spec) (rest : Stand s (n + 2) vs rs m) :
      Stand s n (.spec spec :: vs) (r :: rs) m
  | group {n k m : Nat} {vs nested : List (Visual φ α)} {rs kids : List (Renderable φ α)}
      {spec : Spec φ α} {completed : Props φ α} {r : Renderable φ α}
      (typeName_eq : spec.typeName = Shape.group.name)
      (lists : Shape.group.Lists s spec.props completed nested) (children : Stand s n nested kids k)
      (kind_eq : r.kind = Shape.group.name) (holds : r.Holds kids) (node_eq : r.node = k + 1)
      (spec_eq : r.spec? = some spec) (rest : Stand s (k + 2) vs rs m) :
      Stand s n (.spec spec :: vs) (r :: rs) m
  | frame {n k j m : Nat} {vs nested : List (Visual φ α)} {rs kids backs : List (Renderable φ α)}
      {spec : Spec φ α} {completed : Props φ α} {l : Layout.Solution α} {inner r : Renderable φ α}
      (typeName_eq : spec.typeName = Shape.frame.name)
      (lists : Shape.frame.Lists s spec.props completed nested) (children : Stand s n nested kids k)
      (backdrops : Stand s k (Shape.backdrops completed l) backs j)
      (inner_kind_eq : inner.kind = Shape.group.name) (inner_holds : inner.Holds kids)
      (inner_node_eq : inner.node = j + 1)
      (kind_eq : r.kind = Shape.group.name) (holds : r.Holds (backs ++ [inner]))
      (node_eq : r.node = j + 3) (spec_eq : r.spec? = some spec) (rest : Stand s (j + 4) vs rs m) :
      Stand s n (.spec spec :: vs) (r :: rs) m

namespace Visual.Stand
variable {s : Surroundings φ α} {n k m : Nat} {v : Visual φ α} {us vs : List (Visual φ α)}
  {r : Renderable φ α} {rs : List (Renderable φ α)}

theorem cons (h : Stand s n [v] [r] k) (hs : Stand s k vs rs m) :
    Stand s n (v :: vs) (r :: rs) m := by
  cases h with
  | resolved r rest =>
    cases rest
    exact .resolved r hs
  | leaf nests typeName_eq kind_eq node_eq spec_eq rest =>
    cases rest
    exact .leaf nests typeName_eq kind_eq node_eq spec_eq hs
  | group typeName_eq lists children kind_eq holds node_eq spec_eq rest =>
    cases rest
    exact .group typeName_eq lists children kind_eq holds node_eq spec_eq hs
  | frame typeName_eq lists children backdrops inner_kind_eq inner_holds inner_node_eq kind_eq holds
      node_eq spec_eq rest =>
    cases rest
    exact .frame typeName_eq lists children backdrops inner_kind_eq inner_holds inner_node_eq
      kind_eq holds node_eq spec_eq hs

theorem uncons (h : Stand s n (v :: vs) rs m) :
    ∃ r rs' k, rs = r :: rs' ∧ Stand s n [v] [r] k ∧ Stand s k vs rs' m := by
  cases h with
  | resolved r rest => exact ⟨r, _, _, rfl, .resolved r .nil, rest⟩
  | leaf nests typeName_eq kind_eq node_eq spec_eq rest =>
    exact ⟨_, _, _, rfl, .leaf nests typeName_eq kind_eq node_eq spec_eq .nil, rest⟩
  | group typeName_eq lists children kind_eq holds node_eq spec_eq rest =>
    exact ⟨_, _, _, rfl, .group typeName_eq lists children kind_eq holds node_eq spec_eq .nil, rest⟩
  | frame typeName_eq lists children backdrops inner_kind_eq inner_holds inner_node_eq kind_eq holds
      node_eq spec_eq rest =>
    exact ⟨_, _, _, rfl, .frame typeName_eq lists children backdrops inner_kind_eq inner_holds
      inner_node_eq kind_eq holds node_eq spec_eq .nil, rest⟩

theorem exists_of_append (h : Stand s n (us ++ vs) rs m) :
    ∃ as bs k, rs = as ++ bs ∧ Stand s n us as k ∧ Stand s k vs bs m := by
  induction us generalizing n rs with
  | nil => exact ⟨[], rs, n, rfl, .nil, h⟩
  | cons u us ih =>
    obtain ⟨r, rs', k, rfl, hfirst, hrest⟩ := h.uncons
    obtain ⟨as, bs, k', rfl, has, hbs⟩ := ih hrest
    exact ⟨r :: as, bs, k', rfl, hfirst.cons has, hbs⟩

/-- What is resolved stands for itself, all of it. -/
theorem eq_of_resolved {kids : List (Renderable φ α)}
    (h : Stand s n (kids.map .resolved) rs m) : rs = kids ∧ m = n := by
  induction kids generalizing rs with
  | nil =>
    cases h
    exact ⟨rfl, rfl⟩
  | cons kid kids ih =>
    cases h with
    | resolved _ rest =>
      obtain ⟨rfl, rfl⟩ := ih rest
      exact ⟨rfl, rfl⟩

theorem le (h : Stand s n vs rs m) : n ≤ m := by
  induction h with
  | nil => exact Nat.le_refl _
  | resolved _ _ ih => exact ih
  | leaf _ _ _ _ _ _ ih => omega
  | group _ _ _ _ _ _ _ _ ihchildren ihrest => omega
  | frame _ _ _ _ _ _ _ _ _ _ _ _ ihchildren ihbacks ihrest => omega

theorem length_eq (h : Stand s n vs rs m) : rs.length = vs.length := by
  induction vs generalizing n rs with
  | nil =>
    cases h
    rfl
  | cons v vs ih =>
    obtain ⟨r, rs', k, rfl, -, hrest⟩ := h.uncons
    rw [List.length_cons, List.length_cons, ih hrest]

/-- At each position stands what the visual there has become. -/
theorem getElem? (h : Stand s n vs rs m) {i : Nat} (hv : vs[i]? = some v) :
    ∃ r k j, rs[i]? = some r ∧ n ≤ k ∧ j ≤ m ∧ Stand s k [v] [r] j := by
  induction vs generalizing n rs i with
  | nil => cases hv
  | cons u us ih =>
    obtain ⟨r, rs', k, rfl, hfirst, hrest⟩ := h.uncons
    cases i with
    | zero =>
      cases hv
      exact ⟨r, n, k, rfl, Nat.le_refl n, hrest.le, hfirst⟩
    | succ i =>
      obtain ⟨r', k', j, hget, hk, hj, hstand⟩ := ih hrest hv
      exact ⟨r', k', j, hget, Nat.le_trans hfirst.le hk, hj, hstand⟩

/-- What stands for a spec is a new node, and remembers the spec. -/
theorem spec_new {spec : Spec φ α} (h : Stand s n [.spec spec] [r] m) :
    n ≤ r.node ∧ r.node < m ∧ r.spec? = some spec := by
  cases h with
  | leaf nests typeName_eq kind_eq node_eq spec_eq rest =>
    have hle := rest.le
    exact ⟨by omega, by omega, spec_eq⟩
  | group typeName_eq lists children kind_eq holds node_eq spec_eq rest =>
    have hle := rest.le
    have hkids := children.le
    exact ⟨by omega, by omega, spec_eq⟩
  | frame typeName_eq lists children backdrops inner_kind_eq inner_holds inner_node_eq kind_eq holds
      node_eq spec_eq rest =>
    have hle := rest.le
    have hkids := children.le
    have hbacks := backdrops.le
    exact ⟨by omega, by omega, spec_eq⟩

end Visual.Stand

namespace Shape
variable {s : Surroundings φ α} {props completed : Props φ α} {l : Layout.Solution α}
  {kids : List (Renderable φ α)} {nested : List (Visual φ α)}

/-- Preparing leaves children as they are that are not computed, and adds none. -/
theorem children_of_prepare {shape : Shape}
    (h : prepare s shape.definition props = .ok completed)
    (hplain : ∀ v, Dict.get? props "children" = some v → v.isComputed = false) :
    Dict.get? completed "children" = Dict.get? props "children" := by
  cases hget : Dict.get? props "children" with
  | some v => exact prepare_keeps h hget (hplain v hget)
  | none =>
    have hfilled := (shape.children_completed props).trans hget
    refine Option.eq_none_iff_forall_ne_some.mpr fun u hu => ?_
    obtain ⟨v, hv, -⟩ := (Completion.get?_evaluateAll_iff (complete_of_prepare h)).mp hu
    cases hfilled.symm.trans hv

/-- Children that are not computed are those of the spec: several for an array, one for a single
value, none for null or where there is no such property. -/
theorem Lists.reads_own {shape : Shape} (h : shape.Lists s props completed nested)
    (hplain : ∀ v, Dict.get? props "children" = some v → v.isComputed = false) :
    List.Forall₂ (fun x v => Visual.ofValue? x = .ok v)
      (Script.listed (Dict.get? props "children")) nested := by
  obtain ⟨hprepare, hreads⟩ := h
  rwa [children_of_prepare hprepare hplain] at hreads

/-- A shape whose children are not computed, and are built of shapes. -/
theorem ofStock_of_children {shape : Shape} {spec : Spec φ α} (htype : spec.typeName = shape.name)
    (hplain : ∀ v, Dict.get? spec.props "children" = some v → v.isComputed = false)
    (h : ∀ x ∈ Script.listed (Dict.get? spec.props "children"), ∀ v, Visual.ofValue? x = .ok v →
      v.OfStock s True) : (Visual.spec spec).OfStock s True := by
  refine .spec htype (fun _ => trivial) ?_
  intro _ completed hprepare v ⟨x, hx, hv⟩
  rw [children_of_prepare hprepare hplain] at hx
  exact h x hx v hv

def Writes (props : Props φ α) (vs : List (Visual φ α)) : Prop :=
  Dict.get? props "children" = some (.array (vs.map Visual.toValue)) ∧
    ∀ v ∈ vs, Visual.ofValue? v.toValue = .ok v

theorem Writes.ofStock {shape : Shape} {spec : Spec φ α} {vs : List (Visual φ α)}
    (hvs : Writes spec.props vs) (htype : spec.typeName = shape.name)
    (h : ∀ v ∈ vs, v.OfStock s True) : (Visual.spec spec).OfStock s True := by
  obtain ⟨hchildren, hread⟩ := hvs
  refine ofStock_of_children htype (by simp [hchildren, Value.isComputed]) fun x hx u hu => ?_
  rw [hchildren] at hx
  obtain ⟨v, hv, rfl⟩ := List.mem_map.mp hx
  exact Except.ok.inj ((hread v hv).symm.trans hu) ▸ h v hv

theorem Writes.eq_of_lists {shape : Shape} {vs : List (Visual φ α)} (hvs : Writes props vs)
    (h : shape.Lists s props completed nested) : nested = vs := by
  have hunique : Relator.RightUnique fun (x : Value φ α) v => Visual.ofValue? x = .ok v :=
    fun _ _ _ hv hu => Except.ok.inj (hv.symm.trans hu)
  obtain ⟨hchildren, hread⟩ := hvs
  obtain ⟨hprepare, hnested⟩ := h
  rw [prepare_keeps hprepare hchildren rfl] at hnested
  exact hunique.forall₂ hnested
    (List.forall₂_map_left_iff.mpr (List.forall₂_same.mpr hread))

omit [Scalar α] in
theorem content_writes (padding : α) (kids : List (Renderable φ α)) :
    Writes (content padding kids).props (kids.map .resolved) := by
  refine ⟨by rw [children_content, List.map_map]; rfl, fun v hv => ?_⟩
  obtain ⟨kid, -, rfl⟩ := List.mem_map.mp hv
  rfl

/-- A frame stands for a group of its backgrounds and of its content. -/
theorem framed_writes (props : Props φ α) (l : Layout.Solution α) (kids : List (Renderable φ α)) :
    Writes (framed props l kids).props
      (backdrops props l ++ [.spec (content (Primitive.number props "padding") kids)]) := by
  refine ⟨?_, fun v hv => ?_⟩
  · rw [framed_eq, Spec.props_set (by decide), Dict.get?_insert_self]
    simp [backdrops, Function.comp_def, Visual.toValue]
  · rcases List.mem_append.mp hv with hv | hv
    · obtain ⟨fill, -, rfl⟩ := List.mem_map.mp hv
      exact Spec.ofValue?_toValue_self Shape.rect.isBlank_name (backdrop_isPlain l fill)
    · obtain rfl := List.mem_singleton.mp hv
      exact Spec.ofValue?_toValue_self Shape.group.isBlank_name (content_isPlain _ kids)

theorem content_ofStock (padding : α) (kids : List (Renderable φ α)) :
    (Visual.spec (content padding kids)).OfStock s True := by
  refine (content_writes padding kids).ofStock (show _ = Shape.group.name from rfl) fun v hv => ?_
  obtain ⟨kid, -, rfl⟩ := List.mem_map.mp hv
  exact .resolved kid

theorem framed_ofStock (props : Props φ α) (l : Layout.Solution α) (kids : List (Renderable φ α)) :
    (Visual.spec (framed props l kids)).OfStock s True := by
  refine (framed_writes props l kids).ofStock (show _ = Shape.group.name from rfl) fun v hv => ?_
  rcases List.mem_append.mp hv with hv | hv
  · obtain ⟨fill, -, rfl⟩ := List.mem_map.mp hv
    exact .spec (show _ = Shape.rect.name from rfl) (fun _ => trivial)
      fun hnests => absurd hnests (by decide)
  · obtain rfl := List.mem_singleton.mp hv
    exact content_ofStock _ kids

end Shape

namespace Visual.Stand
variable {s : Surroundings φ α} {n k m : Nat} {props : Props φ α} {l : Layout.Solution α}
  {kids rs : List (Renderable φ α)} {spec : Spec φ α} {r : Renderable φ α}

/-- The nodes of a group are those of its children, and two of its own. -/
theorem group_inv (h : Stand s n [.spec spec] [r] m) (htype : spec.typeName = Shape.group.name) :
    ∃ completed nested kids k, Shape.group.Lists s spec.props completed nested ∧
      Stand s n nested kids k ∧ r.kind = Shape.group.name ∧ r.Holds kids ∧ r.node = k + 1 ∧
      m = k + 2 := by
  cases h with
  | leaf nests typeName_eq =>
    obtain rfl := Shape.name_injective (htype.symm.trans typeName_eq)
    cases nests
  | group _ lists children kind_eq holds node_eq _ rest =>
    cases rest
    exact ⟨_, _, _, _, lists, children, kind_eq, holds, node_eq, rfl⟩
  | frame typeName_eq =>
    cases Shape.name_injective (htype.symm.trans typeName_eq)

/-- The content of a frame holds what was resolved for it, and nothing of that is resolved again. -/
theorem content_inv {padding : α} (h : Stand s n [.spec (Shape.content padding kids)] rs m) :
    ∃ inner, rs = [inner] ∧ inner.kind = Shape.group.name ∧ inner.Holds kids ∧
      inner.node = n + 1 ∧ m = n + 2 := by
  obtain ⟨inner, _, _, rfl, hinner, hnil⟩ := h.uncons
  cases hnil
  obtain ⟨completed, nested, kids', k, hlists, hkids, hkind, hholds, hnode, hnext⟩ :=
    hinner.group_inv rfl
  obtain rfl := (Shape.content_writes padding kids).eq_of_lists hlists
  obtain ⟨rfl, rfl⟩ := hkids.eq_of_resolved
  exact ⟨inner, rfl, hkind, hholds, hnode, hnext⟩

theorem framed_inv (h : Stand s n [.spec (Shape.framed props l kids)] [r] m) :
    ∃ backs inner j, Stand s n (Shape.backdrops props l) backs j ∧ inner.kind = Shape.group.name ∧
      inner.Holds kids ∧ inner.node = j + 1 ∧ r.kind = Shape.group.name ∧
      r.Holds (backs ++ [inner]) ∧ r.node = j + 3 ∧ m = j + 4 := by
  obtain ⟨completed, nested, parts, k, hlists, hparts, hkind, hholds, hnode, hnext⟩ :=
    h.group_inv rfl
  obtain rfl := (Shape.framed_writes props l kids).eq_of_lists hlists
  obtain ⟨backs, _, j, rfl, hbacks, hcontent⟩ := hparts.exists_of_append
  obtain ⟨inner, rfl, hinner, hkids, hinnerNode, rfl⟩ := hcontent.content_inv
  exact ⟨backs, inner, j, hbacks, hinner, hkids, hinnerNode, hkind, hholds, hnode, hnext⟩

end Visual.Stand

namespace Resolution
variable {s : Surroundings φ α} {R : Registry φ α} {child anew : Resolver φ α} {n : Nat}
  {shape : Shape} {completed : Props φ α} {spec : Spec φ α}

def Ends (s : Surroundings φ α) (n : Nat) (spec : Spec φ α) (r : Renderable φ α) (m : Nat) : Prop :=
  ∀ completed, Visual.Stand s n [.spec spec] [r.withOrigin m spec completed] (m + 1)

def Advances (s : Surroundings φ α) (n : Nat) (spec : Spec φ α) : Visual φ α → Nat → Prop
  | .resolved r, m => Ends s n spec r m
  | .spec next, k =>
    (Visual.spec next).OfStock s True ∧ ∀ r m, Ends s k next r m → Ends s n spec r m

def Stands (s : Surroundings φ α) (R : Registry φ α) (resolver : Resolver φ α) : Prop :=
  ∀ v c n, v.OfStock s True →
    Tracks R n (resolver v c) fun r m => Visual.Stand s n [v] [r] m

omit [Scalar α] in
theorem run_ofDraft_tracks {d : Draft φ α} {P : Visual φ α → Nat → Prop}
    (h : P (.resolved (d.node n)) (n + 1)) :
    Tracks R n ((Script.ofDraft d).run child anew) P := by
  refine .bind .freshNode ?_
  rintro _ _ ⟨rfl, rfl⟩
  exact .pure h

/-- Values that are listed as children are resolved in order. -/
theorem run_childrenOfValues_tracks (hchild : Stands s R child) {c : Option (Container α)}
    {xs : List (Value φ α)}
    (hxs : ∀ x ∈ xs, ∀ v, Visual.ofValue? x = .ok v → v.OfStock s True)
    {next : List (Renderable φ α) → Script φ α} {P : Visual φ α → Nat → Prop}
    (hnext : ∀ nested kids k, List.Forall₂ (fun x v => Visual.ofValue? x = .ok v) xs nested →
      Visual.Stand s n nested kids k → Tracks R k ((next kids).run child anew) P) :
    Tracks R n ((Script.childrenOfValues c xs next).run child anew) P := by
  induction xs generalizing n next with
  | nil => exact hnext [] [] n .nil .nil
  | cons x xs ih =>
    obtain ⟨hx, hxs⟩ := List.forall_mem_cons.mp hxs
    rw [Script.childrenOfValues, Script.childOfValue]
    cases hv : Visual.ofValue? x with
    | error e => exact .throw e
    | ok v =>
      refine .attempt (hchild v c n (hx v hv)) (fun kid k hkid => ?_) fun e w v w' hrun => ?_
      · refine ih hxs fun nested kids m hreads hkids => ?_
        exact hnext (v :: nested) (kid :: kids) m (.cons hv hreads) (hkid.cons hkids)
      · cases hrun

theorem run_script_tracks (hchild : Stands s R child) (context : Context α)
    (htype : spec.typeName = shape.name)
    (hprepare : prepare s shape.definition spec.props = .ok completed)
    (hnested : shape.nests = true → ∀ v, Nests completed v → v.OfStock s True) :
    Tracks R n ((shape.script completed context).run child anew) (Advances s n spec) := by
  have hlisted (hnests : shape.nests = true) :
      ∀ x ∈ Script.listed (Dict.get? completed "children"), ∀ v, Visual.ofValue? x = .ok v →
        v.OfStock s True := fun x hx v hv => hnested hnests v ⟨x, hx, hv⟩
  cases shape with
  | group =>
    refine run_childrenOfValues_tracks hchild (hlisted rfl) fun nested kids k hreads hkids => ?_
    refine run_ofDraft_tracks fun _ => ?_
    exact .group htype ⟨hprepare, hreads⟩ hkids rfl (Dict.get?_insert_self ..) rfl rfl .nil
  | frame =>
    rw [Shape.script]
    cases context.layout with
    | none => exact .throw _
    | some l =>
      refine run_childrenOfValues_tracks hchild (hlisted rfl) fun nested kids k hreads hkids => ?_
      refine .pure ⟨Shape.framed_ofStock completed l kids, fun r m hends own => ?_⟩
      -- the group that a frame stands for is resolved in its place, so the origin is the frame's
      obtain ⟨backs, inner, j, hbacks, hinner, hholds, hnode, hkind, hparts, hlast, hnext⟩ :=
        (hends []).framed_inv
      rw [hnext]
      exact .frame htype ⟨hprepare, hreads⟩ hkids hbacks hinner hholds hnode hkind hparts hlast rfl
        .nil
  | _ => exact run_ofDraft_tracks fun _ => .leaf rfl htype rfl rfl rfl .nil

theorem layout_tracks (d : Definition φ α) (props : Props φ α) (container : Option (Container α)) :
    Tracks R n (layout s d props container) fun _ m => n = m := by
  obtain ⟨-, h⟩ | ⟨e, h⟩ | ⟨l, h | ⟨ws, h⟩⟩ := layout_cases s d props container <;> rw [h]
  · exact .pure rfl
  · exact .throw _
  · exact .pure rfl
  · exact .bind (.warn ws) fun _ _ hm => .pure hm

section
variable (hR : R.Stocked)
include hR

theorem lookup_tracks (htype : spec.typeName = shape.name) :
    Tracks R n (lookup spec.typeName) fun d m => d = shape.definition ∧ n = m := by
  intro w d w' hw hn hrun
  rw [htype, lookup_run, hw, hR shape] at hrun
  cases hrun
  exact ⟨hw, rfl, hn.symm⟩

theorem expand_tracks (hchild : Stands s R child) (scope : Scope α)
    (h : (Visual.spec spec).OfStock s True) :
    Tracks R n (expand s child anew scope spec) fun r m => Advances s n spec r.2 m := by
  cases h with
  | @spec _ shape htype _ hnested =>
    have hready : Tracks R n (ready s scope spec) fun call m => n = m ∧
        ∃ completed context, prepare s shape.definition spec.props = .ok completed ∧
          call = ⟨.shape shape, completed, context⟩ := by
      refine .bind (lookup_tracks hR htype) ?_
      rintro _ _ ⟨rfl, rfl⟩
      refine .bind (.ofExcept (P := fun completed m =>
        prepare s shape.definition spec.props = .ok completed ∧ n = m) fun _ h => ⟨h, rfl⟩) ?_
      rintro completed _ ⟨hprepare, rfl⟩
      refine .bind (layout_tracks _ _ _) ?_
      rintro l _ rfl
      exact .pure ⟨rfl, completed, _, hprepare, rfl⟩
    refine .bind hready ?_
    rintro _ _ ⟨rfl, completed, context, hprepare, rfl⟩
    refine .bind (run_script_tracks hchild context htype hprepare fun hnests v hv => ?_)
      fun v m hv => .pure hv
    exact hnested hnests completed hprepare v hv

end

theorem follow_tracks {limit : Nat} {step : Spec φ α → Resolve φ α (Props φ α × Visual φ α)}
    (hstep : ∀ spec n, (Visual.spec spec).OfStock s True →
      Tracks R n (step spec) fun r m => Advances s n spec r.2 m) {n : Nat} {spec : Spec φ α}
    (room : Nat) (met : List String) (outer : Option (Props φ α))
    (h : (Visual.spec spec).OfStock s True) :
    Tracks R n (follow limit step room met outer spec) fun r m => Ends s n spec r.2 m := by
  induction room generalizing met outer spec n with
  | zero =>
    by_cases hmet : spec.typeName ∈ met
    · rw [follow_of_mem hmet]
      exact .throw _
    · rw [follow_zero hmet]
      exact .throw _
  | succ room ih =>
    by_cases hmet : spec.typeName ∈ met
    · rw [follow_of_mem hmet]
      exact .throw _
    · rw [follow_succ hmet]
      refine .bind (hstep spec n h) fun r k hadvances => ?_
      obtain ⟨props, v⟩ := r
      cases v with
      | resolved r => exact .pure hadvances
      | spec next =>
        obtain ⟨hnext, hends⟩ := hadvances
        dsimp only
        split
        · exact .throw _
        · exact (ih _ _ hnext).mono fun r m => hends r.2 m

/-- Resolving a renderable changes nothing. -/
theorem nested_resolved (s : Surroundings φ α) (anew : Resolver φ α) (depth : Nat)
    (c : Option (Container α)) (r : Renderable φ α) :
    nested s anew depth (.resolved r) c = pure r := by
  unfold nested
  cases s.settings.maxDepth - depth <;> rfl

section
variable (hR : R.Stocked)
include hR

theorem Stands.resolve (hchild : Stands s R child) (depth room : Nat) :
    Stands s R (resolve s child anew depth room) := by
  intro v c n hv
  cases v with
  | resolved r => exact .pure (.resolved r .nil)
  | spec spec =>
    by_cases hb : Text.isBlank spec.typeName = true
    · rw [resolve_of_blank hb]
      exact .throw _
    · rw [resolve_of_not_blank (Bool.eq_false_iff.mpr hb)]
      refine .bind (follow_tracks (fun _ _ => expand_tracks hR hchild _) _ _ _ hv) fun r m hr => ?_
      refine .bind .freshNode ?_
      rintro _ _ ⟨rfl, rfl⟩
      exact .pure (hr r.1)

theorem Stands.within (anew : Resolver φ α) (depth room : Nat) :
    Stands s R (within s anew depth room) := by
  -- children are resolved one level deeper, with less room; without any they are refused
  induction room generalizing depth with
  | zero => exact .resolve hR (fun _ _ _ _ => .throw _) depth 0
  | succ room ih => exact .resolve hR (ih (depth + 1)) depth (room + 1)

theorem Stands.engine : Stands s R (Engine.resolve s) := by
  rw [engine_eq]
  exact within hR _ 0 s.settings.maxDepth

end
end Resolution
end

/-- Visuals of built-in shapes, with renderables among what they nest at whatever depth: resolving
one keeps the registry, and at every level the children stand in their places, in their number and
order. Those that were resolved before are the same renderables, and take no node; the others are
new nodes, none of which was given out before. The children that are not computed are those that the
spec has. A renderable is resolved to itself by the engine and at every depth, and nothing else
happens. -/
theorem resolved_stand [Scalar α] (s : Surroundings φ α) (w w' : Workspace φ α) (v : Visual φ α)
    (container : Option (Container α)) (r : Renderable φ α) (hstocked : w.registry.Stocked)
    (hv : v.OfStock s True) (hresolve : Engine.resolve s v container w = some (.ok r, w')) :
    w'.registry = w.registry ∧ Visual.Stand s w.nextNode [v] [r] w'.nextNode ∧
      (∀ n vs rs m, Visual.Stand s n vs rs m → rs.length = vs.length ∧ ∀ i : Nat,
        (∀ x, vs[i]? = some (.resolved x) → rs[i]? = some x) ∧
        ∀ spec, vs[i]? = some (.spec spec) → ∃ x, rs[i]? = some x ∧ n ≤ x.node ∧ x.node < m ∧
          x.spec? = some spec) ∧
      (∀ (shape : Shape) props completed nested, shape.Lists s props completed nested →
        (∀ x, Dict.get? props "children" = some x → x.isComputed = false) →
        List.Forall₂ (fun x v => Visual.ofValue? x = .ok v)
          (Script.listed (Dict.get? props "children")) nested) ∧
      (∃ anew, Engine.resolve s = nested s anew 0) ∧
      ∀ anew depth x c, nested s anew depth (.resolved x) c = pure x := by
  obtain ⟨hkept, hstand⟩ := Stands.engine hstocked v container w.nextNode hv w r w' rfl rfl hresolve
  refine ⟨hkept, hstand, fun n vs rs m h => ⟨h.length_eq, fun i => ⟨fun x hx => ?_,
    fun spec hspec => ?_⟩⟩, fun _ _ _ _ h => h.reads_own, ⟨_, Resolution.engine_eq s⟩,
    fun anew depth x c => nested_resolved s anew depth c x⟩
  · obtain ⟨y, k, j, hy, -, -, hstands⟩ := h.getElem? hx
    cases hstands
    exact hy
  · obtain ⟨y, k, j, hy, hk, hj, hstands⟩ := h.getElem? hspec
    obtain ⟨hlow, hhigh, hremembered⟩ := hstands.spec_new
    exact ⟨y, hy, hk.trans hlow, hhigh.trans_le hj, hremembered⟩

def token (node : Nat) : Renderable Empty Exact :=
  ⟨node, "token", [], none, ⟨fun _ => pure none, pure true⟩⟩

def pouch : Spec Empty Exact := ⟨"group", [("children", .renderable (token 7))]⟩

def purse : Spec Empty Exact :=
  ⟨"frame", [("background", .string "white"),
    ("children", .array [pouch.toValue, .renderable (token 5)])]⟩

def coffer : Spec Empty Exact :=
  ⟨"group", [("children", .array [.renderable (token 3), purse.toValue,
    (Spec.create "group").toValue])]⟩

theorem coffer_ofStock : (Visual.spec coffer).OfStock studio True := by
  have hpouch : (Visual.spec pouch).OfStock studio True := by
    refine Shape.ofStock_of_children (show _ = Shape.group.name from rfl) ?_ ?_
    · simp [pouch, Dict.get?, Value.isComputed]
    · intro x hx v hv
      obtain rfl : x = .renderable (token 7) := List.mem_singleton.mp hx
      cases hv
      exact .resolved _
  have hpurse : (Visual.spec purse).OfStock studio True := by
    have hwrites : Shape.Writes purse.props [.spec pouch, .resolved (token 5)] :=
      ⟨rfl, by simp only [List.forall_mem_cons]; exact ⟨rfl, rfl, List.forall_mem_nil _⟩⟩
    refine hwrites.ofStock (show _ = Shape.frame.name from rfl) ?_
    simp only [List.forall_mem_cons]
    exact ⟨hpouch, .resolved _, List.forall_mem_nil _⟩
  have hempty : (Visual.spec (Spec.create "group")).OfStock studio True :=
    Shape.ofStock_of_children (show _ = Shape.group.name from rfl) (by simp [Spec.create])
      (by simp [Spec.create, Script.listed])
  have hwrites : Shape.Writes coffer.props
      [.resolved (token 3), .spec purse, .spec (.create "group")] :=
    ⟨rfl, by simp only [List.forall_mem_cons]; exact ⟨rfl, rfl, rfl, List.forall_mem_nil _⟩⟩
  refine hwrites.ofStock (show _ = Shape.group.name from rfl) ?_
  simp only [List.forall_mem_cons]
  exact ⟨.resolved _, hpurse, hempty, List.forall_mem_nil _⟩

def vault : Workspace Empty Exact := { stock with nextNode := 9 }

theorem coffer_stands :
    vault.registry.Stocked ∧ (Visual.spec coffer).OfStock studio True ∧
      ∃ r w', Engine.resolve studio (.spec coffer) none vault = some (.ok r, w') ∧
        Visual.Stand studio 9 [.spec coffer] [r] w'.nextNode := by
  obtain ⟨r, w', hresolve⟩ := resolves_of_isSome
    (x := Engine.resolve studio (.spec coffer) none vault) (by decide +kernel)
  obtain ⟨-, hstand, -⟩ :=
    resolved_stand studio vault w' (.spec coffer) none r stock_stocked coffer_ofStock hresolve
  exact ⟨stock_stocked, coffer_ofStock, r, w', hresolve, hstand⟩

end Scene
