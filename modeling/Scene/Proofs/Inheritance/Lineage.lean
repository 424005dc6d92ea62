import Scene.Declaration
import Scene.Proofs.Dict
import Scene.Scalar.Exact

/-! Chains of types, each of which extends the one before. What the last one takes over is told by
the declarations: the nearest one that says something decides, and validators add up. -/
namespace Scene
variable {φ α β : Type}

namespace Declaration
variable {d : Declaration φ α} {parent? : Option (Definition φ α)} {p t : Definition φ α}
  {find : String → Option (Definition φ α)} {name : String}

structure Builds (d : Declaration φ α) (parent? : Option (Definition φ α)) (t : Definition φ α) :
    Prop where
  name_eq : t.name = d.name
  extends_eq : t.extends? = parent?.map (·.name)
  properties_eq : t.properties = Dict.overlay ((parent?.map (·.properties)).getD []) d.properties
  implementation_eq :
    composed? (parent?.map (·.implementation)) d.implementation? = some t.implementation
  validators_eq : t.validators = ((parent?.map (·.validators)).getD []) ++ d.validate?.toList
  layout_eq : t.layout? = d.layout?.or (parent?.bind (·.layout?))

theorem build?_eq_ok : d.build? parent? = .ok t ↔ d.Builds parent? t := by
  have hlayout : d.layout?.orElse (fun _ => parent?.bind (·.layout?)) =
      d.layout?.or (parent?.bind (·.layout?)) := by cases d.layout? <;> rfl
  rw [build?, hlayout]
  cases hi : composed? (parent?.map (·.implementation)) d.implementation? with
  | none =>
    refine iff_of_false nofun fun h => ?_
    rw [h.implementation_eq] at hi
    cases hi
  | some i =>
    constructor
    · intro h
      obtain rfl := Except.ok.inj h
      exact ⟨rfl, rfl, rfl, hi, rfl, rfl⟩
    · rintro ⟨hname, hextends, hproperties, himplementation, hvalidators, hlayout⟩
      obtain rfl := Option.some.inj (hi.symm.trans himplementation)
      simp only [← hname, ← hextends, ← hproperties, ← hvalidators, ← hlayout]

theorem exists_build?_iff :
    (∃ t, d.build? parent? = .ok t) ↔
      (composed? (parent?.map (·.implementation)) d.implementation?).isSome = true := by
  rw [build?]
  cases composed? (parent?.map (·.implementation)) d.implementation? with
  | none => exact iff_of_false nofun nofun
  | some i => exact iff_of_true ⟨_, rfl⟩ rfl

theorem isSome_composed? (parent? own : Option (Implementation φ)) :
    (composed? parent? own).isSome = (parent?.isSome || own.isSome) := by
  cases parent? <;> cases own <;> rfl

theorem define?_of_alone (h : d.extends? = none) : d.define? find = d.build? none := by
  rw [define?, h]

theorem define?_of_extends (h : d.extends? = some name) (hfind : find name = some p) :
    d.define? find = d.build? (some p) := by
  simp only [define?, h, hfind]

end Declaration

/-- Declarations, each further one extending the type of the one before, and the definition of the
last. Under what name a type is found is up to the registry of the time. -/
inductive Lineage : List (Declaration φ α) → Definition φ α → Prop where
  | root {d : Declaration φ α} {t : Definition φ α} {find : String → Option (Definition φ α)}
      (alone : d.extends? = none) (built : d.define? find = .ok t) : Lineage [d] t
  | extend {ds : List (Declaration φ α)} {p : Definition φ α} {d : Declaration φ α} {name : String}
      {t : Definition φ α} {find : String → Option (Definition φ α)} (above : Lineage ds p)
      (named : d.extends? = some name) (found : find name = some p)
      (built : d.define? find = .ok t) : Lineage (ds ++ [d]) t

def nearest (f : Declaration φ α → Option β) (ds : List (Declaration φ α)) : Option β :=
  ds.reverse.findSome? f

theorem nearest_singleton (f : Declaration φ α → Option β) (d : Declaration φ α) :
    nearest f [d] = f d := by
  simp [nearest]

theorem nearest_concat (f : Declaration φ α → Option β) (ds : List (Declaration φ α))
    (d : Declaration φ α) : nearest f (ds ++ [d]) = (f d).or (nearest f ds) := by
  rw [nearest, nearest, List.reverse_append, List.findSome?_append, List.reverse_singleton,
    List.findSome?_singleton]

namespace Lineage
variable {ds : List (Declaration φ α)} {d : Declaration φ α} {p t : Definition φ α} {name : String}

/-- Along a chain only what each declaration makes of the definition before it counts. -/
theorem build_induction {motive : ∀ ds t, Lineage (φ := φ) (α := α) ds t → Prop}
    (root : ∀ d t (h : Lineage [d] t), d.Builds none t → motive [d] t h)
    (extend : ∀ ds p d t (above : Lineage ds p) (h : Lineage (ds ++ [d]) t), motive ds p above →
      d.Builds (some p) t → motive (ds ++ [d]) t h)
    (h : Lineage ds t) : motive ds t h := by
  induction h with
  | root halone hbuilt =>
    refine root _ _ (.root halone hbuilt) ?_
    rwa [Declaration.define?_of_alone halone, Declaration.build?_eq_ok] at hbuilt
  | extend above hname hfound hbuilt ih =>
    refine extend _ _ _ _ above (.extend above hname hfound hbuilt) ih ?_
    rwa [Declaration.define?_of_extends hname hfound, Declaration.build?_eq_ok] at hbuilt

theorem exists_root (halone : d.extends? = none) (h : d.implementation?.isSome = true) :
    ∃ t, Lineage [d] t := by
  obtain ⟨t, ht⟩ : ∃ t, d.build? none = .ok t := by
    rw [Declaration.exists_build?_iff, Declaration.isSome_composed?, h, Bool.or_true]
  have hdefine : d.define? (fun _ => none) = .ok t := by
    rwa [Declaration.define?_of_alone halone]
  exact ⟨t, .root halone hdefine⟩

/-- A chain can always be continued. -/
theorem exists_extend (h : Lineage ds p) (hname : d.extends? = some name) :
    ∃ t, Lineage (ds ++ [d]) t := by
  obtain ⟨t, ht⟩ : ∃ t, d.build? (some p) = .ok t := by
    rw [Declaration.exists_build?_iff, Declaration.isSome_composed?]
    rfl
  have hdefine : d.define? (fun _ => some p) = .ok t := by
    rwa [Declaration.define?_of_extends hname rfl]
  exact ⟨t, .extend h hname rfl hdefine⟩

theorem sorted_properties (h : Lineage ds t) : t.properties.Sorted := by
  induction h using build_induction with
  | root d t _ hbuilds =>
    rw [hbuilds.properties_eq]
    exact Dict.Sorted.overlay .nil _
  | extend ds p d t _ _ ih hbuilds =>
    rw [hbuilds.properties_eq]
    exact ih.overlay _

theorem get?_properties (h : Lineage ds t) (hown : ∀ d ∈ ds, d.properties.Sorted) (key : String) :
    Dict.get? t.properties key = nearest (fun d => Dict.get? d.properties key) ds := by
  induction h using build_induction with
  | root d t _ hbuilds =>
    have hd : d.properties.Sorted := hown d List.mem_cons_self
    rw [hbuilds.properties_eq, Dict.get?_overlay _ hd, nearest_singleton]
    exact Option.or_none
  | extend ds p d t _ _ ih hbuilds =>
    have hd : d.properties.Sorted := hown d (by simp)
    have habove := ih fun d' hd' => hown d' (List.mem_append_left _ hd')
    rw [hbuilds.properties_eq, Dict.get?_overlay _ hd, nearest_concat, ← habove]
    rfl

theorem validators_eq (h : Lineage ds t) : t.validators = ds.filterMap (·.validate?) := by
  induction h using build_induction with
  | root d t _ hbuilds =>
    rw [hbuilds.validators_eq]
    cases hv : d.validate? <;> simp [hv]
  | extend ds p d t _ _ ih hbuilds =>
    rw [hbuilds.validators_eq, List.filterMap_append, ← ih]
    cases hv : d.validate? <;> simp [hv]

theorem layout_eq (h : Lineage ds t) : t.layout? = nearest (·.layout?) ds := by
  induction h using build_induction with
  | root d t _ hbuilds =>
    rw [hbuilds.layout_eq, nearest_singleton]
    exact Option.or_none
  | extend ds p d t _ _ ih hbuilds =>
    rw [hbuilds.layout_eq, nearest_concat, ← ih]
    rfl

end Lineage

namespace Definition
variable {t : Definition φ α} {key : String}

theorem mem_required (h : t.properties.Sorted) :
    key ∈ t.required ↔ ∃ s, Dict.get? t.properties key = some s ∧ s.required = true := by
  rw [required, List.mem_filterMap]
  constructor
  · rintro ⟨⟨k, s⟩, hmem, hkey⟩
    obtain ⟨hrequired, hk⟩ := Option.ite_none_right_eq_some.mp hkey
    obtain rfl : k = key := Option.some.inj hk
    exact ⟨s, h.get?_eq_some_iff.mpr hmem, hrequired⟩
  · rintro ⟨s, hs, hrequired⟩
    exact ⟨(key, s), h.get?_eq_some_iff.mp hs, by rw [if_pos hrequired]⟩

theorem get?_defaults (h : t.properties.Sorted) (key : String) :
    Dict.get? t.defaults key = (Dict.get? t.properties key).bind (·.default?) :=
  Dict.get?_filterMap h (·.default?) key

end Definition

/-- In the last type of a chain, a property has the whole schema entry that the nearest type gives
it, and there is none that no type declares. What is required and what has a default is read off
these entries. The validators are those of all types, the first type's first, and the layout is the
nearest. -/
theorem lineage_inherits {ds : List (Declaration φ α)} {t : Definition φ α} (h : Lineage ds t)
    (hown : ∀ d ∈ ds, d.properties.Sorted) :
    (∀ key, Dict.get? t.properties key = nearest (fun d => Dict.get? d.properties key) ds) ∧
      (∀ key, key ∈ t.required ↔
        ∃ s, nearest (fun d => Dict.get? d.properties key) ds = some s ∧ s.required = true) ∧
      (∀ key v, Dict.get? t.defaults key = some v ↔
        ∃ s, nearest (fun d => Dict.get? d.properties key) ds = some s ∧ s.default? = some v) ∧
      t.validators = ds.filterMap (·.validate?) ∧
      t.layout? = nearest (·.layout?) ds := by
  have hentry := h.get?_properties hown
  refine ⟨hentry, fun key => ?_, fun key v => ?_, h.validators_eq, h.layout_eq⟩
  · rw [Definition.mem_required h.sorted_properties, hentry]
  · rw [Definition.get?_defaults h.sorted_properties, hentry, Option.bind_eq_some_iff]

def plate : Declaration String Exact where
  name := "plate"
  properties := [("size", .mandatory), ("tint", Schema.optional.withDefault (.string "grey"))]
  implementation? := some (.host "plate")
  extends? := none
  validate? := some (.host "even")
  layout? := some .fit

def dish : Declaration String Exact where
  name := "dish"
  properties := [("size", Schema.optional.withDefault (.number (.fin 3)))]
  implementation? := none
  extends? := some "plate"
  validate? := none
  layout? := none

def bowl : Declaration String Exact where
  name := "bowl"
  properties := [("depth", .mandatory), ("tint", .optional)]
  implementation? := some (.host "bowl")
  extends? := some "dish"
  validate? := some (.host "deep")
  layout? := none

theorem exists_lineage_bowl : ∃ t, Lineage [plate, dish, bowl] t := by
  obtain ⟨_, hplate⟩ := Lineage.exists_root (d := plate) rfl rfl
  obtain ⟨_, hdish⟩ := hplate.exists_extend (d := dish) rfl
  exact hdish.exists_extend (d := bowl) rfl

theorem bowl_inherits :
    ∃ t, Lineage [plate, dish, bowl] t ∧ (∀ d ∈ [plate, dish, bowl], d.properties.Sorted) ∧
      Dict.get? t.properties "size" = some (Schema.optional.withDefault (.number (.fin 3))) ∧
      "depth" ∈ t.required ∧ "size" ∉ t.required ∧
      Dict.get? t.defaults "size" = some (.number (.fin 3)) ∧
      (∀ v, Dict.get? t.defaults "tint" ≠ some v) ∧
      t.validators = [.host "even", .host "deep"] ∧ t.layout? = some .fit := by
  obtain ⟨t, ht⟩ := exists_lineage_bowl
  have hown : ∀ d ∈ [plate, dish, bowl], d.properties.Sorted := by decide
  obtain ⟨hentry, hrequired, hdefaults, hvalidators, hlayout⟩ := lineage_inherits ht hown
  refine ⟨t, ht, hown, hentry "size", (hrequired _).mpr ⟨_, rfl, rfl⟩, fun hsize => ?_,
    (hdefaults _ _).mpr ⟨_, rfl, rfl⟩, fun v htint => ?_, hvalidators, hlayout⟩
  · obtain ⟨_, hs, hsize⟩ := (hrequired _).mp hsize
    cases hs
    cases hsize
  · obtain ⟨_, hs, hdefault⟩ := (hdefaults _ _).mp htint
    cases hs
    cases hdefault

end Scene
