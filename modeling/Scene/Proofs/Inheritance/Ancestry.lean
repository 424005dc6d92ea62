import Scene.Proofs.Inheritance.Relay
import Scene.Proofs.Resolution.Checks
import Scene.Proofs.Resolution.Snapshot

/-! Ancestors in a chain of types. A type that redeclares no property of an ancestor keeps the
ancestor's schema entries and validators, and with them its checks and its defaults. -/
namespace Scene
open Resolve Resolution
variable {φ α β : Type}

section
variable {f : Declaration φ α → Option β} {ds above below : List (Declaration φ α)} {b : β}

theorem nearest_append : nearest f (above ++ below) = (nearest f below).or (nearest f above) := by
  rw [nearest, nearest, nearest, List.reverse_append, List.findSome?_append]

theorem nearest_eq_none : nearest f ds = none ↔ ∀ d ∈ ds, f d = none := by
  rw [nearest, List.findSome?_eq_none_iff]
  simp only [List.mem_reverse]

theorem exists_of_nearest (h : nearest f ds = some b) : ∃ d ∈ ds, f d = some b := by
  obtain ⟨d, hd, hb⟩ := List.exists_of_findSome?_eq_some h
  exact ⟨d, List.mem_reverse.mp hd, hb⟩

end

/-- No declaration has a property that one before it has. -/
def NoneRedeclared (ds : List (Declaration φ α)) : Prop :=
  ds.Pairwise fun d e => ∀ key ∈ Dict.keys d.properties, key ∉ Dict.keys e.properties

instance (ds : List (Declaration φ α)) : Decidable (NoneRedeclared ds) :=
  inferInstanceAs (Decidable (ds.Pairwise _))

namespace Definition
variable {p t : Definition φ α}

/-- A definition has every schema entry and every validator of another one. -/
structure Covers (t p : Definition φ α) : Prop where
  entry : ∀ key s, Dict.get? p.properties key = some s → Dict.get? t.properties key = some s
  validator : ∀ v ∈ p.validators, v ∈ t.validators

namespace Covers

theorem get?_defaults (h : t.Covers p) (hp : p.properties.Sorted) (ht : t.properties.Sorted)
    {key : String} {v : Value φ α} (hv : Dict.get? p.defaults key = some v) :
    Dict.get? t.defaults key = some v := by
  rw [Definition.get?_defaults hp] at hv
  obtain ⟨s, hs, hdefault⟩ := Option.bind_eq_some_iff.mp hv
  rw [Definition.get?_defaults ht, h.entry key s hs]
  exact hdefault

/-- Properties that lack what the covered definition has a default for get that default. -/
theorem get?_withDefaults (h : t.Covers p) (hp : p.properties.Sorted) (ht : t.properties.Sorted)
    {props : Props φ α} {key : String} {v : Value φ α} (hv : Dict.get? p.defaults key = some v)
    (habsent : Dict.get? props key = none) :
    Dict.get? (Completion.withDefaults t props) key = some v := by
  rw [Completion.withDefaults, Dict.get?_complete_or, habsent, Option.none_or]
  exact h.get?_defaults hp ht hv

theorem accepts [Scalar α] (h : t.Covers p) {m : Meaning φ α} {props : Props φ α}
    (haccepts : t.Accepts m props) : p.Accepts m props where
  required key s hs := haccepts.required key s (h.entry key s hs)
  typed key s tag v hs := haccepts.typed key s tag v (h.entry key s hs)
  tested key s test v hs := haccepts.tested key s test v (h.entry key s hs)
  accepted v hv := haccepts.accepted v (h.validator v hv)

theorem validate [Scalar α] (h : t.Covers p) (hp : p.properties.Sorted) (ht : t.properties.Sorted)
    {m : Meaning φ α} {props : Props φ α} (hvalid : Validation.validate m t props = .ok ()) :
    Validation.validate m p props = .ok () :=
  (Validation.validate_eq_ok hp).mpr (h.accepts ((Validation.validate_eq_ok ht).mp hvalid))

end Covers
end Definition

namespace Lineage
variable {ds above below : List (Declaration φ α)} {p t : Definition φ α}

/-- Every type on the way to the last of a chain has a chain itself. -/
theorem exists_initial (h : Lineage ds t) (hinit : above <+: ds) (hne : above ≠ []) :
    ∃ p, Lineage above p := by
  induction h with
  | @root d t find halone hbuilt =>
    rcases List.prefix_concat_iff.mp (show above <+: [] ++ [d] from hinit) with rfl | hnil
    · exact ⟨t, .root halone hbuilt⟩
    · exact absurd (List.prefix_nil.mp hnil) hne
  | @extend ds p d name t find habove hnamed hfound hbuilt ih =>
    rcases List.prefix_concat_iff.mp hinit with rfl | hinit
    · exact ⟨t, .extend habove hnamed hfound hbuilt⟩
    · exact ih hinit

/-- What an ancestor's schema says of a property, no later type of the chain says anew. -/
theorem covers (h : Lineage ds t) (hown : ∀ d ∈ ds, d.properties.Sorted) (hnew : NoneRedeclared ds)
    (hinit : above <+: ds) (hp : Lineage above p) : t.Covers p := by
  obtain ⟨below, rfl⟩ := hinit
  have habove : ∀ d ∈ above, d.properties.Sorted := fun d hd => hown d (List.mem_append_left _ hd)
  constructor
  · intro key s hs
    rw [hp.get?_properties habove] at hs
    obtain ⟨a, ha, haentry⟩ := exists_of_nearest hs
    have hkey : key ∈ Dict.keys a.properties := List.mem_map_of_mem (Dict.mem_of_get? haentry)
    have hlater : nearest (fun d => Dict.get? d.properties key) below = none := by
      refine nearest_eq_none.mpr fun b hb => ?_
      have hapart := (List.pairwise_append.mp hnew).2.2 a ha b hb key hkey
      refine Option.eq_none_iff_forall_ne_some.mpr fun s' hs' => hapart ?_
      exact List.mem_map_of_mem (Dict.mem_of_get? hs')
    rw [h.get?_properties hown, nearest_append, hlater, Option.none_or, hs]
  · intro v hv
    rw [hp.validators_eq] at hv
    rw [h.validators_eq, List.filterMap_append]
    exact List.mem_append_left _ hv

/-- A call of the last type's implementation is a row of calls of the chain's own implementations,
all with the properties of the call. -/
theorem run_script [Scalar α] (h : Lineage ds t) (m : Meaning φ α) {call : Call φ α}
    (hcall : call.implementation = t.implementation) {child anew : Resolver φ α}
    {u u' : Workspace φ α} {r : Except (ResolveError α) (Visual φ α)} :
    (call.script m).run child anew u = some (r, u') ↔
      ∃ legs, Relay (Implementation.perform m call.props call.context child anew)
        (ds.filterMap (·.implementation?)) none u legs u' ∧ outcome? legs = some r := by
  obtain ⟨i, is, hown, himplementation⟩ := h.implementation_eq
  have hperform := Implementation.perform_foldl_inherited m call.props call.context child anew i is
  rw [Implementation.perform, ← himplementation, ← hcall] at hperform
  rw [Call.script, hperform, hown]
  exact Relay.fold_eq_some

end Lineage

variable [Scalar α]

theorem Resolution.accepts_of_ready {s : Surroundings φ α} {scope : Scope α} {spec : Spec φ α}
    {w w₁ w' : Workspace φ α} {d : Definition φ α} {call : Call φ α}
    (hd : d.properties.Sorted) (hlookup : lookup spec.typeName w = some (.ok d, w₁))
    (hready : ready s scope spec w = some (.ok call, w')) :
    call.implementation = d.implementation ∧ d.Accepts s.meaning call.props := by
  obtain ⟨d', _, props, l, hd', hprepare, -, rfl⟩ := ready_eq_ok.mp hready
  rw [hlookup] at hd'
  cases hd'
  obtain ⟨_, -, h⟩ := bind_eq_ok.mp hprepare
  obtain ⟨_, -, h⟩ := bind_eq_ok.mp h
  obtain ⟨⟨⟩, hvalid, h⟩ := bind_eq_ok.mp h
  cases h
  exact ⟨rfl, (Validation.validate_eq_ok hd).mp hvalid⟩

/-- In a chain of types of which none redeclares a property, all that the last type's validation
accepts is accepted by that of every ancestor, and the last type's defaults put every ancestor's
default in place of what is absent. So where the last type comes to a call, every ancestor accepts
the properties of that call, and they are what each own implementation of the chain is called
with. -/
theorem ancestors_accept {ds : List (Declaration φ α)} {t : Definition φ α} (h : Lineage ds t)
    (hown : ∀ d ∈ ds, d.properties.Sorted) (hnew : NoneRedeclared ds) (s : Surroundings φ α) :
    (∀ above, above <+: ds → above ≠ [] → ∃ p, Lineage above p) ∧
      (∀ above p, above <+: ds → Lineage above p →
        (∀ props, Validation.validate s.meaning t props = .ok () →
          Validation.validate s.meaning p props = .ok ()) ∧
        ∀ props key v, Dict.get? p.defaults key = some v → Dict.get? props key = none →
          Dict.get? (Completion.withDefaults t props) key = some v) ∧
      ∀ scope spec w w₁ call w', lookup spec.typeName w = some (.ok t, w₁) →
        ready s scope spec w = some (.ok call, w') →
        (∀ above p, above <+: ds → Lineage above p → p.Accepts s.meaning call.props) ∧
        ∀ child anew u r u', (call.script s.meaning).run child anew u = some (r, u') ↔
          ∃ legs, Relay (Implementation.perform s.meaning call.props call.context child anew)
            (ds.filterMap (·.implementation?)) none u legs u' ∧ outcome? legs = some r := by
  have ht := h.sorted_properties
  refine ⟨fun above hinit hne => h.exists_initial hinit hne, fun above p hinit hp => ?_, ?_⟩
  · have hcovers := h.covers hown hnew hinit hp
    exact ⟨fun props => hcovers.validate hp.sorted_properties ht,
      fun props key v => hcovers.get?_withDefaults hp.sorted_properties ht⟩
  · intro scope spec w w₁ call w' hlookup hready
    obtain ⟨hcall, haccepts⟩ := accepts_of_ready ht hlookup hready
    refine ⟨fun above p hinit hp => (h.covers hown hnew hinit hp).accepts haccepts, ?_⟩
    intro child anew u r u'
    exact h.run_script s.meaning hcall

def cup : Declaration String Exact where
  name := "cup"
  properties := [("size", Schema.mandatory.ofTag .number),
    ("tint", Schema.optional.withDefault (.string "grey"))]
  implementation? := some (.host "cup")
  extends? := none
  validate? := some (.host "even")
  layout? := none

def mug : Declaration String Exact where
  name := "mug"
  properties := [("handle", Schema.optional.withDefault (.bool true))]
  implementation? := none
  extends? := some "cup"
  validate? := none
  layout? := none

def stein : Declaration String Exact where
  name := "stein"
  properties := [("lid", .mandatory)]
  implementation? := some (.host "stein")
  extends? := some "mug"
  validate? := some (.host "closed")
  layout? := none

def steinDefinition : Definition String Exact where
  name := "stein"
  properties := [("handle", Schema.optional.withDefault (.bool true)), ("lid", .mandatory),
    ("size", Schema.mandatory.ofTag .number),
    ("tint", Schema.optional.withDefault (.string "grey"))]
  implementation := .inherited (.host "cup") (.host "stein")
  extends? := some "mug"
  validators := [.host "even", .host "closed"]
  layout? := none

theorem lineage_stein : Lineage [cup, mug, stein] steinDefinition := by
  have hcup := @Lineage.root _ _ cup _ (fun _ => none) rfl rfl
  have hmug := @Lineage.extend _ _ [cup] _ mug "cup" _ (fun _ => some _) hcup rfl rfl rfl
  exact @Lineage.extend _ _ [cup, mug] _ stein "mug" _ (fun _ => some _) hmug rfl rfl rfl

def cellar : Surroundings String Exact where
  settings := ⟨64, (.fin 800, .fin 400), ⟨100, .fin (1 / 1000000), true⟩⟩
  meaning := kitchen
  backend := fun _ _ => .ok []

def steins : Workspace String Exact := ⟨[("stein", steinDefinition)], #[], 0⟩

def filled : Spec String Exact := ⟨"stein", [("lid", .string "pewter"), ("size", .number (.fin 4))]⟩

def served : Call String Exact where
  implementation := .inherited (.host "cup") (.host "stein")
  props := [("handle", .bool true), ("lid", .string "pewter"), ("size", .number (.fin 4)),
    ("tint", .string "grey")]
  context := ⟨"stein", 0, none, none⟩

theorem stein_accepted :
    Lineage [cup, mug, stein] steinDefinition ∧ (∀ d ∈ [cup, mug, stein], d.properties.Sorted) ∧
      NoneRedeclared [cup, mug, stein] ∧
      lookup filled.typeName steins = some (.ok steinDefinition, steins) ∧
      ready cellar ⟨0, none⟩ filled steins = some (.ok served, steins) ∧
      ∃ p, Lineage [cup] p ∧ Validation.validate kitchen p served.props = .ok () ∧
        Dict.get? (Completion.withDefaults steinDefinition filled.props) "tint" =
          some (.string "grey") ∧ p.Accepts kitchen served.props := by
  have hown : ∀ d ∈ [cup, mug, stein], d.properties.Sorted := by decide
  have hnew : NoneRedeclared [cup, mug, stein] := by decide
  have hready : ready cellar ⟨0, none⟩ filled steins = some (.ok served, steins) := rfl
  have hcup : [cup] <+: [cup, mug, stein] := ⟨[mug, stein], rfl⟩
  obtain ⟨hchains, hchecks, hcalls⟩ := ancestors_accept lineage_stein hown hnew cellar
  obtain ⟨p, hp⟩ := hchains [cup] hcup (List.cons_ne_nil _ _)
  obtain ⟨hvalidate, hdefaults⟩ := hchecks [cup] p hcup hp
  refine ⟨lineage_stein, hown, hnew, rfl, hready, p, hp, hvalidate _ rfl, ?_, ?_⟩
  · have htint : Dict.get? p.defaults "tint" = some (.string "grey") := by
      rw [Definition.get?_defaults hp.sorted_properties, hp.get?_properties (by decide)]
      rfl
    exact hdefaults filled.props "tint" _ htint rfl
  · exact (hcalls _ _ _ _ _ _ rfl hready).1 [cup] p hcup hp

end Scene
