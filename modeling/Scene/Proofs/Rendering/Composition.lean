import Scene.Proofs.Nodes.Runs
import Scene.Proofs.Rendering.Renewal

/-! Updates one after another. What an update leaves behind remembers the spec with the partials
laid over it, so that a second update is the first one with both partials, one over the other. -/
namespace Scene
open Resolve Resolution
variable {φ α : Type} {ρ : Renaming φ}

namespace Spec
variable (s : Spec φ α) {a b : Props φ α}

theorem set_type (v : Value φ α) :
    s.set "type" v = { s with typeName := v.asString?.getD s.typeName } := by
  obtain ⟨typeName, props⟩ := s
  cases v <;> rfl

/-- All partials but the type are laid over the properties. -/
theorem props_merged (a : Props φ α) :
    (s.merged a).props = Dict.overlay s.props (Dict.erase a "type") := by
  induction a generalizing s with
  | nil => rfl
  | cons e rest ih =>
    refine (ih (s.set e.1 e.2)).trans ?_
    by_cases hkey : e.1 = "type"
    · rw [hkey, set_type, Dict.erase, Dict.erase, List.filter_cons_of_neg (by simp [hkey])]
    · rw [props_set hkey, Dict.erase, Dict.erase, List.filter_cons_of_pos (by simp [hkey])]
      rfl

/-- A text under the type is the new type. -/
theorem typeName_merged (ha : Dict.Sorted a) :
    (s.merged a).typeName = ((Dict.get? a "type").bind Value.asString?).getD s.typeName := by
  induction a generalizing s with
  | nil => rfl
  | cons e rest ih =>
    refine (ih (s.set e.1 e.2) ha.tail).trans ?_
    obtain ⟨key, v⟩ := e
    rw [Dict.get?]
    by_cases hkey : key = "type"
    · have hnone : Dict.get? rest "type" = none := by
        refine Option.eq_none_iff_forall_ne_some.mpr fun u hu => ?_
        have hlt : key < "type" := ha.head_lt (Dict.mem_of_get? hu)
        exact String.lt_irrefl _ (hkey ▸ hlt)
      rw [if_pos hkey, hnone, hkey, set_type]
      rfl
    · rw [if_neg hkey, typeName_set hkey]

/-- Partials that are laid over a spec one after the other are one map, the later ones over the
earlier ones. A type that is no text would hide an earlier one in that map, and is excluded. -/
theorem merged_merged (hs : Dict.Sorted s.props) (ha : Dict.Sorted a) (hb : Dict.Sorted b)
    (htype : ∀ v, Dict.get? b "type" = some v → ∃ name, v = .string name) :
    (s.merged a).merged b = s.merged (Dict.overlay a b) := by
  have hname : ((s.merged a).merged b).typeName = (s.merged (Dict.overlay a b)).typeName := by
    rw [typeName_merged _ hb, typeName_merged _ ha, typeName_merged _ (ha.overlay b),
      Dict.get?_overlay a hb]
    cases hget : Dict.get? b "type" with
    | none => rfl
    | some v =>
      obtain ⟨name, rfl⟩ := htype v hget
      rfl
  have hprops : ((s.merged a).merged b).props = (s.merged (Dict.overlay a b)).props := by
    rw [props_merged, props_merged, props_merged]
    refine ((hs.overlay _).overlay _).ext (hs.overlay _) fun key => ?_
    rw [Dict.get?_overlay _ (hb.erase _), Dict.get?_overlay _ (ha.erase _),
      Dict.get?_overlay _ ((ha.overlay b).erase _), Dict.get?_erase, Dict.get?_erase,
      Dict.get?_erase, Dict.get?_overlay _ hb]
    split
    · rfl
    · exact Option.or_assoc.symm
  cases hleft : (s.merged a).merged b
  cases hright : s.merged (Dict.overlay a b)
  rw [hleft, hright] at hname hprops
  exact congrArg₂ Spec.mk hname hprops

end Spec

structure Renderable.Ordered (r : Renderable φ α) : Prop where
  props_sorted : Dict.Sorted r.props
  spec_sorted : ∀ spec, r.spec? = some spec → Dict.Sorted spec.props

/-- With an origin or without one. -/
theorem Renderable.Ordered.revised_merged {r : Renderable φ α} (hr : r.Ordered) {a b : Props φ α}
    (ha : Dict.Sorted a) (hb : Dict.Sorted b)
    (htype : ∀ v, Dict.get? b "type" = some v → ∃ name, v = .string name) :
    (r.revised a).merged b = r.revised (Dict.overlay a b) := by
  rw [revised, revised]
  cases hspec : r.spec? with
  | none => exact Spec.merged_merged _ (hr.props_sorted.erase "type") ha hb htype
  | some spec => exact spec.merged_merged (hr.spec_sorted spec hspec) ha hb htype

def shift (first distance : Nat) (n : Nat) : Nat := if n < first then n else n + distance

theorem shift_injective (first distance : Nat) : Function.Injective (shift first distance) := by
  intro m n h
  simp only [shift] at h
  split at h <;> split at h <;> omega

/-- What is in hand stays as it is, whatever nodes are given out later, and the host program tells
these apart by nothing but their identity: however they are renamed, its functions do the same under
the new names. Functions that were made on the way know the new names, so their codes may change. -/
def Settled (m : Meaning φ α) (first : Nat) (R : Registry φ α) (r : Renderable φ α)
    (a b : Props φ α) : Prop :=
  ∀ names : Nat → Nat, Function.Injective names → (∀ n < first, names n = n) →
    ∃ ρ : Renaming φ, ρ.node = names ∧ m.Respects ρ ∧ R.rename ρ = R ∧ r.rename ρ = r ∧
      Dict.rename ρ a = a ∧ Dict.rename ρ b = b

/-- The same renderable but for the names of the nodes that are nested in it. -/
structure Renderable.Alike (ρ : Renaming φ) (x y : Renderable φ α) : Prop where
  spec_eq : y.spec? = x.spec?
  kind_eq : y.kind = x.kind
  painters_eq : y.painters = x.painters
  props_eq : y.props = Dict.rename ρ x.props
  property_eq : ∀ name, y.property? name = (x.property? name).map (Value.rename ρ)

variable [Scalar α] {s : Surroundings φ α} {w w₁ u : Workspace φ α} {r r₁ : Renderable φ α}
  {a b : Props φ α}

/-- What is updated remembers the spec with the partials laid over it. -/
theorem Engine.revised_of_update (h : Engine.update s r a w = some (.ok r₁, w₁)) :
    r₁.revised b = (r.revised a).merged b := by
  rw [Renderable.revised, Engine.spec?_of_resolve h]

theorem Engine.update_rename (hm : s.meaning.Respects ρ) (hw : w.Renamed ρ u) :
    Same ρ (fun x y => y = x.rename ρ) (Engine.update s r a w)
      (Engine.update s (r.rename ρ) (Dict.rename ρ a) u) := by
  have h := atRoot_respects hm s.stack.levels (.spec (r.revised a)) none w u hw
  rwa [Visual.rename, Renderable.rename_revised] at h

omit [Scalar α] in
/-- Nodes that are moved up by one tell how far a workspace has come. -/
theorem Workspace.Renamed.first_le {first : Nat} (hρ : ρ.node = shift first 1)
    (h : w.Renamed ρ u) : first ≤ w.nextNode := by
  by_contra hlt
  have hnow := h.node_eq 0
  have hthen := h.node_eq (first - w.nextNode)
  simp only [hρ, shift] at hnow hthen
  split at hnow <;> split at hthen <;> omega

omit [Scalar α] in
theorem Workspace.renamed_of_shift {distance : Nat} (hρ : ρ.node = shift w.nextNode distance)
    (hregistry : u.registry = w.registry) (hkept : w.registry.rename ρ = w.registry)
    (hnext : u.nextNode = w.nextNode + distance) : w.Renamed ρ u where
  registry_eq := by rw [hregistry, hkept]
  node_eq i := by
    rw [hρ, shift, if_neg (by omega), hnext]
    omega

/-- An update gives out nodes, and takes none back. -/
theorem Engine.nextNode_le (hsettled : Settled s.meaning w.nextNode w.registry r a b)
    (h : Engine.update s r a w = some (.ok r₁, w₁)) : w.nextNode ≤ w₁.nextNode := by
  obtain ⟨ρ, hρ, hm, hregistry, hr, ha, -⟩ :=
    hsettled (shift w.nextNode 1) (shift_injective _ _) fun n hn => if_pos hn
  have hrenamed : w.Renamed ρ { w with nextNode := w.nextNode + 1 } :=
    Workspace.renamed_of_shift hρ rfl hregistry rfl
  have hsame := update_rename (r := r) (a := a) hm hrenamed
  rw [h] at hsame
  generalize update s (r.rename ρ) (Dict.rename ρ a) { w with nextNode := w.nextNode + 1 } = x
    at hsame
  cases hsame with
  | ok _ hafter => exact hafter.first_le hρ

/-- An update that succeeds and leaves the registry as it is, and a second one of what it gives. As
a computation the second one is the update of the first renderable with the later partials laid over
the earlier ones, so in one workspace both have the same outcome, whatever the host program does.
Nor does it matter that the first update gave out nodes: made in its place, the one update does not
end either, fails in the same way, or gives the same renderable, up to other names for nodes that
were not there before. -/
theorem updates_compose (s : Surroundings φ α) (w w₁ : Workspace φ α) (r r₁ : Renderable φ α)
    (a b : Props φ α) (hr : r.Ordered) (ha : Dict.Sorted a) (hb : Dict.Sorted b)
    (htype : ∀ v, Dict.get? b "type" = some v → ∃ name, v = .string name)
    (hupdate : Engine.update s r a w = some (.ok r₁, w₁)) (hkept : w₁.registry = w.registry) :
    Engine.update s r₁ b = Engine.update s r (Dict.overlay a b) ∧
      (Settled s.meaning w.nextNode w.registry r a b →
        ∃ ρ : Renaming φ, Function.Injective ρ.node ∧ (∀ n < w.nextNode, ρ.node n = n) ∧
          Same ρ (Renderable.Alike ρ) (Engine.update s r (Dict.overlay a b) w)
            (Engine.update s r₁ b w₁)) := by
  have hsame : r₁.revised b = r.revised (Dict.overlay a b) := by
    rw [Engine.revised_of_update hupdate, hr.revised_merged ha hb htype]
  have hupdates : Engine.update s r₁ b = Engine.update s r (Dict.overlay a b) := by
    rw [Engine.update, Engine.update, hsame]
  refine ⟨hupdates, fun hsettled => ?_⟩
  have hle := Engine.nextNode_le hsettled hupdate
  have hfixed : ∀ n < w.nextNode, shift w.nextNode (w₁.nextNode - w.nextNode) n = n :=
    fun n hn => if_pos hn
  obtain ⟨ρ, hρ, hm, hregistry, hrename, harename, hbrename⟩ :=
    hsettled _ (shift_injective _ _) hfixed
  have hrenamed : w.Renamed ρ w₁ :=
    Workspace.renamed_of_shift hρ hkept hregistry (Nat.add_sub_cancel' hle).symm
  have hoverlay : Dict.rename ρ (Dict.overlay a b) = Dict.overlay a b := by
    refine (Dict.mapValues_overlay ..).trans ?_
    exact congrArg₂ Dict.overlay harename hbrename
  have hruns := Engine.update_rename (r := r) (a := Dict.overlay a b) hm hrenamed
  rw [hrename, hoverlay] at hruns
  refine ⟨ρ, hρ ▸ shift_injective _ _, hρ ▸ hfixed, ?_⟩
  rw [hupdates]
  refine hruns.mono fun x y u u' hx hy h => ?_
  subst h
  exact ⟨(Engine.spec?_of_resolve hy).trans (Engine.spec?_of_resolve hx).symm, x.kind_rename ρ,
    x.painters_rename ρ, x.props_rename ρ, x.property?_rename ρ⟩

def jeweller : Surroundings String Exact where
  settings := ⟨8, (.fin 800, .fin 400), ⟨0, .fin (1 / 1000000), true⟩⟩
  backend := fun _ _ => .ok []
  meaning :=
    { compute := fun code _ => .ok (.string code)
      test := fun _ _ => true
      check := fun _ props =>
        match (Dict.get? props "left").bind Value.asRenderable?,
          (Dict.get? props "right").bind Value.asRenderable? with
        | some x, some y => if x.node = y.node then .error "one node on both sides" else .ok ()
        | _, _ => .ok ()
      rules := fun _ _ _ => []
      implement := fun code props _ _ =>
        if code = "brooch" then
          .child (.spec (.create "stone")) none fun stone => .ofExcept stone fun stone =>
            .ofDraft ⟨code, Dict.insert props "stone" (.renderable stone),
              ⟨fun _ => pure none, pure true⟩⟩
        else .ofDraft ⟨code, props, ⟨fun _ => pure none, pure true⟩⟩ }

def showcase : Workspace String Exact :=
  ⟨[("brooch", ⟨"brooch", [("tint", Schema.optional.withDefault (.computed "gold"))],
      .host "brooch", none, [.host "apart"], none⟩),
    ("stone", ⟨"stone", [], .host "stone", none, [], none⟩)], #[], 9⟩

def pin (node : Nat) : Renderable String Exact :=
  ⟨node, "pin", [], none, ⟨fun _ => pure none, pure true⟩⟩

def brooch : Renderable String Exact :=
  ⟨7, "brooch", [("left", .renderable (pin 3)), ("right", .renderable (pin 5))], none,
    ⟨fun _ => pure none, pure true⟩⟩

def otherPin : Props String Exact := [("left", .renderable (pin 4))]

def otherTint : Props String Exact := [("tint", .string "blue"), ("type", .string "brooch")]

theorem jeweller_respects {names : Nat → Nat} (hinjective : Function.Injective names) :
    jeweller.meaning.Respects ⟨names, id⟩ where
  compute _ _ := rfl
  test _ _ := rfl
  check code props := by
    have hside (key : String) :
        (Dict.get? (Dict.rename ⟨names, id⟩ props) key).bind Value.asRenderable? =
          ((Dict.get? props key).bind Value.asRenderable?).map (Renderable.rename ⟨names, id⟩) := by
      rw [Dict.get?_rename]
      cases Dict.get? props key <;> simp
    simp only [jeweller, hside]
    cases (Dict.get? props "left").bind Value.asRenderable? with
    | none => rfl
    | some x =>
      cases (Dict.get? props "right").bind Value.asRenderable? with
      | none => rfl
      | some y => simp [hinjective.eq_iff]
  rules _ _ _ := rfl
  implement code props base c := by
    simp only [jeweller, id]
    split
    · refine .child _ none fun stone => .ofExcept stone fun stone => ?_
      rw [show Value.renderable (stone.rename ⟨names, id⟩) =
        (Value.renderable stone).rename ⟨names, id⟩ from rfl, ← Dict.rename_insert]
      exact .ofDraft _
    · exact .ofDraft _

theorem brooch_settled :
    Settled jeweller.meaning 9 showcase.registry brooch otherPin otherTint := by
  intro names hinjective hfixed
  have hpin {n : Nat} (hn : n < 9) : (pin n).rename ⟨names, id⟩ = pin n := by
    simp only [pin, Renderable.rename, hfixed n hn]
    rfl
  refine ⟨⟨names, id⟩, rfl, jeweller_respects hinjective, rfl, ?_, ?_, rfl⟩
  · simp only [brooch, Renderable.rename, renameFields, Value.rename, renameOrigin,
      hfixed 7 (by decide), hpin (show 3 < 9 by decide), hpin (show 5 < 9 by decide)]
  · change [("left", Value.renderable ((pin 4).rename ⟨names, id⟩))] = otherPin
    rw [hpin (by decide)]
    rfl

theorem brooch_updates_compose :
    ∃ r₁ w₁, Engine.update jeweller brooch otherPin showcase = some (.ok r₁, w₁) ∧
      w₁.registry = showcase.registry ∧
      Engine.update jeweller r₁ otherTint =
        Engine.update jeweller brooch (Dict.overlay otherPin otherTint) ∧
      (∃ r₂ w₂, Engine.update jeweller r₁ otherTint w₁ = some (.ok r₂, w₂)) ∧
      Settled jeweller.meaning 9 showcase.registry brooch otherPin otherTint ∧
      ∃ ρ : Renaming String, Function.Injective ρ.node ∧ (∀ n < 9, ρ.node n = n) ∧
        Same ρ (Renderable.Alike ρ)
          (Engine.update jeweller brooch (Dict.overlay otherPin otherTint) showcase)
          (Engine.update jeweller r₁ otherTint w₁) := by
  have hordered : brooch.Ordered := ⟨by decide, nofun⟩
  have hupdate : Engine.update jeweller brooch otherPin showcase = some (.ok _, _) := rfl
  obtain ⟨hsame, halike⟩ := updates_compose jeweller showcase _ brooch _ otherPin otherTint hordered
    (by decide) (by decide) (fun v hv => ⟨_, (Option.some.inj hv).symm⟩) hupdate rfl
  exact ⟨_, _, hupdate, rfl, hsame, ⟨_, _, rfl⟩, brooch_settled, halike brooch_settled⟩

end Scene
