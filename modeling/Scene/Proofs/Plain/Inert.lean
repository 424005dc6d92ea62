import Scene.Engine
import Scene.Proofs.Define.Admission
import Scene.Proofs.Drawing.Growth
import Scene.Proofs.Inheritance.Lineage

/-! What plain data can bring about. It holds no functions, so types that it declares do what types
do that they extend, and where it is refused no implementation is to blame. -/
namespace Scene
variable {φ α β γ : Type}

def ResolveError.Blameless (e : ResolveError α) : Prop :=
  e.category ≠ .implementation ∧ e.category ≠ .implementationContract

theorem ResolveError.Blameless.of_category {e : ResolveError α} (c : Category)
    (h : e.category = c) (hc : c ≠ .implementation ∧ c ≠ .implementationContract) :
    e.Blameless := by
  rwa [Blameless, h]

def Fair (P : β → Prop) : Except (ResolveError α) β → Prop
  | .ok b => P b
  | .error e => e.Blameless

namespace Fair
variable {P : β → Prop} {Q : γ → Prop}

theorem bind {x : Except (ResolveError α) β} {f : β → Except (ResolveError α) γ} (hx : Fair P x)
    (hf : ∀ b, P b → Fair Q (f b)) : Fair Q (x >>= f) := by
  cases x with
  | ok b => exact hf b hx
  | error e => exact hx

theorem mono {Q : β → Prop} {x : Except (ResolveError α) β} (h : Fair P x)
    (himp : ∀ b, P b → Q b) : Fair Q x := by
  cases x with
  | ok b => exact himp b h
  | error e => exact h

theorem forM {l : List γ} {f : γ → Except (ResolveError α) Unit}
    (h : ∀ c ∈ l, Fair (fun _ => True) (f c)) : Fair (fun _ => True) (l.forM f) := by
  induction l with
  | nil => exact trivial
  | cons c l ih =>
    have hparts := List.forall_mem_cons.mp h
    exact bind hparts.1 fun _ _ => ih hparts.2

/-- Refusals of a spec or of its properties blame no implementation. -/
theorem refused {e : ResolveError α}
    (h : e.category = .specShape ∨ e.category = .propertyValidation) :
    Fair P (.error e : Except (ResolveError α) β) := by
  rcases h with h | h
  · exact ResolveError.Blameless.of_category .specShape h (by decide)
  · exact ResolveError.Blameless.of_category .propertyValidation h (by decide)

end Fair

section
variable [Scalar α]

/-- Holds no functions, and what is resolved in it can be drawn. -/
inductive Value.Inert : Value φ α → Prop where
  | null : Inert .null
  | bool (b : Bool) : Inert (.bool b)
  | number (n : α) : Inert (.number n)
  | string (s : String) : Inert (.string s)
  | array {items : List (Value φ α)} (h : ∀ v ∈ items, Inert v) : Inert (.array items)
  | object {fields : List (String × Value φ α)} (h : ∀ e ∈ fields, Inert e.2) :
    Inert (.object fields)
  | renderable {r : Renderable φ α} (h : r.Drawable) : Inert (.renderable r)

def Props.Inert (props : Props φ α) : Prop := ∀ e ∈ props, e.2.Inert

inductive Visual.Inert : Visual φ α → Prop where
  | spec {s : Spec φ α} (named : Text.isBlank s.typeName = false) (props : Props.Inert s.props) :
    Inert (.spec s)
  | resolved {r : Renderable φ α} (h : r.Drawable) : Inert (.resolved r)

/-- Implemented by `define` or a shape, with a layout where that is a frame, and with inert
defaults. -/
structure Definition.Plain (t : Definition φ α) : Prop where
  implementation : t.implementation = .define ∨ ∃ s, t.implementation = .shape s
  layout : t.implementation = .shape .frame → t.layout?.isSome = true
  defaults : ∀ e ∈ t.properties, ∀ v ∈ e.2.default?, v.Inert

def Registry.Plain (R : Registry φ α) : Prop := ∀ name t, Dict.get? R name = some t → t.Plain

namespace Value

theorem Inert.isComputed {v : Value φ α} (h : v.Inert) : v.isComputed = false := by
  cases h <;> rfl

mutual

theorem ofJson_inert : (j : Json α) → (ofJson j : Value φ α).Inert
  | .null => .null
  | .bool b => .bool b
  | .integer _ => .number _
  | .number x => .number x
  | .string s => .string s
  | .array items => .array (itemsOfJson_inert items)
  | .object fields => .object (fieldsOfJson_inert fields)

theorem itemsOfJson_inert : (js : List (Json α)) →
    ∀ v ∈ (itemsOfJson js : List (Value φ α)), v.Inert
  | [] => nofun
  | j :: js => List.forall_mem_cons.mpr ⟨ofJson_inert j, itemsOfJson_inert js⟩

theorem fieldsOfJson_inert : (js : List (String × Json α)) →
    Props.Inert (fieldsOfJson js : Props φ α)
  | [] => nofun
  | (_, j) :: js => List.forall_mem_cons.mpr ⟨ofJson_inert j, fieldsOfJson_inert js⟩

end

end Value

namespace Props.Inert
variable {props : Props φ α}

theorem get? (h : Props.Inert props) (key : String) : ∀ v ∈ Dict.get? props key, v.Inert :=
  fun _ hv => h _ (Dict.mem_of_get? hv)

theorem listed {v? : Option (Value φ α)} (h : ∀ v ∈ v?, v.Inert) :
    ∀ v ∈ Script.listed v?, v.Inert := by
  unfold Script.listed
  split
  · exact nofun
  · exact nofun
  · cases h _ rfl with
    | array hitems => exact hitems
  · next v _ _ => simpa using h v rfl

theorem set {s : Spec φ α} (h : Props.Inert s.props) (key : String) {v : Value φ α}
    (hv : v.Inert) : Props.Inert (s.set key v).props := by
  unfold Spec.set
  split
  · split
    · exact h
    · exact h
  · exact Dict.forall_mem_insert h hv

theorem toValue {s : Spec φ α} (h : Props.Inert s.props) : s.toValue.Inert :=
  .object (Dict.forall_mem_insert h (.string _))

end Props.Inert

theorem Visual.ofValue?_fair {v : Value φ α} (h : v.Inert) :
    Fair Visual.Inert (Visual.ofValue? v) := by
  cases h with
  | renderable hr => exact .resolved hr
  | @object fields hfields =>
    have herase (name : String) : Props.Inert (Spec.ofProps name fields).props :=
      fun e he => hfields e (List.mem_of_mem_filter he)
    simp only [Visual.ofValue?, Spec.ofValue?]
    split
    · split
      · exact .refused (.inl rfl)
      · next hnamed => exact .spec (Bool.eq_false_iff.mpr hnamed) (herase _)
    · exact .refused (.inl rfl)
    · exact .refused (.inl rfl)
  | _ => exact .refused (.inl rfl)

/-! Properties, as they are completed and checked. -/

namespace Validation
variable {m : Meaning φ α} {d : Definition φ α} {props : Props φ α}

omit [Scalar α] in
theorem checkData_fair (typeName : String) (props : Props φ α) :
    Fair (fun _ => True) (checkData typeName props) := by
  unfold checkData
  split
  · trivial
  · trivial
  · trivial
  · exact .refused (.inl rfl)

theorem validate_fair (m : Meaning φ α) (d : Definition φ α) (props : Props φ α) :
    Fair (fun _ => True) (validate m d props) := by
  refine .bind (.forM fun property _ => ?_) fun _ _ => .bind (.forM fun e _ => ?_) fun _ _ =>
    .bind (.forM fun e _ => ?_) fun _ _ => .forM fun v _ => ?_
  · split
    · trivial
    · exact .refused (.inr rfl)
  · unfold checkTag
    split
    · split
      · trivial
      · exact .refused (.inr rfl)
    · trivial
  · unfold checkPredicate
    split
    · split
      · trivial
      · exact .refused (.inr rfl)
    · trivial
  · unfold checkWhole
    split
    · trivial
    · exact .refused (.inr rfl)

end Validation

theorem Definition.Plain.defaults_inert {t : Definition φ α} (h : t.Plain) :
    Props.Inert t.defaults := by
  intro e he
  obtain ⟨entry, hentry, hdefault⟩ := List.mem_filterMap.mp he
  obtain ⟨v, hv, rfl⟩ := Option.map_eq_some_iff.mp hdefault
  exact h.defaults entry hentry v hv

theorem Resolution.prepare_fair (s : Surroundings φ α) {t : Definition φ α} (ht : t.Plain)
    {props : Props φ α} (h : Props.Inert props) : Fair Props.Inert (prepare s t props) := by
  have hfilled : Props.Inert (Completion.withDefaults t props) :=
    Dict.forall_mem_complete h ht.defaults_inert
  have hcomplete : Completion.complete s.meaning t props =
      .ok (Completion.withDefaults t props) :=
    Completion.evaluateAll_of_plain _ _ _ fun e he => (hfilled e he).isComputed
  rw [prepare, hcomplete, ok_bind]
  exact .bind (Validation.checkData_fair _ _) fun _ _ =>
    .bind (Validation.validate_fair _ _ _) fun _ _ => hfilled

/-! Declarations, as they are read and as they are built. -/

structure Declaration.Plain (d : Declaration φ α) : Prop where
  implementation : d.implementation? = none
  layout : d.layout? = none
  defaults : ∀ e ∈ d.properties, ∀ v ∈ e.2.default?, v.Inert

theorem Schema.ofValue?_fair (name : String) {v : Value φ α} (h : v.Inert) :
    Fair (fun s : Schema φ α => ∀ u ∈ s.default?, u.Inert) (Schema.ofValue? name v) := by
  cases h with
  | @object entry hentry =>
    have hrequired : Fair (fun _ => True) (readRequired? name (Dict.get? entry "required")) := by
      unfold readRequired?
      split
      · trivial
      · trivial
      · trivial
      · exact .refused (.inr rfl)
    have htag : Fair (fun _ => True) (readTag? name (Dict.get? entry "type")) := by
      unfold readTag?
      split
      · trivial
      · trivial
      · split
        · trivial
        · exact .refused (.inr rfl)
      · exact .refused (.inr rfl)
    have hpredicate : Fair (fun _ => True)
        (readPredicate? name (Dict.get? entry "validate")) := by
      unfold readPredicate?
      split
      · trivial
      · trivial
      · trivial
      · exact .refused (.inr rfl)
    exact .bind hrequired fun _ _ => .bind htag fun _ _ => .bind hpredicate fun _ _ =>
      Props.Inert.get? hentry "default"
  | _ => exact .refused (.inr rfl)

namespace Declaration
variable {v? : Option (Value φ α)}

theorem readSchemas?_fair {entries : List (String × Value φ α)} (h : ∀ e ∈ entries, e.2.Inert) :
    Fair (fun ps : Dict (Schema φ α) => ∀ e ∈ ps, ∀ v ∈ e.2.default?, v.Inert)
      (readSchemas? entries) := by
  induction entries with
  | nil => exact nofun
  | cons e rest ih =>
    have hparts := List.forall_mem_cons.mp h
    exact .bind (Schema.ofValue?_fair e.1 hparts.1) fun s hs =>
      .bind (ih hparts.2) fun ps hps => List.forall_mem_cons.mpr ⟨hs, hps⟩

theorem readProperties?_fair (h : ∀ v ∈ v?, v.Inert) :
    Fair (fun ps : Dict (Schema φ α) => ∀ e ∈ ps, ∀ v ∈ e.2.default?, v.Inert)
      (readProperties? v?) := by
  unfold readProperties?
  split
  · exact nofun
  · exact nofun
  · cases h _ rfl with
    | object hentries => exact readSchemas?_fair hentries
  · exact .refused (.inr rfl)

theorem readImplementation?_fair (h : ∀ v ∈ v?, v.Inert) :
    Fair (· = none) (readImplementation? v?) := by
  unfold readImplementation?
  split
  · rfl
  · rfl
  · cases h _ rfl
  · exact .refused (.inr rfl)

theorem readGenerator?_fair (h : ∀ v ∈ v?, v.Inert) :
    Fair (· = none) (readGenerator? v?) := by
  unfold readGenerator?
  split
  · rfl
  · rfl
  · cases h _ rfl
  · exact .refused (.inr rfl)

/-- Inert properties declare no functions. -/
theorem ofProps?_fair {props : Props φ α} (h : Props.Inert props) :
    Fair Declaration.Plain (ofProps? props) := by
  have hname : Fair (fun _ => True) (readName? (Dict.get? props "name")) := by
    unfold readName?
    split
    · trivial
    · exact .refused (.inr rfl)
  have hextends : Fair (fun _ => True) (readExtends? (Dict.get? props "extend")) := by
    unfold readExtends?
    split
    · trivial
    · trivial
    · trivial
    · exact .refused (.inr rfl)
  have hvalidate : Fair (fun _ => True) (readValidator? (Dict.get? props "validate")) := by
    unfold readValidator?
    split
    · trivial
    · trivial
    · trivial
    · exact .refused (.inr rfl)
  exact .bind hname fun _ _ =>
    .bind (readProperties?_fair (h.get? "properties")) fun _ hproperties =>
      .bind (readImplementation?_fair (h.get? "implementation")) fun _ himplementation =>
        .bind hextends fun _ _ => .bind hvalidate fun _ _ =>
          .bind (readGenerator?_fair (h.get? "layout")) fun _ hlayout =>
            ⟨himplementation, hlayout, hproperties⟩

omit [Scalar α] in
theorem build?_fair (d : Declaration φ α) (parent? : Option (Definition φ α)) :
    Fair (d.Builds parent?) (d.build? parent?) := by
  cases hbuild : d.build? parent? with
  | ok t => exact build?_eq_ok.mp hbuild
  | error e =>
    unfold build? at hbuild
    split at hbuild
    · cases hbuild
      exact .refused (.inr rfl)
    · cases hbuild

/-- A type that is declared with no functions does what the type does that it extends. -/
theorem Plain.of_builds {d : Declaration φ α} (h : d.Plain) {parent? : Option (Definition φ α)}
    {t : Definition φ α} (hparent : ∀ p ∈ parent?, p.Plain) (hbuilds : d.Builds parent? t) :
    t.Plain := by
  have hcomposed := hbuilds.implementation_eq
  rw [h.implementation] at hcomposed
  cases parent? with
  | none => cases hcomposed
  | some p =>
    have hp := hparent p rfl
    have himplementation : t.implementation = p.implementation :=
      (Option.some.inj hcomposed).symm
    have hlayout : t.layout? = p.layout? := by
      rw [hbuilds.layout_eq, h.layout]
      rfl
    refine ⟨himplementation ▸ hp.implementation, ?_, ?_⟩
    · rw [himplementation, hlayout]
      exact hp.layout
    · rw [hbuilds.properties_eq]
      exact Dict.forall_mem_overlay (P := fun s : Schema φ α => ∀ v ∈ s.default?, v.Inert)
        hp.defaults h.defaults

theorem Plain.define?_fair {d : Declaration φ α} (h : d.Plain) {R : Registry φ α}
    (hR : R.Plain) : Fair Definition.Plain (d.define? (Dict.get? R)) := by
  unfold define?
  split
  · exact (build?_fair d none).mono fun t => h.of_builds nofun
  · split
    · next p hp =>
      refine (build?_fair d (some p)).mono fun t => h.of_builds fun q hq => ?_
      cases hq
      exact hR _ p hp
    · exact ResolveError.Blameless.of_category .extension rfl (by decide)

end Declaration
end
end Scene
