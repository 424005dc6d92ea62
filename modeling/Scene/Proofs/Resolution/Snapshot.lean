import Scene.Proofs.Inheritance.Lineage
import Scene.Proofs.Resolution.Completion
import Scene.Proofs.Resolution.Descent

/-! Completed properties. Computed ones are evaluated on one snapshot, which has the supplied
properties and the defaults of the absent ones. So what becomes of a property does not depend on the
others being evaluated before it, and the least key whose evaluation fails ends the expansion. -/
namespace Scene
variable {φ α : Type}

namespace Completion

inductive Becomes (m : Meaning φ α) (typeName : String) (snapshot : Props φ α) (key : String)
    (u : Value φ α) : Prop
  | kept (hvalue : Dict.get? snapshot key = some u) (hplain : u.isComputed = false)
  | evaluated (code : φ) (hvalue : Dict.get? snapshot key = some (.computed code))
      (hrun : m.compute code ⟨typeName, key, snapshot⟩ = .ok u) (hplain : u.isComputed = false)

inductive Fails (m : Meaning φ α) (typeName : String) (snapshot : Props φ α) (key : String) :
    ResolveError α → Prop
  | raised (code : φ) {e : ResolveError α} (hvalue : Dict.get? snapshot key = some (.computed code))
      (hrun : m.compute code ⟨typeName, key, snapshot⟩ = .error e) : Fails m typeName snapshot key e
  | nested (code next : φ) (hvalue : Dict.get? snapshot key = some (.computed code))
      (hrun : m.compute code ⟨typeName, key, snapshot⟩ = .ok (.computed next)) :
      Fails m typeName snapshot key (.specValidation typeName
        s!"computed property '{key}' produced another computed value")

/-- The first failure in key order. -/
def FailsFirst (m : Meaning φ α) (typeName : String) (snapshot : Props φ α) (key : String)
    (e : ResolveError α) : Prop :=
  Fails m typeName snapshot key e ∧ ∀ key' < key, ∀ e', ¬Fails m typeName snapshot key' e'

section
variable {m : Meaning φ α} {typeName key : String} {snapshot props props' : Props φ α}
  {u v : Value φ α} {e : ResolveError α}

theorem evaluate_eq_ok : evaluate m typeName snapshot key v = .ok u ↔
    u.isComputed = false ∧
      (v = u ∨ ∃ code, v = .computed code ∧ m.compute code ⟨typeName, key, snapshot⟩ = .ok u) := by
  constructor
  · intro h
    cases v with
    | computed code =>
      obtain ⟨w, hrun, hw⟩ := bind_eq_ok.mp h
      cases w <;> cases hw <;> exact ⟨rfl, .inr ⟨code, rfl, hrun⟩⟩
    | _ =>
      cases h
      exact ⟨rfl, .inl rfl⟩
  · rintro ⟨hplain, rfl | ⟨code, rfl, hrun⟩⟩
    · exact evaluate_of_not_computed _ _ _ _ hplain
    · refine bind_eq_ok.mpr ⟨u, hrun, ?_⟩
      cases u with
      | computed next => cases hplain
      | _ => rfl

theorem becomes_iff : Becomes m typeName snapshot key u ↔
    ∃ v, Dict.get? snapshot key = some v ∧ evaluate m typeName snapshot key v = .ok u := by
  simp only [evaluate_eq_ok]
  constructor
  · rintro (⟨hvalue, hplain⟩ | ⟨code, hvalue, hrun, hplain⟩)
    · exact ⟨u, hvalue, hplain, .inl rfl⟩
    · exact ⟨_, hvalue, hplain, .inr ⟨code, rfl, hrun⟩⟩
  · rintro ⟨v, hvalue, hplain, rfl | ⟨code, rfl, hrun⟩⟩
    · exact .kept hvalue hplain
    · exact .evaluated code hvalue hrun hplain

theorem fails_iff : Fails m typeName snapshot key e ↔
    ∃ v, Dict.get? snapshot key = some v ∧ evaluate m typeName snapshot key v = .error e := by
  constructor
  · rintro (⟨code, hvalue, hrun⟩ | ⟨code, next, hvalue, hrun⟩) <;> refine ⟨_, hvalue, ?_⟩ <;>
      rw [evaluate, hrun] <;> rfl
  · rintro ⟨v, hvalue, he⟩
    cases v with
    | computed code =>
      rw [evaluate] at he
      cases hrun : m.compute code ⟨typeName, key, snapshot⟩ with
      | error e' =>
        rw [hrun] at he
        cases he
        exact .raised code hvalue hrun
      | ok w =>
        rw [hrun, ok_bind] at he
        cases w <;> cases he
        exact .nested code _ hvalue hrun
    | _ => cases he

theorem exists_of_not_fails (hvalue : Dict.get? snapshot key = some v)
    (h : ∀ e, ¬Fails m typeName snapshot key e) :
    ∃ u, evaluate m typeName snapshot key v = .ok u := by
  cases hv : evaluate m typeName snapshot key v with
  | ok u => exact ⟨u, rfl⟩
  | error e => exact absurd (fails_iff.mpr ⟨v, hvalue, hv⟩) (h e)

theorem keys_evaluateAll (h : evaluateAll m typeName snapshot props = .ok props') :
    Dict.keys props' = Dict.keys props := by
  induction props generalizing props' with
  | nil =>
    obtain rfl := Except.ok.inj h
    rfl
  | cons f rest ih =>
    obtain ⟨u, rest', -, hrest, rfl⟩ := evaluateAll_cons_eq_ok.mp h
    exact congrArg (f.1 :: ·) (ih hrest)

theorem isComputed_evaluateAll (h : evaluateAll m typeName snapshot props = .ok props') :
    ∀ f ∈ props', f.2.isComputed = false := by
  induction props generalizing props' with
  | nil =>
    obtain rfl := Except.ok.inj h
    exact List.forall_mem_nil _
  | cons f rest ih =>
    obtain ⟨u, rest', hu, hrest, rfl⟩ := evaluateAll_cons_eq_ok.mp h
    exact List.forall_mem_cons.mpr ⟨(evaluate_eq_ok.mp hu).1, ih hrest⟩

theorem exists_evaluateAll
    (h : ∀ f ∈ props, ∃ u, evaluate m typeName snapshot f.1 f.2 = .ok u) :
    ∃ props', evaluateAll m typeName snapshot props = .ok props' := by
  induction props with
  | nil => exact ⟨[], rfl⟩
  | cons f rest ih =>
    obtain ⟨⟨u, hu⟩, hrest⟩ := List.forall_mem_cons.mp h
    obtain ⟨rest', hrest'⟩ := ih hrest
    exact ⟨_, evaluateAll_cons_eq_ok.mpr ⟨u, rest', hu, hrest', rfl⟩⟩

/-- Only the entries of lesser keys are evaluated before the one that fails. -/
theorem evaluateAll_eq_error (hprops : Dict.Sorted props) (hmem : (key, v) ∈ props)
    (he : evaluate m typeName snapshot key v = .error e)
    (hbefore : ∀ f ∈ props, f.1 < key → ∃ u, evaluate m typeName snapshot f.1 f.2 = .ok u) :
    evaluateAll m typeName snapshot props = .error e := by
  induction props with
  | nil => cases hmem
  | cons f rest ih =>
    rcases List.mem_cons.mp hmem with rfl | hrest
    · rw [evaluateAll, he]
      rfl
    · obtain ⟨hfirst, hbefore⟩ := List.forall_mem_cons.mp hbefore
      obtain ⟨u, hu⟩ := hfirst (hprops.head_lt hrest)
      rw [evaluateAll, hu, ok_bind, ih hprops.tail hrest hbefore]
      rfl

end

section
variable {m : Meaning φ α} {d : Definition φ α} {props props' : Props φ α}

theorem get?_withDefaults (hschema : Dict.Sorted d.properties) (props : Props φ α) (key : String) :
    Dict.get? (withDefaults d props) key =
      (Dict.get? props key).or ((Dict.get? d.properties key).bind (·.default?)) := by
  rw [withDefaults, Dict.get?_complete_or, Definition.get?_defaults hschema]

/-- The completed properties have the keys of the snapshot, and under each what becomes of it. -/
theorem complete_becomes (h : complete m d props = .ok props') :
    Dict.keys props' = Dict.keys (withDefaults d props) ∧ ∀ key u,
      Dict.get? props' key = some u ↔ Becomes m d.name (withDefaults d props) key u :=
  ⟨keys_evaluateAll h, fun _ _ => (get?_evaluateAll_iff h).trans becomes_iff.symm⟩

variable (hprops : Dict.Sorted props)
include hprops

theorem exists_complete (h : ∀ key e, ¬Fails m d.name (withDefaults d props) key e) :
    ∃ props', complete m d props = .ok props' := by
  have hfilled : Dict.Sorted (withDefaults d props) := hprops.complete d.defaults
  exact exists_evaluateAll fun f hf =>
    exists_of_not_fails (hfilled.get?_eq_some_iff.mpr hf) (h f.1)

theorem complete_eq_error {key : String} {e : ResolveError α}
    (h : FailsFirst m d.name (withDefaults d props) key e) : complete m d props = .error e := by
  have hfilled : Dict.Sorted (withDefaults d props) := hprops.complete d.defaults
  obtain ⟨hfails, hbefore⟩ := h
  obtain ⟨v, hv, he⟩ := fails_iff.mp hfails
  refine evaluateAll_eq_error hfilled (hfilled.get?_eq_some_iff.mp hv) he fun f hf hlt => ?_
  exact exists_of_not_fails (hfilled.get?_eq_some_iff.mpr hf) (hbefore f.1 hlt)

end
end Completion

theorem Resolve.ofExcept_bind {β γ : Type} (x : Except (ResolveError α) β)
    (f : β → Except (ResolveError α) γ) :
    (ofExcept (x >>= f) : Resolve φ α γ) = ofExcept x >>= fun b => ofExcept (f b) := by
  cases x <;> rfl

namespace Resolution
variable [Scalar α]

def completed (s : Surroundings φ α) (spec : Spec φ α) :
    Resolve φ α (Definition φ α × Props φ α) := do
  let d ← lookup spec.typeName
  let props ← Resolve.ofExcept (Completion.complete s.meaning d spec.props)
  pure (d, props)

def carryOut (s : Surroundings φ α) (child anew : Resolver φ α) (scope : Scope α) :
    Definition φ α × Props φ α → Resolve φ α (Props φ α × Visual φ α)
  | (d, props) => do
    Resolve.ofExcept (Validation.checkData d.name props)
    Resolve.ofExcept (Validation.validate s.meaning d props)
    let solution ← layout s d props scope.container
    let call : Call φ α :=
      ⟨d.implementation, props, ⟨d.name, scope.depth, scope.container, solution⟩⟩
    let visual ← (call.script s.meaning).run child anew
    pure (props, visual)

theorem expand_eq (s : Surroundings φ α) (child anew : Resolver φ α) (scope : Scope α)
    (spec : Spec φ α) :
    expand s child anew scope spec = completed s spec >>= carryOut s child anew scope := by
  have hprepare (d : Definition φ α) : Resolve.ofExcept (φ := φ) (prepare s d spec.props) = (do
      let props ← Resolve.ofExcept (Completion.complete s.meaning d spec.props)
      Resolve.ofExcept (Validation.checkData d.name props)
      Resolve.ofExcept (Validation.validate s.meaning d props)
      pure props) := by
    simp only [prepare, Resolve.ofExcept_bind]
    rfl
  simp only [expand, ready, completed, carryOut, hprepare, bind_assoc, pure_bind]

theorem complete_of_prepare {s : Surroundings φ α} {d : Definition φ α} {props props' : Props φ α}
    (h : prepare s d props = .ok props') : Completion.complete s.meaning d props = .ok props' := by
  obtain ⟨completed, hcompleted, h⟩ := bind_eq_ok.mp h
  obtain ⟨_, -, h⟩ := bind_eq_ok.mp h
  obtain ⟨_, -, h⟩ := bind_eq_ok.mp h
  exact Except.ok.inj h ▸ hcompleted

/-- On the way to an implementation, properties are completed on the snapshot of what is supplied
and, where nothing is, of the defaults. The call gets exactly the properties of the snapshot, none of
them computed. Where evaluations fail, the first failure is the outcome, whatever would come next:
checks, layout and implementation come after the completion and do not run. -/
theorem expand_on_snapshot (s : Surroundings φ α) (spec : Spec φ α) (w : Workspace φ α)
    (d : Definition φ α) (hlookup : lookup spec.typeName w = some (.ok d, w))
    (hspec : Dict.Sorted spec.props) (hschema : Dict.Sorted d.properties) :
    (∀ key, Dict.get? (Completion.withDefaults d spec.props) key =
      (Dict.get? spec.props key).or ((Dict.get? d.properties key).bind (·.default?))) ∧
    (∀ scope call w', ready s scope spec w = some (.ok call, w') →
      call.implementation = d.implementation ∧
        Dict.keys call.props = Dict.keys (Completion.withDefaults d spec.props) ∧
        (∀ key u, Dict.get? call.props key = some u ↔
          Completion.Becomes s.meaning d.name (Completion.withDefaults d spec.props) key u) ∧
        ∀ f ∈ call.props, f.2.isComputed = false) ∧
    (∀ child anew scope,
      expand s child anew scope spec = completed s spec >>= carryOut s child anew scope) ∧
    ((∀ key e, ¬Completion.Fails s.meaning d.name (Completion.withDefaults d spec.props) key e) →
      ∃ props, completed s spec w = some (.ok (d, props), w)) ∧
    ∀ key e, Completion.FailsFirst s.meaning d.name (Completion.withDefaults d spec.props) key e →
      ∀ (β : Type) (next : Definition φ α × Props φ α → Resolve φ α β),
        (completed s spec >>= next) w = some (.error e, w) := by
  have hcompleted : completed s spec w =
      some ((Completion.complete s.meaning d spec.props).map (d, ·), w) := by
    rw [completed, Resolve.bind_run, hlookup]
    dsimp only
    cases Completion.complete s.meaning d spec.props <;> rfl
  refine ⟨Completion.get?_withDefaults hschema spec.props, fun scope call w' hready => ?_,
    fun child anew scope => expand_eq s child anew scope spec, fun hnone => ?_,
    fun key e hfails β next => ?_⟩
  · obtain ⟨d', w₁, props, l, hd, hprops, -, rfl⟩ := ready_eq_ok.mp hready
    rw [hlookup] at hd
    cases hd
    have hcomplete := complete_of_prepare hprops
    obtain ⟨hkeys, hbecomes⟩ := Completion.complete_becomes hcomplete
    exact ⟨rfl, hkeys, hbecomes, Completion.isComputed_evaluateAll hcomplete⟩
  · obtain ⟨props, hprops⟩ := Completion.exists_complete hspec hnone
    exact ⟨props, by rw [hcompleted, hprops]; rfl⟩
  · rw [Resolve.bind_run, hcompleted, Completion.complete_eq_error hspec hfails]
    rfl

def doubling : Surroundings String Exact where
  settings := ⟨64, (.fin 800, .fin 400), ⟨100, .fin (1 / 1000000), true⟩⟩
  backend := fun _ _ => .ok []
  meaning :=
    { compute := fun code within =>
        match Dict.get? within.props code with
        | some (.number n) => .ok (.number (n + n))
        | some v => .ok v
        | none => .error (.specShape s!"there is no {code}")
      test := fun _ _ => false
      check := fun _ props => if Dict.contains props "lost" then .error "lost" else .ok ()
      rules := fun _ _ _ => []
      implement := fun _ _ _ _ => .finish (.error (.specShape "nothing is drawn")) }

def meter : Definition String Exact where
  name := "meter"
  properties := [("double", Schema.optional.withDefault (.computed "level")),
    ("level", Schema.optional.withDefault (.number (.fin 4)))]
  implementation := .host "draw"
  extends? := none
  validators := [.host "nothing lost"]
  layout? := none

def meters : Workspace String Exact := ⟨[("meter", meter)], #[], 0⟩

example :
    Completion.complete doubling.meaning meter [("level", .null), ("twice", .computed "level")] =
      .ok [("double", .null), ("level", .null), ("twice", .null)] := rfl

def copying : Spec String Exact :=
  .ofProps "meter" [("copy", .computed "double"), ("lost", .computed "nothing")]

theorem copying_failsFirst : Completion.FailsFirst doubling.meaning "meter"
    (Completion.withDefaults meter copying.props) "copy"
    (.specValidation "meter" "computed property 'copy' produced another computed value") := by
  refine ⟨.nested "double" "level" rfl rfl, fun key hlt e hfails => ?_⟩
  obtain ⟨v, hv, -⟩ := Completion.fails_iff.mp hfails
  have hleast : ∀ key ∈ Dict.keys (Completion.withDefaults meter copying.props), ¬key < "copy" := by
    decide
  exact hleast key (List.mem_map_of_mem (Dict.mem_of_get? hv)) hlt

theorem copying_refused :
    (lookup copying.typeName meters = some (.ok meter, meters) ∧ Dict.Sorted copying.props ∧
        Dict.Sorted meter.properties) ∧
      ∀ child anew scope, expand doubling child anew scope copying meters =
        some (.error (.specValidation "meter"
          "computed property 'copy' produced another computed value"), meters) := by
  have hspec : Dict.Sorted copying.props := by decide
  have hschema : Dict.Sorted meter.properties := by decide
  refine ⟨⟨rfl, hspec, hschema⟩, fun child anew scope => ?_⟩
  obtain ⟨-, -, hexpand, -, hfailure⟩ :=
    expand_on_snapshot doubling copying meters meter rfl hspec hschema
  rw [hexpand]
  exact hfailure _ _ copying_failsFirst _ _

end Resolution
end Scene
