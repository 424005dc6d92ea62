import Scene.Engine
import Scene.Proofs.Define.Admission
import Scene.Proofs.Inheritance.Lineage
import Scene.Proofs.Resolution.Loop

/-! Definition of types through the engine. A declaration is resolved like any other spec, as one of
type `define`; what comes of it is decided by its name, its implementation and the type it extends,
and it either registers the definition it builds or changes no entry. -/
namespace Scene
variable {φ α : Type}

/-- The definition that a declaration has registered among the types there are. -/
def Declaration.admitted? (d : Declaration φ α) (r : Registry φ α) :
    Except (ResolveError α) (Definition φ α) :=
  d.vet >>= fun _ => d.define? (Dict.get? r)

def Workspace.registered (w : Workspace φ α) (t : Definition φ α) : Workspace φ α :=
  { w with
    registry := (w.registry.register t).1
    warnings := w.warnings ++ (w.registry.register t).2.toArray }

theorem Declaration.script_run (props : Props φ α) (child anew : Resolver φ α)
    (w : Workspace φ α) :
    (Declaration.script props).run child anew w =
      match ofProps? props >>= fun d => d.define? (Dict.get? w.registry) with
      | .error e => some (.error e, w)
      | .ok t => some (.ok (.resolved (Draft.empty.node w.nextNode)),
          { w.registered t with nextNode := w.nextNode + 1 }) := by
  rw [Declaration.script]
  cases ofProps? props with
  | error e => rfl
  | ok d =>
    have hinspect (next : Registry φ α → Script φ α) :
        (Script.inspect next).run child anew w = (next w.registry).run child anew w := rfl
    rw [Script.ofExcept, hinspect, ok_bind]
    cases d.define? (Dict.get? w.registry) <;> rfl

namespace Resolution

theorem lookup_run (name : String) (w : Workspace φ α) :
    lookup name w =
      match Dict.get? w.registry name with
      | some t => some (.ok t, w)
      | none =>
        if name = defineName then some (Definition.bootstrap?, w)
        else some (.error (.unknownType name), w) := by
  have hread : lookup name w =
      (match Dict.get? w.registry name with
        | some t => pure t
        | none => if name = defineName then Resolve.ofExcept Definition.bootstrap?
          else throw (.unknownType name) : Resolve φ α (Definition φ α)) w := rfl
  rw [hread]
  cases Dict.get? w.registry name with
  | some t => rfl
  | none => by_cases hname : name = defineName <;> simp only [hname, ↓reduceIte] <;> rfl

theorem lookup_define {w : Workspace φ α} (h : w.registry.KnowsDefine) :
    lookup defineName w = some (.ok .ofDefine, w) := by
  rw [lookup_run]
  cases hfound : Dict.get? w.registry defineName with
  | some t => rw [h t hfound]
  | none => rw [if_pos rfl, Definition.bootstrap?_eq]

variable [Scalar α] {s : Surroundings φ α}

def declared? (s : Surroundings φ α) (r : Registry φ α) (props : Props φ α) :
    Except (ResolveError α) (Props φ α × Definition φ α) := do
  let props ← prepare s .ofDefine props
  let d ← Declaration.ofProps? props
  let t ← d.define? (Dict.get? r)
  .ok (props, t)

theorem declared?_toSpec (d : Declaration φ α) (r : Registry φ α) :
    declared? s r d.toSpec.props = (d.admitted? r).map fun t => (d.toSpec.props, t) := by
  rw [declared?, prepare_ofDefine d.declares_toSpec, Declaration.admitted?]
  cases d.vet with
  | error e => rfl
  | ok u =>
    change (Declaration.ofProps? d.toSpec.props >>= _) = _
    rw [d.declares_toSpec.ofProps?, ok_bind, ok_bind]
    cases d.define? (Dict.get? r) <;> rfl

/-- A spec of type `define` is expanded to an empty renderable once its type is registered. -/
theorem expand_define {w : Workspace φ α} {spec : Spec φ α} (h : w.registry.KnowsDefine)
    (htype : spec.typeName = defineName) (child anew : Resolver φ α) (scope : Scope α) :
    expand s child anew scope spec w =
      match declared? s w.registry spec.props with
      | .error e => some (.error e, w)
      | .ok (props, t) => some (.ok (props, .resolved (Draft.empty.node w.nextNode)),
          { w.registered t with nextNode := w.nextNode + 1 }) := by
  have hready : ready s scope spec w =
      match prepare s .ofDefine spec.props with
      | .error e => some (.error e, w)
      | .ok props => some (.ok ⟨.define, props,
          ⟨defineName, scope.depth, scope.container, none⟩⟩, w) := by
    rw [ready, Resolve.bind_run, htype, lookup_define h]
    change (Resolve.ofExcept (prepare s .ofDefine spec.props) >>= _) w = _
    rw [Resolve.bind_run]
    cases prepare s .ofDefine spec.props <;> rfl
  rw [expand, Resolve.bind_run, hready, declared?]
  cases prepare s .ofDefine spec.props with
  | error e => rfl
  | ok props =>
    change (Script.run child anew (Declaration.script props) >>= _) w = _
    rw [Resolve.bind_run, Declaration.script_run, ok_bind]
    cases Declaration.ofProps? props with
    | error e => rfl
    | ok d =>
      rw [ok_bind, ok_bind]
      cases d.define? (Dict.get? w.registry) <;> rfl

end Resolution

namespace Declaration
variable {d : Declaration φ α} {r : Registry φ α} {t : Definition φ α}

theorem vet_eq_ok :
    d.vet = (.ok () : Except (ResolveError α) Unit) ↔
      Text.isBlank d.name = false ∧ (d.implementation?.isSome ∨ d.extends?.isSome) := by
  rw [vet]
  cases Text.isBlank d.name <;> cases d.implementation? <;> cases d.extends? <;> simp

/-- A type is built under its parent's definition where it extends one. -/
theorem define?_eq_ok :
    d.define? (Dict.get? r) = .ok t ↔
      (∀ parent ∈ d.extends?, Dict.contains r parent) ∧
        d.build? (d.extends?.bind (Dict.get? r)) = .ok t := by
  cases hextends : d.extends? with
  | none => simp [define?_of_alone hextends]
  | some parent =>
    cases hfound : Dict.get? r parent with
    | none => simp [define?, hextends, hfound, Dict.contains]
    | some p => simp [define?_of_extends hextends hfound, hfound, Dict.contains]

theorem admitted?_eq_ok :
    d.admitted? r = .ok t ↔
      Text.isBlank d.name = false ∧ (d.implementation?.isSome ∨ d.extends?.isSome) ∧
        (∀ parent ∈ d.extends?, Dict.contains r parent) ∧
          d.build? (d.extends?.bind (Dict.get? r)) = .ok t := by
  rw [admitted?, bind_eq_ok, ← and_assoc, ← vet_eq_ok, define?_eq_ok]
  exact ⟨fun ⟨_, hvet, hdefine⟩ => ⟨hvet, hdefine⟩, fun ⟨hvet, hdefine⟩ =>
    ⟨(), hvet, hdefine⟩⟩

theorem exists_admitted?_iff :
    (∃ t, d.admitted? r = .ok t) ↔
      Text.isBlank d.name = false ∧ (d.implementation?.isSome ∨ d.extends?.isSome) ∧
        ∀ parent ∈ d.extends?, Dict.contains r parent := by
  constructor
  · rintro ⟨t, ht⟩
    obtain ⟨hname, hgiven, hparent, -⟩ := admitted?_eq_ok.mp ht
    exact ⟨hname, hgiven, hparent⟩
  · rintro ⟨hname, hgiven, hparent⟩
    have hcomposed : (composed? ((d.extends?.bind (Dict.get? r)).map (·.implementation))
        d.implementation?).isSome = true := by
      rw [isSome_composed?, Option.isSome_map]
      cases hextends : d.extends? with
      | none => simpa [hextends] using hgiven
      | some parent =>
        have hfound : (Dict.get? r parent).isSome = true := hparent parent hextends
        simp [hfound]
    obtain ⟨t, ht⟩ := exists_build?_iff.mpr hcomposed
    exact ⟨t, admitted?_eq_ok.mpr ⟨hname, hgiven, hparent, ht⟩⟩

end Declaration

theorem isBlank_defineName : Text.isBlank defineName = false := by decide

namespace Engine
variable [Scalar α] (s : Surroundings φ α)

theorem resolve_define {spec : Spec φ α} {w : Workspace φ α} (hroom : 1 ≤ s.settings.maxDepth)
    (hdefine : w.registry.KnowsDefine) (htype : spec.typeName = defineName)
    (container : Option (Container α)) :
    resolve s (.spec spec) container w =
      match Resolution.declared? s w.registry spec.props with
      | .error e => some (.error e, w)
      | .ok (props, t) => some
          (.ok ((Draft.empty.node w.nextNode).withOrigin (w.nextNode + 1) spec props),
            { w.registered t with nextNode := w.nextNode + 2 }) := by
  have hblank : Text.isBlank spec.typeName = false := by rw [htype, isBlank_defineName]
  have hmet : spec.typeName ∉ [] := List.not_mem_nil
  obtain ⟨room, hdepth⟩ : ∃ room, s.settings.maxDepth - 0 = room + 1 :=
    ⟨s.settings.maxDepth - 1, by omega⟩
  have hloop : Resolution.loop s (Resolution.below s s.stack.levels) 0 container spec w =
      match Resolution.declared? s w.registry spec.props with
      | .error e => some (.error e, w)
      | .ok (props, t) => some (.ok (props, Draft.empty.node w.nextNode),
          { w.registered t with nextNode := w.nextNode + 1 }) := by
    rw [Resolution.loop, hdepth, Resolution.follow_succ hmet, Resolve.bind_run,
      Resolution.stepAt, Resolution.expand_define hdefine htype]
    cases Resolution.declared? s w.registry spec.props <;> rfl
  rw [Resolution.engine_eq, Resolution.nested_spec s _ 0 container hblank, Resolve.bind_run, hloop]
  cases Resolution.declared? s w.registry spec.props <;> rfl

variable (d : Declaration φ α) (w : Workspace φ α)

theorem define_run (hroom : 1 ≤ s.settings.maxDepth) (hdefine : w.registry.KnowsDefine) :
    define s d w =
      match d.admitted? w.registry with
      | .error e => some (.error e, w)
      | .ok t => some (.ok (), { w.registered t with nextNode := w.nextNode + 2 }) := by
  have hrun : define s d w = (resolve s (.spec d.toSpec) none >>= fun _ => pure ()) w := rfl
  rw [hrun, Resolve.bind_run, resolve_define s hroom hdefine d.typeName_toSpec,
    Resolution.declared?_toSpec]
  cases d.admitted? w.registry <;> rfl

/-- A new engine has `define` registered and nothing else. -/
theorem bootstrap_empty (hroom : 1 ≤ s.settings.maxDepth) (nextNode : Nat) :
    bootstrap s (.empty nextNode) =
      some (.ok (), ⟨[(defineName, .ofDefine)], #[], nextNode + 2⟩) := by
  have hnone : (Workspace.empty nextNode : Workspace φ α).registry.KnowsDefine := nofun
  have hadmitted : (Declaration.ofDefine : Declaration φ α).admitted? [] = .ok .ofDefine :=
    Declaration.admitted?_eq_ok.mpr
      ⟨isBlank_defineName, .inl rfl, nofun, Declaration.build?_ofDefine⟩
  rw [bootstrap, define_run s .ofDefine (.empty nextNode) hroom hnone, Workspace.empty, hadmitted]
  rfl

end Engine

/-- Declaring a type succeeds where it has a name, has an implementation or extends a type, and that
type is there. Then the definition it builds is registered and no other entry changes; otherwise
none does. -/
theorem define_registers_exactly [Scalar α] (s : Surroundings φ α) (d : Declaration φ α)
    (w : Workspace φ α) (hroom : 1 ≤ s.settings.maxDepth) (hdefine : w.registry.KnowsDefine) :
    ∃ r w', Engine.define s d w = some (r, w') ∧
      (r = .ok () ↔ Text.isBlank d.name = false ∧
        (d.implementation?.isSome ∨ d.extends?.isSome) ∧
          ∀ parent ∈ d.extends?, Dict.contains w.registry parent) ∧
      (r = .ok () → ∃ t, d.build? (d.extends?.bind (Dict.get? w.registry)) = .ok t ∧
        (∀ name, Dict.get? w'.registry name =
          if name = d.name then some t else Dict.get? w.registry name) ∧
        w'.warnings = w.warnings ++
          if Dict.contains w.registry d.name then #[.overwritten d.name] else #[]) ∧
      (r ≠ .ok () → w'.registry = w.registry ∧ w'.warnings = w.warnings) := by
  rw [Engine.define_run s d w hroom hdefine]
  cases hresult : d.admitted? w.registry with
  | error e =>
    refine ⟨.error e, w, rfl, ?_, nofun, fun _ => ⟨rfl, rfl⟩⟩
    rw [← Declaration.exists_admitted?_iff, hresult]
    exact iff_of_false nofun nofun
  | ok t =>
    obtain ⟨-, -, -, hbuild⟩ := Declaration.admitted?_eq_ok.mp hresult
    have hname : t.name = d.name := (Declaration.build?_eq_ok.mp hbuild).name_eq
    refine ⟨.ok (), { w.registered t with nextNode := w.nextNode + 2 }, rfl, ?_, fun _ => ?_,
      fun h => absurd rfl h⟩
    · exact iff_of_true rfl (Declaration.exists_admitted?_iff.mp ⟨t, hresult⟩)
    · refine ⟨t, hbuild, fun name => ?_, ?_⟩
      · rw [← hname]
        exact Dict.get?_insert w.registry t.name t name
      · rw [← hname]
        change w.warnings ++ List.toArray (if _ then _ else _) = _
        cases Dict.contains w.registry t.name <;> rfl

def tile : Definition Empty Exact where
  name := "tile"
  properties := [("fill", .mandatory)]
  implementation := .shape .rect
  extends? := none
  validators := []
  layout? := none

def workshop : Workspace Empty Exact := ⟨[(defineName, .ofDefine), ("tile", tile)], #[], 3⟩

def glazed : Declaration Empty Exact where
  name := "tile"
  properties := [("gloss", Schema.optional.ofTag .number)]
  implementation? := none
  extends? := some "tile"
  validate? := none
  layout? := some .fit

theorem glazed_registers :
    1 ≤ (Settings.Resolving.standard (α := Exact)).maxDepth ∧ workshop.registry.KnowsDefine ∧
      ∃ t w', Engine.define ⟨.standard, .none, fun _ _ => .ok []⟩ glazed workshop =
          some (.ok (), w') ∧
        glazed.build? (some tile) = .ok t ∧ Dict.get? w'.registry "tile" = some t ∧
        Dict.get? w'.registry defineName = some .ofDefine ∧
        w'.warnings = #[.overwritten "tile"] := by
  have hroom : 1 ≤ (Settings.Resolving.standard (α := Exact)).maxDepth := by decide
  have hdefine : workshop.registry.KnowsDefine := by
    intro t ht
    cases ht
    rfl
  obtain ⟨r, w', hrun, hsucceeds, hregistered, -⟩ :=
    define_registers_exactly ⟨.standard, .none, fun _ _ => .ok []⟩ glazed workshop hroom hdefine
  have hr : r = .ok () := by
    refine hsucceeds.mpr ⟨by decide, .inr rfl, fun parent hparent => ?_⟩
    cases hparent
    rfl
  obtain ⟨t, hbuild, hentries, hwarnings⟩ := hregistered hr
  rw [hr] at hrun
  exact ⟨hroom, hdefine, t, w', hrun, hbuild, hentries "tile", hentries defineName, hwarnings⟩

end Scene
