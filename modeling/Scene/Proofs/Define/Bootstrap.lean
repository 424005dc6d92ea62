import Scene.Proofs.Define.Registration

/-! The type `define` where it is registered, and where it is missing and the definition that it
bootstraps itself with stands in for it. Declarations lead to the same in both, unless they extend
`define` itself: the registry alone says what there is to extend. -/
namespace Scene
variable {φ α : Type}

namespace Declaration
variable {d : Declaration φ α} {props : Props φ α} {parent : String}

theorem get?_extend_of_ofProps? (h : ofProps? props = .ok d) (hparent : d.extends? = some parent) :
    Dict.get? props "extend" = some (.string parent) := by
  simp only [ofProps?, bind_eq_ok] at h
  obtain ⟨_, _, _, _, _, _, extends?, hextends, _, _, _, _, h⟩ := h
  cases h
  obtain rfl : extends? = some parent := hparent
  unfold readExtends? at hextends
  split at hextends
  · cases hextends
  · cases hextends
  · next hvalue =>
    cases hextends
    exact hvalue
  · cases hextends

/-- Of all types, a declaration looks up the one that it extends. -/
theorem define?_congr {find find' : String → Option (Definition φ α)}
    (h : ∀ parent ∈ d.extends?, find' parent = find parent) : d.define? find' = d.define? find := by
  cases hextends : d.extends? with
  | none => rw [define?_of_alone hextends, define?_of_alone hextends]
  | some parent => simp only [define?, hextends, h parent hextends]

end Declaration

namespace Resolution
variable [Scalar α] {s : Surroundings φ α} {r r' : Registry φ α} {props : Props φ α}

/-- Whether `define` is registered is seen only by what extends it. -/
theorem declared?_congr (hothers : ∀ name, name ≠ defineName → Dict.get? r' name = Dict.get? r name)
    (hextend : ∀ completed, prepare s .ofDefine props = .ok completed →
      Dict.get? completed "extend" ≠ some (.string defineName)) :
    declared? s r' props = declared? s r props := by
  rw [declared?, declared?]
  cases hprepare : prepare s .ofDefine props with
  | error e => rfl
  | ok completed =>
    rw [ok_bind, ok_bind]
    cases hread : Declaration.ofProps? completed with
    | error e => rfl
    | ok d =>
      have hfind : d.define? (Dict.get? r') = d.define? (Dict.get? r) := by
        refine Declaration.define?_congr fun parent hparent => hothers parent ?_
        rintro rfl
        exact hextend completed hprepare (Declaration.get?_extend_of_ofProps? hread hparent)
      rw [ok_bind, ok_bind, hfind]

end Resolution

namespace Engine
variable [Scalar α] {s : Surroundings φ α}

theorem resolve_of_no_room (h : s.settings.maxDepth = 0) {spec : Spec φ α}
    (hblank : Text.isBlank spec.typeName = false) (container : Option (Container α))
    (w : Workspace φ α) :
    resolve s (.spec spec) container w = some (.error (.depthExceeded spec.typeName 0), w) := by
  have hnone : s.settings.maxDepth - 0 = 0 := by omega
  rw [Resolution.engine_eq, Resolution.nested_spec s _ 0 container hblank, Resolution.loop, hnone,
    Resolution.follow_zero List.not_mem_nil, h]
  rfl

theorem bootstrap_of_no_room (h : s.settings.maxDepth = 0) (w : Workspace φ α) :
    bootstrap s w = some (.error (.depthExceeded defineName 0), w) := by
  have htype := (Declaration.ofDefine : Declaration φ α).typeName_toSpec
  have hblank : Text.isBlank (Declaration.ofDefine : Declaration φ α).toSpec.typeName = false := by
    rw [htype, isBlank_defineName]
  have hrun : bootstrap s w =
      (resolve s (.spec Declaration.ofDefine.toSpec) none >>= fun _ => pure ()) w := rfl
  rw [hrun, Resolve.bind_run, resolve_of_no_room h hblank, htype]

/-- An engine can be made where its settings leave room for one type. -/
theorem room_of_bootstrap {w w' : Workspace φ α} (h : bootstrap s w = some (.ok (), w')) :
    1 ≤ s.settings.maxDepth := by
  by_contra hnone
  rw [bootstrap_of_no_room (by omega)] at h
  cases h

theorem reset_run (hroom : 1 ≤ s.settings.maxDepth) (w : Workspace φ α) :
    reset s w =
      some (.ok (), ⟨[(defineName, .ofDefine)], w.warnings ++ #[], w.nextNode + 2⟩) := by
  have hnone : Registry.KnowsDefine (φ := φ) (α := α) [] := nofun
  have hadmitted : (Declaration.ofDefine : Declaration φ α).admitted? [] = .ok .ofDefine :=
    Declaration.admitted?_eq_ok.mpr
      ⟨isBlank_defineName, .inl rfl, nofun, Declaration.build?_ofDefine⟩
  have hrun : reset s w = bootstrap s { w with registry := [] } := rfl
  rw [hrun, bootstrap, define_run s .ofDefine _ hroom hnone, hadmitted]
  rfl

end Engine

/-- The same types are in both, but `define` may be missing in the first and is `standard` in the
second. Where the first has it too, it took the place of `standard` in the second, which says so. -/
structure Workspace.MayLackDefine (standard : Definition φ α) (u u' : Workspace φ α) : Prop where
  registry : ∀ name, Dict.get? u'.registry name =
    (Dict.get? u.registry name).or (if name = defineName then some standard else none)
  warnings : u'.warnings = u.warnings ++
    if Dict.contains u.registry defineName then #[.overwritten defineName] else #[]
  nextNode : u'.nextNode = u.nextNode

def Workspace.knowing (w : Workspace φ α) (standard : Definition φ α) : Workspace φ α :=
  { w with registry := Dict.insert w.registry defineName standard }

namespace Workspace
variable {standard t : Definition φ α} {w : Workspace φ α}

theorem get?_knowing (name : String) :
    Dict.get? (w.knowing standard).registry name =
      if name = defineName then some standard else Dict.get? w.registry name :=
  Dict.get?_insert w.registry defineName standard name

theorem mayLackDefine_knowing (h : Dict.get? w.registry defineName = none) :
    MayLackDefine standard w (w.knowing standard) where
  registry name := by
    rw [get?_knowing]
    split
    · next hname => rw [hname, h, Option.none_or]
    · rw [Option.or_none]
  warnings := by
    rw [Dict.contains, h]
    exact Array.append_empty.symm
  nextNode := rfl

/-- The next type registered may be `define` itself. -/
theorem mayLackDefine_registered (h : Dict.get? w.registry defineName = none) :
    MayLackDefine standard (w.registered t) ((w.knowing standard).registered t) where
  registry name := by
    change Dict.get? (Dict.insert (w.knowing standard).registry t.name t) name =
      (Dict.get? (Dict.insert w.registry t.name t) name).or _
    rw [Dict.get?_insert, Dict.get?_insert, (mayLackDefine_knowing h).registry]
    split
    · rw [Option.some_or]
    · rfl
  warnings := by
    change w.warnings ++ List.toArray (if Dict.contains (w.knowing standard).registry t.name
        then _ else _) =
      w.warnings ++ List.toArray (if Dict.contains w.registry t.name then _ else _) ++
        if Dict.contains (Dict.insert w.registry t.name t) defineName then _ else _
    rw [Dict.contains, Dict.contains, Dict.contains, get?_knowing, Dict.get?_insert]
    by_cases hname : t.name = defineName
    · simp [hname, h]
    · simp [hname, Ne.symm hname, h]
  nextNode := rfl

end Workspace

/-- In an engine that could be made, specs of type `define` are resolved in the same way where
`define` is not registered and where it is: with the same result, and to registries that hold the
same but for `define`. What extends `define` has to find it registered. And whatever was registered
or removed, a reset leaves what a new engine has. -/
theorem bootstrap_stands_in [Scalar α] (s : Surroundings φ α) (node : Nat) (made : Workspace φ α)
    (hmade : Engine.bootstrap s (.empty node) = some (.ok (), made)) :
    ∃ standard : Definition φ α, made.registry = [(defineName, standard)] ∧
      (∀ (w : Workspace φ α) (spec : Spec φ α) (container : Option (Container α)),
        Dict.get? w.registry defineName = none → spec.typeName = defineName →
        (∀ props, Resolution.prepare s standard spec.props = .ok props →
          Dict.get? props "extend" ≠ some (.string defineName)) →
        ∃ r u u', Engine.resolve s (.spec spec) container w = some (r, u) ∧
          Engine.resolve s (.spec spec) container (w.knowing standard) = some (r, u') ∧
          u.MayLackDefine standard u') ∧
      ∀ w : Workspace φ α, ∃ w', Engine.reset s w = some (.ok (), w') ∧
        w'.registry = [(defineName, standard)] ∧ w'.warnings = w.warnings := by
  have hroom := Engine.room_of_bootstrap hmade
  rw [Engine.bootstrap_empty s hroom] at hmade
  cases hmade
  refine ⟨.ofDefine, rfl, fun w spec container hlacks htype hextend => ?_, fun w => ?_⟩
  · have hbefore : w.registry.KnowsDefine := by
      intro t ht
      rw [hlacks] at ht
      cases ht
    have hafter : (w.knowing .ofDefine).registry.KnowsDefine := by
      intro t ht
      rw [Workspace.get?_knowing, if_pos rfl] at ht
      exact (Option.some.inj ht).symm
    have hsame : Resolution.declared? s (w.knowing .ofDefine).registry spec.props =
        Resolution.declared? s w.registry spec.props := by
      refine Resolution.declared?_congr (fun name hname => ?_) hextend
      rw [Workspace.get?_knowing, if_neg hname]
    rw [Engine.resolve_define s hroom hbefore htype, Engine.resolve_define s hroom hafter htype,
      hsame]
    cases Resolution.declared? s w.registry spec.props with
    | error e => exact ⟨_, _, _, rfl, rfl, Workspace.mayLackDefine_knowing hlacks⟩
    | ok declared =>
      have hregistered : Workspace.MayLackDefine .ofDefine (w.registered declared.2)
          ((w.knowing .ofDefine).registered declared.2) :=
        Workspace.mayLackDefine_registered hlacks
      refine ⟨_, _, _, rfl, rfl, ⟨hregistered.registry, hregistered.warnings, rfl⟩⟩
  · exact ⟨_, Engine.reset_run hroom w, rfl, Array.append_empty⟩

def bench : Surroundings Empty Exact := ⟨.standard, .none, fun _ _ => .ok []⟩

def unequipped : Workspace Empty Exact := ⟨[("tile", tile)], #[], 3⟩

theorem glazed_without_define :
    ∃ made standard r u u',
      Engine.bootstrap bench (.empty 0) = some (.ok (), made) ∧
        made.registry = [(defineName, standard)] ∧
        Engine.resolve bench (.spec glazed.toSpec) none unequipped =
          some (.ok r, u) ∧
        Engine.resolve bench (.spec glazed.toSpec) none
          (unequipped.knowing standard) = some (.ok r, u') ∧
        u.MayLackDefine standard u' := by
  have hroom : 1 ≤ bench.settings.maxDepth := by decide
  have hmade := Engine.bootstrap_empty bench hroom 0
  obtain ⟨standard, hstandard, hagree, -⟩ := bootstrap_stands_in bench 0 _ hmade
  obtain rfl : Definition.ofDefine = standard := by
    cases hstandard
    rfl
  obtain ⟨r, u, u', hwithout, hwith, hlack⟩ := hagree unequipped glazed.toSpec none rfl
    glazed.typeName_toSpec fun props hprops => by
      rw [Resolution.prepare_ofDefine glazed.declares_toSpec] at hprops
      cases hprops
      rw [glazed.declares_toSpec.extends_eq]
      simp [glazed, defineName]
  obtain ⟨t, ht⟩ : ∃ t, glazed.admitted? unequipped.registry = .ok t := by
    refine Declaration.exists_admitted?_iff.mpr ⟨by decide, .inr rfl, fun parent hparent => ?_⟩
    cases hparent
    rfl
  have hnone : unequipped.registry.KnowsDefine := nofun
  have hrun := Engine.resolve_define bench hroom hnone glazed.typeName_toSpec none
  rw [Resolution.declared?_toSpec, ht, hwithout] at hrun
  cases hrun
  exact ⟨_, _, _, _, _, hmade, rfl, hwithout, hwith, hlack⟩

end Scene
