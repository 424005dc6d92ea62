import Scene.Proofs.Define.Registration

/-! The built-in shapes as they are installed. -/
namespace Scene
variable {φ α : Type} [Scalar α]

namespace Shape

def ofName? (name : String) : Option Shape := all.find? fun s => s.name = name

def definition (s : Shape) : Definition φ α where
  name := s.name
  properties := Dict.overlay [] (Dict.ofList s.properties)
  implementation := .shape s
  extends? := none
  validators := []
  layout? := if s = .frame then some .fit else none

theorem name_injective : Function.Injective name := by
  intro s t h
  revert h
  cases s <;> cases t <;> decide

theorem ofName?_name (s : Shape) : ofName? s.name = some s := by cases s <;> decide

theorem isBlank_name (s : Shape) : Text.isBlank s.name = false := by cases s <;> decide

theorem name_ne_defineName (s : Shape) : s.name ≠ defineName := by cases s <;> decide

theorem admitted?_declaration (s : Shape) (R : Registry φ α) :
    (s.declaration : Declaration φ α).admitted? R = .ok s.definition := by
  refine Declaration.admitted?_eq_ok.mpr ⟨s.isBlank_name, .inl rfl, nofun, ?_⟩
  refine Declaration.build?_eq_ok.mpr ⟨rfl, rfl, rfl, rfl, rfl, ?_⟩
  exact (Option.or_none ..).symm

end Shape

/-- All built-in shapes are registered as they are installed. -/
def Registry.Stocked (R : Registry φ α) : Prop :=
  ∀ s : Shape, Dict.get? R s.name = some s.definition

omit [Scalar α] in
theorem Registry.KnowsDefine.register {w : Workspace φ α} (h : w.registry.KnowsDefine)
    {t : Definition φ α} (ht : t.name ≠ defineName) : (w.registered t).registry.KnowsDefine := by
  intro u hu
  change Dict.get? (Dict.insert w.registry t.name t) defineName = some u at hu
  rw [Dict.get?_insert_of_ne _ _ ht.symm] at hu
  exact h u hu

namespace Engine
variable {s : Surroundings φ α}

/-- Shapes that are declared one after the other are registered, and nothing else is. -/
theorem define_shapes (hroom : 1 ≤ s.settings.maxDepth) (shapes : List Shape) {w : Workspace φ α}
    (hdefine : w.registry.KnowsDefine) :
    ∃ w', (shapes.forM fun shape => define s shape.declaration) w = some (.ok (), w') ∧
      ∀ name, Dict.get? w'.registry name =
        ((shapes.find? (·.name = name)).map Shape.definition).or (Dict.get? w.registry name) := by
  induction shapes generalizing w with
  | nil => exact ⟨w, rfl, fun _ => rfl⟩
  | cons shape shapes ih =>
    obtain ⟨w', hrest, hentries⟩ :=
      ih (w := { w.registered shape.definition with nextNode := w.nextNode + 2 })
        (hdefine.register shape.name_ne_defineName)
    refine ⟨w', ?_, fun name => ?_⟩
    · change (define s shape.declaration >>= fun _ =>
        shapes.forM fun shape => define s shape.declaration) w = _
      rw [Resolve.bind_run, define_run s shape.declaration w hroom hdefine,
        shape.admitted?_declaration]
      exact hrest
    · have hinserted : Dict.get? (w.registered shape.definition).registry name =
          if name = shape.name then some shape.definition else Dict.get? w.registry name :=
        Dict.get?_insert w.registry shape.name shape.definition name
      refine (hentries name).trans ?_
      rw [List.find?_cons]
      by_cases hname : shape.name = name
      · -- a later declaration of the same name is of the same shape
        have hsame : ∀ other, shapes.find? (·.name = name) = some other → other = shape := by
          intro other hother
          have hfound : other.name = name := by simpa using List.find?_some hother
          exact Shape.name_injective (hfound.trans hname.symm)
        simp only [hname, decide_true]
        cases hfind : shapes.find? (·.name = name) with
        | none => exact hinserted.trans (if_pos hname.symm)
        | some other => rw [hsame other hfind]; rfl
      · simp only [hname, decide_false]
        exact congrArg _ (hinserted.trans (if_neg (Ne.symm hname)))

/-- A new engine with the shapes installed knows them, and `define`. -/
theorem install_run (hroom : 1 ≤ s.settings.maxDepth) (nextNode : Nat) :
    ∃ w, (bootstrap s >>= fun _ => install s) (.empty nextNode) = some (.ok (), w) ∧
      ∀ name, Dict.get? w.registry name = ((Shape.ofName? name).map Shape.definition).or
        (Dict.get? [(defineName, Definition.ofDefine)] name) := by
  have hdefine : Registry.KnowsDefine [(defineName, (Definition.ofDefine : Definition φ α))] := by
    intro t ht
    exact (Option.some.inj ht).symm
  rw [Resolve.bind_run, bootstrap_empty s hroom]
  exact define_shapes hroom Shape.all
    (w := ⟨[(defineName, Definition.ofDefine)], #[], nextNode + 2⟩) hdefine

theorem install_stocks (hroom : 1 ≤ s.settings.maxDepth) (nextNode : Nat) :
    ∃ w, (bootstrap s >>= fun _ => install s) (.empty nextNode) = some (.ok (), w) ∧
      w.registry.Stocked := by
  obtain ⟨w, hrun, hentries⟩ := install_run hroom nextNode
  refine ⟨w, hrun, fun shape => ?_⟩
  rw [hentries, shape.ofName?_name]
  rfl

end Engine

end Scene
