import Scene.Solver.Exact
import Scene.Proofs.Drawing.Agreement
import Scene.Proofs.Resolution.Mirror

/-! Updates that change nothing. A renderable remembers the spec that it came from but not the
container, so it is renewed as it was where no frame looks at the container, and where the container
has the size that a frame takes without one. -/
namespace Scene
open Resolve Resolution
variable {φ α : Type} [Scalar α] {s : Surroundings φ α} {spec : Spec φ α} {r : Renderable φ α}
  {w w' : Workspace φ α} {container : Option (Container α)}

/-- What a spec is resolved to remembers it, whatever specs came up on the way. -/
theorem Resolution.spec?_of_resolve {child anew : Resolver φ α} {depth room : Nat}
    (h : resolve s child anew depth room (.spec spec) container w = some (.ok r, w')) :
    r.spec? = some spec := by
  by_cases hblank : Text.isBlank spec.typeName = true
  · rw [resolve_of_blank hblank] at h
    cases h
  · rw [resolve_of_not_blank (Bool.eq_false_iff.mpr hblank)] at h
    obtain ⟨⟨completed, r'⟩, _, -, h⟩ := bind_run_eq_ok.mp h
    obtain ⟨node, _, -, h⟩ := bind_run_eq_ok.mp h
    cases h
    rfl

theorem Engine.spec?_of_resolve
    (h : Engine.resolve s (.spec spec) container w = some (.ok r, w')) : r.spec? = some spec := by
  rw [engine_eq, nested] at h
  generalize s.settings.maxDepth - 0 = room at h
  cases room with
  | zero => exact Resolution.spec?_of_resolve h
  | succ room => exact Resolution.spec?_of_resolve h

/-- The spec of a new renderable is looked at without any container. -/
theorem Engine.update_nothing (h : Engine.resolve s (.spec spec) container w = some (.ok r, w')) :
    Engine.update s r [] = Engine.resolve s (.spec spec) none := by
  rw [Engine.update, Renderable.revised, Engine.spec?_of_resolve h]
  rfl

/-- A spec of built-in shapes, resolved in a container of which its frames take the size that they
take without one, and updated with nothing while the registry is the same: the update succeeds, and
what comes of it is drawn in the same way. -/
theorem nothing_changes_nothing [Scalar.Sizing α] (s : Surroundings φ α) (w w' : Workspace φ α)
    (spec : Spec φ α) (container : Option (Container α)) (r : Renderable φ α) (frames : Prop)
    (hstocked : w.registry.Stocked) (hspec : (Visual.spec spec).OfStock s frames)
    (hfit : SameFit s frames container none)
    (hresolve : Engine.resolve s (.spec spec) container w = some (.ok r, w')) :
    w'.registry = w.registry ∧ ∀ u : Workspace φ α, u.registry = w.registry →
      ∃ r' u', Engine.update s r [] u = some (.ok r', u') ∧ r'.paintSvg = r.paintSvg ∧
        r'.paintCanvas = r.paintCanvas := by
  have hpairs : Pairs s w.registry frames (Engine.resolve s) := .engine hstocked
  obtain ⟨hkept, hmirror⟩ := hpairs _ _ container none hspec.paired hfit w r w' rfl hresolve
  refine ⟨hkept, fun u hu => ?_⟩
  obtain ⟨r', u', hrun, -, hpainters⟩ := hmirror u hu
  rw [Engine.update_nothing hresolve]
  exact ⟨r', u', hrun, (Renderable.paintSvg_congr hpainters).symm,
    (Renderable.paintCanvas_congr hpainters).symm⟩

def studio : Surroundings Empty Exact :=
  { gallery with backend := Solver.Exact.backend }

def stock : Workspace Empty Exact :=
  ⟨Shape.all.map fun shape => (shape.name, shape.definition), #[], 0⟩

theorem stock_stocked : stock.registry.Stocked := by
  intro shape
  cases shape <;> rfl

def pane : Spec Empty Exact := ofNumbers "circle" [("r", 6)]

def porthole : Spec Empty Exact :=
  ⟨"frame", [("background", .string "white"), ("children", .array [pane.toValue])]⟩

theorem porthole_ofStock : (Visual.spec porthole).OfStock studio True := by
  have hprepare : prepare studio Shape.frame.definition porthole.props =
      .ok (Shape.frame.completed porthole.props) := rfl
  refine .spec (show _ = Shape.frame.name from rfl) (fun _ => trivial) fun _ props hprops v hv => ?_
  obtain rfl := Except.ok.inj (hprepare.symm.trans hprops)
  obtain ⟨x, hx, hv⟩ := hv
  rw [Shape.children_completed] at hx
  obtain rfl : x = pane.toValue := List.mem_singleton.mp hx
  obtain rfl : .spec pane = v := Except.ok.inj hv
  exact .spec (show _ = Shape.circle.name from rfl) (fun h => absurd h (by decide))
    fun h => absurd h (by decide)

theorem porthole_renewed :
    stock.registry.Stocked ∧ (Visual.spec porthole).OfStock studio True ∧
      SameFit studio True (some (.known (.fin 800) (.fin 400))) none ∧
      ∃ r w' r' w'', Engine.resolve studio (.spec porthole)
          (some (.known (.fin 800) (.fin 400))) stock = some (.ok r, w') ∧
        Engine.update studio r [] w' = some (.ok r', w'') ∧
        r'.paintSvg = r.paintSvg ∧ r'.paintCanvas = r.paintCanvas := by
  have hfit : SameFit studio True (some (.known (.fin 800) (.fin 400))) none := fun _ => rfl
  obtain ⟨r, w', hresolve⟩ := resolves_of_isSome (x := Engine.resolve studio (.spec porthole)
    (some (.known (.fin 800) (.fin 400))) stock) (by decide +kernel)
  obtain ⟨hkept, hrenew⟩ := nothing_changes_nothing studio stock w' porthole _ r True stock_stocked
    porthole_ofStock hfit hresolve
  obtain ⟨r', w'', hupdate, hsame⟩ := hrenew w' hkept
  exact ⟨stock_stocked, porthole_ofStock, hfit, r, w', r', w'', hresolve, hupdate, hsame⟩

def renew (spec : Spec Empty Exact) (container : Container Exact) :
    Resolve Empty Exact (Renderable Empty Exact × Renderable Empty Exact) := do
  let r ← Engine.resolve studio (.spec spec) (some container)
  let r' ← Engine.update studio r []
  pure (r, r')

def looks (r : Renderable Empty Exact) : Option (List Mark) × Option String :=
  (Canvas.marks? (r.paintCanvas.run (.create none)).2.commands.toList,
    ((r.paintSvg Svg.Document.root).run .create).2.attribute? ⟨2⟩ "width")

def bothLooks? (x : Option (Except (ResolveError Exact) (Renderable Empty Exact ×
    Renderable Empty Exact) × Workspace Empty Exact)) :
    Option ((Option (List Mark) × Option String) × (Option (List Mark) × Option String)) :=
  match x with
  | some (.ok (r, r'), _) => some (looks r, looks r')
  | _ => none

theorem exists_of_bothLooks? {spec : Spec Empty Exact} {container : Container Exact}
    {u : Workspace Empty Exact} {a b : Option (List Mark) × Option String}
    (h : bothLooks? (renew spec container u) = some (a, b)) :
    ∃ r w' r' w'', Engine.resolve studio (.spec spec) (some container) u = some (.ok r, w') ∧
      Engine.update studio r [] w' = some (.ok r', w'') ∧ looks r = a ∧ looks r' = b := by
  rcases hrun : renew spec container u with _ | ⟨_ | ⟨r, r'⟩, w''⟩
  · rw [hrun] at h
    cases h
  · rw [hrun] at h
    cases h
  · rw [hrun] at h
    obtain ⟨_, w', hresolve, hupdated⟩ := bind_run_eq_ok.mp hrun
    obtain ⟨_, _, hupdate, hpair⟩ := bind_run_eq_ok.mp hupdated
    cases hpair
    cases h
    exact ⟨r, w', r', w'', hresolve, hupdate, rfl, rfl⟩

/-- In a container of another size, the background of a frame that is updated with nothing takes
the size that it would have had without any. -/
theorem porthole_outgrows_container :
    stock.registry.Stocked ∧ (Visual.spec porthole).OfStock studio True ∧
      ∃ r w' r' w'', Engine.resolve studio (.spec porthole)
          (some (.known (.fin 200) (.fin 100))) stock = some (.ok r, w') ∧
        Engine.update studio r [] w' = some (.ok r', w'') ∧
        r'.paintSvg ≠ r.paintSvg ∧ r'.paintCanvas ≠ r.paintCanvas := by
  have hlooks : bothLooks? (renew porthole (.known (.fin 200) (.fin 100)) stock) =
      some ((some [⟨.rect "0" "0" "200" "100", [("0", "0")], some "white", none⟩,
          ⟨.circle "0" "0" "6", [("0", "0"), ("0", "0")], some "black", none⟩], some "200"),
        (some [⟨.rect "0" "0" "800" "400", [("0", "0")], some "white", none⟩,
          ⟨.circle "0" "0" "6", [("0", "0"), ("0", "0")], some "black", none⟩], some "800")) := by
    decide +kernel
  obtain ⟨r, w', r', w'', hresolve, hupdate, hlook, hlook'⟩ := exists_of_bothLooks? hlooks
  refine ⟨stock_stocked, porthole_ofStock, r, w', r', w'', hresolve, hupdate, fun hsvg => ?_,
    fun hcanvas => ?_⟩
  · have hwidth : (looks r').2 = (looks r).2 := by simp only [looks, hsvg]
    rw [hlook, hlook'] at hwidth
    exact absurd hwidth (by decide)
  · have hmarks : (looks r').1 = (looks r).1 := by simp only [looks, hcanvas]
    rw [hlook, hlook'] at hmarks
    exact absurd hmarks (by decide)

end Scene
