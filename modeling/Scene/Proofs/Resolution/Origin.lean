import Scene.Proofs.Define.Registration
import Scene.Proofs.Resolution.Path
import Scene.Proofs.Resolution.Snapshot

/-! What a renderable remembers of its resolution. The loop goes through any number of types; the
caller's spec and the completed properties of the first type are kept beside it, and the drawing is
that of the renderable that comes out last. -/
namespace Scene.Resolution
open Resolve
variable {φ α : Type}

section
variable {limit room : Nat} {step : Spec φ α → Resolve φ α (Props φ α × Visual φ α)}
  {met : List String} {outer : Option (Props φ α)} {spec : Spec φ α} {w w' : Workspace φ α}
  {completed : Props φ α} {final : Renderable φ α}

/-- A loop that succeeds expands its spec, and is at its end or goes on with what comes out. -/
theorem follow_eq_ok
    (h : follow limit step room met outer spec w = some (.ok (completed, final), w')) :
    ∃ left props w₁, room = left + 1 ∧ spec.typeName ∉ met ∧
      ((step spec w = some (.ok (props, .resolved final), w₁) ∧ completed = outer.getD props ∧
          w' = w₁) ∨
        ∃ next, step spec w = some (.ok (props, .spec next), w₁) ∧
          next? step spec w = some (next, w₁) ∧
          follow limit step left (met ++ [spec.typeName]) (some (outer.getD props)) next w₁ =
            some (.ok (completed, final), w')) := by
  by_cases hmet : spec.typeName ∈ met
  · rw [follow_of_mem hmet] at h
    cases h
  · cases room with
    | zero =>
      rw [follow_zero hmet] at h
      cases h
    | succ left =>
      rw [follow_succ hmet] at h
      obtain ⟨⟨props, visual⟩, w₁, hstep, h⟩ := bind_run_eq_ok.mp h
      refine ⟨left, props, w₁, rfl, hmet, ?_⟩
      cases visual with
      | resolved r =>
        cases h
        exact .inl ⟨hstep, rfl, rfl⟩
      | spec next =>
        dsimp only at h
        split at h
        · cases h
        · next hb =>
          exact .inr ⟨next, hstep,
            next?_eq_some.mpr ⟨props, hstep, Bool.eq_false_iff.mpr hb⟩, h⟩

/-- Properties that are there already stay. -/
theorem follow_outer {props : Props φ α}
    (h : follow limit step room met (some props) spec w = some (.ok (completed, final), w')) :
    completed = props := by
  induction room generalizing met spec w with
  | zero =>
    obtain ⟨_, _, _, hroom, -⟩ := follow_eq_ok h
    cases hroom
  | succ room ih =>
    obtain ⟨_, _, _, hroom, -, ⟨-, hcompleted, -⟩ | ⟨_, -, -, hrest⟩⟩ := follow_eq_ok h
    · exact hcompleted
    · cases hroom
      exact ih hrest

/-- A loop that starts without properties ends with those of its first expansion. -/
theorem follow_first
    (h : follow limit step room met none spec w = some (.ok (completed, final), w')) :
    ∃ visual w₁, step spec w = some (.ok (completed, visual), w₁) := by
  obtain ⟨_, props, w₁, -, -, ⟨hstep, rfl, -⟩ | ⟨_, hstep, -, hrest⟩⟩ := follow_eq_ok h
  · exact ⟨_, w₁, hstep⟩
  · obtain rfl := follow_outer hrest
    exact ⟨_, w₁, hstep⟩

/-- What comes out of a loop comes out of the expansion that it gets to last. -/
theorem exists_last
    (h : follow limit step room met outer spec w = some (.ok (completed, final), w'))
    (hmet : met.Nodup) :
    ∃ ts t props, turns step (ts.length + 1) spec w = ts ++ [t] ∧ ts.length < room ∧
      (met ++ typeNames (ts ++ [t])).Nodup ∧
      step t.1 t.2 = some (.ok (props, .resolved final), w') := by
  induction room generalizing met outer spec w with
  | zero =>
    obtain ⟨_, _, _, hroom, -⟩ := follow_eq_ok h
    cases hroom
  | succ room ih =>
    obtain ⟨_, props, w₁, hroom, hmem, hcases⟩ := follow_eq_ok h
    cases hroom
    have hmet' : (met ++ [spec.typeName]).Nodup := List.nodup_append.mpr ⟨hmet, by simp, by grind⟩
    obtain ⟨hstep, -, rfl⟩ | ⟨next, hstep, hnext, hrest⟩ := hcases
    · have hlast : next? step spec w = none := by rw [next?, hstep]
      exact ⟨[], (spec, w), props, turns_of_last hlast, Nat.succ_pos room, hmet', hstep⟩
    · obtain ⟨ts, t, last, hturns, hleft, hnodup, hlast⟩ := ih hrest hmet'
      refine ⟨(spec, w) :: ts, t, last, ?_, Nat.succ_lt_succ hleft, ?_, hlast⟩
      · rw [List.length_cons, turns_of_next hnext, hturns, List.cons_append]
      · simpa [typeNames] using hnodup

end

variable [Scalar α] {s : Surroundings φ α} {anew : Resolver φ α} {scope : Scope α}
  {spec : Spec φ α} {w w' : Workspace φ α} {final : Renderable φ α}

def ComesTo (s : Surroundings φ α) (anew : Resolver φ α) (scope : Scope α) (spec : Spec φ α)
    (w : Workspace φ α) (types : Nat) (final : Renderable φ α) (w' : Workspace φ α) : Prop :=
  ∃ t props, Reaches s anew scope spec w types t ∧
    stepAt s anew scope.depth scope.container t.1 t.2 = some (.ok (props, .resolved final), w')

theorem exists_loop_of_comesTo {types : Nat} (h : ComesTo s anew scope spec w types final w') :
    ∃ completed,
      loop s anew scope.depth scope.container spec w = some (.ok (completed, final), w') := by
  obtain ⟨t, props, hreaches, hlast⟩ := h
  obtain ⟨met, outer, hmet, hloop⟩ := hreaches.loop_eq
  refine ⟨outer.getD props, ?_⟩
  rw [hloop, follow_succ hmet, bind_run, hlast]
  rfl

theorem exists_comesTo_of_loop {completed : Props φ α} (hb : Text.isBlank spec.typeName = false)
    (h : loop s anew scope.depth scope.container spec w = some (.ok (completed, final), w')) :
    ∃ types, ComesTo s anew scope spec w types final w' := by
  obtain ⟨ts, t, props, hturns, hroom, hnodup, hlast⟩ := exists_last h List.nodup_nil
  refine ⟨ts.length + 1, t, props, ⟨⟨ts, ?_, rfl⟩, Nat.succ_le_of_lt hroom, ?_⟩, hlast⟩
  · rw [expanded_of_not_blank hb, hturns]
  · rw [namesMet, expanded_of_not_blank hb, hturns]
    exact hnodup

/-- The properties that an expansion gives are those of its type, completed. -/
theorem completed_of_expand {child : Resolver φ α} {props : Props φ α} {visual : Visual φ α}
    (h : expand s child anew scope spec w = some (.ok (props, visual), w')) :
    ∃ d, lookup spec.typeName w = some (.ok d, w) ∧
      Completion.complete s.meaning d spec.props = .ok props := by
  obtain ⟨call, w₁, hready, h⟩ := bind_run_eq_ok.mp h
  obtain ⟨_, _, -, h⟩ := bind_run_eq_ok.mp h
  cases h
  obtain ⟨d, w₂, props, l, hlookup, hprepare, -, rfl⟩ := ready_eq_ok.mp hready
  have hsame : w₂ = w := by
    rw [lookup_run] at hlookup
    split at hlookup
    · cases hlookup
      rfl
    · split at hlookup <;> cases hlookup
      rfl
  subst hsame
  exact ⟨d, hlookup, complete_of_prepare hprepare⟩

/-- A renderable that a loop over the caller's spec comes to, with what is remembered beside it. -/
structure Remembers (s : Surroundings φ α) (spec : Spec φ α) (w : Workspace φ α)
    (final r : Renderable φ α) : Prop where
  spec_eq : r.spec? = some spec
  kind_eq : r.kind = final.kind
  props_eq : r.props = final.props
  painters_eq : r.painters = final.painters
  /-- The type of the caller's spec decides on its properties, the others are those painted. -/
  property_eq : ∃ d completed, lookup spec.typeName w = some (.ok d, w) ∧
    Completion.complete s.meaning d spec.props = .ok completed ∧
    (∀ name, r.property? name = (Dict.get? completed name).or (Dict.get? final.props name)) ∧
    ∀ name, Dict.get? (Completion.withDefaults d spec.props) name =
        (Dict.get? spec.props name).or (Dict.get? d.defaults name) ∧
      ∀ v, Dict.get? completed name = some v ↔
        Completion.Becomes s.meaning d.name (Completion.withDefaults d spec.props) name v

theorem remembers_withOrigin {completed : Props φ α}
    (h : loop s anew scope.depth scope.container spec w = some (.ok (completed, final), w'))
    (node : Nat) : Remembers s spec w final (final.withOrigin node spec completed) where
  spec_eq := rfl
  kind_eq := rfl
  props_eq := rfl
  painters_eq := rfl
  property_eq := by
    obtain ⟨_, _, hstep⟩ := follow_first h
    obtain ⟨d, hlookup, hcomplete⟩ := completed_of_expand hstep
    refine ⟨d, completed, hlookup, hcomplete, fun name => ?_, fun name => ⟨?_, ?_⟩⟩
    · rw [Renderable.property?, Renderable.withOrigin]
      cases hname : Dict.get? completed name <;> simp [hname]
    · exact Dict.get?_complete_or _ _ _
    · exact (Completion.complete_becomes hcomplete).2 name

/-- In every scope, be it the engine's own or one of what nests in it: where the loop over a spec
goes through any number of types until a renderable comes out, the result is drawn as that
renderable, has its kind and its painted properties, and remembers the caller's spec as it was given
together with the completed properties of that spec's type. They are found before the painted ones,
whatever the types in between declare and whatever that renderable came from itself. There is no
other way to succeed. -/
theorem outermost_remembered (s : Surroundings φ α) :
    (∃ anew, Engine.resolve s = nested s anew 0) ∧
      ∀ (anew : Resolver φ α) (scope : Scope α) (spec : Spec φ α) (w : Workspace φ α),
        (∀ types final w₁, ComesTo s anew scope spec w types final w₁ →
          ∃ r w', nested s anew scope.depth (.spec spec) scope.container w = some (.ok r, w') ∧
            Remembers s spec w final r) ∧
        ∀ r w', nested s anew scope.depth (.spec spec) scope.container w = some (.ok r, w') →
          ∃ types final w₁, ComesTo s anew scope spec w types final w₁ ∧
            Remembers s spec w final r := by
  refine ⟨⟨_, engine_eq s⟩, fun anew scope spec w => ⟨fun types final w₁ h => ?_, fun r w' h => ?_⟩⟩
  · have ⟨_, _, hreaches, _⟩ := h
    obtain ⟨completed, hloop⟩ := exists_loop_of_comesTo h
    refine ⟨final.withOrigin w₁.nextNode spec completed,
      { w₁ with nextNode := w₁.nextNode + 1 }, ?_, remembers_withOrigin hloop _⟩
    rw [nested_spec s anew _ _ hreaches.not_blank, bind_run, hloop]
    rfl
  · cases hb : Text.isBlank spec.typeName with
    | true =>
      rw [nested_of_blank hb] at h
      cases h
    | false =>
      rw [nested_spec s anew _ _ hb] at h
      obtain ⟨⟨completed, final⟩, w₁, hloop, h⟩ := bind_run_eq_ok.mp h
      obtain ⟨types, hcomes⟩ := exists_comesTo_of_loop hb hloop
      refine ⟨types, final, w₁, hcomes, ?_⟩
      cases h
      exact remembers_withOrigin hloop _

def posting : Surroundings String Exact where
  settings := ⟨64, (.fin 800, .fin 400), ⟨100, .fin (1 / 1000000), true⟩⟩
  backend := fun _ _ => .ok []
  meaning :=
    { compute := fun code within => .ok ((Dict.get? within.props code).getD .null)
      test := fun _ _ => true
      check := fun _ _ => .ok ()
      rules := fun _ _ _ => []
      implement := fun code props _ c =>
        if c.typeName = "board" then
          .child (.spec (.create code)) none fun r => .finish (r.map .resolved)
        else if c.typeName = "plank" then .ofDraft ⟨code, props, ⟨fun _ => pure none, pure true⟩⟩
        else .finish (.ok (.spec (.create code))) }

def posted : Workspace String Exact :=
  ⟨[("board", ⟨"board", [], .host "plank", none, [], none⟩),
    ("notice", ⟨"notice", [("size", Schema.optional.withDefault (.number (.fin 3))),
      ("title", Schema.optional.withDefault (.computed "text"))], .host "sign", none, [], none⟩),
    ("plank", ⟨"plank", [("size", Schema.optional.withDefault (.number (.fin 1))),
      ("wood", Schema.optional.withDefault (.string "pine"))], .host "timber", none, [], none⟩),
    ("sign", ⟨"sign", [("size", Schema.optional.withDefault (.number (.fin 9)))], .host "board",
      none, [], none⟩)], #[], 0⟩

def warning : Spec String Exact := ⟨"notice", [("text", .string "keep out")]⟩

/-- The plank comes from a spec of its own; what is remembered is the notice. -/
theorem notice_remembered :
    ∃ final w₁, ComesTo posting (fun _ _ => endless) ⟨0, none⟩ warning posted 3 final w₁ ∧
      final.spec? = some (.create "plank") ∧
      ∃ r w', nested posting (fun _ _ => endless) 0 (.spec warning) none posted =
          some (.ok r, w') ∧
        Remembers posting warning posted final r ∧ r.spec? = some warning ∧ r.kind = "timber" ∧
        r.property? "size" = some (.number (.fin 3)) ∧
        r.property? "title" = some (.string "keep out") ∧
        r.property? "wood" = some (.string "pine") := by
  have hcomes : ComesTo posting (fun _ _ => endless) ⟨0, none⟩ warning posted 3 _ _ :=
    ⟨(.create "board", posted), [], ⟨⟨[(warning, posted), (.create "sign", posted)], rfl, rfl⟩,
      by decide, by decide⟩, rfl⟩
  obtain ⟨r, w', hrun, h⟩ := ((outermost_remembered posting).2 _ _ _ _).1 3 _ _ hcomes
  refine ⟨_, _, hcomes, rfl, r, w', hrun, h, h.spec_eq, h.kind_eq, ?_⟩
  cases hrun
  exact ⟨rfl, rfl, rfl⟩

end Scene.Resolution
