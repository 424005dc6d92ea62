import Scene.Proofs.Resolution.Depth
import Scene.Scalar.Exact

/-! Resolution ends. Implementations nest it, one level deeper each time, and hand back specs that it
goes on with; the room that the settings leave bounds both. -/
namespace Scene
variable {φ α : Type}

/-- Never hands anything to the engine itself. -/
inductive Script.Contained : Script φ α → Prop where
  | finish (r : Except (ResolveError α) (Visual φ α)) : Contained (.finish r)
  | build {d next} : (∀ r, Contained (next r)) → Contained (.build d next)
  | child {v c next} : (∀ r, Contained (next r)) → Contained (.child v c next)
  | inspect {next} : (∀ r, Contained (next r)) → Contained (.inspect next)
  | register {d next} : Contained next → Contained (.register d next)
  | remove {name next} : (∀ b, Contained (next b)) → Contained (.remove name next)

/-- Implementations resolve through their context alone. -/
def Meaning.Contained (m : Meaning φ α) : Prop :=
  ∀ code props base c, (m.implement code props base c).Contained

namespace Script

theorem Contained.bind {s : Script φ α} (h : s.Contained) {f : Visual φ α → Script φ α}
    (hf : ∀ v, (f v).Contained) : (s.bind f).Contained := by
  induction h with
  | finish r =>
    cases r with
    | ok v => exact hf v
    | error e => exact .finish _
  | build _ ih => exact .build ih
  | child _ ih => exact .child ih
  | inspect _ ih => exact .inspect ih
  | register _ ih => exact .register ih
  | remove _ ih => exact .remove ih

theorem ofExcept_contained {β : Type} (r : Except (ResolveError α) β) {f : β → Script φ α}
    (hf : ∀ b, (f b).Contained) : (ofExcept r f).Contained := by
  cases r with
  | ok b => exact hf b
  | error e => exact .finish _

theorem ofDraft_contained (d : Draft φ α) : (ofDraft d).Contained := .build fun _ => .finish _

theorem childrenOfValues_contained (container : Option (Container α)) (vs : List (Value φ α))
    {next : List (Renderable φ α) → Script φ α} (hnext : ∀ rs, (next rs).Contained) :
    (childrenOfValues container vs next).Contained := by
  induction vs generalizing next with
  | nil => exact hnext []
  | cons v vs ih =>
    refine ofExcept_contained _ fun _ => .child fun r => ofExcept_contained r fun _ => ?_
    exact ih fun _ => hnext _

end Script

open Script

theorem Declaration.script_contained (props : Props φ α) :
    (Declaration.script props).Contained := by
  refine ofExcept_contained _ fun _ => .inspect fun _ => ofExcept_contained _ fun _ => ?_
  exact .register (ofDraft_contained _)

variable [Scalar α]

theorem Shape.script_contained (shape : Shape) (props : Props φ α) (c : Context α) :
    (shape.script props c).Contained := by
  cases shape with
  | group => exact childrenOfValues_contained _ _ fun _ => ofDraft_contained _
  | frame =>
    rw [Shape.script]
    split
    · exact .finish _
    · exact childrenOfValues_contained _ _ fun _ => .finish _
  | _ => exact ofDraft_contained _

theorem Implementation.script_contained {m : Meaning φ α} (h : m.Contained) (props : Props φ α)
    (c : Context α) (i : Implementation φ) (base : Option (Visual φ α)) :
    (i.script m props c base).Contained := by
  induction i generalizing base with
  | define => exact Declaration.script_contained props
  | shape shape => exact shape.script_contained props c
  | host code => exact h code props base c
  | inherited parent own hparent hown => exact (hparent none).bind fun v => hown (some v)

namespace Resolution
open Resolve

section
variable {child anew : Resolver φ α}

omit [Scalar α] in
/-- Where every child returns, so does a contained script, whatever the engine does anew. -/
theorem run_returns (hchild : ∀ v c, Returns (child v c)) {script : Script φ α}
    (h : script.Contained) : Returns (script.run child anew) := by
  induction h with
  | finish r => exact .ofExcept r
  | build _ ih => exact .bind (.modifyGet _) fun _ => ih _
  | child _ ih => exact .bind (hchild _ _).attempt ih
  | inspect _ ih => exact .bind .get fun w => ih w.registry
  | register _ ih => exact .bind (.register _) fun _ => ih
  | remove _ ih => exact .bind (.modifyGet _) ih

omit [Scalar α] in
theorem lookup_returns (name : String) : Returns (lookup (φ := φ) (α := α) name) := by
  refine .bind .get fun w => ?_
  split
  · exact .pure _
  · split
    · exact .ofExcept _
    · exact .throw _

theorem layout_returns (s : Surroundings φ α) (d : Definition φ α) (props : Props φ α)
    (container : Option (Container α)) : Returns (layout s d props container) := by
  obtain ⟨-, h⟩ | ⟨e, h⟩ | ⟨l, h | ⟨ws, h⟩⟩ := layout_cases s d props container <;> rw [h]
  · exact .pure _
  · exact .throw _
  · exact .pure _
  · exact .bind (.modifyGet _) fun _ => .pure _

theorem ready_returns (s : Surroundings φ α) (scope : Scope α) (spec : Spec φ α) :
    Returns (ready s scope spec) :=
  .bind (lookup_returns _) fun _ => .bind (.ofExcept _) fun _ =>
    .bind (layout_returns _ _ _ _) fun _ => .pure _

theorem expand_returns {s : Surroundings φ α} (h : s.meaning.Contained)
    (hchild : ∀ v c, Returns (child v c)) (scope : Scope α) (spec : Spec φ α) :
    Returns (expand s child anew scope spec) :=
  .bind (ready_returns s scope spec) fun call =>
    .bind (run_returns hchild (call.implementation.script_contained h call.props call.context none))
      fun _ => .pure _

end

omit [Scalar α] in
theorem follow_returns {limit : Nat} {expand : Spec φ α → Resolve φ α (Props φ α × Visual φ α)}
    (hexpand : ∀ spec, Returns (expand spec)) (room : Nat) (met : List String)
    (outer : Option (Props φ α)) (spec : Spec φ α) :
    Returns (follow limit expand room met outer spec) := by
  induction room generalizing met outer spec with
  | zero =>
    by_cases h : spec.typeName ∈ met
    · rw [follow_of_mem h]
      exact .throw _
    · rw [follow_zero h]
      exact .throw _
  | succ room ih =>
    by_cases h : spec.typeName ∈ met
    · rw [follow_of_mem h]
      exact .throw _
    · rw [follow_succ h]
      refine .bind (hexpand spec) fun r => ?_
      split
      · exact .pure _
      · split
        · exact .throw _
        · exact ih _ _ _

theorem resolve_returns {s : Surroundings φ α} (h : s.meaning.Contained)
    {child anew : Resolver φ α} (hchild : ∀ v c, Returns (child v c)) (depth room : Nat)
    (v : Visual φ α) (container : Option (Container α)) :
    Returns (resolve s child anew depth room v container) := by
  cases v with
  | resolved r => exact .pure r
  | spec spec =>
    by_cases hb : Text.isBlank spec.typeName = true
    · rw [resolve_of_blank hb]
      exact .throw _
    · rw [resolve_of_not_blank (by simpa using hb)]
      exact .bind (follow_returns (expand_returns h hchild _) _ _ _ _) fun _ =>
        .bind (.modifyGet _) fun _ => .pure _

/-- The room shrinks where children nest, and in it where specs are handed back. -/
theorem within_returns {s : Surroundings φ α} (h : s.meaning.Contained) (anew : Resolver φ α)
    (depth room : Nat) (v : Visual φ α) (container : Option (Container α)) :
    Returns (within s anew depth room v container) := by
  induction room generalizing depth v container with
  | zero => exact resolve_returns h (fun _ _ => .throw _) depth 0 v container
  | succ room ih => exact resolve_returns h (fun v c => ih (depth + 1) v c) depth _ v container

theorem atRoot_returns {s : Surroundings φ α} (h : s.meaning.Contained) (levels : Nat)
    (v : Visual φ α) (container : Option (Container α)) :
    Returns (atRoot s levels v container) := by
  rw [atRoot_eq]
  exact within_returns h _ 0 _ v container

/-- With implementations that resolve through their context alone, resolving has a result, whatever
is registered. No implementation is called at the depth limit: others that differ only there, be it
in never ending, give the same results, and a call has the depth of its loop. The engine and all
that nests in it resolve specs by loops; a loop at a depth expands specs of different types, no more
of them than the limit leaves, and nothing else. -/
theorem resolve_terminates (s : Surroundings φ α) (h : s.meaning.Contained) :
    (∀ v container w, ∃ r w', Engine.resolve s v container w = some (r, w')) ∧
      (∀ implement, (∀ code props base c, c.depth < s.settings.maxDepth →
          implement code props base c = s.meaning.implement code props base c) →
        Engine.resolve (s.implementing implement) = Engine.resolve s) ∧
      (∀ scope spec w call w', ready s scope spec w = some (.ok call, w') →
        call.context.depth = scope.depth) ∧
      (∃ anew, Engine.resolve s = nested s anew 0) ∧
      (∀ anew depth container spec, Text.isBlank spec.typeName = false →
        nested s anew depth (.spec spec) container =
          loop s anew depth container spec >>=
            fun r => freshNode >>= fun node => pure (r.2.withOrigin node spec r.1)) ∧
      ∀ anew depth container spec w, ∃ n,
        (turns (stepAt s anew depth container) n spec w).length ≤ s.settings.maxDepth - depth ∧
        ((turns (stepAt s anew depth container) n spec w).map (·.1.typeName)).Nodup ∧
        ∀ step, (∀ t ∈ turns (stepAt s anew depth container) n spec w,
            step t.1 t.2 = stepAt s anew depth container t.1 t.2) →
          follow s.settings.maxDepth step (s.settings.maxDepth - depth) [] none spec w =
            loop s anew depth container spec w := by
  refine ⟨fun v container => atRoot_returns h _ v container, ?_, ?_, ⟨_, engine_eq s⟩, ?_, ?_⟩
  · intro implement himplement
    exact atRoot_implementing s himplement s.stack.levels
  · intro scope spec w call w' hready
    exact ready_depth hready
  · intro anew depth container spec hb
    exact nested_spec s anew depth container hb
  · intro anew depth container spec w
    obtain ⟨n, hle, hnodup, -, hreads⟩ := follow_reads s.settings.maxDepth
      (stepAt s anew depth container) (s.settings.maxDepth - depth) [] none spec w
    exact ⟨n, Nat.le_trans (length_turns n spec w) hle, hnodup, hreads⟩

def spiral : Surroundings Unit Exact where
  settings := ⟨2, (.fin 800, .fin 400), ⟨100, .fin (1 / 1000000), true⟩⟩
  backend := fun _ _ => .ok []
  meaning :=
    { compute := fun _ _ => .ok .null
      test := fun _ _ => true
      check := fun _ _ => .ok ()
      rules := fun _ _ _ => []
      implement := fun _ _ _ c =>
        .child (.spec (.create c.typeName)) none fun r => .finish (r.map .resolved) }

theorem spiral_contained : spiral.meaning.Contained :=
  fun _ _ _ _ => .child fun _ => .finish _

def spun : Workspace Unit Exact :=
  ⟨[("spiral", ⟨"spiral", [], .host (), none, [], none⟩)], #[], 0⟩

theorem spiral_terminates : spiral.meaning.Contained ∧
    (∃ r w', Engine.resolve spiral (.spec (.create "spiral")) none spun = some (r, w')) ∧
      ∃ n, (turns (stepAt spiral (fun _ _ => endless) 1 none) n (.create "spiral") spun).length ≤
        1 := by
  obtain ⟨hreturns, -, -, -, -, hloops⟩ := resolve_terminates spiral spiral_contained
  obtain ⟨n, hlength, -, -⟩ := hloops (fun _ _ => endless) 1 none (.create "spiral") spun
  exact ⟨spiral_contained, hreturns _ _ _, n, hlength⟩

example : Engine.resolve spiral (.spec (.create "spiral")) none spun =
    some (.error (.depthExceeded "spiral" 2), spun) := by
  rfl

end Resolution
end Scene
