import Mathlib.Algebra.Order.Ring.Nat
import Scene.Proofs.Resolution.Guard

/-! The loops that are open at a moment of a resolution. A loop bounds its own chain and the levels
above it. The chains that the loops above it went through before they nested are in no count, and a
resolution that an implementation starts through the engine counts from nothing. -/
namespace Scene
variable {φ α : Type}

inductive Request (φ α : Type) where
  | child (visual : Visual φ α) (container : Option (Container α))
  | anew (visual : Visual φ α) (container : Option (Container α))

open Resolve

/-- A script, run in the first workspace, gets to a request in the second one. -/
inductive Script.Asks (child anew : Resolver φ α) :
    Script φ α → Workspace φ α → Request φ α → Workspace φ α → Prop
  | child {v c next w} : Asks child anew (.child v c next) w (.child v c) w
  | anew {v c next w} : Asks child anew (.reenter v c next) w (.anew v c) w
  | afterChild {v c next w r w' q w''} (hrun : child v c w = some (r, w'))
      (hnext : Asks child anew (next r) w' q w'') : Asks child anew (.child v c next) w q w''
  | afterAnew {v c next w r w' q w''} (hrun : anew v c w = some (r, w'))
      (hnext : Asks child anew (next r) w' q w'') : Asks child anew (.reenter v c next) w q w''
  | afterBuild {d : Draft φ α} {next} {w : Workspace φ α} {q w''}
      (hnext : Asks child anew (next (d.node w.nextNode))
        { w with nextNode := w.nextNode + 1 } q w'') :
      Asks child anew (.build d next) w q w''
  | afterInspect {next} {w : Workspace φ α} {q w''}
      (hnext : Asks child anew (next w.registry) w q w'') : Asks child anew (.inspect next) w q w''
  | afterRegister {d next w w' q w''} (hrun : Resolve.register d w = some (.ok (), w'))
      (hnext : Asks child anew next w' q w'') : Asks child anew (.register d next) w q w''
  | afterRemove {name next w b w' q w''} (hrun : Resolve.remove name w = some (.ok b, w'))
      (hnext : Asks child anew (next b) w' q w'') : Asks child anew (.remove name next) w q w''

namespace Resolution
variable [Scalar α]

/-- An open loop: its depth, and how many expansions it has begun. -/
structure Running where
  depth : Nat
  steps : Nat
  deriving DecidableEq, Repr

/-- In a scope the loop over a spec gets to the expansion of `t`, its `k`-th. -/
structure Reaches (s : Surroundings φ α) (anew : Resolver φ α) (scope : Scope α) (spec : Spec φ α)
    (w : Workspace φ α) (k : Nat) (t : Spec φ α × Workspace φ α) : Prop where
  expanded_eq : ∃ ts, expanded s anew scope spec w k = ts ++ [t] ∧ ts.length + 1 = k
  inRoom : k ≤ roomAt s scope
  nodup : (namesMet s anew scope spec w k).Nodup

/-- The loops that may be open at once, outermost first. Each but the last is inside an expansion
whose implementation asked for the next. -/
inductive Path (s : Surroundings φ α) :
    Nat → Scope α → Spec φ α → Workspace φ α → List Running → Prop
  | here {levels scope spec w k t} (hreaches : Reaches s (below s levels) scope spec w k t) :
      Path s levels scope spec w [⟨scope.depth, k⟩]
  | child {levels scope spec w k t call w₁ inner container w₂ rest}
      (hreaches : Reaches s (below s levels) scope spec w k t)
      (hready : ready s scope t.1 t.2 = some (.ok call, w₁))
      (hasks : (call.script s.meaning).Asks (nested s (below s levels) (scope.depth + 1))
        (below s levels) w₁ (.child (.spec inner) container) w₂)
      (hrest : Path s levels ⟨scope.depth + 1, container⟩ inner w₂ rest) :
      Path s levels scope spec w (⟨scope.depth, k⟩ :: rest)
  | anew {levels scope spec w k t call w₁ inner container w₂ rest}
      (hreaches : Reaches s (below s (levels + 1)) scope spec w k t)
      (hready : ready s scope t.1 t.2 = some (.ok call, w₁))
      (hasks : (call.script s.meaning).Asks (nested s (below s (levels + 1)) (scope.depth + 1))
        (below s (levels + 1)) w₁ (.anew (.spec inner) container) w₂)
      (hrest : Path s levels ⟨0, container⟩ inner w₂ rest) :
      Path s (levels + 1) scope spec w (⟨scope.depth, k⟩ :: rest)

def expansions (path : List Running) : Nat := (path.map (·.steps)).sum

variable {s : Surroundings φ α} {levels : Nat} {scope : Scope α} {spec : Spec φ α}
  {w : Workspace φ α} {path : List Running}

theorem Reaches.not_blank {anew : Resolver φ α} {k : Nat} {t : Spec φ α × Workspace φ α}
    (h : Reaches s anew scope spec w k t) : Text.isBlank spec.typeName = false := by
  obtain ⟨ts, hts, -⟩ := h.expanded_eq
  cases hb : Text.isBlank spec.typeName with
  | false => rfl
  | true => simp [expanded, hb] at hts

/-- A loop that reaches a spec goes on with its expansion. -/
theorem Reaches.loop_eq {anew : Resolver φ α} {k : Nat} {t : Spec φ α × Workspace φ α}
    (h : Reaches s anew scope spec w k t) :
    ∃ met outer, t.1.typeName ∉ met ∧
      loop s anew scope.depth scope.container spec w =
        follow s.settings.maxDepth (stepAt s anew scope.depth scope.container)
          (roomAt s scope - k + 1) met outer t.1 t.2 := by
  obtain ⟨ts, hts, rfl⟩ := h.expanded_eq
  have hroom := h.inRoom
  have hnodup := h.nodup
  rw [namesMet, hts, typeNames_append] at hnodup
  rw [expanded_of_not_blank h.not_blank] at hts
  obtain ⟨hchain, -, hne⟩ := List.nodup_append.mp hnodup
  have hchain' : ([] ++ typeNames ts).Nodup := hchain
  obtain ⟨outer, hloop⟩ := follow_along hts (show ts.length ≤ roomAt s scope by omega) hchain'
  refine ⟨_, outer, fun hm => hne _ hm _ (by simp [typeNames]) rfl, ?_⟩
  have hleft : roomAt s scope - (ts.length + 1) + 1 = roomAt s scope - ts.length := by omega
  rw [hleft]
  exact hloop

theorem Reaches.depth_add_le {anew : Resolver φ α} {k : Nat} {t : Spec φ α × Workspace φ α}
    (h : Reaches s anew scope spec w k t) : scope.depth + k ≤ s.settings.maxDepth := by
  obtain ⟨ts, -, rfl⟩ := h.expanded_eq
  have hroom := h.inRoom
  rw [roomAt] at hroom
  omega

/-- Every open loop keeps to the limit by itself. -/
theorem Path.depth_add_le (h : Path s levels scope spec w path) :
    ∀ p ∈ path, p.depth + p.steps ≤ s.settings.maxDepth := by
  induction h with
  | here hreaches => exact List.forall_mem_singleton.mpr hreaches.depth_add_le
  | child hreaches _ _ _ ih => exact List.forall_mem_cons.mpr ⟨hreaches.depth_add_le, ih⟩
  | anew hreaches _ _ _ ih => exact List.forall_mem_cons.mpr ⟨hreaches.depth_add_le, ih⟩

theorem Path.ne_nil (h : Path s levels scope spec w path) : path ≠ [] := by
  cases h <;> exact List.cons_ne_nil _ _

theorem expansions_le (path : List Running) :
    expansions path ≤ path.length + (path.map (·.steps - 1)).sum := by
  induction path with
  | nil => exact Nat.le_refl _
  | cons p path ih =>
    simp only [expansions, List.map_cons, List.sum_cons, List.length_cons] at ih ⊢
    omega

/-- Through contexts alone the levels are counted, so that of what is being expanded only the chains
of the enclosing loops, beyond one type each, are in no count. -/
theorem Path.expansions_le (h : Path s levels scope spec w path)
    (hcontexts : path.map (·.depth) = List.range path.length) :
    expansions path ≤ s.settings.maxDepth + (path.dropLast.map (·.steps - 1)).sum := by
  obtain ⟨enclosing, last, rfl⟩ := (List.eq_nil_or_concat path).resolve_left h.ne_nil
  rw [List.concat_eq_append] at h hcontexts ⊢
  have hlast : last.depth = enclosing.length := by
    have hdepth := congrArg List.getLast? hcontexts
    simpa [List.range_succ] using hdepth
  have hinner := h.depth_add_le last (by simp)
  have houter := Resolution.expansions_le enclosing
  have hsum : expansions (enclosing ++ [last]) = expansions enclosing + last.steps := by
    simp [expansions]
  rw [hsum, List.dropLast_concat]
  omega

/-- At any moment of a resolution each open loop keeps to the limit, together with the levels above
it up to the last call of the engine. All chains together do where every loop that nests another
through the context does so in its first expansion; otherwise they overrun by what is beyond those.
-/
theorem limit_of_each_loop (s : Surroundings φ α) :
    Engine.resolve s = nested s (below s s.stack.levels) 0 ∧
      ∀ levels container spec w path, Path s levels ⟨0, container⟩ spec w path →
        (∀ p ∈ path, p.depth + p.steps ≤ s.settings.maxDepth) ∧
          (path.map (·.depth) = List.range path.length →
            expansions path ≤ s.settings.maxDepth + (path.dropLast.map (·.steps - 1)).sum) :=
  ⟨engine_eq s, fun _ _ _ _ _ h => ⟨h.depth_add_le, h.expansions_le⟩⟩

def handing (maxDepth : Nat) : Surroundings String Exact where
  settings := ⟨maxDepth, (.fin 800, .fin 400), ⟨100, .fin (1 / 1000000), true⟩⟩
  backend := fun _ _ => .ok []
  meaning :=
    { compute := fun _ _ => .ok .null
      test := fun _ _ => true
      check := fun _ _ => .ok ()
      rules := fun _ _ _ => []
      implement := fun code _ _ c =>
        if c.typeName = "nest" then
          .child (.spec (.create code)) none fun r => .finish (r.map .resolved)
        else if c.typeName = "call" then
          .reenter (.spec (.create code)) none fun r => .finish (r.map .resolved)
        else if c.typeName = "leaf" then .ofDraft .empty
        else .finish (.ok (.spec (.create code))) }

def handed : Workspace String Exact :=
  ⟨[("call", ⟨"call", [], .host "leaf", none, [], none⟩),
    ("chain", ⟨"chain", [], .host "nest", none, [], none⟩),
    ("leaf", ⟨"leaf", [], .host "leaf", none, [], none⟩),
    ("nest", ⟨"nest", [], .host "leaf", none, [], none⟩)], #[], 0⟩

/-- A chain of two types, of which the second nests a third. -/
theorem path_chain : Path (handing 2) (handing 2).stack.levels ⟨0, none⟩ (.create "chain") handed
    [⟨0, 2⟩, ⟨1, 1⟩] :=
  .child ⟨⟨[(.create "chain", handed)], rfl, rfl⟩, by decide, by decide⟩ rfl .child
    (.here ⟨⟨[], rfl, rfl⟩, by decide, by decide⟩)

/-- A type whose implementation has the engine resolve another. -/
theorem path_call : Path (handing 1) (handing 1).stack.levels ⟨0, none⟩ (.create "call") handed
    [⟨0, 1⟩, ⟨0, 1⟩] :=
  .anew ⟨⟨[], rfl, rfl⟩, by decide, by decide⟩ rfl .anew
    (.here ⟨⟨[], rfl, rfl⟩, by decide, by decide⟩)

/-- The limit is two, and the chain of two with what it nests are three. -/
theorem chain_within_limits :
    Path (handing 2) (handing 2).stack.levels ⟨0, none⟩ (.create "chain") handed
      [⟨0, 2⟩, ⟨1, 1⟩] ∧
      expansions [⟨0, 2⟩, ⟨1, 1⟩] ≤ 2 + 1 :=
  ⟨path_chain, ((limit_of_each_loop (handing 2)).2 _ none _ _ _ path_chain).2 rfl⟩

/-- The expansions on a path may be more than the limit, without any failure, both where a chain
comes before what is nested and where the engine is called. -/
theorem expansions_overrun_limit :
    (∃ path, Path (handing 2) (handing 2).stack.levels ⟨0, none⟩ (.create "chain") handed path ∧
      (handing 2).settings.maxDepth < expansions path) ∧
    (∃ r w', Engine.resolve (handing 2) (.spec (.create "chain")) none handed =
      some (.ok r, w')) ∧
    (∃ path, Path (handing 1) (handing 1).stack.levels ⟨0, none⟩ (.create "call") handed path ∧
      (handing 1).settings.maxDepth < expansions path) ∧
    ∃ r w', Engine.resolve (handing 1) (.spec (.create "call")) none handed =
      some (.ok r, w') :=
  ⟨⟨_, path_chain, by decide⟩, ⟨_, _, rfl⟩, ⟨_, path_call, by decide⟩, ⟨_, _, rfl⟩⟩

end Resolution
end Scene
