import Scene.Resolution
import Scene.Value.Plain

/-! The engine: a workspace that knows `define`, and what can be asked of it. -/
namespace Scene

def Workspace.empty {φ α : Type} (nextNode : Nat) : Workspace φ α := ⟨[], #[], nextNode⟩

namespace Engine
variable {φ α : Type} [Scalar α]

def resolve (s : Surroundings φ α) : Resolver φ α := Resolution.atRoot s s.stack.levels

def resolveSpec (s : Surroundings φ α) (spec : Spec φ α) : Resolve φ α (Renderable φ α) :=
  resolve s (.spec spec) none

def resolveValue (s : Surroundings φ α) (v : Value φ α) (container : Option (Container α)) :
    Resolve φ α (Renderable φ α) := do
  resolve s (← Resolve.ofExcept (Visual.ofValue? v)) container

def define (s : Surroundings φ α) (d : Declaration φ α) : Resolve φ α Unit := do
  let _ ← resolveSpec s d.toSpec

/-- Registers `define`. Fails where the settings leave no room to resolve anything. -/
def bootstrap (s : Surroundings φ α) : Resolve φ α Unit := define s .ofDefine

def install (s : Surroundings φ α) : Resolve φ α Unit :=
  Shape.all.forM fun shape => define s shape.declaration

def reset (s : Surroundings φ α) : Resolve φ α Unit := do
  modify fun w => { w with registry := [] }
  bootstrap s

def update (s : Surroundings φ α) (r : Renderable φ α) (partials : Props φ α) :
    Resolve φ α (Renderable φ α) :=
  resolveSpec s (r.revised partials)

def entries : Json α → List (Json α)
  | .array items => items
  | single => [single]

/-- Resolves the specs of a document in order, so that earlier ones can declare types for later
ones. All are placed in the default container. -/
def resolveDocument (s : Surroundings φ α) (document : Json α) :
    Resolve φ α (List (Renderable φ α)) :=
  let (w, h) := s.settings.container
  (entries document).mapM fun entry => resolveValue s (.ofJson entry) (some (.known w h))

end Engine

/-- An engine that is shared: made with standard settings when first asked for, and replaced only by
one that could be made. -/
structure Shared (φ α : Type) where
  /-- Counts the engines made; equal counts mean the same engine. -/
  made : Nat
  current : Option (Settings.Resolving α × Workspace φ α)

namespace Shared
variable {φ α : Type} [Scalar α]

def create : Shared φ α := ⟨0, none⟩

def reset (shared : Shared φ α) : Shared φ α := { shared with current := none }

/-- Makes an engine with the given settings the shared one. On failure the old one stays. -/
def init [CallStack] (meaning : Meaning φ α) (backend : Solver.Backend α)
    (settings : Settings.Resolving α) (nextNode : Nat) (shared : Shared φ α) :
    Option (Except (ResolveError α) Unit × Shared φ α) := do
  let (r, w) ← Engine.bootstrap ⟨settings, meaning, backend⟩ (Workspace.empty nextNode)
  match r with
  | .ok () => some (.ok (), ⟨shared.made + 1, some (settings, w)⟩)
  | .error e => some (.error e, shared)

def get [CallStack] (meaning : Meaning φ α) (backend : Solver.Backend α) (nextNode : Nat)
    (shared : Shared φ α) : Option (Shared φ α) :=
  match shared.current with
  | some _ => some shared
  | none => (init meaning backend .standard nextNode shared).map (·.2)

end Shared
end Scene
