import Scene.Completion
import Scene.Validation
import Scene.Primitive.Shapes
import Scene.Renderable

/-! Resolution of specs into renderables. A spec's type is expanded once: properties are completed,
checked and laid out, and the implementation's script runs. While a spec comes out, it is expanded
in turn; the names met on the way must differ, and their number together with the nesting of
children is bounded. So resolution recurses on the room that is left, and on scripts. -/
namespace Scene

/-- The machine's room for calls of implementations back into the engine: so many may be open at
once, and there is no result where it runs out. -/
class CallStack where
  levels : Nat

/-- What programs run with; theorems are over every room. -/
instance : CallStack := ⟨128⟩

structure Surroundings (φ α : Type) where
  settings : Settings.Resolving α
  meaning : Meaning φ α
  backend : Solver.Backend α
  [stack : CallStack]

structure Workspace (φ α : Type) where
  registry : Registry φ α
  warnings : Array Warning
  nextNode : Nat

/-- Resolving: changes to the workspace outlive a failure, and there is no result at all where an
implementation keeps calling the engine anew. -/
abbrev Resolve (φ α : Type) := ExceptT (ResolveError α) (StateT (Workspace φ α) Option)

structure Scope (α : Type) where
  depth : Nat
  container : Option (Container α)

namespace Resolve
variable {φ α β : Type}

def warn (ws : List Warning) : Resolve φ α Unit :=
  modify fun w => { w with warnings := w.warnings ++ ws.toArray }

def register (d : Definition φ α) : Resolve φ α Unit := do
  let w ← get
  let (registry, ws) := Registry.register w.registry d
  set { w with registry }
  warn ws

def remove (name : String) : Resolve φ α Bool :=
  modifyGet fun w =>
    let (registry, found) := Registry.remove w.registry name
    (found, { w with registry })

def freshNode : Resolve φ α Nat :=
  modifyGet fun w => (w.nextNode, { w with nextNode := w.nextNode + 1 })

def attempt (x : Resolve φ α β) : Resolve φ α (Except (ResolveError α) β) :=
  ExceptT.mk (x.run >>= fun r => pure (.ok r))

def endless : Resolve φ α β := ExceptT.mk (StateT.lift none)

def ofExcept (r : Except (ResolveError α) β) : Resolve φ α β := ExceptT.mk (pure r)

end Resolve

abbrev Resolver (φ α : Type) :=
  Visual φ α → Option (Container α) → Resolve φ α (Renderable φ α)

/-- Runs a script; `child` resolves what it nests, `anew` what it hands to the engine. -/
def Script.run {φ α : Type} (child anew : Resolver φ α) : Script φ α → Resolve φ α (Visual φ α)
  | .finish r => .ofExcept r
  | .build d next => do run child anew (next (d.node (← Resolve.freshNode)))
  | .child v c next => do run child anew (next (← Resolve.attempt (child v c)))
  | .inspect next => do run child anew (next (← get).registry)
  | .register d next => do
    Resolve.register d
    run child anew next
  | .remove name next => do run child anew (next (← Resolve.remove name))
  | .reenter v c next => do run child anew (next (← Resolve.attempt (anew v c)))

def Declaration.script {φ α : Type} (props : Props φ α) : Script φ α :=
  .ofExcept (Declaration.ofProps? props) fun d =>
    .inspect fun registry =>
      .ofExcept (d.define? (Dict.get? registry)) fun definition =>
        .register definition (.ofDraft .empty)

/-- What an implementation does. A parent's runs without a base, and the own one gets its result. -/
def Implementation.script {φ α : Type} [Scalar α] (m : Meaning φ α) (props : Props φ α)
    (c : Context α) : Implementation φ → Option (Visual φ α) → Script φ α
  | .define, _ => Declaration.script props
  | .shape s, _ => s.script props c
  | .host code, base => m.implement code props base c
  | .inherited parent own, _ =>
    (script m props c parent none).bind fun base => script m props c own (some base)

namespace Resolution
variable {φ α : Type} [Scalar α]

def lookup (name : String) : Resolve φ α (Definition φ α) := do
  match Dict.get? (← get).registry name with
  | some d => pure d
  | none =>
    if name = defineName then Resolve.ofExcept Definition.bootstrap?
    else throw (.unknownType name)

def layout (s : Surroundings φ α) (d : Definition φ α) (props : Props φ α)
    (container : Option (Container α)) : Resolve φ α (Option (Layout.Solution α)) :=
  match d.layout? with
  | none => pure none
  | some g => do
    let rules := g.rules s.meaning props ⟨d.name, container⟩
    match Layout.solve s.backend rules container s.settings with
    | .error e => throw (.layout d.name e)
    | .ok o => do
      if !o.solution.converged then Resolve.warn [.unsatisfied o.constraints]
      pure (some o.solution)

def prepare (s : Surroundings φ α) (d : Definition φ α) (props : Props φ α) :
    Except (ResolveError α) (Props φ α) := do
  let props ← Completion.complete s.meaning d props
  Validation.checkData d.name props
  Validation.validate s.meaning d props
  .ok props

structure Call (φ α : Type) where
  implementation : Implementation φ
  props : Props φ α
  context : Context α

def Call.script (m : Meaning φ α) (c : Call φ α) : Script φ α :=
  c.implementation.script m c.props c.context none

def ready (s : Surroundings φ α) (scope : Scope α) (spec : Spec φ α) :
    Resolve φ α (Call φ α) := do
  let d ← lookup spec.typeName
  let props ← Resolve.ofExcept (prepare s d spec.props)
  let solution ← layout s d props scope.container
  pure ⟨d.implementation, props, ⟨d.name, scope.depth, scope.container, solution⟩⟩

def expand (s : Surroundings φ α) (child anew : Resolver φ α) (scope : Scope α)
    (spec : Spec φ α) : Resolve φ α (Props φ α × Visual φ α) := do
  let call ← ready s scope spec
  let visual ← (call.script s.meaning).run child anew
  pure (call.props, visual)

/-- Expands a spec and whatever specs come out of it, with room for so many types. `met` are the
names on the way here, `outer` the outermost spec's completed properties. -/
def follow (limit : Nat) (expand : Spec φ α → Resolve φ α (Props φ α × Visual φ α)) :
    (room : Nat) → (met : List String) → (outer : Option (Props φ α)) → Spec φ α →
      Resolve φ α (Props φ α × Renderable φ α)
  | room, met, outer, spec =>
    let name := spec.typeName
    if met.contains name then throw (.infiniteLoop (met ++ [name]))
    else match room with
      | 0 => throw (.depthExceeded name limit)
      | room + 1 => do
        let (props, visual) ← expand spec
        let outer := outer.getD props
        match visual with
        | .resolved r => pure (outer, r)
        | .spec next =>
          if Text.isBlank next.typeName then
            throw (.contract name "returned a spec without a 'type'")
          else follow limit expand room (met ++ [name]) (some outer) next

/-- Resolves at a depth, with room for so many types; `child` resolves one level deeper. A
renderable passes untouched. -/
def resolve (s : Surroundings φ α) (child anew : Resolver φ α) (depth room : Nat) : Resolver φ α
  | .resolved r, _ => pure r
  | .spec spec, container => do
    if Text.isBlank spec.typeName then throw (.specShape "spec is missing a 'type' string")
    let (completed, r) ← follow s.settings.maxDepth (expand s child anew ⟨depth, container⟩)
      room [] none spec
    pure (r.withOrigin (← Resolve.freshNode) spec completed)

def tooDeep (limit : Nat) : Resolver φ α := fun v _ => throw (.depthExceeded v.typeName limit)

def within (s : Surroundings φ α) (anew : Resolver φ α) : (depth room : Nat) → Resolver φ α
  | depth, 0 => resolve s (tooDeep s.settings.maxDepth) anew depth 0
  | depth, room + 1 => resolve s (within s anew (depth + 1) room) anew depth (room + 1)

/-- Resolves at the root, where calls of implementations back into the engine may be open in so many
levels. -/
def atRoot (s : Surroundings φ α) : (levels : Nat) → Resolver φ α
  | 0 => within s (fun _ _ => Resolve.endless) 0 s.settings.maxDepth
  | levels + 1 => within s (atRoot s levels) 0 s.settings.maxDepth

end Resolution
end Scene
