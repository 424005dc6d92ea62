import Scene.Rendering
import Scene.Svg.Markup
import Scene.Canvas.Text
import Scene.Json.Reader
import Scene.Scalar.Double
import Scene.Solver.Exact

/-! From a document to a drawing: the shapes are installed into a new engine, every spec is
resolved, and the renderables are drawn in order on one surface as large as the default
container. -/
namespace Scene.Pipeline

inductive Error (α : Type) where
  | json
  | build (cause : ResolveError α)
  | render (cause : PaintError α)
  /-- There is no result; a document of plain data cannot cause this. -/
  | endless

def Error.message {α : Type} [Scalar α] : Error α → String
  | .json => "invalid JSON document"
  | .build e => .join ["build error: ", e.message]
  | .render e => .join ["render error: ", e.message]
  | .endless => "no result"

variable {α : Type} [Scalar α]

/-- Plain data holds no functions of a host, so that nothing calls the engine. -/
def surroundings (settings : Settings.Resolving α) (backend : Solver.Backend α) :
    Surroundings Empty α := { settings, meaning := .none, backend, stack := ⟨0⟩ }

def resolve (backend : Solver.Backend α) (document : Json α) (settings : Settings.Resolving α) :
    Except (Error α) (List (Renderable Empty α) × List Warning) :=
  let s := surroundings settings backend
  let all : Resolve Empty α (List (Renderable Empty α)) := do
    Engine.bootstrap s
    Engine.install s
    Engine.resolveDocument s document
  match all (Workspace.empty 0) with
  | none => .error .endless
  | some (.error e, _) => .error (.build e)
  | some (.ok rs, w) => .ok (rs, w.warnings.toList)

def paintAll (rs : List (Renderable Empty α)) (surface : Surface α) :
    Except (Error α) (Surface α) :=
  rs.foldlM (fun surface r =>
    match Rendering.render r surface with
    | (.ok _, surface) => .ok surface
    | (.error e, _) => .error (.render e)) surface

def sized (size : α × α) : Svg.Document :=
  let w := Scalar.text size.1
  let h := Scalar.text size.2
  let d := Svg.Document.create.setAttribute Svg.Document.root "width" w
  let d := d.setAttribute Svg.Document.root "height" h
  d.setAttribute Svg.Document.root "viewBox" s!"0 0 {w} {h}"

structure Output where
  text : String
  warnings : List Warning

def toSvg (backend : Solver.Backend α) (document : Json α) (settings : Settings α) :
    Except (Error α) Output := do
  let (rs, warnings) ← resolve backend document settings.resolving
  match ← paintAll rs (.svg (sized settings.resolving.container) Svg.Document.root) with
  | .svg d _ =>
    match d.text settings.writing with
    | .ends text => .ok ⟨text, warnings⟩
    | .endless => .error .endless
  | _ => .error .endless

def toRecording (backend : Solver.Backend α) (document : Json α)
    (settings : Settings.Resolving α) : Except (Error α) (Canvas.Recording α × List Warning) := do
  let (rs, warnings) ← resolve backend document settings
  match ← paintAll rs (.canvas (.create (some settings.container))) with
  | .canvas r => .ok (r, warnings)
  | _ => .error .endless

/-! On doubles, with the exact backend. -/

def renderSvg (document : Json Float) (settings : Settings Float) : Except (Error Float) Output :=
  toSvg Solver.Exact.backend document settings

def renderCanvas (document : Json Float) (settings : Settings Float) :
    Except (Error Float) Output := do
  let (r, warnings) ← toRecording Solver.Exact.backend document settings.resolving
  .ok ⟨r.text, warnings⟩

def read (source : String) : Except (Error Float) (Json Float) :=
  match Json.read? source with
  | some document => .ok document
  | none => .error .json

end Scene.Pipeline
