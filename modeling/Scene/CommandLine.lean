import Scene.CommandLine.Arguments
import Scene.Pipeline
import Scene.Settings.Reader

/-! The command line: which document is drawn with which settings, and what can go wrong before. How
files are read is left to a monad. -/
namespace Scene.CommandLine

inductive Fault where
  | arguments
  | settingsFile (path : String)
  | settings (path : String)
  | file (path : String)
  | standardInput
  | toml (name : String)
  | json (name : String)
  | pipeline (cause : Pipeline.Error Float)

namespace Fault

def message : Fault → String
  | .arguments => "unusable arguments, see --help"
  | .settingsFile path =>
    .join ["Error loading config '", path, "': Failed to read config file"]
  | .settings path => .join ["Error loading config '", path, "': Failed to parse config TOML"]
  | .file path => .join ["Error reading file '", path, "': cannot be read"]
  | .standardInput => "Error reading from stdin: cannot be read"
  | .toml name => .join ["Error parsing '", name, "': invalid TOML document"]
  | .json name => .join ["invalid JSON document '", name, "'"]
  | .pipeline cause => .join ["Error: ", cause.message]

def code : Fault → Nat
  | .arguments => 2
  | _ => 1

end Fault

def help (program : String) : String :=
  s!"Render declarative visualization specs to SVG or canvas calls

Usage: {program} [OPTIONS] [INPUT]

Arguments:
  [INPUT]  Input document, JSON or TOML (reads JSON from stdin if not provided)

Options:
  -c, --config <CONFIG>  Configuration file (TOML format)
      --canvas           Emit recorded canvas calls as JSON
      --width <WIDTH>    Container width in pixels
      --height <HEIGHT>  Container height in pixels
      --compact          Single-line SVG without XML declaration
  -v, --verbose...       Log resolution to stderr
  -h, --help             Print help
"

def pathParts (path : String) : List String :=
  (path.splitOn "/").filter fun part => part ≠ "" ∧ part ≠ "."

def fileName? (path : String) : Option String :=
  match (pathParts path).getLast? with
  | some ".." => none
  | last => last

def extension? (path : String) : Option String := do
  let parts := (← fileName? path).splitOn "."
  match parts.dropLast with
  | [] | [""] => none
  | _ => parts.getLast?

def adjust (a : Arguments) (s : Settings Float) : Settings Float :=
  let (w, h) := s.resolving.container
  let container := (a.width.getD w, a.height.getD h)
  { resolving := { s.resolving with container }
    writing := if a.compact then .compact else s.writing }

def document (path : Option String) (source : String) : Except Fault (Json Float) :=
  let name := path.getD "<stdin>"
  if path.bind extension? = some "toml" then
    match Toml.read? source with
    | some v => .ok v.toJson
    | none => .error (.toml name)
  else match Json.read? source with
    | some v => .ok v
    | none => .error (.json name)

def draw (canvas : Bool) (settings : Settings Float) (document : Json Float) :
    Except Fault Pipeline.Output :=
  let drawn := if canvas then Pipeline.renderCanvas document settings
    else Pipeline.renderSvg document settings
  match drawn with
  | .ok o => .ok { o with text := o.text ++ "\n" }
  | .error e => .error (.pipeline e)

section Files
variable {m : Type → Type} [Monad m]

/-- What can be read from; nothing comes of what does not exist or is no text. -/
structure Sources (m : Type → Type) where
  file : String → m (Option String)
  standardInput : m (Option String)

def loadSettings (sources : Sources m) : Option String → ExceptT Fault m (Settings Float)
  | none => pure .standard
  | some path => do
    match ← sources.file path with
    | none => throw (.settingsFile path)
    | some source =>
      match Settings.read? source with
      | none => throw (.settings path)
      | some s => pure s

def loadDocument (sources : Sources m) : Option String → ExceptT Fault m String
  | none => do
    match ← sources.standardInput with
    | none => throw .standardInput
    | some source => pure source
  | some path => do
    match ← sources.file path with
    | none => throw (.file path)
    | some source => pure source

def run (program : String) (sources : Sources m) (arguments : List String) :
    ExceptT Fault m Pipeline.Output := do
  match Request.ofArguments? arguments with
  | none => throw .arguments
  | some .help => pure ⟨help program, []⟩
  | some (.draw a) => do
    let settings ← loadSettings sources a.configuration
    let source ← loadDocument sources a.input
    let document ← ExceptT.mk (pure (document a.input source))
    ExceptT.mk (pure (draw a.canvas (adjust a settings) document))

end Files
end Scene.CommandLine
