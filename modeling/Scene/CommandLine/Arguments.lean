import Scene.Decimal.Reader

/-! Arguments of the command line. An option's value follows as an argument of its own that does not
look like an option, or is attached: `--width=5`, `-cfile`, `-c=file`. Each option but the one for
verbosity is given at most once. -/
namespace Scene.CommandLine

structure Arguments where
  /-- The document; without one, standard input. -/
  input : Option String
  configuration : Option String
  canvas : Bool
  width : Option Float
  height : Option Float
  compact : Bool
  verbosity : Nat

def Arguments.none : Arguments := ⟨.none, .none, false, .none, .none, false, 0⟩

inductive Request where
  | help
  | draw (a : Arguments)

inductive Setting where
  | configuration
  | width
  | height
  deriving DecidableEq, Repr

inductive Flag where
  | canvas
  | compact
  | verbose
  | help
  deriving DecidableEq, Repr

inductive Token where
  | flag (f : Flag)
  | setting (s : Setting) (attached : Option String)
  | input (path : String)
  | unknown
  deriving DecidableEq, Repr

def path? (s : String) : Option String := if s = "" then .none else some s

def once {β : Type} (old : Option β) (new : Option β) : Option (Option β) :=
  match old, new with
  | .none, some b => some (some b)
  | _, _ => .none

namespace Arguments

def set? (a : Arguments) (s : Setting) (value : String) : Option Arguments :=
  match s with
  | .configuration => (once a.configuration (path? value)).map ({ a with configuration := · })
  | .width => (once a.width (Decimal.read? value)).map ({ a with width := · })
  | .height => (once a.height (Decimal.read? value)).map ({ a with height := · })

def input? (a : Arguments) (path : String) : Option Arguments :=
  (once a.input (path? path)).map ({ a with input := · })

end Arguments

def splitAttached (cs : List Char) : String × Option String :=
  let name := String.ofList (cs.takeWhile (· ≠ '='))
  match cs.dropWhile (· ≠ '=') with
  | [] => (name, .none)
  | _ :: value => (name, some (String.ofList value))

def longToken (cs : List Char) : Token :=
  match splitAttached cs with
  | ("config", value) => .setting .configuration value
  | ("width", value) => .setting .width value
  | ("height", value) => .setting .height value
  | ("canvas", .none) => .flag .canvas
  | ("compact", .none) => .flag .compact
  | ("verbose", .none) => .flag .verbose
  | ("help", .none) => .flag .help
  | _ => .unknown

def shortTokens : List Char → List Token
  | [] => []
  | 'v' :: cs => .flag .verbose :: shortTokens cs
  | 'h' :: cs => .flag .help :: shortTokens cs
  | ['c'] => [.setting .configuration .none]
  | 'c' :: '=' :: cs => [.setting .configuration (some (String.ofList cs))]
  | 'c' :: cs => [.setting .configuration (some (String.ofList cs))]
  | _ :: _ => [.unknown]

/-- The parts of an argument. A lone `-` is a path. -/
def tokens (argument : String) : List Token :=
  match argument.toList with
  | '-' :: '-' :: cs => [longToken cs]
  | '-' :: c :: cs => shortTokens (c :: cs)
  | _ => [.input argument]

inductive Step where
  | refused
  | help
  | next (a : Arguments)
  | wants (a : Arguments) (s : Setting)

def Step.ofOption : Option Arguments → Step
  | some a => .next a
  | .none => .refused

def apply (a : Arguments) : Token → Step
  | .flag .canvas => if a.canvas then .refused else .next { a with canvas := true }
  | .flag .compact => if a.compact then .refused else .next { a with compact := true }
  | .flag .verbose => .next { a with verbosity := a.verbosity + 1 }
  | .flag .help => .help
  | .setting s (some value) => .ofOption (a.set? s value)
  | .setting s .none => .wants a s
  | .input path => .ofOption (a.input? path)
  | .unknown => .refused

def applyAll : Arguments → List Token → Step
  | a, [] => .next a
  | a, t :: ts =>
    match apply a t with
    | .next a => applyAll a ts
    | other => other

def isValue (argument : String) : Bool :=
  match tokens argument with
  | [.input _] => true
  | _ => false

/-- Reads arguments on from what is read already; nothing comes of arguments that make no sense.
Behind `--` every argument is a path. -/
def read? : List String → Arguments → Option Request
  | [], a => some (.draw a)
  | "--" :: rest, a => (rest.foldlM Arguments.input? a).map .draw
  | argument :: rest, a =>
    match applyAll a (tokens argument) with
    | .refused => .none
    | .help => some .help
    | .next a => read? rest a
    | .wants a s =>
      match rest with
      | [] => .none
      | value :: rest => if isValue value then (a.set? s value).bind (read? rest) else .none

def Request.ofArguments? (arguments : List String) : Option Request := read? arguments .none

end Scene.CommandLine
