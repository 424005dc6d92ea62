import Scene.Settings
import Scene.Toml.Reader

/-! Settings from a TOML document. A setting that is not given keeps its standard value, keys that
name no setting are passed over, and a value of the wrong type refuses the whole. -/
namespace Scene.Settings
open Toml

/-- A group of settings: by name in a table, or by place in an array. -/
inductive Group where
  | named (entries : List (String × Toml))
  | placed (items : List Toml)

def Group.ofToml? : Toml → Option Group
  | .table entries => some (.named entries)
  | .array items => some (.placed items)
  | .moment _ => some (.named [])
  | _ => none

def Group.get? (g : Group) (place : Nat) (name : String) : Option Toml :=
  match g with
  | .named entries => Dict.get? entries name
  | .placed items => items[place]?

def Group.read? {β : Type} (g : Group) (place : Nat) (name : String) (standard : β)
    (read : Toml → Option β) : Option β :=
  match g.get? place name with
  | none => some standard
  | some v => read v

def count? : Toml → Option Nat
  | .integer (.ofNat n) => some n
  | _ => none

def number? : Toml → Option Float
  | .integer n => some (Scalar.ofRat n)
  | .float x => some x
  | _ => none

def flag? : Toml → Option Bool
  | .bool b => some b
  | _ => none

def text? : Toml → Option String
  | .string s => some s
  | _ => none

def size? : Toml → Option (Float × Float)
  | .array (w :: h :: _) => do some (← number? w, ← number? h)
  | _ => none

def Solving.ofToml? (v : Toml) : Option (Solving Float) := do
  let g ← Group.ofToml? v
  let standard : Solving Float := .standard
  let maxIterations ← g.read? 0 "max_iterations" standard.maxIterations count?
  let epsilon ← g.read? 1 "epsilon" standard.epsilon number?
  let exactFallback ← g.read? 2 "exact_fallback" standard.exactFallback flag?
  some { maxIterations, epsilon, exactFallback }

def Resolving.ofToml? (v : Toml) : Option (Resolving Float) := do
  let g ← Group.ofToml? v
  let standard : Resolving Float := .standard
  let maxDepth ← g.read? 0 "max_depth" standard.maxDepth count?
  let container ← g.read? 1 "default_container" standard.container size?
  let solving ← g.read? 2 "layout" standard.solving Solving.ofToml?
  some { maxDepth, container, solving }

def Writing.ofToml? (v : Toml) : Option Writing := do
  let g ← Group.ofToml? v
  let standard := Writing.standard
  let declaration ← g.read? 0 "xml_declaration" standard.declaration flag?
  let indent ← g.read? 1 "indent" standard.indent flag?
  let classPrefix ← g.read? 2 "class_prefix" standard.classPrefix fun v => (text? v).map some
  some { declaration, indent, classPrefix }

def ofToml? (v : Toml) : Option (Settings Float) := do
  let g ← Group.ofToml? v
  let resolving ← g.read? 0 "engine" .standard Resolving.ofToml?
  let writing ← g.read? 1 "svg" .standard Writing.ofToml?
  some { resolving, writing }

def read? (source : String) : Option (Settings Float) := do ofToml? (← Toml.read? source)

end Scene.Settings
