import Scene.Schema

/-! Definitions of types, and the registry that holds them by name. -/
namespace Scene

structure Definition (φ α : Type) where
  name : String
  /-- All properties, those of ancestors included. -/
  properties : Dict (Schema φ α)
  implementation : Implementation φ
  extends? : Option String
  /-- Ancestors' validators come first. -/
  validators : List (Validator φ)
  layout? : Option (Generator φ)

namespace Definition
variable {φ α : Type}

def required (d : Definition φ α) : List String :=
  d.properties.filterMap fun e => if e.2.required then some e.1 else none

def defaults (d : Definition φ α) : Props φ α :=
  d.properties.filterMap fun e => e.2.default?.map fun v => (e.1, v)

end Definition

inductive Warning where
  | overwritten (typeName : String)
  | unsatisfied (constraints : Nat)
  deriving DecidableEq, Repr

def Warning.message : Warning → String
  | .overwritten _ => "type already registered, overwriting previous definition"
  | .unsatisfied _ =>
    "layout constraints could not all be satisfied, keeping best-effort values"

abbrev Registry (φ α : Type) := Dict (Definition φ α)

namespace Registry
variable {φ α : Type}

def register (r : Registry φ α) (d : Definition φ α) : Registry φ α × List Warning :=
  (Dict.insert r d.name d, if Dict.contains r d.name then [.overwritten d.name] else [])

def remove (r : Registry φ α) (name : String) : Registry φ α × Bool :=
  (Dict.erase r name, Dict.contains r name)

end Registry
end Scene
