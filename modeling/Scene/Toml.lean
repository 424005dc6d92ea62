import Scene.Json
import Scene.Toml.Moment

/-! Values of a TOML document, and how they stand as plain data. -/
namespace Scene

inductive Toml where
  | bool (b : Bool)
  | integer (n : Int)
  | float (x : Float)
  | string (s : String)
  | moment (m : Toml.Moment)
  | array (items : List Toml)
  | table (entries : List (String × Toml))

namespace Toml

/-- Plain data has no moments: one stands as an object with this key and its text. -/
def momentKey : String := "$__toml_private_datetime"

mutual

def toJson : Toml → Json Float
  | .bool b => .bool b
  | .integer n => .integer n
  | .float x => if x.isFinite then .number x else .null
  | .string s => .string s
  | .moment m => .object [(momentKey, .string m.text)]
  | .array items => .array (itemsToJson items)
  | .table entries => .object (entriesToJson entries)

def itemsToJson : List Toml → List (Json Float)
  | [] => []
  | v :: vs => toJson v :: itemsToJson vs

def entriesToJson : List (String × Toml) → List (String × Json Float)
  | [] => []
  | (k, v) :: es => (k, toJson v) :: entriesToJson es

end

end Toml
end Scene
