/-! Declared types of properties. -/
namespace Scene

inductive Tag where
  | number
  | string
  | boolean
  | array
  | object
  | function
  deriving DecidableEq, Repr

namespace Tag

def name : Tag → String
  | .number => "number"
  | .string => "string"
  | .boolean => "boolean"
  | .array => "array"
  | .object => "object"
  | .function => "function"

def all : List Tag := [.number, .string, .boolean, .array, .object, .function]

def parse? (s : String) : Option Tag := all.find? fun t => t.name = s

theorem parse?_name (t : Tag) : parse? t.name = some t := by
  cases t <;> decide +kernel

end Tag
end Scene
