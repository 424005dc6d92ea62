import Scene.Json
import Scene.Json.Quoted
import Scene.Scalar

/-! Plain data as text on one line. -/
namespace Scene.Json
variable {α : Type} [Scalar α]

mutual

/-- A number that is not finite is written as null. -/
def text : Json α → String
  | .null => "null"
  | .bool true => "true"
  | .bool false => "false"
  | .integer n => toString n
  | .number x => if Scalar.isFinite x then Scalar.text x else "null"
  | .string s => quote s
  | .array items => "[" ++ ",".intercalate (itemTexts items) ++ "]"
  | .object fields => "\x7b" ++ ",".intercalate (fieldTexts fields) ++ "\x7d"

def itemTexts : List (Json α) → List String
  | [] => []
  | j :: js => text j :: itemTexts js

def fieldTexts : List (String × Json α) → List String
  | [] => []
  | (k, j) :: js => (quote k ++ ":" ++ text j) :: fieldTexts js

end

end Scene.Json
