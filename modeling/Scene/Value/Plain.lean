import Scene.Value
import Scene.Json

/-! Plain data as values and back. Renderables, computed properties and functions are not plain. -/
namespace Scene.Value
variable {φ α : Type} [Scalar α]

/-- Whole numbers of moderate size become integers; what is not finite becomes null. -/
def plainNumber (n : α) : Json α :=
  match Scalar.integer? n with
  | some i => .integer i
  | none => if Scalar.isFinite n then .number n else .null

mutual

def toJson? : Value φ α → Option (Json α)
  | .null => some .null
  | .bool b => some (.bool b)
  | .number n => some (plainNumber n)
  | .string s => some (.string s)
  | .array items => (itemsToJson? items).map .array
  | .object fields => (fieldsToJson? fields).map .object
  | .renderable _ | .computed _ | .function _ => none

def itemsToJson? : List (Value φ α) → Option (List (Json α))
  | [] => some []
  | v :: vs => do
    let j ← toJson? v
    let js ← itemsToJson? vs
    some (j :: js)

def fieldsToJson? : List (String × Value φ α) → Option (List (String × Json α))
  | [] => some []
  | (k, v) :: vs => do
    let j ← toJson? v
    let js ← fieldsToJson? vs
    some ((k, j) :: js)

end

mutual

def ofJson : Json α → Value φ α
  | .null => .null
  | .bool b => .bool b
  | .integer n => .number (Scalar.ofRat n)
  | .number x => .number x
  | .string s => .string s
  | .array items => .array (itemsOfJson items)
  | .object fields => .object (fieldsOfJson fields)

def itemsOfJson : List (Json α) → List (Value φ α)
  | [] => []
  | j :: js => ofJson j :: itemsOfJson js

def fieldsOfJson : List (String × Json α) → List (String × Value φ α)
  | [] => []
  | (k, j) :: js => (k, ofJson j) :: fieldsOfJson js

end

end Scene.Value
