import Scene.Function
import Scene.Error
import Scene.Dict
import Scene.Svg.Document
import Scene.Canvas.Recording

/-! Property values, specs and renderables. A value may hold a resolved renderable, and a renderable
the spec it came from, so the three types are one. -/
namespace Scene

/-- Drawing into a document. What was drawn before a failure stays. -/
abbrev SvgPaint (α : Type) := ExceptT (PaintError α) (StateM Svg.Document)

abbrev CanvasPaint (α : Type) := ExceptT (PaintError α) (StateM (Canvas.Recording α))

/-- The two ways to draw a renderable, with its properties already in them. -/
structure Painters (α : Type) where
  svg : Svg.NodeId → SvgPaint α (Option Svg.NodeId)
  canvas : CanvasPaint α Bool

mutual

inductive Value (φ α : Type) where
  | null
  | bool (b : Bool)
  | number (n : α)
  | string (s : String)
  | array (items : List (Value φ α))
  | object (fields : List (String × Value φ α))
  | renderable (r : Renderable φ α)
  /-- Evaluated once per resolution, before validation. -/
  | computed (code : φ)
  | function (f : Function φ)

/-- A type name with properties, none of them called `type`. -/
structure Spec (φ α : Type) where
  typeName : String
  props : List (String × Value φ α)

/-- A resolved visual. Two renderables are one only if they are the same node. -/
structure Renderable (φ α : Type) where
  node : Nat
  kind : String
  /-- What the painters see. -/
  props : List (String × Value φ α)
  /-- The spec this was resolved from, and that type's completed properties. -/
  origin : Option (Spec φ α × List (String × Value φ α))
  painters : Painters α

end

abbrev Props (φ α : Type) := Dict (Value φ α)

inductive Visual (φ α : Type) where
  | spec (s : Spec φ α)
  | resolved (r : Renderable φ α)

namespace Value
variable {φ α : Type}

instance : Inhabited (Value φ α) := ⟨.null⟩

def isNull : Value φ α → Bool
  | .null => true
  | _ => false

def asNumber? : Value φ α → Option α
  | .number n => some n
  | _ => none

def asString? : Value φ α → Option String
  | .string s => some s
  | _ => none

def asBool? : Value φ α → Option Bool
  | .bool b => some b
  | _ => none

def asArray? : Value φ α → Option (List (Value φ α))
  | .array items => some items
  | _ => none

def asObject? : Value φ α → Option (Props φ α)
  | .object fields => some fields
  | _ => none

def asRenderable? : Value φ α → Option (Renderable φ α)
  | .renderable r => some r
  | _ => none

def asFunction? : Value φ α → Option (Function φ)
  | .function f => some f
  | _ => none

def isComputed : Value φ α → Bool
  | .computed _ => true
  | _ => false

def label : Value φ α → String
  | .null => "null"
  | .bool _ => "boolean"
  | .number _ => "number"
  | .string _ => "string"
  | .array _ => "array"
  | .object _ => "object"
  | .renderable _ => "renderable"
  | .computed _ => "computed"
  | .function _ => "function"

variable [DecidableEq φ] [BEq α]

mutual

/-- Equality of values: nodes and function codes stand for themselves, all else is compared by
content. -/
def beq : Value φ α → Value φ α → Bool
  | .null, .null => true
  | .bool a, .bool b => a == b
  | .number a, .number b => a == b
  | .string a, .string b => a == b
  | .array a, .array b => beqItems a b
  | .object a, .object b => beqFields a b
  | .renderable a, .renderable b => a.node == b.node
  | .computed a, .computed b => decide (a = b)
  | .function a, .function b => decide (a = b)
  | _, _ => false

def beqItems : List (Value φ α) → List (Value φ α) → Bool
  | [], [] => true
  | a :: as, b :: bs => beq a b && beqItems as bs
  | _, _ => false

def beqFields : List (String × Value φ α) → List (String × Value φ α) → Bool
  | [], [] => true
  | (k, a) :: as, (l, b) :: bs => k == l && beq a b && beqFields as bs
  | _, _ => false

end

instance : BEq (Value φ α) := ⟨beq⟩

end Value
end Scene
