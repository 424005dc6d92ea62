import Scene.Dict

/-! Plain data: what a document and a recording are made of. -/
namespace Scene

/-- Plain data with numbers in `α`; whole numbers may stand apart from the others. -/
inductive Json (α : Type) where
  | null
  | bool (b : Bool)
  | integer (n : Int)
  | number (x : α)
  | string (s : String)
  | array (items : List (Json α))
  | object (fields : List (String × Json α))
  deriving Inhabited

end Scene
