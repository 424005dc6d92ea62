import Scene.Canvas.Recording
import Scene.Json.Quoted
import Scene.Decimal.Layout

/-! The written form of a recording: an array of objects, one field a line. -/
namespace Scene.Canvas

inductive Field where
  | number (x : Float)
  | text (s : String)

def Field.write : Field → String
  | .number x => Decimal.Layout.recording.write x
  | .text s => Json.quote s

def Command.fields : Command Float → String × List (String × Field)
  | .save => ("save", [])
  | .restore => ("restore", [])
  | .translate x y => ("translate", [("x", .number x), ("y", .number y)])
  | .setFillStyle s => ("setFillStyle", [("style", .text s)])
  | .setStrokeStyle s => ("setStrokeStyle", [("style", .text s)])
  | .setLineWidth w => ("setLineWidth", [("width", .number w)])
  | .setFont f => ("setFont", [("font", .text f)])
  | .fillRect x y w h => ("fillRect", box x y w h)
  | .strokeRect x y w h => ("strokeRect", box x y w h)
  | .beginPath => ("beginPath", [])
  | .moveTo x y => ("moveTo", [("x", .number x), ("y", .number y)])
  | .lineTo x y => ("lineTo", [("x", .number x), ("y", .number y)])
  | .arc x y r a b =>
    ("arc", [("x", .number x), ("y", .number y), ("radius", .number r), ("start_angle", .number a),
      ("end_angle", .number b)])
  | .closePath => ("closePath", [])
  | .fill => ("fill", [])
  | .stroke => ("stroke", [])
  | .fillText t x y => ("fillText", [("text", .text t), ("x", .number x), ("y", .number y)])
where
  box (x y w h : Float) : List (String × Field) :=
    [("x", .number x), ("y", .number y), ("width", .number w), ("height", .number h)]

def Command.write (c : Command Float) : String :=
  let (op, fields) := c.fields
  let lines := (("op", Field.text op) :: fields).map fun (k, v) =>
    "    " ++ Json.quote k ++ ": " ++ v.write
  "  \x7b\n" ++ ",\n".intercalate lines ++ "\n  \x7d"

def Recording.text (r : Recording Float) : String :=
  if r.commands.isEmpty then "[]"
  else "[\n" ++ ",\n".intercalate (r.commands.toList.map Command.write) ++ "\n]"

end Scene.Canvas
