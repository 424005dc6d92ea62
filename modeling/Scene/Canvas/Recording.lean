/-! Recordings: the calls made on a 2D canvas, in order. -/
namespace Scene.Canvas

inductive Command (α : Type) where
  | save
  | restore
  | translate (x y : α)
  | setFillStyle (style : String)
  | setStrokeStyle (style : String)
  | setLineWidth (width : α)
  | setFont (font : String)
  | fillRect (x y width height : α)
  | strokeRect (x y width height : α)
  | beginPath
  | moveTo (x y : α)
  | lineTo (x y : α)
  | arc (x y radius startAngle endAngle : α)
  | closePath
  | fill
  | stroke
  | fillText (text : String) (x y : α)

structure Recording (α : Type) where
  size : Option (α × α)
  commands : Array (Command α)

def Command.ofCall? {α : Type} (name : String) (text : Nat → Option String)
    (number : Nat → Option α) : Option (Command α) :=
  match name with
  | "save" => some .save
  | "restore" => some .restore
  | "translate" => do some (.translate (← number 0) (← number 1))
  | "setFillStyle" => do some (.setFillStyle (← text 0))
  | "setStrokeStyle" => do some (.setStrokeStyle (← text 0))
  | "setLineWidth" => do some (.setLineWidth (← number 0))
  | "setFont" => do some (.setFont (← text 0))
  | "fillRect" => do some (.fillRect (← number 0) (← number 1) (← number 2) (← number 3))
  | "strokeRect" => do some (.strokeRect (← number 0) (← number 1) (← number 2) (← number 3))
  | "beginPath" => some .beginPath
  | "moveTo" => do some (.moveTo (← number 0) (← number 1))
  | "lineTo" => do some (.lineTo (← number 0) (← number 1))
  | "arc" => do some (.arc (← number 0) (← number 1) (← number 2) (← number 3) (← number 4))
  | "closePath" => some .closePath
  | "fill" => some .fill
  | "stroke" => some .stroke
  | "fillText" => do some (.fillText (← text 0) (← number 1) (← number 2))
  | _ => none

namespace Recording
variable {α : Type}

def create (size : Option (α × α)) : Recording α := ⟨size, #[]⟩

def push (r : Recording α) (c : Command α) : Recording α := { r with commands := r.commands.push c }

def saves (r : Recording α) : Nat :=
  r.commands.foldl (fun n c => match c with
    | .save => n + 1
    | _ => n) 0

def clear (r : Recording α) : Recording α := { r with commands := #[] }

end Recording
end Scene.Canvas
