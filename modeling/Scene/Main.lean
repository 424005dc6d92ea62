import Scene.CommandLine

/-! The program: files and standard streams around the command line. -/
namespace Scene.CommandLine

def readable (read : IO String) : IO (Option String) := do
  match ← read.toBaseIO with
  | .ok source => pure (some source)
  | .error _ => pure none

def sources : Sources IO where
  file path := readable (IO.FS.readFile path)
  standardInput := readable (do (← IO.getStdin).readToEnd)

def program : IO String := do pure ((fileName? (toString (← IO.appPath))).getD "vizspec")

end Scene.CommandLine

def main (arguments : List String) : IO UInt32 := do
  let program ← Scene.CommandLine.program
  match ← Scene.CommandLine.run program Scene.CommandLine.sources arguments with
  | .ok o =>
    for w in o.warnings do IO.eprintln w.message
    IO.print o.text
    pure 0
  | .error fault =>
    IO.eprintln fault.message
    pure fault.code.toUInt32
