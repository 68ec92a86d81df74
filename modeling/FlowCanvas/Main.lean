import FlowCanvas.Command.Run

/-!
# The command line
-/

namespace FlowCanvas.Command

/-- The text of a file, if it can be read. -/
def readText? (path : Path) : IO (Option String) := do
  try return some (← IO.FS.readFile path.text)
  catch _ => return none

/-- The files of some paths as they are now. -/
def snapshot (paths : List Path) : IO Workspace := do
  let texts ← paths.mapM readText?
  return fun path => ((paths.zip texts).find? fun e => e.1 == path).bind Prod.snd

/-- The files that a command line may read: first its settings, then those the settings name. -/
def filesOf (args : List String) : IO Workspace := do
  match Line.read args with
  | .error _ => return fun _ => none
  | .ok line =>
    let files ← snapshot line.config.toList
    match line.settings files with
    | .error _ => return files
    | .ok settings => snapshot (line.config.toList ++ line.files settings)

end FlowCanvas.Command

def main (args : List String) : IO UInt32 := do
  let outcome := FlowCanvas.Command.run (← FlowCanvas.Command.filesOf args) args
  IO.print outcome.output
  if let some failure := outcome.failure then
    IO.eprintln ("\nError: " ++ failure.message)
  return UInt32.ofNat outcome.code
