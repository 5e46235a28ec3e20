import TileSelect.CommandLine
/-!
The program: reads the file that a command asks for, runs the command and writes what comes of it.
-/

set_option autoImplicit false

namespace TileSelect

/-- What a file holds. -/
def FileContent.read (path : String) : IO FileContent := do
  try return .ofBytes (← IO.FS.readBinFile path)
  catch
    | .noFileOrDirectory .. => return .missing
    | .permissionDenied .. => return .denied
    | e => return .unreadable e.toString

end TileSelect

/-- Runs the command that the arguments ask for. -/
def main (args : List String) : IO UInt32 := do
  let command := TileSelect.Command.ofArgs args
  let content ← match command.file? with
    | some path => TileSelect.FileContent.read path
    | none => pure .missing
  let outcome := command.run fun _ => content
  (← IO.getStdout).putStr outcome.output
  (← IO.getStderr).putStr outcome.errors
  return outcome.code.toUInt32
