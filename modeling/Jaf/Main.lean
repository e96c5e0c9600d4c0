import Jaf.CommandLine

/-!
# The program

The outer layer: it reads the source file and the log filter, and writes what the run has to say.
-/

namespace Jaf

/-- What the system says about a file that cannot be read. -/
def ReadError.ofError : IO.Error → ReadError
  | .noFileOrDirectory .. => .missing
  | .permissionDenied .. => .denied
  | .inappropriateType _ 21 _ => .directory
  | .inappropriateType .. => .notDirectory
  | .invalidArgument .. => .longName
  | e => .other (toString e)

/-- Reads a source file. -/
def readSource (path : String) : IO (Except ReadError String) := do
  try
    let bytes ← IO.FS.readBinFile path
    return match String.fromUTF8? bytes with
      | some text => .ok text
      | none => .error .notText
  catch e =>
    return .error (.ofError e)

end Jaf

/-- Runs the program. -/
def main (args : List String) : IO UInt32 := do
  let content ← match (Jaf.Request.ofArgs args).input? with
    | some path => Jaf.readSource path
    | none => pure (.error .missing)
  let exit := Jaf.CommandLine.run args (← IO.getEnv "RUST_LOG") fun _ => content
  IO.print exit.stdout
  IO.eprint exit.stderr
  return exit.status.toUInt32
