import Mica.Invocation
import Mica.Session.Command

/-! # The interpreter as a program

Reads what the command line asks for, and writes what comes of it.
-/
namespace Mica

/-- The bytes of a file, or why they cannot be had. -/
def readFile (path : Path) : IO (Except ReadFault ByteArray) := do
  try
    return .ok (← IO.FS.readBinFile path.display)
  catch
    | .noFileOrDirectory .. => return .error .missing
    | .inappropriateType _ code _ =>
      return .error (if code = 21 then .directory else .notDirectory)
    | .invalidArgument .. => return .error .nameTooLong
    | error => throw error

/-- The bytes that a command line needs, from standard input or from a file. -/
def gather (arguments : List String) : IO (ByteArray × Except ReadFault ByteArray) := do
  match Invocation.parse arguments with
  | .error _ => return (.empty, .error .missing)
  | .ok invocation =>
    match invocation.path? with
    | some path => return (.empty, ← readFile path)
    | none => return (← (← IO.getStdin).readBinToEnd, .error .missing)

def finish (report : Report) : IO UInt32 := do
  IO.print report.out
  IO.eprint report.err
  match report.ending with
  | .done => return 0
  | .failed => return 1
  | .refused refusal => do
    IO.eprintln refusal.message
    return 1
  | .escaped (.misuse misuse) => do
    IO.eprintln misuse.message
    return 1
  | .escaped _ => do
    IO.eprintln "integer literal has too many digits"
    return 1
  | .notText => do
    IO.eprintln "source is not UTF-8 text"
    return 1
  | .notPath => do
    IO.eprintln "path has a zero character"
    return 1

end Mica

def main (arguments : List String) : IO UInt32 := do
  let setting ← IO.getEnv "MICA_DEBUG_PY_TRACE"
  let debug := (setting.map Mica.Switch.isOn).getD false
  let (input, content) ← Mica.gather arguments
  match Mica.Invocation.execute Mica.ampleDepth debug input (fun _ => content) arguments with
  | some report => Mica.finish report
  | none => do
    IO.eprintln "the program went too deep"
    return 1
