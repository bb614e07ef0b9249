import Mica.Files
import Mica.Listing
import Mica.Run

/-! # The command line

What the arguments of a command line ask for, and how a run ends. Reading the source is left to a
function that is handed in, so a run is a value like any other.
-/
namespace Mica

structure Invocation where
  source : Option String
  entry : String
  dump : Bool
  verbose : Bool
deriving DecidableEq, Repr

inductive Refusal where
  | noEntryName
  | tooManyArguments
  | noInput
  | unreadable (path : Path) (fault : ReadFault)
deriving DecidableEq, Repr

namespace Refusal

def message : Refusal → String
  | noEntryName => "--entry flag requires a class name"
  | tooManyArguments => "Error: too many command line arguments"
  | noInput => "No input provided on stdin"
  | unreadable path fault => s!"Error: failed to read source file: {fault.message path}"

end Refusal

/-- How a run ends. A run that `failed` has reported why. A source may also be `notText`, and what
should name it `notPath`. -/
inductive Ending where
  | done
  | failed
  | refused (refusal : Refusal)
  | escaped (problem : Problem)
  | notText
  | notPath

structure Report where
  out : String
  err : String
  ending : Ending

namespace Invocation

def plain : Invocation := ⟨none, defaultEntry, false, false⟩

def entryArgument? (argument : String) : Option String :=
  let flag := "--entry=".toList
  if flag.isPrefixOf argument.toList then
    some (String.ofList (argument.toList.drop flag.length))
  else none

def readArguments (invocation : Invocation) : List String → Except Refusal Invocation
  | [] => .ok invocation
  | ["--entry"] => .error .noEntryName
  | "--entry" :: name :: rest => readArguments { invocation with entry := name } rest
  | "--dump-ast" :: rest => readArguments { invocation with dump := true } rest
  | "--verbose" :: rest => readArguments { invocation with verbose := true } rest
  | argument :: rest =>
    match entryArgument? argument, invocation.source with
    | some name, _ => readArguments { invocation with entry := name } rest
    | none, none => readArguments { invocation with source := some argument } rest
    | none, some _ => .error .tooManyArguments

def parse (arguments : List String) : Except Refusal Invocation := readArguments plain arguments

/-- The file to read, or nothing when the source comes from standard input. -/
def path? (invocation : Invocation) : Option Path :=
  match invocation.source with
  | none | some "-" => none
  | some text => some (.parse text)

def endWith (debug : Bool) (out err : String) : Problem → Report
  | .failure failure => ⟨out, err ++ failure.report debug, .failed⟩
  | problem => ⟨out, err, .escaped problem⟩

def perform (depth : Nat) (debug : Bool) (invocation : Invocation) (source : String) :
    Option Report :=
  if invocation.dump then
    match listSource source "" with
    | .ok _ out => some ⟨out, "", .done⟩
    | .error problem out => some (endWith debug out "" problem)
  else
    let journal := Machine.journal source invocation.entry
    let log := if invocation.verbose then String.join (journal.map (· ++ "\n")) else ""
    match Machine.runSource depth source invocation.entry .fresh with
    | none => none
    | some (.ok _ machine) => some ⟨machine.output, log, .done⟩
    | some (.error problem machine) => some (endWith debug machine.output log problem)

def refuse (refusal : Refusal) : Report := ⟨"", "", .refused refusal⟩

/-- What an invocation is to read: a file, or else standard input, which must not be empty. -/
def content (invocation : Invocation) (input : ByteArray)
    (read : Path → Except ReadFault ByteArray) : Except Refusal ByteArray :=
  match invocation.path? with
  | none => if input.isEmpty then .error .noInput else .ok input
  | some path => (read path).mapError (.unreadable path)

def execute (depth : Nat) (debug : Bool) (input : ByteArray)
    (read : Path → Except ReadFault ByteArray) (arguments : List String) : Option Report :=
  match parse arguments with
  | .error refusal => some (refuse refusal)
  | .ok invocation =>
    if invocation.path?.all Path.isPossible then
      match invocation.content input read with
      | .error refusal => some (refuse refusal)
      | .ok content =>
        match sourceText? content with
        | none => some ⟨"", "", .notText⟩
        | some source => invocation.perform depth debug source
    else some ⟨"", "", .notPath⟩

end Invocation

end Mica
