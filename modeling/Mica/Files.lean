import Mica.Text.Lines
import Mica.Text.Quoted

/-! # Source files

Paths in their plain form, and reading them in a snapshot of a directory tree. A path starts in the
working directory or at the root of the system. Limits on the length of names and paths count bytes.
-/
namespace Mica

/-- A path without empty and dot components. Those that go up stay. -/
structure Path where
  root : String
  parts : List String
deriving DecidableEq, Repr

namespace Path

/-- Exactly two leading slashes are kept as they are; any other number of them counts as one. -/
def parse (text : String) : Path :=
  let slashes := (text.toList.takeWhile (· = '/')).length
  let root := if slashes = 0 then "" else if slashes = 2 then "//" else "/"
  ⟨root, (text.splitOn "/").filter fun part => part ≠ "" ∧ part ≠ "."⟩

def display (path : Path) : String :=
  if path.root = "" ∧ path.parts = [] then "." else path.root ++ "/".intercalate path.parts

def isPossible (path : Path) : Bool := path.parts.all fun part => !part.toList.contains '\x00'

def settle (parts : List String) : List String :=
  parts.foldl (fun settled part => if part = ".." then settled.dropLast else settled ++ [part]) []

end Path

inductive ReadFault where
  | missing
  | directory
  | notDirectory
  | nameTooLong
deriving DecidableEq, Repr

namespace ReadFault

def code : ReadFault → Nat
  | missing => 2
  | directory => 21
  | notDirectory => 20
  | nameTooLong => 36

def text : ReadFault → String
  | missing => "No such file or directory"
  | directory => "Is a directory"
  | notDirectory => "Not a directory"
  | nameTooLong => "File name too long"

def message (fault : ReadFault) (path : Path) : String :=
  s!"[Errno {fault.code}] {fault.text}: {Text.quote path.display}"

end ReadFault

inductive Node where
  | directory
  | file (content : ByteArray)

/-- The files and directories below one directory, by their components. Above a `root` there is
nothing. -/
structure Snapshot where
  nodes : List (List String × Node)
  root : Bool

namespace Snapshot

def working (directories : List Path) (files : List (Path × ByteArray)) : Snapshot where
  nodes := files.map (fun (path, content) => (Path.settle path.parts, .file content)) ++
    directories.flatMap fun path =>
      (List.range (path.parts.length + 1)).map fun n => (Path.settle (path.parts.take n), .directory)
  root := false

/-- The part of a file system that is the same everywhere. -/
def system : Snapshot where
  nodes := (["dev", "null"], .file .empty) ::
    ["bin", "boot", "dev", "etc", "home", "lib", "media", "mnt", "opt", "proc", "root", "run", "sbin",
      "srv", "sys", "tmp", "usr", "var"].map fun name => ([name], .directory)
  root := true

/-- What is found under some components. Whatever lies above a known node is a directory. -/
def node? (snapshot : Snapshot) (parts : List String) : Option Node :=
  if parts = [] then some .directory
  else
    match snapshot.nodes.find? fun entry => entry.1 == parts with
    | some entry => some entry.2
    | none =>
      if snapshot.nodes.any fun entry => parts.isPrefixOf entry.1 then some .directory else none

inductive Spot where
  | inside (parts : List String)
  | outside

def nameLimit : Nat := 255

def pathLimit : Nat := 4095

def follow (snapshot : Snapshot) (spot : Spot) (part : String) : Except ReadFault Spot :=
  match spot with
  | .outside =>
    if part = ".." then .ok .outside
    else if nameLimit < part.utf8ByteSize then .error .nameTooLong
    else .error .missing
  | .inside parts =>
    match snapshot.node? parts with
    | none => .error .missing
    | some (.file _) => .error .notDirectory
    | some .directory =>
      if part = ".." then
        if parts = [] ∧ !snapshot.root then .ok .outside else .ok (.inside parts.dropLast)
      else if nameLimit < part.utf8ByteSize then .error .nameTooLong
      else
        match snapshot.node? (parts ++ [part]) with
        | none => .error .missing
        | some _ => .ok (.inside (parts ++ [part]))

def walk (snapshot : Snapshot) (parts : List String) : Except ReadFault ByteArray := do
  match ← parts.foldlM snapshot.follow (.inside []) with
  | .outside => .error .directory
  | .inside parts =>
    match snapshot.node? parts with
    | some (.file content) => .ok content
    | some .directory => .error .directory
    | none => .error .missing

def read (snapshot : Snapshot) (path : Path) : Except ReadFault ByteArray :=
  if pathLimit < path.display.utf8ByteSize then .error .nameTooLong
  else if path.root = "" then snapshot.walk path.parts
  else system.walk path.parts

end Snapshot

/-- The source text that some bytes hold, with one line feed for every line break, unless they are no
text at all. -/
def sourceText? (content : ByteArray) : Option String :=
  (String.fromUTF8? content).map fun text => String.ofList (Text.unifyBreaks text.toList)

end Mica
