import Mica.Text.Blank

/-! # Commands of a session

Lines that start with a slash are commands. The table of commands is also what completion offers.
-/
namespace Mica

inductive Command where
  | classes
  | clear
  | traceback (setting : String)
  | reset
  | run (name : String)
  | unknown (word : String)
deriving DecidableEq, Repr

namespace Command

/-- The commands, each with what it does. -/
def table : List (String × String) :=
  [("/classes", "List loaded classes"), ("/clear", "Clear the terminal screen"),
    ("/py-traceback", "Toggle Python traceback on errors"), ("/reset", "Reset the REPL environment"),
    ("/run", "Call main on a loaded class")]

/-- The commands that begin with what has been typed so far. -/
def completions (typed : String) : List (String × String) :=
  if typed.toList.head? = some '/' then
    table.filter fun entry => typed.toList.isPrefixOf entry.1.toList
  else []

def ofWords (word argument : String) : Command :=
  match word with
  | "/classes" => classes
  | "/clear" => clear
  | "/py-traceback" => traceback argument
  | "/reset" => reset
  | "/run" => run argument
  | _ => unknown word

/-- The command that a line stands for, if it is one. -/
def parse? (line : String) : Option Command :=
  let text := Text.trim line
  if text.toList.head? = some '/' then
    let (word, rest) := Text.firstWord text
    some (ofWords word (Text.trim rest))
  else none

end Command

/-- What a setting can be changed to. -/
inductive Switch where
  | on
  | off
  | toggle
deriving DecidableEq, Repr

namespace Switch

def onWords : List String := ["on", "1", "true", "yes"]

def offWords : List String := ["off", "0", "false", "no"]

def parse? (word : String) : Option Switch :=
  if word.toLower ∈ onWords then some on
  else if word.toLower ∈ offWords then some off
  else if word = "" then some toggle
  else none

def apply : Switch → Bool → Bool
  | on, _ => true
  | off, _ => false
  | toggle, flag => !flag

/-- Whether the text of a setting turns it on. -/
def isOn (text : String) : Bool := (Text.trim text).toLower ∈ onWords

end Switch

end Mica
