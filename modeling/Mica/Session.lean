import Mica.Machine.Inventory
import Mica.Run
import Mica.Session.Command
import Mica.Session.Input

/-! # Sessions

A session is a machine with the classes that were loaded into it by name. Each line a user enters
is a command or a submission, and is answered by text on the two output channels.
-/
namespace Mica

/-- With `debug` the reports of failures are longer. Between two lines nothing is left of the
machine's output. -/
structure Session where
  machine : Machine
  classes : Table String ClassId
  debug : Bool

/-- The answer to one line. A problem that is no failure is not reported but `escapes`. -/
structure Answer where
  session : Session
  out : String
  err : String
  escapes : Option Problem

namespace Session

def start (debug : Bool) : Session := ⟨.fresh, .empty, debug⟩

def say (session : Session) (out : String) : Answer := ⟨session, out, "", none⟩

def complain (session : Session) (err : String) : Answer := ⟨session, "", err, none⟩

def settle (session : Session) (machine : Machine) (out err : String) (escapes : Option Problem) :
    Answer :=
  ⟨{ session with machine := { machine with output := "" } }, machine.output ++ out, err, escapes⟩

/-- The line that shows a value. The unit value is not shown. -/
def shown (machine : Machine) : Value → String
  | .unit => ""
  | value => value.render machine.classNames ++ "\n"

def settleProblem (session : Session) (machine : Machine) : Problem → Answer
  | .failure failure => session.settle machine "" (failure.report session.debug) none
  | problem => session.settle machine "" "" (some problem)

def settleValue (session : Session) : EStateM.Result Problem Machine Value → Answer
  | .ok value machine => session.settle machine (shown machine value) "" none
  | .error problem machine => session.settleProblem machine problem

def settleReply (session : Session) : EStateM.Result Problem Machine Reply → Answer
  | .ok (.value value) machine => session.settleValue (.ok value machine)
  | .ok (.loaded classes) machine =>
    let names := ", ".intercalate (classes.map (·.1))
    { session with classes := session.classes.insertAll classes }.settle machine
      (if classes.isEmpty then "" else s!"Loaded {names}.\n") "" none
  | .error problem machine => session.settleProblem machine problem

def submit (depth : Nat) (session : Session) (text : String) : Option Answer :=
  (Machine.submit depth text session.machine).map session.settleReply

def describe (machine : Machine) (name : String) (id : ClassId) : String :=
  let methods := machine.methodNames (.object id)
  let listed := if methods.isEmpty then "-" else ", ".intercalate methods
  s!"{name} ({id.display}): {listed}\n"

def listClasses (session : Session) : String :=
  if session.classes.entries.isEmpty then "No classes loaded.\n"
  else
    let sorted := session.classes.entries.mergeSort fun a b => a.2 ≤ b.2
    String.join (sorted.map fun entry => describe session.machine entry.1 entry.2)

def perform (depth : Nat) (session : Session) : Command → Option Answer
  | .clear => some (session.say "")
  | .classes => some (session.say session.listClasses)
  | .traceback setting =>
    match Switch.parse? setting with
    | none => some (session.complain "Usage: /py-traceback [on|off]\n")
    | some switch =>
      let debug := switch.apply session.debug
      let label := if debug then "on" else "off"
      some ({ session with debug }.say s!"Python traceback: {label}\n")
  | .reset => some ((start session.debug).say "Environment reset.\n")
  | .run argument =>
    let name := if argument = "" then defaultEntry else argument
    match session.classes.get? name with
    | none => some (session.complain s!"Error: no class named `{name}`\n")
    | some id => (Machine.runClass depth id session.machine).map session.settleValue
  | .unknown word => some (session.complain s!"Unknown command: {word}\n")

/-- Answers a line as it was typed: a blank one by nothing. -/
def enter (depth : Nat) (session : Session) (typed : String) : Option Answer :=
  let text := visible typed
  if Text.allBlank text then some (session.say "")
  else
    match Command.parse? text with
    | some command => session.perform depth command
    | none => session.submit depth text

end Session

end Mica
