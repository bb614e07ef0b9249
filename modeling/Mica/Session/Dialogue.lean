import Mica.Session

/-! # Dialogues

A dialogue is a session driven by keys. Text gathers in a buffer; the enter key continues the buffer
on a new line while brackets are open in it, and otherwise hands it to the session.

How a line editor takes its keys is assumed here and not modelled. There is no cursor: what is typed,
and the new line that the enter key adds, with its indentation, always goes to the end of the buffer.
The keys that interrupt and close do so whatever the buffer holds.
-/
namespace Mica.Dialogue

inductive Key where
  | text (typed : String)
  | enter
  | interrupt
  | close
deriving DecidableEq, Repr

inductive Occasion where
  | start
  | accept
  | interrupt
  | close
deriving DecidableEq, Repr

/-- Something that happened at the prompt, with the buffer at that time and the text that followed. -/
structure Event where
  occasion : Occasion
  buffer : String
  out : String
  err : String

/-- What was seen of a dialogue, and the problem that broke it off, if one did. -/
structure Transcript where
  events : List Event
  broken : Option Problem

namespace Transcript

def cons (event : Event) (transcript : Transcript) : Transcript :=
  ⟨event :: transcript.events, transcript.broken⟩

end Transcript

def banner : String := "mica repl (Ctrl-D to exit, / for commands)\n"

def closing (buffer : String) : Transcript := ⟨[⟨.close, buffer, "\n", ""⟩], none⟩

/-- The rest of a dialogue whose buffer holds some text. All additions go to the end of the buffer. The
dialogue can be closed with any text in it, and when the keys run out it is. -/
def follow (depth : Nat) (session : Session) (buffer : String) : List Key → Option Transcript
  | [] => some (closing buffer)
  | .text typed :: keys => follow depth session (buffer ++ typed) keys
  | .close :: _ => some (closing buffer)
  | .interrupt :: keys =>
    (follow depth session "" keys).map (.cons ⟨.interrupt, buffer, "KeyboardInterrupt\n", ""⟩)
  | .enter :: keys =>
    if 0 < Brackets.depth buffer then
      follow depth session (buffer ++ continuation (Brackets.depth buffer)) keys
    else
      match session.enter depth buffer with
      | none => none
      | some answer =>
        let event := ⟨.accept, buffer, answer.out, answer.err⟩
        match answer.escapes with
        | some problem => some ⟨[event], some problem⟩
        | none => (follow depth answer.session "" keys).map (.cons event)

def run (depth : Nat) (debug : Bool) (keys : List Key) : Option Transcript :=
  (follow depth (.start debug) "" keys).map (.cons ⟨.start, "", banner, ""⟩)

end Mica.Dialogue
