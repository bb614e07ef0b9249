import Mica.Machine.Eval
import Mica.Machine.Load
import Mica.Source.Parse
import Mica.Text.Blank

/-! # Running source texts

The two ways in which a text meets a machine. A program is loaded and its entry class run, which has to
be one of the program's own. A submission is either classes, which are loaded beside those already there,
or one expression, which is evaluated with no variables in scope. In any other scope the values of the
variables have to be on the stack.
-/
namespace Mica

def defaultEntry : String := "Main"

def ampleDepth : Nat := 1000000

inductive Reply where
  | value (value : Value)
  | loaded (classes : List (String × ClassId))

/-- Whether a text is taken for classes and not for an expression. The word that opens a class is
continued by the characters of names only and by no other letter. Where another letter follows the
word, no token starts at that letter, so reading stops there and blames it, whichever of the two the
text is taken for. -/
def startsClass (source : String) : Bool :=
  let cs := Text.trimStart source.toList
  "class".toList.isPrefixOf cs && !(cs.drop 5).head?.any Token.isNamePart

namespace Machine

def runSource (depth : Nat) (source entry : String) : Action Value := do
  let program ← Action.ofExcept (Program.parse source)
  let classes ← Action.ofEStateM (load program)
  match classes.lookup entry with
  | none => Action.fail (.noEntryClass entry)
  | some id => runClass depth id

def evalIn (depth : Nat) (scope : Scope) (expr : Named) : Action Value := do
  let resolved ← Action.ofExcept (expr.resolveIn scope)
  eval depth resolved

def submit (depth : Nat) (source : String) : Action Reply :=
  if startsClass source then do
    let program ← Action.ofExcept (Program.parse source)
    let classes ← Action.ofEStateM (load program)
    return .loaded classes
  else do
    let expr ← Action.ofExcept (Named.parse source)
    let value ← evalIn depth [] expr
    return .value value

/-- The log of loading a program into a new machine and running one of its classes. It depends on
what was loaded and on which methods there are, and not on how the run goes on. -/
def journal (source entry : String) : List String :=
  match Program.parse source with
  | .error _ => []
  | .ok program =>
    match load program fresh with
    | .error .. => []
    | .ok classes machine =>
      let loaded := classes.map fun (name, id) =>
        let count := ((machine.methods.get? (.object id)).getD .empty).size
        s!"mica_ref.loader: loaded class {name} as {id.display} with {count} method(s)"
      match classes.lookup entry with
      | none => loaded
      | some id =>
        let found := s!"mica_ref.runner: entry class {entry} has id {id.display}"
        match machine.method? (.object id) entryMethod with
        | none => loaded ++ [found]
        | some _ =>
          loaded ++ [found, s!"mica_ref.evaluator: running {entry}.{entryMethod}"]

end Machine

end Mica
