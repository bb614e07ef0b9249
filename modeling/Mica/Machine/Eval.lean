import Mica.Machine.Builtin

/-! # Evaluation

One step of evaluation is given in terms of an evaluator for the parts of an expression and for the
bodies of methods. Tying the knot a bounded number of times gives evaluation to a bounded depth:
within the bound the answer is that of unbounded evaluation, and beyond it the action is cut off.
-/
namespace Mica

abbrev Evaluator := Resolved → Action Value

namespace Evaluator

def all (eval : Evaluator) : List Resolved → Action (List Value)
  | [] => return []
  | expr :: exprs => do
    let first ← eval expr
    let rest ← all eval exprs
    return first :: rest

/-- Evaluates one step after the other; the value is that of the last, or `value` without any. -/
def sequence (eval : Evaluator) (value : Value) : List Resolved → Action Value
  | [] => return value
  | step :: steps => do
    let value ← eval step
    sequence eval value steps

def checkArity (owner : String) (arity : Option Int) (given : Nat) : Action Unit :=
  match arity with
  | some expected =>
    if given = expected then return () else Action.fail (.arity owner expected given)
  | none => return ()

def invoke (eval : Evaluator) (method : Method) (this : Value) (args : List Value) :
    Action Value :=
  match method with
  | .builtin builtin => Action.builtin builtin this args
  | .custom body owner arity => do
    checkArity owner arity args.length
    Action.frame (this :: args) (Action.within owner (eval body))
  | .stray text => Action.raise (.misuse (.notMethod text))

/-- One step of evaluation. The method of a call is looked up before its arguments are evaluated. -/
def step (eval : Evaluator) : Evaluator
  | .lit value => return value
  | .call name receiver args => do
    let this ← eval receiver
    let method ← Action.method this.typeKey name
    let args ← all eval args
    invoke eval method this args
  | .var position => Action.slot position
  | .letIn _ bound body => do
    let value ← eval bound
    Action.binding value (eval body)
  | .cond test yes no => do
    match ← eval test with
    | .bool true => eval yes
    | .bool false => eval no
    | value => Action.fail (.conditionType value.typeKey)
  | .seq steps => sequence eval .unit steps
  | .stray text => Action.raise (.misuse (.unevaluable text))

end Evaluator

namespace Machine

def eval : Nat → Evaluator
  | 0 => fun _ => Action.cutOff
  | depth + 1 => Evaluator.step (eval depth)

def invoke (depth : Nat) : Method → Value → List Value → Action Value :=
  Evaluator.invoke (eval depth)

def entryMethod : String := "main"

def runClass (depth : Nat) (id : ClassId) : Action Value := fun machine =>
  match machine.method? (.object id) entryMethod with
  | none => Action.fail .noEntryMethod machine
  | some method =>
    (do
      let this ← Action.newObject id
      invoke depth method this [] : Action Value) machine

end Machine

end Mica
