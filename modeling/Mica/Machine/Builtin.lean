import Mica.Machine

/-! # Built-in methods

Strings can be joined and printed. A built-in method computes its value and what it prints from its
receiver and arguments alone.
-/
namespace Mica

namespace Builtin

/-- The text of a value that has to be a string. Arguments are told apart by position, the first
being number one. -/
def textOf (method : Builtin) (position : Option Nat) : Value → Except Cause String
  | .string text => .ok text
  | value => .error (.argumentType method.name position value.typeKey)

def textsFrom (method : Builtin) (position : Nat) : List Value → Except Cause (List String)
  | [] => .ok []
  | value :: values => do
    let first ← textOf method (some position) value
    let rest ← textsFrom method (position + 1) values
    return first :: rest

/-- The value of a call, and the text that it prints. -/
def apply (method : Builtin) (receiver : Value) (args : List Value) :
    Except Cause (Value × String) :=
  match method with
  | concat => do
    let first ← textOf concat none receiver
    let rest ← textsFrom concat 1 args
    return (.string (String.join (first :: rest)), "")
  | println => do
    if args.length ≠ 0 then .error (.arity println.name 0 args.length)
    let text ← textOf println none receiver
    return (.unit, text ++ "\n")

end Builtin

namespace Action

def builtin (method : Builtin) (receiver : Value) (args : List Value) : Action Value :=
  fun machine =>
    match method.apply receiver args with
    | .ok (value, text) => some (.ok value (machine.print text))
    | .error cause => fail cause machine

end Action

end Mica
