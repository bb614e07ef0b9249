import Mica.Expr

/-! # Scopes

Resolution replaces names by positions. It carries the names in scope along as a stack: a binding
pushes its name for as long as its body is looked at, and takes it off again whether or not that
succeeds, so that every resolution ends with the scope it began with.
-/
namespace Mica

/-- The names in scope, innermost first. -/
abbrev Scope := List String

abbrev InScope := EStateM Problem Scope

namespace Scope

/-- The scope of a method body: the parameters, last one innermost, and the receiver around them. -/
def ofMethod (params : List String) : Scope := ("this" :: params).reverse

def find (name : String) : InScope Int := fun scope =>
  match scope.idxOf? name with
  | some position => .ok position scope
  | none => .error (.ofCause (.unbound name)) scope

def push (name : String) : InScope Unit := fun scope => .ok () (name :: scope)

def thenPop {α : Type} (action : InScope α) : InScope α := fun scope =>
  match action scope with
  | .ok result scope => .ok result scope.tail
  | .error problem scope => .error problem scope.tail

def binding {α : Type} (name : String) (action : InScope α) : InScope α := do
  push name
  thenPop action

end Scope

namespace Named

mutual

def resolve : Named → InScope Resolved
  | .lit value => return .lit value
  | .call name receiver args => do
    let receiver ← resolve receiver
    let args ← resolveAll args
    return .call name receiver args
  | .var name => return .var (← Scope.find name)
  | .letIn name bound body => do
    let bound ← resolve bound
    let body ← Scope.binding name (resolve body)
    return .letIn () bound body
  | .cond test yes no => do
    let test ← resolve test
    let yes ← resolve yes
    let no ← resolve no
    return .cond test yes no
  | .seq steps => return .seq (← resolveAll steps)
  | .stray text => throw (.misuse (.unresolvable text))

def resolveAll : List Named → InScope (List Resolved)
  | [] => return []
  | expr :: exprs => do
    let first ← resolve expr
    let rest ← resolveAll exprs
    return first :: rest

end

def resolveIn (expr : Named) (scope : Scope) : Except Problem Resolved :=
  match resolve expr scope with
  | .ok resolved _ => .ok resolved
  | .error problem _ => .error problem

end Named

end Mica
