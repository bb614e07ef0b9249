import Mica.Expr

/-! # Machines

A machine holds the methods of every type, the names of the loaded classes, one stack of values that
all running methods share, and what has been printed. Programs act on a machine; an action ends with
a value or a problem, or is cut off because it went too deep. A problem leaves the machine as it was
when the problem arose: nothing that was printed is taken back.
-/
namespace Mica

inductive Builtin where
  | concat
  | println
deriving DecidableEq, Repr

namespace Builtin

def name : Builtin → String
  | concat => "concat"
  | println => "println"

end Builtin

/-- What a method name stands for. A custom method without an arity takes any number of arguments, and
one with a negative arity can never be called.
A `stray` is something that stands where a method should, known only by its text. -/
inductive Method where
  | builtin (builtin : Builtin)
  | custom (body : Resolved) (owner : String) (arity : Option Int)
  | stray (text : String)
deriving DecidableEq

abbrev MethodTable := Table String Method

/-- The state of a machine. The innermost value stands first on the stack. -/
structure Machine where
  methods : Table TypeKey MethodTable
  stack : List Value
  classNames : Table ClassId String
  classCount : Nat
  objectCount : Nat
  output : String
deriving DecidableEq

namespace Machine

def builtinMethods : MethodTable :=
  ⟨[("concat", .builtin .concat), ("println", .builtin .println)]⟩

def fresh : Machine where
  methods := ⟨[(.string, builtinMethods)]⟩
  stack := []
  classNames := .empty
  classCount := 0
  objectCount := 0
  output := ""

def method? (machine : Machine) (type : TypeKey) (name : String) : Option Method :=
  (machine.methods.get? type).bind (·.get? name)

/-- Puts a method into the table of a type, which is created if need be. -/
def define (machine : Machine) (type : TypeKey) (name : String) (method : Method) : Machine :=
  let table := (machine.methods.get? type).getD .empty
  { machine with methods := machine.methods.insert type (table.insert name method) }

def print (machine : Machine) (text : String) : Machine :=
  { machine with output := machine.output ++ text }

def push (machine : Machine) (value : Value) : Machine :=
  { machine with stack := value :: machine.stack }

end Machine

/-- How an action ends: `none` when it was cut off. -/
abbrev Outcome (α : Type) := Option (EStateM.Result Problem Machine α)

def Action (α : Type) := Machine → Outcome α

namespace Action

variable {α β : Type}

protected def pure (value : α) : Action α := fun machine => some (.ok value machine)

protected def bind (action : Action α) (next : α → Action β) : Action β := fun machine =>
  match action machine with
  | some (.ok value machine) => next value machine
  | some (.error problem machine) => some (.error problem machine)
  | none => none

instance : Monad Action where
  pure := Action.pure
  bind := Action.bind

@[simp]
theorem pure_apply (value : α) (machine : Machine) :
    (pure value : Action α) machine = some (.ok value machine) := rfl

/-- What follows an action runs only when the action has a value, and on the machine it left. -/
theorem bind_apply (action : Action α) (next : α → Action β) (machine : Machine) :
    (action >>= next) machine =
      match action machine with
      | some (.ok value machine) => next value machine
      | some (.error problem machine) => some (.error problem machine)
      | none => none := rfl

def cutOff : Action α := fun _ => none

def raise (problem : Problem) : Action α := fun machine => some (.error problem machine)

def fail (cause : Cause) : Action α := raise (.ofCause cause)

/-- An action that can neither be cut off nor depend on how deep it runs. -/
def ofEStateM (action : EStateM Problem Machine α) : Action α := fun machine => some (action machine)

def ofExcept : Except Problem α → Action α
  | .ok value => Action.pure value
  | .error problem => raise problem

def method (type : TypeKey) (name : String) : Action Method := fun machine =>
  match machine.method? type name with
  | some method => some (.ok method machine)
  | none => fail (.noSuchMethod type name) machine

/-- The value at a position of the stack, counted from the innermost one. -/
def slot (position : Int) : Action Value := fun machine =>
  match position with
  | .ofNat n =>
    match machine.stack[n]? with
    | some value => some (.ok value machine)
    | none => fail (.indexRange position machine.stack.length) machine
  | .negSucc _ => fail (.indexRange position machine.stack.length) machine

/-- Changes the stack in which an action has ended, in whichever way it did. -/
def restoring (restore : List Value → List Value) (action : Action α) : Action α := fun machine =>
  match action machine with
  | some (.ok value machine) => some (.ok value { machine with stack := restore machine.stack })
  | some (.error problem machine) =>
    some (.error problem { machine with stack := restore machine.stack })
  | none => none

/-- Runs an action with one more value on the stack, which is taken off at the end. -/
def binding (value : Value) (action : Action α) : Action α := fun machine =>
  action.restoring List.tail (machine.push value)

/-- Runs an action with the given values on top of the stack, the last one innermost. At the end
everything above the present height is taken off. -/
def frame (values : List Value) (action : Action α) : Action α := fun machine =>
  let height := machine.stack.length
  action.restoring (fun stack => stack.drop (stack.length - height))
    { machine with stack := values.reverse ++ machine.stack }

def within (owner : String) (action : Action α) : Action α := fun machine =>
  match action machine with
  | some (.error problem machine) => some (.error (problem.leaving owner) machine)
  | outcome => outcome

def newObject (id : ClassId) : Action Value := fun machine =>
  some (.ok (.object id machine.objectCount) { machine with objectCount := machine.objectCount + 1 })

end Action

end Mica
