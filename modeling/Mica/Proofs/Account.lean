import Mica.Machine.Eval

/-! # What an evaluation comes to

An evaluation that is handed the methods and the stack as they are, and can change neither, comes to a
text that it prints and to an ending. What has been printed stays printed, however the evaluation ends.
The machine works on one stack, which it changes and restores on the way: it ends alike, has printed the
same text, and is otherwise left as it was. That needs nothing of the methods or of the expression.
-/
namespace Mica

/-- What a computation comes to: how it ends and the text it has printed by then, or nothing when it is cut
off. -/
def Account (α : Type) : Type := Option (Except Problem α × String)

namespace Account

variable {α β : Type}

protected def pure (value : α) : Account α := some (.ok value,"")

/-- What follows prints after what has been printed, and a failure keeps what has been printed. -/
protected def bind (account : Account α) (next : α → Account β) : Account β :=
  match account with
  | none => none
  | some (.error problem,text) => some (.error problem,text)
  | some (.ok value,text) =>
    match next value with
    | none => none
    | some (ending,more) => some (ending,text ++ more)

instance : Monad Account where
  pure := Account.pure
  bind := Account.bind

def cutOff : Account α := none

def raise (problem : Problem) : Account α := some (.error problem,"")

def fail (cause : Cause) : Account α := raise (.ofCause cause)

def within (owner : String) : Account α → Account α
  | some (.error problem,text) => some (.error (problem.leaving owner),text)
  | account => account

/-- The methods that there are, by type and name. -/
abbrev Methods := TypeKey → String → Option Method

/-- An evaluator that is told what the stack holds. -/
abbrev Teller := List Value → Resolved → Account Value

def slot (stack : List Value) (position : Int) : Account Value :=
  match position with
  | .ofNat n =>
    match stack[n]? with
    | some value => pure value
    | none => fail (.indexRange position stack.length)
  | .negSucc _ => fail (.indexRange position stack.length)

def all (tell : Resolved → Account Value) : List Resolved → Account (List Value)
  | [] => pure []
  | expr :: exprs => do
    let first ← tell expr
    let rest ← all tell exprs
    return first :: rest

def sequence (tell : Resolved → Account Value) (value : Value) : List Resolved → Account Value
  | [] => pure value
  | step :: steps => do
    let value ← tell step
    sequence tell value steps

def builtin (method : Builtin) (this : Value) (args : List Value) : Account Value :=
  match method.apply this args with
  | .ok (value,text) => some (.ok value,text)
  | .error cause => fail cause

def checkArity (owner : String) (arity : Option Int) (given : Nat) : Account Unit :=
  match arity with
  | some expected => if given = expected then pure () else fail (.arity owner expected given)
  | none => pure ()

/-- A custom method sees the receiver and the arguments on top of what its caller has on the stack. -/
def invoke (tell : Teller) (stack : List Value) (method : Method) (this : Value) (args : List Value) :
    Account Value :=
  match method with
  | .builtin method => builtin method this args
  | .custom body owner arity => do
    checkArity owner arity args.length
    within owner (tell ((this :: args).reverse ++ stack) body)
  | .stray text => raise (.misuse (.notMethod text))

def step (methods : Methods) (tell : Teller) (stack : List Value) : Resolved → Account Value
  | .lit value => pure value
  | .call name receiver args => do
    let this ← tell stack receiver
    match methods this.typeKey name with
    | none => fail (.noSuchMethod this.typeKey name)
    | some method =>
      let args ← all (tell stack) args
      invoke tell stack method this args
  | .var position => slot stack position
  | .letIn _ bound body => do
    let value ← tell stack bound
    tell (value :: stack) body
  | .cond test yes no => do
    match ← tell stack test with
    | .bool true => tell stack yes
    | .bool false => tell stack no
    | value => fail (.conditionType value.typeKey)
  | .seq steps => sequence (tell stack) .unit steps
  | .stray text => raise (.misuse (.unevaluable text))

/-- What evaluating an expression to a given depth comes to. -/
def eval (methods : Methods) : Nat → Teller
  | 0 => fun _ _ => cutOff
  | depth + 1 => step methods (eval methods depth)

end Account

/-- The outcome of an action that has ended in a machine. -/
def Outcome.ended {α : Type} (ending : Except Problem α) (machine : Machine) : Outcome α :=
  match ending with
  | .ok value => some (.ok value machine)
  | .error problem => some (.error problem machine)

/-- The outcome on a machine that an account foretells. -/
def Account.outcome {α : Type} (account : Account α) (machine : Machine) : Outcome α :=
  match account with
  | none => none
  | some (ending,text) => Outcome.ended ending (machine.print text)

theorem Machine.print_print (machine : Machine) (text more : String) :
    (machine.print text).print more = machine.print (text ++ more) := by
  simp [Machine.print, String.append_assoc]

theorem Machine.print_empty (machine : Machine) : machine.print "" = machine := by
  simp [Machine.print]

namespace Account

variable {α β : Type} {machine : Machine}

/-- On a machine, whatever it has printed, an action has the outcome that an account foretells. -/
def Foretells (account : Account α) (action : Action α) (machine : Machine) : Prop :=
  ∀ text, action (machine.print text) = account.outcome (machine.print text)

theorem foretells_pure (value : α) : Foretells (pure value) (pure value) machine := by
  intro text
  change some _ = some (EStateM.Result.ok value ((machine.print text).print ""))
  rw [Machine.print_empty]

theorem foretells_raise (problem : Problem) : Foretells (raise problem : Account α) (Action.raise problem) machine := by
  intro text
  change some _ = some (EStateM.Result.error problem ((machine.print text).print ""))
  rw [Machine.print_empty]

theorem foretells_fail (cause : Cause) : Foretells (fail cause : Account α) (Action.fail cause) machine :=
  foretells_raise (.ofCause cause)

theorem Foretells.bind {account : Account α} {action : Action α} {follow : α → Account β} {next : α → Action β}
    (h : Foretells account action machine) (hn : ∀ value, Foretells (follow value) (next value) machine) :
    Foretells (account >>= follow) (action >>= next) machine := by
  intro text
  rw [Action.bind_apply, h text]
  change _ = (Account.bind account follow).outcome _
  rcases account with _ | ⟨_ | value,printed⟩
  · rfl
  · rfl
  · -- what follows starts on a machine that has printed more, which is why this is said for every text
    change next value ((machine.print text).print printed) = _
    rw [Machine.print_print, hn value (text ++ printed), ← Machine.print_print]
    cases hf : follow value with
    | none => simp only [Account.bind, hf, outcome]
    | some rest => simp only [Account.bind, hf, outcome, Machine.print_print, String.append_assoc]

theorem Foretells.within {account : Account α} {action : Action α} (h : Foretells account action machine)
    (owner : String) : Foretells (account.within owner) (action.within owner) machine := by
  intro text
  unfold Action.within
  rw [h text]
  rcases account with _ | ⟨_ | value,printed⟩ <;> rfl

/-- What is foretold of an action on another stack is foretold of it on the present one, provided that the
other stack is restored to the present one. -/
theorem Foretells.restoring {account : Account α} {action : Action α} {stack : List Value}
    {restore : List Value → List Value} (h : Foretells account action { machine with stack })
    (hr : restore stack = machine.stack) (text : String) :
    action.restoring restore ({ machine with stack }.print text) = account.outcome (machine.print text) := by
  have hs (more : String) : { (({ machine with stack }.print text).print more) with stack := restore stack } =
      (machine.print text).print more := by
    rw [hr]
    rfl
  unfold Action.restoring
  rw [h text]
  rcases account with _ | ⟨_ | value,printed⟩
  · rfl
  · exact congrArg (fun after => some (EStateM.Result.error _ after)) (hs printed)
  · exact congrArg (fun after => some (EStateM.Result.ok value after)) (hs printed)

theorem Foretells.binding {account : Account α} {action : Action α} {value : Value}
    (h : Foretells account action (machine.push value)) : Foretells account (action.binding value) machine :=
  fun text => h.restoring rfl text

theorem Foretells.frame {account : Account α} {action : Action α} {values : List Value}
    (h : Foretells account action { machine with stack := values.reverse ++ machine.stack }) :
    Foretells account (action.frame values) machine := by
  intro text
  change action.restoring (fun stack => stack.drop (stack.length - machine.stack.length))
    ({ machine with stack := values.reverse ++ machine.stack }.print text) = _
  exact h.restoring (by simp) text

theorem foretells_slot (position : Int) : Foretells (slot machine.stack position) (Action.slot position) machine := by
  intro text
  cases position with
  | negSucc n => exact foretells_fail (.indexRange (.negSucc n) machine.stack.length) text
  | ofNat n =>
    have hp : (machine.print text).stack[n]? = machine.stack[n]? := rfl
    simp only [slot, Action.slot, hp]
    cases machine.stack[n]? with
    | none => exact foretells_fail (.indexRange (.ofNat n) machine.stack.length) text
    | some value => exact foretells_pure value text

theorem foretells_method {type : TypeKey} {name : String} {next : Method → Action α} {follow : Method → Account α}
    (h : ∀ method, Foretells (follow method) (next method) machine) :
    Foretells
      (match machine.method? type name with
        | none => fail (.noSuchMethod type name)
        | some method => follow method)
      (Action.method type name >>= next) machine := by
  intro text
  have hm : (machine.print text).method? type name = machine.method? type name := rfl
  rw [Action.bind_apply]
  unfold Action.method
  rw [hm]
  cases machine.method? type name with
  | none => exact foretells_fail _ text
  | some method => exact h method text

theorem foretells_builtin (method : Builtin) (this : Value) (args : List Value) :
    Foretells (builtin method this args) (Action.builtin method this args) machine := by
  intro text
  unfold builtin Action.builtin
  cases method.apply this args with
  | error cause => exact foretells_fail cause text
  | ok result => rfl

theorem foretells_checkArity (owner : String) (arity : Option Int) (given : Nat) :
    Foretells (checkArity owner arity given) (Evaluator.checkArity owner arity given) machine := by
  cases arity with
  | none => exact foretells_pure ()
  | some expected =>
    by_cases he : given = expected
    · simpa only [checkArity, Evaluator.checkArity, if_pos he] using foretells_pure ()
    · simpa only [checkArity, Evaluator.checkArity, if_neg he] using foretells_fail _

end Account

/-- An evaluator of machines does what a teller tells from the methods and the stack of the machine. -/
def Evaluator.Told (eval : Evaluator) (tell : Account.Methods → Account.Teller) : Prop :=
  ∀ (machine : Machine) (expr : Resolved),
    Account.Foretells (tell machine.method? machine.stack expr) (eval expr) machine

namespace Evaluator

variable {eval : Evaluator} {tell : Account.Methods → Account.Teller}

theorem Told.all (h : eval.Told tell) (machine : Machine) (exprs : List Resolved) :
    Account.Foretells (Account.all (tell machine.method? machine.stack) exprs) (eval.all exprs) machine := by
  induction exprs with
  | nil => exact Account.foretells_pure []
  | cons expr exprs ih => exact (h machine expr).bind fun _ => ih.bind fun _ => Account.foretells_pure _

theorem Told.sequence (h : eval.Told tell) (machine : Machine) (value : Value) (steps : List Resolved) :
    Account.Foretells (Account.sequence (tell machine.method? machine.stack) value steps) (eval.sequence value steps)
      machine := by
  induction steps generalizing value with
  | nil => exact Account.foretells_pure value
  | cons step steps ih => exact (h machine step).bind fun value => ih value

theorem Told.invoke (h : eval.Told tell) (machine : Machine) (method : Method) (this : Value) (args : List Value) :
    Account.Foretells (Account.invoke (tell machine.method?) machine.stack method this args)
      (eval.invoke method this args) machine := by
  cases method with
  | builtin method => exact Account.foretells_builtin method this args
  | custom body owner arity =>
    refine (Account.foretells_checkArity owner arity args.length).bind fun _ => ?_
    have hbody := h { machine with stack := (this :: args).reverse ++ machine.stack } body
    exact (hbody.within owner).frame
  | stray text => exact Account.foretells_raise _

/-- One step of evaluation. -/
theorem Told.step (h : eval.Told tell) : Told (step eval) fun methods => Account.step methods (tell methods) := by
  intro machine expr
  cases expr with
  | lit value => exact Account.foretells_pure value
  | call name receiver args =>
    refine (h machine receiver).bind fun this => Account.foretells_method fun method => ?_
    exact (h.all machine args).bind fun args => h.invoke machine method this args
  | var position => exact Account.foretells_slot position
  | letIn binder bound body =>
    refine (h machine bound).bind fun value => Account.Foretells.binding ?_
    exact h (machine.push value) body
  | cond test yes no =>
    refine (h machine test).bind fun value => ?_
    cases value with
    | bool flag =>
      cases flag with
      | true => exact h machine yes
      | false => exact h machine no
    | _ => exact Account.foretells_fail _
  | seq steps => exact h.sequence machine .unit steps
  | stray text => exact Account.foretells_raise _

end Evaluator

/-- Evaluation to any depth. -/
theorem Machine.told_eval (depth : Nat) : (eval depth).Told fun methods => Account.eval methods depth := by
  induction depth with
  | zero => exact fun _ _ _ => rfl
  | succ depth ih => exact ih.step

end Mica
