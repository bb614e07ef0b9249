import Mica.Proofs.Frames

/-! # Traces

A failure names the methods that it has left, one after the other on its way out. A watched evaluation knows at every
moment which custom methods have been entered and not yet left. It takes the trace of a failure from there when the
failure arises, and never changes it afterwards. Both give the same trace: the calls that were active, innermost first.
-/
namespace Mica

/-- A machine, and the owners of the custom methods that have been entered and not yet left, innermost first. -/
structure Watch where
  machine : Machine
  active : List String
deriving DecidableEq

namespace Problem

/-- The problem as it arises while some methods are active. -/
def arising (active : List String) : Problem → Problem
  | failure ⟨cause,_⟩ => .failure ⟨cause,active⟩
  | problem => problem

/-- Notes that the problem leaves some methods, the first one first. -/
def leavingAll (active : List String) : Problem → Problem
  | failure ⟨cause,trace⟩ => .failure ⟨cause,trace ++ active⟩
  | problem => problem

theorem leavingAll_nil (problem : Problem) : problem.leavingAll [] = problem := by
  cases problem with
  | failure failure => exact congrArg (fun trace => Problem.failure ⟨failure.cause,trace⟩) (List.append_nil _)
  | misuse misuse => rfl
  | literalTooLong => rfl

theorem leavingAll_leaving (problem : Problem) (owner : String) (active : List String) :
    (problem.leaving owner).leavingAll active = problem.leavingAll (owner :: active) := by
  cases problem with
  | failure failure =>
    have htrace : failure.trace ++ [owner] ++ active = failure.trace ++ owner :: active := by simp
    exact congrArg (fun trace => Problem.failure ⟨failure.cause,trace⟩) htrace
  | misuse misuse => rfl
  | literalTooLong => rfl

/-- A problem that has left no method. -/
def Fresh : Problem → Prop
  | failure ⟨_,trace⟩ => trace = []
  | _ => True

theorem Fresh.arising_eq {problem : Problem} (h : problem.Fresh) (active : List String) :
    problem.arising active = problem.leavingAll active := by
  cases problem with
  | failure failure =>
    obtain ⟨cause,trace⟩ := failure
    obtain rfl : trace = [] := h
    rfl
  | misuse misuse => rfl
  | literalTooLong => rfl

end Problem

/-- An action on a watched machine. -/
def Watched (α : Type) := Watch → Option (EStateM.Result Problem Watch α)

namespace Watched

variable {α β : Type}

protected def pure (value : α) : Watched α := fun watch => some (.ok value watch)

protected def bind (watched : Watched α) (next : α → Watched β) : Watched β := fun watch =>
  match watched watch with
  | some (.ok value watch) => next value watch
  | some (.error problem watch) => some (.error problem watch)
  | none => none

instance : Monad Watched where
  pure := Watched.pure
  bind := Watched.bind

def cutOff : Watched α := fun _ => none

/-- An action that enters no method. If it raises a problem, the trace is what is active at this moment. -/
def plain (action : Action α) : Watched α := fun watch =>
  match action watch.machine with
  | some (.ok value machine) => some (.ok value { watch with machine })
  | some (.error problem machine) => some (.error (problem.arising watch.active) { watch with machine })
  | none => none

/-- Changes the watch before an action, and the one in which it has ended, in whichever way it did. -/
def around (before after : Watch → Watch) (watched : Watched α) : Watched α := fun watch =>
  match watched (before watch) with
  | some (.ok value watch) => some (.ok value (after watch))
  | some (.error problem watch) => some (.error problem (after watch))
  | none => none

/-- Runs the body of a method, which is active from here until it is left. -/
def entering (owner : String) (body : Watched α) : Watched α :=
  body.around (fun watch => { watch with active := owner :: watch.active })
    fun watch => { watch with active := watch.active.tail }

def binding (value : Value) (body : Watched α) : Watched α :=
  body.around (fun watch => { watch with machine := watch.machine.push value })
    fun watch => { watch with machine := { watch.machine with stack := watch.machine.stack.tail } }

def frame (values : List Value) (body : Watched α) : Watched α := fun watch =>
  let height := watch.machine.stack.length
  body.around
    (fun watch => { watch with machine := { watch.machine with stack := values.reverse ++ watch.machine.stack } })
    (fun watch =>
      let stack := watch.machine.stack
      { watch with machine := { watch.machine with stack := stack.drop (stack.length - height) } })
    watch

end Watched

abbrev Watcher := Resolved → Watched Value

namespace Watcher

def all (eval : Watcher) : List Resolved → Watched (List Value)
  | [] => return []
  | expr :: exprs => do
    let first ← eval expr
    let rest ← all eval exprs
    return first :: rest

def sequence (eval : Watcher) (value : Value) : List Resolved → Watched Value
  | [] => return value
  | step :: steps => do
    let value ← eval step
    sequence eval value steps

/-- A built-in method is never active, and a custom one not before the number of its arguments has been checked. -/
def invoke (eval : Watcher) (method : Method) (this : Value) (args : List Value) : Watched Value :=
  match method with
  | .builtin builtin => .plain (Action.builtin builtin this args)
  | .custom body owner arity => do
    .plain (Evaluator.checkArity owner arity args.length)
    .frame (this :: args) (.entering owner (eval body))
  | .stray text => .plain (Action.raise (.misuse (.notMethod text)))

def step (eval : Watcher) : Watcher
  | .lit value => return value
  | .call name receiver args => do
    let this ← eval receiver
    let method ← .plain (Action.method this.typeKey name)
    let args ← all eval args
    invoke eval method this args
  | .var position => .plain (Action.slot position)
  | .letIn _ bound body => do
    let value ← eval bound
    .binding value (eval body)
  | .cond test yes no => do
    match ← eval test with
    | .bool true => eval yes
    | .bool false => eval no
    | value => .plain (Action.fail (.conditionType value.typeKey))
  | .seq steps => sequence eval .unit steps
  | .stray text => .plain (Action.raise (.misuse (.unevaluable text)))

end Watcher

/-- Watched evaluation to a given depth. -/
def Machine.watch : Nat → Watcher
  | 0 => fun _ => Watched.cutOff
  | depth + 1 => Watcher.step (watch depth)

/-- An evaluation that is watched from its start. -/
def Evaluation.watch (depth : Nat) : Evaluation → Watched Value
  | expr code => Machine.watch depth code
  | call method this args => Watcher.invoke (Machine.watch depth) method this args
  | entry id => fun watch =>
    match watch.machine.method? (.object id) Machine.entryMethod with
    | none => Watched.plain (Action.fail .noEntryMethod) watch
    | some method =>
      (do
        let this ← .plain (Action.newObject id)
        Watcher.invoke (Machine.watch depth) method this [] : Watched Value) watch

/-- An outcome as it is seen with some methods active: a failure will leave them too. -/
def Outcome.watched {α : Type} (active : List String) : Outcome α → Option (EStateM.Result Problem Watch α)
  | some (.ok value machine) => some (.ok value ⟨machine,active⟩)
  | some (.error problem machine) => some (.error (problem.leavingAll active) ⟨machine,active⟩)
  | none => none

/-- An action whose problems have left no method. -/
def Action.Raises {α : Type} (action : Action α) : Prop :=
  ∀ ⦃machine problem after⦄, action machine = some (.error problem after) → problem.Fresh

namespace Watched

variable {α β : Type}

/-- A watched action does what an action does, and ends with the same methods active as at its start. -/
def Follows (watched : Watched α) (action : Action α) : Prop :=
  ∀ machine active, watched ⟨machine,active⟩ = (action machine).watched active

theorem follows_pure (value : α) : Follows (pure value) (pure value) := fun _ _ => rfl

theorem follows_plain {action : Action α} (h : action.Raises) : Follows (plain action) action := by
  intro machine active
  unfold plain
  cases ha : action machine with
  | none => rfl
  | some result =>
    cases result with
    | ok value after => rfl
    | error problem after =>
      have hproblem : problem.arising active = problem.leavingAll active := (h ha).arising_eq active
      exact congrArg (fun problem => some (EStateM.Result.error problem (Watch.mk after active))) hproblem

theorem Follows.bind {watched : Watched α} {action : Action α} {follow : α → Watched β} {next : α → Action β}
    (h : Follows watched action) (hn : ∀ value, Follows (follow value) (next value)) :
    Follows (watched >>= follow) (action >>= next) := by
  intro machine active
  rw [Action.bind_apply]
  change Watched.bind watched follow ⟨machine,active⟩ = _
  unfold Watched.bind
  rw [h machine active]
  cases ha : action machine with
  | none => rfl
  | some result =>
    cases result with
    | ok value after => exact hn value after active
    | error problem after => rfl

/-- The owner goes to the end of the trace on the way out, just where it stands among the active methods. -/
theorem Follows.entering {watched : Watched α} {action : Action α} (h : Follows watched action) (owner : String) :
    Follows (watched.entering owner) (action.within owner) := by
  intro machine active
  unfold Watched.entering around Action.within
  rw [h machine (owner :: active)]
  cases ha : action machine with
  | none => rfl
  | some result =>
    cases result with
    | ok value after => rfl
    | error problem after =>
      have hproblem := problem.leavingAll_leaving owner active
      exact congrArg (fun problem => some (EStateM.Result.error problem (Watch.mk after active))) hproblem.symm

theorem Follows.binding {watched : Watched α} {action : Action α} (h : Follows watched action) (value : Value) :
    Follows (watched.binding value) (action.binding value) := by
  intro machine active
  unfold Watched.binding around Action.binding Action.restoring
  rw [h (machine.push value) active]
  rcases action (machine.push value) with _ | ⟨_ | _⟩ <;> rfl

theorem Follows.frame {watched : Watched α} {action : Action α} (h : Follows watched action) (values : List Value) :
    Follows (watched.frame values) (action.frame values) := by
  intro machine active
  unfold Watched.frame around Action.frame Action.restoring
  dsimp only
  rw [h { machine with stack := values.reverse ++ machine.stack } active]
  rcases action { machine with stack := values.reverse ++ machine.stack } with _ | ⟨_ | _⟩ <;> rfl

end Watched

namespace Action

variable {α : Type}

theorem raises_raise {problem : Problem} (h : problem.Fresh) : (raise problem : Action α).Raises := by
  rintro machine _ after ⟨⟩
  exact h

theorem raises_fail (cause : Cause) : (fail cause : Action α).Raises := raises_raise rfl

theorem raises_misuse (misuse : Misuse) : (raise (.misuse misuse) : Action α).Raises := raises_raise trivial

theorem raises_method (type : TypeKey) (name : String) : (method type name).Raises := by
  intro machine problem after h
  unfold method at h
  cases hm : machine.method? type name with
  | none =>
    rw [hm] at h
    exact raises_fail _ h
  | some found =>
    rw [hm] at h
    cases h

theorem raises_slot (position : Int) : (slot position).Raises := by
  intro machine problem after h
  unfold slot at h
  cases position with
  | negSucc n => exact raises_fail _ h
  | ofNat n =>
    cases hs : machine.stack[n]? with
    | none =>
      simp only [hs] at h
      exact raises_fail _ h
    | some value =>
      simp only [hs] at h
      cases h

theorem raises_builtin (method : Builtin) (this : Value) (args : List Value) : (builtin method this args).Raises := by
  intro machine problem after h
  unfold builtin at h
  cases hb : method.apply this args with
  | error cause =>
    rw [hb] at h
    exact raises_fail _ h
  | ok result =>
    rw [hb] at h
    cases h

theorem raises_checkArity (owner : String) (arity : Option Int) (given : Nat) :
    (Evaluator.checkArity owner arity given).Raises := by
  intro machine problem after h
  cases arity with
  | none => cases h
  | some expected =>
    by_cases he : given = expected
    · simp only [Evaluator.checkArity, if_pos he] at h
      cases h
    · simp only [Evaluator.checkArity, if_neg he] at h
      exact raises_fail _ h

end Action

/-- A watched evaluator does what an evaluator does. -/
def Watcher.Follows (watch : Watcher) (eval : Evaluator) : Prop := ∀ expr, (watch expr).Follows (eval expr)

namespace Watcher.Follows

variable {watch : Watcher} {eval : Evaluator}

theorem all (h : watch.Follows eval) (exprs : List Resolved) : (watch.all exprs).Follows (eval.all exprs) := by
  induction exprs with
  | nil => exact Watched.follows_pure []
  | cons expr exprs ih => exact (h expr).bind fun _ => ih.bind fun _ => Watched.follows_pure _

theorem sequence (h : watch.Follows eval) (value : Value) (steps : List Resolved) :
    (watch.sequence value steps).Follows (eval.sequence value steps) := by
  induction steps generalizing value with
  | nil => exact Watched.follows_pure value
  | cons step steps ih => exact (h step).bind fun value => ih value

theorem invoke (h : watch.Follows eval) (method : Method) (this : Value) (args : List Value) :
    (watch.invoke method this args).Follows (eval.invoke method this args) := by
  cases method with
  | builtin method => exact Watched.follows_plain (Action.raises_builtin method this args)
  | custom body owner arity =>
    have harity := Watched.follows_plain (Action.raises_checkArity owner arity args.length)
    exact harity.bind fun _ => ((h body).entering owner).frame (this :: args)
  | stray text => exact Watched.follows_plain (Action.raises_misuse _)

/-- One step of evaluation. -/
theorem step (h : watch.Follows eval) : (Watcher.step watch).Follows (Evaluator.step eval) := by
  intro expr
  cases expr with
  | lit value => exact Watched.follows_pure value
  | call name receiver args =>
    refine (h receiver).bind fun this => ?_
    have hmethod := Watched.follows_plain (Action.raises_method this.typeKey name)
    exact hmethod.bind fun method => (h.all args).bind fun args => h.invoke method this args
  | var position => exact Watched.follows_plain (Action.raises_slot position)
  | letIn binder bound body => exact (h bound).bind fun value => (h body).binding value
  | cond test yes no =>
    refine (h test).bind fun value => ?_
    cases value with
    | bool flag =>
      cases flag with
      | true => exact h yes
      | false => exact h no
    | _ => exact Watched.follows_plain (Action.raises_fail _)
  | seq steps => exact h.sequence .unit steps
  | stray text => exact Watched.follows_plain (Action.raises_misuse _)

end Watcher.Follows

/-- Evaluation to any depth. -/
theorem Machine.follows_watch (depth : Nat) : (watch depth).Follows (eval depth) := by
  induction depth with
  | zero => exact fun _ _ _ => rfl
  | succ depth ih => exact ih.step

namespace Evaluation

theorem follows_watch (evaluation : Evaluation) (depth : Nat) :
    (evaluation.watch depth).Follows (evaluation.start depth) := by
  have heval := Machine.follows_watch depth
  cases evaluation with
  | expr code => exact heval code
  | call method this args => exact heval.invoke method this args
  | entry id =>
    intro machine active
    cases hm : machine.method? (.object id) Machine.entryMethod with
    | none =>
      have hfail := Watched.follows_plain (Action.raises_fail (α := Value) .noEntryMethod) machine active
      simpa only [watch, start, hm, Machine.runClass] using hfail
    | some method =>
      have hobject : Watched.Follows (.plain (Action.newObject id)) (Action.newObject id) := by
        refine Watched.follows_plain fun _ _ _ h => ?_
        cases h
      have hcall := (hobject.bind fun this => heval.invoke method this []) machine active
      simpa only [watch, start, hm, Machine.runClass, Machine.invoke] using hcall

/-- The trace of a failure is the call stack. An evaluation ends in a failure exactly when it does so while it is
watched, and with the trace that was taken when the failure arose: the owners of the custom methods that had been entered
and not yet left, innermost first. Watching changes nothing else, and at the end no method is active. -/
theorem trace_active (evaluation : Evaluation) (depth : Nat) (machine : Machine) :
    (∀ cause trace after, evaluation.start depth machine = some (.error (.failure ⟨cause,trace⟩) after) ↔
      evaluation.watch depth ⟨machine,[]⟩ = some (.error (.failure ⟨cause,trace⟩) ⟨after,[]⟩)) ∧
    (∀ misuse after, evaluation.start depth machine = some (.error (.misuse misuse) after) ↔
      evaluation.watch depth ⟨machine,[]⟩ = some (.error (.misuse misuse) ⟨after,[]⟩)) ∧
    (∀ value after, evaluation.start depth machine = some (.ok value after) ↔
      evaluation.watch depth ⟨machine,[]⟩ = some (.ok value ⟨after,[]⟩)) ∧
    (evaluation.start depth machine = none ↔ evaluation.watch depth ⟨machine,[]⟩ = none) := by
  rw [evaluation.follows_watch depth machine []]
  rcases evaluation.start depth machine with _ | ⟨_ | _⟩ <;> simp [Outcome.watched, Problem.leavingAll_nil]

/-- A class with a method that calls itself in an argument, after a call of a built-in method, and there ends in a call
with one argument too many. -/
def winding : Machine :=
  { Machine.fresh with
    methods := ⟨[(.string,Machine.builtinMethods),(.object ⟨1⟩,⟨[
      ("turn",.custom (.cond (.var 0)
        (.seq [.call "println" (.lit (.string "on")) [],.call "turn" (.var 1) [.call "turn" (.var 1) [.lit (.bool false)]]])
        (.call "stop" (.var 1) [.var 0])) "A.turn" (some 1)),
      ("stop",.custom (.lit .unit) "A.stop" (some 0))]⟩)]⟩ }

example :
    (Evaluation.call (.custom (.call "turn" (.var 0) [.lit (.bool true)]) "A.main" (some 0)) (.object ⟨1⟩ 0) []).watch 9
        ⟨winding,[]⟩ =
      some (.error (.failure ⟨.arity "A.stop" 0 1,["A.turn","A.turn","A.main"]⟩)
        ⟨{ winding with output := "on\n" },[]⟩) := by decide +kernel

end Evaluation

end Mica
