import Mica.Proofs.Account
import Mica.Proofs.Requests

/-! # What an evaluation leaves and what it sees

However an evaluation ends, it has only added to the output: the stack holds what it held, and methods and
class names are untouched. This is so of every machine and every expression, sensible or not.

Where every method declares how many arguments it takes and keeps to them, an evaluation sees no more of the
stack than its own frame, and a method no more than its receiver and arguments.
-/
namespace Mica

/-! ## What is left -/

theorem Outcome.ended_inj {α : Type} {ending other : Except Problem α} {machine after : Machine}
    (h : Outcome.ended ending machine = Outcome.ended other after) : ending = other ∧ machine = after := by
  cases ending <;> cases other <;> simp_all [Outcome.ended]

theorem Account.of_outcome_eq_ended {α : Type} {account : Account α} {ending : Except Problem α}
    {machine after : Machine} (h : account.outcome machine = Outcome.ended ending after) :
    ∃ text, account = some (ending,text) ∧ after = machine.print text := by
  cases account with
  | none => cases ending <;> cases h
  | some told =>
    obtain ⟨found,text⟩ := told
    obtain ⟨rfl,rfl⟩ := Outcome.ended_inj h
    exact ⟨text,rfl,rfl⟩

/-- The ways of starting an evaluation on a machine. -/
inductive Evaluation where
  | expr (code : Resolved)
  | call (method : Method) (this : Value) (args : List Value)
  | entry (id : ClassId)

namespace Evaluation

def start (depth : Nat) : Evaluation → Action Value
  | expr code => Machine.eval depth code
  | call method this args => Machine.invoke depth method this args
  | entry id => Machine.runClass depth id

/-- What the evaluation comes to, from what it finds in a machine. -/
def account (depth : Nat) (machine : Machine) : Evaluation → Account Value
  | expr code => Account.eval machine.method? depth machine.stack code
  | call method this args =>
    Account.invoke (Account.eval machine.method? depth) machine.stack method this args
  | entry id =>
    match machine.method? (.object id) Machine.entryMethod with
    | none => Account.fail .noEntryMethod
    | some method =>
      Account.invoke (Account.eval machine.method? depth) machine.stack method
        (.object id machine.objectCount) []

/-- How many objects the evaluation makes. -/
def objects (machine : Machine) : Evaluation → Nat
  | entry id => if (machine.method? (.object id) Machine.entryMethod).isSome then 1 else 0
  | _ => 0

theorem start_eq (evaluation : Evaluation) (depth : Nat) (machine : Machine) :
    evaluation.start depth machine = (evaluation.account depth machine).outcome
      { machine with objectCount := machine.objectCount + evaluation.objects machine } := by
  have hp (before : Machine) : before = before.print "" := (Machine.print_empty before).symm
  cases evaluation with
  | expr code =>
    have h := Machine.told_eval depth machine code ""
    rwa [← hp machine] at h
  | call method this args =>
    have h := (Machine.told_eval depth).invoke machine method this args ""
    rwa [← hp machine] at h
  | entry id =>
    cases hm : machine.method? (.object id) Machine.entryMethod with
    | none =>
      have h : Account.Foretells (Account.fail .noEntryMethod : Account Value) (Action.fail .noEntryMethod) machine :=
        Account.foretells_fail .noEntryMethod
      replace h := h ""
      rw [← hp machine] at h
      simpa [start, account, objects, hm, Machine.runClass_of_noMethod] using h
    | some method =>
      have h := (Machine.told_eval depth).invoke { machine with objectCount := machine.objectCount + 1 } method
        (.object id machine.objectCount) [] ""
      rw [← hp] at h
      simp only [start, account, objects, hm, Machine.runClass_of_method hm, Option.isSome_some, if_true]
      exact h

theorem of_start {evaluation : Evaluation} {depth : Nat} {machine after : Machine} {ending : Except Problem Value}
    (h : evaluation.start depth machine = Outcome.ended ending after) :
    ∃ text, evaluation.account depth machine = some (ending,text) ∧
      after = { machine with
        objectCount := machine.objectCount + evaluation.objects machine
        output := machine.output ++ text } := by
  rw [start_eq] at h
  exact Account.of_outcome_eq_ended h

/-- However an evaluation ends, with a value, a failure or a misuse, the stack holds the same values in the same
order as before, the methods, the class names and the number of classes are unchanged, and the output is the
earlier output with the text after it that the evaluation has printed by then. -/
theorem ended_unchanged {evaluation : Evaluation} {depth : Nat} {machine after : Machine}
    {ending : Except Problem Value} (h : evaluation.start depth machine = Outcome.ended ending after) :
    after.stack = machine.stack ∧ after.methods = machine.methods ∧ after.classNames = machine.classNames ∧
      after.classCount = machine.classCount ∧
      ∃ text, evaluation.account depth machine = some (ending,text) ∧ after.output = machine.output ++ text := by
  obtain ⟨text,ha,rfl⟩ := of_start h
  exact ⟨rfl,rfl,rfl,rfl,text,ha,rfl⟩

/-- A machine that no program leads to: the stack is not empty, one method takes any number of arguments and
reaches below its frame, and another is no method at all. -/
def clutter : Machine :=
  { Machine.fresh with
    methods := ⟨[(.string,Machine.builtinMethods),(.unit,⟨[
      ("peek",.custom (.seq [.call "println" (.var 1) [],.call "odd" (.lit .unit) [.var 9]]) "Unit.peek" none),
      ("odd",.stray "odd")]⟩)]⟩
    stack := [.bool true,.unit]
    output := "earlier\n" }

theorem ended_unchanged_clutter :
    (Evaluation.expr (.letIn () (.lit (.string "inner")) (.call "peek" (.lit .unit) []))).start 6 clutter =
      Outcome.ended (.error (.failure ⟨.indexRange 9 4,["Unit.peek"]⟩))
        { clutter with output := "earlier\ninner\n" } ∧
    ∃ text, (Evaluation.expr (.letIn () (.lit (.string "inner")) (.call "peek" (.lit .unit) []))).account 6 clutter =
      some (.error (.failure ⟨.indexRange 9 4,["Unit.peek"]⟩),text) ∧ "earlier\ninner\n" = "earlier\n" ++ text := by
  have h : (Evaluation.expr (.letIn () (.lit (.string "inner")) (.call "peek" (.lit .unit) []))).start 6 clutter =
      Outcome.ended (.error (.failure ⟨.indexRange 9 4,["Unit.peek"]⟩))
        { clutter with output := "earlier\ninner\n" } := by decide +kernel
  exact ⟨h,(ended_unchanged h).2.2.2.2⟩

end Evaluation

/-! ## What is seen -/

/-- A custom method that declares how many arguments it takes, and refers to them and to the receiver only. -/
def Method.Closed : Method → Prop
  | .custom body _ arity => ∃ count : Int, arity = some count ∧ Resolved.WellScoped (count + 1).toNat body
  | _ => True

theorem Method.Sound.closed {type : TypeKey} {method : Method} (h : method.Sound type) : method.Closed := by
  cases method with
  | custom body owner arity =>
    obtain ⟨count,rfl,hb⟩ := h
    exact ⟨count,rfl,hb⟩
  | builtin method => trivial
  | stray text => trivial

namespace Account

/-- On a well-scoped expression, what is told does not depend on what lies below the frame. -/
def Teller.Blind (tell : Teller) : Prop :=
  ∀ ⦃frame : List Value⦄ ⦃expr : Resolved⦄, Resolved.WellScoped frame.length expr →
    ∀ below other, tell (frame ++ below) expr = tell (frame ++ other) expr

variable {tell : Teller} {frame : List Value}

theorem Teller.Blind.all (h : tell.Blind) {exprs : List Resolved}
    (he : ∀ expr ∈ exprs, Resolved.WellScoped frame.length expr) (below other : List Value) :
    all (tell (frame ++ below)) exprs = all (tell (frame ++ other)) exprs := by
  induction exprs with
  | nil => rfl
  | cons expr exprs ih =>
    obtain ⟨hf,hr⟩ := List.forall_mem_cons.1 he
    rw [Account.all, Account.all, h hf below other, ih hr]

theorem Teller.Blind.sequence (h : tell.Blind) {steps : List Resolved}
    (he : ∀ step ∈ steps, Resolved.WellScoped frame.length step) (value : Value) (below other : List Value) :
    sequence (tell (frame ++ below)) value steps = sequence (tell (frame ++ other)) value steps := by
  induction steps generalizing value with
  | nil => rfl
  | cons step steps ih =>
    obtain ⟨hf,hr⟩ := List.forall_mem_cons.1 he
    rw [Account.sequence, Account.sequence, h hf below other]
    exact congrArg _ (funext fun value => ih hr value)

theorem slot_append {position : Nat} (h : position < frame.length) (below : List Value) :
    slot (frame ++ below) position = pure frame[position] := by
  have hs : (frame ++ below)[position]? = some frame[position] := by
    rw [List.getElem?_append_left h, List.getElem?_eq_getElem h]
  change slot (frame ++ below) (Int.ofNat position) = _
  simp only [slot, hs]

/-- The arity check is what keeps a body from reaching what its caller has on the stack. -/
theorem Teller.Blind.invoke (h : tell.Blind) {method : Method} (hm : method.Closed) (this : Value)
    (args below other : List Value) : invoke tell below method this args = invoke tell other method this args := by
  cases method with
  | builtin method => rfl
  | stray text => rfl
  | custom body owner arity =>
    obtain ⟨count,rfl,hb⟩ := hm
    by_cases hc : (args.length : Int) = count
    · -- the new frame has exactly the slots that the body refers to
      have hl : (count + 1).toNat = (this :: args).reverse.length := by
        rw [List.length_reverse, List.length_cons]
        omega
      rw [hl] at hb
      rw [Account.invoke, Account.invoke, h hb below other]
    · simp only [Account.invoke, checkArity, if_neg hc]
      rfl

theorem Teller.Blind.step {methods : Methods} (h : tell.Blind)
    (hm : ∀ type name method, methods type name = some method → method.Closed) :
    Teller.Blind (Account.step methods tell) := by
  intro frame expr he below other
  cases he with
  | lit value => rfl
  | call hr ha =>
    rw [Account.step, Account.step, h hr below other, h.all ha below other]
    refine congrArg _ (funext fun this => ?_)
    cases hf : methods this.typeKey _ with
    | none => rfl
    | some method =>
      dsimp only
      refine congrArg _ (funext fun args => ?_)
      exact h.invoke (hm _ _ _ hf) this args (frame ++ below) (frame ++ other)
  | var hp => rw [Account.step, Account.step, slot_append hp, slot_append hp]
  | letIn hb hd =>
    rw [Account.step, Account.step, h hb below other]
    refine congrArg _ (funext fun value => ?_)
    exact @h (value :: frame) _ hd below other
  | cond ht hy hn => rw [Account.step, Account.step, h ht below other, h hy below other, h hn below other]
  | seq hs => exact h.sequence hs .unit below other

theorem blind_eval {methods : Methods} (hm : ∀ type name method, methods type name = some method → method.Closed)
    (depth : Nat) : Teller.Blind (eval methods depth) := by
  induction depth with
  | zero => exact fun _ _ _ _ _ => rfl
  | succ depth ih => exact ih.step hm

end Account

/-- The same outcome with another stack in the machine that is left. -/
def Outcome.onStack {α : Type} (stack : List Value) : Outcome α → Outcome α
  | some (.ok value machine) => some (.ok value { machine with stack })
  | some (.error problem machine) => some (.error problem { machine with stack })
  | none => none

theorem Account.outcome_onStack {α : Type} (account : Account α) (machine : Machine) (stack : List Value) :
    account.outcome { machine with stack } = (account.outcome machine).onStack stack := by
  rcases account with _ | ⟨_ | value,text⟩ <;> rfl

theorem Evaluation.start_onStack (evaluation : Evaluation) {depth : Nat} {machine : Machine} {stack other : List Value}
    (h : evaluation.account depth { machine with stack := other } = evaluation.account depth { machine with stack }) :
    evaluation.start depth { machine with stack := other } =
      (evaluation.start depth { machine with stack }).onStack other := by
  rw [start_eq, start_eq, h, ← Account.outcome_onStack]
  cases evaluation <;> rfl

/-- A frame cannot see below itself. In a machine whose methods are all closed, a well-scoped expression has the
same outcome, with the same text printed, whatever lies on the stack below its frame; and so has a closed method
on any receiver and any number of arguments, whatever its caller has on the stack. -/
theorem outcome_below {machine : Machine}
    (hm : ∀ type name method, machine.method? type name = some method → method.Closed) (below other : List Value)
    (depth : Nat) :
    (∀ (frame : List Value) (expr : Resolved), Resolved.WellScoped frame.length expr →
      Machine.eval depth expr { machine with stack := frame ++ other } =
        (Machine.eval depth expr { machine with stack := frame ++ below }).onStack (frame ++ other)) ∧
    ∀ (method : Method) (this : Value) (args : List Value), method.Closed →
      Machine.invoke depth method this args { machine with stack := other } =
        (Machine.invoke depth method this args { machine with stack := below }).onStack other := by
  have hb := Account.blind_eval hm depth
  constructor
  · intro frame expr he
    exact (Evaluation.expr expr).start_onStack (hb he other below)
  · intro method this args hc
    exact (Evaluation.call method this args).start_onStack (hb.invoke hc this args other below)

/-- A class whose methods call each other with an argument half evaluated and a binding around it. -/
def nestingText : String :=
  "class A \x7b def pick x y = concat x y; def twice x = pick this x (let z = x in concat z \"!\"); \x7d"

def nesting : Machine :=
  { Machine.fresh with
    methods := ⟨[(.string,Machine.builtinMethods),(.object ⟨1⟩,⟨[
      ("pick",.custom (.call "concat" (.var 1) [.var 0]) "A.pick" (some 2)),
      ("twice",.custom (.call "pick" (.var 1) [.var 0,
        .letIn () (.var 0) (.call "concat" (.var 0) [.lit (.string "!")])]) "A.twice" (some 1))]⟩)]⟩
    classNames := ⟨[(⟨1⟩,"A")]⟩
    classCount := 1 }

theorem outcome_below_nesting :
    (∀ type name method, nesting.method? type name = some method → method.Closed) ∧
    Resolved.WellScoped 2 (.call "twice" (.var 1) [.var 0]) ∧
    Machine.eval 6 (.call "twice" (.var 1) [.var 0]) { nesting with stack := [.string "a",.object ⟨1⟩ 0] ++ [] } =
      some (.ok (.string "aa!") { nesting with stack := [.string "a",.object ⟨1⟩ 0] }) ∧
    Machine.eval 6 (.call "twice" (.var 1) [.var 0])
        { nesting with stack := [.string "a",.object ⟨1⟩ 0] ++ [.unit,.bool true] } =
      (Machine.eval 6 (.call "twice" (.var 1) [.var 0])
        { nesting with stack := [.string "a",.object ⟨1⟩ 0] ++ [] }).onStack
          ([.string "a",.object ⟨1⟩ 0] ++ [.unit,.bool true]) := by
  have hl : (Request.submit nestingText).perform 5 .fresh = some (.ok (.loaded [("A",⟨1⟩)]) nesting) := by
    decide +kernel
  have hm (type : TypeKey) (name : String) (method : Method) (hf : nesting.method? type name = some method) :
      method.Closed := ((Reachable.fresh.ok hl).sound type name method hf).closed
  have hw : Resolved.WellScoped 2 (.call "twice" (.var 1) [.var 0]) :=
    .call (.var (by decide)) (by simpa using .var (by decide))
  exact ⟨hm,hw,by decide +kernel,(outcome_below hm [] [.unit,.bool true] 6).1 [.string "a",.object ⟨1⟩ 0] _ hw⟩

end Mica
