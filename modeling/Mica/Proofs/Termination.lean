import Mathlib.Order.WellFounded
import Mica.Proofs.Frames

/-! # Termination

Evaluating an expression evaluates its parts, but a call also goes on with the body of a method, which is found by the
type of the receiver and may be larger than the caller. Where the names that a body calls all have a smaller rank than
the name it is found under, this cannot go on forever: every evaluation ends. How deep it goes depends on the methods
and on what is evaluated, and not on what the stack holds.
-/
namespace Mica

/-! ## Names that are called -/

namespace Expr

variable {β ρ : Type}

mutual

/-- The names of the methods that are called anywhere in an expression. -/
def calls : Expr β ρ → List String
  | lit _ => []
  | call name receiver args => name :: (calls receiver ++ callsAll args)
  | var _ => []
  | letIn _ bound body => calls bound ++ calls body
  | cond test yes no => calls test ++ (calls yes ++ calls no)
  | seq steps => callsAll steps
  | stray _ => []

def callsAll : List (Expr β ρ) → List String
  | [] => []
  | expr :: exprs => calls expr ++ callsAll exprs

end

theorem forall_mem_callsAll {P : String → Prop} {exprs : List (Expr β ρ)} :
    (∀ name ∈ callsAll exprs, P name) ↔ ∀ expr ∈ exprs, ∀ name ∈ expr.calls, P name := by
  induction exprs with
  | nil => simp [callsAll]
  | cons expr exprs ih => rw [callsAll, List.forall_mem_append, List.forall_mem_cons, ih]

end Expr

/-- The names that the body of a custom method calls. -/
def Method.calls : Method → List String
  | .custom body _ _ => body.calls
  | _ => []

/-! ## Accounts that settle -/

namespace Account

variable {α β : Type} {bound more : Nat}

/-- From some depth on nothing is cut off, and the account stays the same however deep the evaluation may go. -/
def SettledFrom (bound : Nat) (account : Nat → Account α) : Prop :=
  ∃ told, ∀ depth, bound ≤ depth → account depth = some told

theorem SettledFrom.mono {account : Nat → Account α} (h : SettledFrom bound account) (hb : bound ≤ more) :
    SettledFrom more account := by
  obtain ⟨told,ht⟩ := h
  exact ⟨told,fun depth hd => ht depth (hb.trans hd)⟩

theorem settledFrom_pure (value : α) : SettledFrom bound fun _ => (pure value : Account α) :=
  ⟨(.ok value,""),fun _ _ => rfl⟩

theorem settledFrom_raise (problem : Problem) : SettledFrom bound fun _ => (raise problem : Account α) :=
  ⟨(.error problem,""),fun _ _ => rfl⟩

theorem settledFrom_fail (cause : Cause) : SettledFrom bound fun _ => (fail cause : Account α) :=
  settledFrom_raise (.ofCause cause)

theorem SettledFrom.bind {account : Nat → Account α} {follow : Nat → α → Account β} (h : SettledFrom bound account)
    (hf : ∀ value, SettledFrom bound fun depth => follow depth value) :
    SettledFrom bound fun depth => account depth >>= follow depth := by
  obtain ⟨⟨ending,text⟩,ht⟩ := h
  have hbind (depth : Nat) (hd : bound ≤ depth) :
      (account depth >>= follow depth) = Account.bind (some (ending,text)) (follow depth) :=
    congrArg (Account.bind · (follow depth)) (ht depth hd)
  cases ending with
  | error problem => exact ⟨(.error problem,text),hbind⟩
  | ok value =>
    obtain ⟨⟨ending,rest⟩,hr⟩ := hf value
    refine ⟨(ending,text ++ rest),fun depth hd => (hbind depth hd).trans ?_⟩
    have hnext : follow depth value = some (ending,rest) := hr depth hd
    simp only [Account.bind, hnext]
    rfl

theorem SettledFrom.within {account : Nat → Account α} (h : SettledFrom bound account) (owner : String) :
    SettledFrom bound fun depth => (account depth).within owner := by
  obtain ⟨⟨ending,text⟩,ht⟩ := h
  have hwithin (depth : Nat) (hd : bound ≤ depth) :
      (account depth).within owner = Account.within owner (some (ending,text)) :=
    congrArg (Account.within owner) (ht depth hd)
  cases ending with
  | error problem => exact ⟨(.error (problem.leaving owner),text),hwithin⟩
  | ok value => exact ⟨(.ok value,text),hwithin⟩

theorem settledFrom_slot (stack : List Value) (position : Int) : SettledFrom bound fun _ => slot stack position := by
  unfold slot
  split
  · split
    · exact settledFrom_pure _
    · exact settledFrom_fail _
  · exact settledFrom_fail _

theorem settledFrom_builtin (method : Builtin) (this : Value) (args : List Value) :
    SettledFrom bound fun _ => builtin method this args := by
  unfold builtin
  split
  · exact ⟨_,fun _ _ => rfl⟩
  · exact settledFrom_fail _

theorem settledFrom_checkArity (owner : String) (arity : Option Int) (given : Nat) :
    SettledFrom bound fun _ => checkArity owner arity given := by
  unfold checkArity
  split
  · split
    · exact settledFrom_pure ()
    · exact settledFrom_fail _
  · exact settledFrom_pure ()

theorem settledFrom_all {tell : Nat → Resolved → Account Value} {exprs : List Resolved}
    (h : ∀ expr ∈ exprs, SettledFrom bound fun depth => tell depth expr) :
    SettledFrom bound fun depth => all (tell depth) exprs := by
  induction exprs with
  | nil => exact settledFrom_pure []
  | cons expr exprs ih =>
    obtain ⟨hf,hr⟩ := List.forall_mem_cons.1 h
    exact hf.bind fun _ => (ih hr).bind fun _ => settledFrom_pure _

theorem settledFrom_sequence {tell : Nat → Resolved → Account Value} {steps : List Resolved}
    (h : ∀ step ∈ steps, SettledFrom bound fun depth => tell depth step) (value : Value) :
    SettledFrom bound fun depth => sequence (tell depth) value steps := by
  induction steps generalizing value with
  | nil => exact settledFrom_pure value
  | cons step steps ih =>
    obtain ⟨hf,hr⟩ := List.forall_mem_cons.1 h
    exact hf.bind fun value => ih hr value

/-! ## How deep an evaluation goes -/

variable {methods : Methods}

/-- A depth that is enough to evaluate an expression on every stack. -/
def Suffices (methods : Methods) (bound : Nat) (expr : Resolved) : Prop :=
  ∀ stack, SettledFrom bound fun depth => eval methods depth stack expr

/-- A depth that is enough to run a method on every stack, receiver and arguments. -/
def SufficesFor (methods : Methods) (bound : Nat) (method : Method) : Prop :=
  ∀ stack this args, SettledFrom bound fun depth => invoke (eval methods depth) stack method this args

/-- A depth that is enough to run whatever method is found under a name. -/
def SufficesUnder (methods : Methods) (bound : Nat) (name : String) : Prop :=
  ∀ type method, methods type name = some method → SufficesFor methods bound method

/-- One depth is enough for all members of a list if there is one for each. -/
theorem exists_forall_mem {γ : Type} {enough : Nat → γ → Prop} {members : List γ}
    (hmono : ∀ {bound more member}, enough bound member → bound ≤ more → enough more member)
    (h : ∀ member ∈ members, ∃ bound, enough bound member) : ∃ bound, ∀ member ∈ members, enough bound member := by
  induction members with
  | nil => exact ⟨0,List.forall_mem_nil _⟩
  | cons member members ih =>
    obtain ⟨⟨first,hf⟩,hr⟩ := List.forall_mem_cons.1 h
    obtain ⟨rest,hs⟩ := ih hr
    refine ⟨first + rest,List.forall_mem_cons.2 ⟨hmono hf (Nat.le_add_right _ _),fun other ho => ?_⟩⟩
    exact hmono (hs other ho) (Nat.le_add_left _ _)

theorem exists_suffices_all {exprs : List Resolved} (h : ∀ expr ∈ exprs, ∃ bound, Suffices methods bound expr) :
    ∃ bound, ∀ expr ∈ exprs, Suffices methods bound expr :=
  exists_forall_mem (fun hs hb stack => (hs stack).mono hb) h

/-- One step of evaluation goes one deeper than what it evaluates. -/
theorem suffices_succ {expr : Resolved}
    (h : ∀ stack, SettledFrom bound fun depth => step methods (eval methods depth) stack expr) :
    Suffices methods (bound + 1) expr := by
  intro stack
  obtain ⟨told,ht⟩ := h stack
  refine ⟨told,fun depth hd => ?_⟩
  cases depth with
  | zero => omega
  | succ depth => exact ht depth (Nat.le_of_succ_le_succ hd)

/-- An expression goes only as deep as it is nested, and in its calls as deep as the methods that it may find there. -/
theorem exists_suffices {expr : Resolved} (h : ∀ name ∈ expr.calls, ∃ bound, SufficesUnder methods bound name) :
    ∃ bound, Suffices methods bound expr := by
  induction expr using Expr.induct with
  | lit value => exact ⟨1,suffices_succ fun _ => settledFrom_pure value⟩
  | call name receiver args hr ha =>
    obtain ⟨⟨inside,hi⟩,hrest⟩ := List.forall_mem_cons.1 h
    obtain ⟨hreceiver,hargs⟩ := List.forall_mem_append.1 hrest
    obtain ⟨first,hf⟩ := hr hreceiver
    obtain ⟨others,ho⟩ := exists_suffices_all fun arg hm => ha arg hm (Expr.forall_mem_callsAll.1 hargs arg hm)
    refine ⟨first + others + inside + 1,suffices_succ fun stack => ?_⟩
    refine ((hf stack).mono (by omega)).bind fun this => ?_
    cases hm : methods this.typeKey name with
    | none => exact settledFrom_fail _
    | some method =>
      refine (settledFrom_all fun arg ha => (ho arg ha stack).mono (by omega)).bind fun args => ?_
      exact (hi _ _ hm stack this args).mono (by omega)
  | var position => exact ⟨1,suffices_succ fun stack => settledFrom_slot stack position⟩
  | letIn binder bound body hb hd =>
    obtain ⟨hbound,hbody⟩ := List.forall_mem_append.1 h
    obtain ⟨first,hf⟩ := hb hbound
    obtain ⟨rest,hr⟩ := hd hbody
    refine ⟨first + rest + 1,suffices_succ fun stack => ?_⟩
    have hfirst := (hf stack).mono (Nat.le_add_right first rest)
    exact hfirst.bind fun value => (hr (value :: stack)).mono (Nat.le_add_left rest first)
  | cond test yes no ht hy hn =>
    obtain ⟨htest,hbranches⟩ := List.forall_mem_append.1 h
    obtain ⟨hyes,hno⟩ := List.forall_mem_append.1 hbranches
    obtain ⟨first,hf⟩ := ht htest
    obtain ⟨left,hl⟩ := hy hyes
    obtain ⟨right,hr⟩ := hn hno
    refine ⟨first + left + right + 1,suffices_succ fun stack => ?_⟩
    refine ((hf stack).mono (by omega)).bind fun value => ?_
    cases value with
    | bool flag =>
      cases flag with
      | true => exact (hl stack).mono (by omega)
      | false => exact (hr stack).mono (by omega)
    | _ => exact settledFrom_fail _
  | seq steps hs =>
    obtain ⟨bound,hb⟩ := exists_suffices_all fun step hm => hs step hm (Expr.forall_mem_callsAll.1 h step hm)
    exact ⟨bound + 1,suffices_succ fun stack => settledFrom_sequence (fun step hm => hb step hm stack) .unit⟩
  | stray text => exact ⟨1,suffices_succ fun _ => settledFrom_raise _⟩

theorem exists_sufficesFor {method : Method} (h : ∀ name ∈ method.calls, ∃ bound, SufficesUnder methods bound name) :
    ∃ bound, SufficesFor methods bound method := by
  cases method with
  | builtin method => exact ⟨0,fun _ this args => settledFrom_builtin method this args⟩
  | custom body owner arity =>
    obtain ⟨bound,hb⟩ := exists_suffices h
    refine ⟨bound,fun stack this args => ?_⟩
    exact (settledFrom_checkArity owner arity args.length).bind fun _ => (hb _).within owner
  | stray text => exact ⟨0,fun _ _ _ => settledFrom_raise _⟩

/-- Where names have ranks, there is for each name a depth that is enough for whatever is found under it. -/
theorem exists_sufficesUnder {Rank : Type*} [LT Rank] [WellFoundedLT Rank] {rank : String → Rank} {types : List TypeKey}
    (ht : ∀ type name method, methods type name = some method → type ∈ types)
    (hr : ∀ type name method, methods type name = some method → ∀ called ∈ method.calls, rank called < rank name)
    (name : String) : ∃ bound, SufficesUnder methods bound name := by
  -- by induction on the rank: what a body calls has a smaller one, and the bodies under a name are as few as the types
  induction hn : rank name using WellFoundedLT.induction generalizing name with
  | ind level ih =>
    subst hn
    have hfound : ∀ type ∈ types, ∃ bound, ∀ method, methods type name = some method →
        SufficesFor methods bound method := by
      intro type _
      cases hm : methods type name with
      | none => exact ⟨0,fun method h => by cases h⟩
      | some method =>
        have hcalled : ∀ called ∈ method.calls, ∃ bound, SufficesUnder methods bound called :=
          fun called hc => ih (rank called) (hr type name method hm called hc) called rfl
        obtain ⟨bound,hb⟩ := exists_sufficesFor hcalled
        exact ⟨bound,fun _ h => Option.some.inj h ▸ hb⟩
    obtain ⟨bound,hb⟩ := exists_forall_mem
      (fun hs hb method hm stack this args => (hs method hm stack this args).mono hb) hfound
    exact ⟨bound,fun type method hm => hb type (ht type name method hm) method hm⟩

end Account

/-! ## Ranked machines -/

namespace Machine

variable {Rank : Type*} [LT Rank] {rank : String → Rank} {machine : Machine}

/-- Each method calls only names of a smaller rank than that of the name it is found under. -/
def Ranked (machine : Machine) (rank : String → Rank) : Prop :=
  ∀ type name method, machine.method? type name = some method → ∀ called ∈ method.calls, rank called < rank name

theorem mem_of_method? {type : TypeKey} {name : String} {method : Method} (h : machine.method? type name = some method) :
    ∃ table, (type,table) ∈ machine.methods.entries ∧ (name,method) ∈ table.entries := by
  obtain ⟨table,ht,hm⟩ := Option.bind_eq_some_iff.1 h
  exact ⟨table,Table.mem_entries_of_get? ht,Table.mem_entries_of_get? hm⟩

/-- Ranks can be checked table by table. -/
theorem ranked_of_entries (h : ∀ tabled ∈ machine.methods.entries, ∀ named ∈ tabled.2.entries,
    ∀ called ∈ named.2.calls, rank called < rank named.1) : machine.Ranked rank := by
  intro type name method hm
  obtain ⟨table,ht,hn⟩ := mem_of_method? hm
  exact h _ ht _ hn

theorem Ranked.exists_sufficesUnder [WellFoundedLT Rank] (h : machine.Ranked rank) (name : String) :
    ∃ bound, Account.SufficesUnder machine.method? bound name := by
  have htypes : ∀ type name method, machine.method? type name = some method → type ∈ machine.methods.keys := by
    intro type name method hm
    obtain ⟨table,ht,_⟩ := mem_of_method? hm
    exact List.mem_map.2 ⟨_,ht,rfl⟩
  exact Account.exists_sufficesUnder htypes h name

end Machine

namespace Evaluation

theorem exists_settledFrom {machine : Machine} (h : ∀ name, ∃ bound, Account.SufficesUnder machine.method? bound name)
    (evaluation : Evaluation) :
    ∃ bound, ∀ stack, Account.SettledFrom bound fun depth => evaluation.account depth { machine with stack } := by
  cases evaluation with
  | expr code => exact Account.exists_suffices fun name _ => h name
  | call method this args =>
    have hmethod : ∃ bound, Account.SufficesFor machine.method? bound method :=
      Account.exists_sufficesFor fun name _ => h name
    obtain ⟨bound,hb⟩ := hmethod
    exact ⟨bound,fun stack => hb stack this args⟩
  | entry id =>
    obtain ⟨bound,hb⟩ := h Machine.entryMethod
    refine ⟨bound,fun stack => ?_⟩
    have hsame : { machine with stack }.method? (.object id) Machine.entryMethod =
      machine.method? (.object id) Machine.entryMethod := rfl
    simp only [account, hsame]
    cases hm : machine.method? (.object id) Machine.entryMethod with
    | none => exact Account.settledFrom_fail _
    | some method => exact hb _ _ hm stack _ _

theorem ended_of_settledFrom {evaluation : Evaluation} {machine : Machine} {bound : Nat}
    (h : Account.SettledFrom bound fun depth => evaluation.account depth machine) :
    ∃ ending after, ∀ depth, bound ≤ depth → evaluation.start depth machine = Outcome.ended ending after := by
  obtain ⟨⟨ending,text⟩,ht⟩ := h
  have hended (depth : Nat) (hd : bound ≤ depth) : evaluation.start depth machine = Outcome.ended ending
      ({ machine with objectCount := machine.objectCount + evaluation.objects machine }.print text) := by
    rw [start_eq]
    exact congrArg (Account.outcome · _) (ht depth hd)
  exact ⟨ending,_,hended⟩

/-- Without recursion everything ends. If the method names of a machine have ranks, in any well-founded order, such that
every method calls only names of a smaller rank than its own, then each evaluation of an expression, call of a method and
run of a class ends with a value or a problem. There is a depth from which on it does so on every stack. -/
theorem ends_of_ranked {Rank : Type*} [LT Rank] [WellFoundedLT Rank] {rank : String → Rank} {machine : Machine}
    (h : machine.Ranked rank) (evaluation : Evaluation) :
    ∃ bound, ∀ stack, ∃ ending after, ∀ depth, bound ≤ depth →
      evaluation.start depth { machine with stack } = Outcome.ended ending after := by
  obtain ⟨bound,hb⟩ := evaluation.exists_settledFrom h.exists_sufficesUnder
  exact ⟨bound,fun stack => ended_of_settledFrom (hb stack)⟩

/-- Two classes that share a method name. A method of the first one ends in a failure the second time it is called. -/
def layers : Machine :=
  { Machine.fresh with
    methods := ⟨[(.string,Machine.builtinMethods),
      (.object ⟨1⟩,⟨[
        ("main",.custom (.seq [.call "walk" (.var 0) [.lit (.bool true)],.call "walk" (.var 0) [.lit (.bool false)]])
          "A.main" (some 0)),
        ("walk",.custom (.cond (.var 0) (.seq [.call "println" (.lit (.string "up")) []])
          (.seq [.call "stop" (.var 0) []])) "A.walk" (some 1))]⟩),
      (.object ⟨2⟩,⟨[
        ("walk",.custom (.call "stop" (.var 0) []) "B.walk" (some 0)),
        ("stop",.custom (.lit .unit) "B.stop" (some 0))]⟩)]⟩
    classNames := ⟨[(⟨1⟩,"A"),(⟨2⟩,"B")]⟩
    classCount := 2 }

def layer (name : String) : Nat := ["println","stop","walk","main"].idxOf name

/-- The second machine has no custom methods at all. -/
theorem ends_of_ranked_layers :
    layers.Ranked layer ∧
    (∃ bound, ∀ stack, ∃ ending after, ∀ depth, bound ≤ depth →
      (Evaluation.entry ⟨1⟩).start depth { layers with stack } = Outcome.ended ending after) ∧
    (Evaluation.entry ⟨1⟩).start 9 layers =
      Outcome.ended (.error (.failure ⟨.noSuchMethod .bool "stop",["A.walk","A.main"]⟩))
        { layers with objectCount := 1, output := "up\n" } ∧
    Machine.fresh.Ranked layer ∧
    ∃ bound, ∀ stack, ∃ ending after, ∀ depth, bound ≤ depth →
      (Evaluation.expr (.call "concat" (.var 0) [.call "main" (.var 1) []])).start depth { Machine.fresh with stack } =
        Outcome.ended ending after := by
  have hlayers : layers.Ranked layer := Machine.ranked_of_entries (by decide +kernel)
  have hfresh : Machine.fresh.Ranked layer := Machine.ranked_of_entries (by decide +kernel)
  exact ⟨hlayers,ends_of_ranked hlayers _,by decide +kernel,hfresh,ends_of_ranked hfresh _⟩

end Evaluation

end Mica
