import Mica.Proofs.Register
import Mica.Proofs.Renumbering

/-! # What loading leaves alone

New classes get new numbers, and no value of an evaluation that could have been started before has one of these. So
whatever is loaded into a machine, runs and evaluations that were possible before come to what they came to.

An evaluation that goes too deep is cut off and leaves no machine behind, since how it fails is left open. One that was
cut off before the loading is cut off at the same depth after it.
-/
namespace Mica

/-- What can be seen of an outcome: how the action has ended, and all that has been printed by then. -/
def Outcome.seen {α : Type} : Outcome α → Option (Except Problem α × String)
  | none => none
  | some (.ok value machine) => some (.ok value,machine.output)
  | some (.error problem machine) => some (.error problem,machine.output)

theorem Account.seen_outcome {α : Type} (account : Account α) (machine : Machine) :
    (account.outcome machine).seen = account.map fun told => (told.1,machine.output ++ told.2) := by
  rcases account with _ | ⟨_ | value,text⟩ <;> rfl

theorem Evaluation.seen_start (evaluation : Evaluation) (depth : Nat) (machine : Machine) :
    (evaluation.start depth machine).seen =
      (evaluation.account depth machine).map fun told => (told.1,machine.output ++ told.2) := by
  rw [start_eq, Account.seen_outcome]

theorem ClassDef.mem_of_latest? {cls : ClassDef} {name : String} {method : MethodDef}
    (h : cls.latest? name = some method) : method ∈ cls.methods :=
  List.mem_reverse.1 (List.mem_of_find?_eq_some h)

namespace Machine

/-- The number of a class is not a later one than those that have been given out. -/
def Allocated (machine : Machine) (id : ClassId) : Prop := id.number ≤ machine.classCount

theorem Allocated.mono {machine after : Machine} {id : ClassId} (h : machine.Allocated id)
    (hc : machine.classCount ≤ after.classCount) : after.Allocated id := by
  unfold Allocated at h ⊢
  omega

/-- No object stands in a method of a machine that is of a class without a number. -/
def Confined (machine : Machine) : Prop :=
  ∀ (value : Value) (name : String) (body : Resolved) (owner : String) (arity : Option Int),
    machine.method? value.typeKey name = some (.custom body owner arity) → ∀ literal ∈ body.literals,
      literal.Of machine.Allocated

variable {machine after : Machine} {program : Program} {classes : List (String × ClassId)}

theorem mem_of_lookup_numberedFrom {number : Nat} {classes : List ClassDef} {id : ClassId} {cls : ClassDef}
    (h : (ClassDef.numberedFrom number classes).lookup id = some cls) : cls ∈ classes := by
  obtain ⟨before,rest,hs,_⟩ := List.lookup_eq_some_iff.1 h
  rw [← map_snd_numberedFrom number classes, hs]
  simp

/-- A value has the methods that it had, or it is of a class of the program and had no number before. -/
theorem methods_of_load (hl : load program machine = .ok classes after) (value : Value) :
    after.methods.get? value.typeKey = machine.methods.get? value.typeKey ∨
      ¬ value.Of machine.Allocated ∧ ∃ cls ∈ program.classes, ∃ table, cls.methodTable = .ok table ∧
        after.methods.get? value.typeKey = some table := by
  obtain ⟨staged,hs,_,rfl⟩ := load_eq_ok hl
  cases value with
  | object id identity =>
    rcases get?_foldl_install hs { machine with classCount := machine.classCount + program.classes.length } id with
      ⟨_,hg⟩ | ⟨cls,table,hf,ht,hg⟩
    · exact .inl hg
    · refine .inr ⟨fun hid => ?_,cls,mem_of_lookup_numberedFrom hf,table,ht,hg⟩
      have hle : id.number ≤ machine.classCount := hid
      have hlt : id.number < (machine.classCount + 1 : Nat) := by omega
      rw [ClassDef.lookup_numberedFrom_of_lt hlt] at hf
      cases hf
  | _ => exact .inl (get?_foldl_install_of_ne staged _ rfl)

/-- Values of classes that had a number before have the methods that they had. -/
theorem method?_of_load (hl : load program machine = .ok classes after) {value : Value}
    (hv : value.Of machine.Allocated) (name : String) :
    after.method? value.typeKey name = machine.method? value.typeKey name := by
  rcases methods_of_load hl value with hg | ⟨hn,_⟩
  · rw [method?, method?, hg]
  · exact absurd hv hn

/-- The values in a method of a class stand in its definition already. -/
theorem literals_of_methodTable {cls : ClassDef} {table : MethodTable} (h : cls.methodTable = .ok table) {name : String}
    {body : Resolved} {owner : String} {arity : Option Int} (hg : table.get? name = some (.custom body owner arity)) :
    ∃ method ∈ cls.methods, body.literals = method.body.literals := by
  rcases ClassDef.get?_of_methodTable h name with ⟨_,hn⟩ | ⟨method,custom,hf,hc,hs⟩
  · rw [hn] at hg
    cases hg
  · obtain ⟨code,hr,rfl⟩ := ClassDef.customMethod_eq_ok.1 hc
    rw [hs] at hg
    cases hg
    exact ⟨method,ClassDef.mem_of_latest? hf,Named.literals_of_resolveIn hr⟩

/-- To begin with there are built-in methods only. -/
theorem method?_fresh_ne_custom (value : Value) (name : String) (body : Resolved) (owner : String)
    (arity : Option Int) : fresh.method? value.typeKey name ≠ some (.custom body owner arity) := by
  intro hm
  have hs : value.typeKey = .string := by
    cases value with
    | string text => rfl
    | _ => cases hm
  rw [hs] at hm
  obtain ⟨table,ht,hg⟩ := Option.bind_eq_some_iff.1 hm
  cases ht
  simp only [builtinMethods, Table.get?, Table.findIn] at hg
  split at hg
  · cases hg
  · split at hg <;> cases hg

theorem confined_fresh : fresh.Confined := by
  intro value name body owner arity hm
  exact absurd hm (method?_fresh_ne_custom value name body owner arity)

theorem Confined.of_eq (h : machine.Confined) (hm : after.methods = machine.methods)
    (hc : machine.classCount ≤ after.classCount) : after.Confined := by
  intro value name body owner arity hf literal hl
  rw [method?, hm] at hf
  exact (h value name body owner arity hf literal hl).mono fun id hid => hid.mono hc

theorem Confined.of_load (h : machine.Confined) (hl : load program machine = .ok classes after)
    (hp : ∀ value ∈ program.literals, value.Of after.Allocated) : after.Confined := by
  intro value name body owner arity hf literal hm
  have hcount : machine.classCount ≤ after.classCount := by
    obtain ⟨staged,_,_,rfl⟩ := load_eq_ok hl
    rw [(foldl_install_frame staged _).2.1]
    exact Nat.le_add_right _ _
  rcases methods_of_load hl value with hg | ⟨_,cls,hc,table,ht,hg⟩
  · rw [method?, hg] at hf
    exact (h value name body owner arity hf literal hm).mono fun id hid => hid.mono hcount
  · rw [method?, hg] at hf
    obtain ⟨method,hd,hlit⟩ := literals_of_methodTable ht hf
    rw [hlit] at hm
    exact Program.forall_mem_literals.1 hp cls hc method hd literal hm

end Machine

/-- The machines that come about by evaluating and by loading programs, whether or not that succeeds. An evaluation that
goes too deep leads to none. A program that is loaded holds no object of a class without a number; one that comes from
a text holds no object at all. -/
inductive Rooted : Machine → Prop where
  | fresh : Rooted .fresh
  | load {machine after : Machine} {program : Program} {ending : Except Problem (List (String × ClassId))} :
      Rooted machine → (∀ value ∈ program.literals, value.Of after.Allocated) →
      some (Machine.load program machine) = Outcome.ended ending after → Rooted after
  | evaluation {machine after : Machine} {evaluation : Evaluation} {depth : Nat} {ending : Except Problem Value} :
      Rooted machine → evaluation.start depth machine = Outcome.ended ending after → Rooted after

namespace Rooted

variable {machine after : Machine} {program : Program} {ending : Except Problem (List (String × ClassId))}

theorem grown (h : Rooted machine) : Grown machine := by
  induction h with
  | fresh => exact .fresh
  | load _ _ hl ih => exact ih.load hl
  | evaluation _ he ih => exact ih.evaluation he

theorem confined (h : Rooted machine) : machine.Confined := by
  induction h with
  | fresh => exact Machine.confined_fresh
  | @load machine after program ending _ hp hl ih =>
    cases ending with
    | ok classes => exact ih.of_load (Option.some.inj hl) hp
    | error problem =>
      obtain ⟨before,cls,rest,taken,_,_,_,rfl⟩ := Machine.refused_of_load (Option.some.inj hl)
      exact ih.of_eq rfl (Nat.le_add_right _ _)
  | evaluation _ he ih =>
    obtain ⟨text,_,rfl⟩ := Evaluation.of_start he
    exact ih.of_eq rfl (Nat.le_refl _)

/-- Loading moves no class, and the classes that are there cannot tell the difference. -/
theorem renumbers (h : Rooted machine) (hl : some (Machine.load program machine) = Outcome.ended ending after) :
    Account.Renumbers machine.Allocated id machine.method? after.method? := by
  refine ⟨fun value hv name => ?_,fun value hv name body owner arity hm literal hlit => ?_⟩
  · rw [Value.renumber_id]
    cases ending with
    | ok classes => exact Machine.method?_of_load (Option.some.inj hl) hv name
    | error problem =>
      obtain ⟨before,cls,rest,taken,_,_,_,rfl⟩ := Machine.refused_of_load (Option.some.inj hl)
      rfl
  · exact ⟨h.confined value name body owner arity hm literal hlit,(Value.renumber_id literal).symm⟩

theorem frame (h : Rooted machine) (hl : some (Machine.load program machine) = Outcome.ended ending after) :
    machine.stack = [] ∧ after.stack = [] ∧ after.objectCount = machine.objectCount ∧
      after.output = machine.output := by
  have hs := h.grown.orderly.stack
  cases ending with
  | ok classes =>
    obtain ⟨hstack,hobjects,houtput⟩ := Machine.load_frame (Option.some.inj hl)
    exact ⟨hs,hstack.trans hs,hobjects,houtput⟩
  | error problem =>
    obtain ⟨before,cls,rest,taken,_,_,_,rfl⟩ := Machine.refused_of_load (Option.some.inj hl)
    exact ⟨hs,hs,rfl,rfl⟩

theorem account_expr (h : Rooted machine) (hl : some (Machine.load program machine) = Outcome.ended ending after)
    {expr : Resolved} (he : ∀ value ∈ expr.literals, value.Of machine.Allocated) (depth : Nat) :
    (Evaluation.expr expr).account depth after = (Evaluation.expr expr).account depth machine := by
  obtain ⟨hstack,hstack',_,_⟩ := h.frame hl
  rw [Evaluation.account, Evaluation.account, hstack, hstack']
  have hkept : Account.Kept machine.Allocated id expr :=
    fun value hv => ⟨he value hv,(Value.renumber_id value).symm⟩
  exact (Account.alike_eval (h.renumbers hl) depth Account.movedAll_nil hkept).eq

theorem account_entry (h : Rooted machine) (hl : some (Machine.load program machine) = Outcome.ended ending after)
    {cls : ClassId} (hc : machine.Allocated cls) (depth : Nat) :
    (Evaluation.entry cls).account depth after = (Evaluation.entry cls).account depth machine := by
  have hm := h.renumbers hl
  obtain ⟨hstack,hstack',hobjects,_⟩ := h.frame hl
  have hfound : after.method? (.object cls) Machine.entryMethod = machine.method? (.object cls) Machine.entryMethod :=
    hm.found (.object cls machine.objectCount) hc Machine.entryMethod
  rw [Evaluation.account, Evaluation.account, hfound, hstack, hstack', hobjects]
  cases hf : machine.method? (.object cls) Machine.entryMethod with
  | none => rfl
  | some method =>
    have hthis : Account.Moved machine.Allocated id (.object cls machine.objectCount)
        (.object cls machine.objectCount) := ⟨hc,rfl⟩
    refine ((Account.alike_eval hm depth).invoke Account.movedAll_nil ?_ hthis Account.movedAll_nil).eq
    rintro body owner arity rfl
    exact hm.bodies (.object cls machine.objectCount) hc Machine.entryMethod body owner arity hf

end Rooted

/-- Loading a program, whether or not that succeeds, changes nothing of what was there. Running a class that had a
number before, and evaluating an expression without objects of other classes, ends alike and prints the same. -/
theorem seen_unchanged_by_load {machine after : Machine} {program : Program}
    {ending : Except Problem (List (String × ClassId))} (h : Rooted machine)
    (hl : some (Machine.load program machine) = Outcome.ended ending after) (depth : Nat) :
    (∀ id : ClassId, id.number ≤ machine.classCount →
      (Machine.runClass depth id after).seen = (Machine.runClass depth id machine).seen) ∧
    ∀ expr : Resolved, (∀ value ∈ expr.literals, value.Of fun id => id.number ≤ machine.classCount) →
      (Machine.eval depth expr after).seen = (Machine.eval depth expr machine).seen := by
  obtain ⟨_,_,_,houtput⟩ := h.frame hl
  constructor
  · intro id hid
    change ((Evaluation.entry id).start depth after).seen = ((Evaluation.entry id).start depth machine).seen
    rw [Evaluation.seen_start, Evaluation.seen_start, h.account_entry hl hid, houtput]
  · intro expr he
    change ((Evaluation.expr expr).start depth after).seen = ((Evaluation.expr expr).start depth machine).seen
    rw [Evaluation.seen_start, Evaluation.seen_start, h.account_expr hl he, houtput]

/-- A class whose entry method prints and then calls another of its methods. -/
def hostText : String := "class A \x7b def main = \x7b println \"hi\"; m this \x7d; def m = this; \x7d"

def host : Program :=
  ⟨[⟨"A",[⟨"main",[],.seq [.call "println" (.lit (.string "hi")) [],.call "m" (.var "this") []]⟩,
    ⟨"m",[],.var "this"⟩]⟩]⟩

def hostMachine : Machine :=
  { Machine.fresh.enroll [⟨"A",⟨1⟩,⟨[
      ("main",.custom (.seq [.call "println" (.lit (.string "hi")) [],.call "m" (.var 0) []]) "A.main" (some 0)),
      ("m",.custom (.var 0) "A.m" (some 0))]⟩⟩] with
    classCount := 1 }

/-- Two numbers have been given out to classes that were not loaded. -/
def burntMachine : Machine := { hostMachine with classCount := 3 }

def guest : Program := ⟨[⟨"B",[⟨"main",[],.lit (.string "late")⟩,⟨"m",[],.lit .unit⟩]⟩]⟩

def guestMachine : Machine :=
  { burntMachine.enroll [⟨"B",⟨4⟩,⟨[
      ("main",.custom (.lit (.string "late")) "B.main" (some 0)),("m",.custom (.lit .unit) "B.m" (some 0))]⟩⟩] with
    classCount := 4 }

theorem seen_unchanged_by_load_guest :
    Rooted burntMachine ∧ Machine.load guest burntMachine = .ok [("B",⟨4⟩)] guestMachine ∧
    (Machine.runClass 9 ⟨1⟩ burntMachine).seen = some (.ok (.object ⟨1⟩ 0),"hi\n") ∧
    (Machine.runClass 9 ⟨1⟩ guestMachine).seen = (Machine.runClass 9 ⟨1⟩ burntMachine).seen ∧
    (Machine.runClass 9 ⟨2⟩ guestMachine).seen = (Machine.runClass 9 ⟨2⟩ burntMachine).seen ∧
    (Machine.eval 9 (.call "m" (.lit .unit) []) guestMachine).seen =
      (Machine.eval 9 (.call "m" (.lit .unit) []) burntMachine).seen := by
  have hp : Program.parse hostText = .ok host := by decide +kernel
  have hh : some (Machine.load host .fresh) = Outcome.ended (.ok [("A",⟨1⟩)]) hostMachine := by decide +kernel
  have hb : some (Machine.load faulty hostMachine) =
      Outcome.ended (.error (.failure ⟨.unbound "x",["C.m"]⟩)) burntMachine := by decide +kernel
  have hg : some (Machine.load guest burntMachine) = Outcome.ended (.ok [("B",⟨4⟩)]) guestMachine := by decide +kernel
  have hnone : ∀ value ∈ faulty.literals, value.Of burntMachine.Allocated := List.forall_mem_singleton.2 trivial
  have hr : Rooted burntMachine :=
    (Rooted.fresh.load (fun value hv => (Program.not_object_of_parse hp value hv).mono nofun) hh).load hnone hb
  obtain ⟨hrun,heval⟩ := seen_unchanged_by_load hr hg 9
  refine ⟨hr,Option.some.inj hg,by decide +kernel,hrun ⟨1⟩ (by decide),hrun ⟨2⟩ (by decide),heval _ ?_⟩
  exact List.forall_mem_singleton.2 trivial

end Mica
