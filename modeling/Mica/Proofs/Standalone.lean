import Mica.Proofs.Grammar.Joining
import Mica.Proofs.Growth

/-! # Expressions as programs

An expression can be submitted by itself, or a program can be written around it that has it as the body of its entry
method. The two differ only in what surrounds the expression: an object on the stack that no variable refers to, and a
class that no value is of. So they come to the same, except that a failure of the program has left the method.
-/
namespace Mica

namespace Named

variable {scope : Scope} {code : Resolved}

theorem resolveAll_append {exprs : List Named} {codes : List Resolved} (more : Scope)
    (h : ∀ expr ∈ exprs, ∀ code, resolveIn expr scope = .ok code → resolveIn expr (scope ++ more) = .ok code)
    (hs : List.Forall₂ (fun expr code => resolveIn expr scope = .ok code) exprs codes) :
    List.Forall₂ (fun expr code => resolveIn expr (scope ++ more) = .ok code) exprs codes := by
  induction hs with
  | nil => exact .nil
  | cons hf _ ih =>
    obtain ⟨he,hr⟩ := List.forall_mem_cons.1 h
    exact .cons (he _ hf) (ih hr)

/-- More names further out change nothing for an expression that is resolved without them. -/
theorem resolveIn_append {expr : Named} (more : Scope) (h : resolveIn expr scope = .ok code) :
    resolveIn expr (scope ++ more) = .ok code := by
  induction expr using Expr.induct generalizing scope code with
  | lit value => exact resolveIn_lit_eq_ok.2 (resolveIn_lit_eq_ok.1 h)
  | call name receiver args hr ha =>
    obtain ⟨this,rest,ht,hs,rfl⟩ := resolveIn_call_eq_ok.1 h
    exact resolveIn_call_eq_ok.2 ⟨this,rest,hr ht,resolveAll_append more (fun arg hm _ he => ha arg hm he) hs,rfl⟩
  | var name =>
    obtain ⟨position,hp,rfl⟩ := resolveIn_var_eq_ok.1 h
    refine resolveIn_var_eq_ok.2 ⟨position,?_,rfl⟩
    rw [List.idxOf?, List.findIdx?_append, ← List.idxOf?, hp]
    rfl
  | letIn name bound body hb hd =>
    obtain ⟨value,rest,hv,hr,rfl⟩ := resolveIn_letIn_eq_ok.1 h
    exact resolveIn_letIn_eq_ok.2 ⟨value,rest,hb hv,hd hr,rfl⟩
  | cond test yes no ht hy hn =>
    obtain ⟨first,second,third,h₁,h₂,h₃,rfl⟩ := resolveIn_cond_eq_ok.1 h
    exact resolveIn_cond_eq_ok.2 ⟨first,second,third,ht h₁,hy h₂,hn h₃,rfl⟩
  | seq steps hs =>
    obtain ⟨rest,hr,rfl⟩ := resolveIn_seq_eq_ok.1 h
    exact resolveIn_seq_eq_ok.2 ⟨rest,resolveAll_append more (fun step hm _ he => hs step hm he) hr,rfl⟩
  | stray text => exact absurd h resolveIn_stray_ne_ok

/-- Without a free variable an expression needs no scope. -/
theorem WellFormed.exists_resolveIn {expr : Named} (h : WellFormed expr) (hc : ∀ name, .free name ∉ expr.looseEnds) :
    ∃ code, resolveIn expr [] = .ok code := by
  cases hr : resolveIn expr [] with
  | ok code => exact ⟨code,rfl⟩
  | error problem =>
    have he := error?_resolveIn expr []
    rw [hr] at he
    obtain ⟨loose,hu,rfl⟩ := Option.map_eq_some_iff.1 he.symm
    cases loose with
    | free name => exact absurd (List.mem_of_find?_eq_some hu) (hc name)
    | stray text => exact absurd trivial (h.not_internal hr)

end Named

/-- A machine with a class that has nothing but an entry method. -/
def mainMachine (code : Resolved) : Machine :=
  { Machine.fresh.enroll [⟨"Main",⟨1⟩,⟨[("main",.custom code "Main.main" (some 0))]⟩⟩] with classCount := 1 }

theorem load_mainProgram {expr : Named} {code : Resolved} (h : expr.resolveIn [] = .ok code) :
    Machine.load (mainProgram expr) .fresh = .ok [("Main",⟨1⟩)] (mainMachine code) := by
  have hbody : expr.resolveIn (.ofMethod []) = .ok code := Named.resolveIn_append ["this"] h
  have ht : ClassDef.methodTable ⟨"Main",[⟨"main",[],expr⟩]⟩ =
      .ok ⟨[("main",.custom code "Main.main" (some 0))]⟩ := by
    simp only [ClassDef.methodTable, ClassDef.addMethods, ClassDef.customMethod, hbody]
    rfl
  rw [Machine.load_eq, mainProgram, Machine.stage_cons, ht]
  rfl

theorem runSource_mainText {source : String} {expr : Named} {code : Resolved} (hp : Named.parse source = .ok expr)
    (hr : expr.resolveIn [] = .ok code) (depth : Nat) :
    Machine.runSource depth (mainText source) "Main" .fresh = Machine.runClass depth ⟨1⟩ (mainMachine code) := by
  rw [Machine.runSource_of_load (Program.parse_mainText hp) (load_mainProgram hr)]
  rfl

/-- The outcome of a submission from that of its expression. -/
def Outcome.reply : Outcome Value → Outcome Reply
  | some (.ok value after) => some (.ok (.value value) after)
  | some (.error problem after) => some (.error problem after)
  | none => none

theorem submit_of_parse {source : String} {expr : Named} {code : Resolved} (hp : Named.parse source = .ok expr)
    (hr : expr.resolveIn [] = .ok code) (depth : Nat) (machine : Machine) :
    Machine.submit depth source machine = (Machine.eval depth code machine).reply := by
  simp only [Machine.submit, Named.startsClass_of_parse hp, Bool.false_eq_true, if_false, hp, Machine.evalIn,
    Action.ofExcept, Action.bind_apply, Action.pure, hr]
  rcases Machine.eval depth code machine with _ | ⟨_ | _⟩ <;> rfl

/-- No value that an expression comes to in a machine without classes is of the class of the entry method. -/
theorem renumbers_mainMachine (code : Resolved) :
    Account.Renumbers (fun _ => False) id Machine.fresh.method? (mainMachine code).method? := by
  refine ⟨fun value hv name => ?_,fun value _ name body owner arity hm => ?_⟩
  · cases value with
    | object cls identity => exact hv.elim
    | _ => rfl
  · exact absurd hm (Machine.method?_fresh_ne_custom value name body owner arity)

theorem closed_mainMachine {source : String} {expr : Named} {code : Resolved} (hp : Named.parse source = .ok expr)
    (hr : expr.resolveIn [] = .ok code) (type : TypeKey) (name : String) (method : Method)
    (hm : (mainMachine code).method? type name = some method) : method.Closed := by
  have hw := Program.wellFormed_of_parse (Program.parse_mainText hp)
  have hs := (Machine.safeAt_load hw Machine.sound_fresh).ok (congrArg some (load_mainProgram hr))
  exact (hs type name method hm).closed

theorem Account.pure_bind {α β : Type} (value : α) (next : α → Account β) : (pure value >>= next) = next value := by
  change Account.bind (Account.pure value) next = next value
  simp only [Account.bind, Account.pure]
  rcases next value with _ | ⟨ending,text⟩
  · rfl
  · exact congrArg (fun more => some (ending,more)) String.empty_append

/-- The body of the entry method comes to the same whether or not its class is there. -/
theorem like_mainMachine {expr : Named} {code : Resolved} (hw : Named.WellFormed expr)
    (hr : expr.resolveIn [] = .ok code) (depth : Nat) :
    Account.Like (fun _ => False) id (Account.Moved (fun _ => False) id)
      (Account.eval Machine.fresh.method? depth [] code) (Account.eval (mainMachine code).method? depth [] code) := by
  refine Account.alike_eval (renumbers_mainMachine code) depth Account.movedAll_nil fun value hv => ?_
  rw [Named.literals_of_resolveIn hr] at hv
  exact ⟨hw.not_object value hv,(Value.renumber_id value).symm⟩

/-- The entry method comes to what its body comes to by itself. -/
theorem account_mainMachine {source : String} {expr : Named} {code : Resolved} (hp : Named.parse source = .ok expr)
    (hr : expr.resolveIn [] = .ok code) (depth : Nat) :
    (Evaluation.entry ⟨1⟩).account depth (mainMachine code) =
      ((Evaluation.expr code).account depth .fresh).within "Main.main" := by
  have hclosed := closed_mainMachine hp hr
  have hscoped : Resolved.WellScoped 0 code := Named.wellScoped_of_resolveIn hr
  -- the receiver lies below the frame that the body sees
  have hblind : Account.eval (mainMachine code).method? depth [.object ⟨1⟩ 0] code =
      Account.eval (mainMachine code).method? depth [] code :=
    @Account.blind_eval _ hclosed depth [] code hscoped [.object ⟨1⟩ 0] []
  refine (Account.pure_bind () _).trans (congrArg (Account.within "Main.main") ?_)
  exact hblind.trans (like_mainMachine (Named.wellFormed_of_parse hp) hr depth).eq

/-- What an expression brings about by itself, and what it brings about as the body of the method `owner`: the same
value, or the same failure with the method at the end of the trace, and the same output. -/
inductive Framed (owner : String) : Outcome Reply → Outcome Value → Prop where
  | cutOff : Framed owner none none
  | value {value : Value} {after after' : Machine} : after'.output = after.output →
      Framed owner (some (.ok (.value value) after)) (some (.ok value after'))
  | failure {cause : Cause} {trace : List String} {after after' : Machine} : after'.output = after.output →
      Framed owner (some (.error (.failure ⟨cause,trace⟩) after))
        (some (.error (.failure ⟨cause,trace ++ [owner]⟩) after'))

/-- What an account comes to by itself and within a method. -/
theorem Account.Like.framed {known : ClassId → Prop} {f : ClassId → ClassId} {like : Value → Value → Prop}
    {account other : Account Value} (h : Like known f like account other) (owner : String) {machine machine' : Machine}
    (ho : machine'.output = machine.output)
    (hm : ∀ misuse after, account.outcome machine ≠ some (.error (.misuse misuse) after)) :
    Framed owner (account.outcome machine).reply ((account.within owner).outcome machine') := by
  have hprint (text : String) : (machine'.print text).output = (machine.print text).output := congrArg (· ++ text) ho
  cases h with
  | cutOff => exact .cutOff
  | value text hv => exact .value (hprint text)
  | failure trace text hc => exact .failure (hprint text)
  | misuse misuse text => exact absurd rfl (hm misuse (machine.print text))

/-- A text that is accepted as an expression never counts as classes, and is accepted as the body of the entry method of
a program, as the same tree. Without a free variable it brings about the same, on a machine without classes,
when it is submitted as when the program is run. -/
theorem submit_framed {source : String} {expr : Named} (h : Named.parse source = .ok expr) :
    startsClass source = false ∧
    Program.parse ("class Main \x7b def main = " ++ source ++ "\n; \x7d") =
      .ok ⟨[⟨"Main",[⟨"main",[],expr⟩]⟩]⟩ ∧
    ((∀ name, .free name ∉ expr.looseEnds) → ∀ depth, Framed "Main.main" (Machine.submit depth source .fresh)
      (Machine.runSource depth ("class Main \x7b def main = " ++ source ++ "\n; \x7d") "Main" .fresh)) := by
  refine ⟨Named.startsClass_of_parse h,Program.parse_mainText h,fun hc depth => ?_⟩
  obtain ⟨code,hr⟩ := (Named.wellFormed_of_parse h).exists_resolveIn hc
  have hsubmit := submit_of_parse h hr depth .fresh
  have hexpr : Machine.eval depth code .fresh = _ := (Evaluation.expr code).start_eq depth .fresh
  have hrun := runSource_mainText h hr depth
  have hentry : Machine.runClass depth ⟨1⟩ (mainMachine code) = _ :=
    (Evaluation.entry ⟨1⟩).start_eq depth (mainMachine code)
  have hsafe := Request.safeAt_perform Machine.sound_fresh (fun _ _ _ => Action.cutOff) depth (.submit source)
  rw [account_mainMachine h hr depth] at hentry
  change Framed _ _ (Machine.runSource depth (mainText source) "Main" .fresh)
  rw [hrun, hentry, hsubmit, hexpr]
  refine (like_mainMachine (Named.wellFormed_of_parse h) hr depth).framed "Main.main" rfl fun misuse after hm => ?_
  have hmisuse : Machine.submit depth source .fresh = some (.error (.misuse misuse) after) := by
    rw [hsubmit, hexpr]
    exact congrArg Outcome.reply hm
  exact (hsafe.error hmisuse).1 trivial

/-- The text starts with a binding of a word that only looks like a class, and ends with a comment. -/
def remarkText : String := " let classy = \"a\" in \x7b println classy; boom classy \x7d // class"

def remark : Named :=
  .letIn "classy" (.lit (.string "a")) (.seq [.call "println" (.var "classy") [],.call "boom" (.var "classy") []])

theorem submit_framed_remark :
    Named.parse remarkText = .ok remark ∧ (∀ name, .free name ∉ remark.looseEnds) ∧ startsClass remarkText = false ∧
    Machine.submit 9 remarkText .fresh =
      some (.error (.failure ⟨.noSuchMethod .string "boom",[]⟩) { Machine.fresh with output := "a\n" }) ∧
    ∃ after, Machine.runSource 9 ("class Main \x7b def main = " ++ remarkText ++ "\n; \x7d") "Main" .fresh =
      some (.error (.failure ⟨.noSuchMethod .string "boom",["Main.main"]⟩) after) ∧ after.output = "a\n" := by
  have hp : Named.parse remarkText = .ok remark := by decide +kernel
  have hends : remark.looseEnds = [] := by decide
  have hfree (name : String) : .free name ∉ remark.looseEnds := hends ▸ List.not_mem_nil
  have hs : Machine.submit 9 remarkText .fresh =
      some (.error (.failure ⟨.noSuchMethod .string "boom",[]⟩) { Machine.fresh with output := "a\n" }) := by
    decide +kernel
  obtain ⟨hclass,_,hframed⟩ := submit_framed hp
  have hboth := hframed hfree 9
  rw [hs] at hboth
  refine ⟨hp,hfree,hclass,hs,?_⟩
  generalize Machine.runSource 9 ("class Main \x7b def main = " ++ remarkText ++ "\n; \x7d") "Main" .fresh = run
    at hboth ⊢
  cases hboth with
  | failure ho => exact ⟨_,rfl,ho⟩

end Mica
