import Mica.Proofs.Grammar.Numerals
import Mica.Proofs.OpenBrackets
import Mica.Proofs.Requests
import Mica.Proofs.Sessions
import Mica.Proofs.TypedInput
import Mica.Session.Dialogue

/-! # Interruptions

A session answers whatever it is asked, and a dialogue goes on until it is closed, with one exception: a text with a
numeral that is too long is refused without being reported, and this ends the dialogue. Nothing that is evaluated ends in
this way, so it depends on the text alone.
-/
namespace Mica

/-! ## Evaluation -/

namespace Account

/-! Evaluation is like itself when no number changes, and what is like anything is no refusal of a text. -/

theorem moved_self (value : Value) : Moved (fun _ => True) id value value :=
  ⟨by cases value <;> trivial,value.renumber_id.symm⟩

theorem movedAll_self (values : List Value) : MovedAll (fun _ => True) id values values :=
  ⟨fun value _ => (moved_self value).1,by simp [funext Value.renumber_id]⟩

theorem renumbers_self (methods : Methods) : Renumbers (fun _ => True) id methods methods :=
  ⟨fun value _ name => by rw [value.renumber_id],fun _ _ _ _ _ _ _ value _ => moved_self value⟩

end Account

open Account in
/-- Evaluation comes to a value, a failure or a misuse. -/
theorem Evaluation.ne_literalTooLong (evaluation : Evaluation) {depth : Nat} {machine after : Machine}
    {problem : Problem} (h : evaluation.start depth machine = Outcome.ended (.error problem) after) : problem ≠ .literalTooLong := by
  have heval := alike_eval (renumbers_self machine.method?) depth
  have hinvoke (method : Method) (this : Value) (args : List Value) :=
    heval.invoke (movedAll_self machine.stack) (fun _ _ _ (_ : method = _) value _ => moved_self value) (moved_self this)
      (movedAll_self args)
  have hlike : Like (fun _ => True) id (Moved (fun _ => True) id) (evaluation.account depth machine)
      (evaluation.account depth machine) := by
    cases evaluation with
    | expr code => exact heval (movedAll_self _) fun value _ => moved_self value
    | call method this args => exact hinvoke method this args
    | entry id =>
      simp only [account]
      split
      · exact like_fail .noEntryMethod trivial
      · exact hinvoke _ _ _
  obtain ⟨text,ha,_⟩ := of_start h
  rintro rfl
  rw [ha] at hlike
  cases hlike

/-! ## Submissions -/

/-- Submitting a text comes to nothing because of a numeral that is too long. -/
inductive Stumbles (text : String) : Prop where
  | classes : startsClass text = true → Program.parse text = .error .literalTooLong → Stumbles text
  | expr : startsClass text = false → Named.parse text = .error .literalTooLong → Stumbles text

namespace Action

variable {α β : Type} {action : Action α} {next : α → Action β}

/-- An action that no numeral stops. -/
def Steady (action : Action α) : Prop :=
  ∀ machine problem after, action machine = some (.error problem after) → problem ≠ .literalTooLong

theorem steady_pure (value : α) : (pure value : Action α).Steady := by
  intro machine problem after h
  cases h

theorem Steady.bind (ha : action.Steady) (hn : ∀ value, (next value).Steady) : (action >>= next).Steady := by
  intro machine problem after h
  rw [bind_apply] at h
  cases he : action machine with
  | none =>
    rw [he] at h
    cases h
  | some result =>
    rw [he] at h
    cases result with
    | ok value middle => exact hn value middle problem after h
    | error found middle =>
      cases h
      exact ha machine problem after he

theorem steady_ofExcept {result : Except Problem α} (hr : result ≠ .error .literalTooLong) :
    (ofExcept result).Steady := by
  rintro machine problem after h rfl
  cases result with
  | ok value => cases h
  | error found =>
    cases h
    exact hr rfl

end Action

theorem Named.resolveIn_ne_literalTooLong (expr : Named) (scope : Scope) :
    expr.resolveIn scope ≠ .error .literalTooLong := by
  intro hr
  have he := Named.error?_resolveIn expr scope
  rw [hr] at he
  obtain ⟨loose,_,hl⟩ := Option.map_eq_some_iff.1 he.symm
  cases loose <;> cases hl

namespace Machine

variable {machine : Machine} {depth : Nat} {text : String}

theorem steady_load (program : Program) : (Action.ofEStateM (load program)).Steady := by
  rintro machine problem after h rfl
  obtain ⟨_,_,_,_,_,_,hr,_⟩ := refused_of_load (Option.some.inj h)
  cases hr

theorem steady_runClass (depth : Nat) (id : ClassId) : (runClass depth id).Steady :=
  fun _ _ _ h => Evaluation.ne_literalTooLong (.entry id) h

/-- Once a text has been read, no numeral in it is in the way. -/
theorem steady_submit (hs : ¬ Stumbles text) (depth : Nat) : (submit depth text).Steady := by
  unfold submit
  cases hc : startsClass text with
  | true =>
    have hp : Program.parse text ≠ .error .literalTooLong := fun hp => hs (.classes hc hp)
    exact (Action.steady_ofExcept hp).bind fun program => (steady_load program).bind fun _ => Action.steady_pure _
  | false =>
    have hp : Named.parse text ≠ .error .literalTooLong := fun hp => hs (.expr hc hp)
    have heval (code : Resolved) : (eval depth code).Steady := fun _ _ _ h => Evaluation.ne_literalTooLong (.expr code) h
    refine (Action.steady_ofExcept hp).bind fun expr => Action.Steady.bind ?_ fun _ => Action.steady_pure _
    exact (Action.steady_ofExcept (expr.resolveIn_ne_literalTooLong [])).bind heval

theorem submit_of_stumbles (h : Stumbles text) (depth : Nat) (machine : Machine) :
    submit depth text machine = some (.error .literalTooLong machine) := by
  unfold submit
  cases h with
  | classes hc hp =>
    rw [hc, hp]
    rfl
  | expr hc hp =>
    rw [hc, hp]
    rfl

end Machine

/-! ## Sessions -/

namespace Session

variable {session : Session} {depth : Nat} {answer : Answer} {text : String}

theorem escapes_settleProblem (session : Session) (machine : Machine) {problem : Problem} (hi : ¬ problem.Internal)
    (hl : problem ≠ .literalTooLong) : (session.settleProblem machine problem).escapes = none := by
  cases problem with
  | failure failure => rfl
  | misuse misuse => exact absurd trivial hi
  | literalTooLong => exact absurd rfl hl

theorem submit_of_stumbles (h : Stumbles text) (depth : Nat) (session : Session) :
    session.submit depth text = some (session.settle session.machine "" "" (some .literalTooLong)) := by
  rw [submit, Machine.submit_of_stumbles h]
  rfl

/-- A submission is answered, with the machine left sound, unless it stumbles. -/
theorem answered_submit (hm : session.machine.Sound) (h : session.submit depth text = some answer) :
    (∀ problem, answer.escapes = some problem ↔ Stumbles text ∧ problem = .literalTooLong) ∧
      answer.session.machine.Sound := by
  by_cases hs : Stumbles text
  · rw [submit_of_stumbles hs] at h
    cases h
    exact ⟨by simp [settle, hs, eq_comm],hm.of_methods rfl⟩
  · obtain ⟨result,hr,rfl⟩ := Option.map_eq_some_iff.1 h
    rw [machine_settleReply]
    have hsafe := Request.safeAt_perform hm (fun _ _ _ => Action.cutOff) depth (.submit text)
    have hnone : (session.settleReply result).escapes = none ∧ (Machine.left result).Sound := by
      cases result with
      | ok reply after =>
        refine ⟨?_,hsafe.ok hr⟩
        cases reply <;> rfl
      | error problem after =>
        obtain ⟨hi,ha⟩ := hsafe.error hr
        exact ⟨escapes_settleProblem session after hi (Machine.steady_submit hs depth _ _ _ hr),ha⟩
    exact ⟨by simp [hnone.1, hs],hnone.2.of_methods rfl⟩

theorem answered_runClass {id : ClassId} {result : EStateM.Result Problem Machine Value} (hm : session.machine.Sound)
    (h : Machine.runClass depth id session.machine = some result) :
    (session.settleValue result).escapes = none ∧ (session.settleValue result).session.machine.Sound := by
  have hsafe := Machine.safeAt_runClass (fun _ _ _ => Action.cutOff) depth hm id
  rw [session_settleValue]
  cases result with
  | ok value after => exact ⟨rfl,(hsafe.ok h).of_methods rfl⟩
  | error problem after =>
    obtain ⟨hi,ha⟩ := hsafe.error h
    exact ⟨escapes_settleProblem session after hi (Machine.steady_runClass depth id _ _ _ h),ha.of_methods rfl⟩

/-- A command is always answered. -/
theorem answered_perform {command : Command} (hm : session.machine.Sound) (h : session.perform depth command = some answer) :
    answer.escapes = none ∧ answer.session.machine.Sound := by
  cases command with
  | clear =>
    cases h
    exact ⟨rfl,hm⟩
  | classes =>
    cases h
    exact ⟨rfl,hm⟩
  | unknown word =>
    cases h
    exact ⟨rfl,hm⟩
  | reset =>
    cases h
    exact ⟨rfl,Machine.sound_fresh⟩
  | traceback setting =>
    simp only [perform] at h
    split at h
    · cases h
      exact ⟨rfl,hm⟩
    · cases h
      exact ⟨rfl,hm⟩
  | run argument =>
    simp only [perform] at h
    split at h
    · cases h
      exact ⟨rfl,hm⟩
    · obtain ⟨result,hr,rfl⟩ := Option.map_eq_some_iff.1 h
      exact answered_runClass hm hr

theorem sound_of_answer {call : Call} (hm : session.machine.Sound) (h : session.answer depth call = some answer) :
    answer.session.machine.Sound := by
  cases call with
  | submit text => exact (answered_submit hm h).2
  | slash line =>
    simp only [Session.answer] at h
    split at h
    · exact (answered_perform hm h).2
    · cases h
      exact hm

/-- Any calls in turn leave the machine sound, also those that nothing answers. -/
theorem sound_of_after {calls : List (Nat × Call)} {roll laterRoll : Roll} {later : Session}
    (hm : session.machine.Sound) (h : session.after roll calls = some (later,laterRoll)) : later.machine.Sound := by
  induction calls generalizing session roll with
  | nil =>
    cases h
    exact hm
  | cons first calls ih =>
    obtain ⟨answer,ha,h⟩ := Option.bind_eq_some_iff.1 h
    exact ih (sound_of_answer hm ha) h

end Session

/-! ## Dialogues -/

/-- A line that stumbles when it is entered: it is neither blank nor a command. -/
def StumblesTyped (typed : String) : Prop :=
  Text.allBlank (visible typed) = false ∧ Command.parse? (visible typed) = none ∧ Stumbles (visible typed)

theorem Session.enter_of_stumbles {typed : String} (h : StumblesTyped typed) (depth : Nat) (session : Session) :
    session.enter depth typed = some (session.settle session.machine "" "" (some .literalTooLong)) := by
  obtain ⟨hb,hc,hs⟩ := h
  simp only [enter, hb, hc]
  exact submit_of_stumbles hs depth session

theorem Session.answered_enter {session : Session} {depth : Nat} {answer : Answer} {typed : String}
    (hm : session.machine.Sound) (h : session.enter depth typed = some answer) :
    (∀ problem, answer.escapes = some problem ↔ StumblesTyped typed ∧ problem = .literalTooLong) ∧
      answer.session.machine.Sound := by
  simp only [enter] at h
  unfold StumblesTyped
  split at h
  · next hb =>
    cases h
    exact ⟨by simp [say, hb],hm⟩
  · next hb =>
    cases hc : Command.parse? (visible typed) with
    | some command =>
      rw [hc] at h
      obtain ⟨hn,ha⟩ := answered_perform hm h
      exact ⟨by simp [hn],ha⟩
    | none =>
      rw [hc] at h
      obtain ⟨hs,ha⟩ := answered_submit hm h
      exact ⟨by simp [hs, hb],ha⟩

namespace Dialogue

def Event.Stumbles (event : Event) : Prop := event.occasion = .accept ∧ StumblesTyped event.buffer

/-- A dialogue that goes on until it is closed or a line stumbles, which is then its last event. -/
def Transcript.Ends (transcript : Transcript) : Prop :=
  ∃ before last, transcript.events = before ++ [last] ∧ (∀ event ∈ before, ¬ event.Stumbles) ∧
    (last.occasion = .close ∧ transcript.broken = none ∨ last.Stumbles ∧ transcript.broken = some .literalTooLong)

theorem ends_closing (buffer : String) : (closing buffer).Ends :=
  ⟨[],_,rfl,List.forall_mem_nil _,.inl ⟨rfl,rfl⟩⟩

theorem Transcript.Ends.cons {event : Event} {transcript : Transcript} (h : transcript.Ends) (he : ¬ event.Stumbles) :
    (Transcript.cons event transcript).Ends := by
  obtain ⟨before,last,hev,hb,hl⟩ := h
  exact ⟨event :: before,last,congrArg (event :: ·) hev,List.forall_mem_cons.2 ⟨he,hb⟩,hl⟩

theorem ends_of_follow {depth : Nat} {session : Session} {buffer : String} {keys : List Key} {transcript : Transcript}
    (hm : session.machine.Sound) (h : follow depth session buffer keys = some transcript) : transcript.Ends := by
  induction keys generalizing session buffer transcript with
  | nil =>
    cases h
    exact ends_closing buffer
  | cons key keys ih =>
    cases key with
    | text typed => exact ih hm h
    | close =>
      cases h
      exact ends_closing buffer
    | interrupt =>
      obtain ⟨rest,hr,rfl⟩ := Option.map_eq_some_iff.1 h
      exact (ih hm hr).cons fun he => by cases he.1
    | enter =>
      rw [follow] at h
      split at h
      · exact ih hm h
      · cases ha : session.enter depth buffer with
        | none =>
          rw [ha] at h
          cases h
        | some answer =>
          obtain ⟨hs,hsound⟩ := Session.answered_enter hm ha
          simp only [ha] at h
          cases hp : answer.escapes with
          | some problem =>
            rw [hp] at h
            cases h
            obtain ⟨htyped,rfl⟩ := (hs problem).1 hp
            exact ⟨[],_,rfl,List.forall_mem_nil _,.inr ⟨⟨rfl,htyped⟩,rfl⟩⟩
          | none =>
            rw [hp] at h
            obtain ⟨rest,hr,rfl⟩ := Option.map_eq_some_iff.1 h
            refine (ih hsound hr).cons fun he => ?_
            have hsome := (hs .literalTooLong).2 ⟨he.2,rfl⟩
            rw [hp] at hsome
            cases hsome

/-- Whatever keys were to come, a line that stumbles is the last. -/
theorem follow_of_stumbles {buffer : String} (hs : StumblesTyped buffer) (hd : Brackets.depth buffer = 0) (depth : Nat)
    (session : Session) (keys : List Key) : follow depth session buffer (.enter :: keys) =
      some ⟨[⟨.accept,buffer,session.machine.output ++ "",""⟩],some .literalTooLong⟩ := by
  rw [follow, hd, if_neg (Int.lt_irrefl 0), Session.enter_of_stumbles hs]
  rfl

theorem ends_of_run {depth : Nat} {debug : Bool} {keys : List Key} {transcript : Transcript}
    (h : run depth debug keys = some transcript) : transcript.Ends := by
  obtain ⟨rest,hr,rfl⟩ := Option.map_eq_some_iff.1 h
  exact (ends_of_follow Machine.sound_fresh hr).cons fun he => by cases he.1

end Dialogue

open Grammar

/-- Reading fails with a fault of the source or because of a numeral that is too long, and where nothing else is wrong it
is the numerals that settle it, each by its value. A text that is submitted to a session, whatever has been asked of the
session before, is answered unless a numeral is too long. Only such a text ends a dialogue before it is closed. -/
theorem interrupted_by_numeral (source : String) :
    NumeralsSettle source (.ofExpr source) (fun ts => ExprTokens source ts ∧ ∃ clause : Clause, clause.yield = ts)
      Named.integers (Named.parse source) ∧
    NumeralsSettle source (.ofProgram source)
      (fun ts => ProgramTokens source ts ∧ ∃ classes : List ClassTree, classes.flatMap ClassTree.yield = ts)
      Program.integers (Program.parse source) ∧
    (∀ debug calls session roll depth answer, (Session.start debug).after [] calls = some (session,roll) →
      session.submit depth source = some answer →
        ∀ problem, answer.escapes = some problem ↔ Stumbles source ∧ problem = .literalTooLong) ∧
    ∀ depth debug keys transcript, Dialogue.run depth debug keys = some transcript → transcript.Ends := by
  refine ⟨Named.numeralsSettle source,Program.numeralsSettle source,?_,fun _ _ _ _ => Dialogue.ends_of_run⟩
  intro debug calls session roll depth answer hc hs
  exact (Session.answered_submit (Session.sound_of_after Machine.sound_fresh hc) hs).1

/-- A call with an argument in range and one that is not. -/
def wideText : String := "sum 0_7 3_000_000_000"

def wideClause : Clause := .call ⟨"sum",by decide⟩ (.number "0_7") [.number "3_000_000_000"]

/-- A class with a method that gives a number with a sign. -/
def wideClass : String := "class Wide \x7b def low = -0_2; \x7d"

def wideTree : ClassTree := ⟨⟨"Wide",by decide⟩,[⟨⟨"low",by decide⟩,[],.operand (.number "-0_2")⟩]⟩

theorem interrupted_by_numeral_wide :
    (ExprTokens wideText wideClause.yield ∧ LiteralsFit wideClause.yield ∧
      Settled wideText [("0_7",4),("3_000_000_000",8)] Named.integers (Named.parse wideText)) ∧
    (ProgramTokens wideClass wideTree.yield ∧ LiteralsFit wideTree.yield ∧
      Settled wideClass [("-0_2",23)] Program.integers (Program.parse wideClass)) ∧
    (∃ answer, (Session.start false).after [] Session.skippingCalls = some (Session.skipping,Session.skippingRoll) ∧
      Session.skipping.submit 9 wideText = some answer ∧
        ∀ problem, answer.escapes = some problem ↔ Stumbles wideText ∧ problem = .literalTooLong) ∧
    ∃ transcript, Dialogue.run 9 false [.text wideText,.enter,.interrupt,.text wideClass,.enter] = some transcript ∧
      transcript.Ends := by
  obtain ⟨htext,_,hsession,hdialogue⟩ := interrupted_by_numeral wideText
  obtain ⟨_,hclass,_,_⟩ := interrupted_by_numeral wideClass
  have ht : ExprTokens wideText wideClause.yield := (exprTokens_iff wideText wideClause).2 (by decide +kernel)
  have hc : ProgramTokens wideClass wideTree.yield := by
    have hflat : [wideTree].flatMap ClassTree.yield = wideTree.yield := by simp
    exact hflat ▸ (programTokens_iff wideClass [wideTree]).2 (by decide +kernel)
  have hfitText : LiteralsFit wideClause.yield := by
    intro body hm
    simp [wideClause, Clause.yield, Operand.yield, yieldAll, Ident.token] at hm
  have hfitClass : LiteralsFit wideTree.yield := by
    intro body hm
    simp [wideTree, ClassTree.yield, MethodTree.yield, Clause.yield, Operand.yield, Ident.token] at hm
  refine ⟨⟨ht,hfitText,?_⟩,⟨hc,hfitClass,?_⟩,?_,?_⟩
  · have hn : (Lexing.ofExpr wideText).numerals = [("0_7",4),("3_000_000_000",8)] := by decide +kernel
    exact hn ▸ (htext.settled _ ⟨ht,_,rfl⟩ hfitText).2
  · have hn : (Lexing.ofProgram wideClass).numerals = [("-0_2",23)] := by decide +kernel
    exact hn ▸ (hclass.settled _ ⟨hc,[wideTree],by simp⟩ hfitClass).2
  · have ha : (Session.start false).after [] Session.skippingCalls = some (Session.skipping,Session.skippingRoll) := by
      decide +kernel
    have hs : (Session.skipping.submit 9 wideText).isSome := by decide +kernel
    obtain ⟨answer,hs⟩ := Option.isSome_iff_exists.1 hs
    exact ⟨answer,ha,hs,hsession _ _ _ _ _ _ ha hs⟩
  · have hr : (Dialogue.run 9 false [.text wideText,.enter,.interrupt,.text wideClass,.enter]).isSome := by decide +kernel
    obtain ⟨transcript,hr⟩ := Option.isSome_iff_exists.1 hr
    exact ⟨transcript,hr,hdialogue _ _ _ _ hr⟩

/-! ## A long zero -/

theorem exprTokens_numeral {lexeme : String} (h : Token.IsNumeral lexeme.toList) :
    ExprTokens lexeme (Clause.operand (.number lexeme)).yield :=
  splits_spaced (Clause.operand (.number lexeme)).steered (List.forall_mem_singleton.2 h)

/-- A text that is one numeral, and too long, is refused without a fault. -/
theorem Named.parse_overlong {lexeme : String} (h : Token.IsNumeral lexeme.toList) (hl : Overlong lexeme) :
    Named.parse lexeme = .error .literalTooLong := by
  have hfit : LiteralsFit (Clause.operand (.number lexeme)).yield := fun _ hm => by cases List.mem_singleton.1 hm
  obtain ⟨hn,hs⟩ := (Named.numeralsSettle lexeme).settled _ ⟨exprTokens_numeral h,_,rfl⟩ hfit
  cases hnum : (Lexing.ofExpr lexeme).numerals with
  | nil =>
    rw [hnum] at hn
    cases hn
  | cons n rest =>
    rw [hnum] at hn hs
    obtain ⟨text,place⟩ := n
    obtain rfl : text = lexeme := (List.cons.inj hn).1
    exact hs.eq_tooLong hl

/-- Zero with one digit more than are looked at. -/
def longZero : String := String.ofList (List.replicate (digitLimit + 1) '0')

theorem toList_longZero : longZero.toList = '0' :: List.replicate digitLimit '0' := by
  rw [longZero, String.toList_ofList, List.replicate_succ]

theorem isNumeral_longZero : Token.IsNumeral longZero.toList := by
  refine ⟨[],'0',_,toList_longZero,List.mem_cons_self,rfl,fun d hd => ?_⟩
  rw [List.eq_of_mem_replicate hd]
  rfl

theorem filter_isDigit_longZero : longZero.toList.filter Char.isDigit = List.replicate (digitLimit + 1) '0' := by
  rw [longZero, String.toList_ofList, List.filter_replicate, if_pos (by decide)]

theorem overlong_longZero : Overlong longZero := by
  rw [Overlong, filter_isDigit_longZero, List.length_replicate]
  exact Nat.lt_succ_self digitLimit

theorem decimalValue_longZero : decimalValue longZero = 0 := by
  have hzero (n : Nat) : Nat.ofDigits 10 (List.replicate n 0) = 0 := by
    induction n with
    | zero => rfl
    | succ n ih => rw [List.replicate_succ, Nat.ofDigits_cons, ih]
  rw [decimalValue, filter_isDigit_longZero, List.map_replicate, List.reverse_replicate, toList_longZero]
  simp [hzero]

theorem trimStart_longZero : Text.trimStart longZero.toList = '0' :: List.replicate digitLimit '0' := by
  rw [toList_longZero, Text.trimStart, List.dropWhile_cons_of_neg (by decide)]

theorem stumbles_longZero : Stumbles longZero := by
  refine .expr ?_ (Named.parse_overlong isNumeral_longZero overlong_longZero)
  rw [startsClass, trimStart_longZero]
  rfl

/-- As a line it is neither blank nor a command, and nothing in it is taken out. -/
theorem stumblesTyped_longZero : StumblesTyped longZero := by
  have hvisible : visible longZero = longZero := by
    refine visible_eq_self ?_
    rw [longZero, String.toList_ofList, List.any_replicate]
    rfl
  rw [StumblesTyped, hvisible]
  exact ⟨Text.allBlank_of_trimStart trimStart_longZero,
    Command.parse?_of_trimStart trimStart_longZero (by decide) (by decide),stumbles_longZero⟩

theorem depth_longZero : Brackets.depth longZero = 0 := by
  have hplain : ∀ c ∈ longZero.toList, Brackets.Plain c := by
    intro c hc
    rw [longZero, String.toList_ofList] at hc
    exact Brackets.plain_of_isNamePart (List.eq_of_mem_replicate hc ▸ rfl)
  rw [Brackets.depth, Brackets.scan, Brackets.foldl_step_plain hplain]

/-- It stands for an integer in range, in a text with nothing else in it, and yet there is no report of it, neither when it
is read nor when it is submitted, and a dialogue ends with it. -/
theorem longZero_interrupts :
    InRange longZero ∧ ExprTokens longZero (Clause.operand (.number longZero)).yield ∧
    Named.parse longZero = .error .literalTooLong ∧
    (Session.start false).submit 1 longZero = some ⟨.start false,"","",some .literalTooLong⟩ ∧
    Dialogue.run 1 false [.text longZero,.enter,.text "1",.enter] =
      some ⟨[⟨.start,"",Dialogue.banner,""⟩,⟨.accept,longZero,"",""⟩],some .literalTooLong⟩ := by
  refine ⟨?_,exprTokens_numeral isNumeral_longZero,Named.parse_overlong isNumeral_longZero overlong_longZero,
    Session.submit_of_stumbles stumbles_longZero 1 _,?_⟩
  · rw [InRange, decimalValue_longZero]
    decide
  · rw [Dialogue.run, Dialogue.follow, String.empty_append,
      Dialogue.follow_of_stumbles stumblesTyped_longZero depth_longZero]
    rfl

end Mica
