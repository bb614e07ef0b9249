import Mica.Proofs.Register
import Mica.Session

/-! # What a session keeps in order

A session knows its classes by name and its machine knows them by number. Whatever is submitted and whatever
commands are given, the two agree, the register of the machine stays in order, and its stack is empty between
calls. A submission that fails changes nothing of this. From one reset to the next no number is given out twice,
not even when the class that got it first was never loaded.

How a call fails that goes too deep is left open. It is cut off and has no answer, so there is no session after it, and
nothing is said here about calls that would follow.
-/
deriving instance DecidableEq for Mica.Session

namespace Mica

namespace Table

variable {κ α : Type} [DecidableEq κ] {table : Table κ α} {key : κ} {value : α}

theorem get?_eq_some_iff (hd : table.keys.Nodup) : table.get? key = some value ↔ (key,value) ∈ table.entries := by
  refine ⟨mem_entries_of_get?,fun h => ?_⟩
  obtain ⟨entries⟩ := table
  induction entries with
  | nil => cases h
  | cons entry rest ih =>
    obtain ⟨hne,hd⟩ := List.nodup_cons.1 hd
    rcases List.mem_cons.1 h with rfl | h
    · simp [get?, findIn]
    · have he : entry.1 ≠ key := by
        rintro rfl
        exact hne (List.mem_map.2 ⟨_,h,rfl⟩)
      simpa [get?, findIn, he] using ih hd h

theorem isSome_get?_iff : (table.get? key).isSome ↔ key ∈ table.keys := by
  obtain ⟨entries⟩ := table
  induction entries with
  | nil => simp [get?, findIn, keys]
  | cons entry rest ih =>
    by_cases he : entry.1 = key
    · simp [get?, findIn, keys, he]
    · simpa [get?, findIn, keys, he, Ne.symm he] using ih

theorem insertAll_of_new {entries : List (κ × α)} (hd : (entries.map Prod.fst).Nodup)
    (hn : ∀ entry ∈ entries, entry.1 ∉ table.keys) : table.insertAll entries = ⟨table.entries ++ entries⟩ := by
  induction entries generalizing table with
  | nil => simp [insertAll]
  | cons entry rest ih =>
    obtain ⟨hne,hd⟩ := List.nodup_cons.1 hd
    obtain ⟨hnf,hnr⟩ := List.forall_mem_cons.1 hn
    change (table.insert entry.1 entry.2).insertAll rest = _
    rw [ih hd, insert_of_not_mem hnf]
    · simp
    · intro other ho hk
      rw [keys_insert_of_not_mem hnf, List.mem_append, List.mem_singleton] at hk
      rcases hk with hk | hk
      · exact hnr other ho hk
      · exact hne (List.mem_map.2 ⟨other,ho,hk⟩)

end Table

/-! ## Numbers given out -/

/-- The numbers given out so far, each with the class that got it. -/
abbrev Roll := List (ClassId × ClassDef)

namespace Machine

/-- Gives a class its number, and notes it on the roll. -/
def newClassIdNoting (cls : ClassDef) : EStateM Problem (Machine × Roll) ClassId := fun (machine,roll) =>
  match newClassId machine with
  | .ok id after => .ok id (after,roll ++ [(id,cls)])
  | .error problem after => .error problem (after,roll)

/-- Staging, with every number noted that is given out. -/
def stageNoting (known : List String) : List ClassDef → EStateM Problem (Machine × Roll) (List Staged)
  | [] => return []
  | cls :: classes => do
    if cls.name ∈ known then throw (.ofCause (.duplicateClass cls.name))
    let id ← newClassIdNoting cls
    match cls.methodTable with
    | .error problem => throw problem
    | .ok table =>
      let rest ← stageNoting (cls.name :: known) classes
      return ⟨cls.name,id,table⟩ :: rest

/-- The state that a computation has left, whether or not it has succeeded. -/
def left {σ α : Type} : EStateM.Result Problem σ α → σ
  | .ok _ state => state
  | .error _ state => state

/-- The numbers that submitting a text gives out. -/
def given (machine : Machine) (source : String) : Roll :=
  if startsClass source then
    match Program.parse source with
    | .error _ => []
    | .ok program => (left (stageNoting machine.classNames.values program.classes (machine,[]))).2
  else []

/-- The same result with a roll beside the machine. -/
def beside {α : Type} (roll : Roll) : EStateM.Result Problem Machine α → EStateM.Result Problem (Machine × Roll) α
  | .ok value machine => .ok value (machine,roll)
  | .error problem machine => .error problem (machine,roll)

theorem stageNoting_cons (known : List String) (cls : ClassDef) (classes : List ClassDef) (machine : Machine)
    (roll : Roll) :
    stageNoting known (cls :: classes) (machine,roll) =
      if cls.name ∈ known then .error (.ofCause (.duplicateClass cls.name)) (machine,roll)
      else
        match cls.methodTable with
        | .error problem =>
          .error problem ({ machine with classCount := machine.classCount + 1 },
            roll ++ [(⟨(machine.classCount + 1 : Nat)⟩,cls)])
        | .ok table =>
          match stageNoting (cls.name :: known) classes
            ({ machine with classCount := machine.classCount + 1 },
              roll ++ [(⟨(machine.classCount + 1 : Nat)⟩,cls)]) with
          | .error problem after => .error problem after
          | .ok rest after => .ok (⟨cls.name,⟨(machine.classCount + 1 : Nat)⟩,table⟩ :: rest) after := by
  rw [stageNoting]
  by_cases hk : cls.name ∈ known
  · simp [hk, bind, EStateM.bind, EStateM.throw_apply]
  · cases ht : cls.methodTable with
    | error problem =>
      simp [hk, bind, EStateM.bind, newClassIdNoting, newClassId, EStateM.throw_apply]
    | ok table =>
      simp only [hk, bind, EStateM.bind, newClassIdNoting, newClassId, pure, EStateM.pure, if_false]
      cases stageNoting (cls.name :: known) classes
        ({ machine with classCount := machine.classCount + 1 },
          roll ++ [(⟨(machine.classCount + 1 : Nat)⟩,cls)]) <;> rfl

/-- Noting the numbers changes nothing else. They go to the first classes in program order. -/
theorem stageNoting_eq (known : List String) (classes : List ClassDef) (machine : Machine) (roll : Roll) :
    ∃ taken ≤ classes.length,
      stageNoting known classes (machine,roll) =
        beside (roll ++ ClassDef.numberedFrom (machine.classCount + 1) (classes.take taken))
          (stage known classes machine) ∧
      (left (stage known classes machine)).classCount = machine.classCount + taken := by
  induction classes generalizing known machine roll with
  | nil => exact ⟨0,Nat.le_refl _,by simp [ClassDef.numberedFrom]; rfl,rfl⟩
  | cons cls classes ih =>
    rw [stageNoting_cons, stage_cons]
    by_cases hk : cls.name ∈ known
    · exact ⟨0,Nat.zero_le _,by simp [hk, beside, ClassDef.numberedFrom],by simp [hk, left]⟩
    · simp only [if_neg hk]
      cases cls.methodTable with
      | error problem => exact ⟨1,by simp,by simp [beside, ClassDef.numberedFrom],rfl⟩
      | ok table =>
        obtain ⟨taken,hle,heq,hcount⟩ := ih (cls.name :: known) { machine with classCount := machine.classCount + 1 }
          (roll ++ [(⟨(machine.classCount + 1 : Nat)⟩,cls)])
        rw [heq]
        refine ⟨taken + 1,Nat.succ_le_succ hle,?_,?_⟩
        · cases stage (cls.name :: known) classes { machine with classCount := machine.classCount + 1 } <;>
            simp [beside, ClassDef.numberedFrom]
        · have hleft : machine.classCount + 1 + taken = machine.classCount + (taken + 1) := by omega
          rw [← hleft, ← hcount]
          cases stage (cls.name :: known) classes { machine with classCount := machine.classCount + 1 } <;> rfl

theorem given_eq {source : String} {program : Program} (hs : startsClass source = true)
    (hp : Program.parse source = .ok program) (machine : Machine) :
    ∃ taken ≤ program.classes.length,
      machine.given source = ClassDef.numberedFrom (machine.classCount + 1) (program.classes.take taken) ∧
      (left (load program machine)).classCount = machine.classCount + taken := by
  obtain ⟨taken,hle,heq,hcount⟩ := stageNoting_eq machine.classNames.values program.classes machine []
  refine ⟨taken,hle,?_,?_⟩
  · simp only [given, hs, hp, heq, if_true]
    cases stage machine.classNames.values program.classes machine <;> rfl
  · rw [load_eq, ← hcount]
    cases stage machine.classNames.values program.classes machine with
    | error problem after => rfl
    | ok staged after => exact (foldl_install_frame staged after).2.1

/-! ## What submitting a text does -/

/-- What submitting a text can do to a machine. -/
inductive Submitted (machine : Machine) (source : String) : EStateM.Result Problem Machine Reply → Prop where
  | loaded {program : Program} {classes : List (String × ClassId)} {after : Machine} :
      startsClass source = true → Program.parse source = .ok program → load program machine = .ok classes after →
      Submitted machine source (.ok (.loaded classes) after)
  | refused {program : Program} {problem : Problem} {after : Machine} :
      startsClass source = true → Program.parse source = .ok program → load program machine = .error problem after →
      Submitted machine source (.error problem after)
  | unread {problem : Problem} : machine.given source = [] → Submitted machine source (.error problem machine)
  | evaluated {expr : Resolved} {depth : Nat} {value : Value} {after : Machine} : machine.given source = [] →
      (Evaluation.expr expr).start depth machine = Outcome.ended (.ok value) after →
      Submitted machine source (.ok (.value value) after)
  | failed {expr : Resolved} {depth : Nat} {problem : Problem} {after : Machine} : machine.given source = [] →
      (Evaluation.expr expr).start depth machine = Outcome.ended (.error problem) after →
      Submitted machine source (.error problem after)

theorem submitted_of_submit {depth : Nat} {source : String} {machine : Machine}
    {result : EStateM.Result Problem Machine Reply} (h : submit depth source machine = some result) :
    Submitted machine source result := by
  unfold submit at h
  by_cases hs : startsClass source = true
  · rw [if_pos hs] at h
    cases hp : Program.parse source with
    | error problem =>
      rw [hp] at h
      obtain rfl := Option.some.inj h
      exact .unread (by simp [given, hs, hp])
    | ok program =>
      cases hl : load program machine with
      | error problem after =>
        simp only [hp, Action.ofExcept, Action.bind_apply, Action.pure, Action.ofEStateM, hl, Option.some.injEq] at h
        exact h ▸ .refused hs hp hl
      | ok classes after =>
        simp only [hp, Action.ofExcept, Action.bind_apply, Action.pure, Action.ofEStateM, hl] at h
        obtain rfl := Option.some.inj h
        exact .loaded hs hp hl
  · rw [if_neg hs] at h
    have hg : machine.given source = [] := if_neg hs
    cases hp : Named.parse source with
    | error problem =>
      rw [hp] at h
      obtain rfl := Option.some.inj h
      exact .unread hg
    | ok expr =>
      cases hr : expr.resolveIn [] with
      | error problem =>
        simp only [hp, hr, evalIn, Action.ofExcept, Action.bind_apply, Action.pure, Action.raise] at h
        obtain rfl := Option.some.inj h
        exact .unread hg
      | ok resolved =>
        simp only [hp, hr, evalIn, Action.ofExcept, Action.bind_apply, Action.pure] at h
        cases he : eval depth resolved machine with
        | none => simp [he] at h
        | some outcome =>
          cases outcome with
          | error problem after =>
            simp only [he, Option.some.injEq] at h
            exact h ▸ .failed hg he
          | ok value after =>
            simp only [he] at h
            obtain rfl := Option.some.inj h
            exact .evaluated hg he

/-- The roll has the numbers up to the count, each once, and every class in the register is on it. -/
structure Noted (machine : Machine) (roll : Roll) : Prop where
  numbers : roll.map Prod.fst = (List.range' 1 machine.classCount).map fun n : Nat => ⟨n⟩
  registered : ∀ entry ∈ machine.classNames.entries, ∃ cls, (entry.1,cls) ∈ roll ∧ cls.name = entry.2

theorem noted_fresh : Noted fresh [] := ⟨rfl,nofun⟩

theorem Noted.of_eq {machine after : Machine} {roll : Roll} (h : Noted machine roll)
    (hn : after.classNames = machine.classNames) (hc : after.classCount = machine.classCount) : Noted after roll :=
  ⟨hc ▸ h.numbers,hn ▸ h.registered⟩

theorem Noted.numbers_append {machine : Machine} {roll : Roll} (h : Noted machine roll) (classes : List ClassDef) :
    (roll ++ ClassDef.numberedFrom (machine.classCount + 1) classes).map Prod.fst =
      (List.range' 1 (machine.classCount + classes.length)).map fun n : Nat => ⟨n⟩ := by
  rw [List.map_append, h.numbers, map_fst_numberedFrom, ← List.map_append, Nat.add_comm machine.classCount 1,
    List.range'_append_1]

theorem Noted.registered_append {machine : Machine} {roll : Roll} (h : Noted machine roll) (more : Roll)
    {entry : ClassId × String} (he : entry ∈ machine.classNames.entries) :
    ∃ cls, (entry.1,cls) ∈ roll ++ more ∧ cls.name = entry.2 := by
  obtain ⟨cls,hm,hc⟩ := h.registered entry he
  exact ⟨cls,List.mem_append_left _ hm,hc⟩

namespace Submitted

variable {machine after : Machine} {source : String} {result : EStateM.Result Problem Machine Reply} {roll : Roll}

theorem orderly (h : Submitted machine source result) (ho : machine.Orderly) : (left result).Orderly := by
  cases h with
  | loaded _ _ hl => exact ho.of_load hl
  | refused _ _ hl => exact ho.of_refusal hl
  | unread _ => exact ho
  | evaluated _ he => exact ho.of_evaluation he
  | failed _ he => exact ho.of_evaluation he

theorem noted (h : Submitted machine source result) (ho : machine.Orderly) (hn : Noted machine roll) :
    Noted (left result) (roll ++ machine.given source) := by
  cases h with
  | @loaded program classes after hs hp hl =>
    obtain ⟨taken,hle,hg,hcount⟩ := given_eq hs hp machine
    obtain ⟨staged,hst,_,rfl⟩ := ho.load_eq_ok hl
    rw [hl] at hcount
    obtain rfl : taken = program.classes.length := (Nat.add_left_cancel hcount).symm
    -- the classes that took a number are all loaded
    rw [List.take_length] at hg
    refine ⟨hg ▸ hn.numbers_append program.classes,?_⟩
    intro entry he
    rcases List.mem_append.1 he with he | he
    · exact hn.registered_append _ he
    · rw [entries_of_stagedAs hst] at he
      obtain ⟨numbered,hm,rfl⟩ := List.mem_map.1 he
      exact ⟨numbered.2,List.mem_append_right _ (hg ▸ hm),rfl⟩
  | @refused program problem after hs hp hl =>
    obtain ⟨taken,hle,hg,hcount⟩ := given_eq hs hp machine
    obtain ⟨_,_,_,_,_,_,_,rfl⟩ := refused_of_load hl
    have hnumbers := hn.numbers_append (program.classes.take taken)
    rw [← hg, List.length_take_of_le hle, ← hcount, hl] at hnumbers
    exact ⟨hnumbers,fun entry he => hn.registered_append _ he⟩
  | unread hg => rwa [hg, List.append_nil]
  | evaluated hg he =>
    obtain ⟨text,_,rfl⟩ := Evaluation.of_start he
    rw [hg, List.append_nil]
    exact hn.of_eq rfl rfl
  | failed hg he =>
    obtain ⟨text,_,rfl⟩ := Evaluation.of_start he
    rw [hg, List.append_nil]
    exact hn.of_eq rfl rfl

/-- A failure leaves the register and the stack as they were. -/
theorem of_error {problem : Problem} (h : Submitted machine source (.error problem after)) :
    after.classNames = machine.classNames ∧ after.methods = machine.methods ∧ after.stack = machine.stack := by
  cases h with
  | refused _ _ hl =>
    obtain ⟨_,_,_,_,_,_,_,rfl⟩ := refused_of_load hl
    exact ⟨rfl,rfl,rfl⟩
  | unread _ => exact ⟨rfl,rfl,rfl⟩
  | failed _ he =>
    obtain ⟨text,_,rfl⟩ := Evaluation.of_start he
    exact ⟨rfl,rfl,rfl⟩

theorem of_value {value : Value} (h : Submitted machine source (.ok (.value value) after)) :
    after.classNames = machine.classNames := by
  cases h with
  | evaluated _ he =>
    obtain ⟨text,_,rfl⟩ := Evaluation.of_start he
    rfl

/-- The classes that are loaded have new names, all different, and are added at the end of the register. -/
theorem of_loaded {classes : List (String × ClassId)} (h : Submitted machine source (.ok (.loaded classes) after))
    (ho : machine.Orderly) :
    (classes.map Prod.fst).Nodup ∧ (∀ entry ∈ classes, entry.1 ∉ machine.classNames.values) ∧
      after.classNames.entries = machine.classNames.entries ++ classes.map Prod.swap := by
  cases h with
  | loaded _ _ hl =>
    have ha := admitted_of_load hl
    obtain ⟨staged,hs,rfl,rfl⟩ := ho.load_eq_ok hl
    have hnames := names_of_stagedAs hs
    have hd : (staged.map (·.name)).Nodup := hnames ▸ ha.distinct
    refine ⟨by rwa [List.map_map],?_,by simp [enroll]⟩
    intro entry he
    have hmem : entry.1 ∈ staged.map (·.name) := by
      obtain ⟨cls,hc,rfl⟩ := List.mem_map.1 he
      exact List.mem_map_of_mem hc
    obtain ⟨cls,hc,hname⟩ := List.mem_map.1 (hnames ▸ hmem)
    exact hname ▸ ha.new cls hc

end Submitted

end Machine

/-! ## Calls of a session -/

namespace Session

/-- What can be asked of a session. -/
inductive Call where
  | submit (text : String)
  | slash (line : String)

/-- A line that is no command changes nothing. -/
def answer (depth : Nat) (session : Session) : Call → Option Answer
  | .submit text => session.submit depth text
  | .slash line =>
    match Command.parse? line with
    | some command => session.perform depth command
    | none => some (session.say "")

/-- The roll after a command. A reset starts it anew. -/
def rollAfter (roll : Roll) : Option Command → Roll
  | some .reset => []
  | _ => roll

/-- The roll after a call. A submission adds the numbers that it gives out. -/
def note (session : Session) (roll : Roll) : Call → Roll
  | .submit text => roll ++ session.machine.given text
  | .slash line => rollAfter roll (Command.parse? line)

/-- The session after some calls in turn, each with the depth it may go to, and the roll since the last reset. There is
none after a call that goes too deep. -/
def after (session : Session) (roll : Roll) : List (Nat × Call) → Option (Session × Roll)
  | [] => some (session,roll)
  | (depth,call) :: calls => do
    let answer ← session.answer depth call
    after answer.session (session.note roll call) calls

/-- The register of the machine is in order and on the roll, and the session has the same classes the other way
round. -/
structure Orderly (session : Session) (roll : Roll) : Prop where
  machine : session.machine.Orderly
  noted : session.machine.Noted roll
  classes : session.classes.entries = session.machine.classNames.entries.map Prod.swap

variable {session : Session} {roll : Roll} {depth : Nat} {answer : Answer}

theorem orderly_start (debug : Bool) : (start debug).Orderly [] := ⟨Machine.orderly_fresh,Machine.noted_fresh,rfl⟩

theorem session_settleProblem (session : Session) (machine : Machine) (problem : Problem) :
    (session.settleProblem machine problem).session = { session with machine := { machine with output := "" } } := by
  cases problem <;> rfl

theorem session_settleValue (session : Session) (result : EStateM.Result Problem Machine Value) :
    (session.settleValue result).session =
      { session with machine := { Machine.left result with output := "" } } := by
  cases result with
  | ok value machine => rfl
  | error problem machine => exact session_settleProblem session machine problem

theorem machine_settleReply (session : Session) (result : EStateM.Result Problem Machine Reply) :
    (session.settleReply result).session.machine = { Machine.left result with output := "" } := by
  cases result with
  | ok reply machine => cases reply <;> rfl
  | error problem machine => exact congrArg Session.machine (session_settleProblem session machine problem)

namespace Orderly

theorem keys_classes (h : session.Orderly roll) : session.classes.keys = session.machine.classNames.values := by
  simp [Table.keys, Table.values, h.classes]

theorem values_classes (h : session.Orderly roll) : session.classes.values = session.machine.classNames.keys := by
  simp [Table.keys, Table.values, h.classes]

theorem classes_settleReply {text : String} {result : EStateM.Result Problem Machine Reply} (h : session.Orderly roll)
    (hs : session.machine.Submitted text result) :
    (session.settleReply result).session.classes.entries =
      (Machine.left result).classNames.entries.map Prod.swap := by
  cases result with
  | error problem after =>
    rw [settleReply, session_settleProblem]
    change session.classes.entries = after.classNames.entries.map Prod.swap
    rw [hs.of_error.1, h.classes]
  | ok reply after =>
    cases reply with
    | value value =>
      change session.classes.entries = after.classNames.entries.map Prod.swap
      rw [hs.of_value, h.classes]
    | loaded classes =>
      obtain ⟨hd,hnew,hn⟩ := hs.of_loaded h.machine
      -- the names are new to the session because they are new to the machine
      have hnew : ∀ entry ∈ classes, entry.1 ∉ session.classes.keys := h.keys_classes ▸ hnew
      change (session.classes.insertAll classes).entries = _
      rw [Table.insertAll_of_new hd hnew, h.classes, Machine.left, hn]
      simp

theorem of_submit {text : String} (h : session.Orderly roll) (hs : session.submit depth text = some answer) :
    answer.session.Orderly (roll ++ session.machine.given text) := by
  obtain ⟨result,hr,rfl⟩ := Option.map_eq_some_iff.1 hs
  have hsub := Machine.submitted_of_submit hr
  have hm := machine_settleReply session result
  refine ⟨?_,?_,?_⟩
  · rw [hm]
    exact (hsub.orderly h.machine).of_eq rfl rfl (Nat.le_refl _) rfl
  · rw [hm]
    exact (hsub.noted h.machine h.noted).of_eq rfl rfl
  · rw [hm]
    exact h.classes_settleReply hsub

theorem of_run {id : ClassId} {result : EStateM.Result Problem Machine Value} (h : session.Orderly roll)
    (hr : Machine.runClass depth id session.machine = some result) :
    (session.settleValue result).session.Orderly roll := by
  have hend : ∃ ending,
      (Evaluation.entry id).start depth session.machine = Outcome.ended ending (Machine.left result) := by
    cases result with
    | ok value after => exact ⟨.ok value,hr⟩
    | error problem after => exact ⟨.error problem,hr⟩
  obtain ⟨ending,he⟩ := hend
  obtain ⟨text,_,hleft⟩ := Evaluation.of_start he
  rw [session_settleValue, hleft]
  exact ⟨h.machine.of_eq rfl rfl (Nat.le_refl _) rfl,h.noted.of_eq rfl rfl,h.classes⟩

theorem of_perform {command : Command} (h : session.Orderly roll) (hp : session.perform depth command = some answer) :
    answer.session.Orderly (rollAfter roll (some command)) := by
  cases command with
  | clear =>
    cases hp
    exact h
  | classes =>
    cases hp
    exact h
  | unknown word =>
    cases hp
    exact h
  | reset =>
    cases hp
    exact orderly_start session.debug
  | traceback setting =>
    simp only [Session.perform] at hp
    split at hp
    · cases hp
      exact h
    · cases hp
      exact ⟨h.machine,h.noted,h.classes⟩
  | run argument =>
    simp only [Session.perform] at hp
    split at hp
    · cases hp
      exact h
    · obtain ⟨result,hr,rfl⟩ := Option.map_eq_some_iff.1 hp
      exact h.of_run hr

/-- Every call keeps a session in order. -/
theorem of_answer {call : Call} (h : session.Orderly roll)
    (ha : session.answer depth call = some answer) : answer.session.Orderly (session.note roll call) := by
  cases call with
  | submit text => exact h.of_submit ha
  | slash line =>
    cases hc : Command.parse? line with
    | none =>
      simp only [Session.answer, hc] at ha
      cases ha
      rw [note, hc]
      exact h
    | some command =>
      simp only [Session.answer, hc] at ha
      simpa only [note, hc] using h.of_perform ha

/-- Any calls in turn keep a session in order. -/
theorem of_after {calls : List (Nat × Call)} {later : Session} {laterRoll : Roll} (h : session.Orderly roll)
    (ha : session.after roll calls = some (later,laterRoll)) : later.Orderly laterRoll := by
  -- the roll is generalized too, since a reset starts it anew
  induction calls generalizing session roll with
  | nil =>
    cases ha
    exact h
  | cons first calls ih =>
    obtain ⟨answer,hc,ha⟩ := Option.bind_eq_some_iff.1 ha
    exact ih (h.of_answer hc) ha

end Orderly

/-- Name and number stand for each other, no name and no number stands twice, and the numbers increase in the order
of loading up to the count. There are methods for strings, the builtin ones, and for the classes of the session,
and for nothing else. Nothing is on the stack. -/
structure InOrder (session : Session) : Prop where
  agree : ∀ name id, session.classes.get? name = some id ↔ session.machine.classNames.get? id = some name
  loaded : session.machine.classNames.keys = session.classes.values
  names : session.classes.keys.Nodup
  ids : session.classes.values.Nodup
  increasing : session.classes.values.Pairwise (· < ·)
  counted : ∀ id ∈ session.classes.values, id.number ≤ session.machine.classCount
  tables : ∀ type, (session.machine.methods.get? type).isSome ↔
    type = .string ∨ ∃ id ∈ session.classes.values, type = .object id
  builtins : session.machine.methods.get? .string = some Machine.builtinMethods
  stack : session.machine.stack = []

namespace Orderly

theorem get?_classes (h : session.Orderly roll) {name : String} {id : ClassId} :
    session.classes.get? name = some id ↔ (id,name) ∈ session.machine.classNames.entries := by
  have hd : session.classes.keys.Nodup := h.keys_classes ▸ h.machine.names
  rw [Table.get?_eq_some_iff hd, h.classes]
  constructor
  · intro hm
    obtain ⟨entry,he,hs⟩ := List.mem_map.1 hm
    cases hs
    exact he
  · intro hm
    exact List.mem_map.2 ⟨_,hm,rfl⟩

theorem inOrder (h : session.Orderly roll) : session.InOrder := by
  have hids : session.machine.classNames.keys.Nodup := h.machine.increasing.imp Machine.ne_of_lt
  refine ⟨?_,h.values_classes.symm,h.keys_classes ▸ h.machine.names,h.values_classes ▸ hids,
    h.values_classes ▸ h.machine.increasing,h.values_classes ▸ h.machine.counted,?_,h.machine.builtins,h.machine.stack⟩
  · intro name id
    rw [h.get?_classes, Table.get?_eq_some_iff hids]
  · intro type
    rw [Table.isSome_get?_iff, h.machine.tables, h.values_classes, List.mem_cons, List.mem_map]
    simp only [eq_comm]

end Orderly

/-- Any calls, whether or not they succeed, lead to a session that is in order. Submitting a text that fails changes
neither its classes nor the register, the methods and the stack of its machine. The numbers given out since the last
reset, also to classes that were never loaded, are all different, and every class that is loaded got its own. -/
theorem inOrder_after {debug : Bool} {calls : List (Nat × Call)}
    (h : (start debug).after [] calls = some (session,roll)) :
    session.InOrder ∧
    (∀ depth text problem after, Machine.submit depth text session.machine = some (.error problem after) →
      ∃ answer, session.submit depth text = some answer ∧ answer.session.classes = session.classes ∧
        answer.session.machine.classNames = session.machine.classNames ∧
        answer.session.machine.methods = session.machine.methods ∧
        answer.session.machine.stack = session.machine.stack) ∧
    (roll.map Prod.fst).Nodup ∧ roll.length = session.machine.classCount ∧
    ∀ name id, session.classes.get? name = some id → ∃ cls, (id,cls) ∈ roll ∧ cls.name = name := by
  have ho := (orderly_start debug).of_after h
  refine ⟨ho.inOrder,?_,?_,?_,?_⟩
  · intro depth text problem after hs
    obtain ⟨hn,hm,hst⟩ := (Machine.submitted_of_submit hs).of_error
    refine ⟨_,by rw [submit, hs]; rfl,?_⟩
    rw [settleReply, session_settleProblem]
    exact ⟨rfl,hn,hm,hst⟩
  · rw [ho.noted.numbers]
    exact (Machine.increasing_range' 1 _).imp Machine.ne_of_lt
  · simpa using congrArg List.length ho.noted.numbers
  · intro name id hg
    exact ho.noted.registered (id,name) (ho.get?_classes.1 hg)

/-- The second class has a variable free and is refused. Its number is not given out again. -/
def skippingCalls : List (Nat × Call) :=
  [(9,.submit "class Old \x7b \x7d"),(9,.slash "/reset"),(9,.submit "class A \x7b \x7d"),
    (9,.submit "class B \x7b def m = x; \x7d"),(9,.submit "class C \x7b def main = this; \x7d"),(9,.slash " /run C")]

def skipping : Session where
  machine :=
    { Machine.fresh with
      methods := ⟨[(.string,Machine.builtinMethods),(.object ⟨1⟩,⟨[]⟩),
        (.object ⟨3⟩,⟨[("main",.custom (.var 0) "C.main" (some 0))]⟩)]⟩
      classNames := ⟨[(⟨1⟩,"A"),(⟨3⟩,"C")]⟩
      classCount := 3
      objectCount := 1 }
  classes := ⟨[("A",⟨1⟩),("C",⟨3⟩)]⟩
  debug := false

def skippingRoll : Roll :=
  [(⟨1⟩,⟨"A",[]⟩),(⟨2⟩,⟨"B",[⟨"m",[],.var "x"⟩]⟩),(⟨3⟩,⟨"C",[⟨"main",[],.var "this"⟩]⟩)]

theorem inOrder_after_skipping :
    (start false).after [] skippingCalls = some (skipping,skippingRoll) ∧ skipping.InOrder ∧
    (∃ answer, skipping.submit 9 "class D \x7b \x7d class A \x7b \x7d" = some answer ∧
      answer.session.classes = skipping.classes ∧ answer.session.machine.classNames = skipping.machine.classNames ∧
      answer.session.machine.methods = skipping.machine.methods ∧
      answer.session.machine.stack = skipping.machine.stack) ∧
    (skippingRoll.map Prod.fst).Nodup := by
  have h : (start false).after [] skippingCalls = some (skipping,skippingRoll) := by decide +kernel
  have hs : Machine.submit 9 "class D \x7b \x7d class A \x7b \x7d" skipping.machine =
      some (.error (.failure ⟨.duplicateClass "A",[]⟩) { skipping.machine with classCount := 4 }) := by decide +kernel
  obtain ⟨ho,hf,hd,_⟩ := inOrder_after h
  exact ⟨h,ho,hf _ _ _ _ hs,hd⟩

end Session

end Mica
