import Mathlib.Data.List.Nodup
import Mica.Proofs.Growth

/-! # What a run depends on

A run makes one object, of the entry class, and never comes upon another class. So it depends on that class alone: not
on the other classes of the program, nor on the place of the class among them. What does depend on the place is the
number of the class, which the value of a run may show and the message of a failure may mention.
-/
namespace Mica

/-- Texts that are alike but for the number of a class. -/
inductive Retold (id id' : ClassId) : String → String → Prop where
  | same (text : String) : Retold id id' text text
  | renumbered (before after : String) :
      Retold id id' (before ++ id.display ++ after) (before ++ id'.display ++ after)

namespace Retold

variable {id id' : ClassId} {text text' : String}

theorem append_left (h : Retold id id' text text') (before : String) :
    Retold id id' (before ++ text) (before ++ text') := by
  cases h with
  | same text => exact .same _
  | renumbered inner outer =>
    rw [← String.append_assoc, ← String.append_assoc, ← String.append_assoc, ← String.append_assoc]
    exact .renumbered (before ++ inner) outer

theorem append_right (h : Retold id id' text text') (after : String) :
    Retold id id' (text ++ after) (text' ++ after) := by
  cases h with
  | same text => exact .same _
  | renumbered inner outer =>
    have hmore : Retold id id' (inner ++ id.display ++ (outer ++ after)) (inner ++ id'.display ++ (outer ++ after)) :=
      .renumbered inner (outer ++ after)
    rwa [← String.append_assoc, ← String.append_assoc] at hmore

theorem display {type : TypeKey} (h : type.Of (· = id)) :
    Retold id id' type.display (type.renumber fun _ => id').display := by
  obtain ⟨tag,classId⟩ := type
  cases classId with
  | none => exact .same tag
  | some found =>
    obtain rfl : found = id := h found rfl
    exact .renumbered (tag ++ "(") ")"

/-- The message of a cause shows a number at most once. -/
theorem message {cause : Cause} (h : cause.Of (· = id)) :
    Retold id id' cause.message (cause.renumber fun _ => id').message := by
  cases cause with
  | noSuchMethod type name => exact ((((display h).append_left _).append_right _).append_right _).append_right _
  | conditionType type => exact (display h).append_left _
  | argumentType method position type =>
    cases position with
    | none => exact (display h).append_left _
    | some position => exact (display h).append_left _
  | _ => exact .same _

end Retold

/-- Two runs that are alike but for the number of the entry class. Both are cut off, or they end with one value, which
is of that class if it is an object, or with failures of one category and one trace, and they have printed the same. -/
inductive SameRun (id id' : ClassId) : Outcome Value → Outcome Value → Prop where
  | cutOff : SameRun id id' none none
  | value {value : Value} {after after' : Machine} : value.Of (· = id) → after'.output = after.output →
      SameRun id id' (some (.ok value after)) (some (.ok (value.renumber fun _ => id') after'))
  | failure {cause cause' : Cause} {trace : List String} {after after' : Machine} :
      cause'.category = cause.category → Retold id id' cause.message cause'.message → after'.output = after.output →
      SameRun id id' (some (.error (.failure ⟨cause,trace⟩) after)) (some (.error (.failure ⟨cause',trace⟩) after'))

theorem Account.Like.sameRun {id id' : ClassId} {account other : Account Value}
    (h : Like (· = id) (fun _ => id') (Moved (· = id) fun _ => id') account other) {machine machine' : Machine}
    (ho : machine'.output = machine.output)
    (hm : ∀ misuse after, account.outcome machine ≠ some (.error (.misuse misuse) after)) :
    SameRun id id' (account.outcome machine) (other.outcome machine') := by
  have hprint (text : String) : (machine'.print text).output = (machine.print text).output := congrArg (· ++ text) ho
  cases h with
  | cutOff => exact .cutOff
  | value text hv =>
    obtain ⟨hv,rfl⟩ := hv
    exact .value hv (hprint text)
  | failure trace text hc => exact .failure (Cause.category_renumber _ _) (Retold.message hc) (hprint text)
  | misuse misuse text => exact absurd rfl (hm misuse (machine.print text))

namespace Machine

variable {program : Program} {classes : List (String × ClassId)} {machine loaded : Machine} {cls : ClassDef}

/-- A class that has been loaded is found by its name, and its methods under its number. -/
theorem exists_of_load (hl : load program machine = .ok classes loaded) (hc : cls ∈ program.classes) :
    ∃ id table, classes.lookup cls.name = some id ∧ cls.methodTable = .ok table ∧
      loaded.methods.get? (.object id) = some table := by
  have hd := (admitted_of_load hl).distinct
  obtain ⟨staged,hs,rfl,rfl⟩ := load_eq_ok hl
  have hsnd := map_snd_numberedFrom (machine.classCount + 1) program.classes
  rw [lookup_of_stagedAs hs]
  cases hf : (ClassDef.numberedFrom (machine.classCount + 1) program.classes).find? fun entry =>
      entry.2.name = cls.name with
  | none =>
    rw [← hsnd] at hc
    obtain ⟨entry,he,rfl⟩ := List.mem_map.1 hc
    exact absurd (decide_eq_true rfl) (List.find?_eq_none.1 hf entry he)
  | some entry =>
    have he := List.mem_of_find?_eq_some hf
    have hname : entry.2.name = cls.name := by simpa using List.find?_some hf
    have hentry : entry.2 ∈ program.classes := hsnd ▸ List.mem_map_of_mem he
    -- no two classes of the program have one name
    obtain rfl : entry.2 = cls := List.inj_on_of_nodup_map hd hentry hc hname
    have hid := ClassDef.lookup_numberedFrom_of_mem he
    rcases get?_foldl_install hs { machine with classCount := machine.classCount + program.classes.length } entry.1 with
      ⟨hn,_⟩ | ⟨found,table,hl,ht,hg⟩
    · rw [hn] at hid
      cases hid
    · rw [hl] at hid
      cases hid
      exact ⟨entry.1,table,rfl,ht,hg⟩

end Machine

section Entry

variable {program program' : Program} {classes classes' : List (String × ClassId)} {loaded loaded' : Machine}
  {cls : ClassDef} {id id' : ClassId} {table : MethodTable}

/-- With the entry class under another number a run finds the same methods. -/
theorem renumbers_of_load (hw : ∀ value ∈ program.literals, value.Of fun _ => False) (hc : cls ∈ program.classes)
    (hl : Machine.load program .fresh = .ok classes loaded) (hl' : Machine.load program' .fresh = .ok classes' loaded')
    (ht : cls.methodTable = .ok table) (hg : loaded.methods.get? (.object id) = some table)
    (hg' : loaded'.methods.get? (.object id') = some table) :
    Account.Renumbers (· = id) (fun _ => id') loaded.method? loaded'.method? := by
  have hplain {value : Value} (hn : value.Of fun _ => False) : value.Of Machine.fresh.Allocated := hn.mono nofun
  refine ⟨fun value hv name => ?_,fun value hv name body owner arity hm literal hlit => ?_⟩
  · rcases value.object_or_not with ⟨found,identity,rfl⟩ | hn
    · obtain rfl : found = id := hv
      change loaded'.method? (.object id') name = loaded.method? (.object found) name
      rw [Machine.method?, Machine.method?, hg, hg']
    · rw [hn.renumber, Machine.method?_of_load hl' (hplain hn), Machine.method?_of_load hl (hplain hn)]
  · suffices hnone : literal.Of fun _ => False from ⟨hnone.mono nofun,(hnone.renumber _).symm⟩
    rcases value.object_or_not with ⟨found,identity,rfl⟩ | hn
    · obtain rfl : found = id := hv
      change (loaded.methods.get? (.object found)).bind _ = _ at hm
      rw [hg] at hm
      obtain ⟨method,hd,hsame⟩ := Machine.literals_of_methodTable ht hm
      rw [hsame] at hlit
      exact Program.forall_mem_literals.1 hw cls hc method hd literal hlit
    · rw [Machine.method?_of_load hl (hplain hn)] at hm
      exact absurd hm (Machine.method?_fresh_ne_custom value name body owner arity)

theorem like_entry (hm : Account.Renumbers (· = id) (fun _ => id') loaded.method? loaded'.method?)
    (hl : Machine.load program .fresh = .ok classes loaded) (hl' : Machine.load program' .fresh = .ok classes' loaded')
    (depth : Nat) :
    Account.Like (· = id) (fun _ => id') (Account.Moved (· = id) fun _ => id')
      ((Evaluation.entry id).account depth loaded) ((Evaluation.entry id').account depth loaded') := by
  obtain ⟨hstack,hobjects,_⟩ := Machine.load_frame hl
  obtain ⟨hstack',hobjects',_⟩ := Machine.load_frame hl'
  have hfound : loaded'.method? (.object id') Machine.entryMethod = loaded.method? (.object id) Machine.entryMethod :=
    hm.found (.object id 0) rfl Machine.entryMethod
  rw [Evaluation.account, Evaluation.account, hfound, hstack, hstack', hobjects, hobjects']
  cases hf : loaded.method? (.object id) Machine.entryMethod with
  | none => exact Account.like_fail .noEntryMethod trivial
  | some method =>
    have hthis : Account.Moved (· = id) (fun _ => id') (.object id Machine.fresh.objectCount)
        (.object id' Machine.fresh.objectCount) := ⟨rfl,rfl⟩
    refine (Account.alike_eval hm depth).invoke Account.movedAll_nil ?_ hthis Account.movedAll_nil
    rintro body owner arity rfl
    exact hm.bodies (.object id 0) rfl Machine.entryMethod body owner arity hf

end Entry

/-- A run depends on its entry class only. Two texts that load and have the same definition of the entry class, whatever
other classes they have and in whatever order, run alike but for the number of that class. -/
theorem sameRun_of_entry {source source' : String} {program program' : Program}
    {classes classes' : List (String × ClassId)} {loaded loaded' : Machine} {cls : ClassDef}
    (hp : Program.parse source = .ok program) (hl : Machine.load program .fresh = .ok classes loaded)
    (hp' : Program.parse source' = .ok program') (hl' : Machine.load program' .fresh = .ok classes' loaded')
    (hc : cls ∈ program.classes) (hc' : cls ∈ program'.classes) :
    ∃ id id', classes.lookup cls.name = some id ∧ classes'.lookup cls.name = some id' ∧
      ∀ depth, SameRun id id' (Machine.runSource depth source cls.name .fresh)
        (Machine.runSource depth source' cls.name .fresh) := by
  obtain ⟨id,table,hid,ht,hg⟩ := Machine.exists_of_load hl hc
  obtain ⟨id',table',hid',ht',hg'⟩ := Machine.exists_of_load hl' hc'
  obtain rfl : table' = table := Except.ok.inj (ht'.symm.trans ht)
  have hm := renumbers_of_load (Program.not_object_of_parse hp) hc hl hl' ht hg hg'
  refine ⟨id,id',hid,hid',fun depth => ?_⟩
  have hrun : Machine.runSource depth source cls.name .fresh = _ := Machine.runSource_of_load hp hl depth
  have hrun' : Machine.runSource depth source' cls.name .fresh = _ := Machine.runSource_of_load hp' hl' depth
  have hentry : Machine.runClass depth id loaded = _ := (Evaluation.entry id).start_eq depth loaded
  have hentry' : Machine.runClass depth id' loaded' = _ := (Evaluation.entry id').start_eq depth loaded'
  rw [hid] at hrun
  rw [hid'] at hrun'
  dsimp only at hrun hrun'
  have houtput : loaded'.output = loaded.output :=
    (Machine.load_frame hl').2.2.trans (Machine.load_frame hl).2.2.symm
  have hsafe := Request.safeAt_perform Machine.sound_fresh (fun _ _ _ => Action.cutOff) depth (.run source cls.name)
  rw [hrun, hrun', hentry, hentry']
  refine (like_entry hm hl hl' depth).sameRun houtput fun misuse after hmisuse => ?_
  have hperform : (Request.run source cls.name).perform depth .fresh = some (.error (.misuse misuse) after) := by
    rw [Request.perform, Action.bind_apply, hrun, hentry, hmisuse]
  exact (hsafe.error hperform).1 trivial

/-- An entry class whose run fails on its own object. -/
def lone : ClassDef :=
  ⟨"Main",[⟨"main",[],.seq [.call "println" (.lit (.string "go")) [],.call "boom" (.var "this") []]⟩]⟩

def loneText : String := "class Main \x7b def main = \x7b println \"go\"; boom this \x7d; \x7d"

/-- The same class after others, one of which has the method that is missing. -/
def crowdText : String := "class A \x7b def boom = this; \x7d class B \x7b \x7d " ++ loneText

def crowd : Program := ⟨[⟨"A",[⟨"boom",[],.var "this"⟩]⟩,⟨"B",[]⟩,lone]⟩

def loneTable : MethodTable :=
  ⟨[("main",.custom (.seq [.call "println" (.lit (.string "go")) [],.call "boom" (.var 0) []]) "Main.main" (some 0))]⟩

def loneMachine : Machine := { Machine.fresh.enroll [⟨"Main",⟨1⟩,loneTable⟩] with classCount := 1 }

def crowdMachine : Machine :=
  { Machine.fresh.enroll [⟨"A",⟨1⟩,⟨[("boom",.custom (.var 0) "A.boom" (some 0))]⟩⟩,⟨"B",⟨2⟩,.empty⟩,
      ⟨"Main",⟨3⟩,loneTable⟩] with
    classCount := 3 }

theorem sameRun_of_entry_crowd :
    Program.parse loneText = .ok ⟨[lone]⟩ ∧ Machine.load ⟨[lone]⟩ .fresh = .ok [("Main",⟨1⟩)] loneMachine ∧
    Program.parse crowdText = .ok crowd ∧
    Machine.load crowd .fresh = .ok [("A",⟨1⟩),("B",⟨2⟩),("Main",⟨3⟩)] crowdMachine ∧
    Machine.runSource 9 crowdText "Main" .fresh =
      some (.error (.failure ⟨.noSuchMethod (.object ⟨3⟩) "boom",["Main.main"]⟩)
        { crowdMachine with objectCount := 1, output := "go\n" }) ∧
    ∀ depth, SameRun ⟨1⟩ ⟨3⟩ (Machine.runSource depth loneText "Main" .fresh)
      (Machine.runSource depth crowdText "Main" .fresh) := by
  have hp : Program.parse loneText = .ok ⟨[lone]⟩ := by decide +kernel
  have hl : Machine.load ⟨[lone]⟩ .fresh = .ok [("Main",⟨1⟩)] loneMachine := by decide +kernel
  have hp' : Program.parse crowdText = .ok crowd := by decide +kernel
  have hl' : Machine.load crowd .fresh = .ok [("A",⟨1⟩),("B",⟨2⟩),("Main",⟨3⟩)] crowdMachine := by decide +kernel
  have hmem : lone ∈ crowd.classes := by simp [crowd]
  obtain ⟨id,id',hid,hid',hruns⟩ := sameRun_of_entry hp hl hp' hl' List.mem_cons_self hmem
  obtain rfl : ⟨1⟩ = id := Option.some.inj hid
  obtain rfl : ⟨3⟩ = id' := Option.some.inj hid'
  exact ⟨hp,hl,hp',hl',by decide +kernel,hruns⟩

end Mica
