import Mica.Proofs.Admission
import Mica.Proofs.Frames

/-! # The register of classes

A machine keeps a register of its classes: their numbers with their names, and a table of methods for each
number. By loading and evaluating the register only ever grows at its end. A program that is admitted adds its
classes to it, one by one under the next numbers, and any other program leaves it as it is.
-/
namespace Mica

namespace Table

variable {κ α : Type} [DecidableEq κ] {table : Table κ α} {key : κ} {value : α}

theorem insert_of_not_mem (h : key ∉ table.keys) : table.insert key value = ⟨table.entries ++ [(key,value)]⟩ :=
  congrArg Table.mk (putIn_of_not_mem h)

theorem get?_append {entries : List (κ × α)} (h : table.get? key = some value) :
    (⟨table.entries ++ entries⟩ : Table κ α).get? key = some value := by
  obtain ⟨first⟩ := table
  induction first with
  | nil => simp [get?, findIn] at h
  | cons entry rest ih =>
    by_cases he : entry.1 = key
    · simpa [get?, findIn, he] using h
    · simpa [get?, findIn, he] using ih (by simpa [get?, findIn, he] using h)

end Table

namespace Machine

/-- The register of a machine is in order, and nothing is on the stack. -/
structure Orderly (machine : Machine) : Prop where
  tables : machine.methods.keys = .string :: machine.classNames.keys.map .object
  builtins : machine.methods.get? .string = some builtinMethods
  increasing : machine.classNames.keys.Pairwise (· < ·)
  counted : ∀ id ∈ machine.classNames.keys, id.number ≤ machine.classCount
  names : machine.classNames.values.Nodup
  stack : machine.stack = []

theorem orderly_fresh : fresh.Orderly := ⟨rfl,rfl,.nil,nofun,.nil,rfl⟩

theorem Orderly.of_eq {machine after : Machine} (h : machine.Orderly) (hm : after.methods = machine.methods)
    (hn : after.classNames = machine.classNames) (hc : machine.classCount ≤ after.classCount)
    (hs : after.stack = machine.stack) : after.Orderly := by
  refine ⟨by rw [hm, hn, h.tables],by rw [hm, h.builtins],hn ▸ h.increasing,?_,hn ▸ h.names,hs.trans h.stack⟩
  intro id hid
  have := h.counted id (hn ▸ hid)
  omega

/-- A machine with classes added at the end of its register. -/
def enroll (machine : Machine) (staged : List Staged) : Machine :=
  { machine with
    methods := ⟨machine.methods.entries ++ staged.map fun cls => (.object cls.id,cls.table)⟩
    classNames := ⟨machine.classNames.entries ++ staged.map fun cls => (cls.id,cls.name)⟩ }

section Enroll

variable (machine : Machine) (staged more : List Staged)

theorem ids_enroll : (machine.enroll staged).classNames.keys = machine.classNames.keys ++ staged.map (·.id) := by
  simp [enroll, Table.keys]

theorem names_enroll :
    (machine.enroll staged).classNames.values = machine.classNames.values ++ staged.map (·.name) := by
  simp [enroll, Table.values]

theorem types_enroll :
    (machine.enroll staged).methods.keys = machine.methods.keys ++ (staged.map (·.id)).map TypeKey.object := by
  simp [enroll, Table.keys]

theorem enroll_append : (machine.enroll staged).enroll more = machine.enroll (staged ++ more) := by
  simp [enroll]

end Enroll

/-- Installing classes under numbers that are not in use adds them at the end. -/
theorem foldl_install_eq {staged : List Staged} {machine : Machine} (hd : (staged.map (·.id)).Nodup)
    (hn : ∀ cls ∈ staged, cls.id ∉ machine.classNames.keys)
    (hm : ∀ cls ∈ staged, TypeKey.object cls.id ∉ machine.methods.keys) :
    staged.foldl install machine = machine.enroll staged := by
  induction staged generalizing machine with
  | nil => simp [enroll]
  | cons first rest ih =>
    obtain ⟨hne,hd⟩ := List.nodup_cons.1 hd
    obtain ⟨hnf,hnr⟩ := List.forall_mem_cons.1 hn
    obtain ⟨hmf,hmr⟩ := List.forall_mem_cons.1 hm
    have hfirst : install machine first = machine.enroll [first] := by
      simp only [install, enroll, Table.insert_of_not_mem hnf, Table.insert_of_not_mem hmf, List.map_cons,
        List.map_nil]
    have hother (cls : Staged) (hc : cls ∈ rest) : cls.id ≠ first.id := by
      intro he
      exact hne (List.mem_map.2 ⟨cls,hc,he⟩)
    rw [List.foldl_cons, hfirst, ih hd, enroll_append]
    · rfl
    · intro cls hc hk
      rw [ids_enroll, List.mem_append] at hk
      rcases hk with hk | hk
      · exact hnr cls hc hk
      · exact hother cls hc (by simpa using hk)
    · intro cls hc hk
      rw [types_enroll, List.mem_append] at hk
      rcases hk with hk | hk
      · exact hmr cls hc hk
      · exact hother cls hc (by simpa [TypeKey.object] using hk)

theorem load_eq (program : Program) (machine : Machine) :
    load program machine =
      match stage machine.classNames.values program.classes machine with
      | .ok staged left => .ok (staged.map fun cls => (cls.name,cls.id)) (staged.foldl install left)
      | .error problem left => .error problem left := by
  simp only [load, bind, EStateM.bind, EStateM.get_apply]
  cases stage machine.classNames.values program.classes machine <;> rfl

theorem map_fst_numberedFrom (number : Nat) (classes : List ClassDef) :
    (ClassDef.numberedFrom number classes).map Prod.fst =
      (List.range' number classes.length).map fun n : Nat => ⟨n⟩ := by
  induction classes generalizing number with
  | nil => rfl
  | cons cls classes ih =>
    rw [ClassDef.numberedFrom, List.map_cons, ih, List.length_cons, List.range'_succ, List.map_cons]

theorem map_snd_numberedFrom (number : Nat) (classes : List ClassDef) :
    (ClassDef.numberedFrom number classes).map Prod.snd = classes := by
  induction classes generalizing number with
  | nil => rfl
  | cons cls classes ih => rw [ClassDef.numberedFrom, List.map_cons, ih]

theorem increasing_range' (number count : Nat) :
    ((List.range' number count).map fun n : Nat => (⟨n⟩ : ClassId)).Pairwise (· < ·) :=
  List.Pairwise.map _ (fun _ _ hab => Int.ofNat_lt.2 hab) List.pairwise_lt_range'

section StagedAs

variable {number : Nat} {classes : List ClassDef} {staged : List Staged}

theorem entries_of_stagedAs {entries : List (ClassId × ClassDef)} (h : List.Forall₂ StagedAs entries staged) :
    staged.map (fun cls => (cls.id,cls.name)) = entries.map fun entry => (entry.1,entry.2.name) := by
  induction h with
  | nil => rfl
  | cons hc _ ih =>
    obtain ⟨hid,hname,_⟩ := hc
    rw [List.map_cons, List.map_cons, ih, hid, hname]

theorem ids_of_stagedAs (h : List.Forall₂ StagedAs (ClassDef.numberedFrom number classes) staged) :
    staged.map (·.id) = (List.range' number classes.length).map fun n : Nat => ⟨n⟩ := by
  have he := congrArg (List.map Prod.fst) (entries_of_stagedAs h)
  rw [List.map_map, List.map_map] at he
  exact he.trans (map_fst_numberedFrom number classes)

theorem names_of_stagedAs (h : List.Forall₂ StagedAs (ClassDef.numberedFrom number classes) staged) :
    staged.map (·.name) = classes.map (·.name) := by
  have he := congrArg (List.map Prod.snd) (entries_of_stagedAs h)
  rw [List.map_map, List.map_map] at he
  rw [← map_snd_numberedFrom number classes, List.map_map]
  exact he

theorem increasing_of_stagedAs (h : List.Forall₂ StagedAs (ClassDef.numberedFrom number classes) staged) :
    (staged.map (·.id)).Pairwise (· < ·) := by
  rw [ids_of_stagedAs h]
  exact increasing_range' number classes.length

theorem number_of_stagedAs (h : List.Forall₂ StagedAs (ClassDef.numberedFrom number classes) staged) {id : ClassId}
    (hid : id ∈ staged.map (·.id)) : number ≤ id.number ∧ id.number < number + classes.length := by
  rw [ids_of_stagedAs h, List.mem_map] at hid
  obtain ⟨n,hn,rfl⟩ := hid
  have hn := List.mem_range'_1.1 hn
  dsimp only
  omega

end StagedAs

theorem ne_of_lt {id other : ClassId} (h : id < other) : id ≠ other := by
  rintro rfl
  exact Int.lt_irrefl _ h

variable {machine after : Machine} {program : Program} {classes : List (String × ClassId)}

theorem Orderly.not_mem_of_lt (h : machine.Orderly) {id : ClassId} (hid : machine.classCount < id.number) :
    id ∉ machine.classNames.keys ∧ TypeKey.object id ∉ machine.methods.keys := by
  have hn : id ∉ machine.classNames.keys := by
    intro hk
    have := h.counted id hk
    omega
  refine ⟨hn,?_⟩
  rw [h.tables, List.mem_cons, List.mem_map]
  rintro (hs | ⟨other,ho,he⟩)
  · simp [TypeKey.object, TypeKey.string] at hs
  · obtain rfl : other = id := by simpa [TypeKey.object] using he
    exact hn ho

/-- Loading adds the classes of a program at the end of the register, under the next numbers. -/
theorem Orderly.load_eq_ok (h : machine.Orderly) (hl : load program machine = .ok classes after) :
    ∃ staged, List.Forall₂ StagedAs (ClassDef.numberedFrom (machine.classCount + 1) program.classes) staged ∧
      classes = staged.map (fun cls => (cls.name,cls.id)) ∧
      after = { machine.enroll staged with classCount := machine.classCount + program.classes.length } := by
  obtain ⟨staged,hs,hc,rfl⟩ := Machine.load_eq_ok hl
  have hnew (cls : Staged) (hm : cls ∈ staged) :
      cls.id ∉ machine.classNames.keys ∧ TypeKey.object cls.id ∉ machine.methods.keys := by
    have hge := (number_of_stagedAs hs (List.mem_map_of_mem hm)).1
    exact h.not_mem_of_lt (by omega)
  refine ⟨staged,hs,hc,?_⟩
  exact foldl_install_eq ((increasing_of_stagedAs hs).imp ne_of_lt) (fun cls hm => (hnew cls hm).1)
    fun cls hm => (hnew cls hm).2

theorem admitted_of_load (hl : load program machine = .ok classes after) :
    Admitted machine.classNames.values program.classes := by
  rw [load_eq] at hl
  cases hs : stage machine.classNames.values program.classes machine with
  | error problem left => simp [hs] at hl
  | ok staged left => exact admitted_of_stage hs

theorem Orderly.of_load (h : machine.Orderly) (hl : load program machine = .ok classes after) : after.Orderly := by
  have ha := admitted_of_load hl
  obtain ⟨staged,hs,_,rfl⟩ := h.load_eq_ok hl
  refine ⟨?_,?_,?_,?_,?_,h.stack⟩
  · change (machine.enroll staged).methods.keys = .string :: (machine.enroll staged).classNames.keys.map .object
    rw [types_enroll, ids_enroll, h.tables, List.map_append, List.cons_append]
  · exact Table.get?_append h.builtins
  · change (machine.enroll staged).classNames.keys.Pairwise (· < ·)
    rw [ids_enroll]
    refine List.pairwise_append.2 ⟨h.increasing,increasing_of_stagedAs hs,fun id hid other ho => ?_⟩
    have hle := h.counted id hid
    have hge := (number_of_stagedAs hs ho).1
    change id.number < other.number
    omega
  · change ∀ id ∈ (machine.enroll staged).classNames.keys, _
    rw [ids_enroll]
    intro id hid
    change id.number ≤ (machine.classCount + program.classes.length : Nat)
    rcases List.mem_append.1 hid with hid | hid
    · have := h.counted id hid
      omega
    · have := (number_of_stagedAs hs hid).2
      omega
  · change (machine.enroll staged).classNames.values.Nodup
    rw [names_enroll, names_of_stagedAs hs]
    refine List.nodup_append.2 ⟨h.names,ha.distinct,fun name hn other ho he => ?_⟩
    obtain ⟨cls,hm,rfl⟩ := List.mem_map.1 ho
    exact ha.new cls hm (he ▸ hn)

theorem refused_of_load {problem : Problem} (hl : load program machine = .error problem after) :
    ∃ before cls rest taken, program.classes = before ++ cls :: rest ∧ Admitted machine.classNames.values before ∧
      Refused machine.classNames.values before cls problem taken ∧
      after = { machine with classCount := machine.classCount + (before.length + taken) } :=
  refused_of_stage (load_eq_error hl)

theorem exists_load_iff :
    (∃ classes after, load program machine = .ok classes after) ↔
      Admitted machine.classNames.values program.classes := by
  constructor
  · rintro ⟨classes,after,hl⟩
    exact admitted_of_load hl
  · intro ha
    cases hl : load program machine with
    | ok classes after => exact ⟨classes,after,rfl⟩
    | error problem after =>
      obtain ⟨before,cls,rest,taken,hs,_,hr,_⟩ := refused_of_load hl
      exact absurd (hs ▸ ha) hr.not_admitted

theorem Orderly.of_refusal {problem : Problem} (h : machine.Orderly)
    (hl : load program machine = .error problem after) : after.Orderly := by
  obtain ⟨before,cls,rest,taken,_,_,_,rfl⟩ := refused_of_load hl
  exact h.of_eq rfl rfl (Nat.le_add_right _ _) rfl

theorem Orderly.of_evaluation {evaluation : Evaluation} {depth : Nat} {ending : Except Problem Value}
    (h : machine.Orderly) (he : evaluation.start depth machine = Outcome.ended ending after) : after.Orderly := by
  obtain ⟨text,_,rfl⟩ := Evaluation.of_start he
  exact h.of_eq rfl rfl (Nat.le_refl _) rfl

/-- A class that is ready under its number and name. Its table has for each name the last method that the class
defines under it, with the body resolved in the scope of the receiver and the parameters. -/
structure ReadyAs (entry : ClassId × ClassDef) (staged : Staged) : Prop where
  id : staged.id = entry.1
  name : staged.name = entry.2.name
  defined : ∀ name method, entry.2.latest? name = some method →
    ∃ body, method.body.resolveIn (.ofMethod method.params) = .ok body ∧
      staged.table.get? name = some (.custom body (entry.2.label method) (some method.params.length))
  undefined : ∀ name, entry.2.latest? name = none → staged.table.get? name = none

theorem StagedAs.readyAs {entry : ClassId × ClassDef} {staged : Staged} (h : StagedAs entry staged) :
    ReadyAs entry staged := by
  obtain ⟨hid,hname,ht⟩ := h
  refine ⟨hid,hname,fun name method hm => ?_,fun name hm => ?_⟩
  · rcases ClassDef.get?_of_methodTable ht name with ⟨hn,_⟩ | ⟨found,custom,hf,hc,hg⟩
    · simp [hn] at hm
    · obtain rfl : found = method := Option.some.inj (hf.symm.trans hm)
      obtain ⟨body,hb,rfl⟩ := ClassDef.customMethod_eq_ok.1 hc
      exact ⟨body,hb,hg⟩
  · rcases ClassDef.get?_of_methodTable ht name with ⟨_,hg⟩ | ⟨found,custom,hf,_,_⟩
    · exact hg
    · simp [hf] at hm

end Machine

/-- The machines that come about by loading programs and by evaluating, whether or not that succeeds. An evaluation
that goes too deep leads to none. -/
inductive Grown : Machine → Prop where
  | fresh : Grown .fresh
  | load {machine after : Machine} {program : Program} {ending : Except Problem (List (String × ClassId))} :
      Grown machine → some (Machine.load program machine) = Outcome.ended ending after → Grown after
  | evaluation {machine after : Machine} {evaluation : Evaluation} {depth : Nat} {ending : Except Problem Value} :
      Grown machine → evaluation.start depth machine = Outcome.ended ending after → Grown after

theorem Grown.orderly {machine : Machine} (h : Grown machine) : machine.Orderly := by
  induction h with
  | fresh => exact Machine.orderly_fresh
  | @load machine after program ending _ hl ih =>
    cases ending with
    | ok classes => exact ih.of_load (Option.some.inj hl)
    | error problem => exact ih.of_refusal (Option.some.inj hl)
  | evaluation _ he ih => exact ih.of_evaluation he

/-- Loading is all or nothing. It succeeds exactly for the programs that are admitted. Then the classes get the
next numbers in program order and are added at the end of the register, and nothing else changes but the count.
Otherwise the problem is that of the first class at fault, and nothing changes but the count, by the number of
classes that took a number. -/
theorem load_all_or_nothing {machine : Machine} (h : Grown machine) (program : Program) :
    ((∃ classes after, Machine.load program machine = .ok classes after) ↔
      Admitted machine.classNames.values program.classes) ∧
    (∀ classes after, Machine.load program machine = .ok classes after →
      ∃ staged, List.Forall₂ Machine.ReadyAs (ClassDef.numberedFrom (machine.classCount + 1) program.classes) staged ∧
        classes = staged.map (fun cls => (cls.name,cls.id)) ∧
        after = { machine with
          methods := ⟨machine.methods.entries ++ staged.map fun cls => (.object cls.id,cls.table)⟩
          classNames := ⟨machine.classNames.entries ++ staged.map fun cls => (cls.id,cls.name)⟩
          classCount := machine.classCount + program.classes.length }) ∧
    ∀ problem after, Machine.load program machine = .error problem after →
      ∃ before cls rest taken, program.classes = before ++ cls :: rest ∧
        Admitted machine.classNames.values before ∧ Refused machine.classNames.values before cls problem taken ∧
        after = { machine with classCount := machine.classCount + (before.length + taken) } := by
  refine ⟨Machine.exists_load_iff,fun classes after hl => ?_,fun problem after => Machine.refused_of_load⟩
  obtain ⟨staged,hs,hc,ha⟩ := h.orderly.load_eq_ok hl
  exact ⟨staged,hs.imp fun _ _ => Machine.StagedAs.readyAs,hc,ha⟩

/-- A class that is loaded already. -/
def settled : Program := ⟨[⟨"A",[⟨"m",[],.var "this"⟩]⟩]⟩

def settledMachine : Machine :=
  { Machine.fresh with
    methods := ⟨[(.string,Machine.builtinMethods),(.object ⟨1⟩,⟨[("m",.custom (.var 0) "A.m" (some 0))]⟩)]⟩
    classNames := ⟨[(⟨1⟩,"A")]⟩
    classCount := 1 }

/-- The second class has a variable free in a method that a later one replaces; the third has a name that is taken. -/
def faulty : Program :=
  ⟨[⟨"B",[⟨"m",["x"],.var "x"⟩]⟩,
    ⟨"C",[⟨"m",["y"],.letIn "x" (.var "x") (.var "y")⟩,⟨"m",[],.lit .unit⟩]⟩,
    ⟨"A",[]⟩]⟩

theorem load_all_or_nothing_faulty :
    Grown settledMachine ∧
    Machine.load faulty settledMachine =
      .error (.failure ⟨.unbound "x",["C.m"]⟩) { settledMachine with classCount := 3 } ∧
    ¬ Admitted settledMachine.classNames.values faulty.classes ∧
    ∃ before cls rest taken, faulty.classes = before ++ cls :: rest ∧
      Admitted settledMachine.classNames.values before ∧
      Refused settledMachine.classNames.values before cls (.failure ⟨.unbound "x",["C.m"]⟩) taken ∧
      { settledMachine with classCount := 3 } =
        { settledMachine with classCount := settledMachine.classCount + (before.length + taken) } := by
  have hl : some (Machine.load settled .fresh) = Outcome.ended (.ok [("A",⟨1⟩)]) settledMachine := by decide +kernel
  have hg : Grown settledMachine := Grown.fresh.load hl
  have hf : Machine.load faulty settledMachine =
      .error (.failure ⟨.unbound "x",["C.m"]⟩) { settledMachine with classCount := 3 } := by decide +kernel
  obtain ⟨hiff,_,he⟩ := load_all_or_nothing hg faulty
  refine ⟨hg,hf,fun ha => ?_,he _ _ hf⟩
  obtain ⟨classes,after,hs⟩ := hiff.2 ha
  rw [hf] at hs
  cases hs

end Mica
