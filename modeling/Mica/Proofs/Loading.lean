import Mica.Proofs.Resolution
import Mica.Run

/-! # What loading does to a machine

A program that loads gives its classes the next numbers in program order. The table of a class holds
for every name the last definition of that name, resolved in the scope of its receiver and parameters.
Everything else in the machine stays as it is, apart from the record of class names.
-/
namespace Mica

namespace ClassDef

/-- The definition of a method that counts, which is the last one under its name. -/
def latest? (cls : ClassDef) (name : String) : Option MethodDef :=
  cls.methods.reverse.find? (·.name = name)

/-- Classes with their numbers, the first one having number `number`. -/
def numberedFrom (number : Nat) : List ClassDef → List (ClassId × ClassDef)
  | [] => []
  | cls :: classes => (⟨number⟩, cls) :: numberedFrom (number + 1) classes

theorem lookup_numberedFrom_of_lt {id : ClassId} {number : Nat} (h : id.number < number)
    (classes : List ClassDef) : (numberedFrom number classes).lookup id = none := by
  induction classes generalizing number with
  | nil => rfl
  | cons cls classes ih =>
    have hne : (id == ⟨number⟩) = false := by
      refine beq_false_of_ne ?_
      rintro rfl
      simp at h
    have hr : (numberedFrom (number + 1) classes).lookup id = none := ih (by omega)
    simp only [numberedFrom, List.lookup_cons, hne, hr]

theorem number_le_of_mem_numberedFrom {number : Nat} {classes : List ClassDef} {entry : ClassId × ClassDef}
    (h : entry ∈ numberedFrom number classes) : number ≤ entry.1.number := by
  induction classes generalizing number with
  | nil => simp [numberedFrom] at h
  | cons cls classes ih =>
    rcases List.mem_cons.1 h with rfl | h
    · exact Int.le_refl _
    · have hr := ih h
      omega

/-- No two classes have the same number. -/
theorem lookup_numberedFrom_of_mem {number : Nat} {classes : List ClassDef} {id : ClassId} {cls : ClassDef}
    (h : (id,cls) ∈ numberedFrom number classes) : (numberedFrom number classes).lookup id = some cls := by
  induction classes generalizing number with
  | nil => simp [numberedFrom] at h
  | cons first classes ih =>
    rcases List.mem_cons.1 h with he | h
    · obtain ⟨rfl,rfl⟩ := Prod.mk.inj he
      simp [numberedFrom]
    · have hn := number_le_of_mem_numberedFrom h
      have hne : (id == ⟨number⟩) = false := by
        refine beq_false_of_ne ?_
        rintro rfl
        simp only at hn
        omega
      simpa only [numberedFrom, List.lookup_cons, hne] using ih h

theorem customMethod_eq_ok {cls : ClassDef} {method : MethodDef} {custom : Method} :
    cls.customMethod method = .ok custom ↔
      ∃ body, method.body.resolveIn (.ofMethod method.params) = .ok body ∧
        custom = .custom body (cls.label method) (some method.params.length) := by
  unfold customMethod
  cases method.body.resolveIn (.ofMethod method.params) with
  | error problem => simp
  | ok body => simp [eq_comm]

theorem addMethods_cons_eq_ok {cls : ClassDef} {table final : MethodTable} {method : MethodDef}
    {methods : List MethodDef} :
    cls.addMethods table (method :: methods) = .ok final ↔
      ∃ custom, cls.customMethod method = .ok custom ∧
        cls.addMethods (table.insert method.name custom) methods = .ok final := by
  rw [addMethods, Except.bind_eq_ok_iff]

/-- After adding methods a name stands for its last definition among them, if there is one. -/
theorem get?_of_addMethods {cls : ClassDef} {table final : MethodTable} {methods : List MethodDef}
    (h : cls.addMethods table methods = .ok final) (name : String) :
    (methods.reverse.find? (·.name = name) = none ∧ final.get? name = table.get? name) ∨
      ∃ method custom, methods.reverse.find? (·.name = name) = some method ∧
        cls.customMethod method = .ok custom ∧ final.get? name = some custom := by
  induction methods generalizing table with
  | nil => cases h; exact .inl ⟨rfl,rfl⟩
  | cons method methods ih =>
    obtain ⟨custom,hc,hr⟩ := addMethods_cons_eq_ok.1 h
    rw [List.reverse_cons, List.find?_append]
    rcases ih hr with ⟨hn,hg⟩ | ⟨later,compiled,hl,hk,hg⟩
    · rw [hn, hg, Table.get?_insert]
      by_cases hm : method.name = name
      · exact .inr ⟨method,custom,by simp [hm],hc,by simp [hm]⟩
      · exact .inl ⟨by simp [hm],by simp [hm]⟩
    · exact .inr ⟨later,compiled,by simp [hl],hk,hg⟩

theorem get?_of_methodTable {cls : ClassDef} {table : MethodTable} (h : cls.methodTable = .ok table)
    (name : String) :
    (cls.latest? name = none ∧ table.get? name = none) ∨
      ∃ method custom, cls.latest? name = some method ∧ cls.customMethod method = .ok custom ∧
        table.get? name = some custom :=
  get?_of_addMethods h name

end ClassDef

namespace Machine

/-- A class that is ready to go into a machine under a number. -/
def StagedAs (entry : ClassId × ClassDef) (staged : Staged) : Prop :=
  staged.id = entry.1 ∧ staged.name = entry.2.name ∧ entry.2.methodTable = .ok staged.table

/-- A class is found by name among the staged ones where it stands in the program. -/
theorem lookup_of_stagedAs {entries : List (ClassId × ClassDef)} {staged : List Staged}
    (h : List.Forall₂ StagedAs entries staged) (name : String) :
    (staged.map fun cls => (cls.name,cls.id)).lookup name =
      (entries.find? fun entry => entry.2.name = name).map Prod.fst := by
  induction h with
  | nil => rfl
  | @cons entry first entries rest hf hr ih =>
    obtain ⟨hid,hname,_⟩ := hf
    rw [List.map_cons, List.lookup_cons, List.find?_cons, hname, hid]
    by_cases he : entry.2.name = name
    · simp [he]
    · have hb : (name == entry.2.name) = false := beq_false_of_ne (Ne.symm he)
      simp [he, hb, ih]

/-- Staging takes one number for each class and leaves the rest of the machine alone. -/
theorem stage_eq_ok {known : List String} {classes : List ClassDef} {machine after : Machine}
    {staged : List Staged} (h : stage known classes machine = .ok staged after) :
    after = { machine with classCount := machine.classCount + classes.length } ∧
      List.Forall₂ StagedAs (ClassDef.numberedFrom (machine.classCount + 1) classes) staged := by
  induction classes generalizing known machine after staged with
  | nil => cases h; exact ⟨rfl,.nil⟩
  | cons cls classes ih =>
    rw [stage] at h
    by_cases hk : cls.name ∈ known
    · simp [hk, bind, EStateM.bind, EStateM.throw_apply] at h
    · cases ht : cls.methodTable with
      | error problem =>
        simp [hk, ht, bind, EStateM.bind, newClassId, EStateM.throw_apply] at h
      | ok table =>
        simp only [hk, ht, bind, EStateM.bind, newClassId, pure, EStateM.pure, if_false] at h
        cases hr : stage (cls.name :: known) classes { machine with classCount := machine.classCount + 1 } with
        | error problem left => simp [hr] at h
        | ok rest left =>
          obtain ⟨rfl,hs⟩ := ih hr
          simp only [hr, EStateM.Result.ok.injEq] at h
          obtain ⟨rfl,rfl⟩ := h
          refine ⟨?_,.cons ⟨rfl,rfl,ht⟩ hs⟩
          simp [Nat.add_assoc, Nat.add_comm 1]

/-- After installing classes an object finds the table of its own class. -/
theorem get?_foldl_install {number : Nat} {classes : List ClassDef} {staged : List Staged}
    (h : List.Forall₂ StagedAs (ClassDef.numberedFrom number classes) staged) (machine : Machine)
    (id : ClassId) :
    ((ClassDef.numberedFrom number classes).lookup id = none ∧
        (staged.foldl install machine).methods.get? (.object id) = machine.methods.get? (.object id)) ∨
      ∃ cls table, (ClassDef.numberedFrom number classes).lookup id = some cls ∧
        cls.methodTable = .ok table ∧
        (staged.foldl install machine).methods.get? (.object id) = some table := by
  induction classes generalizing number staged machine with
  | nil => cases h; exact .inl ⟨rfl,rfl⟩
  | cons cls classes ih =>
    obtain ⟨first,rest,⟨hid,_,ht⟩,hr,rfl⟩ := List.forall₂_cons_left_iff.1 h
    rw [List.foldl_cons, ClassDef.numberedFrom, List.lookup_cons]
    by_cases hn : id = ⟨number⟩
    · subst hn
      have hnone : (ClassDef.numberedFrom (number + 1) classes).lookup ⟨number⟩ = none :=
        ClassDef.lookup_numberedFrom_of_lt (by dsimp only; omega) classes
      rcases ih hr (install machine first) with ⟨_,hg⟩ | ⟨_,_,hl,_⟩
      · refine .inr ⟨cls,first.table,by simp,ht,?_⟩
        rw [hg]
        simp [install, hid]
      · rw [hnone] at hl
        exact absurd hl (by simp)
    · have hne : first.id ≠ id := by rw [hid]; exact fun h => hn h.symm
      have hb : (id == ⟨number⟩) = false := beq_false_of_ne hn
      simp only [hb]
      rcases ih hr (install machine first) with ⟨hl,hg⟩ | ⟨later,table,hl,hm,hg⟩
      · refine .inl ⟨hl,?_⟩
        rw [hg]
        simp [install, TypeKey.object, hne]
      · exact .inr ⟨later,table,hl,hm,hg⟩

theorem get?_foldl_install_of_ne (staged : List Staged) (machine : Machine) {type : TypeKey}
    (h : type.classId = none) :
    (staged.foldl install machine).methods.get? type = machine.methods.get? type := by
  induction staged generalizing machine with
  | nil => rfl
  | cons first rest ih =>
    have hne : TypeKey.object first.id ≠ type := by
      rintro rfl
      cases h
    rw [List.foldl_cons, ih]
    simp [install, hne]

theorem foldl_install_frame (staged : List Staged) (machine : Machine) :
    (staged.foldl install machine).stack = machine.stack ∧
      (staged.foldl install machine).classCount = machine.classCount ∧
      (staged.foldl install machine).objectCount = machine.objectCount ∧
      (staged.foldl install machine).output = machine.output := by
  induction staged generalizing machine with
  | nil => exact ⟨rfl,rfl,rfl,rfl⟩
  | cons first rest ih => exact ih (install machine first)

/-- Loading is staging followed by installing. -/
theorem load_eq_ok {program : Program} {machine loaded : Machine} {classes : List (String × ClassId)}
    (h : load program machine = .ok classes loaded) :
    ∃ staged, List.Forall₂ StagedAs (ClassDef.numberedFrom (machine.classCount + 1) program.classes) staged ∧
      classes = staged.map (fun cls => (cls.name,cls.id)) ∧
      loaded = staged.foldl install
        { machine with classCount := machine.classCount + program.classes.length } := by
  simp only [load, bind, EStateM.bind, EStateM.get_apply] at h
  cases hs : stage machine.classNames.values program.classes machine with
  | error problem left => simp [hs] at h
  | ok staged left =>
    obtain ⟨rfl,hf⟩ := stage_eq_ok hs
    simp only [hs, EStateM.modify_apply, pure, EStateM.pure, EStateM.Result.ok.injEq] at h
    exact ⟨staged,hf,h.1.symm,h.2.symm⟩

/-- Loading fails as staging does. -/
theorem load_eq_error {program : Program} {machine after : Machine} {problem : Problem}
    (h : load program machine = .error problem after) :
    stage machine.classNames.values program.classes machine = .error problem after := by
  simp only [load, bind, EStateM.bind, EStateM.get_apply] at h
  cases hs : stage machine.classNames.values program.classes machine with
  | ok staged left => simp [hs, EStateM.modify_apply, pure, EStateM.pure] at h
  | error found left =>
    simp only [hs, EStateM.Result.error.injEq] at h
    rw [h.1, h.2]

theorem load_frame {program : Program} {machine loaded : Machine} {classes : List (String × ClassId)}
    (h : load program machine = .ok classes loaded) :
    loaded.stack = machine.stack ∧ loaded.objectCount = machine.objectCount ∧ loaded.output = machine.output := by
  obtain ⟨staged,_,_,rfl⟩ := load_eq_ok h
  have hf := foldl_install_frame staged
    { machine with classCount := machine.classCount + program.classes.length }
  exact ⟨hf.1,hf.2.2⟩

variable {source entry : String} {program : Program} {machine loaded : Machine}
  {classes : List (String × ClassId)}

/-- Once its text is loaded, a run is a run of the class found under the name of the entry. -/
theorem runSource_of_load (hp : Program.parse source = .ok program)
    (hl : load program machine = .ok classes loaded) (depth : Nat) :
    runSource depth source entry machine =
      match classes.lookup entry with
      | none => Action.fail (.noEntryClass entry) loaded
      | some id => runClass depth id loaded := by
  simp only [runSource, hp, Action.ofExcept, Action.bind_apply, Action.pure, Action.ofEStateM, hl]
  cases classes.lookup entry <;> rfl

theorem runClass_of_method {id : ClassId} {method : Method}
    (h : machine.method? (.object id) entryMethod = some method) (depth : Nat) :
    runClass depth id machine =
      invoke depth method (.object id machine.objectCount) []
        { machine with objectCount := machine.objectCount + 1 } := by
  simp only [runClass, h, Action.bind_apply, Action.newObject]

theorem runClass_of_noMethod {id : ClassId} (h : machine.method? (.object id) entryMethod = none)
    (depth : Nat) : runClass depth id machine = Action.fail .noEntryMethod machine := by
  simp only [runClass, h]

end Machine

end Mica
