import Mica.Proofs.Loading
import Mica.Proofs.LooseEnds

/-! # Which programs are admitted

A program is admitted when the names of its classes are new and differ from each other and no method has a loose
end, whether or not a later method of the same name replaces it. A program that is not admitted is refused for
its first class at fault. The name of that class is looked at before its methods, and these are looked at in
order; a class that is refused for its name has not taken a number yet.
-/
namespace Mica

namespace MethodDef

/-- A method is made up of expressions, and every variable free in its body is the receiver or a parameter. -/
def Tied (method : MethodDef) : Prop :=
  (∀ name, .free name ∈ method.body.looseEnds → name = "this" ∨ name ∈ method.params) ∧
    ∀ text, .stray text ∉ method.body.looseEnds

/-- The first loose end of a method that neither the receiver nor a parameter ties. -/
def untied? (method : MethodDef) : Option LooseEnd :=
  Named.untied? (.ofMethod method.params) method.body.looseEnds

theorem untied?_eq_none_iff {method : MethodDef} : method.untied? = none ↔ method.Tied := by
  have hfree (name : String) : name ∈ Scope.ofMethod method.params ↔ name = "this" ∨ name ∈ method.params := by
    simp [Scope.ofMethod, or_comm]
  rw [untied?, Named.untied?, List.find?_eq_none]
  constructor
  · intro h
    refine ⟨fun name hm => ?_,fun text hm => ?_⟩
    · simpa [LooseEnd.tiedIn, hfree, or_iff_not_imp_left] using h _ hm
    · simpa [LooseEnd.tiedIn] using h _ hm
  · intro h loose hm
    cases loose with
    | free name => simpa [LooseEnd.tiedIn, hfree, or_iff_not_imp_left] using h.1 name hm
    | stray text => exact absurd hm (h.2 text)

end MethodDef

/-- Classes that are admitted where some names are taken. -/
structure Admitted (known : List String) (classes : List ClassDef) : Prop where
  distinct : (classes.map (·.name)).Nodup
  new : ∀ cls ∈ classes, cls.name ∉ known
  tied : ∀ cls ∈ classes, ∀ method ∈ cls.methods, method.Tied

/-- Why a class is refused where some names are taken and some classes come before it, and how many numbers it
has taken by then. -/
inductive Refused (known : List String) (before : List ClassDef) (cls : ClassDef) : Problem → Nat → Prop where
  | duplicate : cls.name ∈ known ∨ cls.name ∈ before.map (·.name) →
      Refused known before cls (.failure ⟨.duplicateClass cls.name,[]⟩) 0
  | unbound {earlier later : List MethodDef} {method : MethodDef} {name : String} :
      ¬ (cls.name ∈ known ∨ cls.name ∈ before.map (·.name)) → cls.methods = earlier ++ method :: later →
      (∀ other ∈ earlier, other.Tied) → method.untied? = some (.free name) →
      Refused known before cls (.failure ⟨.unbound name,[cls.label method]⟩) 1
  | stray {earlier later : List MethodDef} {method : MethodDef} {text : String} :
      ¬ (cls.name ∈ known ∨ cls.name ∈ before.map (·.name)) → cls.methods = earlier ++ method :: later →
      (∀ other ∈ earlier, other.Tied) → method.untied? = some (.stray text) →
      Refused known before cls (.misuse (.unresolvable text)) 1

theorem admitted_nil (known : List String) : Admitted known [] := ⟨.nil,nofun,nofun⟩

theorem admitted_cons {known : List String} {cls : ClassDef} {classes : List ClassDef} :
    Admitted known (cls :: classes) ↔
      cls.name ∉ known ∧ (∀ method ∈ cls.methods, method.Tied) ∧ Admitted (cls.name :: known) classes := by
  constructor
  · rintro ⟨hd,hn,ht⟩
    obtain ⟨hne,hd⟩ := List.nodup_cons.1 hd
    obtain ⟨hn,hns⟩ := List.forall_mem_cons.1 hn
    obtain ⟨ht,hts⟩ := List.forall_mem_cons.1 ht
    refine ⟨hn,ht,hd,fun other hm hk => ?_,hts⟩
    rcases List.mem_cons.1 hk with he | hk
    · exact hne (List.mem_map.2 ⟨other,hm,he⟩)
    · exact hns other hm hk
  · rintro ⟨hn,ht,hd,hns,hts⟩
    refine ⟨List.nodup_cons.2 ⟨?_,hd⟩,List.forall_mem_cons.2 ⟨hn,?_⟩,List.forall_mem_cons.2 ⟨ht,hts⟩⟩
    · intro hm
      obtain ⟨other,hm,he⟩ := List.mem_map.1 hm
      exact hns other hm (he ▸ List.mem_cons_self)
    · exact fun other hm hk => hns other hm (List.mem_cons_of_mem _ hk)

namespace Refused

variable {known : List String} {before rest : List ClassDef} {cls : ClassDef} {problem : Problem} {taken : Nat}

/-- It is the same whether a name is taken or a class of that name comes first. -/
theorem cons {first : ClassDef} (h : Refused (first.name :: known) before cls problem taken) :
    Refused known (first :: before) cls problem taken := by
  have hiff : (cls.name ∈ first.name :: known ∨ cls.name ∈ before.map (·.name)) ↔
      (cls.name ∈ known ∨ cls.name ∈ (first :: before).map (·.name)) := by
    simp only [List.map_cons, List.mem_cons]
    tauto
  cases h with
  | duplicate hk => exact .duplicate (hiff.1 hk)
  | unbound hk hs he hu => exact .unbound (fun h => hk (hiff.2 h)) hs he hu
  | stray hk hs he hu => exact .stray (fun h => hk (hiff.2 h)) hs he hu

theorem not_admitted (h : Refused known before cls problem taken) : ¬ Admitted known (before ++ cls :: rest) := by
  rintro ⟨hd,hn,ht⟩
  have hm : cls ∈ before ++ cls :: rest := by simp
  cases h with
  | duplicate hk =>
    rcases hk with hk | hk
    · exact hn cls hm hk
    · rw [List.map_append, List.map_cons] at hd
      exact (List.nodup_append.1 hd).2.2 _ hk _ List.mem_cons_self rfl
  | unbound _ hs _ hu => simp [MethodDef.untied?_eq_none_iff.2 (ht cls hm _ (hs ▸ List.mem_append_cons_self))] at hu
  | stray _ hs _ hu => simp [MethodDef.untied?_eq_none_iff.2 (ht cls hm _ (hs ▸ List.mem_append_cons_self))] at hu

end Refused

namespace ClassDef

variable {cls : ClassDef}

theorem error?_customMethod (method : MethodDef) :
    Except.error? (cls.customMethod method) =
      method.untied?.map fun loose => loose.problem.leaving (cls.label method) := by
  have h : Except.error? (method.body.resolveIn (.ofMethod method.params)) = method.untied?.map LooseEnd.problem :=
    Named.error?_resolveIn method.body (.ofMethod method.params)
  unfold customMethod
  cases hr : method.body.resolveIn (.ofMethod method.params) with
  | ok body =>
    rw [hr] at h
    rw [Option.map_eq_none_iff.1 h.symm]
    rfl
  | error problem =>
    rw [hr] at h
    obtain ⟨loose,hu,rfl⟩ := Option.map_eq_some_iff.1 h.symm
    rw [hu]
    rfl

/-- The table of a class cannot be made because of the first method that has a loose end. -/
theorem error?_addMethods (table : MethodTable) (methods : List MethodDef) :
    Except.error? (cls.addMethods table methods) =
      methods.findSome? fun method => method.untied?.map fun loose => loose.problem.leaving (cls.label method) := by
  induction methods generalizing table with
  | nil => rfl
  | cons method methods ih =>
    rw [addMethods, List.findSome?_cons, ← error?_customMethod]
    cases cls.customMethod method with
    | error problem => rfl
    | ok custom => exact ih _

theorem tied_of_methodTable {table : MethodTable} (h : cls.methodTable = .ok table) :
    ∀ method ∈ cls.methods, method.Tied := by
  have he : Except.error? cls.methodTable = _ := error?_addMethods .empty cls.methods
  rw [h] at he
  intro method hm
  exact MethodDef.untied?_eq_none_iff.1 (Option.map_eq_none_iff.1 (List.findSome?_eq_none_iff.1 he.symm method hm))

theorem refused_of_methodTable {known : List String} {before : List ClassDef} {problem : Problem}
    (hn : ¬ (cls.name ∈ known ∨ cls.name ∈ before.map (·.name))) (h : cls.methodTable = .error problem) :
    Refused known before cls problem 1 := by
  have he : Except.error? cls.methodTable = _ := error?_addMethods .empty cls.methods
  rw [h] at he
  obtain ⟨earlier,method,later,hs,hf,ht⟩ := List.findSome?_eq_some_iff.1 he.symm
  obtain ⟨loose,hu,rfl⟩ := Option.map_eq_some_iff.1 hf
  have ht (other : MethodDef) (ho : other ∈ earlier) : other.Tied :=
    MethodDef.untied?_eq_none_iff.1 (Option.map_eq_none_iff.1 (ht other ho))
  cases loose with
  | free name => exact .unbound hn hs ht hu
  | stray text => exact .stray hn hs ht hu

end ClassDef

namespace Machine

theorem stage_cons (known : List String) (cls : ClassDef) (classes : List ClassDef) (machine : Machine) :
    stage known (cls :: classes) machine =
      if cls.name ∈ known then .error (.ofCause (.duplicateClass cls.name)) machine
      else
        match cls.methodTable with
        | .error problem => .error problem { machine with classCount := machine.classCount + 1 }
        | .ok table =>
          match stage (cls.name :: known) classes { machine with classCount := machine.classCount + 1 } with
          | .error problem after => .error problem after
          | .ok rest after => .ok (⟨cls.name,⟨(machine.classCount + 1 : Nat)⟩,table⟩ :: rest) after := by
  rw [stage]
  by_cases hk : cls.name ∈ known
  · simp [hk, bind, EStateM.bind, EStateM.throw_apply]
  · cases ht : cls.methodTable with
    | error problem =>
      simp [hk, bind, EStateM.bind, newClassId, EStateM.throw_apply]
    | ok table =>
      simp only [hk, bind, EStateM.bind, newClassId, pure, EStateM.pure, if_false]
      cases stage (cls.name :: known) classes { machine with classCount := machine.classCount + 1 } <;> rfl

variable {known : List String} {classes : List ClassDef} {machine after : Machine} {problem : Problem}

theorem admitted_of_stage {staged : List Staged} (h : stage known classes machine = .ok staged after) :
    Admitted known classes := by
  induction classes generalizing known machine after staged with
  | nil => exact admitted_nil known
  | cons cls classes ih =>
    rw [stage_cons] at h
    by_cases hk : cls.name ∈ known
    · simp [hk] at h
    · cases ht : cls.methodTable with
      | error problem => simp [hk, ht] at h
      | ok table =>
        cases hr : stage (cls.name :: known) classes { machine with classCount := machine.classCount + 1 } with
        | error problem left => simp [hk, ht, hr] at h
        | ok rest left => exact admitted_cons.2 ⟨hk,ClassDef.tied_of_methodTable ht,ih hr⟩

/-- A refusal comes from the first class at fault. -/
theorem refused_of_stage (h : stage known classes machine = .error problem after) :
    ∃ before cls rest taken, classes = before ++ cls :: rest ∧ Admitted known before ∧
      Refused known before cls problem taken ∧
      after = { machine with classCount := machine.classCount + (before.length + taken) } := by
  induction classes generalizing known machine with
  | nil => cases h
  | cons cls classes ih =>
    rw [stage_cons] at h
    by_cases hk : cls.name ∈ known
    · rw [if_pos hk] at h
      cases h
      exact ⟨[],cls,classes,0,rfl,admitted_nil known,.duplicate (.inl hk),rfl⟩
    · rw [if_neg hk] at h
      cases ht : cls.methodTable with
      | error found =>
        rw [ht] at h
        cases h
        refine ⟨[],cls,classes,1,rfl,admitted_nil known,ClassDef.refused_of_methodTable ?_ ht,by simp⟩
        simpa using hk
      | ok table =>
        rw [ht] at h
        cases hr : stage (cls.name :: known) classes { machine with classCount := machine.classCount + 1 } with
        | ok rest left => simp [hr] at h
        | error found left =>
          simp only [hr] at h
          cases h
          obtain ⟨before,refused,rest,taken,rfl,ha,hf,rfl⟩ := ih hr
          refine ⟨cls :: before,refused,rest,taken,rfl,?_,hf.cons,?_⟩
          · exact admitted_cons.2 ⟨hk,ClassDef.tied_of_methodTable ht,ha⟩
          · have hc : machine.classCount + 1 + (before.length + taken) =
                machine.classCount + ((cls :: before).length + taken) := by
              rw [List.length_cons]
              omega
            rw [← hc]

end Machine

end Mica
