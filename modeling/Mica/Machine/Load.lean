import Mica.Machine
import Mica.Scope

/-! # Loading

Loading a program gives each of its classes a number and resolves all its methods, and only then puts
them into the machine. A program that cannot be loaded in full leaves no class behind, though the
numbers it took are not used again.
-/
namespace Mica

/-- Computations on a machine that always come to an end. -/
abbrev Loading := EStateM Problem Machine

structure Staged where
  name : String
  id : ClassId
  table : MethodTable

namespace ClassDef

def customMethod (cls : ClassDef) (method : MethodDef) : Except Problem Method :=
  match method.body.resolveIn (.ofMethod method.params) with
  | .ok body => .ok (.custom body (cls.label method) (some method.params.length))
  | .error problem => .error (problem.leaving (cls.label method))

/-- Adds methods to a table. Of two definitions of one name the later one counts. -/
def addMethods (cls : ClassDef) (table : MethodTable) :
    List MethodDef → Except Problem MethodTable
  | [] => .ok table
  | method :: methods => do
    let custom ← cls.customMethod method
    cls.addMethods (table.insert method.name custom) methods

def methodTable (cls : ClassDef) : Except Problem MethodTable := cls.addMethods .empty cls.methods

end ClassDef

namespace Machine

def newClassId : Loading ClassId := fun machine =>
  let number := machine.classCount + 1
  .ok ⟨number⟩ { machine with classCount := number }

/-- Prepares classes whose names must differ from each other and from those in `known`. -/
def stage (known : List String) : List ClassDef → Loading (List Staged)
  | [] => return []
  | cls :: classes => do
    if cls.name ∈ known then throw (.ofCause (.duplicateClass cls.name))
    let id ← newClassId
    match cls.methodTable with
    | .error problem => throw problem
    | .ok table =>
      let rest ← stage (cls.name :: known) classes
      return ⟨cls.name, id, table⟩ :: rest

def install (machine : Machine) (cls : Staged) : Machine :=
  { machine with
    methods := machine.methods.insert (.object cls.id) cls.table
    classNames := machine.classNames.insert cls.id cls.name }

/-- Loads a program and gives the numbers of its classes, in program order. -/
def load (program : Program) : Loading (List (String × ClassId)) := do
  let staged ← stage (← get).classNames.values program.classes
  modify fun machine => staged.foldl install machine
  return staged.map fun cls => (cls.name, cls.id)

end Machine

end Mica
