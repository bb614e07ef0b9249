import Mica.Outline
import Mica.Scope
import Mica.Source.Parse
import Mica.Text.Lines

/-! # Listings

A listing shows every method of a program with the outline of its resolved body. It is written as it
goes along, so a method that cannot be resolved ends it after everything that comes before.
-/
namespace Mica

/-- Computations that write text. -/
abbrev Writing := EStateM Problem String

namespace Writing

def line (text : String) : Writing Unit := fun written => .ok () (written ++ text ++ "\n")

def ofExcept {α : Type} : Except Problem α → Writing α
  | .ok value => fun written => .ok value written
  | .error problem => fun written => .error problem written

end Writing

namespace MethodDef

def heading (method : MethodDef) : String :=
  let words := s!"  def {method.name} " ++ " ".intercalate method.params
  String.ofList (Text.trimEnd words.toList)

def list (method : MethodDef) : Writing Unit := do
  Writing.line method.heading
  let body ← Writing.ofExcept (method.body.resolveIn (.ofMethod method.params))
  let outline ← Writing.ofExcept (body.outline .resolved defaultPad)
  Writing.line (Text.indent "    " outline)

def listAll : List MethodDef → Writing Unit
  | [] => return ()
  | method :: methods => do
    method.list
    listAll methods

end MethodDef

namespace ClassDef

def list (cls : ClassDef) : Writing Unit := do
  Writing.line s!"class {cls.name}"
  MethodDef.listAll cls.methods

def listAll : List ClassDef → Writing Unit
  | [] => return ()
  | cls :: classes => do
    cls.list
    listAll classes

end ClassDef

/-- Lists the program that a text stands for. -/
def listSource (source : String) : Writing Unit := do
  let program ← Writing.ofExcept (Program.parse source)
  ClassDef.listAll program.classes

end Mica
