import Mica.Expr

/-! # Outlines

An outline shows a tree one node to a line, children below their parent and one level deeper. It is
first a list of levels and labels, so that the tree can be read off it without regard to the
indentation, and only then a text.
-/
namespace Mica

/-- How an outline shows binders and references. -/
structure Labels (β ρ : Type) where
  binder : β → Option String
  reference : ρ → String

namespace Labels

def named : Labels String String := ⟨some, id⟩

def resolved : Labels Unit Int := ⟨fun _ => none, toString⟩

end Labels

namespace Expr

variable {β ρ : Type}

mutual

/-- The nodes of a tree whose root is at `level`, parents before children. -/
def nodes (labels : Labels β ρ) (level : Nat) : Expr β ρ → Except Problem (List (Nat × String))
  | lit value => .ok [(level, "literal " ++ value.display)]
  | call name receiver args => do
    let first ← nodes labels (level + 1) receiver
    let rest ← nodesAll labels (level + 1) args
    return (level, "call " ++ name) :: first ++ rest
  | var reference => .ok [(level, "var " ++ labels.reference reference)]
  | letIn binder bound body => do
    let first ← nodes labels (level + 1) bound
    let rest ← nodes labels (level + 1) body
    return (level, ((labels.binder binder).map ("let " ++ ·)).getD "let") :: first ++ rest
  | cond test yes no => do
    let first ← nodes labels (level + 1) test
    let second ← nodes labels (level + 1) yes
    let third ← nodes labels (level + 1) no
    return (level, "if") :: first ++ second ++ third
  | seq steps => do
    let rest ← nodesAll labels (level + 1) steps
    return (level, "do") :: rest
  | stray text => .error (.misuse (.unprintable text))

def nodesAll (labels : Labels β ρ) (level : Nat) :
    List (Expr β ρ) → Except Problem (List (Nat × String))
  | [] => .ok []
  | expr :: exprs => do
    let first ← nodes labels level expr
    let rest ← nodesAll labels level exprs
    return first ++ rest

end

/-- The text of an outline, each line indented by one `pad` a level. -/
def layOut (pad : String) (lines : List (Nat × String)) : String :=
  "\n".intercalate (lines.map fun line => String.join (List.replicate line.1 pad) ++ line.2)

def outline (labels : Labels β ρ) (pad : String) (expr : Expr β ρ) : Except Problem String :=
  (expr.nodes labels 0).map (layOut pad)

end Expr

/-- The indentation of an outline that asks for none in particular. -/
def defaultPad : String := "  "

end Mica
