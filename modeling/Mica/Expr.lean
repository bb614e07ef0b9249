import Mica.Failure

/-! # Expressions

One tree type serves both forms of an expression. In the named form binders and references are
names. In the resolved form a binder carries nothing and a reference counts the bindings between
it and its own, the innermost being number zero.
-/
namespace Mica

/-- Expressions with binders of type `β` and references of type `ρ`. A `stray` is something that
stands where an expression should, known only by its text. -/
inductive Expr (β ρ : Type) where
  | lit (value : Value)
  | call (name : String) (receiver : Expr β ρ) (args : List (Expr β ρ))
  | var (reference : ρ)
  | letIn (binder : β) (bound body : Expr β ρ)
  | cond (test yes no : Expr β ρ)
  | seq (steps : List (Expr β ρ))
  | stray (text : String)

namespace Expr

variable {β ρ : Type}

/-- A property of all expressions follows from the same property of their parts. -/
@[elab_as_elim, induction_eliminator]
theorem induct {motive : Expr β ρ → Prop} (lit : ∀ value, motive (lit value))
    (call : ∀ name receiver args, motive receiver → (∀ arg ∈ args, motive arg) →
      motive (call name receiver args))
    (var : ∀ reference, motive (var reference))
    (letIn : ∀ binder bound body, motive bound → motive body → motive (letIn binder bound body))
    (cond : ∀ test yes no, motive test → motive yes → motive no → motive (cond test yes no))
    (seq : ∀ steps, (∀ step ∈ steps, motive step) → motive (seq steps))
    (stray : ∀ text, motive (stray text)) (expr : Expr β ρ) : motive expr :=
  Expr.rec (motive_1 := motive) (motive_2 := fun exprs => ∀ expr ∈ exprs, motive expr)
    lit call var letIn cond seq stray (by simp)
    (fun _ _ first rest => List.forall_mem_cons.2 ⟨first, rest⟩) expr

variable [DecidableEq β] [DecidableEq ρ]

mutual

def same : Expr β ρ → Expr β ρ → Bool
  | lit a, lit b => a = b
  | call name a as, call other b bs => name = other && same a b && sameAll as bs
  | var a, var b => a = b
  | letIn binder a c, letIn other b d => binder = other && same a b && same c d
  | cond a c e, cond b d f => same a b && same c d && same e f
  | seq as, seq bs => sameAll as bs
  | stray a, stray b => a = b
  | _, _ => false

def sameAll : List (Expr β ρ) → List (Expr β ρ) → Bool
  | [], [] => true
  | a :: as, b :: bs => same a b && sameAll as bs
  | _, _ => false

end

theorem sameAll_iff {as : List (Expr β ρ)} (h : ∀ a ∈ as, ∀ b, same a b = true ↔ a = b)
    (bs : List (Expr β ρ)) : sameAll as bs = true ↔ as = bs := by
  induction as generalizing bs with
  | nil => cases bs <;> simp [sameAll]
  | cons a as ih =>
    obtain ⟨ha, has⟩ := List.forall_mem_cons.1 h
    cases bs with
    | nil => simp [sameAll]
    | cons b bs => simp [sameAll, ha b, ih has bs]

theorem same_iff (a b : Expr β ρ) : same a b = true ↔ a = b := by
  induction a generalizing b with
  | lit value => cases b <;> simp [same]
  | call name receiver args hr ha =>
    cases b <;> simp [same, hr, sameAll_iff ha, and_assoc]
  | var reference => cases b <;> simp [same]
  | letIn binder bound body hb hd => cases b <;> simp [same, hb, hd, and_assoc]
  | cond test yes no ht hy hn => cases b <;> simp [same, ht, hy, hn, and_assoc]
  | seq steps hs => cases b <;> simp [same, sameAll_iff hs]
  | stray text => cases b <;> simp [same]

instance : DecidableEq (Expr β ρ) := fun a b => decidable_of_iff _ (same_iff a b)

end Expr

abbrev Named := Expr String String

abbrev Resolved := Expr Unit Int

/-- A method as it stands in a program. -/
structure MethodDef where
  name : String
  params : List String
  body : Named
deriving DecidableEq

structure ClassDef where
  name : String
  methods : List MethodDef
deriving DecidableEq

structure Program where
  classes : List ClassDef
deriving DecidableEq

namespace ClassDef

/-- How traces name a method of a class. -/
def label (cls : ClassDef) (method : MethodDef) : String := s!"{cls.name}.{method.name}"

end ClassDef

end Mica
