import Mica.Proofs.Resolution

/-! # Loose ends

What can keep an expression from being resolved lies open in it: the variables that are free, and whatever
stands in it that is no expression. Resolution fails for the first of these that the scope does not tie.
-/
namespace Mica

/-- Something in an expression that its surroundings have to account for: a variable that is free, or something
that is no expression. -/
inductive LooseEnd where
  | free (name : String)
  | stray (text : String)
deriving DecidableEq

namespace LooseEnd

/-- A scope ties the variables that it binds. -/
def tiedIn (scope : Scope) : LooseEnd → Bool
  | free name => name ∈ scope
  | stray _ => false

def problem : LooseEnd → Problem
  | free name => .ofCause (.unbound name)
  | stray text => .misuse (.unresolvable text)

end LooseEnd

namespace Named

mutual

/-- The loose ends of an expression in the order in which they occur. A binding ties its name in the body only. -/
def looseEnds : Named → List LooseEnd
  | .lit _ => []
  | .call _ receiver args => looseEnds receiver ++ looseEndsAll args
  | .var name => [.free name]
  | .letIn name bound body => looseEnds bound ++ (looseEnds body).filter (· ≠ .free name)
  | .cond test yes no => looseEnds test ++ (looseEnds yes ++ looseEnds no)
  | .seq steps => looseEndsAll steps
  | .stray text => [.stray text]

def looseEndsAll : List Named → List LooseEnd
  | [] => []
  | expr :: exprs => looseEnds expr ++ looseEndsAll exprs

end

theorem looseEndsAll_eq_flatMap (exprs : List Named) : looseEndsAll exprs = exprs.flatMap looseEnds := by
  induction exprs with
  | nil => rfl
  | cons expr exprs ih => rw [looseEndsAll, List.flatMap_cons, ih]

/-- The first loose end that a scope does not tie. -/
def untied? (scope : Scope) (ends : List LooseEnd) : Option LooseEnd := ends.find? fun loose => !loose.tiedIn scope

theorem untied?_append (scope : Scope) (ends more : List LooseEnd) :
    untied? scope (ends ++ more) = (untied? scope ends).or (untied? scope more) := by
  simp [untied?]

/-- What a binding ties need not be tied around it. -/
theorem untied?_filter (scope : Scope) (name : String) (ends : List LooseEnd) :
    untied? scope (ends.filter (· ≠ .free name)) = untied? (name :: scope) ends := by
  rw [untied?, untied?, List.find?_filter]
  refine congrArg (List.find? · ends) (funext fun loose => ?_)
  cases loose <;> simp [LooseEnd.tiedIn]

variable {scope : Scope}

theorem error?_mapM {exprs : List Named}
    (h : ∀ expr ∈ exprs, Except.error? (resolveIn expr scope) = (untied? scope (looseEnds expr)).map LooseEnd.problem) :
    Except.error? (exprs.mapM (resolveIn · scope)) = (untied? scope (looseEndsAll exprs)).map LooseEnd.problem := by
  rw [looseEndsAll_eq_flatMap]
  refine Except.error?_mapM (fun ends => (untied? scope ends).map LooseEnd.problem) rfl (fun first more => ?_) h
  rw [untied?_append, Option.map_or]

/-- Resolution fails exactly for the first loose end that the scope does not tie. -/
theorem error?_resolveIn (expr : Named) (scope : Scope) :
    Except.error? (expr.resolveIn scope) = (untied? scope expr.looseEnds).map LooseEnd.problem := by
  induction expr using Expr.induct generalizing scope with
  | lit value => rfl
  | var name =>
    rw [← answer_resolve, resolve, Scope.answer_bind (Scope.steady_find name)]
    refine (Except.error?_bind_pure _ _).trans ?_
    cases hi : scope.idxOf? name with
    | none =>
      have hn : name ∉ scope := List.idxOf?_eq_none_iff.1 hi
      simp [Scope.answer, Scope.find, hi, looseEnds, untied?, LooseEnd.tiedIn, hn, LooseEnd.problem, Except.error?]
    | some position =>
      have hn : name ∈ scope := List.isSome_idxOf?.1 (hi ▸ rfl)
      simp [Scope.answer, Scope.find, hi, looseEnds, untied?, LooseEnd.tiedIn, hn, Except.error?]
  | call name receiver args hr ha =>
    rw [← answer_resolve, resolve, Scope.answer_bind (steady_resolve receiver), looseEnds, untied?_append,
      Option.map_or, ← hr scope, ← error?_mapM fun arg hm => ha arg hm scope, answer_resolve]
    refine Except.error?_bind fun this => ?_
    rw [Scope.answer_bind (steady_resolveAll fun arg _ => steady_resolve arg), answer_resolveAll]
    exact Except.error?_bind_pure _ _
  | letIn name bound body hb hd =>
    -- the bound expression is resolved in the scope outside, only the body in the one with the new name
    rw [← answer_resolve, resolve, Scope.answer_bind (steady_resolve bound), looseEnds, untied?_append,
      untied?_filter, Option.map_or, ← hb scope, ← hd (name :: scope), answer_resolve]
    refine Except.error?_bind fun value => ?_
    rw [Scope.answer_bind ((steady_resolve body).binding name), Scope.answer_binding, answer_resolve]
    exact Except.error?_bind_pure _ _
  | cond test yes no ht hy hn =>
    rw [← answer_resolve, resolve, Scope.answer_bind (steady_resolve test), looseEnds, untied?_append,
      untied?_append, Option.map_or, Option.map_or, ← ht scope, ← hy scope, ← hn scope, answer_resolve]
    refine Except.error?_bind fun first => ?_
    rw [Scope.answer_bind (steady_resolve yes), answer_resolve]
    refine Except.error?_bind fun second => ?_
    rw [Scope.answer_bind (steady_resolve no), answer_resolve]
    exact Except.error?_bind_pure _ _
  | seq steps hs =>
    rw [← answer_resolve, resolve, Scope.answer_bind (steady_resolveAll fun step _ => steady_resolve step),
      answer_resolveAll, looseEnds, ← error?_mapM fun step hm => hs step hm scope]
    exact Except.error?_bind_pure _ _
  | stray text =>
    simp [looseEnds, untied?, LooseEnd.tiedIn, LooseEnd.problem, resolveIn, resolve, Except.error?,
      EStateM.throw_apply]

end Named

end Mica
