import Mica.Proofs.LooseEnds

/-! # Inquiries

One scope can be asked again and again, to resolve an expression or to find a name. An expression is resolved exactly
when the scope has all of its free variables, and the first one that is missing is named otherwise. Whether or not an
inquiry can be answered, and even when it is about something that is no expression, the scope is the same afterwards,
so that each inquiry is answered as if it were the only one.
-/
namespace Mica

namespace LooseEnd

def name? : LooseEnd → Option String
  | free name => some name
  | stray _ => none

end LooseEnd

namespace Named

/-- The variables that are free in an expression, once for each place where they are, from left to right. -/
def freeNames (expr : Named) : List String := expr.looseEnds.filterMap LooseEnd.name?

/-- Everything in an expression is an expression. -/
def Whole (expr : Named) : Prop := ∀ loose ∈ expr.looseEnds, loose.name?.isSome = true

instance (expr : Named) : Decidable expr.Whole :=
  inferInstanceAs (Decidable (∀ loose ∈ expr.looseEnds, loose.name?.isSome = true))

theorem untied?_of_names {ends : List LooseEnd} (h : ∀ loose ∈ ends, loose.name?.isSome = true) (scope : Scope) :
    untied? scope ends = ((ends.filterMap LooseEnd.name?).find? (· ∉ scope)).map .free := by
  induction ends with
  | nil => rfl
  | cons loose ends ih =>
    obtain ⟨hfirst,hrest⟩ := List.forall_mem_cons.1 h
    cases loose with
    | stray text => cases hfirst
    | free name =>
      have hmore := ih hrest
      rw [untied?] at hmore ⊢
      by_cases hn : name ∈ scope
      · simpa [LooseEnd.name?, LooseEnd.tiedIn, hn] using hmore
      · simp [LooseEnd.name?, LooseEnd.tiedIn, hn]

/-- What keeps an expression from being resolved is the first of its free variables that is not in scope. -/
theorem Whole.error?_resolveIn {expr : Named} (h : expr.Whole) (scope : Scope) :
    Except.error? (expr.resolveIn scope) =
      (expr.freeNames.find? (· ∉ scope)).map fun name => .ofCause (.unbound name) := by
  rw [Named.error?_resolveIn, untied?_of_names h, Option.map_map]
  rfl

theorem Whole.exists_resolveIn_iff {expr : Named} (h : expr.Whole) (scope : Scope) :
    (∃ out, expr.resolveIn scope = .ok out) ↔ ∀ name ∈ expr.freeNames, name ∈ scope := by
  rw [← Except.error?_eq_none_iff, h.error?_resolveIn, Option.map_eq_none_iff, List.find?_eq_none]
  simp

theorem Whole.resolveIn_eq_error_iff {expr : Named} (h : expr.Whole) {scope : Scope} {problem : Problem} :
    expr.resolveIn scope = .error problem ↔
      ∃ name, expr.freeNames.find? (· ∉ scope) = some name ∧ .ofCause (.unbound name) = problem := by
  rw [← Except.error?_eq_some_iff, h.error?_resolveIn, Option.map_eq_some_iff]

end Named

/-- What a scope can be asked. -/
inductive Inquiry where
  | resolve (expr : Named)
  | find (name : String)

inductive Finding where
  | resolved (expr : Resolved)
  | position (number : Int)
deriving DecidableEq

namespace Inquiry

def action : Inquiry → InScope Finding
  | resolve expr => return .resolved (← expr.resolve)
  | find name => return .position (← Scope.find name)

/-- The answer to an inquiry that is the first in its scope. -/
def answerIn (scope : Scope) : Inquiry → Except Problem Finding
  | resolve expr => (expr.resolveIn scope).map .resolved
  | find name =>
    match scope.idxOf? name with
    | some position => .ok (.position position)
    | none => .error (.ofCause (.unbound name))

theorem steady_action (inquiry : Inquiry) : Scope.Steady inquiry.action := by
  cases inquiry with
  | resolve expr => exact (Named.steady_resolve expr).bind fun _ => Scope.steady_pure _
  | find name => exact (Scope.steady_find name).bind fun _ => Scope.steady_pure _

theorem answer_action (inquiry : Inquiry) (scope : Scope) :
    Scope.answer inquiry.action scope = inquiry.answerIn scope := by
  cases inquiry with
  | resolve expr =>
    rw [action, Scope.answer_bind (Named.steady_resolve expr), Named.answer_resolve, answerIn]
    cases expr.resolveIn scope <;> rfl
  | find name =>
    rw [action, Scope.answer_bind (Scope.steady_find name), answerIn]
    simp only [Scope.answer, Scope.find]
    cases scope.idxOf? name <;> rfl

end Inquiry

/-- Inquiries one after the other, each in the scope that the one before it has left. Each is told with its answer and
with the scope after it. -/
def Scope.askAll (scope : Scope) : List Inquiry → List (Except Problem Finding × Scope)
  | [] => []
  | inquiry :: inquiries =>
    match inquiry.action scope with
    | .ok finding left => (.ok finding,left) :: askAll left inquiries
    | .error problem left => (.error problem,left) :: askAll left inquiries

/-- Neither an answer nor the lack of one leaves a trace in the scope. -/
theorem Scope.askAll_eq_map (scope : Scope) (inquiries : List Inquiry) :
    scope.askAll inquiries = inquiries.map fun inquiry => (inquiry.answerIn scope,scope) := by
  induction inquiries with
  | nil => rfl
  | cons inquiry inquiries ih =>
    have hsteady := inquiry.steady_action scope
    rw [inquiry.answer_action] at hsteady
    rw [askAll, hsteady, List.map_cons]
    cases inquiry.answerIn scope with
    | ok finding => exact congrArg _ ih
    | error problem => exact congrArg _ ih

/-- A scope resolves the expressions whose free variables it has, and for any other names the first variable that is
missing. However often it is asked, and whatever about, it stays as it was and answers as if it had not been asked
before. -/
theorem Scope.resolves_exactly (scope : Scope) :
    (∀ expr : Named, expr.Whole →
      ((∃ out, expr.resolveIn scope = .ok out) ↔ ∀ name ∈ expr.freeNames, name ∈ scope) ∧
      ∀ problem, expr.resolveIn scope = .error problem ↔
        ∃ name, expr.freeNames.find? (· ∉ scope) = some name ∧ .ofCause (.unbound name) = problem) ∧
    ∀ inquiries : List Inquiry,
      scope.askAll inquiries = inquiries.map fun inquiry => (inquiry.answerIn scope,scope) := by
  refine ⟨fun expr h => ⟨h.exists_resolveIn_iff scope,fun problem => h.resolveIn_eq_error_iff⟩,?_⟩
  exact scope.askAll_eq_map

/-- The variable `a` is bound in the body of the inner binding only, and `b` is missing before `c` is. -/
def missingSome : Named :=
  .call "f" (.letIn "a" (.var "x") (.var "a")) [.seq [.var "x",.cond (.var "b") (.var "c") (.var "a")]]

theorem Scope.resolves_exactly_missing :
    missingSome.Whole ∧ missingSome.freeNames = ["x","x","b","c","a"] ∧
      missingSome.resolveIn ["x","a"] = .error (.ofCause (.unbound "b")) ∧
      ∃ out, missingSome.resolveIn ["a","c","x","b","x"] = .ok out := by
  have hwhole : missingSome.Whole := by decide +kernel
  refine ⟨hwhole,by decide +kernel,?_,?_⟩
  · exact (((resolves_exactly ["x","a"]).1 missingSome hwhole).2 _).2 ⟨"b",by decide +kernel,rfl⟩
  · exact ((resolves_exactly ["a","c","x","b","x"]).1 missingSome hwhole).1.2 (by decide +kernel)

end Mica
