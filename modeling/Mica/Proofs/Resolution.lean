import Mica.Proofs.Fallible
import Mica.Scope

/-! # Resolution as a function of the scope

The scope that resolution carries along comes back unchanged whether or not resolution succeeds, so
the resolved form of an expression is a function of the names around it. Its equations are stated
here, together with the bound on the positions that can occur in a resolved form.
-/
namespace Mica

namespace Scope

variable {α β : Type}

/-- What an action answers in a scope, whatever it leaves of the scope. -/
def answer (action : InScope α) (scope : Scope) : Except Problem α :=
  match action scope with
  | .ok result _ => .ok result
  | .error problem _ => .error problem

/-- An action that ends with the scope it began with. -/
def Steady (action : InScope α) : Prop :=
  ∀ scope, action scope = match answer action scope with
    | .ok result => .ok result scope
    | .error problem => .error problem scope

theorem steady_pure (result : α) : Steady (pure result) := fun _ => rfl

theorem steady_throw (problem : Problem) : Steady (throw problem : InScope α) := fun _ => rfl

theorem steady_find (name : String) : Steady (find name) := by
  intro scope
  unfold answer find
  cases scope.idxOf? name <;> rfl

theorem answer_bind {action : InScope α} (h : Steady action) (next : α → InScope β) (scope : Scope) :
    answer (action >>= next) scope = answer action scope >>= fun result => answer (next result) scope := by
  have hs := h scope
  cases ha : answer action scope with
  | error problem =>
    rw [ha] at hs
    simp [answer, bind, EStateM.bind, Except.bind, hs]
  | ok result =>
    rw [ha] at hs
    simp [answer, bind, EStateM.bind, Except.bind, hs]

theorem Steady.bind {action : InScope α} {next : α → InScope β} (h : Steady action)
    (hn : ∀ result, Steady (next result)) : Steady (action >>= next) := by
  intro scope
  rw [answer_bind h]
  have hs := h scope
  cases ha : answer action scope with
  | error problem =>
    rw [ha] at hs
    simp [Bind.bind, EStateM.bind, Except.bind, hs]
  | ok result =>
    rw [ha] at hs
    have hr := hn result scope
    simpa [Bind.bind, EStateM.bind, Except.bind, hs] using hr

theorem answer_binding (name : String) (action : InScope α) (scope : Scope) :
    answer (binding name action) scope = answer action (name :: scope) := by
  simp only [answer, binding, push, thenPop, Bind.bind, EStateM.bind]
  cases action (name :: scope) <;> rfl

theorem Steady.binding {action : InScope α} (h : Steady action) (name : String) :
    Steady (binding name action) := by
  intro scope
  rw [answer_binding]
  have hs := h (name :: scope)
  simp only [Scope.binding, push, thenPop, Bind.bind, EStateM.bind, hs]
  cases answer action (name :: scope) <;> rfl

end Scope

namespace Named

attribute [local simp] resolve resolveAll

theorem steady_resolveAll {exprs : List Named} (h : ∀ expr ∈ exprs, Scope.Steady (resolve expr)) :
    Scope.Steady (resolveAll exprs) := by
  induction exprs with
  | nil => exact Scope.steady_pure _
  | cons expr exprs ih =>
    obtain ⟨hf,hr⟩ := List.forall_mem_cons.1 h
    unfold resolveAll
    exact hf.bind fun _ => (ih hr).bind fun _ => Scope.steady_pure _

/-- Every resolution ends with the scope it began with. -/
theorem steady_resolve (expr : Named) : Scope.Steady (resolve expr) := by
  induction expr using Expr.induct with
  | lit value => exact Scope.steady_pure _
  | call name receiver args hr ha =>
    unfold resolve
    exact hr.bind fun _ => (steady_resolveAll ha).bind fun _ => Scope.steady_pure _
  | var name =>
    unfold resolve
    exact (Scope.steady_find name).bind fun _ => Scope.steady_pure _
  | letIn name bound body hb hd =>
    unfold resolve
    exact hb.bind fun _ => (hd.binding name).bind fun _ => Scope.steady_pure _
  | cond test yes no ht hy hn =>
    unfold resolve
    exact ht.bind fun _ => hy.bind fun _ => hn.bind fun _ => Scope.steady_pure _
  | seq steps hs =>
    unfold resolve
    exact (steady_resolveAll hs).bind fun _ => Scope.steady_pure _
  | stray text => exact Scope.steady_throw _

theorem answer_resolve (expr : Named) (scope : Scope) :
    Scope.answer (resolve expr) scope = expr.resolveIn scope := by
  unfold Scope.answer resolveIn
  cases resolve expr scope <;> rfl

theorem answer_resolveAll (exprs : List Named) (scope : Scope) :
    Scope.answer (resolveAll exprs) scope = exprs.mapM (resolveIn · scope) := by
  induction exprs with
  | nil => rfl
  | cons expr exprs ih =>
    rw [resolveAll, Scope.answer_bind (steady_resolve expr), List.mapM_cons]
    simp only [Scope.answer_bind (steady_resolveAll fun expr _ => steady_resolve expr), ih,
      answer_resolve]
    rfl

variable {scope : Scope} {out : Resolved}

theorem resolveIn_lit_eq_ok {value : Value} : resolveIn (.lit value) scope = .ok out ↔ out = .lit value := by
  change Except.ok _ = _ ↔ _
  simp [eq_comm]

theorem resolveIn_var_eq_ok {name : String} :
    resolveIn (.var name) scope = .ok out ↔ ∃ position, scope.idxOf? name = some position ∧ out = .var position := by
  rw [← answer_resolve, resolve, Scope.answer_bind (Scope.steady_find name), Except.bind_eq_ok_iff]
  cases h : scope.idxOf? name with
  | none => simp [Scope.answer, Scope.find, h]
  | some position =>
    simp [Scope.answer, Scope.find, h, pure, EStateM.pure, eq_comm]

theorem resolveIn_call_eq_ok {name : String} {receiver : Named} {args : List Named} :
    resolveIn (.call name receiver args) scope = .ok out ↔
      ∃ this rest, receiver.resolveIn scope = .ok this ∧
        List.Forall₂ (fun arg resolved => resolveIn arg scope = .ok resolved) args rest ∧
        out = .call name this rest := by
  rw [← answer_resolve, resolve, Scope.answer_bind (steady_resolve receiver), Except.bind_eq_ok_iff]
  simp only [Scope.answer_bind (steady_resolveAll fun expr _ => steady_resolve expr), answer_resolve,
    answer_resolveAll, Except.bind_eq_ok_iff, Except.mapM_eq_ok_iff]
  constructor
  · rintro ⟨this,ht,rest,hr,h⟩
    exact ⟨this,rest,ht,hr,(Except.ok.inj h).symm⟩
  · rintro ⟨this,rest,ht,hr,rfl⟩
    exact ⟨this,ht,rest,hr,rfl⟩

theorem resolveIn_letIn_eq_ok {name : String} {bound body : Named} :
    resolveIn (.letIn name bound body) scope = .ok out ↔
      ∃ value rest, bound.resolveIn scope = .ok value ∧ body.resolveIn (name :: scope) = .ok rest ∧
        out = .letIn () value rest := by
  rw [← answer_resolve, resolve, Scope.answer_bind (steady_resolve bound), Except.bind_eq_ok_iff]
  simp only [Scope.answer_bind ((steady_resolve body).binding name), Scope.answer_binding, answer_resolve,
    Except.bind_eq_ok_iff]
  constructor
  · rintro ⟨value,hv,rest,hr,h⟩
    exact ⟨value,rest,hv,hr,(Except.ok.inj h).symm⟩
  · rintro ⟨value,rest,hv,hr,rfl⟩
    exact ⟨value,hv,rest,hr,rfl⟩

theorem resolveIn_cond_eq_ok {test yes no : Named} :
    resolveIn (.cond test yes no) scope = .ok out ↔
      ∃ first second third, test.resolveIn scope = .ok first ∧ yes.resolveIn scope = .ok second ∧
        no.resolveIn scope = .ok third ∧ out = .cond first second third := by
  rw [← answer_resolve, resolve, Scope.answer_bind (steady_resolve test), Except.bind_eq_ok_iff]
  simp only [Scope.answer_bind (steady_resolve yes), Scope.answer_bind (steady_resolve no), answer_resolve,
    Except.bind_eq_ok_iff]
  constructor
  · rintro ⟨first,hf,second,hs,third,ht,h⟩
    exact ⟨first,second,third,hf,hs,ht,(Except.ok.inj h).symm⟩
  · rintro ⟨first,second,third,hf,hs,ht,rfl⟩
    exact ⟨first,hf,second,hs,third,ht,rfl⟩

theorem resolveIn_seq_eq_ok {steps : List Named} :
    resolveIn (.seq steps) scope = .ok out ↔
      ∃ rest, List.Forall₂ (fun step resolved => resolveIn step scope = .ok resolved) steps rest ∧
        out = .seq rest := by
  rw [← answer_resolve, resolve, Scope.answer_bind (steady_resolveAll fun expr _ => steady_resolve expr),
    answer_resolveAll, Except.bind_eq_ok_iff]
  simp only [Except.mapM_eq_ok_iff]
  constructor
  · rintro ⟨rest,hr,h⟩
    exact ⟨rest,hr,(Except.ok.inj h).symm⟩
  · rintro ⟨rest,hr,rfl⟩
    exact ⟨rest,hr,rfl⟩

theorem resolveIn_stray_ne_ok {text : String} : resolveIn (.stray text) scope ≠ .ok out := nofun

end Named

/-- Every reference counts fewer bindings than there are around it. -/
inductive Resolved.WellScoped : Nat → Resolved → Prop where
  | lit {depth : Nat} (value : Value) : WellScoped depth (.lit value)
  | call {depth : Nat} {name : String} {receiver : Resolved} {args : List Resolved} : WellScoped depth receiver →
      (∀ arg ∈ args, WellScoped depth arg) → WellScoped depth (.call name receiver args)
  | var {depth position : Nat} : position < depth → WellScoped depth (.var position)
  | letIn {depth : Nat} {bound body : Resolved} : WellScoped depth bound → WellScoped (depth + 1) body →
      WellScoped depth (.letIn () bound body)
  | cond {depth : Nat} {test yes no : Resolved} : WellScoped depth test → WellScoped depth yes →
      WellScoped depth no → WellScoped depth (.cond test yes no)
  | seq {depth : Nat} {steps : List Resolved} : (∀ step ∈ steps, WellScoped depth step) → WellScoped depth (.seq steps)

namespace Named

variable {scope : Scope} {out : Resolved}

theorem wellScoped_of_forall₂ {exprs : List Named} {outs : List Resolved}
    (h : ∀ expr ∈ exprs, ∀ {out : Resolved}, resolveIn expr scope = .ok out → Resolved.WellScoped scope.length out)
    (hr : List.Forall₂ (fun expr out => resolveIn expr scope = .ok out) exprs outs) :
    ∀ out ∈ outs, Resolved.WellScoped scope.length out := by
  induction hr with
  | nil => nofun
  | cons hf _ ih =>
    obtain ⟨hfirst,hrest⟩ := List.forall_mem_cons.1 h
    exact List.forall_mem_cons.2 ⟨hfirst hf,ih hrest⟩

/-- A resolved form refers to the scope it was resolved in and to its own bindings only. -/
theorem wellScoped_of_resolveIn {expr : Named} (h : resolveIn expr scope = .ok out) :
    Resolved.WellScoped scope.length out := by
  induction expr using Expr.induct generalizing scope out with
  | lit value =>
    obtain rfl := resolveIn_lit_eq_ok.1 h
    exact .lit value
  | call name receiver args hr ha =>
    obtain ⟨this,rest,ht,hs,rfl⟩ := resolveIn_call_eq_ok.1 h
    exact .call (hr ht) (wellScoped_of_forall₂ (fun arg hm _ he => ha arg hm he) hs)
  | var name =>
    obtain ⟨position,hp,rfl⟩ := resolveIn_var_eq_ok.1 h
    rw [List.idxOf?, List.findIdx?_eq_some_iff_getElem] at hp
    exact .var hp.1
  | letIn name bound body hb hd =>
    obtain ⟨value,rest,hv,hr,rfl⟩ := resolveIn_letIn_eq_ok.1 h
    exact .letIn (hb hv) (hd hr)
  | cond test yes no ht hy hn =>
    obtain ⟨first,second,third,h₁,h₂,h₃,rfl⟩ := resolveIn_cond_eq_ok.1 h
    exact .cond (ht h₁) (hy h₂) (hn h₃)
  | seq steps hs =>
    obtain ⟨rest,hr,rfl⟩ := resolveIn_seq_eq_ok.1 h
    exact .seq (wellScoped_of_forall₂ (fun step hm _ he => hs step hm he) hr)
  | stray text => exact absurd h resolveIn_stray_ne_ok

end Named

end Mica
