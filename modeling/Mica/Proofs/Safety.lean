import Mica.Machine.Eval
import Mica.Proofs.Resolution

/-! # Safe evaluation

In a machine whose methods are all sound, evaluating a well-scoped expression never ends in a problem of
the interpreter's own making, and it leaves the methods and the stack as they were however it ends.

That a built-in method only ever sees a string is told by an evaluator that does something else, anything
at all, when one sees another value: it cannot be told from the real one.
-/
namespace Mica

/-- A problem that no program is to blame for. -/
def Problem.Internal : Problem → Prop
  | failure found => found.cause.category = .indexRange
  | misuse _ => True
  | literalTooLong => False

theorem Problem.internal_leaving (owner : String) (problem : Problem) :
    (problem.leaving owner).Internal ↔ problem.Internal := by
  cases problem <;> rfl

/-- A method that a type may have. Built-in methods are for strings, and the body of a custom method
refers to the receiver and the parameters only. -/
def Method.Sound (type : TypeKey) : Method → Prop
  | .builtin _ => type = .string
  | .custom body _ arity => ∃ count : Nat, arity = some (count : Int) ∧ Resolved.WellScoped (count + 1) body
  | .stray _ => False

theorem Value.eq_string_of_typeKey {value : Value} (h : value.typeKey = .string) : ∃ text, value = .string text := by
  cases value with
  | string text => exact ⟨text,rfl⟩
  | _ => simp [typeKey, TypeKey.unit, TypeKey.bool, TypeKey.i32, TypeKey.object, TypeKey.string] at h

namespace Machine

def Sound (machine : Machine) : Prop :=
  ∀ type name method, machine.method? type name = some method → method.Sound type

/-- The methods and the stack are as in another machine. -/
structure SameFrame (base machine : Machine) : Prop where
  methods : machine.methods = base.methods
  stack : machine.stack = base.stack

theorem SameFrame.rfl {machine : Machine} : SameFrame machine machine := ⟨.refl _,.refl _⟩

theorem Sound.of_methods {base machine : Machine} (h : base.Sound) (hm : machine.methods = base.methods) :
    machine.Sound := by
  intro type name method hf
  refine h type name method ?_
  rwa [method?, ← hm]

end Machine

namespace Action

open Machine

variable {α β : Type}

/-- On a machine, two actions do the same: they end in a machine that is as it should be, and never in an
internal problem. -/
structure SafeAt (kept : Machine → Prop) (watched action : Action α) (machine : Machine) : Prop where
  same : watched machine = action machine
  ok {value : α} {after : Machine} : action machine = some (.ok value after) → kept after
  error {problem : Problem} {after : Machine} : action machine = some (.error problem after) →
    ¬ problem.Internal ∧ kept after

variable {kept : Machine → Prop} {watched action : Action α} {base machine : Machine}

theorem SafeAt.of_eq {other otherWatched : Action α} (h : SafeAt kept watched action machine)
    (hw : otherWatched machine = watched machine) (ha : other machine = action machine) :
    SafeAt kept otherWatched other machine := by
  refine ⟨by rw [hw, ha, h.same],?_,?_⟩
  · rw [ha]
    exact h.ok
  · rw [ha]
    exact h.error

theorem safeAt_pure (h : kept machine) (value : α) : SafeAt kept (pure value) (pure value) machine := by
  refine ⟨rfl,?_,nofun⟩
  rintro _ _ ⟨⟩
  exact h

theorem safeAt_raise {problem : Problem} (hp : ¬ problem.Internal) (h : kept machine) :
    SafeAt kept (raise problem : Action α) (raise problem) machine := by
  refine ⟨rfl,nofun,?_⟩
  rintro _ _ ⟨⟩
  exact ⟨hp,h⟩

theorem safeAt_fail {cause : Cause} (hc : cause.category ≠ .indexRange) (h : kept machine) :
    SafeAt kept (fail cause : Action α) (fail cause) machine := safeAt_raise hc h

theorem SafeAt.bind {next watchedNext : α → Action β} (h : SafeAt kept watched action machine)
    (hn : ∀ value after, action machine = some (.ok value after) → kept after →
      SafeAt kept (watchedNext value) (next value) after) :
    SafeAt kept (watched >>= watchedNext) (action >>= next) machine := by
  obtain ⟨hs,ho,he⟩ := h
  cases ha : action machine with
  | none => exact ⟨by simp only [bind_apply, hs, ha],by simp [bind_apply, ha],by simp [bind_apply, ha]⟩
  | some result =>
    cases result with
    | error problem after =>
      have hb : (action >>= next) machine = some (.error problem after) := by simp only [bind_apply, ha]
      refine ⟨by simp only [bind_apply, hs, ha],by simp [hb],?_⟩
      rw [hb]
      rintro _ _ ⟨⟩
      exact he ha
    | ok value after =>
      have hb : (action >>= next) machine = next value after := by simp only [bind_apply, ha]
      have hw : (watched >>= watchedNext) machine = watchedNext value after := by simp only [bind_apply, hs, ha]
      have hnext := hn value after ha (ho ha)
      refine ⟨by rw [hb, hw, hnext.same],?_,?_⟩
      · rw [hb]
        exact hnext.ok
      · rw [hb]
        exact hnext.error

theorem safeAt_method (h : kept machine) (type : TypeKey) (name : String) :
    SafeAt kept (method type name) (method type name) machine := by
  cases hf : machine.method? type name with
  | none =>
    have he : method type name machine = fail (.noSuchMethod type name) machine := by simp only [method, hf]
    exact (safeAt_fail (by simp [Cause.category]) h).of_eq he he
  | some found =>
    have he : method type name machine = (pure found : Action Method) machine := by simp only [method, hf, pure_apply]
    exact (safeAt_pure h found).of_eq he he

theorem method?_of_method {type : TypeKey} {name : String} {found : Method} {after : Machine}
    (h : method type name machine = some (.ok found after)) : machine.method? type name = some found := by
  unfold method at h
  cases hf : machine.method? type name with
  | none => simp [hf, fail, raise] at h
  | some other =>
    simp only [hf, Option.some.injEq, EStateM.Result.ok.injEq] at h
    rw [h.1]

theorem safeAt_slot {position : Nat} (hp : position < machine.stack.length) (h : kept machine) :
    SafeAt kept (slot position) (slot position) machine := by
  have he : slot position machine = (pure machine.stack[position] : Action Value) machine := by simp [slot, hp]
  exact (safeAt_pure h _).of_eq he he

/-- An action that keeps the frame of one machine keeps that of another when the stack is restored. -/
theorem SafeAt.restoring {inner : Machine} (h : SafeAt (SameFrame inner) watched action machine) (base other : Machine)
    (restore : List Value → List Value) (hm : inner.methods = base.methods) (hr : restore inner.stack = base.stack) :
    SafeAt (SameFrame base) (fun _ => watched.restoring restore machine) (fun _ => action.restoring restore machine)
      other := by
  obtain ⟨hs,ho,he⟩ := h
  have hkept {left : Machine} (hl : SameFrame inner left) :
      SameFrame base { left with stack := restore left.stack } := ⟨hl.methods.trans hm,by rw [hl.stack, hr]⟩
  refine ⟨by simp only [Action.restoring, hs],?_,?_⟩
  · intro value after h
    cases ha : action machine with
    | none => simp [Action.restoring, ha] at h
    | some result =>
      cases result with
      | error problem left => simp [Action.restoring, ha] at h
      | ok result left =>
        simp only [Action.restoring, ha, Option.some.injEq, EStateM.Result.ok.injEq] at h
        exact h.2 ▸ hkept (ho ha)
  · intro problem after h
    cases ha : action machine with
    | none => simp [Action.restoring, ha] at h
    | some result =>
      cases result with
      | ok result left => simp [Action.restoring, ha] at h
      | error fault left =>
        simp only [Action.restoring, ha, Option.some.injEq, EStateM.Result.error.injEq] at h
        exact ⟨h.1 ▸ (he ha).1,h.2 ▸ hkept (he ha).2⟩

theorem SafeAt.binding {value : Value} (h : SafeAt (SameFrame (base.push value)) watched action (machine.push value)) :
    SafeAt (SameFrame base) (watched.binding value) (action.binding value) machine :=
  (h.restoring base machine List.tail rfl rfl).of_eq rfl rfl

theorem SafeAt.frame {values : List Value} (hs : machine.stack.length = base.stack.length)
    (h : SafeAt (SameFrame { base with stack := values.reverse ++ base.stack }) watched action
      { machine with stack := values.reverse ++ machine.stack }) :
    SafeAt (SameFrame base) (watched.frame values) (action.frame values) machine := by
  refine (h.restoring base machine (fun stack => stack.drop (stack.length - machine.stack.length)) rfl ?_).of_eq rfl rfl
  simp [hs]

theorem SafeAt.within (owner : String) (h : SafeAt kept watched action machine) :
    SafeAt kept (watched.within owner) (action.within owner) machine := by
  obtain ⟨hs,ho,he⟩ := h
  cases ha : action machine with
  | none =>
    refine ⟨by simp only [Action.within, hs],?_,?_⟩ <;> simp [Action.within, ha]
  | some result =>
    cases result with
    | ok value after =>
      have hw : action.within owner machine = action machine := by simp only [Action.within, ha]
      refine ⟨by simp only [Action.within, hs],?_,?_⟩
      · rw [hw]
        exact ho
      · rw [hw]
        exact he
    | error problem after =>
      have hw : action.within owner machine = some (.error (problem.leaving owner) after) := by
        simp only [Action.within, ha]
      refine ⟨by simp only [Action.within, hs],by simp [hw],?_⟩
      rw [hw]
      rintro _ _ ⟨⟩
      exact ⟨fun hi => (he ha).1 ((Problem.internal_leaving owner problem).1 hi),(he ha).2⟩

theorem category_of_textsFrom {builtin : Builtin} {position : Nat} {values : List Value} {cause : Cause}
    (h : builtin.textsFrom position values = .error cause) : cause.category = .typeMismatch := by
  induction values generalizing position with
  | nil => cases h
  | cons value values ih =>
    cases value with
    | string text =>
      cases hr : builtin.textsFrom (position + 1) values with
      | ok texts => simp [Builtin.textsFrom, Builtin.textOf, hr, bind, Except.bind, pure, Except.pure] at h
      | error fault =>
        simp only [Builtin.textsFrom, Builtin.textOf, hr, bind, Except.bind, Except.error.injEq] at h
        subst h
        exact ih hr
    | _ =>
      cases h
      rfl

theorem category_of_apply {builtin : Builtin} {receiver : Value} {args : List Value} {cause : Cause}
    (h : builtin.apply receiver args = .error cause) :
    cause.category = .typeMismatch ∨ cause.category = .arityMismatch := by
  cases builtin with
  | concat =>
    cases receiver with
    | string text =>
      cases ht : Builtin.concat.textsFrom 1 args with
      | ok texts => simp [Builtin.apply, Builtin.textOf, ht, bind, Except.bind, pure, Except.pure] at h
      | error fault =>
        simp only [Builtin.apply, Builtin.textOf, ht, bind, Except.bind, Except.error.injEq] at h
        exact .inl (h ▸ category_of_textsFrom ht)
    | _ =>
      cases h
      exact .inl rfl
  | println =>
    by_cases ha : args.length ≠ 0
    · simp only [Builtin.apply, if_pos ha, bind, Except.bind, Except.error.injEq] at h
      exact .inr (h ▸ rfl)
    · simp only [Builtin.apply, if_neg ha] at h
      cases receiver with
      | string text => cases h
      | _ =>
        cases h
        exact .inl rfl

theorem safeAt_builtin (hs : SameFrame base machine) (builtin : Builtin) (receiver : Value) (args : List Value) :
    SafeAt (SameFrame base) (Action.builtin builtin receiver args) (Action.builtin builtin receiver args) machine := by
  cases ha : builtin.apply receiver args with
  | error cause =>
    have he : Action.builtin builtin receiver args machine = fail cause machine := by simp only [Action.builtin, ha]
    refine (safeAt_fail ?_ hs).of_eq he he
    rcases category_of_apply ha with hc | hc <;> simp [hc]
  | ok result =>
    have he : Action.builtin builtin receiver args machine = some (.ok result.1 (machine.print result.2)) := by
      simp only [Action.builtin, ha]
    refine ⟨rfl,?_,by simp [he]⟩
    rw [he]
    rintro _ _ ⟨⟩
    exact ⟨hs.methods,hs.stack⟩

end Action

namespace Evaluator

open Mica.Action

variable (strange : Builtin → Value → List Value → Action Value)

/-- Runs a method, but does something strange when a built-in one sees a value that is no string. -/
def invokeWatching (eval : Evaluator) (method : Method) (this : Value) (args : List Value) : Action Value :=
  match method, this with
  | .builtin builtin, .string text => Action.builtin builtin (.string text) args
  | .builtin builtin, this => strange builtin this args
  | method, this => invoke eval method this args

def stepWatching (eval : Evaluator) : Evaluator
  | .call name receiver args => do
    let this ← eval receiver
    let method ← Action.method this.typeKey name
    let args ← all eval args
    invokeWatching strange eval method this args
  | expr => step eval expr

end Evaluator

def Machine.evalWatching (strange : Builtin → Value → List Value → Action Value) : Nat → Evaluator
  | 0 => fun _ => Action.cutOff
  | depth + 1 => Evaluator.stepWatching strange (evalWatching strange depth)

namespace Evaluator

/-- Two evaluators do the same on well-scoped expressions in a sound machine, and it is nothing bad. -/
def Safe (watched eval : Evaluator) : Prop :=
  ∀ {expr : Resolved} {count : Nat} {base machine : Machine}, Resolved.WellScoped count expr → base.Sound →
    count ≤ base.stack.length → base.SameFrame machine →
    Action.SafeAt base.SameFrame (watched expr) (eval expr) machine

variable {strange : Builtin → Value → List Value → Action Value} {watched eval : Evaluator} {base machine : Machine}

theorem Safe.all (h : Safe watched eval) {exprs : List Resolved} {count : Nat}
    (he : ∀ expr ∈ exprs, Resolved.WellScoped count expr) (hb : base.Sound) (hc : count ≤ base.stack.length)
    (hs : base.SameFrame machine) : Action.SafeAt base.SameFrame (all watched exprs) (all eval exprs) machine := by
  induction exprs generalizing machine with
  | nil => exact Action.safeAt_pure hs []
  | cons expr exprs ih =>
    obtain ⟨hf,hr⟩ := List.forall_mem_cons.1 he
    refine (h hf hb hc hs).bind fun value _ _ hs => (ih hr hs).bind fun values _ _ hs => ?_
    exact Action.safeAt_pure hs _

theorem Safe.sequence (h : Safe watched eval) {steps : List Resolved} {count : Nat}
    (he : ∀ step ∈ steps, Resolved.WellScoped count step) (hb : base.Sound) (hc : count ≤ base.stack.length)
    (hs : base.SameFrame machine) (value : Value) :
    Action.SafeAt base.SameFrame (sequence watched value steps) (sequence eval value steps) machine := by
  induction steps generalizing machine value with
  | nil => exact Action.safeAt_pure hs value
  | cons step steps ih =>
    obtain ⟨hf,hr⟩ := List.forall_mem_cons.1 he
    exact (h hf hb hc hs).bind fun value _ _ hs => ih hr hs value

theorem Safe.invoke (h : Safe watched eval) {method : Method} {this : Value} {args : List Value}
    (hm : method.Sound this.typeKey) (hb : base.Sound) (hs : base.SameFrame machine) :
    Action.SafeAt base.SameFrame (invokeWatching strange watched method this args) (invoke eval method this args)
      machine := by
  cases method with
  | builtin builtin =>
    obtain ⟨text,rfl⟩ := Value.eq_string_of_typeKey hm
    exact Action.safeAt_builtin hs builtin (.string text) args
  | custom body owner arity =>
    obtain ⟨count,rfl,hbody⟩ := hm
    by_cases ha : args.length = count
    · have hcheck : checkArity owner (some (count : Int)) args.length = pure () := if_pos (congrArg Nat.cast ha)
      have hrun (eval : Evaluator) : Evaluator.invoke eval (.custom body owner (some (count : Int))) this args machine =
          Action.frame (this :: args) ((eval body).within owner) machine := by
        rw [Evaluator.invoke, hcheck]
        rfl
      have hinner : Machine.Sound { base with stack := (this :: args).reverse ++ base.stack } := hb.of_methods rfl
      have hframe : Machine.SameFrame { base with stack := (this :: args).reverse ++ base.stack }
          { machine with stack := (this :: args).reverse ++ machine.stack } :=
        ⟨hs.methods,congrArg ((this :: args).reverse ++ ·) hs.stack⟩
      have hbody := (h hbody hinner (by simp [ha]) hframe).within owner
      exact (hbody.frame (congrArg List.length hs.stack)).of_eq (hrun watched) (hrun eval)
    · have hcheck : checkArity owner (some (count : Int)) args.length = Action.fail (.arity owner count args.length) :=
        if_neg fun he => ha (Int.natCast_inj.1 he)
      have hrun (eval : Evaluator) : Evaluator.invoke eval (.custom body owner (some (count : Int))) this args machine =
          Action.fail (.arity owner count args.length) machine := by
        rw [Evaluator.invoke, hcheck]
        rfl
      exact (Action.safeAt_fail (by simp [Cause.category]) hs).of_eq (hrun watched) (hrun eval)
  | stray text => cases hm

theorem Safe.step (h : Safe watched eval) : Safe (stepWatching strange watched) (step eval) := by
  intro expr count base machine hw hb hc hs
  cases hw with
  | lit value => exact Action.safeAt_pure hs value
  | call hr ha =>
    refine (h hr hb hc hs).bind fun this _ _ hs => (Action.safeAt_method hs _ _).bind fun method _ hf hs' => ?_
    have hm : method.Sound this.typeKey := hb.of_methods hs.methods _ _ _ (Action.method?_of_method hf)
    exact (h.all ha hb hc hs').bind fun args _ _ hs => h.invoke hm hb hs
  | var hp => exact Action.safeAt_slot (hs.stack ▸ Nat.lt_of_lt_of_le hp hc) hs
  | letIn hbound hbody =>
    refine (h hbound hb hc hs).bind fun value after _ hs => Action.SafeAt.binding ?_
    have hpush : (base.push value).SameFrame (after.push value) := ⟨hs.methods,congrArg (value :: ·) hs.stack⟩
    exact h hbody (hb.of_methods rfl) (Nat.succ_le_succ hc) hpush
  | cond ht hy hn =>
    refine (h ht hb hc hs).bind fun value _ _ hs => ?_
    cases value with
    | bool flag =>
      cases flag with
      | true => exact h hy hb hc hs
      | false => exact h hn hb hc hs
    | _ => exact Action.safeAt_fail (by simp [Cause.category]) hs
  | seq hsteps => exact h.sequence hsteps hb hc hs .unit

end Evaluator

/-- Evaluation is safe to any depth. -/
theorem Machine.safe_eval (strange : Builtin → Value → List Value → Action Value) (depth : Nat) :
    Evaluator.Safe (evalWatching strange depth) (eval depth) := by
  induction depth with
  | zero =>
    intro expr count base machine _ _ _ _
    exact ⟨rfl,nofun,nofun⟩
  | succ depth ih => exact ih.step

/-- Where a type has a built-in method that it should not have, the difference shows. -/
example : Machine.evalWatching (fun _ _ _ => Action.cutOff) 2 (.call "println" (.lit .unit) [])
    (Machine.fresh.define .unit "println" (.builtin .println)) ≠
      Machine.eval 2 (.call "println" (.lit .unit) []) (Machine.fresh.define .unit "println" (.builtin .println)) := by
  decide +kernel

end Mica
