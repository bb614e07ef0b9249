import Mica.Proofs.Grammar.Printing
import Mica.Proofs.Loading
import Mica.Proofs.Safety

/-! # What requests can do to a machine

A machine is used by submitting texts to it, by running programs on it and by running its classes. Whatever
is asked of it, and whether or not that fails, its methods stay sound. So no request ever ends in a problem
of the interpreter's own making, and no built-in method ever sees anything but a string.

A request that goes too deep is cut off, and no state of the machine is known after it: how it fails is left open, and no
machine counts as reached by it.
-/
deriving instance DecidableEq for Mica.Reply

namespace Mica

/-! ## Problems of resolving and loading -/

section Sparing

variable {σ α β : Type} {kept : σ → Prop}

/-- However the computation ends, what held of the state still holds, and no problem is internal. -/
def Sparing (kept : σ → Prop) (action : EStateM Problem σ α) : Prop :=
  ∀ state, kept state → match action state with
    | .ok _ after => kept after
    | .error problem after => ¬ problem.Internal ∧ kept after

theorem sparing_pure (value : α) : Sparing kept (pure value) := fun _ h => h

theorem sparing_throw {problem : Problem} (h : ¬ problem.Internal) :
    Sparing kept (throw problem : EStateM Problem σ α) := fun _ hk => ⟨h,hk⟩

theorem Sparing.bind {action : EStateM Problem σ α} {next : α → EStateM Problem σ β} (h : Sparing kept action)
    (hn : ∀ value, Sparing kept (next value)) : Sparing kept (action >>= next) := by
  intro state hk
  have ha := h state hk
  cases hr : action state with
  | error problem after =>
    rw [hr] at ha
    simpa only [Bind.bind, EStateM.bind, hr] using ha
  | ok value after =>
    rw [hr] at ha
    simpa only [Bind.bind, EStateM.bind, hr] using hn value after ha

end Sparing

theorem sparing_find (name : String) : Sparing (fun _ => True) (Scope.find name) := by
  intro scope _
  unfold Scope.find
  cases scope.idxOf? name with
  | none => exact ⟨by simp [Problem.ofCause, Problem.Internal, Cause.category],trivial⟩
  | some position => trivial

theorem Sparing.binding {α : Type} {action : InScope α} (h : Sparing (fun _ => True) action) (name : String) :
    Sparing (fun _ => True) (Scope.binding name action) := by
  intro scope _
  have ha := h (name :: scope) trivial
  cases hr : action (name :: scope) with
  | error problem after =>
    rw [hr] at ha
    simpa only [Scope.binding, Scope.push, Scope.thenPop, Bind.bind, EStateM.bind, hr] using ha
  | ok value after => simp only [Scope.binding, Scope.push, Scope.thenPop, Bind.bind, EStateM.bind, hr]

namespace Named

theorem sparing_resolveAll {exprs : List Named} (h : ∀ expr ∈ exprs, Sparing (fun _ => True) (resolve expr)) :
    Sparing (fun _ => True) (resolveAll exprs) := by
  induction exprs with
  | nil => exact sparing_pure _
  | cons expr exprs ih =>
    obtain ⟨hf,hr⟩ := List.forall_mem_cons.1 h
    unfold resolveAll
    exact hf.bind fun _ => (ih hr).bind fun _ => sparing_pure _

/-- The only thing wrong with a well-formed expression can be a variable that is not in scope. -/
theorem WellFormed.sparing_resolve {expr : Named} (h : WellFormed expr) : Sparing (fun _ => True) (resolve expr) := by
  have seq {steps : List Named} (hs : ∀ step ∈ steps, Sparing (fun _ => True) (resolve step)) :
      Sparing (fun _ => True) (resolve (.seq steps)) := by
    unfold resolve
    exact (sparing_resolveAll hs).bind fun _ => sparing_pure _
  induction h with
  | unit | bool | i32 | string => exact sparing_pure _
  | @var name =>
    unfold resolve
    exact (sparing_find name).bind fun _ => sparing_pure _
  | call _ _ _ hr ha =>
    unfold resolve
    exact hr.bind fun _ => (sparing_resolveAll ha).bind fun _ => sparing_pure _
  | @letIn name _ _ _ _ _ hb hd =>
    unfold resolve
    exact hb.bind fun _ => (hd.binding name).bind fun _ => sparing_pure _
  | cond _ _ _ ht hy hn =>
    unfold resolve
    exact ht.bind fun _ => (seq hy).bind fun _ => (seq hn).bind fun _ => sparing_pure _
  | seq _ hs => exact seq hs

theorem WellFormed.not_internal {expr : Named} {scope : Scope} {problem : Problem} (h : WellFormed expr)
    (hr : resolveIn expr scope = .error problem) : ¬ problem.Internal := by
  have hs := h.sparing_resolve scope trivial
  unfold resolveIn at hr
  cases ha : resolve expr scope with
  | ok resolved left => simp [ha] at hr
  | error found left =>
    simp only [ha, Except.error.injEq] at hr
    rw [ha] at hs
    exact hr ▸ hs.1

end Named

theorem Flaw.not_internal (source : String) (flaw : Flaw) : ¬ (flaw.toProblem source).Internal := by
  cases flaw <;> simp [Flaw.toProblem, Problem.ofCause, Problem.Internal, Cause.category]

theorem not_internal_of_mapError {α : Type} {source : String} {read : Except Flaw α} {problem : Problem}
    (h : read.mapError (Flaw.toProblem source) = .error problem) : ¬ problem.Internal := by
  cases read with
  | ok value => cases h
  | error flaw =>
    obtain rfl := Except.error.inj h
    exact flaw.not_internal source

namespace ClassDef

variable {cls : ClassDef}

theorem not_internal_of_addMethods {table : MethodTable} {methods : List MethodDef} {problem : Problem}
    (h : ∀ method ∈ methods, Named.WellFormed method.body) (hp : cls.addMethods table methods = .error problem) :
    ¬ problem.Internal := by
  induction methods generalizing table with
  | nil => cases hp
  | cons method methods ih =>
    obtain ⟨hf,hr⟩ := List.forall_mem_cons.1 h
    rw [addMethods] at hp
    cases hc : cls.customMethod method with
    | ok custom =>
      rw [hc] at hp
      exact ih hr hp
    | error found =>
      rw [hc] at hp
      obtain rfl := Except.error.inj hp
      unfold customMethod at hc
      cases hb : method.body.resolveIn (.ofMethod method.params) with
      | ok body => simp [hb] at hc
      | error cause =>
        simp only [hb, Except.error.injEq] at hc
        rw [← hc, Problem.internal_leaving]
        exact hf.not_internal hb

/-- Every method of a class that could be made ready is sound. -/
theorem sound_of_methodTable {table : MethodTable} {name : String} {method : Method} (h : cls.methodTable = .ok table)
    (hf : table.get? name = some method) (type : TypeKey) : method.Sound type := by
  rcases get?_of_methodTable h name with ⟨_,hn⟩ | ⟨definition,custom,_,hc,hg⟩
  · simp [hn] at hf
  · obtain rfl : custom = method := Option.some.inj (hg.symm.trans hf)
    obtain ⟨body,hb,rfl⟩ := customMethod_eq_ok.1 hc
    refine ⟨definition.params.length,rfl,?_⟩
    simpa [Scope.ofMethod] using Named.wellScoped_of_resolveIn hb

end ClassDef

namespace Machine

theorem sparing_stage {classes : List ClassDef} (h : ∀ cls ∈ classes, cls.WellFormed) (base : Machine)
    (known : List String) : Sparing base.SameFrame (stage known classes) := by
  induction classes generalizing known with
  | nil => exact sparing_pure _
  | cons cls classes ih =>
    obtain ⟨hf,hr⟩ := List.forall_mem_cons.1 h
    have hnew : Sparing base.SameFrame newClassId := fun _ hk => ⟨hk.methods,hk.stack⟩
    have hduplicate : ¬ (Problem.ofCause (.duplicateClass cls.name)).Internal := by
      simp [Problem.ofCause, Problem.Internal, Cause.category]
    unfold stage
    by_cases hk : cls.name ∈ known
    · simp only [hk, if_true]
      exact fun _ hs => ⟨hduplicate,hs⟩
    · simp only [hk, if_false]
      refine hnew.bind fun id => ?_
      cases ht : cls.methodTable with
      | error problem =>
        exact sparing_throw (ClassDef.not_internal_of_addMethods (fun method hm => (hf.methods method hm).body) ht)
      | ok table => exact (ih hr _).bind fun _ => sparing_pure _

theorem Sound.install {machine : Machine} {staged : Staged} (h : machine.Sound)
    (ht : ∀ name method, staged.table.get? name = some method → method.Sound (.object staged.id)) :
    (machine.install staged).Sound := by
  intro type name method hf
  simp only [method?, Machine.install, Table.get?_insert] at hf
  by_cases he : TypeKey.object staged.id = type
  · simp only [he, if_true, Option.bind_some] at hf
    exact he ▸ ht name method hf
  · simp only [he, if_false] at hf
    exact h type name method hf

theorem Sound.foldl_install {entries : List (ClassId × ClassDef)} {staged : List Staged} {machine : Machine}
    (hs : List.Forall₂ StagedAs entries staged) (h : machine.Sound) : (staged.foldl Machine.install machine).Sound := by
  induction hs generalizing machine with
  | nil => exact h
  | cons hf _ ih => exact ih (h.install fun _ _ hg => ClassDef.sound_of_methodTable hf.2.2 hg _)

theorem safeAt_load {program : Program} {machine : Machine} (hw : program.WellFormed) (h : machine.Sound) :
    Action.SafeAt Sound (Action.ofEStateM (load program)) (Action.ofEStateM (load program)) machine := by
  refine ⟨rfl,fun {classes loaded} hl => ?_,fun {problem after} hl => ?_⟩
  · obtain ⟨staged,hs,_,rfl⟩ := load_eq_ok (Option.some.inj hl)
    exact Sound.foldl_install hs (h.of_methods rfl)
  · have hstage := sparing_stage hw machine machine.classNames.values machine .rfl
    rw [load_eq_error (Option.some.inj hl)] at hstage
    exact ⟨hstage.1,h.of_methods hstage.2.methods⟩

theorem sound_fresh : fresh.Sound := by
  intro type name method hf
  by_cases ht : TypeKey.string = type
  · subst ht
    simp only [fresh, method?, Table.get?, Table.findIn, if_true, Option.bind_some, builtinMethods] at hf
    split at hf
    · exact Option.some.inj hf ▸ rfl
    · split at hf
      · exact Option.some.inj hf ▸ rfl
      · cases hf
  · simp [fresh, method?, Table.get?, Table.findIn, ht] at hf

end Machine

/-! ## Requests -/

/-- The ways of using a machine. -/
inductive Request where
  | submit (source : String)
  | run (source entry : String)
  | runClass (id : ClassId)

/-! How requests are served, with the evaluator and the running of methods left open. -/
namespace Machine

variable (eval : Evaluator) (invoke : Method → Value → List Value → Action Value)

def runClassBy (id : ClassId) : Action Value := fun machine =>
  match machine.method? (.object id) entryMethod with
  | none => Action.fail .noEntryMethod machine
  | some method =>
    (do
      let this ← Action.newObject id
      invoke method this [] : Action Value) machine

def runSourceBy (source entry : String) : Action Value := do
  let program ← Action.ofExcept (Program.parse source)
  let classes ← Action.ofEStateM (load program)
  match classes.lookup entry with
  | none => Action.fail (.noEntryClass entry)
  | some id => runClassBy invoke id

def evalInBy (scope : Scope) (expr : Named) : Action Value := do
  let resolved ← Action.ofExcept (expr.resolveIn scope)
  eval resolved

def submitBy (source : String) : Action Reply :=
  if startsClass source then do
    let program ← Action.ofExcept (Program.parse source)
    let classes ← Action.ofEStateM (load program)
    return .loaded classes
  else do
    let expr ← Action.ofExcept (Named.parse source)
    let value ← evalInBy eval [] expr
    return .value value

end Machine

namespace Request

def perform (depth : Nat) : Request → Action Reply
  | submit source => Machine.submit depth source
  | run source entry => do
    let value ← Machine.runSource depth source entry
    return .value value
  | runClass id => do
    let value ← Machine.runClass depth id
    return .value value

def performBy (eval : Evaluator) (invoke : Method → Value → List Value → Action Value) : Request → Action Reply
  | submit source => Machine.submitBy eval source
  | run source entry => do
    let value ← Machine.runSourceBy invoke source entry
    return .value value
  | runClass id => do
    let value ← Machine.runClassBy invoke id
    return .value value

theorem perform_eq (depth : Nat) (request : Request) :
    request.perform depth = request.performBy (Machine.eval depth) (Machine.invoke depth) := by
  cases request <;> rfl

/-- Performs a request, but does something strange when a built-in method sees a value that is no string. -/
def performWatching (strange : Builtin → Value → List Value → Action Value) (depth : Nat) : Request → Action Reply :=
  performBy (Machine.evalWatching strange depth)
    (Evaluator.invokeWatching strange (Machine.evalWatching strange depth))

end Request

/-- The machines that come about by serving requests, whether or not they succeed. A request that goes too deep leads to
none. -/
inductive Reachable : Machine → Prop where
  | fresh : Reachable .fresh
  | ok {machine after : Machine} {request : Request} {depth : Nat} {reply : Reply} : Reachable machine →
      request.perform depth machine = some (.ok reply after) → Reachable after
  | error {machine after : Machine} {request : Request} {depth : Nat} {problem : Problem} : Reachable machine →
      request.perform depth machine = some (.error problem after) → Reachable after

namespace Action

variable {α : Type} {kept weaker : Machine → Prop} {watched action : Action α} {machine : Machine}

theorem SafeAt.mono (h : SafeAt kept watched action machine) (hk : ∀ after, kept after → weaker after) :
    SafeAt weaker watched action machine :=
  ⟨h.same,fun ha => hk _ (h.ok ha),fun ha => ⟨(h.error ha).1,hk _ (h.error ha).2⟩⟩

theorem safeAt_ofExcept {found : Except Problem α} (hf : ∀ problem, found = .error problem → ¬ problem.Internal)
    (h : kept machine) : SafeAt kept (ofExcept found) (ofExcept found) machine := by
  cases found with
  | ok value => exact safeAt_pure h value
  | error problem => exact safeAt_raise (hf problem rfl) h

theorem eq_ok_of_ofExcept {found : Except Problem α} {value : α} {after : Machine}
    (h : ofExcept found machine = some (.ok value after)) : found = .ok value := by
  cases found with
  | ok other =>
    cases h
    rfl
  | error problem => cases h

end Action

namespace Machine

open Mica.Action

variable {machine : Machine} (strange : Builtin → Value → List Value → Action Value) (depth : Nat)

theorem safeAt_runClass (h : machine.Sound) (id : ClassId) :
    SafeAt Sound (runClassBy (Evaluator.invokeWatching strange (evalWatching strange depth)) id)
      (runClassBy (invoke depth) id) machine := by
  cases hm : machine.method? (.object id) entryMethod with
  | none =>
    have he (invoke : Method → Value → List Value → Action Value) :
        runClassBy invoke id machine = Action.fail .noEntryMethod machine := by simp only [runClassBy, hm]
    exact (safeAt_fail (by simp [Cause.category]) h).of_eq (he _) (he _)
  | some method =>
    have he (invoke : Method → Value → List Value → Action Value) :
        runClassBy invoke id machine = (newObject id >>= fun this => invoke method this []) machine := by
      simp only [runClassBy, hm]
    have hsafe : SafeAt machine.SameFrame
        (newObject id >>= fun this => Evaluator.invokeWatching strange (evalWatching strange depth) method this [])
        (newObject id >>= fun this => invoke depth method this []) machine := by
      have hnew : SafeAt machine.SameFrame (newObject id) (newObject id) machine := by
        refine ⟨rfl,?_,?_⟩
        · rintro _ _ ⟨⟩
          exact ⟨rfl,rfl⟩
        · rintro _ _ ⟨⟩
      refine hnew.bind ?_
      rintro _ _ ⟨⟩ hs
      exact Evaluator.Safe.invoke (safe_eval strange depth) (h _ _ _ hm) h hs
    exact (hsafe.mono fun _ hs => h.of_methods hs.methods).of_eq (he _) (he _)

theorem safeAt_parse {source : String} (h : machine.Sound) :
    SafeAt Sound (ofExcept (Program.parse source)) (ofExcept (Program.parse source)) machine :=
  safeAt_ofExcept (fun _ => not_internal_of_mapError) h

theorem safeAt_runSource (h : machine.Sound) (source entry : String) :
    SafeAt Sound (runSourceBy (Evaluator.invokeWatching strange (evalWatching strange depth)) source entry)
      (runSourceBy (invoke depth) source entry) machine := by
  refine (safeAt_parse h).bind fun program _ hp h => ?_
  refine (safeAt_load (Program.wellFormed_of_parse (eq_ok_of_ofExcept hp)) h).bind fun classes _ _ h => ?_
  cases classes.lookup entry with
  | none => exact safeAt_fail (by simp [Cause.category]) h
  | some id => exact safeAt_runClass strange depth h id

theorem safeAt_evalIn {expr : Named} (hw : Named.WellFormed expr) (h : machine.Sound) :
    SafeAt Sound (evalInBy (evalWatching strange depth) [] expr) (evalInBy (eval depth) [] expr) machine := by
  refine (safeAt_ofExcept (fun _ => hw.not_internal) h).bind fun resolved after hr h => ?_
  have hs := safe_eval strange depth (Named.wellScoped_of_resolveIn (eq_ok_of_ofExcept hr)) h (Nat.zero_le _) .rfl
  exact hs.mono fun _ hs => h.of_methods hs.methods

theorem safeAt_submit (h : machine.Sound) (source : String) :
    SafeAt Sound (submitBy (evalWatching strange depth) source) (submitBy (eval depth) source) machine := by
  unfold submitBy
  split
  · refine (safeAt_parse h).bind fun program _ hp h => ?_
    refine (safeAt_load (Program.wellFormed_of_parse (eq_ok_of_ofExcept hp)) h).bind fun classes _ _ h => ?_
    exact safeAt_pure h _
  · refine (safeAt_ofExcept (fun _ => not_internal_of_mapError) h).bind fun expr _ hp h => ?_
    have hw := Named.wellFormed_of_parse (eq_ok_of_ofExcept hp)
    exact (safeAt_evalIn strange depth hw h).bind fun value _ _ h => safeAt_pure h _

end Machine

/-- One request: it keeps the methods sound however it ends. -/
theorem Request.safeAt_perform {machine : Machine} (h : machine.Sound)
    (strange : Builtin → Value → List Value → Action Value) (depth : Nat) (request : Request) :
    Action.SafeAt Machine.Sound (request.performWatching strange depth) (request.perform depth) machine := by
  rw [perform_eq]
  cases request with
  | submit source => exact Machine.safeAt_submit strange depth h source
  | run source entry =>
    exact (Machine.safeAt_runSource strange depth h source entry).bind fun _ _ _ h => Action.safeAt_pure h _
  | runClass id => exact (Machine.safeAt_runClass strange depth h id).bind fun _ _ _ h => Action.safeAt_pure h _

/-- Any number of requests. -/
theorem Reachable.sound {machine : Machine} (h : Reachable machine) : machine.Sound := by
  induction h with
  | fresh => exact Machine.sound_fresh
  | ok _ hp ih => exact (Request.safeAt_perform ih (fun _ _ _ => Action.cutOff) _ _).ok hp
  | error _ hp ih => exact ((Request.safeAt_perform ih (fun _ _ _ => Action.cutOff) _ _).error hp).2

/-- A machine that has only ever served requests serves the next one without an internal problem, and no
built-in method that it runs sees anything but a string. -/
theorem perform_not_internal {machine : Machine} (h : Reachable machine) (request : Request) (depth : Nat) :
    (∀ problem after, request.perform depth machine = some (.error problem after) → ¬ problem.Internal) ∧
      ∀ strange, request.performWatching strange depth machine = request.perform depth machine := by
  refine ⟨fun problem after hp => ?_,fun strange => (request.safeAt_perform h.sound strange depth).same⟩
  exact ((request.safeAt_perform h.sound (fun _ _ _ => Action.cutOff) depth).error hp).1

/-- A class whose entry method prints and then fails. -/
def mishapText : String := "class A \x7b def main = \x7b println (concat \"o\" \"k\"); greet this \x7d; \x7d"

/-- What is left when the class has been loaded and has failed once. -/
def mishap : Machine :=
  { Machine.fresh with
    methods := ⟨[(.string,Machine.builtinMethods),(.object ⟨1⟩,⟨[
      ("main",.custom (.seq [.call "println" (.call "concat" (.lit (.string "o")) [.lit (.string "k")]) [],
        .call "greet" (.var 0) []]) "A.main" (some 0))]⟩)]⟩
    classNames := ⟨[(⟨1⟩,"A")]⟩
    classCount := 1
    objectCount := 1
    output := "ok\n" }

theorem perform_not_internal_mishap :
    Reachable mishap ∧
    (Request.runClass ⟨1⟩).perform 5 mishap =
      some (.error (.failure ⟨.noSuchMethod (.object ⟨1⟩) "greet",["A.main"]⟩)
        { mishap with objectCount := 2, output := "ok\nok\n" }) ∧
    (Request.runClass ⟨1⟩).performWatching (fun _ _ _ => Action.cutOff) 5 mishap =
      (Request.runClass ⟨1⟩).perform 5 mishap ∧
    ¬ (Problem.failure ⟨.noSuchMethod (.object ⟨1⟩) "greet",["A.main"]⟩).Internal := by
  have hl : (Request.submit mishapText).perform 5 .fresh =
      some (.ok (.loaded [("A",⟨1⟩)]) { mishap with objectCount := 0, output := "" }) := by decide +kernel
  have hf : (Request.runClass ⟨1⟩).perform 5 { mishap with objectCount := 0, output := "" } =
      some (.error (.failure ⟨.noSuchMethod (.object ⟨1⟩) "greet",["A.main"]⟩) mishap) := by decide +kernel
  have hr : Reachable mishap := (Reachable.fresh.ok hl).error hf
  have hagain : (Request.runClass ⟨1⟩).perform 5 mishap =
      some (.error (.failure ⟨.noSuchMethod (.object ⟨1⟩) "greet",["A.main"]⟩)
        { mishap with objectCount := 2, output := "ok\nok\n" }) := by decide +kernel
  obtain ⟨hi,hw⟩ := perform_not_internal hr (.runClass ⟨1⟩) 5
  exact ⟨hr,hagain,hw _,hi _ _ hagain⟩

end Mica
