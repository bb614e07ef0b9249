import Mica.Proofs.Loading

/-! # Lexical scope

A reference interpreter runs a program as it is written. It looks every variable up by name in an
environment, innermost binding first, and a method body starts from an environment of its own that
holds the receiver and the parameters only. Running a loaded program on the machine, where names have
become positions on one stack that all methods share, comes out as the reference does.
-/
namespace Mica

namespace Lexical

/-- Values by name, innermost binding first. -/
abbrev Env := List (String × Value)

/-- Computations that print, may fail, and may be cut off. -/
abbrev Telling := ExceptT Cause (StateT String Option)

def cutOff {α : Type} : Telling α := fun _ => none

def tell (text : String) : Telling Unit := fun out => some (.ok (),out ++ text)

/-- What a method name stands for, with the method as it is written in the program. -/
inductive Target where
  | builtin (builtin : Builtin)
  | defined (owner : String) (method : MethodDef)

def builtin? : String → Option Builtin
  | "concat" => some .concat
  | "println" => some .println
  | _ => none

/-- The method that a value has under a name. The classes of a program have their numbers from one on. -/
def target? (program : Program) (name : String) : Value → Option Target
  | .string _ => (builtin? name).map .builtin
  | .object id _ =>
    ((ClassDef.numberedFrom 1 program.classes).lookup id).bind fun cls =>
      (cls.latest? name).map fun method => .defined (cls.label method) method
  | _ => none

/-- The environment in which a method body starts. -/
def Env.ofCall (this : Value) (params : List String) (args : List Value) : Env :=
  (("this",this) :: params.zip args).reverse

def invoke (eval : Env → Named → Telling Value) (target : Target) (this : Value) (args : List Value) :
    Telling Value :=
  match target with
  | .builtin builtin =>
    match builtin.apply this args with
    | .ok (value,text) => do
      tell text
      return value
    | .error cause => throw cause
  | .defined owner method =>
    if args.length = method.params.length then eval (.ofCall this method.params args) method.body
    else throw (.arity owner method.params.length args.length)

/-- Evaluates an expression as it is written, to a given depth. Something that is no expression has no
meaning. -/
def eval (program : Program) : Nat → Env → Named → Telling Value
  | 0, _, _ => cutOff
  | depth + 1, env, expr =>
    match expr with
    | .lit value => return value
    | .call name receiver args => do
      let this ← eval program depth env receiver
      match target? program name this with
      | none => throw (.noSuchMethod this.typeKey name)
      | some target =>
        let args ← args.mapM (eval program depth env)
        invoke (eval program depth) target this args
    | .var name =>
      match env.lookup name with
      | some value => return value
      | none => throw (.unbound name)
    | .letIn name bound body => do
      let value ← eval program depth env bound
      eval program depth ((name,value) :: env) body
    | .cond test yes no => do
      match ← eval program depth env test with
      | .bool true => eval program depth env yes
      | .bool false => eval program depth env no
      | value => throw (.conditionType value.typeKey)
    | .seq steps => steps.foldlM (fun _ step => eval program depth env step) .unit
    | .stray _ => cutOff

/-- Calls the entry method of an object of the class called `entry`. -/
def run (program : Program) (entry : String) (depth : Nat) : Telling Value :=
  match (ClassDef.numberedFrom 1 program.classes).find? (·.2.name = entry) with
  | none => throw (.noEntryClass entry)
  | some (id,cls) =>
    match cls.latest? Machine.entryMethod with
    | none => throw .noEntryMethod
    | some method => invoke (eval program depth) (.defined (cls.label method) method) (.object id 0) []

end Lexical

/-- The same machine with another text as its output. -/
def Machine.saying (machine : Machine) (out : String) : Machine := { machine with output := out }

theorem Machine.saying_of_output {machine : Machine} {out : String} (h : machine.output = out) :
    machine.saying out = machine := h ▸ rfl

namespace Lexical

variable {α β : Type}

/-- The two interpreters end alike: both are cut off, or both have the same value, or both fail for the
same cause, with the same text printed and nothing else in the machine changed. -/
inductive Agrees (machine : Machine) : Outcome α → Option (Except Cause α × String) → Prop
  | cutOff : Agrees machine none none
  | value (value : α) (out : String) :
    Agrees machine (some (.ok value (machine.saying out))) (some (.ok value,out))
  | failure (cause : Cause) (trace : List String) (out : String) :
    Agrees machine (some (.error (.failure ⟨cause,trace⟩) (machine.saying out))) (some (.error cause,out))

/-- An action of the machine does what a computation of the reference does, whatever has been printed. -/
def Tracks (machine : Machine) (action : Action α) (telling : Telling α) : Prop :=
  ∀ out, Agrees machine (action (machine.saying out)) (telling out)

theorem tracks_pure (machine : Machine) (value : α) : Tracks machine (pure value) (pure value) :=
  fun out => .value value out

theorem tracks_fail (machine : Machine) (cause : Cause) :
    Tracks machine (Action.fail cause : Action α) (throw cause) :=
  fun out => .failure cause [] out

theorem Tracks.bind {machine : Machine} {action : Action α} {telling : Telling α}
    {next : α → Action β} {follow : α → Telling β} (h : Tracks machine action telling)
    (hn : ∀ value, Tracks machine (next value) (follow value)) :
    Tracks machine (action >>= next) (telling >>= follow) := by
  intro out
  have ha := h out
  rw [Action.bind_apply]
  change Agrees machine _ ((telling out).bind fun result => ExceptT.bindCont follow result.1 result.2)
  generalize action (machine.saying out) = outcome at ha
  generalize telling out = answer at ha
  cases ha with
  | cutOff => exact .cutOff
  | value value text => exact hn value text
  | failure cause trace text => exact .failure cause trace text

theorem tracks_noMethod {machine : Machine} {type : TypeKey} {name : String}
    (h : machine.method? type name = none) (next : Method → Action α) :
    Tracks machine (Action.method type name >>= next) (throw (.noSuchMethod type name)) := by
  intro out
  have hm : (machine.saying out).method? type name = none := h
  simp only [Action.bind_apply, Action.method, hm]
  exact .failure _ [] out

theorem tracks_method {machine : Machine} {type : TypeKey} {name : String} {method : Method}
    (h : machine.method? type name = some method) {next : Method → Action α} {telling : Telling α}
    (hn : Tracks machine (next method) telling) : Tracks machine (Action.method type name >>= next) telling := by
  intro out
  have hm : (machine.saying out).method? type name = some method := h
  simp only [Action.bind_apply, Action.method, hm]
  exact hn out

theorem Tracks.within {machine : Machine} {action : Action α} {telling : Telling α}
    (h : Tracks machine action telling) (owner : String) : Tracks machine (action.within owner) telling := by
  intro out
  have ha := h out
  unfold Action.within
  generalize action (machine.saying out) = outcome at ha
  generalize telling out = answer at ha
  cases ha with
  | cutOff => exact .cutOff
  | value value text => exact .value value text
  | failure cause trace text => exact .failure cause (trace ++ [owner]) text

/-- An action that puts values on the stack and takes them off again tracks what it tracks without. -/
theorem Tracks.restoring {machine : Machine} {stack : List Value} {restore : List Value → List Value}
    {action : Action α} {telling : Telling α} (h : Tracks { machine with stack } action telling)
    (hr : restore stack = machine.stack) (out : String) :
    Agrees machine (action.restoring restore ({ machine with stack }.saying out)) (telling out) := by
  have ha := h out
  have he (text : String) : { machine with stack := restore stack, output := text } = machine.saying text := by
    rw [hr]
    rfl
  unfold Action.restoring
  generalize action ({ machine with stack }.saying out) = outcome at ha
  generalize telling out = answer at ha
  cases ha with
  | cutOff => exact .cutOff
  | value value text =>
    change Agrees machine (some (.ok value { machine with stack := restore stack, output := text })) _
    rw [he]
    exact .value value text
  | failure cause trace text =>
    change Agrees machine (some (.error _ { machine with stack := restore stack, output := text })) _
    rw [he]
    exact .failure cause trace text

theorem Tracks.binding {machine : Machine} {value : Value} {action : Action α} {telling : Telling α}
    (h : Tracks (machine.push value) action telling) : Tracks machine (action.binding value) telling :=
  fun out => Tracks.restoring h rfl out

theorem Tracks.frame {machine : Machine} {values : List Value} {action : Action α} {telling : Telling α}
    (h : Tracks { machine with stack := values.reverse ++ machine.stack } action telling) :
    Tracks machine (action.frame values) telling := by
  intro out
  change Agrees machine (action.restoring (fun stack => stack.drop (stack.length - machine.stack.length))
    ({ machine with stack := values.reverse ++ machine.stack }.saying out)) _
  exact Tracks.restoring h (by simp) out

theorem tracks_all {machine : Machine} {evaluator : Evaluator} {interpret : Named → Telling Value}
    {exprs : List Named} {resolved : List Resolved}
    (h : List.Forall₂ (fun expr code => Tracks machine (evaluator code) (interpret expr)) exprs resolved) :
    Tracks machine (evaluator.all resolved) (exprs.mapM interpret) := by
  induction h with
  | nil => exact tracks_pure machine []
  | cons hf _ ih =>
    rw [List.mapM_cons]
    exact hf.bind fun _ => ih.bind fun _ => tracks_pure machine _

theorem tracks_sequence {machine : Machine} {evaluator : Evaluator} {interpret : Named → Telling Value}
    {exprs : List Named} {resolved : List Resolved} (value : Value)
    (h : List.Forall₂ (fun expr code => Tracks machine (evaluator code) (interpret expr)) exprs resolved) :
    Tracks machine (evaluator.sequence value resolved) (exprs.foldlM (fun _ expr => interpret expr) value) := by
  induction h generalizing value with
  | nil => exact tracks_pure machine value
  | cons hf _ ih =>
    rw [List.foldlM_cons]
    exact hf.bind fun value => ih value

/-- The position of a name in the environment is the position of its value on the stack. -/
theorem lookup_of_idxOf? {env : Env} {name : String} {position : Nat}
    (h : (env.map Prod.fst).idxOf? name = some position) (below : List Value) :
    ∃ value, env.lookup name = some value ∧ (env.map Prod.snd ++ below)[position]? = some value := by
  induction env generalizing position with
  | nil => simp at h
  | cons entry env ih =>
    obtain ⟨key,value⟩ := entry
    rw [List.map_cons, List.idxOf?_cons] at h
    by_cases hk : key = name
    · subst hk
      simp at h
      subst h
      exact ⟨value,by simp,by simp⟩
    · have hb : (key == name) = false := beq_false_of_ne hk
      have hb' : (name == key) = false := beq_false_of_ne (Ne.symm hk)
      simp only [hb, Bool.false_eq_true, if_false, Option.map_eq_some_iff] at h
      obtain ⟨before,hp,rfl⟩ := h
      obtain ⟨found,hl,hg⟩ := ih hp
      refine ⟨found,?_,?_⟩
      · rw [List.lookup_cons, hb']
        exact hl
      · simpa using hg

theorem tracks_slot {machine : Machine} {env : Env} {below : List Value} {name : String} {position : Nat}
    (hs : machine.stack = env.map Prod.snd ++ below)
    (h : (env.map Prod.fst).idxOf? name = some position) :
    Tracks machine (Action.slot position)
      (match env.lookup name with
        | some value => pure value
        | none => throw (.unbound name)) := by
  obtain ⟨value,hl,hg⟩ := lookup_of_idxOf? h below
  intro out
  have ha : Action.slot position (machine.saying out) = some (.ok value (machine.saying out)) := by
    simp [Action.slot, Machine.saying, hs, hg]
  rw [ha, hl]
  exact .value value out

/-- What a machine has under a name is the resolved form of what the program has under it. -/
inductive Compiled : Option Target → Option Method → Prop
  | none : Compiled none none
  | builtin (builtin : Builtin) : Compiled (some (.builtin builtin)) (some (.builtin builtin))
  | defined {method : MethodDef} {body : Resolved} (owner : String)
    (h : method.body.resolveIn (.ofMethod method.params) = .ok body) :
    Compiled (some (.defined owner method)) (some (.custom body owner (some method.params.length)))

/-- The methods of a machine are those of a program and the built-in ones. -/
def Holds (program : Program) (machine : Machine) : Prop :=
  ∀ value name, Compiled (target? program name value) (machine.method? value.typeKey name)

theorem map_fst_ofCall (this : Value) {params : List String} {args : List Value}
    (h : args.length = params.length) : (Env.ofCall this params args).map Prod.fst = Scope.ofMethod params := by
  simp [Env.ofCall, Scope.ofMethod, List.map_fst_zip (Nat.le_of_eq h.symm)]

theorem map_snd_ofCall (this : Value) {params : List String} {args : List Value}
    (h : args.length = params.length) : (Env.ofCall this params args).map Prod.snd = (this :: args).reverse := by
  simp [Env.ofCall, List.map_snd_zip (Nat.le_of_eq h)]

/-- The evaluator of the machine and the reference agree on every expression and environment, as long
as the machine holds the program and the values of the environment are the innermost on its stack. -/
def Simulates (program : Program) (evaluator : Evaluator) (interpret : Env → Named → Telling Value) : Prop :=
  ∀ (machine : Machine) (env : Env) (below : List Value) (expr : Named) (code : Resolved),
    Holds program machine → machine.stack = env.map Prod.snd ++ below →
    expr.resolveIn (env.map Prod.fst) = .ok code → Tracks machine (evaluator code) (interpret env expr)

theorem tracks_builtin (machine : Machine) (interpret : Env → Named → Telling Value) (builtin : Builtin)
    (this : Value) (args : List Value) :
    Tracks machine (Action.builtin builtin this args) (invoke interpret (.builtin builtin) this args) := by
  intro out
  cases h : builtin.apply this args with
  | error cause =>
    simp only [Action.builtin, invoke, h]
    exact .failure cause [] out
  | ok result =>
    simp only [Action.builtin, invoke, h]
    exact .value result.1 (out ++ result.2)

/-- A method body runs in the environment of its own call, whatever lies below on the stack. -/
theorem Simulates.invoke {program : Program} {evaluator : Evaluator} {interpret : Env → Named → Telling Value}
    (h : Simulates program evaluator interpret) {machine : Machine} (hm : Holds program machine)
    {target : Target} {method : Method} (hc : Compiled (some target) (some method)) (this : Value)
    (args : List Value) :
    Tracks machine (evaluator.invoke method this args) (invoke interpret target this args) := by
  cases hc with
  | builtin builtin => exact tracks_builtin machine interpret builtin this args
  | @defined definition body owner hb =>
    simp only [Evaluator.invoke, Evaluator.checkArity, Lexical.invoke, Int.natCast_inj]
    by_cases hl : args.length = definition.params.length
    · simp only [if_pos hl]
      refine Tracks.frame (Tracks.within ?_ owner)
      refine h { machine with stack := (this :: args).reverse ++ machine.stack } _ machine.stack _ _ hm ?_ ?_
      · rw [map_snd_ofCall this hl]
      · rw [map_fst_ofCall this hl]
        exact hb
    · simp only [if_neg hl]
      exact fun out => .failure _ [] out

/-- One step of evaluation keeps the agreement. -/
theorem Simulates.step {program : Program} {depth : Nat}
    (h : Simulates program (Machine.eval depth) (eval program depth)) :
    Simulates program (Machine.eval (depth + 1)) (eval program (depth + 1)) := by
  intro machine env below expr code hm hs hr
  cases expr with
  | lit value =>
    obtain rfl := Named.resolveIn_lit_eq_ok.1 hr
    exact tracks_pure machine value
  | call name receiver args =>
    obtain ⟨this,rest,ht,hrest,rfl⟩ := Named.resolveIn_call_eq_ok.1 hr
    refine (h machine env below receiver this hm hs ht).bind fun this => ?_
    have hc := hm this name
    generalize hg : machine.method? this.typeKey name = found at hc
    generalize target? program name this = target at hc ⊢
    have ha := tracks_all (hrest.imp fun _ _ harg => h machine env below _ _ hm hs harg)
    cases found with
    | none => cases hc; exact tracks_noMethod hg _
    | some method =>
      obtain _ | target := target
      · cases hc
      · exact tracks_method hg (ha.bind fun args => h.invoke hm hc this args)
  | var name =>
    obtain ⟨position,hp,rfl⟩ := Named.resolveIn_var_eq_ok.1 hr
    exact tracks_slot hs hp
  | letIn name bound body =>
    obtain ⟨value,rest,hv,hb,rfl⟩ := Named.resolveIn_letIn_eq_ok.1 hr
    refine (h machine env below bound value hm hs hv).bind fun value => Tracks.binding ?_
    exact h (machine.push value) ((name,value) :: env) below body rest hm (by simp [Machine.push, hs]) hb
  | cond test yes no =>
    obtain ⟨first,second,third,ht,hy,hn,rfl⟩ := Named.resolveIn_cond_eq_ok.1 hr
    refine (h machine env below test first hm hs ht).bind fun value => ?_
    cases value with
    | bool flag =>
      cases flag with
      | true => exact h machine env below yes second hm hs hy
      | false => exact h machine env below no third hm hs hn
    | unit => exact tracks_fail machine _
    | i32 number => exact tracks_fail machine _
    | string text => exact tracks_fail machine _
    | object id identity => exact tracks_fail machine _
  | seq steps =>
    obtain ⟨rest,hrest,rfl⟩ := Named.resolveIn_seq_eq_ok.1 hr
    exact tracks_sequence .unit (hrest.imp fun _ _ hstep => h machine env below _ _ hm hs hstep)
  | stray text => exact absurd hr Named.resolveIn_stray_ne_ok

/-- The agreement holds at every depth. -/
theorem simulates (program : Program) (depth : Nat) :
    Simulates program (Machine.eval depth) (eval program depth) := by
  induction depth with
  | zero => exact fun _ _ _ _ _ _ _ _ _ => .cutOff
  | succ depth ih => exact ih.step

theorem compiled_builtin (name : String) :
    Compiled ((builtin? name).map .builtin) (Machine.builtinMethods.get? name) := by
  by_cases hc : name = "concat"
  · subst hc
    exact .builtin .concat
  · by_cases hp : name = "println"
    · subst hp
      exact .builtin .println
    · have hb : builtin? name = none := by
        unfold builtin?
        split <;> simp_all
      have hg : Machine.builtinMethods.get? name = none := by
        simp [Machine.builtinMethods, Table.get?, Table.findIn, Ne.symm hc, Ne.symm hp]
      rw [hb, hg]
      exact .none

/-- What a program gives a new machine to work with. -/
theorem holds_of_load {program : Program} {classes : List (String × ClassId)} {loaded : Machine}
    (h : Machine.load program .fresh = .ok classes loaded) : Holds program loaded := by
  obtain ⟨staged,hs,_,rfl⟩ := Machine.load_eq_ok h
  replace hs : List.Forall₂ Machine.StagedAs (ClassDef.numberedFrom 1 program.classes) staged := hs
  generalize hm : { Machine.fresh with classCount := Machine.fresh.classCount + program.classes.length } = machine
  have hother (type : TypeKey) (ht : type.classId = none) (name : String) :
      (staged.foldl Machine.install machine).method? type name = Machine.fresh.method? type name := by
    rw [Machine.method?, Machine.get?_foldl_install_of_ne staged machine ht, ← hm]
    rfl
  intro value name
  cases value with
  | unit => exact hother .unit rfl name ▸ .none
  | bool flag => exact hother .bool rfl name ▸ .none
  | i32 number => exact hother .i32 rfl name ▸ .none
  | string text => exact hother .string rfl name ▸ compiled_builtin name
  | object id identity =>
    change Compiled (((ClassDef.numberedFrom 1 program.classes).lookup id).bind _)
      (((staged.foldl Machine.install machine).methods.get? (.object id)).bind (·.get? name))
    rcases Machine.get?_foldl_install hs machine id with ⟨hl,hg⟩ | ⟨cls,table,hl,ht,hg⟩
    · rw [hl, hg, ← hm]
      exact .none
    · rw [hl, hg]
      rcases ClassDef.get?_of_methodTable ht name with ⟨hn,hf⟩ | ⟨method,custom,hn,hc,hf⟩
      · simp only [Option.bind_some, hn, hf]
        exact .none
      · obtain ⟨body,hb,rfl⟩ := ClassDef.customMethod_eq_ok.1 hc
        simp only [Option.bind_some, hn, hf]
        exact .defined (cls.label method) hb

/-- Running a program that parses and loads ends as the reference does, at every depth. -/
theorem runSource_agrees {source : String} {program : Program} {classes : List (String × ClassId)}
    {loaded : Machine} (hp : Program.parse source = .ok program)
    (hl : Machine.load program .fresh = .ok classes loaded) (entry : String) (depth : Nat) :
    ∃ machine, Agrees machine (Machine.runSource depth source entry .fresh) (run program entry depth "") := by
  have hm := holds_of_load hl
  obtain ⟨_,hobjects,hout⟩ := Machine.load_frame hl
  replace hobjects : loaded.objectCount = 0 := hobjects
  replace hout : loaded.output = "" := hout
  obtain ⟨staged,hs,hc,_⟩ := Machine.load_eq_ok hl
  replace hs : List.Forall₂ Machine.StagedAs (ClassDef.numberedFrom 1 program.classes) staged := hs
  rw [Machine.runSource_of_load hp hl, hc, Machine.lookup_of_stagedAs hs, run]
  cases hfind : (ClassDef.numberedFrom 1 program.classes).find? fun found => found.2.name = entry with
  | none =>
    have hf := tracks_fail (α := Value) loaded (.noEntryClass entry) ""
    rw [Machine.saying_of_output hout] at hf
    exact ⟨loaded,hf⟩
  | some found =>
    obtain ⟨id,cls⟩ := found
    have hid := ClassDef.lookup_numberedFrom_of_mem (List.mem_of_find?_eq_some hfind)
    have hmain := hm (.object id 0) Machine.entryMethod
    simp only [target?, hid, Option.bind_some, Value.typeKey] at hmain
    simp only [Option.map_some]
    generalize hmethod : loaded.method? (.object id) Machine.entryMethod = compiled at hmain
    cases hlatest : cls.latest? Machine.entryMethod with
    | none =>
      rw [hlatest] at hmain
      cases hmain
      rw [Machine.runClass_of_noMethod hmethod]
      have hf := tracks_fail (α := Value) loaded .noEntryMethod ""
      rw [Machine.saying_of_output hout] at hf
      exact ⟨loaded,hf⟩
    | some method =>
      rw [hlatest] at hmain
      obtain _ | compiled := compiled
      · cases hmain
      · rw [Machine.runClass_of_method hmethod, hobjects]
        have hm : Holds program { loaded with objectCount := 1 } := hm
        have hi := (simulates program depth).invoke hm hmain (.object id 0) []
        have hsay : { loaded with objectCount := 1 }.saying "" = { loaded with objectCount := 1 } :=
          Machine.saying_of_output hout
        exact ⟨_,hsay ▸ hi ""⟩

/-- How a run of the machine shows itself: it ends with a value or fails for a cause, and has printed a
text by then. -/
def Shows (run : Nat → Outcome Value) (ending : Except Cause Value) (out : String) : Prop :=
  ∃ depth machine, machine.output = out ∧
    match ending with
    | .ok value => run depth = some (.ok value machine)
    | .error cause => ∃ trace, run depth = some (.error (.failure ⟨cause,trace⟩) machine)

theorem shows_iff_of_agrees {run : Nat → Outcome Value} {reference : Nat → Option (Except Cause Value × String)}
    (h : ∀ depth, ∃ machine, Agrees machine (run depth) (reference depth)) (ending : Except Cause Value)
    (out : String) : Shows run ending out ↔ ∃ depth, reference depth = some (ending,out) := by
  constructor
  · rintro ⟨depth,machine,rfl,hd⟩
    obtain ⟨before,ha⟩ := h depth
    refine ⟨depth,?_⟩
    generalize reference depth = answer at ha ⊢
    cases ending with
    | ok value =>
      simp only at hd
      rw [hd] at ha
      cases ha
      rfl
    | error cause =>
      obtain ⟨trace,hd⟩ := hd
      rw [hd] at ha
      cases ha
      rfl
  · rintro ⟨depth,hd⟩
    obtain ⟨before,ha⟩ := h depth
    rw [hd] at ha
    generalize hr : run depth = outcome at ha
    cases ha with
    | value value => exact ⟨depth,before.saying out,rfl,hr⟩
    | failure cause trace => exact ⟨depth,before.saying out,rfl,trace,hr⟩

theorem endless_iff_of_agrees {run : Nat → Outcome Value} {reference : Nat → Option (Except Cause Value × String)}
    (h : ∀ depth, ∃ machine, Agrees machine (run depth) (reference depth)) :
    (∀ depth, run depth = none) ↔ ∀ depth, reference depth = none := by
  have hd (depth : Nat) : run depth = none ↔ reference depth = none := by
    obtain ⟨machine,ha⟩ := h depth
    generalize run depth = outcome at ha ⊢
    generalize reference depth = answer at ha ⊢
    cases ha <;> simp
  exact forall_congr' hd

/-- Resolving names to positions and running on the shared stack keeps the meaning that lexical scope
gives to a program. A run of a text that parses and loads ends with a value or a failure, and a text
printed, exactly when the reference does on the program as it is written, and it never ends exactly
when the reference never does. -/
theorem shows_runSource_iff {source : String} {program : Program} {classes : List (String × ClassId)}
    {loaded : Machine} (hp : Program.parse source = .ok program)
    (hl : Machine.load program .fresh = .ok classes loaded) (entry : String) :
    (∀ ending out, Shows (fun depth => Machine.runSource depth source entry .fresh) ending out ↔
        ∃ depth, run program entry depth "" = some (ending,out)) ∧
      ((∀ depth, Machine.runSource depth source entry .fresh = none) ↔
        ∀ depth, run program entry depth "" = none) := by
  have h := runSource_agrees hp hl entry
  exact ⟨shows_iff_of_agrees h,endless_iff_of_agrees h⟩

/-- A parameter called as the receiver, one name for two parameters, and a binding that reads the name it
hides. -/
def shadowing : Program :=
  ⟨[⟨"Main",
    [⟨"main",[],.seq [.call "println" (.lit (.string "go")) [],
        .call "pick" (.var "this") [.lit (.string "r"),.lit (.string "a"),.lit (.string "b")]]⟩,
      ⟨"pick",["this","x","x"],
        .letIn "y" (.var "x") (.letIn "x" (.call "concat" (.var "this") [.var "x"])
          (.call "concat" (.var "y") [.var "x"]))⟩]⟩]⟩

def shadowingText : String :=
  "class Main \x7b def main = \x7b println \"go\"; pick this \"r\" \"a\" \"b\" \x7d;\n" ++
    "def pick this x x = let y = x in let x = concat this x in concat y x; \x7d"

def shadowingLoaded : Machine :=
  { Machine.fresh with
    methods := ⟨[(.string,Machine.builtinMethods),(.object ⟨1⟩,⟨[
      ("main",.custom (.seq [.call "println" (.lit (.string "go")) [],
        .call "pick" (.var 0) [.lit (.string "r"),.lit (.string "a"),.lit (.string "b")]]) "Main.main" (some 0)),
      ("pick",.custom (.letIn () (.var 0) (.letIn () (.call "concat" (.var 3) [.var 1])
        (.call "concat" (.var 1) [.var 0]))) "Main.pick" (some 3))]⟩)]⟩
    classNames := ⟨[(⟨1⟩,"Main")]⟩
    classCount := 1 }

theorem shows_runSource_shadowing :
    Shows (fun depth => Machine.runSource depth shadowingText "Main" .fresh) (.ok (.string "brb")) "go\n" := by
  have hp : Program.parse shadowingText = .ok shadowing := by decide +kernel
  have hl : Machine.load shadowing .fresh = .ok [("Main",⟨1⟩)] shadowingLoaded := by decide +kernel
  exact ((shows_runSource_iff hp hl "Main").1 _ _).2 ⟨7,by decide +kernel⟩

end Lexical

end Mica
