import Mica.Proofs.Account
import Mica.Proofs.Grammar.Printing
import Mica.Proofs.Resolution

/-! # Renumbering classes

The number of a class is only a key. Where the classes that values can be of get other numbers, and the methods
found under the new numbers are those found under the old ones, an evaluation comes to the same: to the same value
with its class renumbered, or to the same problem with the classes that it mentions renumbered, and it prints the same
text. It is enough to look at the classes that are known to an evaluation from the start, since evaluating never
comes upon a class that it has not been handed.
-/
namespace Mica

/-! ## Literals -/

namespace Expr

variable {β ρ : Type}

mutual

/-- The values that stand in an expression. -/
def literals : Expr β ρ → List Value
  | lit value => [value]
  | call _ receiver args => literals receiver ++ literalsAll args
  | var _ => []
  | letIn _ bound body => literals bound ++ literals body
  | cond test yes no => literals test ++ (literals yes ++ literals no)
  | seq steps => literalsAll steps
  | stray _ => []

def literalsAll : List (Expr β ρ) → List Value
  | [] => []
  | expr :: exprs => literals expr ++ literalsAll exprs

end

theorem literalsAll_eq_flatMap (exprs : List (Expr β ρ)) : literalsAll exprs = exprs.flatMap literals := by
  induction exprs with
  | nil => rfl
  | cons expr exprs ih => rw [literalsAll, List.flatMap_cons, ih]

theorem forall_mem_literalsAll {P : Value → Prop} {exprs : List (Expr β ρ)} :
    (∀ value ∈ literalsAll exprs, P value) ↔ ∀ expr ∈ exprs, ∀ value ∈ expr.literals, P value := by
  rw [literalsAll_eq_flatMap]
  simp only [List.mem_flatMap]
  exact ⟨fun h expr he value hv => h value ⟨expr,he,hv⟩,fun h value ⟨expr,he,hv⟩ => h expr he value hv⟩

end Expr

namespace Named

variable {scope : Scope} {code : Resolved}

theorem literalsAll_of_forall₂ {exprs : List Named} {codes : List Resolved}
    (h : ∀ expr ∈ exprs, ∀ code, resolveIn expr scope = .ok code → code.literals = expr.literals)
    (hs : List.Forall₂ (fun expr code => resolveIn expr scope = .ok code) exprs codes) :
    Expr.literalsAll codes = Expr.literalsAll exprs := by
  induction hs with
  | nil => rfl
  | cons hf _ ih =>
    obtain ⟨he,hr⟩ := List.forall_mem_cons.1 h
    rw [Expr.literalsAll, Expr.literalsAll, he _ hf, ih hr]

/-- Resolution keeps all literals. -/
theorem literals_of_resolveIn {expr : Named} (h : resolveIn expr scope = .ok code) :
    code.literals = expr.literals := by
  induction expr using Expr.induct generalizing scope code with
  | lit value =>
    obtain rfl := resolveIn_lit_eq_ok.1 h
    rfl
  | call name receiver args hr ha =>
    obtain ⟨this,rest,ht,hs,rfl⟩ := resolveIn_call_eq_ok.1 h
    rw [Expr.literals, Expr.literals, hr ht, literalsAll_of_forall₂ (fun arg hm _ he => ha arg hm he) hs]
  | var name =>
    obtain ⟨position,_,rfl⟩ := resolveIn_var_eq_ok.1 h
    rfl
  | letIn name bound body hb hd =>
    obtain ⟨value,rest,hv,hr,rfl⟩ := resolveIn_letIn_eq_ok.1 h
    rw [Expr.literals, Expr.literals, hb hv, hd hr]
  | cond test yes no ht hy hn =>
    obtain ⟨first,second,third,h₁,h₂,h₃,rfl⟩ := resolveIn_cond_eq_ok.1 h
    rw [Expr.literals, Expr.literals, ht h₁, hy h₂, hn h₃]
  | seq steps hs =>
    obtain ⟨rest,hr,rfl⟩ := resolveIn_seq_eq_ok.1 h
    rw [Expr.literals, Expr.literals, literalsAll_of_forall₂ (fun step hm _ he => hs step hm he) hr]
  | stray text => exact absurd h resolveIn_stray_ne_ok

end Named

/-- A value that, if it is an object, is one of a known class. -/
def Value.Of (known : ClassId → Prop) : Value → Prop
  | object id _ => known id
  | _ => True

theorem Value.Of.mono {known known' : ClassId → Prop} (h : ∀ id, known id → known' id) {value : Value}
    (hv : value.Of known) : value.Of known' := by
  cases value with
  | object id identity => exact h id hv
  | _ => trivial

theorem Value.object_or_not (value : Value) :
    (∃ id identity, value = .object id identity) ∨ value.Of fun _ => False := by
  cases value with
  | object id identity => exact .inl ⟨id,identity,rfl⟩
  | _ => exact .inr trivial

/-- A type that, if it has a class, has a known one. -/
def TypeKey.Of (known : ClassId → Prop) (type : TypeKey) : Prop := ∀ id, type.classId = some id → known id

/-- A cause that mentions no types but those of known classes. -/
def Cause.Of (known : ClassId → Prop) : Cause → Prop
  | noSuchMethod type _ | conditionType type | argumentType _ _ type => type.Of known
  | _ => True

theorem Value.Of.typeKey {known : ClassId → Prop} {value : Value} (h : value.Of known) : value.typeKey.Of known := by
  intro id hid
  cases value with
  | object cls identity =>
    cases hid
    exact h
  | _ => cases hid

/-- No object stands in the expressions that texts stand for. -/
theorem Named.WellFormed.not_object {expr : Named} (h : Named.WellFormed expr) :
    ∀ value ∈ expr.literals, value.Of fun _ => False := by
  induction h with
  | unit => exact List.forall_mem_singleton.2 trivial
  | bool flag => exact List.forall_mem_singleton.2 trivial
  | i32 number => exact List.forall_mem_singleton.2 trivial
  | string text => exact List.forall_mem_singleton.2 trivial
  | var _ => exact fun value hm => absurd hm List.not_mem_nil
  | call _ _ _ hr ha => exact List.forall_mem_append.2 ⟨hr,Expr.forall_mem_literalsAll.2 ha⟩
  | letIn _ _ _ hb hd => exact List.forall_mem_append.2 ⟨hb,hd⟩
  | cond _ _ _ ht hy hn =>
    refine List.forall_mem_append.2 ⟨ht,List.forall_mem_append.2 ⟨?_,?_⟩⟩
    · exact Expr.forall_mem_literalsAll.2 hy
    · exact Expr.forall_mem_literalsAll.2 hn
  | seq _ hs => exact Expr.forall_mem_literalsAll.2 hs

/-- The values that stand in the methods of a program. -/
def Program.literals (program : Program) : List Value :=
  program.classes.flatMap fun cls => cls.methods.flatMap fun method => method.body.literals

theorem Program.forall_mem_literals {P : Value → Prop} {program : Program} :
    (∀ value ∈ program.literals, P value) ↔
      ∀ cls ∈ program.classes, ∀ method ∈ cls.methods, ∀ value ∈ method.body.literals, P value := by
  simp only [literals, List.mem_flatMap]
  constructor
  · intro h cls hc method hm value hv
    exact h value ⟨cls,hc,method,hm,hv⟩
  · rintro h value ⟨cls,hc,method,hm,hv⟩
    exact h cls hc method hm value hv

theorem Program.not_object_of_parse {source : String} {program : Program} (h : Program.parse source = .ok program) :
    ∀ value ∈ program.literals, value.Of fun _ => False :=
  Program.forall_mem_literals.2 fun cls hc method hm =>
    ((Program.wellFormed_of_parse h cls hc).methods method hm).body.not_object

/-! ## Other numbers -/

section Renumber

variable (f : ClassId → ClassId)

def Value.renumber : Value → Value
  | object id identity => object (f id) identity
  | value => value

def TypeKey.renumber (type : TypeKey) : TypeKey := { type with classId := type.classId.map f }

/-- The same cause with other numbers in the types that it mentions. -/
def Cause.renumber : Cause → Cause
  | noSuchMethod type name => noSuchMethod (type.renumber f) name
  | conditionType type => conditionType (type.renumber f)
  | argumentType method position type => argumentType method position (type.renumber f)
  | cause => cause

theorem Value.typeKey_renumber (value : Value) : (value.renumber f).typeKey = value.typeKey.renumber f := by
  cases value <;> rfl

theorem Cause.category_renumber (cause : Cause) : (cause.renumber f).category = cause.category := by
  cases cause <;> rfl

end Renumber

theorem Value.Of.renumber {value : Value} (h : value.Of fun _ => False) (f : ClassId → ClassId) :
    value.renumber f = value := by
  cases value with
  | object id identity => exact h.elim
  | _ => rfl

theorem Value.renumber_id (value : Value) : value.renumber id = value := by
  cases value <;> rfl

theorem TypeKey.renumber_id (type : TypeKey) : type.renumber id = type := by
  obtain ⟨tag,classId⟩ := type
  cases classId <;> rfl

theorem Cause.renumber_id (cause : Cause) : cause.renumber id = cause := by
  cases cause <;> simp [renumber, TypeKey.renumber_id]

namespace Builtin

variable (f : ClassId → ClassId) (method : Builtin)

theorem textOf_renumber (position : Option Nat) (value : Value) :
    textOf method position (value.renumber f) = (textOf method position value).mapError (Cause.renumber f) := by
  cases value <;> rfl

theorem textsFrom_renumber (position : Nat) (values : List Value) :
    textsFrom method position (values.map (Value.renumber f)) =
      (textsFrom method position values).mapError (Cause.renumber f) := by
  induction values generalizing position with
  | nil => rfl
  | cons value values ih =>
    rw [List.map_cons, textsFrom, textsFrom, textOf_renumber, ih]
    cases textOf method (some position) value with
    | error cause => rfl
    | ok first =>
      cases textsFrom method (position + 1) values <;> rfl

theorem apply_renumber (this : Value) (args : List Value) :
    apply method (this.renumber f) (args.map (Value.renumber f)) =
      (apply method this args).mapError (Cause.renumber f) := by
  cases method with
  | concat =>
    rw [apply, apply, textOf_renumber, textsFrom_renumber]
    cases textOf concat none this with
    | error cause => rfl
    | ok first =>
      cases textsFrom concat 1 args <;> rfl
  | println =>
    rw [apply, apply, textOf_renumber, List.length_map]
    by_cases hl : args.length ≠ 0
    · simp only [if_pos hl]
      rfl
    · simp only [if_neg hl]
      cases textOf println none this <;> rfl

variable {f method}

theorem of_textOf {known : ClassId → Prop} {position : Option Nat} {value : Value} {cause : Cause} (hv : value.Of known)
    (h : textOf method position value = .error cause) : cause.Of known := by
  cases value with
  | string text => cases h
  | _ =>
    cases h
    exact hv.typeKey

theorem of_textsFrom {known : ClassId → Prop} {position : Nat} {values : List Value} {cause : Cause}
    (hv : ∀ value ∈ values, value.Of known) (h : textsFrom method position values = .error cause) :
    cause.Of known := by
  induction values generalizing position with
  | nil => cases h
  | cons value values ih =>
    obtain ⟨hf,hr⟩ := List.forall_mem_cons.1 hv
    rw [textsFrom] at h
    cases ht : textOf method (some position) value with
    | error found =>
      rw [ht] at h
      cases h
      exact of_textOf hf ht
    | ok first =>
      cases hs : textsFrom method (position + 1) values with
      | error found =>
        rw [ht, hs] at h
        cases h
        exact ih hr hs
      | ok rest =>
        rw [ht, hs] at h
        cases h

theorem of_apply {known : ClassId → Prop} {this : Value} {args : List Value} {cause : Cause} (ht : this.Of known)
    (ha : ∀ arg ∈ args, arg.Of known) (h : apply method this args = .error cause) : cause.Of known := by
  cases method with
  | concat =>
    rw [apply] at h
    cases hf : textOf concat none this with
    | error found =>
      rw [hf] at h
      cases h
      exact of_textOf ht hf
    | ok first =>
      cases hs : textsFrom concat 1 args with
      | error found =>
        rw [hf, hs] at h
        cases h
        exact of_textsFrom ha hs
      | ok rest =>
        rw [hf, hs] at h
        cases h
  | println =>
    rw [apply] at h
    by_cases hl : args.length ≠ 0
    · simp only [if_pos hl] at h
      cases h
      trivial
    · simp only [if_neg hl] at h
      cases hf : textOf println none this with
      | error found =>
        rw [hf] at h
        cases h
        exact of_textOf ht hf
      | ok first =>
        rw [hf] at h
        cases h

/-- No built-in method gives an object. -/
theorem not_object_of_apply {this value : Value} {args : List Value} {text : String}
    (h : apply method this args = .ok (value,text)) : value = .unit ∨ ∃ result, value = .string result := by
  cases method with
  | concat =>
    obtain ⟨first,_,h⟩ := Except.bind_eq_ok_iff.1 h
    obtain ⟨rest,_,h⟩ := Except.bind_eq_ok_iff.1 h
    cases h
    exact .inr ⟨_,rfl⟩
  | println =>
    rw [apply] at h
    by_cases hl : args.length ≠ 0
    · simp only [if_pos hl] at h
      cases h
    · simp only [if_neg hl] at h
      obtain ⟨first,_,h⟩ := Except.bind_eq_ok_iff.1 h
      cases h
      exact .inl rfl

end Builtin

/-! ## Evaluation -/

namespace Account

/-- Two accounts that agree but for numbers: both are cut off, or both print the same text and end, with values that
are alike, with one failure that mentions known classes only and the same renumbered, or with the same misuse. -/
inductive Like {α : Type} (known : ClassId → Prop) (f : ClassId → ClassId) (like : α → α → Prop) :
    Account α → Account α → Prop where
  | cutOff : Like known f like none none
  | value {value other : α} (text : String) : like value other →
      Like known f like (some (.ok value,text)) (some (.ok other,text))
  | failure {cause : Cause} (trace : List String) (text : String) : cause.Of known →
      Like known f like (some (.error (.failure ⟨cause,trace⟩),text))
        (some (.error (.failure ⟨cause.renumber f,trace⟩),text))
  | misuse (misuse : Misuse) (text : String) :
      Like known f like (some (.error (.misuse misuse),text)) (some (.error (.misuse misuse),text))

variable {α β : Type} {known : ClassId → Prop} {f : ClassId → ClassId}

theorem like_pure {like : α → α → Prop} {value other : α} (h : like value other) :
    Like known f like (pure value) (pure other) := .value "" h

theorem like_fail {like : α → α → Prop} (cause : Cause) (h : cause.Of known) :
    Like known f like (fail cause) (fail (cause.renumber f)) := .failure [] "" h

theorem Like.bind {like : α → α → Prop} {like' : β → β → Prop} {account other : Account α}
    {next next' : α → Account β} (h : Like known f like account other)
    (hn : ∀ value value', like value value' → Like known f like' (next value) (next' value')) :
    Like known f like' (account >>= next) (other >>= next') := by
  cases h with
  | cutOff => exact .cutOff
  | failure trace text hc => exact .failure trace text hc
  | misuse misuse text => exact .misuse misuse text
  | @value value value' text hv =>
    have hnext := hn value value' hv
    change Like known f like' (Account.bind _ _) (Account.bind _ _)
    simp only [Account.bind]
    generalize next value = first, next' value' = second at hnext
    cases hnext with
    | cutOff => exact .cutOff
    | value more hv' => exact .value (text ++ more) hv'
    | failure trace more hc => exact .failure trace (text ++ more) hc
    | misuse misuse more => exact .misuse misuse (text ++ more)

theorem Like.within {like : α → α → Prop} {account other : Account α} (h : Like known f like account other)
    (owner : String) : Like known f like (account.within owner) (other.within owner) := by
  cases h with
  | cutOff => exact .cutOff
  | value text hv => exact .value text hv
  | failure trace text hc => exact .failure (trace ++ [owner]) text hc
  | misuse misuse text => exact .misuse misuse text

/-- A value of a known class and the same value renumbered. -/
def Moved (known : ClassId → Prop) (f : ClassId → ClassId) (value other : Value) : Prop :=
  value.Of known ∧ other = value.renumber f

/-- Several such values. -/
def MovedAll (known : ClassId → Prop) (f : ClassId → ClassId) (values others : List Value) : Prop :=
  (∀ value ∈ values, value.Of known) ∧ others = values.map (Value.renumber f)

theorem movedAll_nil : MovedAll known f [] [] := ⟨List.forall_mem_nil _,rfl⟩

theorem Moved.cons {value other : Value} {values others : List Value} (h : Moved known f value other)
    (hs : MovedAll known f values others) : MovedAll known f (value :: values) (other :: others) := by
  obtain ⟨hv,rfl⟩ := h
  obtain ⟨hvs,rfl⟩ := hs
  exact ⟨List.forall_mem_cons.2 ⟨hv,hvs⟩,rfl⟩

theorem MovedAll.append {values others more more' : List Value} (h : MovedAll known f values others)
    (hm : MovedAll known f more more') : MovedAll known f (values ++ more) (others ++ more') := by
  obtain ⟨hv,rfl⟩ := h
  obtain ⟨hm,rfl⟩ := hm
  exact ⟨List.forall_mem_append.2 ⟨hv,hm⟩,List.map_append.symm⟩

theorem MovedAll.reverse {values others : List Value} (h : MovedAll known f values others) :
    MovedAll known f values.reverse others.reverse := by
  obtain ⟨hv,rfl⟩ := h
  exact ⟨fun value hm => hv value (List.mem_reverse.1 hm),List.map_reverse.symm⟩

/-- The literals of an expression are of known classes whose numbers stay as they are. -/
def Kept (known : ClassId → Prop) (f : ClassId → ClassId) (expr : Resolved) : Prop :=
  ∀ value ∈ expr.literals, Moved known f value value

/-- Tellers that agree but for numbers, on the expressions whose literals are kept. -/
def Teller.Alike (known : ClassId → Prop) (f : ClassId → ClassId) (tell tell' : Teller) : Prop :=
  ∀ ⦃stack stack' : List Value⦄, MovedAll known f stack stack' → ∀ ⦃expr : Resolved⦄, Kept known f expr →
    Like known f (Moved known f) (tell stack expr) (tell' stack' expr)

/-- The methods of known classes are found again under the new numbers, and keep to known classes. -/
structure Renumbers (known : ClassId → Prop) (f : ClassId → ClassId) (methods methods' : Methods) : Prop where
  found : ∀ value : Value, value.Of known → ∀ name,
    methods' (value.renumber f).typeKey name = methods value.typeKey name
  bodies : ∀ value : Value, value.Of known → ∀ name body owner arity,
    methods value.typeKey name = some (.custom body owner arity) → Kept known f body

theorem like_slot {stack stack' : List Value} (h : MovedAll known f stack stack') (position : Int) :
    Like known f (Moved known f) (slot stack position) (slot stack' position) := by
  obtain ⟨hv,rfl⟩ := h
  cases position with
  | negSucc n =>
    simp only [slot, List.length_map]
    exact like_fail (.indexRange (.negSucc n) stack.length) trivial
  | ofNat n =>
    simp only [slot, List.getElem?_map, List.length_map]
    cases hs : stack[n]? with
    | none => exact like_fail (.indexRange (.ofNat n) stack.length) trivial
    | some value => exact like_pure ⟨hv value (List.mem_of_getElem? hs),rfl⟩

theorem like_builtin (method : Builtin) {this this' : Value} {args args' : List Value} (h : Moved known f this this')
    (ha : MovedAll known f args args') :
    Like known f (Moved known f) (builtin method this args) (builtin method this' args') := by
  obtain ⟨ht,rfl⟩ := h
  obtain ⟨ha,rfl⟩ := ha
  rw [builtin, builtin, Builtin.apply_renumber]
  cases hr : method.apply this args with
  | error cause => exact like_fail cause (Builtin.of_apply ht ha hr)
  | ok result =>
    obtain ⟨value,text⟩ := result
    refine .value text ?_
    rcases Builtin.not_object_of_apply hr with rfl | ⟨result,rfl⟩
    · exact ⟨trivial,rfl⟩
    · exact ⟨trivial,rfl⟩

theorem like_checkArity (owner : String) (arity : Option Int) (given : Nat) :
    Like known f Eq (checkArity owner arity given) (checkArity owner arity given) := by
  cases arity with
  | none => exact like_pure rfl
  | some expected =>
    by_cases hg : (given : Int) = expected
    · simp only [checkArity, if_pos hg]
      exact like_pure rfl
    · simp only [checkArity, if_neg hg]
      exact like_fail (.arity owner expected given) trivial

namespace Teller.Alike

variable {tell tell' : Teller} {stack stack' : List Value}

theorem all (h : Alike known f tell tell') (hs : MovedAll known f stack stack') {exprs : List Resolved}
    (he : ∀ expr ∈ exprs, Kept known f expr) :
    Like known f (MovedAll known f) (Account.all (tell stack) exprs) (Account.all (tell' stack') exprs) := by
  induction exprs with
  | nil => exact like_pure movedAll_nil
  | cons expr exprs ih =>
    obtain ⟨hf,hr⟩ := List.forall_mem_cons.1 he
    refine (h hs hf).bind fun first first' hm => (ih hr).bind fun rest rest' hms => ?_
    exact like_pure (hm.cons hms)

theorem sequence (h : Alike known f tell tell') (hs : MovedAll known f stack stack') {steps : List Resolved}
    (he : ∀ step ∈ steps, Kept known f step) {value value' : Value} (hv : Moved known f value value') :
    Like known f (Moved known f) (Account.sequence (tell stack) value steps)
      (Account.sequence (tell' stack') value' steps) := by
  induction steps generalizing value value' with
  | nil => exact like_pure hv
  | cons step steps ih =>
    obtain ⟨hf,hr⟩ := List.forall_mem_cons.1 he
    exact (h hs hf).bind fun first first' hm => ih hr hm

theorem invoke (h : Alike known f tell tell') (hs : MovedAll known f stack stack') {method : Method}
    (hb : ∀ body owner arity, method = .custom body owner arity → Kept known f body) {this this' : Value}
    {args args' : List Value} (ht : Moved known f this this') (ha : MovedAll known f args args') :
    Like known f (Moved known f) (Account.invoke tell stack method this args)
      (Account.invoke tell' stack' method this' args') := by
  cases method with
  | builtin method => exact like_builtin method ht ha
  | custom body owner arity =>
    have hl : args'.length = args.length := by rw [ha.2, List.length_map]
    rw [Account.invoke, Account.invoke, hl]
    refine (like_checkArity owner arity args.length).bind fun _ _ _ => Like.within ?_ owner
    exact h ((ht.cons ha).reverse.append hs) (hb body owner arity rfl)
  | stray text => exact .misuse (.notMethod text) ""

/-- One step of evaluation. -/
theorem step {methods methods' : Methods} (hm : Renumbers known f methods methods') (h : Alike known f tell tell') :
    Alike known f (Account.step methods tell) (Account.step methods' tell') := by
  intro stack stack' hs expr he
  cases expr with
  | lit value => exact like_pure (he value List.mem_cons_self)
  | call name receiver args =>
    obtain ⟨hr,ha⟩ := List.forall_mem_append.1 he
    refine (h hs hr).bind fun this this' ht => ?_
    obtain ⟨hk,rfl⟩ := ht
    rw [hm.found this hk name]
    cases hf : methods this.typeKey name with
    | none =>
      rw [Value.typeKey_renumber]
      exact like_fail (.noSuchMethod this.typeKey name) hk.typeKey
    | some method =>
      refine (h.all hs (Expr.forall_mem_literalsAll.1 ha)).bind fun values values' hv => ?_
      refine h.invoke hs (fun body owner arity hc => ?_) ⟨hk,rfl⟩ hv
      exact hm.bodies this hk name body owner arity (hc ▸ hf)
  | var position => exact like_slot hs position
  | letIn binder bound body =>
    obtain ⟨hb,hd⟩ := List.forall_mem_append.1 he
    exact (h hs hb).bind fun value value' hv => h (hv.cons hs) hd
  | cond test yes no =>
    obtain ⟨ht,hbranches⟩ := List.forall_mem_append.1 he
    obtain ⟨hy,hn⟩ := List.forall_mem_append.1 hbranches
    refine (h hs ht).bind fun value value' hv => ?_
    obtain ⟨hk,rfl⟩ := hv
    cases value with
    | bool flag =>
      cases flag with
      | true => exact h hs hy
      | false => exact h hs hn
    | unit => exact like_fail (.conditionType .unit) hk.typeKey
    | i32 number => exact like_fail (.conditionType .i32) hk.typeKey
    | string text => exact like_fail (.conditionType .string) hk.typeKey
    | object id identity => exact like_fail (.conditionType (.object id)) hk.typeKey
  | seq steps => exact h.sequence hs (Expr.forall_mem_literalsAll.1 he) ⟨trivial,rfl⟩
  | stray text => exact .misuse (.unevaluable text) ""

end Teller.Alike

/-- Evaluation to any depth comes to the same up to the numbers. -/
theorem alike_eval {methods methods' : Methods} (h : Renumbers known f methods methods') (depth : Nat) :
    Teller.Alike known f (eval methods depth) (eval methods' depth) := by
  induction depth with
  | zero => exact fun _ _ _ _ _ => .cutOff
  | succ depth ih => exact ih.step h

/-- Where the numbers stay as they are, the two accounts are one. -/
theorem Like.eq {account other : Account Value} (h : Like known id (Moved known id) account other) :
    other = account := by
  cases h with
  | cutOff => rfl
  | value text hv => rw [hv.2, Value.renumber_id]
  | failure trace text hc => rw [Cause.renumber_id]
  | misuse misuse text => rfl

end Account

end Mica
