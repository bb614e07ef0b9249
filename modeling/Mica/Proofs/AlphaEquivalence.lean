import Mathlib.Data.Fintype.EquivFin
import Mathlib.Logic.Relation
import Mica.Proofs.Resolution

/-! # Alpha-equivalence

Renaming a binder to a name that its body does not use changes nothing of what an expression means. Two expressions are
alpha-equivalent when such steps, taken anywhere in them and in either direction, lead from the one to the other. In a
scope where both can be resolved, these are just the expressions with the same resolved form.
-/
namespace Mica.Named

mutual

/-- The names of all variables and binders of an expression. -/
def names : Named → List String
  | .lit _ => []
  | .call _ receiver args => names receiver ++ namesAll args
  | .var name => [name]
  | .letIn name bound body => name :: (names bound ++ names body)
  | .cond test yes no => names test ++ (names yes ++ names no)
  | .seq steps => namesAll steps
  | .stray _ => []

def namesAll : List Named → List String
  | [] => []
  | expr :: exprs => names expr ++ namesAll exprs

end

mutual

/-- Puts a name in place of another wherever the other one is free. -/
def rename (old new : String) : Named → Named
  | .lit value => .lit value
  | .call name receiver args => .call name (rename old new receiver) (renameAll old new args)
  | .var name => .var (if name = old then new else name)
  | .letIn name bound body =>
    .letIn name (rename old new bound) (if name = old then body else rename old new body)
  | .cond test yes no => .cond (rename old new test) (rename old new yes) (rename old new no)
  | .seq steps => .seq (renameAll old new steps)
  | .stray text => .stray text

def renameAll (old new : String) : List Named → List Named
  | [] => []
  | expr :: exprs => rename old new expr :: renameAll old new exprs

end

/-- One binder, somewhere in an expression, gets a name that its body does not use, and the variables that it binds
follow it. -/
inductive Rebinds : Named → Named → Prop where
  | binder {old new : String} {bound body : Named} : new ∉ body.names →
      Rebinds (.letIn old bound body) (.letIn new bound (body.rename old new))
  | receiver {name : String} {receiver receiver' : Named} {args : List Named} : Rebinds receiver receiver' →
      Rebinds (.call name receiver args) (.call name receiver' args)
  | arg {name : String} {receiver arg arg' : Named} {before after : List Named} : Rebinds arg arg' →
      Rebinds (.call name receiver (before ++ arg :: after)) (.call name receiver (before ++ arg' :: after))
  | bound {name : String} {bound bound' body : Named} : Rebinds bound bound' →
      Rebinds (.letIn name bound body) (.letIn name bound' body)
  | body {name : String} {bound body body' : Named} : Rebinds body body' →
      Rebinds (.letIn name bound body) (.letIn name bound body')
  | test {test test' yes no : Named} : Rebinds test test' → Rebinds (.cond test yes no) (.cond test' yes no)
  | yes {test yes yes' no : Named} : Rebinds yes yes' → Rebinds (.cond test yes no) (.cond test yes' no)
  | no {test yes no no' : Named} : Rebinds no no' → Rebinds (.cond test yes no) (.cond test yes no')
  | step {step step' : Named} {before after : List Named} : Rebinds step step' →
      Rebinds (.seq (before ++ step :: after)) (.seq (before ++ step' :: after))

/-- Equality up to the names of binders. -/
def Alpha : Named → Named → Prop := Relation.EqvGen Rebinds

/-! ## Resolution of renamed expressions -/

theorem names_subset_namesAll {exprs : List Named} {expr : Named} (h : expr ∈ exprs) : expr.names ⊆ namesAll exprs := by
  induction exprs with
  | nil => cases h
  | cons first rest ih =>
    rw [namesAll]
    rcases List.mem_cons.1 h with rfl | h
    · exact List.subset_append_left _ _
    · exact List.Subset.trans (ih h) (List.subset_append_right _ _)

theorem renameAll_eq_map (old new : String) (exprs : List Named) :
    renameAll old new exprs = exprs.map (rename old new) := by
  induction exprs with
  | nil => rfl
  | cons expr exprs ih => rw [renameAll, ih, List.map_cons]

theorem rename_self (name : String) (expr : Named) : expr.rename name name = expr := by
  have hmap {exprs : List Named} (h : ∀ expr ∈ exprs, rename name name expr = expr) :
      renameAll name name exprs = exprs := by
    rw [renameAll_eq_map, List.map_congr_left h, List.map_id']
  induction expr using Expr.induct with
  | lit value => rfl
  | call method receiver args hr ha => rw [rename, hr, hmap ha]
  | var other =>
    rw [rename]
    split
    next h => rw [h]
    next => rfl
  | letIn binder bound body hb hd => rw [rename, hb, hd, ite_self]
  | cond test yes no ht hy hn => rw [rename, ht, hy, hn]
  | seq steps hs => rw [rename, hmap hs]
  | stray text => rfl

variable {scope scope' : Scope} {old new : String} {expr expr' : Named} {code : Resolved}

/-- Two names are found at the same place among more binders, if the innermost of these binds both names or neither. -/
theorem idxOf?_cons_congr {name name' binder binder' : String} (hb : name = binder ↔ name' = binder')
    (h : name ≠ binder → scope.idxOf? name = scope'.idxOf? name') :
    (binder :: scope).idxOf? name = (binder' :: scope').idxOf? name' := by
  rw [List.idxOf?_cons, List.idxOf?_cons]
  by_cases hn : name = binder
  · have hn' : name' = binder' := hb.1 hn
    simp [hn, hn']
  · have hn' : ¬ name' = binder' := fun he => hn (hb.2 he)
    rw [beq_false_of_ne (Ne.symm hn), beq_false_of_ne (Ne.symm hn'), h hn]

theorem forall₂_renameAll {exprs : List Named} {codes : List Resolved}
    (h : ∀ expr ∈ exprs, ∀ code, (expr.rename old new).resolveIn scope' = .ok code ↔ expr.resolveIn scope = .ok code) :
    List.Forall₂ (fun expr code => resolveIn expr scope' = .ok code) (renameAll old new exprs) codes ↔
      List.Forall₂ (fun expr code => resolveIn expr scope = .ok code) exprs codes := by
  induction exprs generalizing codes with
  | nil => simp [renameAll]
  | cons expr exprs ih =>
    obtain ⟨hf,hr⟩ := List.forall_mem_cons.1 h
    simp only [renameAll, List.forall₂_cons_left_iff, hf, ih hr]

/-- An expression in which a name has been replaced is resolved like the one before, if the new name is found where the
old one was and all others are found where they were. -/
theorem resolveIn_rename (hn : new ∉ expr.names)
    (h : ∀ name ∈ expr.names, scope'.idxOf? (if name = old then new else name) = scope.idxOf? name) :
    (expr.rename old new).resolveIn scope' = .ok code ↔ expr.resolveIn scope = .ok code := by
  induction expr using Expr.induct generalizing old scope scope' code with
  | lit value => rw [rename, resolveIn_lit_eq_ok, resolveIn_lit_eq_ok]
  | call name receiver args hr ha =>
    rw [names, List.mem_append, not_or] at hn
    rw [names, List.forall_mem_append] at h
    have hargs (arg : Named) (hm : arg ∈ args) (code : Resolved) :
        (arg.rename old new).resolveIn scope' = .ok code ↔ arg.resolveIn scope = .ok code :=
      ha arg hm (fun hm' => hn.2 (names_subset_namesAll hm hm')) fun name hm' => h.2 name (names_subset_namesAll hm hm')
    simp only [rename, resolveIn_call_eq_ok, hr hn.1 h.1, forall₂_renameAll hargs]
  | var name =>
    have hfound := h name (List.mem_singleton_self name)
    rw [rename, resolveIn_var_eq_ok, resolveIn_var_eq_ok, hfound]
  | letIn binder bound body hb hd =>
    rw [names, List.mem_cons, List.mem_append, not_or, not_or] at hn
    obtain ⟨hbinder,hbound,hbody⟩ := hn
    rw [names, List.forall_mem_cons, List.forall_mem_append] at h
    have hrest {code : Resolved} :
        resolveIn (if binder = old then body else rename old new body) (binder :: scope') = .ok code ↔
          resolveIn body (binder :: scope) = .ok code := by
      split
      next he =>
        -- the binder hides the old name: nothing is replaced in the body, and there the other names are as before
        subst he
        have hsame : resolveIn (rename new new body) (binder :: scope') = .ok code ↔
            resolveIn body (binder :: scope) = .ok code := by
          refine hd hbody fun name hm => ?_
          have hself : (if name = new then new else name) = name := by
            split
            next hnew => exact hnew.symm
            next => rfl
          rw [hself]
          refine idxOf?_cons_congr Iff.rfl fun hne => ?_
          have hfound := h.2.2 name hm
          rwa [if_neg hne] at hfound
        rwa [rename_self] at hsame
      next he =>
        refine hd hbody fun name hm => idxOf?_cons_congr ?_ fun _ => h.2.2 name hm
        split
        next hold =>
          have hne : name ≠ binder := fun heq => he (heq.symm.trans hold)
          simp [hne, hbinder]
        next => exact Iff.rfl
    simp only [rename, resolveIn_letIn_eq_ok, hb hbound h.2.1, hrest]
  | cond test yes no ht hy hn' =>
    rw [names, List.mem_append, List.mem_append, not_or, not_or] at hn
    rw [names, List.forall_mem_append, List.forall_mem_append] at h
    simp only [rename, resolveIn_cond_eq_ok, ht hn.1 h.1, hy hn.2.1 h.2.1, hn' hn.2.2 h.2.2]
  | seq steps hs =>
    rw [names] at hn h
    have hsteps (step : Named) (hm : step ∈ steps) (code : Resolved) :
        (step.rename old new).resolveIn scope' = .ok code ↔ step.resolveIn scope = .ok code :=
      hs step hm (fun hm' => hn (names_subset_namesAll hm hm')) fun name hm' => h name (names_subset_namesAll hm hm')
    simp only [rename, resolveIn_seq_eq_ok, forall₂_renameAll hsteps]
  | stray text => rfl

/-- The body of a binding is resolved like before when the binder gets a new name. -/
theorem resolveIn_rename_cons {body : Named} (h : new ∉ body.names) :
    (body.rename old new).resolveIn (new :: scope) = .ok code ↔ body.resolveIn (old :: scope) = .ok code := by
  refine resolveIn_rename h fun name hm => ?_
  have hne : name ≠ new := fun he => h (he ▸ hm)
  refine idxOf?_cons_congr ?_ fun hne' => ?_
  · split
    next hold => simp [hold]
    next hold => simp [hold, hne]
  · split
    next hold => simp [hold] at hne'
    next => rfl

theorem forall₂_replace (h : ∀ {code}, expr.resolveIn scope = .ok code ↔ expr'.resolveIn scope = .ok code)
    (before after : List Named) {codes : List Resolved} :
    List.Forall₂ (fun expr code => resolveIn expr scope = .ok code) (before ++ expr :: after) codes ↔
      List.Forall₂ (fun expr code => resolveIn expr scope = .ok code) (before ++ expr' :: after) codes := by
  induction before generalizing codes with
  | nil => simp only [List.nil_append, List.forall₂_cons_left_iff, h]
  | cons first before ih => simp only [List.cons_append, List.forall₂_cons_left_iff, ih]

theorem Rebinds.resolveIn_iff (h : Rebinds expr expr') :
    expr.resolveIn scope = .ok code ↔ expr'.resolveIn scope = .ok code := by
  induction h generalizing scope code with
  | binder hn => simp only [resolveIn_letIn_eq_ok, resolveIn_rename_cons hn]
  | receiver _ ih => simp only [resolveIn_call_eq_ok, ih]
  | arg _ ih => simp only [resolveIn_call_eq_ok, forall₂_replace ih]
  | bound _ ih => simp only [resolveIn_letIn_eq_ok, ih]
  | body _ ih => simp only [resolveIn_letIn_eq_ok, ih]
  | test _ ih => simp only [resolveIn_cond_eq_ok, ih]
  | yes _ ih => simp only [resolveIn_cond_eq_ok, ih]
  | no _ ih => simp only [resolveIn_cond_eq_ok, ih]
  | step _ ih => simp only [resolveIn_seq_eq_ok, forall₂_replace ih]

theorem Alpha.resolveIn_iff (h : Alpha expr expr') :
    expr.resolveIn scope = .ok code ↔ expr'.resolveIn scope = .ok code := by
  induction h with
  | rel _ _ h => exact h.resolveIn_iff
  | refl => exact Iff.rfl
  | symm _ _ _ ih => exact ih.symm
  | trans _ _ _ _ _ ih ih' => exact ih.trans ih'

/-! ## Expressions with the same resolved form -/

theorem Alpha.symm (h : Alpha expr expr') : Alpha expr' expr := Relation.EqvGen.symm _ _ h

theorem Alpha.trans {expr'' : Named} (h : Alpha expr expr') (h' : Alpha expr' expr'') : Alpha expr expr'' :=
  Relation.EqvGen.trans _ _ _ h h'

theorem Rebinds.alpha (h : Rebinds expr expr') : Alpha expr expr' := Relation.EqvGen.rel _ _ h

/-- What is done to a part of an expression is done to the expression. -/
theorem Alpha.inside (h : Alpha expr expr') (context : Named → Named)
    (hc : ∀ {a b}, Rebinds a b → Rebinds (context a) (context b)) : Alpha (context expr) (context expr') := by
  induction h with
  | rel _ _ h => exact (hc h).alpha
  | refl => exact Relation.EqvGen.refl _
  | symm _ _ _ ih => exact ih.symm
  | trans _ _ _ _ _ ih ih' => exact ih.trans ih'

theorem alpha_insideAll {exprs exprs' : List Named} (h : List.Forall₂ Alpha exprs exprs') (before : List Named)
    (context : List Named → Named)
    (hc : ∀ {a b before after}, Rebinds a b →
      Rebinds (context (before ++ a :: after)) (context (before ++ b :: after))) :
    Alpha (context (before ++ exprs)) (context (before ++ exprs')) := by
  induction h generalizing before with
  | nil => exact Relation.EqvGen.refl _
  | @cons first first' rest rest' hf _ ih =>
    have hhead : Alpha (context (before ++ first :: rest)) (context (before ++ first' :: rest)) :=
      hf.inside (fun expr => context (before ++ expr :: rest)) hc
    have htail := ih (before ++ [first'])
    rw [List.append_assoc, List.append_assoc] at htail
    exact hhead.trans htail

/-- What an expression and its resolved form have in common at the top. -/
inductive Shaped (scope : Scope) : Named → Resolved → Prop where
  | lit (value : Value) : Shaped scope (.lit value) (.lit value)
  | call (name : String) {receiver : Named} {args : List Named} {this : Resolved} {rest : List Resolved} :
      receiver.resolveIn scope = .ok this →
      List.Forall₂ (fun arg code => resolveIn arg scope = .ok code) args rest →
      Shaped scope (.call name receiver args) (.call name this rest)
  | var {name : String} {position : Nat} : scope.idxOf? name = some position → Shaped scope (.var name) (.var position)
  | letIn (name : String) {bound body : Named} {value rest : Resolved} : bound.resolveIn scope = .ok value →
      body.resolveIn (name :: scope) = .ok rest → Shaped scope (.letIn name bound body) (.letIn () value rest)
  | cond {test yes no : Named} {first second third : Resolved} : test.resolveIn scope = .ok first →
      yes.resolveIn scope = .ok second → no.resolveIn scope = .ok third →
      Shaped scope (.cond test yes no) (.cond first second third)
  | seq {steps : List Named} {rest : List Resolved} :
      List.Forall₂ (fun step code => resolveIn step scope = .ok code) steps rest → Shaped scope (.seq steps) (.seq rest)

theorem shaped_of_resolveIn (h : expr.resolveIn scope = .ok code) : Shaped scope expr code := by
  cases expr with
  | lit value =>
    obtain rfl := resolveIn_lit_eq_ok.1 h
    exact .lit value
  | call name receiver args =>
    obtain ⟨this,rest,ht,hr,rfl⟩ := resolveIn_call_eq_ok.1 h
    exact .call name ht hr
  | var name =>
    obtain ⟨position,hp,rfl⟩ := resolveIn_var_eq_ok.1 h
    exact .var hp
  | letIn name bound body =>
    obtain ⟨value,rest,hv,hr,rfl⟩ := resolveIn_letIn_eq_ok.1 h
    exact .letIn name hv hr
  | cond test yes no =>
    obtain ⟨first,second,third,h₁,h₂,h₃,rfl⟩ := resolveIn_cond_eq_ok.1 h
    exact .cond h₁ h₂ h₃
  | seq steps =>
    obtain ⟨rest,hr,rfl⟩ := resolveIn_seq_eq_ok.1 h
    exact .seq hr
  | stray text => exact absurd h resolveIn_stray_ne_ok

/-- A position in a scope belongs to one name only. -/
theorem eq_of_idxOf? {name name' : String} {position : Nat} (h : scope.idxOf? name = some position)
    (h' : scope.idxOf? name' = some position) : name = name' := by
  rw [List.idxOf?, List.findIdx?_eq_some_iff_getElem] at h h'
  obtain ⟨_,hn,_⟩ := h
  obtain ⟨_,hn',_⟩ := h'
  exact (beq_iff_eq.1 hn).symm.trans (beq_iff_eq.1 hn')

theorem forall₂_alpha {codes : List Resolved}
    (h : ∀ code ∈ codes, ∀ {expr expr' : Named}, expr.resolveIn scope = .ok code → expr'.resolveIn scope = .ok code →
      Alpha expr expr') {exprs exprs' : List Named}
    (hs : List.Forall₂ (fun expr code => resolveIn expr scope = .ok code) exprs codes)
    (hs' : List.Forall₂ (fun expr code => resolveIn expr scope = .ok code) exprs' codes) :
    List.Forall₂ Alpha exprs exprs' := by
  induction hs generalizing exprs' with
  | nil =>
    cases hs'
    exact .nil
  | cons hf _ ih =>
    obtain ⟨hfirst,hrest⟩ := List.forall_mem_cons.1 h
    cases hs' with
    | cons hf' hr' => exact .cons (hfirst hf hf') (ih hrest hr')

/-- Expressions with the same resolved form differ in the names of their binders only. -/
theorem alpha_of_resolveIn (h : expr.resolveIn scope = .ok code) (h' : expr'.resolveIn scope = .ok code) :
    Alpha expr expr' := by
  -- the induction is on the resolved form, since a renamed body is no part of the expression
  induction code using Expr.induct generalizing scope expr expr' with
  | lit value =>
    cases shaped_of_resolveIn h
    cases shaped_of_resolveIn h'
    exact Relation.EqvGen.refl _
  | call name this rest ht hr =>
    cases shaped_of_resolveIn h with
    | @call _ receiver args _ _ hreceiver hargs =>
      cases shaped_of_resolveIn h' with
      | @call _ receiver' args' _ _ hreceiver' hargs' =>
        have hthis : Alpha (.call name receiver args) (.call name receiver' args) :=
          (ht hreceiver hreceiver').inside (fun receiver => .call name receiver args) .receiver
        have hall := forall₂_alpha (fun code hm _ _ => hr code hm) hargs hargs'
        exact hthis.trans (alpha_insideAll hall [] (fun args => .call name receiver' args) .arg)
  | var reference =>
    cases shaped_of_resolveIn h with
    | var hp =>
      generalize hc : Expr.var _ = code at h'
      cases shaped_of_resolveIn h' with
      | var hp' =>
        cases hc
        rw [eq_of_idxOf? hp hp']
        exact Relation.EqvGen.refl _
      | _ => cases hc
  | letIn binder value rest hv hr =>
    cases shaped_of_resolveIn h with
    | @letIn old bound body _ _ hbound hbody =>
      cases shaped_of_resolveIn h' with
      | @letIn old' bound' body' _ _ hbound' hbody' =>
        obtain ⟨new,hnew⟩ := Infinite.exists_notMem_finset (body.names ++ body'.names).toFinset
        rw [List.mem_toFinset, List.mem_append, not_or] at hnew
        have hrenamed : Alpha (body.rename old new) (body'.rename old' new) :=
          hr ((resolveIn_rename_cons hnew.1).2 hbody) ((resolveIn_rename_cons hnew.2).2 hbody')
        have hfirst : Alpha (.letIn old bound body) (.letIn new bound (body.rename old new)) :=
          (Rebinds.binder hnew.1).alpha
        have hlast : Alpha (.letIn old' bound' body') (.letIn new bound' (body'.rename old' new)) :=
          (Rebinds.binder hnew.2).alpha
        have hbodies : Alpha (.letIn new bound (body.rename old new)) (.letIn new bound (body'.rename old' new)) :=
          hrenamed.inside (fun body => .letIn new bound body) .body
        have hbounds : Alpha (.letIn new bound (body'.rename old' new)) (.letIn new bound' (body'.rename old' new)) :=
          (hv hbound hbound').inside (fun bound => .letIn new bound (body'.rename old' new)) .bound
        exact hfirst.trans (hbodies.trans (hbounds.trans hlast.symm))
  | cond first second third h₁ h₂ h₃ =>
    cases shaped_of_resolveIn h with
    | @cond test yes no _ _ _ ht hy hn =>
      cases shaped_of_resolveIn h' with
      | @cond test' yes' no' _ _ _ ht' hy' hn' =>
        have htest : Alpha (.cond test yes no) (.cond test' yes no) :=
          (h₁ ht ht').inside (fun test => .cond test yes no) .test
        have hyes : Alpha (.cond test' yes no) (.cond test' yes' no) :=
          (h₂ hy hy').inside (fun yes => .cond test' yes no) .yes
        have hno : Alpha (.cond test' yes' no) (.cond test' yes' no') :=
          (h₃ hn hn').inside (fun no => .cond test' yes' no) .no
        exact htest.trans (hyes.trans hno)
  | seq rest hr =>
    cases shaped_of_resolveIn h with
    | seq hs =>
      cases shaped_of_resolveIn h' with
      | seq hs' =>
        have hall := forall₂_alpha (fun code hm _ _ => hr code hm) hs hs'
        exact alpha_insideAll hall [] .seq .step
  | stray text => cases shaped_of_resolveIn h

/-- An expression that can be resolved in a scope has the same resolved form there as another one exactly when the two
are alpha-equivalent. -/
theorem resolveIn_eq_iff_alpha (h : expr.resolveIn scope = .ok code) :
    expr.resolveIn scope = expr'.resolveIn scope ↔ Alpha expr expr' := by
  constructor
  · intro he
    rw [he] at h
    exact alpha_of_resolveIn (he.trans h) h
  · intro ha
    rw [h, ha.resolveIn_iff.1 h]

/-- A binder that hides another one, whose variable it still sees in what it is bound to. -/
def hidingBinder : Named := .letIn "x" (.var "a") (.letIn "x" (.var "x") (.call "f" (.var "x") [.var "a"]))

/-- The same with two names for the two binders, of which the inner one is that of a variable further out. -/
def distinctBinders : Named := .letIn "y" (.var "a") (.letIn "b" (.var "y") (.call "f" (.var "b") [.var "a"]))

/-- The inner binder has the name of a free variable, and captures it. -/
def capturingBinder : Named := .letIn "x" (.var "a") (.letIn "a" (.var "x") (.call "f" (.var "a") [.var "a"]))

theorem resolveIn_eq_iff_alpha_hiding : Alpha hidingBinder distinctBinders ∧ ¬ Alpha hidingBinder capturingBinder := by
  have hhiding : hidingBinder.resolveIn ["a","b","a"] =
      .ok (.letIn () (.var 0) (.letIn () (.var 0) (.call "f" (.var 0) [.var 2]))) := by decide +kernel
  have hdistinct : distinctBinders.resolveIn ["a","b","a"] =
      .ok (.letIn () (.var 0) (.letIn () (.var 0) (.call "f" (.var 0) [.var 2]))) := by decide +kernel
  have hcapturing : capturingBinder.resolveIn ["a","b","a"] =
      .ok (.letIn () (.var 0) (.letIn () (.var 0) (.call "f" (.var 0) [.var 0]))) := by decide +kernel
  refine ⟨(resolveIn_eq_iff_alpha hhiding).1 (hhiding.trans hdistinct.symm),fun ha => ?_⟩
  have he := (resolveIn_eq_iff_alpha hhiding).2 ha
  rw [hhiding, hcapturing] at he
  exact absurd he (by decide +kernel)

end Mica.Named
