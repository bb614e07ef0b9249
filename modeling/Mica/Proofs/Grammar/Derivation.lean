import Mica.Proofs.Fallible
import Mica.Source.Parse

/-! # Derivations

The trees of the grammar. A clause is a call or an operand, and operands are what a call takes; the
tokens at the leaves of a tree are its yield. The grammar is ambiguous: an operand that follows a
binding may belong to the last call inside the binding or to a call around it. In a greedy derivation
it belongs to the innermost call that can take it.
-/
namespace Mica.Grammar

/-- A name that is no keyword. -/
structure Ident where
  text : String
  not_keyword : text ∉ keywords
deriving DecidableEq

mutual

inductive Clause where
  | call (name : Ident) (receiver : Operand) (args : List Operand)
  | operand (operand : Operand)

inductive Operand where
  | unit
  | parens (inner : Clause)
  | bool (flag : Bool)
  | block (steps : List Clause)
  | text (body : String)
  | number (lexeme : String)
  | letIn (name : Ident) (bound body : Clause)
  | choice (test : Clause) (yes no : List Clause)
  | var (name : Ident)

end

def Ident.token (name : Ident) : Token := .word name.text

mutual

def Clause.yield : Clause → List Token
  | .call name receiver args => name.token :: receiver.yield ++ yieldAll args
  | .operand operand => operand.yield

def Operand.yield : Operand → List Token
  | .unit => [.openParen,.closeParen]
  | .parens inner => .openParen :: inner.yield ++ [.closeParen]
  | .bool flag => [.word (if flag then "true" else "false")]
  | .block steps => .openBrace :: yieldSteps steps
  | .text body => [.text body]
  | .number lexeme => [.number lexeme]
  | .letIn name bound body =>
    .word "let" :: name.token :: .equals :: bound.yield ++ .word "in" :: body.yield
  | .choice test yes no =>
    .word "if" :: .openParen :: test.yield ++ .closeParen :: .openBrace :: yieldSteps yes ++
      .otherwise :: .openBrace :: yieldSteps no
  | .var name => [name.token]

def yieldAll : List Operand → List Token
  | [] => []
  | operand :: operands => operand.yield ++ yieldAll operands

/-- The steps of a block with the brace that closes it. -/
def yieldSteps : List Clause → List Token
  | [] => [.closeBrace]
  | step :: steps => step.yield ++ yieldRest steps

/-- The steps of a block from a semicolon on. -/
def yieldRest : List Clause → List Token
  | [] => [.closeBrace]
  | step :: steps => .semicolon :: step.yield ++ yieldRest steps

end

theorem induct {P : Clause → Prop} {Q : Operand → Prop}
    (call : ∀ name receiver args, Q receiver → (∀ arg ∈ args, Q arg) → P (.call name receiver args))
    (operand : ∀ operand, Q operand → P (.operand operand))
    (unit : Q .unit) (parens : ∀ inner, P inner → Q (.parens inner)) (bool : ∀ flag, Q (.bool flag))
    (block : ∀ steps, (∀ step ∈ steps, P step) → Q (.block steps)) (text : ∀ body, Q (.text body))
    (number : ∀ lexeme, Q (.number lexeme))
    (letIn : ∀ name bound body, P bound → P body → Q (.letIn name bound body))
    (choice : ∀ test yes no, P test → (∀ step ∈ yes, P step) → (∀ step ∈ no, P step) →
      Q (.choice test yes no))
    (var : ∀ name, Q (.var name)) : (∀ clause, P clause) ∧ ∀ operand, Q operand :=
  have none {α : Type} {R : α → Prop} : ∀ a ∈ ([] : List α), R a := by simp
  ⟨fun clause => Clause.rec (motive_1 := P) (motive_2 := Q) (motive_3 := fun args => ∀ arg ∈ args, Q arg)
      (motive_4 := fun steps => ∀ step ∈ steps, P step) call operand unit parens bool block text number letIn
      choice var none (fun _ _ first rest => List.forall_mem_cons.2 ⟨first,rest⟩) none
      (fun _ _ first rest => List.forall_mem_cons.2 ⟨first,rest⟩) clause,
    fun operand' => Operand.rec (motive_1 := P) (motive_2 := Q) (motive_3 := fun args => ∀ arg ∈ args, Q arg)
      (motive_4 := fun steps => ∀ step ∈ steps, P step) call operand unit parens bool block text number letIn
      choice var none (fun _ _ first rest => List.forall_mem_cons.2 ⟨first,rest⟩) none
      (fun _ _ first rest => List.forall_mem_cons.2 ⟨first,rest⟩) operand'⟩

/-- Whether an operand can start with a token. -/
def opens : Token → Bool
  | .word name => name ∉ ["class","def","else","in"]
  | .number _ | .text _ | .openBrace | .openParen => true
  | _ => false

/-- What follows does not start an operand. -/
def Stops (rest : List Token) : Prop := ∀ token, rest.head? = some token → opens token = false

mutual

/-- No call, and no variable that is a whole clause, is followed directly by an operand. The tokens
after the clause are `rest`. -/
def Clause.Greedy (rest : List Token) : Clause → Prop
  | .call _ receiver args => Stops rest ∧ receiver.Greedy (yieldAll args ++ rest) ∧ GreedyAll rest args
  | .operand operand => (∀ name, operand = .var name → Stops rest) ∧ operand.Greedy rest

def Operand.Greedy (rest : List Token) : Operand → Prop
  | .parens inner => inner.Greedy (.closeParen :: rest)
  | .block steps => GreedySteps rest steps
  | .letIn _ bound body => bound.Greedy (.word "in" :: (body.yield ++ rest)) ∧ body.Greedy rest
  | .choice test yes no =>
    test.Greedy (.closeParen :: .openBrace :: (yieldSteps yes ++ .otherwise :: .openBrace :: (yieldSteps no ++ rest))) ∧
      GreedySteps (.otherwise :: .openBrace :: (yieldSteps no ++ rest)) yes ∧ GreedySteps rest no
  | _ => True

def GreedyAll (rest : List Token) : List Operand → Prop
  | [] => True
  | operand :: operands => operand.Greedy (yieldAll operands ++ rest) ∧ GreedyAll rest operands

def GreedySteps (rest : List Token) : List Clause → Prop
  | [] => True
  | step :: steps => step.Greedy (yieldRest steps ++ rest) ∧ GreedySteps rest steps

end

mutual

/-- The expression that a derivation stands for, when every numeral has a value and every literal can be
decoded. Parentheses leave no trace in it. -/
def Clause.meaning (read : String → Option I32) : Clause → Option Named
  | .call name receiver args =>
    (receiver.meaning read).bind fun receiver => (meaningAll read args).map (.call name.text receiver)
  | .operand operand => operand.meaning read

def Operand.meaning (read : String → Option I32) : Operand → Option Named
  | .unit => some (.lit .unit)
  | .parens inner => inner.meaning read
  | .bool flag => some (.lit (.bool flag))
  | .block steps => (meaningSteps read steps).map .seq
  | .text body => (Escape.decode body).toOption.map fun text => .lit (.string text)
  | .number lexeme => (read lexeme).map fun number => .lit (.i32 number)
  | .letIn name bound body =>
    (bound.meaning read).bind fun bound => (body.meaning read).map (.letIn name.text bound)
  | .choice test yes no =>
    (test.meaning read).bind fun test => (meaningSteps read yes).bind fun yes =>
      (meaningSteps read no).map fun no => .cond test (.seq yes) (.seq no)
  | .var name => some (.var name.text)

def meaningAll (read : String → Option I32) : List Operand → Option (List Named)
  | [] => some []
  | operand :: operands =>
    (operand.meaning read).bind fun first => (meaningAll read operands).map (first :: ·)

def meaningSteps (read : String → Option I32) : List Clause → Option (List Named)
  | [] => some []
  | step :: steps => (step.meaning read).bind fun first => (meaningSteps read steps).map (first :: ·)

end

attribute [local simp] Clause.yield Operand.yield yieldAll yieldSteps yieldRest Clause.Greedy Operand.Greedy GreedyAll
  GreedySteps Clause.meaning Operand.meaning meaningAll meaningSteps

theorem yieldAll_eq_flatMap (operands : List Operand) : yieldAll operands = operands.flatMap Operand.yield := by
  induction operands with
  | nil => rfl
  | cons operand operands ih => rw [yieldAll, ih, List.flatMap_cons]

theorem meaningAll_eq_mapM (read : String → Option I32) (operands : List Operand) :
    meaningAll read operands = operands.mapM (Operand.meaning read) := by
  induction operands with
  | nil => rfl
  | cons operand operands ih =>
    rw [meaningAll, ih, List.mapM_cons]
    cases operand.meaning read <;> cases operands.mapM (Operand.meaning read) <;> rfl

theorem meaningSteps_eq_mapM (read : String → Option I32) (steps : List Clause) :
    meaningSteps read steps = steps.mapM (Clause.meaning read) := by
  induction steps with
  | nil => rfl
  | cons step steps ih =>
    rw [meaningSteps, ih, List.mapM_cons]
    cases step.meaning read <;> cases steps.mapM (Clause.meaning read) <;> rfl

/-- The value of a numeral that fits into 32 bits. -/
def readNumeral (lexeme : String) : Option I32 := I32.ofInt? (numeralValue lexeme)

theorem Ident.text_ne {name : Ident} {word : String} (h : word ∈ keywords) : name.text ≠ word :=
  fun he => name.not_keyword (he ▸ h)

theorem Ident.opens_token (name : Ident) : opens name.token = true := by
  have h := name.not_keyword
  simp only [keywords, List.mem_cons, not_or] at h
  simp [opens, Ident.token, h]

theorem Operand.exists_yield (operand : Operand) :
    ∃ token rest, operand.yield = token :: rest ∧ opens token = true := by
  cases operand with
  | unit => exact ⟨_,_,rfl,rfl⟩
  | parens inner => exact ⟨_,_,rfl,rfl⟩
  | bool flag => exact ⟨_,_,rfl,by cases flag <;> decide⟩
  | block steps => exact ⟨_,_,rfl,rfl⟩
  | text body => exact ⟨_,_,rfl,rfl⟩
  | number lexeme => exact ⟨_,_,rfl,rfl⟩
  | letIn name bound body => exact ⟨_,_,rfl,by decide⟩
  | choice test yes no => exact ⟨_,_,rfl,by decide⟩
  | var name => exact ⟨_,_,rfl,name.opens_token⟩

theorem Clause.exists_yield (clause : Clause) :
    ∃ token rest, clause.yield = token :: rest ∧ opens token = true := by
  cases clause with
  | call name receiver args => exact ⟨_,_,rfl,name.opens_token⟩
  | operand operand => exact operand.exists_yield

theorem not_stops_yield (operand : Operand) (rest : List Token) : ¬ Stops (operand.yield ++ rest) := by
  obtain ⟨token,more,hy,ho⟩ := operand.exists_yield
  intro h
  have hf := h token (by simp [hy])
  rw [ho] at hf
  cases hf

theorem cons_ne_yield {token : Token} (h : opens token = false) (clause : Clause) (rest more : List Token) :
    token :: rest ≠ clause.yield ++ more := by
  obtain ⟨first,tokens,hy,ho⟩ := clause.exists_yield
  intro he
  rw [hy] at he
  obtain ⟨rfl,_⟩ := List.cons.inj he
  rw [h] at ho
  cases ho

theorem stops_cons {token : Token} (h : opens token = false) (rest : List Token) : Stops (token :: rest) := by
  intro first he
  cases he
  exact h

/-- Only a variable starts with its own name. -/
theorem Operand.eq_var_of_yield {operand : Operand} {name : Ident} {rest more : List Token}
    (h : operand.yield ++ rest = name.token :: more) : operand = .var name ∧ rest = more := by
  cases operand with
  | unit => simp [Operand.yield, Ident.token] at h
  | parens inner => simp [Operand.yield, Ident.token] at h
  | bool flag =>
    simp only [Operand.yield, Ident.token, List.cons_append, List.cons.injEq, Token.word.injEq] at h
    exact absurd h.1.symm (Ident.text_ne (by cases flag <;> decide))
  | block steps => simp [Operand.yield, Ident.token] at h
  | text body => simp [Operand.yield, Ident.token] at h
  | number lexeme => simp [Operand.yield, Ident.token] at h
  | letIn binder bound body =>
    simp only [Operand.yield, Ident.token, List.cons_append, List.cons.injEq, Token.word.injEq] at h
    exact absurd h.1.symm (Ident.text_ne (by decide))
  | choice test yes no =>
    simp only [Operand.yield, Ident.token, List.cons_append, List.cons.injEq, Token.word.injEq] at h
    exact absurd h.1.symm (Ident.text_ne (by decide))
  | var other =>
    obtain ⟨text,hn⟩ := other
    obtain ⟨text',hn'⟩ := name
    simp only [Operand.yield, Ident.token, List.cons_append, List.nil_append, List.cons.injEq, Token.word.injEq] at h
    obtain ⟨rfl,rfl⟩ := h
    exact ⟨rfl,rfl⟩

/-- A clause is determined by its yield and what follows, among greedy derivations. -/
def Clause.Fixed (clause : Clause) : Prop :=
  ∀ ⦃rest : List Token⦄ ⦃other : Clause⦄ ⦃more : List Token⦄, clause.yield ++ rest = other.yield ++ more →
    clause.Greedy rest → other.Greedy more → clause = other ∧ rest = more

def Operand.Fixed (operand : Operand) : Prop :=
  ∀ ⦃rest : List Token⦄ ⦃other : Operand⦄ ⦃more : List Token⦄, operand.yield ++ rest = other.yield ++ more →
    operand.Greedy rest → other.Greedy more → operand = other ∧ rest = more

theorem fixedAll {operands others : List Operand} {rest more : List Token}
    (hf : ∀ operand ∈ operands, operand.Fixed) (h : yieldAll operands ++ rest = yieldAll others ++ more)
    (hg : GreedyAll rest operands) (hg' : GreedyAll more others) (hs : Stops rest) (hs' : Stops more) :
    operands = others ∧ rest = more := by
  induction operands generalizing others with
  | nil =>
    cases others with
    | nil => exact ⟨rfl,h⟩
    | cons other others =>
      simp only [yieldAll, List.nil_append, List.append_assoc] at h
      rw [h] at hs
      exact absurd hs (not_stops_yield other _)
  | cons operand operands ih =>
    cases others with
    | nil =>
      simp only [yieldAll, List.nil_append, List.append_assoc] at h
      rw [← h] at hs'
      exact absurd hs' (not_stops_yield operand _)
    | cons other others =>
      obtain ⟨hfirst,hfrest⟩ := List.forall_mem_cons.1 hf
      simp only [yieldAll, List.append_assoc] at h
      obtain ⟨rfl,he⟩ := hfirst h hg.1 hg'.1
      obtain ⟨rfl,hr⟩ := ih hfrest he hg.2 hg'.2
      exact ⟨rfl,hr⟩

theorem fixedRest {steps others : List Clause} {rest more : List Token}
    (hf : ∀ step ∈ steps, step.Fixed) (h : yieldRest steps ++ rest = yieldRest others ++ more)
    (hg : GreedySteps rest steps) (hg' : GreedySteps more others) : steps = others ∧ rest = more := by
  induction steps generalizing others with
  | nil =>
    cases others with
    | nil => exact ⟨rfl,List.cons.inj h |>.2⟩
    | cons other others => simp [yieldRest] at h
  | cons step steps ih =>
    cases others with
    | nil => simp [yieldRest] at h
    | cons other others =>
      obtain ⟨hfirst,hfrest⟩ := List.forall_mem_cons.1 hf
      simp only [yieldRest, List.cons_append, List.append_assoc, List.cons.injEq, true_and] at h
      obtain ⟨rfl,he⟩ := hfirst h hg.1 hg'.1
      obtain ⟨rfl,hr⟩ := ih hfrest he hg.2 hg'.2
      exact ⟨rfl,hr⟩

theorem fixedSteps {steps others : List Clause} {rest more : List Token}
    (hf : ∀ step ∈ steps, step.Fixed) (h : yieldSteps steps ++ rest = yieldSteps others ++ more)
    (hg : GreedySteps rest steps) (hg' : GreedySteps more others) : steps = others ∧ rest = more := by
  cases steps with
  | nil =>
    cases others with
    | nil => exact ⟨rfl,List.cons.inj h |>.2⟩
    | cons other others =>
      simp only [yieldSteps, List.append_assoc] at h
      exact absurd h (cons_ne_yield rfl other _ _)
  | cons step steps =>
    cases others with
    | nil =>
      simp only [yieldSteps, List.append_assoc] at h
      exact absurd h.symm (cons_ne_yield rfl step _ _)
    | cons other others =>
      obtain ⟨hfirst,hfrest⟩ := List.forall_mem_cons.1 hf
      simp only [yieldSteps, List.append_assoc] at h
      obtain ⟨rfl,he⟩ := hfirst h hg.1 hg'.1
      obtain ⟨rfl,hr⟩ := fixedRest hfrest he hg.2 hg'.2
      exact ⟨rfl,hr⟩

theorem Ident.token_inj {name other : Ident} (h : name.token = other.token) : name = other := by
  obtain ⟨text,_⟩ := name
  obtain ⟨text',_⟩ := other
  cases h
  rfl

theorem fixed_call {name : Ident} {receiver : Operand} {args : List Operand} (hr : receiver.Fixed)
    (ha : ∀ arg ∈ args, arg.Fixed) : (Clause.call name receiver args).Fixed := by
  intro rest other more h hg hg'
  simp only [Clause.yield, List.cons_append, List.append_assoc] at h
  cases other with
  | call name' receiver' args' =>
    simp only [Clause.yield, List.cons_append, List.append_assoc, List.cons.injEq] at h
    obtain ⟨hn,h⟩ := h
    obtain rfl := Ident.token_inj hn
    have he : yieldAll (receiver :: args) ++ rest = yieldAll (receiver' :: args') ++ more := by
      simpa only [yieldAll, List.append_assoc] using h
    obtain ⟨hl,hm⟩ := fixedAll (List.forall_mem_cons.2 ⟨hr,ha⟩) he hg.2 hg'.2 hg.1 hg'.1
    obtain ⟨rfl,rfl⟩ := List.cons.inj hl
    exact ⟨rfl,hm⟩
  | operand operand =>
    obtain ⟨rfl,rfl⟩ := Operand.eq_var_of_yield h.symm
    exact absurd (hg'.1 name rfl) (not_stops_yield receiver _)

theorem fixed_operand {operand : Operand} (ho : operand.Fixed) : (Clause.operand operand).Fixed := by
  intro rest other more h hg hg'
  simp only [Clause.yield] at h
  cases other with
  | call name receiver args =>
    simp only [Clause.yield, List.cons_append, List.append_assoc] at h
    obtain ⟨rfl,rfl⟩ := Operand.eq_var_of_yield h
    exact absurd (hg.1 name rfl) (not_stops_yield receiver _)
  | operand other =>
    obtain ⟨rfl,hr⟩ := ho h hg.2 hg'.2
    exact ⟨rfl,hr⟩

theorem fixed_unit : Operand.unit.Fixed := by
  intro rest other more h _ _
  cases other with
  | unit =>
    simp only [Operand.yield, List.cons_append, List.nil_append, List.cons.injEq, true_and] at h
    exact ⟨rfl,h⟩
  | parens inner =>
    simp only [Operand.yield, List.cons_append, List.nil_append, List.append_assoc, List.cons.injEq, true_and] at h
    exact absurd h (cons_ne_yield rfl inner _ _)
  | _ => simp [Operand.yield, Ident.token] at h

theorem fixed_parens {inner : Clause} (hi : inner.Fixed) : (Operand.parens inner).Fixed := by
  intro rest other more h hg hg'
  cases other with
  | unit =>
    simp only [Operand.yield, List.cons_append, List.nil_append, List.append_assoc, List.cons.injEq, true_and] at h
    exact absurd h.symm (cons_ne_yield rfl inner _ _)
  | parens inner' =>
    simp only [Operand.yield, List.cons_append, List.nil_append, List.append_assoc, List.cons.injEq, true_and] at h
    obtain ⟨rfl,he⟩ := hi h hg hg'
    exact ⟨rfl,(List.cons.inj he).2⟩
  | _ => simp [Operand.yield, Ident.token] at h

theorem fixed_bool (flag : Bool) : (Operand.bool flag).Fixed := by
  intro rest other more h _ _
  cases other with
  | bool flag' => cases flag <;> cases flag' <;> simp_all [Operand.yield]
  | var name =>
    obtain ⟨he,_⟩ := Operand.eq_var_of_yield h
    cases he
  | _ => cases flag <;> simp [Operand.yield] at h

theorem fixed_block {steps : List Clause} (hs : ∀ step ∈ steps, step.Fixed) : (Operand.block steps).Fixed := by
  intro rest other more h hg hg'
  cases other with
  | block steps' =>
    simp only [Operand.yield, List.cons_append, List.cons.injEq, true_and] at h
    obtain ⟨rfl,he⟩ := fixedSteps hs h hg hg'
    exact ⟨rfl,he⟩
  | _ => simp [Operand.yield, Ident.token] at h

theorem fixed_text (body : String) : (Operand.text body).Fixed := by
  intro rest other more h _ _
  cases other with
  | text body' => simpa [Operand.yield] using h
  | _ => simp [Operand.yield, Ident.token] at h

theorem fixed_number (lexeme : String) : (Operand.number lexeme).Fixed := by
  intro rest other more h _ _
  cases other with
  | number lexeme' => simpa [Operand.yield] using h
  | _ => simp [Operand.yield, Ident.token] at h

theorem fixed_letIn {name : Ident} {bound body : Clause} (hb : bound.Fixed) (hd : body.Fixed) :
    (Operand.letIn name bound body).Fixed := by
  intro rest other more h hg hg'
  cases other with
  | letIn name' bound' body' =>
    simp only [Operand.yield, List.cons_append, List.append_assoc, List.cons.injEq, true_and] at h
    obtain ⟨hn,h⟩ := h
    obtain rfl := Ident.token_inj hn
    obtain ⟨rfl,he⟩ := hb h hg.1 hg'.1
    obtain ⟨rfl,hr⟩ := hd (List.cons.inj he).2 hg.2 hg'.2
    exact ⟨rfl,hr⟩
  | var name' =>
    obtain ⟨he,_⟩ := Operand.eq_var_of_yield h
    cases he
  | bool flag => cases flag <;> simp [Operand.yield] at h
  | _ => simp [Operand.yield] at h

theorem fixed_choice {test : Clause} {yes no : List Clause} (ht : test.Fixed) (hy : ∀ step ∈ yes, step.Fixed)
    (hn : ∀ step ∈ no, step.Fixed) : (Operand.choice test yes no).Fixed := by
  intro rest other more h hg hg'
  cases other with
  | choice test' yes' no' =>
    simp only [Operand.yield, List.cons_append, List.append_assoc, List.cons.injEq, true_and] at h
    obtain ⟨rfl,ha⟩ := ht h hg.1 hg'.1
    simp only [List.cons.injEq, true_and] at ha
    obtain ⟨rfl,hb⟩ := fixedSteps hy ha hg.2.1 hg'.2.1
    simp only [List.cons.injEq, true_and] at hb
    obtain ⟨rfl,hr⟩ := fixedSteps hn hb hg.2.2 hg'.2.2
    exact ⟨rfl,hr⟩
  | var name' =>
    obtain ⟨he,_⟩ := Operand.eq_var_of_yield h
    cases he
  | bool flag => cases flag <;> simp [Operand.yield] at h
  | _ => simp [Operand.yield] at h

theorem fixed_var (name : Ident) : (Operand.var name).Fixed := by
  intro rest other more h _ _
  obtain ⟨rfl,rfl⟩ := Operand.eq_var_of_yield h.symm
  exact ⟨rfl,rfl⟩

/-- Of all greedy derivations only one has a given yield. -/
theorem Clause.fixed (clause : Clause) : clause.Fixed :=
  (induct (fun _ _ _ hr ha => fixed_call hr ha) (fun _ ho => fixed_operand ho) fixed_unit
    (fun _ hi => fixed_parens hi) fixed_bool (fun _ hs => fixed_block hs) fixed_text fixed_number
    (fun _ _ _ hb hd => fixed_letIn hb hd) (fun _ _ _ ht hy hn => fixed_choice ht hy hn) fixed_var).1 clause

end Mica.Grammar
