import Mica.Proofs.Grammar.Acceptance
import Mica.Proofs.Grammar.Literals

/-! # Printing

The trees that texts can stand for, and a canonical text for each of them. Whatever is accepted is
well formed, and the printed text of a well-formed tree is accepted as that tree.
-/
namespace Mica

open Grammar

/-- A name that a program can use. -/
structure IsIdent (name : String) : Prop where
  spelled : Token.IsName name.toList
  not_keyword : name ∉ keywords

theorem IsIdent.spelled_word {name : String} (h : IsIdent name) : (Token.word name).Spelled := by
  refine ⟨h.spelled,?_⟩
  rintro rfl
  exact h.not_keyword (by decide)

def IsIdent.ident {name : String} (h : IsIdent name) : Ident := ⟨name,h.not_keyword⟩

theorem Token.spelled_keyword {word : String} (h : word ∈ keywords) (hn : word ≠ "else") :
    (Token.word word).Spelled := by
  simp only [keywords, List.mem_cons, List.not_mem_nil, or_false] at h
  refine ⟨?_,hn⟩
  rcases h with rfl | rfl | rfl | rfl | rfl | rfl | rfl | rfl <;>
    exact ⟨_,_,rfl,by decide,List.all_eq_true.1 (by decide)⟩

namespace Named

/-- The expressions that a text can stand for. Any string can be a literal: strings, like texts, are taken to be
sequences of Unicode scalar values, so none holds a surrogate on its own, for which there is no escape. -/
inductive WellFormed : Named → Prop where
  | unit : WellFormed (.lit .unit)
  | bool (flag : Bool) : WellFormed (.lit (.bool flag))
  | i32 (number : I32) : WellFormed (.lit (.i32 number))
  | string (text : String) : WellFormed (.lit (.string text))
  | var {name : String} : IsIdent name → WellFormed (.var name)
  | call {name : String} {receiver : Named} {args : List Named} : IsIdent name → WellFormed receiver →
      (∀ arg ∈ args, WellFormed arg) → WellFormed (.call name receiver args)
  | letIn {name : String} {bound body : Named} : IsIdent name → WellFormed bound → WellFormed body →
      WellFormed (.letIn name bound body)
  | cond {test : Named} {yes no : List Named} : WellFormed test → (∀ step ∈ yes, WellFormed step) →
      (∀ step ∈ no, WellFormed step) → WellFormed (.cond test (.seq yes) (.seq no))
  | seq {steps : List Named} : (∀ step ∈ steps, WellFormed step) → WellFormed (.seq steps)

end Named

structure MethodDef.WellFormed (method : MethodDef) : Prop where
  name : IsIdent method.name
  params : ∀ param ∈ method.params, IsIdent param
  body : Named.WellFormed method.body

structure ClassDef.WellFormed (cls : ClassDef) : Prop where
  name : IsIdent cls.name
  methods : ∀ method ∈ cls.methods, method.WellFormed

def Program.WellFormed (program : Program) : Prop := ∀ cls ∈ program.classes, cls.WellFormed

/-- The tokens of a literal. -/
def Value.spell : Value → List Token
  | unit => [.openParen,.closeParen]
  | bool flag => [.word (if flag then "true" else "false")]
  | i32 number => [.number (toString number.toInt)]
  | string text => [.text (escapeText text)]
  | object _ _ => []

/-- Which operands stand in parentheses, those of a call and those of a binding. An operand of a call always
does when it is a call or a binding itself. -/
structure Bracketing where
  ofCall : Named → Bool
  ofBinding : Named → Bool
  ofCall_call (name : String) (receiver : Named) (args : List Named) : ofCall (.call name receiver args) = true
  ofCall_letIn (name : String) (bound body : Named) : ofCall (.letIn name bound body) = true

namespace Bracketing

/-- Every operand of a call or a binding. -/
def all : Bracketing := ⟨fun _ => true,fun _ => true,fun _ _ _ => rfl,fun _ _ _ => rfl⟩

/-- Only the calls and bindings among the operands of a call. -/
def few : Bracketing where
  ofCall
    | .call _ _ _ | .letIn _ _ _ => true
    | _ => false
  ofBinding _ := false
  ofCall_call _ _ _ := rfl
  ofCall_letIn _ _ _ := rfl

end Bracketing

/-- Tokens in parentheses, if so wished. -/
def Token.enclose (flag : Bool) (ts : List Token) : List Token :=
  if flag then .openParen :: (ts ++ [.closeParen]) else ts

section Spelling

variable (brackets : Bracketing)

mutual

def Named.spell : Named → List Token
  | .lit value => value.spell
  | .call name receiver args =>
    .word name :: (Token.enclose (brackets.ofCall receiver) (Named.spell receiver) ++ Named.spellAll args)
  | .var name => [.word name]
  | .letIn name bound body =>
    .word "let" :: .word name :: .equals :: (Token.enclose (brackets.ofBinding bound) (Named.spell bound) ++
      .word "in" :: Token.enclose (brackets.ofBinding body) (Named.spell body))
  | .cond test yes no =>
    .word "if" :: .openParen :: (Named.spell test ++ .closeParen :: (Named.spell yes ++ .otherwise :: Named.spell no))
  | .seq steps => .openBrace :: Named.spellSteps steps
  | .stray _ => []

def Named.spellAll : List Named → List Token
  | [] => []
  | expr :: exprs => Token.enclose (brackets.ofCall expr) (Named.spell expr) ++ Named.spellAll exprs

def Named.spellSteps : List Named → List Token
  | [] => [.closeBrace]
  | step :: steps => Named.spell step ++ Named.spellRest steps

def Named.spellRest : List Named → List Token
  | [] => [.closeBrace]
  | step :: steps => .semicolon :: (Named.spell step ++ Named.spellRest steps)

end

def MethodDef.spell (method : MethodDef) : List Token :=
  .word "def" :: .word method.name ::
    (method.params.map .word ++ .equals :: (Named.spell brackets method.body ++ [.semicolon]))

def ClassDef.spell (cls : ClassDef) : List Token :=
  .word "class" :: .word cls.name :: .openBrace :: (cls.methods.flatMap (MethodDef.spell brackets) ++ [.closeBrace])

end Spelling

/-- A text with spaces between its tokens. -/
def Token.spaced (ts : List Token) : String := " ".intercalate (ts.map Token.lexeme)

def Named.print (brackets : Bracketing) (expr : Named) : String := Token.spaced (Named.spell brackets expr)

def Program.print (brackets : Bracketing) (program : Program) : String :=
  Token.spaced (program.classes.flatMap (ClassDef.spell brackets))

namespace Grammar

variable {opener : List Token → String → Prop} {start : Region} {before ts : List Token}

/-- A token is split off where a word opens something, or where it ends. -/
theorem splits_of_ends {token : Token} {rest : List Char} (hs : Steered opener start before (token :: ts))
    (h : token.Spelled) (he : (∀ word, opener before word → token ≠ .word word) → token.Ends rest)
    (hrest : Splits opener (before ++ [token]) rest ts) :
    Splits opener before (token.lexeme.toList ++ rest) (token :: ts) := by
  obtain ⟨hw,_,_,hb,_⟩ := hs
  by_cases ho : ∃ word, opener before word ∧ token = .word word
  · obtain ⟨word,ho,rfl⟩ := ho
    exact .opening ho hrest
  · have hno (word : String) (hopen : opener before word) : token ≠ .word word := fun ht => ho ⟨word,hopen,ht⟩
    refine .token (fun word hopen hp => ?_) (Token.longest_of_ends h (he hno)) hrest
    rcases hb word hopen with rfl | rfl
    · exact hno word hopen rfl
    · rcases Region.eq_of_opener ((hw word).1 hopen) with rfl | rfl
      · simp [Token.lexeme] at hp
      · simp [Token.lexeme] at hp

theorem splits_separated {token : Token} {rest : List Char} (hs : Steered opener start before (token :: ts))
    (h : token.Spelled) (hr : ∀ c, rest.head? = some c → c = ' ') (hrest : Splits opener (before ++ [token]) rest ts) :
    Splits opener before (token.lexeme.toList ++ rest) (token :: ts) :=
  splits_of_ends hs h (fun _ => token.ends_of_head fun c hc => hr c hc ▸ rfl) hrest

theorem splits_spaced (hs : Steered opener start before ts) (h : ∀ token ∈ ts, token.Spelled) :
    Splits opener before (Token.spaced ts).toList ts := by
  rw [Token.spaced, String.toList_intercalate, List.map_map]
  induction ts generalizing before with
  | nil => exact .done
  | cons token ts ih =>
    obtain ⟨ht,hts⟩ := List.forall_mem_cons.1 h
    have hrest := ih hs.2.2.2.2 hts
    cases ts with
    | nil =>
      have hlast := splits_separated hs ht (by simp) hrest
      simpa using hlast
    | cons next ts =>
      have hblank := splits_separated hs ht (by simp) (.blank (c := ' ') rfl hrest)
      simpa using hblank

end Grammar

section Printed

variable {brackets : Bracketing}

theorem Token.spelled_enclose {ts : List Token} (h : ∀ token ∈ ts, token.Spelled) (flag : Bool) :
    ∀ token ∈ enclose flag ts, token.Spelled := by
  cases flag with
  | false => exact h
  | true => exact List.forall_mem_cons.2 ⟨trivial,List.forall_mem_append.2 ⟨h,List.forall_mem_singleton.2 trivial⟩⟩

namespace Named

/-- An expression has a derivation as a clause with its tokens as yield. It also has one as an operand, unless
it stands in parentheses there. -/
structure Printed (brackets : Bracketing) (expr : Named) : Prop where
  spelled : ∀ token ∈ spell brackets expr, token.Spelled
  clause : ∃ clause : Clause, clause.yield = spell brackets expr ∧ (∀ rest, Stops rest → clause.Greedy rest) ∧
    clause.meaning checkedNumeral = some expr
  bare : brackets.ofCall expr = false → ∃ operand : Operand, operand.yield = spell brackets expr ∧
    (∀ rest, operand.Greedy rest) ∧ operand.meaning checkedNumeral = some expr

variable {expr : Named} {exprs : List Named}

theorem printed_of_operand (operand : Operand) (hs : ∀ token ∈ spell brackets expr, token.Spelled)
    (hy : operand.yield = spell brackets expr) (hg : ∀ rest, operand.Greedy rest)
    (hm : operand.meaning checkedNumeral = some expr) : Printed brackets expr :=
  ⟨hs,⟨.operand operand,hy,fun rest hr => ⟨fun _ _ => hr,hg rest⟩,hm⟩,fun _ => ⟨operand,hy,hg,hm⟩⟩

theorem printed_of_clause (clause : Clause) (hb : brackets.ofCall expr = true)
    (hs : ∀ token ∈ spell brackets expr, token.Spelled) (hy : clause.yield = spell brackets expr)
    (hg : ∀ rest, Stops rest → clause.Greedy rest) (hm : clause.meaning checkedNumeral = some expr) :
    Printed brackets expr :=
  ⟨hs,⟨clause,hy,hg,hm⟩,fun hn => absurd (hb.symm.trans hn) (by decide)⟩

/-- In parentheses a clause is an operand that nothing after it can change. -/
theorem Printed.parens (h : Printed brackets expr) :
    ∃ operand : Operand, operand.yield = Token.enclose true (spell brackets expr) ∧ (∀ rest, operand.Greedy rest) ∧
      operand.meaning checkedNumeral = some expr := by
  obtain ⟨clause,hy,hg,hm⟩ := h.clause
  refine ⟨.parens clause,?_,fun rest => hg _ (stops_cons rfl rest),hm⟩
  rw [Operand.yield, hy]
  rfl

theorem Printed.operand (h : Printed brackets expr) :
    ∃ operand : Operand, operand.yield = Token.enclose (brackets.ofCall expr) (spell brackets expr) ∧
      (∀ rest, operand.Greedy rest) ∧ operand.meaning checkedNumeral = some expr := by
  cases hb : brackets.ofCall expr with
  | true => exact h.parens
  | false => exact h.bare hb

theorem Printed.enclosed (h : Printed brackets expr) (flag : Bool) :
    ∃ clause : Clause, clause.yield = Token.enclose flag (spell brackets expr) ∧
      (∀ rest, Stops rest → clause.Greedy rest) ∧ clause.meaning checkedNumeral = some expr := by
  cases flag with
  | false => exact h.clause
  | true =>
    obtain ⟨operand,hy,hg,hm⟩ := h.parens
    exact ⟨.operand operand,hy,fun rest hr => ⟨fun _ _ => hr,hg rest⟩,hm⟩

theorem printedAll (h : ∀ expr ∈ exprs, Printed brackets expr) :
    (∀ token ∈ spellAll brackets exprs, token.Spelled) ∧
      ∃ operands : List Operand, yieldAll operands = spellAll brackets exprs ∧
        (∀ rest, GreedyAll rest operands) ∧ meaningAll checkedNumeral operands = some exprs := by
  induction exprs with
  | nil => exact ⟨nofun,[],rfl,fun _ => trivial,rfl⟩
  | cons expr exprs ih =>
    obtain ⟨hf,hr⟩ := List.forall_mem_cons.1 h
    obtain ⟨hs,operands,hy,hg,hm⟩ := ih hr
    obtain ⟨operand,hy',hg',hm'⟩ := hf.operand
    refine ⟨?_,operand :: operands,by rw [yieldAll, hy, hy', spellAll],fun rest => ⟨hg' _,hg rest⟩,?_⟩
    · rw [spellAll]
      exact List.forall_mem_append.2 ⟨Token.spelled_enclose hf.spelled _,hs⟩
    · rw [meaningAll, hm, hm']
      rfl

theorem stops_yieldRest (steps : List Clause) (rest : List Token) : Stops (yieldRest steps ++ rest) := by
  cases steps <;> exact stops_cons rfl _

theorem printedRest (h : ∀ expr ∈ exprs, Printed brackets expr) :
    (∀ token ∈ spellRest brackets exprs, token.Spelled) ∧
      ∃ steps : List Clause, yieldRest steps = spellRest brackets exprs ∧
        (∀ rest, GreedySteps rest steps) ∧ meaningSteps checkedNumeral steps = some exprs := by
  induction exprs with
  | nil => exact ⟨by simp [spellRest, Token.Spelled],[],rfl,fun _ => trivial,rfl⟩
  | cons expr exprs ih =>
    obtain ⟨hf,hr⟩ := List.forall_mem_cons.1 h
    obtain ⟨hs,steps,hy,hg,hm⟩ := ih hr
    obtain ⟨step,hy',hg',hm'⟩ := hf.clause
    refine ⟨?_,step :: steps,by rw [yieldRest, hy, hy', spellRest]; rfl,
      fun rest => ⟨hg' _ (stops_yieldRest steps rest),hg rest⟩,?_⟩
    · rw [spellRest]
      exact List.forall_mem_cons.2 ⟨trivial,List.forall_mem_append.2 ⟨hf.spelled,hs⟩⟩
    · rw [meaningSteps, hm, hm']
      rfl

theorem printedSteps (h : ∀ expr ∈ exprs, Printed brackets expr) :
    (∀ token ∈ spellSteps brackets exprs, token.Spelled) ∧
      ∃ steps : List Clause, yieldSteps steps = spellSteps brackets exprs ∧
        (∀ rest, GreedySteps rest steps) ∧ meaningSteps checkedNumeral steps = some exprs := by
  cases exprs with
  | nil => exact ⟨by simp [spellSteps, Token.Spelled],[],rfl,fun _ => trivial,rfl⟩
  | cons expr exprs =>
    obtain ⟨hf,hr⟩ := List.forall_mem_cons.1 h
    obtain ⟨hs,steps,hy,hg,hm⟩ := printedRest hr
    obtain ⟨step,hy',hg',hm'⟩ := hf.clause
    refine ⟨?_,step :: steps,by rw [yieldSteps, hy, hy', spellSteps],
      fun rest => ⟨hg' _ (stops_yieldRest steps rest),hg rest⟩,?_⟩
    · rw [spellSteps]
      exact List.forall_mem_append.2 ⟨hf.spelled,hs⟩
    · rw [meaningSteps, hm, hm']
      rfl

theorem printed_lit {value : Value} {token : Token} (operand : Operand) (hs : token.Spelled)
    (hv : value.spell = [token]) (hy : operand.yield = [token]) (hg : ∀ rest, operand.Greedy rest)
    (hm : operand.meaning checkedNumeral = some (.lit value)) : Printed brackets (.lit value) := by
  have he : spell brackets (.lit value) = [token] := by rw [spell, hv]
  refine printed_of_operand operand ?_ (hy.trans he.symm) hg hm
  rw [he]
  exact List.forall_mem_singleton.2 hs

theorem printed_call {name : String} {receiver : Named} {args : List Named} (hn : IsIdent name)
    (hr : Printed brackets receiver) (ha : ∀ arg ∈ args, Printed brackets arg) :
    Printed brackets (.call name receiver args) := by
  obtain ⟨hs,operands,hy,hg,hm⟩ := printedAll ha
  obtain ⟨operand,hy',hg',hm'⟩ := hr.operand
  refine printed_of_clause (.call hn.ident operand operands) (brackets.ofCall_call name receiver args) ?_ ?_
    (fun rest h => ⟨h,hg' _,hg rest⟩) ?_
  · simp only [spell, List.forall_mem_cons, List.forall_mem_append]
    exact ⟨hn.spelled_word,Token.spelled_enclose hr.spelled _,hs⟩
  · rw [Clause.yield, hy, hy', spell]
    rfl
  · rw [Clause.meaning, hm, hm']
    rfl

theorem printed_letIn {name : String} {bound body : Named} (hn : IsIdent name) (hb : Printed brackets bound)
    (hd : Printed brackets body) : Printed brackets (.letIn name bound body) := by
  obtain ⟨value,hy,hg,hm⟩ := hb.enclosed (brackets.ofBinding bound)
  obtain ⟨result,hy',hg',hm'⟩ := hd.enclosed (brackets.ofBinding body)
  refine printed_of_clause (.operand (.letIn hn.ident value result)) (brackets.ofCall_letIn name bound body)
    ?_ ?_ ?_ ?_
  · simp only [spell, List.forall_mem_cons, List.forall_mem_append]
    exact ⟨Token.spelled_keyword (by decide) (by decide),hn.spelled_word,trivial,
      Token.spelled_enclose hb.spelled _,Token.spelled_keyword (by decide) (by decide),
      Token.spelled_enclose hd.spelled _⟩
  · rw [Clause.yield, Operand.yield, hy, hy', spell]
    rfl
  · intro rest h
    exact ⟨nofun,hg _ (stops_cons (by decide) _),hg' _ h⟩
  · rw [Clause.meaning, Operand.meaning, hm, hm']
    rfl

theorem printed_cond {test : Named} {yes no : List Named} (ht : Printed brackets test)
    (hy : ∀ step ∈ yes, Printed brackets step) (hn : ∀ step ∈ no, Printed brackets step) :
    Printed brackets (.cond test (.seq yes) (.seq no)) := by
  obtain ⟨clause,hyt,hgt,hmt⟩ := ht.clause
  obtain ⟨hsy,steps,hyy,hgy,hmy⟩ := printedSteps hy
  obtain ⟨hsn,steps',hyn,hgn,hmn⟩ := printedSteps hn
  refine printed_of_operand (.choice clause steps steps') ?_ ?_ ?_ ?_
  · simp only [spell, List.cons_append, List.forall_mem_cons, List.forall_mem_append]
    exact ⟨Token.spelled_keyword (by decide) (by decide),trivial,ht.spelled,trivial,trivial,hsy,trivial,trivial,hsn⟩
  · simp only [Operand.yield, hyt, hyy, hyn, spell, List.cons_append, List.append_assoc]
  · intro rest
    exact ⟨hgt _ (stops_cons rfl _),hgy _,hgn _⟩
  · rw [Operand.meaning, hmt, hmy, hmn]
    rfl

theorem printed_seq {steps : List Named} (hs : ∀ step ∈ steps, Printed brackets step) :
    Printed brackets (.seq steps) := by
  obtain ⟨hsp,clauses,hy,hg,hm⟩ := printedSteps hs
  refine printed_of_operand (.block clauses) ?_ ?_ hg ?_
  · rw [spell]
    exact List.forall_mem_cons.2 ⟨trivial,hsp⟩
  · rw [Operand.yield, hy, spell]
  · rw [Operand.meaning, hm]
    rfl

theorem WellFormed.printed (h : WellFormed expr) : Printed brackets expr := by
  induction h with
  | unit =>
    exact printed_of_operand .unit (by simp [spell, Value.spell, Token.Spelled]) rfl (fun _ => trivial) rfl
  | bool flag =>
    refine printed_lit (.bool flag) (Token.spelled_keyword ?_ ?_) rfl rfl (fun _ => trivial) rfl
    · cases flag <;> decide
    · cases flag <;> decide
  | i32 number =>
    have hs : (Token.number (toString number.toInt)).Spelled := isNumeral_toString number.toInt
    refine printed_lit (.number (toString number.toInt)) hs rfl rfl (fun _ => trivial) ?_
    rw [Operand.meaning, checkedNumeral, if_neg (Nat.not_lt.2 (length_digits_toString number)), readNumeral,
      numeralValue_toString, I32.ofInt?_toInt]
    rfl
  | string text =>
    have hs : (Token.text (escapeText text)).Spelled := isLiteral_escapeText text
    refine printed_lit (.text (escapeText text)) hs rfl rfl (fun _ => trivial) ?_
    rw [Operand.meaning, decode_escapeText]
    rfl
  | var hn =>
    exact printed_of_operand (.var hn.ident) (List.forall_mem_singleton.2 hn.spelled_word) rfl (fun _ => trivial) rfl
  | call hn _ _ hr ha => exact printed_call hn hr ha
  | letIn hn _ _ hb hd => exact printed_letIn hn hb hd
  | cond _ _ _ ht hy hn => exact printed_cond ht hy hn
  | seq _ hs => exact printed_seq hs

end Named

end Printed

namespace Grammar

theorem Splits.spelled {opener : List Token → String → Prop} {before ts : List Token} {cs : List Char}
    (h : Splits opener before cs ts) (ho : ∀ before word, opener before word → (Token.word word).Spelled) :
    ∀ token ∈ ts, token.Spelled := by
  induction h with
  | done => nofun
  | blank _ _ ih => exact ih
  | comment _ _ _ ih => exact ih
  | opening hw _ ih => exact List.forall_mem_cons.2 ⟨ho _ _ hw,ih⟩
  | token _ hl _ ih => exact List.forall_mem_cons.2 ⟨hl.spelled,ih⟩

theorem Ident.isIdent {name : Ident} (h : name.token.Spelled) : IsIdent name.text := ⟨h.1,name.not_keyword⟩

variable {read : String → Option I32}

theorem wellFormedAll {operands : List Operand} {exprs : List Named}
    (h : ∀ operand ∈ operands, (∀ token ∈ operand.yield, token.Spelled) → ∀ expr, operand.meaning read = some expr →
      Named.WellFormed expr) (hs : ∀ token ∈ yieldAll operands, token.Spelled)
    (hm : meaningAll read operands = some exprs) : ∀ expr ∈ exprs, Named.WellFormed expr := by
  rw [forall_mem_yieldAll] at hs
  rw [meaningAll_eq_mapM] at hm
  exact Option.forall_mem_of_mapM (fun operand ho => h operand ho (hs operand ho)) hm

theorem wellFormedSteps {steps : List Clause} {exprs : List Named}
    (h : ∀ step ∈ steps, (∀ token ∈ step.yield, token.Spelled) → ∀ expr, step.meaning read = some expr →
      Named.WellFormed expr) (hs : ∀ token ∈ yieldSteps steps, token.Spelled)
    (hm : meaningSteps read steps = some exprs) : ∀ expr ∈ exprs, Named.WellFormed expr := by
  rw [forall_mem_yieldSteps trivial trivial] at hs
  rw [meaningSteps_eq_mapM] at hm
  exact Option.forall_mem_of_mapM (fun step ht => h step ht (hs step ht)) hm

/-- What a derivation from spelled tokens means is well formed. -/
theorem Clause.wellFormed (clause : Clause) (h : ∀ token ∈ clause.yield, token.Spelled) (expr : Named)
    (hm : clause.meaning read = some expr) : Named.WellFormed expr := by
  refine (induct
    (P := fun clause => (∀ token ∈ clause.yield, token.Spelled) → ∀ expr, clause.meaning read = some expr →
      Named.WellFormed expr)
    (Q := fun operand => (∀ token ∈ operand.yield, token.Spelled) → ∀ expr, operand.meaning read = some expr →
      Named.WellFormed expr)
    ?call ?operand ?unit ?parens ?bool ?block ?text ?number ?letIn ?choice ?var).1 clause h expr hm
  case call =>
    intro name receiver args hr ha h expr hm
    simp only [Clause.yield, List.cons_append, List.forall_mem_cons, List.forall_mem_append] at h
    simp only [Clause.meaning, Option.bind_eq_some_iff, Option.map_eq_some_iff] at hm
    obtain ⟨first,hf,rest,hs,rfl⟩ := hm
    exact .call (Ident.isIdent h.1) (hr h.2.1 first hf) (wellFormedAll ha h.2.2 hs)
  case operand =>
    intro operand ho
    exact ho
  case unit =>
    rintro _ _ ⟨⟩
    exact .unit
  case parens =>
    intro inner hi h expr hm
    simp only [Operand.yield, List.cons_append, List.forall_mem_cons, List.forall_mem_append] at h
    exact hi h.2.1 expr hm
  case bool =>
    rintro flag _ _ ⟨⟩
    exact .bool flag
  case block =>
    intro steps hs h expr hm
    simp only [Operand.yield, List.forall_mem_cons] at h
    obtain ⟨exprs,he,rfl⟩ := Option.map_eq_some_iff.1 hm
    exact .seq (wellFormedSteps hs h.2 he)
  case text =>
    intro body _ expr hm
    obtain ⟨text,_,rfl⟩ := Option.map_eq_some_iff.1 hm
    exact .string text
  case number =>
    intro lexeme _ expr hm
    obtain ⟨number,_,rfl⟩ := Option.map_eq_some_iff.1 hm
    exact .i32 number
  case letIn =>
    intro name bound body hb hd h expr hm
    simp only [Operand.yield, List.cons_append, List.forall_mem_cons, List.forall_mem_append] at h
    simp only [Operand.meaning, Option.bind_eq_some_iff, Option.map_eq_some_iff] at hm
    obtain ⟨value,hv,result,hr,rfl⟩ := hm
    exact .letIn (Ident.isIdent h.2.1) (hb h.2.2.2.1 value hv) (hd h.2.2.2.2.2 result hr)
  case choice =>
    intro test yes no ht hy hn h expr hm
    simp only [Operand.yield, List.cons_append, List.append_assoc, List.forall_mem_cons, List.forall_mem_append] at h
    simp only [Operand.meaning, Option.bind_eq_some_iff, Option.map_eq_some_iff] at hm
    obtain ⟨cond,hc,first,hf,second,hs,rfl⟩ := hm
    exact .cond (ht h.2.2.1 cond hc) (wellFormedSteps hy h.2.2.2.2.2.1 hf) (wellFormedSteps hn h.2.2.2.2.2.2.2.2 hs)
  case var =>
    intro name h expr hm
    cases hm
    exact .var (Ident.isIdent (h _ (by simp [Operand.yield])))

theorem MethodTree.wellFormed (tree : MethodTree) (h : ∀ token ∈ tree.yield, token.Spelled) (method : MethodDef)
    (hm : tree.meaning read = some method) : method.WellFormed := by
  obtain ⟨body,hb,rfl⟩ := Option.map_eq_some_iff.1 hm
  simp only [MethodTree.yield, List.forall_mem_cons, List.forall_mem_append, List.forall_mem_map] at h
  obtain ⟨_,hn,hp,_,hs,_⟩ := h
  exact ⟨Ident.isIdent hn,List.forall_mem_map.2 fun param hm => Ident.isIdent (hp param hm),
    tree.body.wellFormed hs body hb⟩

theorem ClassTree.wellFormed (tree : ClassTree) (h : ∀ token ∈ tree.yield, token.Spelled) (cls : ClassDef)
    (hm : tree.meaning read = some cls) : cls.WellFormed := by
  obtain ⟨methods,hs,rfl⟩ := Option.map_eq_some_iff.1 hm
  refine ⟨Ident.isIdent (h _ (by simp [ClassTree.yield])),Option.forall_mem_of_mapM (fun method hmem => ?_) hs⟩
  exact method.wellFormed fun token ht => h _ (tree.methods_subset (List.mem_flatMap.2 ⟨method,hmem,ht⟩))

theorem programMeaning_wellFormed {classes : List ClassTree} {program : Program}
    (h : ∀ token ∈ classes.flatMap ClassTree.yield, token.Spelled) (hm : programMeaning read classes = some program) :
    program.WellFormed := by
  obtain ⟨found,hs,rfl⟩ := Option.map_eq_some_iff.1 hm
  refine Option.forall_mem_of_mapM (fun cls hmem => ?_) hs
  exact cls.wellFormed fun token ht => h _ (List.mem_flatMap.2 ⟨cls,hmem,ht⟩)

theorem spelled_of_opens {before : List Token} {word : String} (h : Opens before word) : (Token.word word).Spelled := by
  cases h with
  | cls classes => exact Token.spelled_keyword (by decide) (by decide)
  | method classes name methods => exact Token.spelled_keyword (by decide) (by decide)

end Grammar

section Printed

variable {brackets : Bracketing}

theorem MethodDef.WellFormed.printed {method : MethodDef} (h : method.WellFormed) :
    (∀ token ∈ method.spell brackets, token.Spelled) ∧ ∃ tree : MethodTree, tree.yield = method.spell brackets ∧
      (∀ rest, tree.body.Greedy (.semicolon :: rest)) ∧ tree.meaning checkedNumeral = some method := by
  obtain ⟨name,params,body⟩ := method
  obtain ⟨hn,hp,hb⟩ := h
  have hprinted : Named.Printed brackets body := hb.printed
  obtain ⟨clause,hy,hg,hm⟩ := hprinted.clause
  obtain ⟨idents,hi,ht⟩ := exists_idents fun param hm => (hp param hm).not_keyword
  refine ⟨?_,⟨hn.ident,idents,clause⟩,?_,fun rest => hg _ (stops_cons rfl rest),?_⟩
  · simp only [MethodDef.spell, List.forall_mem_cons, List.forall_mem_append, List.forall_mem_map]
    exact ⟨Token.spelled_keyword (by decide) (by decide),hn.spelled_word,fun param hm => (hp param hm).spelled_word,
      trivial,hprinted.spelled,trivial,nofun⟩
  · rw [MethodTree.yield, MethodDef.spell, hy, ht]
    rfl
  · rw [MethodTree.meaning, hm, hi]
    rfl

theorem printedMethods {methods : List MethodDef} (h : ∀ method ∈ methods, method.WellFormed) :
    (∀ token ∈ methods.flatMap (MethodDef.spell brackets), token.Spelled) ∧ ∃ trees : List MethodTree,
      trees.flatMap MethodTree.yield = methods.flatMap (MethodDef.spell brackets) ∧
        (∀ rest, GreedyMethods rest trees) ∧ trees.mapM (MethodTree.meaning checkedNumeral) = some methods := by
  induction methods with
  | nil => exact ⟨nofun,[],rfl,fun _ => trivial,rfl⟩
  | cons method methods ih =>
    obtain ⟨hf,hr⟩ := List.forall_mem_cons.1 h
    obtain ⟨hs,trees,hy,hg,hm⟩ := ih hr
    obtain ⟨hs',tree,hy',hg',hm'⟩ := hf.printed
    refine ⟨?_,tree :: trees,?_,fun rest => ⟨hg' _,hg rest⟩,?_⟩
    · rw [List.flatMap_cons]
      exact List.forall_mem_append.2 ⟨hs',hs⟩
    · rw [List.flatMap_cons, List.flatMap_cons, hy, hy']
    · rw [List.mapM_cons, hm', hm]
      rfl

theorem ClassDef.WellFormed.printed {cls : ClassDef} (h : cls.WellFormed) :
    (∀ token ∈ cls.spell brackets, token.Spelled) ∧ ∃ tree : ClassTree, tree.yield = cls.spell brackets ∧
      (∀ rest, GreedyMethods rest tree.methods) ∧ tree.meaning checkedNumeral = some cls := by
  obtain ⟨name,methods⟩ := cls
  obtain ⟨hn,hms⟩ := h
  obtain ⟨hs,trees,hy,hg,hm⟩ := printedMethods hms
  refine ⟨?_,⟨hn.ident,trees⟩,?_,hg,?_⟩
  · simp only [ClassDef.spell, List.forall_mem_cons, List.forall_mem_append]
    exact ⟨Token.spelled_keyword (by decide) (by decide),hn.spelled_word,trivial,hs,trivial,nofun⟩
  · rw [ClassTree.yield, ClassDef.spell, hy]
    rfl
  · rw [ClassTree.meaning, hm]
    rfl

theorem printedClasses {classes : List ClassDef} (h : ∀ cls ∈ classes, cls.WellFormed) :
    (∀ token ∈ classes.flatMap (ClassDef.spell brackets), token.Spelled) ∧ ∃ trees : List ClassTree,
      trees.flatMap ClassTree.yield = classes.flatMap (ClassDef.spell brackets) ∧ GreedyClasses trees ∧
        trees.mapM (ClassTree.meaning checkedNumeral) = some classes := by
  induction classes with
  | nil => exact ⟨nofun,[],rfl,trivial,rfl⟩
  | cons cls classes ih =>
    obtain ⟨hf,hr⟩ := List.forall_mem_cons.1 h
    obtain ⟨hs,trees,hy,hg,hm⟩ := ih hr
    obtain ⟨hs',tree,hy',hg',hm'⟩ := hf.printed
    refine ⟨?_,tree :: trees,?_,⟨hg' _,hg⟩,?_⟩
    · rw [List.flatMap_cons]
      exact List.forall_mem_append.2 ⟨hs',hs⟩
    · rw [List.flatMap_cons, List.flatMap_cons, hy, hy']
    · rw [List.mapM_cons, hm', hm]
      rfl

end Printed

theorem Named.wellFormed_of_parse {source : String} {expr : Named} (h : Named.parse source = .ok expr) :
    Named.WellFormed expr := by
  obtain ⟨clause,ht,_,hm⟩ := Named.parse_eq_ok_iff.1 h
  exact clause.wellFormed (ht.spelled fun _ _ => False.elim) expr hm

theorem Program.wellFormed_of_parse {source : String} {program : Program} (h : Program.parse source = .ok program) :
    program.WellFormed := by
  obtain ⟨classes,ht,_,hm⟩ := Program.parse_eq_ok_iff.1 h
  exact programMeaning_wellFormed (ht.spelled fun _ _ => spelled_of_opens) hm

/-- Parsing inverts printing, however many operands stand in parentheses, and only well-formed trees come
from it. -/
theorem parse_print :
    (∀ source expr, Named.parse source = .ok expr → Named.WellFormed expr) ∧
    (∀ source program, Program.parse source = .ok program → program.WellFormed) ∧
    ∀ brackets : Bracketing,
      (∀ expr : Named, Named.WellFormed expr → Named.parse (Named.print brackets expr) = .ok expr) ∧
      ∀ program : Program, program.WellFormed → Program.parse (program.print brackets) = .ok program := by
  refine ⟨fun _ _ => Named.wellFormed_of_parse,fun _ _ => Program.wellFormed_of_parse,fun brackets => ⟨?_,?_⟩⟩
  · intro expr h
    have hprinted : Named.Printed brackets expr := h.printed
    obtain ⟨clause,hy,hg,hm⟩ := hprinted.clause
    refine Named.parse_eq_ok_iff.2 ⟨clause,?_,hg [] nofun,hm⟩
    rw [ExprTokens, Named.print, ← hy]
    exact splits_spaced clause.steered (hy ▸ hprinted.spelled)
  · intro program h
    obtain ⟨hs,trees,hy,hg,hm⟩ := printedClasses h
    refine Program.parse_eq_ok_iff.2 ⟨trees,?_,hg,by rw [programMeaning, hm]; rfl⟩
    rw [ProgramTokens, Program.print, ← hy]
    exact splits_spaced (steered_classes [] trees) (hy ▸ hs)

/-- A call with a binding, a call and the unit value as operands. -/
def nestedOperands : Named :=
  .call "f" (.letIn "x" (.lit (.i32 ⟨-5,by decide,by decide⟩)) (.var "x"))
    [.call "g" (.lit (.string "\"é")) [],.lit .unit]

theorem parse_print_nestedOperands :
    (Named.WellFormed nestedOperands ∧ Program.WellFormed ⟨[⟨"A",[⟨"m",["p"],nestedOperands⟩]⟩]⟩) ∧
    (Named.print .all nestedOperands =
        "f ( let x = ( -5 ) in ( x ) ) ( g ( \"\\u\x7b22\x7d\\u\x7be9\x7d\" ) ) ( ( ) )" ∧
      Named.parse (Named.print .all nestedOperands) = .ok nestedOperands) ∧
    (Named.print .few nestedOperands = "f ( let x = -5 in x ) ( g \"\\u\x7b22\x7d\\u\x7be9\x7d\" ) ( )" ∧
      Named.parse (Named.print .few nestedOperands) = .ok nestedOperands) ∧
    Program.parse (Program.print .all ⟨[⟨"A",[⟨"m",["p"],nestedOperands⟩]⟩]⟩) =
      .ok ⟨[⟨"A",[⟨"m",["p"],nestedOperands⟩]⟩]⟩ := by
  have hexpr : Named.parse "f let x=-5in(x) (g \"\\\"é\") ()" = .ok nestedOperands := by decide +kernel
  have hprogram : Program.parse "class A\x7bdef m p=f(let x=-5in x)(g\"\\\"é\")();\x7d" =
      .ok ⟨[⟨"A",[⟨"m",["p"],nestedOperands⟩]⟩]⟩ := by decide +kernel
  have hwf := parse_print.1 _ _ hexpr
  have hwf' := parse_print.2.1 _ _ hprogram
  exact ⟨⟨hwf,hwf'⟩,⟨by decide +kernel,(parse_print.2.2 .all).1 _ hwf⟩,
    ⟨by decide +kernel,(parse_print.2.2 .few).1 _ hwf⟩,(parse_print.2.2 .all).2 _ hwf'⟩

end Mica
