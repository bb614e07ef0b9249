import Mathlib.Data.List.Induction
import Mathlib.Data.Nat.Digits.Defs
import Mica.Proofs.Grammar.Acceptance
import Mica.Proofs.Grammar.Positions
import Mica.Proofs.Inquiries
import Mica.Proofs.Renumbering

/-! # Numerals

What becomes of the numerals of a text. They are looked at from left to right, and the first one that is too long or
whose value is out of range decides. A text in which nothing else is wrong is accepted if there is none, and the integers
of the tree are then the values of the numerals. That a numeral is too long is the only thing a text can be refused for
that is no fault of the source.
-/
namespace Mica

/-- The integer that a numeral stands for in decimal notation. The last digit counts once and every other one ten times
as much as if it stood one place further right. -/
def decimalValue (lexeme : String) : Int :=
  let digits := (lexeme.toList.filter Char.isDigit).map fun c => c.toNat - '0'.toNat
  let magnitude : Nat := Nat.ofDigits 10 digits.reverse
  if lexeme.toList.head? = some '-' then -magnitude else magnitude

theorem digitsValue_eq (digits : List Char) :
    digitsValue digits = Nat.ofDigits 10 (digits.map fun c => c.toNat - '0'.toNat).reverse := by
  induction digits using List.reverseRecOn with
  | nil => rfl
  | append_singleton digits c ih =>
    have hstep : digitsValue (digits ++ [c]) = 10 * digitsValue digits + (c.toNat - '0'.toNat) := by
      rw [digitsValue, List.foldl_append]
      rfl
    rw [hstep, ih, List.map_append, List.reverse_append, List.map_singleton, List.reverse_singleton,
      List.singleton_append, Nat.ofDigits_cons, Nat.add_comm]

theorem numeralValue_eq (lexeme : String) : numeralValue lexeme = decimalValue lexeme := by
  simp only [numeralValue, decimalValue, digitsValue_eq]

/-- A numeral with more digits than are looked at. -/
def Overlong (lexeme : String) : Prop := digitLimit < (lexeme.toList.filter Char.isDigit).length

/-- A numeral that stands for one of the integers there are. -/
def InRange (lexeme : String) : Prop := -2147483648 ≤ decimalValue lexeme ∧ decimalValue lexeme ≤ 2147483647

/-- The numerals of a text with their places, from left to right. -/
def Lexing.numerals (lexing : Lexing) : List (String × Nat) := lexing.lexemes.filterMap Lexeme.numeral?

/-- What is wrong with a numeral at a place. -/
inductive Numeral.Flawed (lexeme : String) (place : Nat) : Flaw → Prop where
  | long : Overlong lexeme → Flawed lexeme place .tooLong
  | range : ¬ Overlong lexeme → ¬ InRange lexeme → Flawed lexeme place (.fault (.integerRange lexeme) place)

theorem Numeral.flawed_of_check {lexeme : String} {place : Nat} {flaw : Flaw}
    (h : checkNumeral lexeme place = .error flaw) : Flawed lexeme place flaw := by
  unfold checkNumeral at h
  split at h
  · next hl =>
    cases h
    exact .long hl
  · next hl =>
    split at h
    · cases h
    · next hn =>
      cases h
      rw [I32.ofInt?_eq_none_iff, numeralValue_eq] at hn
      exact .range hl fun hr => by
        obtain ⟨hlo,hhi⟩ := hr
        omega

theorem Numeral.of_check {lexeme : String} {place : Nat} {value : Value} (h : checkNumeral lexeme place = .ok value) :
    ¬ Overlong lexeme ∧ InRange lexeme ∧ ∃ number : I32, value = .i32 number ∧ number.toInt = decimalValue lexeme := by
  unfold checkNumeral at h
  split at h
  · cases h
  · next hl =>
    split at h
    · next number hn =>
      cases h
      have hv : number.toInt = decimalValue lexeme := (I32.toInt_of_ofInt? hn).trans (numeralValue_eq lexeme)
      refine ⟨hl,?_,number,rfl,hv⟩
      rw [InRange, ← hv]
      exact ⟨number.lower,number.upper⟩
    · cases h

/-! ## The integers of a tree -/

def Value.integer? : Value → Option Int
  | i32 number => some number.toInt
  | _ => none

/-- The integers in an expression from left to right. -/
def Named.integers (expr : Named) : List Int := expr.literals.filterMap Value.integer?

def Program.integers (program : Program) : List Int := program.literals.filterMap Value.integer?

/-- The values of the numerals among some leaves. -/
def numeralValues (leaves : List Lexeme) : List Int := (leaves.filterMap Lexeme.numeral?).map fun n => decimalValue n.1

theorem numeralValues_append (leaves others : List Lexeme) :
    numeralValues (leaves ++ others) = numeralValues leaves ++ numeralValues others := by
  simp [numeralValues]

theorem numeralValues_flatMap {α : Type} (leaves : α → List Lexeme) (as : List α) :
    numeralValues (as.flatMap leaves) = as.flatMap fun a => numeralValues (leaves a) := by
  simp only [numeralValues, List.filterMap_flatMap, List.map_flatMap]

theorem numeralValues_word (word : Word) : numeralValues [word.lexeme] = [] := rfl

/-- When what is checked one by one keeps its integers, so does the whole. -/
theorem integers_of_mapM {α β : Type} {check : α → Except Flaw β} {literals : β → List Value}
    {leaves : α → List Lexeme} {as : List α} {bs : List β}
    (h : ∀ a ∈ as, ∀ b, check a = .ok b → (literals b).filterMap Value.integer? = numeralValues (leaves a))
    (hm : as.mapM check = .ok bs) :
    (bs.flatMap literals).filterMap Value.integer? = numeralValues (as.flatMap leaves) := by
  rw [List.filterMap_flatMap, Except.flatMap_of_mapM h hm, numeralValues_flatMap]

namespace Phrase

theorem integers_of_checkAll {phrases : List Phrase} {exprs : List Named}
    (h : ∀ phrase ∈ phrases, ∀ expr, phrase.check = .ok expr →
      expr.literals.filterMap Value.integer? = numeralValues phrase.leaves)
    (hc : checkAll phrases = .ok exprs) :
    (Expr.literalsAll exprs).filterMap Value.integer? = numeralValues (leavesAll phrases) := by
  rw [checkAll_eq_mapM] at hc
  rw [Expr.literalsAll_eq_flatMap, leavesAll_eq_flatMap]
  exact integers_of_mapM h hc

/-- The integers of an expression are the values of the numerals it was read from. -/
theorem integers_of_check {phrase : Phrase} {expr : Named} (h : phrase.check = .ok expr) :
    expr.literals.filterMap Value.integer? = numeralValues phrase.leaves := by
  induction phrase generalizing expr with
  | unit | bool =>
    cases h
    rfl
  | numeral lexeme offset =>
    obtain ⟨_,hv,h⟩ := Except.bind_eq_ok_iff.1 h
    obtain ⟨_,_,number,rfl,hn⟩ := Numeral.of_check hv
    cases h
    exact congrArg (fun n => [n]) hn
  | literal body offset =>
    obtain ⟨value,hv,h⟩ := Except.bind_eq_ok_iff.1 h
    cases h
    unfold checkLiteral at hv
    split at hv
    · cases hv
      rfl
    · cases hv
  | name word =>
    obtain ⟨_,_,h⟩ := Except.bind_eq_ok_iff.1 h
    cases h
    rfl
  | call head receiver args ihr iha =>
    obtain ⟨_,hr,h⟩ := Except.bind_eq_ok_iff.1 h
    obtain ⟨_,ha,h⟩ := Except.bind_eq_ok_iff.1 h
    obtain ⟨_,_,h⟩ := Except.bind_eq_ok_iff.1 h
    cases h
    rw [Expr.literals, List.filterMap_append, ihr hr, integers_of_checkAll (fun arg hm _ => iha arg hm) ha, leaves,
      numeralValues_append, numeralValues_append, numeralValues_word, List.append_nil]
  | letIn binder bound body ihb ihd =>
    obtain ⟨_,hb,h⟩ := Except.bind_eq_ok_iff.1 h
    obtain ⟨_,hd,h⟩ := Except.bind_eq_ok_iff.1 h
    obtain ⟨_,_,h⟩ := Except.bind_eq_ok_iff.1 h
    cases h
    rw [Expr.literals, List.filterMap_append, ihb hb, ihd hd, leaves, numeralValues_append, numeralValues_append,
      numeralValues_word, List.append_nil]
  | cond test yes no iht ihy ihn =>
    obtain ⟨_,ht,h⟩ := Except.bind_eq_ok_iff.1 h
    obtain ⟨_,hy,h⟩ := Except.bind_eq_ok_iff.1 h
    obtain ⟨_,hn,h⟩ := Except.bind_eq_ok_iff.1 h
    cases h
    rw [Expr.literals, Expr.literals, Expr.literals, List.filterMap_append, List.filterMap_append, iht ht,
      integers_of_checkAll (fun step hm _ => ihy step hm) hy, integers_of_checkAll (fun step hm _ => ihn step hm) hn,
      leaves, numeralValues_append, numeralValues_append, List.append_assoc]
  | block steps ihs =>
    obtain ⟨_,hs,h⟩ := Except.bind_eq_ok_iff.1 h
    cases h
    exact integers_of_checkAll (fun step hm _ => ihs step hm) hs

end Phrase

theorem numeralValues_words (words : List Word) : numeralValues (words.map Word.lexeme) = [] := by
  induction words with
  | nil => rfl
  | cons word words ih => exact ih

theorem MethodPhrase.integers_of_check {method : MethodPhrase} {found : MethodDef} (h : method.check = .ok found) :
    found.body.literals.filterMap Value.integer? = numeralValues method.leaves := by
  obtain ⟨_,_,h⟩ := Except.bind_eq_ok_iff.1 h
  obtain ⟨_,hb,h⟩ := Except.bind_eq_ok_iff.1 h
  obtain ⟨_,_,h⟩ := Except.bind_eq_ok_iff.1 h
  cases h
  rw [leaves, numeralValues_append, numeralValues_append, numeralValues_words, numeralValues_word, List.append_nil,
    List.nil_append]
  exact Phrase.integers_of_check hb

theorem ClassPhrase.integers_of_check {cls : ClassPhrase} {found : ClassDef} (h : cls.check = .ok found) :
    (found.methods.flatMap fun method => method.body.literals).filterMap Value.integer? = numeralValues cls.leaves := by
  obtain ⟨_,hm,h⟩ := Except.bind_eq_ok_iff.1 h
  obtain ⟨_,_,h⟩ := Except.bind_eq_ok_iff.1 h
  cases h
  rw [leaves, numeralValues_append, numeralValues_word, List.append_nil]
  exact integers_of_mapM (fun _ _ _ => MethodPhrase.integers_of_check) hm

theorem Program.integers_of_check {classes : List ClassPhrase} {found : List ClassDef}
    (h : classes.mapM ClassPhrase.check = .ok found) :
    Program.integers ⟨found⟩ = numeralValues (classes.flatMap ClassPhrase.leaves) :=
  integers_of_mapM (fun _ _ _ => ClassPhrase.integers_of_check) h

/-! ## Refusals -/

/-- Whether a leaf is fit for a tree, numerals aside: a name is no keyword, and a literal can be decoded. -/
def Lexeme.Sound (l : Lexeme) : Prop :=
  (∀ text, l.token = .word text → text ∉ keywords) ∧ ∀ body, l.token = .text body → ∃ text, Escape.decode body = .ok text

/-- With nothing else wrong, the first leaf with a flaw is the first numeral with one. -/
theorem findSome?_flaw {leaves : List Lexeme} (h : ∀ l ∈ leaves, l.Sound) :
    leaves.findSome? Lexeme.flaw? =
      (leaves.filterMap Lexeme.numeral?).findSome? fun n => Except.error? (checkNumeral n.1 n.2) := by
  induction leaves with
  | nil => rfl
  | cons l leaves ih =>
    obtain ⟨⟨hw,hd⟩,hr⟩ := List.forall_mem_cons.1 h
    obtain ⟨token,offset⟩ := l
    cases token with
    | number lexeme =>
      have hn : Lexeme.numeral? ⟨.number lexeme,offset⟩ = some (lexeme,offset) := rfl
      rw [List.filterMap_cons_some hn, List.findSome?_cons, List.findSome?_cons, ih hr]
      rfl
    | word text =>
      have hf : Lexeme.flaw? ⟨.word text,offset⟩ = none := if_neg (hw text rfl)
      rw [List.findSome?_cons, hf, List.filterMap_cons_none rfl]
      exact ih hr
    | text body =>
      obtain ⟨text,hb⟩ := hd body rfl
      have hf : Lexeme.flaw? ⟨.text body,offset⟩ = none := by simp [Lexeme.flaw?, checkLiteral, hb, Except.error?]
      rw [List.findSome?_cons, hf, List.filterMap_cons_none rfl]
      exact ih hr
    | _ => exact ih hr

/-- How a text turns out in which nothing but numerals can be wrong. It is accepted if every numeral is short enough and
in range, and the tree has their values from left to right. Otherwise the first numeral that is not decides. If its value
is out of range it is reported at its place; if it is too long there is no report. -/
inductive Settled {α : Type} (source : String) (numerals : List (String × Nat)) (integers : α → List Int) :
    Except Problem α → Prop where
  | accepted {tree : α} : (∀ n ∈ numerals, ¬ Overlong n.1 ∧ InRange n.1) →
      integers tree = numerals.map (fun n => decimalValue n.1) → Settled source numerals integers (.ok tree)
  | outOfRange {before after : List (String × Nat)} {lexeme : String} {place : Nat} :
      numerals = before ++ (lexeme,place) :: after → (∀ n ∈ before, ¬ Overlong n.1 ∧ InRange n.1) →
      ¬ Overlong lexeme → ¬ InRange lexeme →
      Settled source numerals integers
        (.error (.ofCause (.source (.integerRange lexeme) (.ofOffset source.toList place))))
  | tooLong {before after : List (String × Nat)} {lexeme : String} {place : Nat} :
      numerals = before ++ (lexeme,place) :: after → (∀ n ∈ before, ¬ Overlong n.1 ∧ InRange n.1) →
      Overlong lexeme → Settled source numerals integers (.error .literalTooLong)

theorem Settled.eq_tooLong {α : Type} {source lexeme : String} {place : Nat} {numerals : List (String × Nat)}
    {integers : α → List Int} {result : Except Problem α}
    (h : Settled source ((lexeme,place) :: numerals) integers result) (hl : Overlong lexeme) :
    result = .error .literalTooLong := by
  have hfirst {before after : List (String × Nat)} {n : String × Nat}
      (he : (lexeme,place) :: numerals = before ++ n :: after) (hb : ∀ n ∈ before, ¬ Overlong n.1 ∧ InRange n.1) :
      n = (lexeme,place) := by
    cases before with
    | nil => exact (List.cons.inj he).1.symm
    | cons first before =>
      rw [List.cons_append] at he
      obtain rfl := (List.cons.inj he).1
      exact absurd hl (hb _ List.mem_cons_self).1
  cases h with
  | accepted ha _ => exact absurd hl (ha _ List.mem_cons_self).1
  | outOfRange he hb hn _ =>
    cases hfirst he hb
    exact absurd hl hn
  | tooLong _ _ _ => rfl

/-- A text is refused for a fault in it, or else because of a numeral that is too long. -/
def Explained {α : Type} (numerals : List (String × Nat)) (result : Except Problem α) : Prop :=
  ∀ problem, result = .error problem → (∃ fault place, problem = .ofCause (.source fault place)) ∨
    problem = .literalTooLong ∧ ∃ n ∈ numerals, Overlong n.1

section Parse

variable {α β γ : Type} {source : String} {lexing : Lexing} {reader : Nat → Reader α} {leaves : α → List Lexeme}
  {check : α → Except Flaw β} {f : β → γ}

theorem sound_of_check {lexeme : String} {place : Nat} (h : Except.error? (checkNumeral lexeme place) = none) :
    ¬ Overlong lexeme ∧ InRange lexeme := by
  cases hc : checkNumeral lexeme place with
  | error flaw =>
    rw [hc] at h
    cases h
  | ok value => exact ⟨(Numeral.of_check hc).1,(Numeral.of_check hc).2.1⟩

theorem settled_of_readAll {integers : γ → List Int} {a : α}
    (hc : ChecksLeaves reader leaves check) (hi : ∀ b, check a = .ok b → integers (f b) = numeralValues (leaves a))
    (ha : lexing.readAll reader = .ok a) (hs : ∀ l ∈ leaves a, l.Sound) :
    Settled source lexing.numerals integers (((lexing.parse reader check).map f).mapError (Flaw.toProblem source)) := by
  have hnumerals : (leaves a).filterMap Lexeme.numeral? = lexing.numerals := (Lexing.readAll_covers hc ha).numerals
  have herror := hc.flaws a
  rw [findSome?_flaw hs, hnumerals] at herror
  simp only [Lexing.parse, ha]
  cases hb : check a with
  | ok b =>
    rw [hb] at herror
    have hnone := List.findSome?_eq_none_iff.1 herror.symm
    refine .accepted (fun n hn => sound_of_check (hnone n hn)) ?_
    rw [hi b hb, numeralValues, hnumerals]
  | error flaw =>
    rw [hb] at herror
    obtain ⟨before,⟨lexeme,place⟩,after,hn,hf,hbefore⟩ := List.findSome?_eq_some_iff.1 herror.symm
    have hsound : ∀ n ∈ before, ¬ Overlong n.1 ∧ InRange n.1 := fun n hm => sound_of_check (hbefore n hm)
    cases Numeral.flawed_of_check (Except.error?_eq_some_iff.1 hf) with
    | long hl => exact .tooLong hn hsound hl
    | range hl hrange => exact .outOfRange hn hsound hl hrange

theorem explained_of_parse (hc : ChecksLeaves reader leaves check) (f : β → γ) :
    Explained lexing.numerals (((lexing.parse reader check).map f).mapError (Flaw.toProblem source)) := by
  intro problem h
  obtain ⟨flaw,hp,rfl⟩ := Except.eq_error_of_mapError_map h
  cases flaw with
  | fault fault place => exact .inl ⟨fault,_,rfl⟩
  | tooLong =>
    refine .inr ⟨rfl,?_⟩
    rcases Lexing.parse_eq_error hc hp with ⟨_,_,_,_,_,he⟩ | ⟨⟨token,offset⟩,hl,hf⟩
    · cases he
    · cases token with
      | number lexeme =>
        refine ⟨(lexeme,offset),List.mem_filterMap.2 ⟨_,hl,rfl⟩,?_⟩
        cases Numeral.flawed_of_check (Except.error?_eq_some_iff.1 hf) with
        | long hl => exact hl
      | word text =>
        simp only [Lexeme.flaw?, Option.ite_none_right_eq_some] at hf
        cases hf.2
      | text body =>
        simp only [Lexeme.flaw?, checkLiteral] at hf
        split at hf
        · cases hf
        · cases hf
      | _ => cases hf

end Parse

/-! ## Texts with a derivation -/

/-- The names among some leaves can be used. -/
def NamesFit (leaves : List Lexeme) : Prop := ∀ l ∈ leaves, ∀ text, l.token = .word text → text ∉ keywords

theorem NamesFit.append {leaves others : List Lexeme} (h : NamesFit leaves) (ho : NamesFit others) :
    NamesFit (leaves ++ others) := List.forall_mem_append.2 ⟨h,ho⟩

theorem NamesFit.flatMap {α : Type} {leaves : α → List Lexeme} {as : List α} (h : ∀ a ∈ as, NamesFit (leaves a)) :
    NamesFit (as.flatMap leaves) := List.forall_mem_flatMap.2 h

theorem Word.Proper.namesFit {word : Word} (h : word.Proper) : NamesFit [word.lexeme] := by
  rintro l hl text ht
  obtain rfl := List.mem_singleton.1 hl
  cases ht
  exact h

theorem namesFit_words {words : List Word} (h : ∀ word ∈ words, word.Proper) : NamesFit (words.map Word.lexeme) := by
  rw [List.map_eq_flatMap]
  exact .flatMap fun word hw => (h word hw).namesFit

namespace Phrase

theorem namesFitAll {phrases : List Phrase} (h : ∀ phrase ∈ phrases, phrase.Proper → NamesFit phrase.leaves)
    (hp : ProperAll phrases) : NamesFit (leavesAll phrases) := by
  rw [properAll_iff] at hp
  rw [leavesAll_eq_flatMap]
  exact .flatMap fun phrase hm => h phrase hm (hp phrase hm)

theorem namesFit {phrase : Phrase} (h : phrase.Proper) : NamesFit phrase.leaves := by
  induction phrase with
  | unit | bool => nofun
  | numeral | literal =>
    rintro l hl text ht
    obtain rfl := List.mem_singleton.1 hl
    cases ht
  | name word => exact Word.Proper.namesFit h
  | call head receiver args hr ha =>
    obtain ⟨hh,hpr,hpa⟩ := h
    exact ((hr hpr).append (namesFitAll ha hpa)).append hh.namesFit
  | letIn binder bound body hb hd =>
    obtain ⟨hn,hpb,hpd⟩ := h
    exact ((hb hpb).append (hd hpd)).append hn.namesFit
  | cond test yes no ht hy hn =>
    obtain ⟨hpt,hpy,hpn⟩ := h
    exact ((ht hpt).append (namesFitAll hy hpy)).append (namesFitAll hn hpn)
  | block steps hs => exact namesFitAll hs h

end Phrase

theorem MethodPhrase.Proper.namesFit {method : MethodPhrase} (h : method.Proper) : NamesFit method.leaves :=
  ((namesFit_words h.params).append (Phrase.namesFit h.body)).append h.name.namesFit

theorem ClassPhrase.Proper.namesFit {cls : ClassPhrase} (h : cls.Proper) : NamesFit cls.leaves :=
  (NamesFit.flatMap fun method hm => (h.methods method hm).namesFit).append h.name.namesFit

open Grammar

/-- The string literals among some tokens can be decoded. -/
def LiteralsFit (ts : List Token) : Prop := ∀ body, .text body ∈ ts → ∃ text, Escape.decode body = .ok text

/-- The numeral that a token is. -/
def Token.numeral? : Token → Option String
  | number lexeme => some lexeme
  | _ => none

theorem Lexing.map_fst_numerals (lexing : Lexing) :
    lexing.numerals.map Prod.fst = (tokens lexing.lexemes).filterMap Token.numeral? := by
  rw [numerals, tokens, List.map_filterMap, List.filterMap_map]
  refine congrFun (congrArg List.filterMap (funext fun l => ?_)) _
  obtain ⟨token,offset⟩ := l
  cases token <;> rfl

/-- What becomes of the numerals of a text. Each stands at its place, and only if one is too long can there be anything
but a fault. If the tokens of the text are in order, and the string literals among them can be decoded, then its numerals
are the ones among the tokens and settle what becomes of it. -/
structure NumeralsSettle {α : Type} (source : String) (lexing : Lexing) (valid : List Token → Prop)
    (integers : α → List Int) (result : Except Problem α) : Prop where
  placed : ∀ n ∈ lexing.numerals, n.1.toList <+: source.toList.drop n.2
  explained : Explained lexing.numerals result
  settled : ∀ ts, valid ts → LiteralsFit ts →
    lexing.numerals.map Prod.fst = ts.filterMap Token.numeral? ∧ Settled source lexing.numerals integers result

theorem Grammar.Lexed.placed {source : String} {lexing : Lexing} (h : Lexed 0 source.toList lexing) :
    ∀ n ∈ lexing.numerals, n.1.toList <+: source.toList.drop n.2 := by
  intro n hn
  obtain ⟨⟨token,offset⟩,hl,he⟩ := List.mem_filterMap.1 hn
  cases token with
  | number lexeme =>
    cases he
    obtain ⟨k,_,hk,hp⟩ := h.standsAt hl
    rw [Nat.zero_add] at hk
    exact hk ▸ hp
  | _ => cases he

theorem sound_of_fit {leaves ls : List Lexeme} (hn : NamesFit leaves) (hm : leaves ⊆ ls) (hl : LiteralsFit (tokens ls)) :
    ∀ l ∈ leaves, l.Sound := by
  intro l hleaf
  refine ⟨hn l hleaf,fun body ht => hl body ?_⟩
  rw [← ht]
  exact List.mem_map_of_mem (hm hleaf)

namespace Named

variable {source : String}

theorem explained (source : String) : Explained (Lexing.ofExpr source).numerals (parse source) := by
  rw [parse_eq_map]
  exact explained_of_parse Phrase.checksLeaves id

theorem settled {clause : Clause} (ht : ExprTokens source clause.yield) (hl : LiteralsFit clause.yield) :
    Settled source (Lexing.ofExpr source).numerals integers (parse source) := by
  obtain ⟨hs,hts⟩ := (exprTokens_iff source clause).1 ht
  have hlen : clause.yield.length = (Lexing.ofExpr source).lexemes.length := by rw [← hts, length_tokens]
  have hyield : tokens (Lexing.ofExpr source).lexemes = clause.yield ++ [] := by rw [List.append_nil, hts]
  obtain ⟨phrase,left,hr,hp,hleft⟩ := (complete (Reader.depthBound (Lexing.ofExpr source).lexemes.length)).whole
    hyield nofun (by simp only [Reader.depthBound]; omega)
  obtain rfl := List.map_eq_nil_iff.1 hleft
  have hread := readAll_eq_ok_iff.2 ⟨hs,hr⟩
  rw [parse_eq_map]
  refine settled_of_readAll Phrase.checksLeaves (fun b => Phrase.integers_of_check) hread ?_
  exact sound_of_fit (Phrase.namesFit hp) (Lexing.readAll_covers Phrase.checksLeaves hread).mem (hts ▸ hl)

theorem numeralsSettle (source : String) :
    NumeralsSettle source (.ofExpr source) (fun ts => ExprTokens source ts ∧ ∃ clause : Clause, clause.yield = ts)
      integers (parse source) := by
  refine ⟨(lexed_scan _ _ _ _).placed,explained source,?_⟩
  rintro _ ⟨ht,clause,rfl⟩ hl
  exact ⟨by rw [Lexing.map_fst_numerals, ((exprTokens_iff source clause).1 ht).2],settled ht hl⟩

end Named

namespace Program

variable {source : String}

theorem explained (source : String) : Explained (Lexing.ofProgram source).numerals (parse source) :=
  explained_of_parse ClassPhrase.checksLeaves Program.mk

theorem settled {classes : List ClassTree} (ht : ProgramTokens source (classes.flatMap ClassTree.yield))
    (hl : LiteralsFit (classes.flatMap ClassTree.yield)) :
    Settled source (Lexing.ofProgram source).numerals integers (parse source) := by
  obtain ⟨hs,hts⟩ := (programTokens_iff source classes).1 ht
  have hlen : (classes.flatMap ClassTree.yield).length = (Lexing.ofProgram source).lexemes.length := by
    rw [← hts, length_tokens]
  have hdepth : 4 * (classes.flatMap ClassTree.yield).length + 1 ≤
      Reader.depthBound (Lexing.ofProgram source).lexemes.length := by
    simp only [Reader.depthBound]
    omega
  obtain ⟨phrases,hr,hp⟩ := exists_classes hts hdepth
  have hread := readAll_eq_ok_iff.2 ⟨hs,hr⟩
  refine settled_of_readAll ClassPhrase.checksLeaves (fun b => integers_of_check) hread ?_
  have hfit : NamesFit (phrases.flatMap ClassPhrase.leaves) := .flatMap fun cls hm => (hp cls hm).namesFit
  exact sound_of_fit hfit (Lexing.readAll_covers ClassPhrase.checksLeaves hread).mem (hts ▸ hl)

theorem numeralsSettle (source : String) :
    NumeralsSettle source (.ofProgram source)
      (fun ts => ProgramTokens source ts ∧ ∃ classes : List ClassTree, classes.flatMap ClassTree.yield = ts) integers
      (parse source) := by
  refine ⟨(lexed_scan _ _ _ _).placed,explained source,?_⟩
  rintro _ ⟨ht,classes,rfl⟩ hl
  exact ⟨by rw [Lexing.map_fst_numerals, ((programTokens_iff source classes).1 ht).2],settled ht hl⟩

end Program

end Mica
