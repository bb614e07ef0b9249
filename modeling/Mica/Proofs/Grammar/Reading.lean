import Mica.Proofs.Fallible
import Mica.Proofs.Grammar.Derivation

/-! # Reading

What the reader accepts without a keyword as a name has a greedy derivation, and checking the phrase
gives what the derivation means.
-/
namespace Mica

namespace Reader

variable {α β : Type}

theorem bind_eq_ok_iff {reader : Reader α} {next : α → Reader β} {ls rest : List Lexeme} {b : β} :
    (reader >>= next) ls = .ok b rest ↔ ∃ a mid, reader ls = .ok a mid ∧ next a mid = .ok b rest := by
  simp only [bind, EStateM.bind]
  cases reader ls with
  | error e mid => simp
  | ok a mid => simp

theorem pure_eq_ok_iff {a b : α} {ls rest : List Lexeme} :
    (pure a : Reader α) ls = .ok b rest ↔ a = b ∧ ls = rest := by
  simp [pure, EStateM.pure]

theorem expect_eq_ok_iff {token : Token} {u : Unit} {ls rest : List Lexeme} :
    expect token ls = .ok u rest ↔ ∃ offset, ls = ⟨token,offset⟩ :: rest := by
  cases ls with
  | nil => simp [expect]
  | cons l ls =>
    obtain ⟨found,offset⟩ := l
    by_cases h : found = token
    · simp [expect, h]
    · simp [expect, h]

theorem word_eq_ok_iff {word : Word} {ls rest : List Lexeme} :
    Reader.word ls = .ok word rest ↔ ls = ⟨.word word.text,word.offset⟩ :: rest := by
  unfold Reader.word
  split
  · obtain ⟨text,offset⟩ := word
    simp [and_assoc]
  · next h =>
    simp only [reduceCtorEq, false_iff]
    intro he
    exact h _ _ _ he

end Reader

namespace Grammar

/-- The value of a numeral that is short enough to be looked at. -/
def checkedNumeral (lexeme : String) : Option I32 :=
  if digitLimit < (lexeme.toList.filter Char.isDigit).length then none else readNumeral lexeme

theorem toOption_checkNumeral (lexeme : String) (offset : Nat) :
    (checkNumeral lexeme offset).toOption = (checkedNumeral lexeme).map .i32 := by
  unfold checkNumeral checkedNumeral readNumeral
  split
  · rfl
  · cases I32.ofInt? (numeralValue lexeme) <;> rfl

theorem toOption_checkLiteral (body : String) (offset : Nat) :
    (checkLiteral body offset).toOption = (Escape.decode body).toOption.map .string := by
  unfold checkLiteral
  cases Escape.decode body <;> rfl

end Grammar

namespace Word

def Proper (word : Word) : Prop := word.text ∉ keywords

theorem check_of_proper {word : Word} (h : word.Proper) : word.check = .ok word.text := if_neg h

theorem proper_of_check {word : Word} {text : String} (h : word.check = .ok text) : word.Proper := by
  unfold check at h
  split at h
  · cases h
  · assumption

end Word

namespace Phrase

mutual

/-- No keyword is used as a name. -/
def Proper : Phrase → Prop
  | unit | bool _ | numeral _ _ | literal _ _ => True
  | name word => word.Proper
  | call head receiver args => head.Proper ∧ receiver.Proper ∧ ProperAll args
  | letIn binder bound body => binder.Proper ∧ bound.Proper ∧ body.Proper
  | cond test yes no => test.Proper ∧ ProperAll yes ∧ ProperAll no
  | block steps => ProperAll steps

def ProperAll : List Phrase → Prop
  | [] => True
  | phrase :: phrases => phrase.Proper ∧ ProperAll phrases

end

theorem properAll_iff (phrases : List Phrase) : ProperAll phrases ↔ ∀ phrase ∈ phrases, phrase.Proper := by
  induction phrases with
  | nil => simp [ProperAll]
  | cons phrase phrases ih => rw [ProperAll, ih, List.forall_mem_cons]

theorem properAll_of_checkAll {phrases : List Phrase} {exprs : List Named}
    (h : ∀ phrase ∈ phrases, ∀ expr, phrase.check = .ok expr → phrase.Proper) (hc : checkAll phrases = .ok exprs) :
    ProperAll phrases := by
  rw [checkAll_eq_mapM] at hc
  exact (properAll_iff phrases).2 (Except.forall_mem_of_mapM h hc)

theorem proper_of_check {phrase : Phrase} {expr : Named} (h : phrase.check = .ok expr) : phrase.Proper := by
  induction phrase generalizing expr with
  | unit | bool | numeral | literal => trivial
  | name word =>
    obtain ⟨_,hw,_⟩ := Except.bind_eq_ok_iff.1 h
    exact Word.proper_of_check hw
  | call head receiver args ihr iha =>
    obtain ⟨_,hr,h⟩ := Except.bind_eq_ok_iff.1 h
    obtain ⟨_,ha,h⟩ := Except.bind_eq_ok_iff.1 h
    obtain ⟨_,hw,_⟩ := Except.bind_eq_ok_iff.1 h
    exact ⟨Word.proper_of_check hw,ihr hr,properAll_of_checkAll (fun arg hm _ => iha arg hm) ha⟩
  | letIn binder bound body ihb ihd =>
    obtain ⟨_,hb,h⟩ := Except.bind_eq_ok_iff.1 h
    obtain ⟨_,hd,h⟩ := Except.bind_eq_ok_iff.1 h
    obtain ⟨_,hw,_⟩ := Except.bind_eq_ok_iff.1 h
    exact ⟨Word.proper_of_check hw,ihb hb,ihd hd⟩
  | cond test yes no iht ihy ihn =>
    obtain ⟨_,ht,h⟩ := Except.bind_eq_ok_iff.1 h
    obtain ⟨_,hy,h⟩ := Except.bind_eq_ok_iff.1 h
    obtain ⟨_,hn,_⟩ := Except.bind_eq_ok_iff.1 h
    exact ⟨iht ht,properAll_of_checkAll (fun step hm _ => ihy step hm) hy,
      properAll_of_checkAll (fun step hm _ => ihn step hm) hn⟩
  | block steps ihs =>
    obtain ⟨_,hs,_⟩ := Except.bind_eq_ok_iff.1 h
    exact properAll_of_checkAll (fun step hm _ => ihs step hm) hs

/-! What a phrase with proper names checks to, in terms of its parts. -/

theorem toOption_check_numeral (lexeme : String) (offset : Nat) :
    (numeral lexeme offset).check.toOption =
      (Grammar.checkedNumeral lexeme).map fun number => .lit (.i32 number) := by
  rw [check, Except.toOption_bind, Grammar.toOption_checkNumeral]
  cases Grammar.checkedNumeral lexeme <;> rfl

theorem toOption_check_literal (body : String) (offset : Nat) :
    (literal body offset).check.toOption = (Escape.decode body).toOption.map fun text => .lit (.string text) := by
  rw [check, Except.toOption_bind, Grammar.toOption_checkLiteral]
  cases Escape.decode body <;> rfl

theorem toOption_check_name {word : Word} (h : word.Proper) :
    (name word).check.toOption = some (.var word.text) := by
  rw [check, Word.check_of_proper h]
  rfl

theorem toOption_check_call {head : Word} (h : head.Proper) (receiver : Phrase) (args : List Phrase) :
    (call head receiver args).check.toOption =
      receiver.check.toOption.bind fun first => (checkAll args).toOption.map (.call head.text first) := by
  rw [check, Word.check_of_proper h]
  cases receiver.check <;> cases checkAll args <;> rfl

theorem toOption_check_letIn {binder : Word} (h : binder.Proper) (bound body : Phrase) :
    (letIn binder bound body).check.toOption =
      bound.check.toOption.bind fun first => body.check.toOption.map (.letIn binder.text first) := by
  rw [check, Word.check_of_proper h]
  cases bound.check <;> cases body.check <;> rfl

theorem toOption_check_cond (test : Phrase) (yes no : List Phrase) :
    (cond test yes no).check.toOption =
      test.check.toOption.bind fun test => (checkAll yes).toOption.bind fun yes =>
        (checkAll no).toOption.map fun no => .cond test (.seq yes) (.seq no) := by
  rw [check]
  cases test.check <;> cases checkAll yes <;> cases checkAll no <;> rfl

theorem toOption_check_block (steps : List Phrase) :
    (block steps).check.toOption = (checkAll steps).toOption.map .seq := by
  rw [check]
  cases checkAll steps <;> rfl

theorem toOption_checkAll_cons (phrase : Phrase) (phrases : List Phrase) :
    (checkAll (phrase :: phrases)).toOption =
      phrase.check.toOption.bind fun first => (checkAll phrases).toOption.map (first :: ·) := by
  rw [checkAll_eq_mapM, checkAll_eq_mapM, Except.toOption_mapM_cons]

end Phrase

namespace Grammar

def tokens (ls : List Lexeme) : List Token := ls.map Lexeme.token

@[simp] theorem tokens_nil : tokens [] = [] := rfl

@[simp] theorem tokens_cons (l : Lexeme) (ls : List Lexeme) : tokens (l :: ls) = l.token :: tokens ls := rfl

/-- A derivation stands for the lexemes between `ls` and `rest`, and means what a phrase does. -/
def Clause.ReadAs (clause : Clause) (ls rest : List Lexeme) (phrase : Phrase) : Prop :=
  tokens ls = clause.yield ++ tokens rest ∧ clause.Greedy (tokens rest) ∧
    clause.meaning checkedNumeral = phrase.check.toOption

def Operand.ReadAs (operand : Operand) (ls rest : List Lexeme) (phrase : Phrase) : Prop :=
  tokens ls = operand.yield ++ tokens rest ∧ operand.Greedy (tokens rest) ∧
    operand.meaning checkedNumeral = phrase.check.toOption

def ReadAllAs (operands : List Operand) (ls rest : List Lexeme) (phrases : List Phrase) : Prop :=
  tokens ls = yieldAll operands ++ tokens rest ∧ GreedyAll (tokens rest) operands ∧ Stops (tokens rest) ∧
    operands.length = phrases.length ∧ meaningAll checkedNumeral operands = (Phrase.checkAll phrases).toOption

def ReadStepsAs (steps : List Clause) (ls rest : List Lexeme) (phrases : List Phrase) : Prop :=
  tokens ls = yieldSteps steps ++ tokens rest ∧ GreedySteps (tokens rest) steps ∧
    meaningSteps checkedNumeral steps = (Phrase.checkAll phrases).toOption

/-- What is read to a given depth without a keyword as a name has a greedy derivation. -/
structure Sound (depth : Nat) : Prop where
  expr {ls rest : List Lexeme} {phrase : Phrase} : Reader.expr depth ls = .ok phrase rest →
    phrase.Proper → ∃ clause : Clause, clause.ReadAs ls rest phrase
  atom {ls rest : List Lexeme} {phrase : Phrase} : Reader.atom depth ls = .ok phrase rest →
    phrase.Proper → ∃ operand : Operand, operand.ReadAs ls rest phrase
  parens {ls rest : List Lexeme} {phrase : Phrase} {offset : Nat} : Reader.parens depth ls = .ok phrase rest →
    phrase.Proper → ∃ operand : Operand, operand.ReadAs (⟨.openParen,offset⟩ :: ls) rest phrase
  atoms {ls rest : List Lexeme} {phrases : List Phrase} : Reader.atoms depth ls = .ok phrases rest →
    Phrase.ProperAll phrases → ∃ operands, ReadAllAs operands ls rest phrases
  block {ls rest : List Lexeme} {phrases : List Phrase} : Reader.block depth ls = .ok phrases rest →
    Phrase.ProperAll phrases → ∃ steps, ReadStepsAs steps ls rest phrases
  steps {ls rest : List Lexeme} {phrases : List Phrase} : Reader.steps depth ls = .ok phrases rest →
    Phrase.ProperAll phrases → ∃ first more, ReadStepsAs (first :: more) ls rest phrases

variable {depth : Nat} {ls rest : List Lexeme} {phrase : Phrase} {phrases : List Phrase}

theorem Sound.steps_succ (h : Sound depth) (hr : Reader.steps (depth + 1) ls = .ok phrases rest)
    (hp : Phrase.ProperAll phrases) : ∃ first more, ReadStepsAs (first :: more) ls rest phrases := by
  rw [Reader.steps] at hr
  obtain ⟨first,mid,hf,hm⟩ := Reader.bind_eq_ok_iff.1 hr
  split at hm
  · next offset left =>
    obtain ⟨later,left',hl,he⟩ := Reader.bind_eq_ok_iff.1 hm
    obtain ⟨rfl,rfl⟩ := Reader.pure_eq_ok_iff.1 he
    obtain ⟨clause,hy,hg,hc⟩ := h.expr hf hp.1
    obtain ⟨second,more,hy',hg',hc'⟩ := h.steps hl hp.2
    have hsemi : tokens (⟨.semicolon,offset⟩ :: left) = yieldRest (second :: more) ++ tokens left' := by
      simp [hy', yieldSteps, yieldRest]
    rw [hsemi] at hy hg
    refine ⟨clause,second :: more,by simp [hy, yieldSteps],⟨hg,hg'⟩,?_⟩
    rw [meaningSteps, hc, hc', Phrase.toOption_checkAll_cons]
  · next offset left =>
    cases hm
    obtain ⟨clause,hy,hg,hc⟩ := h.expr hf hp.1
    refine ⟨clause,[],by simp [hy, yieldSteps, yieldRest],⟨hg,trivial⟩,?_⟩
    rw [meaningSteps, hc, Phrase.toOption_checkAll_cons]
    rfl
  · cases hm

theorem Sound.block_succ (h : Sound depth) (hr : Reader.block (depth + 1) ls = .ok phrases rest)
    (hp : Phrase.ProperAll phrases) : ∃ steps, ReadStepsAs steps ls rest phrases := by
  simp only [Reader.block] at hr
  split at hr
  · cases hr
    exact ⟨[],rfl,trivial,rfl⟩
  · obtain ⟨first,more,hs⟩ := h.steps hr hp
    exact ⟨first :: more,hs⟩

theorem opens_of_startsAtom {token : Token} (h : Reader.startsAtom token = false) : opens token = false := by
  cases token with
  | word name =>
    have hn : name = "in" := by simpa [Reader.startsAtom] using h
    subst hn
    decide
  | _ => first | rfl | cases h

theorem Sound.atoms_succ (h : Sound depth) (hr : Reader.atoms (depth + 1) ls = .ok phrases rest)
    (hp : Phrase.ProperAll phrases) : ∃ operands, ReadAllAs operands ls rest phrases := by
  simp only [Reader.atoms] at hr
  split at hr
  · cases hr
    exact ⟨[],rfl,trivial,nofun,rfl,rfl⟩
  · next l left =>
    split at hr
    · obtain ⟨first,mid,hf,hm⟩ := Reader.bind_eq_ok_iff.1 hr
      obtain ⟨later,left',hl,he⟩ := Reader.bind_eq_ok_iff.1 hm
      obtain ⟨rfl,rfl⟩ := Reader.pure_eq_ok_iff.1 he
      obtain ⟨operand,hy,hg,hc⟩ := h.atom hf hp.1
      obtain ⟨operands,hy',hg',hs,hn,hc'⟩ := h.atoms hl hp.2
      rw [hy'] at hy hg
      refine ⟨operand :: operands,by simp [hy, yieldAll],⟨hg,hg'⟩,hs,by simp [hn],?_⟩
      rw [meaningAll, hc, hc', Phrase.toOption_checkAll_cons]
    · next hn =>
      cases hr
      exact ⟨[],rfl,trivial,stops_cons (opens_of_startsAtom (by simpa using hn)) _,rfl,rfl⟩

theorem Sound.parens_succ (h : Sound depth) {offset : Nat} (hr : Reader.parens (depth + 1) ls = .ok phrase rest)
    (hp : phrase.Proper) : ∃ operand : Operand, operand.ReadAs (⟨.openParen,offset⟩ :: ls) rest phrase := by
  simp only [Reader.parens] at hr
  split at hr
  · cases hr
    exact ⟨.unit,rfl,trivial,rfl⟩
  · obtain ⟨inner,mid,hi,hm⟩ := Reader.bind_eq_ok_iff.1 hr
    obtain ⟨_,left,hc,hm⟩ := Reader.bind_eq_ok_iff.1 hm
    obtain ⟨_,rfl⟩ := Reader.expect_eq_ok_iff.1 hc
    obtain ⟨rfl,rfl⟩ := Reader.pure_eq_ok_iff.1 hm
    obtain ⟨clause,hy,hg,hc⟩ := h.expr hi hp
    exact ⟨.parens clause,by simp [hy, Operand.yield],hg,hc⟩

/-- The word of a leader. -/
def leaderText : Reader.Leader → String
  | .truth => "true"
  | .falsity => "false"
  | .choice => "if"
  | .binding => "let"

theorem eq_of_leader {text : String} {leader : Reader.Leader} (h : Reader.Leader.ofWord? text = some leader) :
    text = leaderText leader := by
  unfold Reader.Leader.ofWord? at h
  split at h <;> cases h <;> rfl

theorem Sound.choice_succ (h : Sound depth) {offset : Nat}
    (hr : Reader.atom (depth + 1) (⟨.word "if",offset⟩ :: ls) = .ok phrase rest) (hp : phrase.Proper) :
    ∃ operand : Operand, operand.ReadAs (⟨.word "if",offset⟩ :: ls) rest phrase := by
  simp only [Reader.atom, Reader.Leader.ofWord?, Reader.bind_eq_ok_iff, Reader.expect_eq_ok_iff,
    Reader.pure_eq_ok_iff] at hr
  obtain ⟨_,_,⟨_,rfl⟩,test,_,ht,_,_,⟨_,rfl⟩,_,_,⟨_,rfl⟩,yes,_,hy,_,_,⟨_,rfl⟩,_,_,⟨_,rfl⟩,no,_,hn,rfl,rfl⟩ := hr
  obtain ⟨clause,hyt,hgt,hct⟩ := h.expr ht hp.1
  obtain ⟨steps,hyy,hgy,hcy⟩ := h.block hy hp.2.1
  obtain ⟨steps',hyn,hgn,hcn⟩ := h.block hn hp.2.2
  simp only [tokens_cons, hyn] at hyy hgy
  simp only [tokens_cons, hyy] at hyt hgt
  refine ⟨.choice clause steps steps',by simp [hyt, Operand.yield],⟨hgt,hgy,hgn⟩,?_⟩
  rw [Operand.meaning, hct, hcy, hcn, Phrase.toOption_check_cond]

theorem Sound.letIn_succ (h : Sound depth) {offset : Nat}
    (hr : Reader.atom (depth + 1) (⟨.word "let",offset⟩ :: ls) = .ok phrase rest) (hp : phrase.Proper) :
    ∃ operand : Operand, operand.ReadAs (⟨.word "let",offset⟩ :: ls) rest phrase := by
  simp only [Reader.atom, Reader.Leader.ofWord?, Reader.bind_eq_ok_iff, Reader.expect_eq_ok_iff,
    Reader.word_eq_ok_iff, Reader.pure_eq_ok_iff] at hr
  obtain ⟨binder,_,rfl,_,_,⟨_,rfl⟩,bound,_,hb,_,_,⟨_,rfl⟩,body,_,hd,rfl,rfl⟩ := hr
  obtain ⟨clause,hyb,hgb,hcb⟩ := h.expr hb hp.2.1
  obtain ⟨clause',hyd,hgd,hcd⟩ := h.expr hd hp.2.2
  simp only [tokens_cons, hyd] at hyb hgb
  refine ⟨.letIn ⟨binder.text,hp.1⟩ clause clause',by simp [hyb, Operand.yield, Ident.token],⟨hgb,hgd⟩,?_⟩
  rw [Operand.meaning, hcb, hcd, Phrase.toOption_check_letIn hp.1]

theorem Sound.atom_succ (h : Sound depth) (hr : Reader.atom (depth + 1) ls = .ok phrase rest)
    (hp : phrase.Proper) : ∃ operand : Operand, operand.ReadAs ls rest phrase := by
  cases ls with
  | nil => cases hr
  | cons l left =>
    obtain ⟨token,offset⟩ := l
    cases token with
    | number lexeme =>
      cases hr
      exact ⟨.number lexeme,rfl,trivial,(Phrase.toOption_check_numeral lexeme offset).symm⟩
    | text body =>
      cases hr
      exact ⟨.text body,rfl,trivial,(Phrase.toOption_check_literal body offset).symm⟩
    | openBrace =>
      obtain ⟨steps,mid,hb,hm⟩ := Reader.bind_eq_ok_iff.1 hr
      obtain ⟨rfl,rfl⟩ := Reader.pure_eq_ok_iff.1 hm
      obtain ⟨clauses,hy,hg,hc⟩ := h.block hb hp
      exact ⟨.block clauses,by simp [hy, Operand.yield],hg,by rw [Operand.meaning, hc, Phrase.toOption_check_block]⟩
    | openParen => exact h.parens hr hp
    | word text =>
      cases hl : Reader.Leader.ofWord? text with
      | none =>
        simp only [Reader.atom, hl] at hr
        cases hr
        exact ⟨.var ⟨text,hp⟩,rfl,trivial,(Phrase.toOption_check_name hp).symm⟩
      | some leader =>
        obtain rfl := eq_of_leader hl
        cases leader with
        | truth =>
          cases hr
          exact ⟨.bool true,rfl,trivial,rfl⟩
        | falsity =>
          cases hr
          exact ⟨.bool false,rfl,trivial,rfl⟩
        | choice => exact h.choice_succ hr hp
        | binding => exact h.letIn_succ hr hp
    | _ => cases hr

theorem Ident.leader_eq_none (name : Ident) : Reader.Leader.ofWord? name.text = none := by
  cases h : Reader.Leader.ofWord? name.text with
  | none => rfl
  | some leader =>
    have hk : name.text ∈ keywords := by
      rw [eq_of_leader h]
      cases leader <;> decide
    exact absurd hk name.not_keyword

/-- A result made from a first member and the others can be had from the list of all. -/
theorem bind_map_eq_uncons {α β : Type} (first : Option α) (others : Option (List α)) (f : α → List α → β) :
    (first.bind fun a => others.map (f a)) =
      (first.bind fun a => others.map (a :: ·)).bind fun
        | [] => none
        | a :: as => some (f a as) := by
  cases first <;> cases others <;> rfl

theorem Sound.expr_succ (h : Sound depth) (hr : Reader.expr (depth + 1) ls = .ok phrase rest)
    (hp : phrase.Proper) : ∃ clause : Clause, clause.ReadAs ls rest phrase := by
  simp only [Reader.expr] at hr
  split at hr
  · next text offset left =>
    split at hr
    · next hl =>
      obtain ⟨operand,hy,hg,hc⟩ := h.atom hr hp
      refine ⟨.operand operand,hy,⟨?_,hg⟩,hc⟩
      rintro name rfl
      obtain ⟨hw,_⟩ := List.cons.inj hy
      obtain rfl := Token.word.inj hw
      simp [name.leader_eq_none] at hl
    · split at hr
      · next left' ha =>
        cases hr
        obtain ⟨operands,hy,_,hs,hn,_⟩ := h.atoms ha trivial
        obtain rfl := List.length_eq_zero_iff.1 hn
        exact ⟨.operand (.var ⟨text,hp⟩),by simp [hy, yieldAll, Clause.yield, Operand.yield, Ident.token],
          ⟨fun _ _ => hs,trivial⟩,(Phrase.toOption_check_name hp).symm⟩
      · next receiver args left' ha =>
        cases hr
        obtain ⟨operands,hy,hg,hs,hn,hc⟩ := h.atoms ha hp.2
        obtain ⟨operand,operands,rfl⟩ := List.exists_cons_of_length_eq_add_one hn
        refine ⟨.call ⟨text,hp.1⟩ operand operands,?_,⟨hs,hg⟩,?_⟩
        · simp [hy, yieldAll, Clause.yield, Ident.token]
        · rw [Clause.meaning, bind_map_eq_uncons, ← meaningAll, hc, Phrase.toOption_checkAll_cons,
            ← bind_map_eq_uncons, Phrase.toOption_check_call hp.1]
      · cases hr
  · next hw =>
    obtain ⟨operand,hy,hg,hc⟩ := h.atom hr hp
    refine ⟨.operand operand,hy,⟨?_,hg⟩,hc⟩
    rintro name rfl
    cases ls with
    | nil => cases hy
    | cons l left =>
      obtain ⟨ht,_⟩ := List.cons.inj hy
      exact (hw name.text l.offset left (by rw [← show l.token = .word name.text from ht])).elim

theorem sound (depth : Nat) : Sound depth := by
  induction depth with
  | zero =>
    constructor
    all_goals
      intro ls rest
      intros
      contradiction
  | succ depth ih =>
    exact ⟨ih.expr_succ,ih.atom_succ,ih.parens_succ,ih.atoms_succ,ih.block_succ,ih.steps_succ⟩

end Grammar

end Mica
