import Mica.Proofs.Grammar.Printing
import Mica.Run

/-! # Joining texts

What a text splits into does not depend on the tokens before it, as long as the lexer looks for the same words, nor on
what follows it after a line break. So the classes of two texts with a line break between them are those of the first
text and then those of the second, and an expression reads the same as the body of a method.
-/
namespace Mica

namespace Token

theorem head_of_takeWhile {p : Char → Bool} {cs rest : List Char} (hs : ∀ c ∈ cs, p c = true)
    (h : (cs ++ rest).takeWhile p = cs) : ∀ c, rest.head? = some c → p c = false := by
  intro c hc
  obtain ⟨more,rfl⟩ := List.head?_eq_some_iff.1 hc
  rw [List.takeWhile_append_of_pos hs, List.append_right_eq_self] at h
  by_contra hp
  rw [List.takeWhile_cons_of_pos (by simpa using hp)] at h
  cases h

/-- The token that is found at the front of a text that starts with a longest token has the same characters. -/
theorem Longest.toList_found {token found : Token} {cs : List Char} (h : token.Longest cs)
    (hf : longest? cs = some found) : found.lexeme.toList = token.lexeme.toList := by
  obtain ⟨other,ho,hr⟩ := longest_iff.1 h
  rw [hf] at ho
  cases ho
  rw [← hr, lexeme_recognised]

/-- Nothing that follows a longest token could be a part of it. -/
theorem Longest.ends {token : Token} {rest : List Char} (h : token.Longest (token.lexeme.toList ++ rest)) :
    token.Ends rest := by
  cases token with
  | word name =>
    obtain ⟨⟨c,cs,hn,hc,hs⟩,_⟩ := h.spelled
    have hl : (word name).lexeme.toList = c :: cs := hn
    have hf := h.toList_found (by rw [hl, List.cons_append, longest?_name hc])
    rw [hl, lexeme, String.toList_ofList] at hf
    exact head_of_takeWhile hs (List.cons.inj hf).2
  | otherwise =>
    have hs : ∀ d ∈ ['l','s','e'], isNamePart d = true := List.all_eq_true.1 (by decide)
    have hf := h.toList_found (by rw [toList_otherwise, List.cons_append, longest?_name rfl])
    rw [toList_otherwise, lexeme, String.toList_ofList] at hf
    exact head_of_takeWhile hs (List.cons.inj hf).2
  | number numeral =>
    obtain ⟨sign,c,cs,hn,hsign,hc,hs⟩ := h.spelled
    have hl : (number numeral).lexeme.toList = sign ++ c :: cs := hn
    have hlong : longest? (sign ++ c :: (cs ++ rest)) =
        some (number (String.ofList (sign ++ c :: (cs ++ rest).takeWhile isDigitPart))) := by
      simp only [List.mem_cons, List.not_mem_nil, or_false] at hsign
      rcases hsign with rfl | rfl | rfl
      · exact longest?_digit hc _
      · exact longest?_signed (.inl rfl) hc _
      · exact longest?_signed (.inr rfl) hc _
    have hf := h.toList_found (by rw [hl, List.append_assoc, List.cons_append, hlong])
    rw [hl, lexeme, String.toList_ofList] at hf
    exact head_of_takeWhile hs (List.cons.inj (List.append_cancel_left hf)).2
  | _ => trivial

theorem Ends.append_line {token : Token} {rest : List Char} (h : token.Ends rest) (more : List Char) :
    token.Ends (rest ++ '\n' :: more) := by
  have hhead {p : Char → Bool} (hp : p '\n' = false) (hr : ∀ c, rest.head? = some c → p c = false) :
      ∀ c, (rest ++ '\n' :: more).head? = some c → p c = false := by
    cases rest with
    | nil =>
      rintro _ ⟨⟩
      exact hp
    | cons first rest => exact hr
  cases token with
  | word name => exact hhead rfl h
  | otherwise => exact hhead rfl h
  | number numeral => exact hhead rfl h
  | _ => trivial

/-- Between the space and the next blank character lie all those that can start a token. -/
theorem toNat_of_isBlank {c : Char} (h : Text.isBlank c = true) : c.toNat ≤ 32 ∨ 133 ≤ c.toNat := by
  simp only [Text.isBlank, Text.blankRanges, List.any_cons, List.any_nil, Bool.or_eq_true, Bool.and_eq_true,
    decide_eq_true_eq, Bool.false_eq_true, or_false] at h
  omega

theorem isNameStart_of_isBlank {c : Char} (h : Text.isBlank c = true) : isNameStart c = false := by
  have hrange := toNat_of_isBlank h
  have htoNat : c.toNat = c.val.toNat := rfl
  rw [Bool.eq_false_iff]
  intro hn
  unfold isNameStart Char.isAlpha Char.isUpper Char.isLower at hn
  simp only [Bool.or_eq_true, Bool.and_eq_true, decide_eq_true_eq, ge_iff_le, UInt32.le_iff_toNat_le, Char.reduceVal,
    UInt32.reduceToNat, beq_iff_eq] at hn
  rcases hn with hn | rfl
  · omega
  · exact absurd hrange (by decide)

theorem isDigit_of_isBlank {c : Char} (h : Text.isBlank c = true) : c.isDigit = false := by
  have hrange := toNat_of_isBlank h
  have htoNat : c.toNat = c.val.toNat := rfl
  rw [Bool.eq_false_iff]
  intro hn
  simp only [Char.isDigit, Bool.and_eq_true, decide_eq_true_eq, ge_iff_le, UInt32.le_iff_toNat_le, Char.reduceVal,
    UInt32.reduceToNat] at hn
  omega

theorem longest?_of_isBlank {c : Char} (h : Text.isBlank c = true) (cs : List Char) : longest? (c :: cs) = none := by
  have hrange := toNat_of_isBlank h
  unfold longest?
  split
  case h_1 he => cases he
  case h_9 he =>
    cases he
    have hsign : ¬ (c = '+' ∨ c = '-') := by
      rintro (rfl | rfl)
      · exact absurd hrange (by decide)
      · exact absurd hrange (by decide)
    rw [if_neg (by simp [isNameStart_of_isBlank h]), if_neg (by simp [isDigit_of_isBlank h]), if_neg hsign]
  all_goals
    next he =>
      cases he
      exact absurd hrange (by decide)

end Token

namespace Grammar

variable {opener opener' : List Token → String → Prop} {start start' : Region} {before before' ts us : List Token}
  {cs rest : List Char}

/-! ## Splitting -/

theorem prefix_of_prefix_line {word : List Char} (h : '\n' ∉ word) (hp : word <+: cs ++ '\n' :: rest) :
    word <+: cs := by
  rcases Nat.lt_or_ge cs.length word.length with hl | hl
  · have hline : cs ++ ['\n'] <+: cs ++ '\n' :: rest := ⟨rest,by simp⟩
    have hle : (cs ++ ['\n']).length ≤ word.length := by
      rw [List.length_append, List.length_singleton]
      omega
    have hin := List.prefix_of_prefix_length_le hline hp hle
    exact absurd (hin.subset (by simp)) h
  · exact List.prefix_of_prefix_length_le hp (List.prefix_append cs _) hl

/-- A text followed by a line break splits into its own tokens first. -/
theorem Splits.append_line (hw : ∀ before word, opener before word → '\n' ∉ word.toList)
    (h : Splits opener before cs ts) (hr : Splits opener (before ++ ts) ('\n' :: rest) us) :
    Splits opener before (cs ++ '\n' :: rest) (ts ++ us) := by
  induction h with
  | done => simpa using hr
  | blank hl _ ih => exact .blank hl (ih hr)
  | @comment before ts body cs hb hc _ ih =>
    have hc' (c : Char) (h : (cs ++ '\n' :: rest).head? = some c) : c = '\n' := by
      cases cs with
      | nil => exact (Option.some.inj h).symm
      | cons first cs => exact hc c h
    rw [List.cons_append, List.cons_append, List.append_assoc]
    exact .comment hb hc' (ih hr)
  | opening ho _ ih =>
    rw [List.append_assoc]
    exact .opening ho (ih (by simpa using hr))
  | @token before ts token cs ho hl _ ih =>
    rw [List.append_assoc]
    refine .token (fun word hword hp => ?_) (Token.longest_of_ends hl.spelled (hl.ends.append_line rest))
      (ih (by simpa using hr))
    rw [← List.append_assoc] at hp
    exact ho word hword (prefix_of_prefix_line (hw before word hword) hp)

theorem steered_append :
    Steered opener start before (ts ++ us) ↔
      Steered opener start before ts ∧ Steered opener start (before ++ ts) us := by
  induction ts generalizing before with
  | nil => simp [Steered]
  | cons token ts ih =>
    rw [List.cons_append, Steered, Steered, ih, List.append_assoc]
    simp only [List.singleton_append, and_assoc]

/-- A text splits alike after other tokens when they lead to the same region. -/
theorem Splits.transport (h : Splits opener before cs ts) (hs : Steered opener start before ts)
    (hs' : Steered opener' start' before' ts) (hr : start.afterAll before = start'.afterAll before') :
    Splits opener' before' cs ts := by
  induction h generalizing before' with
  | done => exact .done
  | blank hl _ ih => exact .blank hl (ih hs hs' hr)
  | comment hb hc _ ih => exact .comment hb hc (ih hs hs' hr)
  | opening ho _ ih =>
    obtain ⟨hw,_,_,_,hs⟩ := hs
    obtain ⟨hw',_,_,_,hs'⟩ := hs'
    have ho' := (hw _).1 ho
    rw [hr] at ho'
    exact .opening ((hw' _).2 ho') (ih hs hs' (by simp [hr]))
  | token ho hl _ ih =>
    obtain ⟨hw,_,_,_,hs⟩ := hs
    obtain ⟨hw',_,_,_,hs'⟩ := hs'
    refine .token (fun word hword => ho word ?_) hl (ih hs hs' (by simp [hr]))
    rw [hw, hr, ← hw']
    exact hword

/-- Tokens with a space after each of them, in front of a text. -/
theorem splits_front (hs : Steered opener start before (ts ++ us)) (h : ∀ token ∈ ts, token.Spelled)
    (hr : Splits opener (before ++ ts) cs us) :
    Splits opener before (ts.flatMap (fun token => token.lexeme.toList ++ [' ']) ++ cs) (ts ++ us) := by
  induction ts generalizing before with
  | nil => simpa using hr
  | cons token ts ih =>
    obtain ⟨ht,hts⟩ := List.forall_mem_cons.1 h
    have hrest := ih hs.2.2.2.2 hts (by simpa using hr)
    rw [List.flatMap_cons, List.append_assoc, List.append_assoc]
    exact splits_separated hs ht (by simp) (.blank rfl hrest)

/-- Where no word opens anything, a text starts with the longest token there. -/
theorem Splits.exists_of_longest {token : Token} (h : Splits (fun _ _ => False) before cs ts) (hl : token.Longest cs) :
    ∃ us, ts = token :: us := by
  obtain ⟨found,hf,hr⟩ := Token.longest_iff.1 hl
  cases h with
  | done => cases hf
  | blank hb _ =>
    rw [Token.longest?_of_isLayout hb] at hf
    cases hf
  | comment _ _ _ => cases hf
  | opening ho _ => exact ho.elim
  | @token _ us other _ _ hl' _ =>
    obtain ⟨found',hf',hr'⟩ := Token.longest_iff.1 hl'
    rw [hf] at hf'
    cases hf'
    exact ⟨us,by rw [← hr, hr']⟩

theorem Splits.trimStart (h : Splits (fun _ _ => False) before cs ts) :
    Splits (fun _ _ => False) before (Text.trimStart cs) ts := by
  induction cs with
  | nil => exact h
  | cons c cs ih =>
    rw [Text.trimStart, List.dropWhile_cons]
    split
    next hb =>
      refine ih ?_
      generalize he : c :: cs = text at h
      cases h with
      | done => cases he
      | blank _ hrest =>
        cases he
        exact hrest
      | comment _ _ _ =>
        cases he
        exact absurd hb (by decide)
      | opening ho _ => exact ho.elim
      | token _ hl _ =>
        obtain ⟨found,hf,_⟩ := Token.longest_iff.1 hl
        rw [← he, Token.longest?_of_isBlank hb] at hf
        cases hf
    next => exact h

theorem line_not_mem_of_opens {word : String} (h : Opens before word) : '\n' ∉ word.toList := by
  rcases Region.eq_of_opener (opener_of_opens h) with rfl | rfl
  · decide
  · decide

/-! ## Attachment -/

section Greedy

variable {rest rest' : List Token}

theorem stops_append (h : Stops rest → Stops rest') (ts : List Token) : Stops (ts ++ rest) → Stops (ts ++ rest') := by
  cases ts with
  | nil => exact h
  | cons token ts => exact fun hs found hf => hs found hf

/-- Whether a clause is greedy depends on what follows only in so far as it could be an operand. -/
def Clause.Lasting (clause : Clause) : Prop :=
  ∀ ⦃rest rest' : List Token⦄, (Stops rest → Stops rest') → clause.Greedy rest → clause.Greedy rest'

def Operand.Lasting (operand : Operand) : Prop :=
  ∀ ⦃rest rest' : List Token⦄, (Stops rest → Stops rest') → operand.Greedy rest → operand.Greedy rest'

theorem lastingAll {operands : List Operand} (ho : ∀ operand ∈ operands, operand.Lasting) (h : Stops rest → Stops rest')
    (hg : GreedyAll rest operands) : GreedyAll rest' operands := by
  induction operands with
  | nil => trivial
  | cons operand operands ih =>
    obtain ⟨hf,hr⟩ := List.forall_mem_cons.1 ho
    exact ⟨hf (stops_append h _) hg.1,ih hr hg.2⟩

theorem lastingSteps {steps : List Clause} (hs : ∀ step ∈ steps, step.Lasting) (hg : GreedySteps rest steps) :
    GreedySteps rest' steps := by
  induction steps with
  | nil => trivial
  | cons step steps ih =>
    obtain ⟨hf,hr⟩ := List.forall_mem_cons.1 hs
    exact ⟨hf (fun _ => Named.stops_yieldRest steps rest') hg.1,ih hr hg.2⟩

theorem Clause.lasting (clause : Clause) : clause.Lasting := by
  refine (induct (P := Clause.Lasting) (Q := Operand.Lasting)
    ?call ?operand ?unit ?parens ?bool ?block ?text ?number ?letIn ?choice ?var).1 clause
  case call =>
    intro name receiver args hr ha rest rest' h hg
    exact ⟨h hg.1,hr (stops_append h _) hg.2.1,lastingAll ha h hg.2.2⟩
  case operand =>
    intro operand ho rest rest' h hg
    exact ⟨fun name he => h (hg.1 name he),ho h hg.2⟩
  case parens =>
    intro inner hi rest rest' _ hg
    exact hi (fun _ => stops_cons rfl rest') hg
  case block =>
    intro steps hs rest rest' _ hg
    exact lastingSteps hs hg
  case letIn =>
    intro name bound body hb hd rest rest' h hg
    exact ⟨hb (fun _ => stops_cons (by decide) _) hg.1,hd h hg.2⟩
  case choice =>
    intro test yes no ht hy hn rest rest' _ hg
    exact ⟨ht (fun _ => stops_cons rfl _) hg.1,lastingSteps hy hg.2.1,lastingSteps hn hg.2.2⟩
  case unit =>
    exact fun _ _ _ _ => trivial
  case bool =>
    exact fun _ _ _ _ _ => trivial
  case text =>
    exact fun _ _ _ _ _ => trivial
  case number =>
    exact fun _ _ _ _ _ => trivial
  case var =>
    exact fun _ _ _ _ _ => trivial

theorem GreedyMethods.lasting {methods : List MethodTree} (h : GreedyMethods rest methods) :
    GreedyMethods rest' methods := by
  induction methods with
  | nil => trivial
  | cons method methods ih => exact ⟨method.body.lasting (fun _ => stops_cons rfl _) h.1,ih h.2⟩

theorem GreedyClasses.append {classes more : List ClassTree} (h : GreedyClasses classes) (hm : GreedyClasses more) :
    GreedyClasses (classes ++ more) := by
  induction classes with
  | nil => exact hm
  | cons cls classes ih => exact ⟨h.1.lasting,ih h.2⟩

end Greedy

theorem programMeaning_append {read : String → Option I32} {classes more : List ClassTree} {program other : Program}
    (h : programMeaning read classes = some program) (hm : programMeaning read more = some other) :
    programMeaning read (classes ++ more) = some ⟨program.classes ++ other.classes⟩ := by
  obtain ⟨first,hf,rfl⟩ := Option.map_eq_some_iff.1 h
  obtain ⟨second,hs,rfl⟩ := Option.map_eq_some_iff.1 hm
  rw [programMeaning, List.mapM_append, hf, hs]
  rfl

end Grammar

open Grammar

/-- Two programs with a line break between them are a program, with the classes of the one and then those of the
other. -/
theorem Program.parse_append_line {source other : String} {program more : Program}
    (h : Program.parse source = .ok program) (hm : Program.parse other = .ok more) :
    Program.parse (source ++ "\n" ++ other) = .ok ⟨program.classes ++ more.classes⟩ := by
  obtain ⟨trees,ht,hg,hp⟩ := Program.parse_eq_ok_iff.1 h
  obtain ⟨trees',ht',hg',hp'⟩ := Program.parse_eq_ok_iff.1 hm
  refine Program.parse_eq_ok_iff.2 ⟨trees ++ trees',?_,hg.append hg',programMeaning_append hp hp'⟩
  have hnext : Splits Opens (trees.flatMap ClassTree.yield) other.toList (trees'.flatMap ClassTree.yield) :=
    ht'.transport (steered_classes [] trees') (steered_classes trees trees') (afterAll_classes trees).symm
  have hjoin := Splits.append_line (fun _ _ => line_not_mem_of_opens) ht (.blank rfl hnext)
  rw [ProgramTokens, List.flatMap_append]
  simpa using hjoin

/-- A text as the body of the entry method of a program's only class. -/
def mainText (source : String) : String := "class Main \x7b def main = " ++ source ++ "\n; \x7d"

/-- The program that such a text stands for. -/
def mainProgram (expr : Named) : Program := ⟨[⟨"Main",[⟨"main",[],expr⟩]⟩]⟩

def mainTokens : List Token := [.word "class",.word "Main",.openBrace,.word "def",.word "main",.equals]

theorem spelled_mainTokens : ∀ token ∈ mainTokens, token.Spelled := by
  have hclass : (Token.word "Main").Spelled := ⟨⟨'M',_,rfl,by decide,List.all_eq_true.1 (by decide)⟩,by decide⟩
  have hmethod : (Token.word "main").Spelled := ⟨⟨'m',_,rfl,by decide,List.all_eq_true.1 (by decide)⟩,by decide⟩
  have hopens : (Token.word "class").Spelled := Token.spelled_keyword (by decide) (by decide)
  have hdef : (Token.word "def").Spelled := Token.spelled_keyword (by decide) (by decide)
  simp only [mainTokens, List.forall_mem_cons]
  exact ⟨hopens,hclass,trivial,hdef,hmethod,trivial,nofun⟩

theorem toList_mainText (source : String) :
    (mainText source).toList = mainTokens.flatMap (fun token => token.lexeme.toList ++ [' ']) ++
      (source.toList ++ '\n' :: (Token.semicolon.lexeme.toList ++ ' ' :: (Token.closeBrace.lexeme.toList ++ []))) := by
  have hfront : "class Main \x7b def main = ".toList =
      mainTokens.flatMap fun token => token.lexeme.toList ++ [' '] := by decide
  have hback : "\n; \x7d".toList =
      '\n' :: (Token.semicolon.lexeme.toList ++ ' ' :: (Token.closeBrace.lexeme.toList ++ [])) := by decide
  have happend (front back : String) :
      (front ++ source ++ back).toList = front.toList ++ (source.toList ++ back.toList) := by simp
  exact (happend _ _).trans (congrArg₂ (fun front back => front ++ (source.toList ++ back)) hfront hback)

theorem yield_mainTree (clause : Clause) :
    [ClassTree.mk ⟨"Main",by decide⟩ [⟨⟨"main",by decide⟩,[],clause⟩]].flatMap ClassTree.yield =
      mainTokens ++ (clause.yield ++ [.semicolon,.closeBrace]) := by
  simp [ClassTree.yield, MethodTree.yield, mainTokens, Ident.token]

/-- An expression is accepted as the body of a method, and as the same tree. -/
theorem Program.parse_mainText {source : String} {expr : Named} (h : Named.parse source = .ok expr) :
    Program.parse (mainText source) = .ok (mainProgram expr) := by
  obtain ⟨clause,ht,hg,hm⟩ := Named.parse_eq_ok_iff.1 h
  refine Program.parse_eq_ok_iff.2 ⟨[⟨⟨"Main",by decide⟩,[⟨⟨"main",by decide⟩,[],clause⟩]⟩],?_,?_,?_⟩
  · have hs := steered_classes [] [⟨⟨"Main",by decide⟩,[⟨⟨"main",by decide⟩,[],clause⟩]⟩]
    rw [ProgramTokens, toList_mainText]
    rw [yield_mainTree] at hs ⊢
    obtain ⟨hsbody,hstail⟩ := steered_append.1 (steered_append.1 hs).2
    have hbody : Splits Opens mainTokens source.toList clause.yield := ht.transport clause.steered hsbody rfl
    have htail := splits_separated hstail trivial (by simp)
      (.blank (c := ' ') rfl (splits_separated hstail.2.2.2.2 trivial (by simp) .done))
    exact splits_front hs spelled_mainTokens
      (hbody.append_line (fun _ _ => line_not_mem_of_opens) (.blank rfl htail))
  · exact ⟨⟨clause.lasting (fun _ => stops_cons rfl _) hg,trivial⟩,trivial⟩
  · simp [programMeaning, ClassTree.meaning, MethodTree.meaning, hm, mainProgram]

/-- No text of an expression starts with the word that opens a class. -/
theorem Named.startsClass_of_parse {source : String} {expr : Named} (h : Named.parse source = .ok expr) :
    startsClass source = false := by
  obtain ⟨clause,ht,_,_⟩ := Named.parse_eq_ok_iff.1 h
  rw [Bool.eq_false_iff]
  intro hs
  obtain ⟨hp,hn⟩ := Bool.and_eq_true_iff.1 hs
  obtain ⟨rest,hrest⟩ := List.isPrefixOf_iff_prefix.1 hp
  rw [← hrest] at hn
  have hends : (Token.word "class").Ends rest := by
    intro c hc
    simpa [hc] using hn
  have hlongest := Token.longest_of_ends (Token.spelled_keyword (by decide) (by decide)) hends
  have hsplit := ht.trimStart
  rw [← hrest] at hsplit
  obtain ⟨us,hy⟩ := hsplit.exists_of_longest hlongest
  have hopens : opens (.word "class") = false := by decide
  exact cons_ne_yield hopens clause us [] (by rw [List.append_nil, hy])

end Mica
