import Mica.Proofs.Grammar.Layout
import Mica.Session.Dialogue

/-! # Open brackets

Whether a typed text goes on is decided by a scanner that looks at single characters. On a text that is accepted it counts
what the lexer finds: at the end of every token its depth is the number of brackets that have been opened and not yet
closed. At the end of the text none is open, so that no complete text is held back. A text in which brackets are open is
held back however often it is continued: a line break and the spaces after it change nothing, wherever the text stops.
-/
namespace Mica

open Grammar

namespace Brackets

def opening : Token → Bool
  | .openBrace | .openParen => true
  | _ => false

def closing : Token → Bool
  | .closeBrace | .closeParen => true
  | _ => false

/-- The number of opening brackets among some tokens less that of closing ones. -/
def balance (ts : List Token) : Int := ts.countP opening - ts.countP closing

/-- The closing brackets that are awaited after one more token, the next one first. A closing bracket has to be the one
that is awaited. -/
def await (awaited : List Token) (token : Token) : Option (List Token) :=
  match token with
  | .openBrace => some (.closeBrace :: awaited)
  | .openParen => some (.closeParen :: awaited)
  | .closeBrace | .closeParen => if awaited.head? = some token then some awaited.tail else none
  | _ => some awaited

theorem balance_append (ts us : List Token) : balance (ts ++ us) = balance ts + balance us := by
  simp only [balance, List.countP_append]
  omega

theorem balance_cons (token : Token) (ts : List Token) : balance (token :: ts) = balance [token] + balance ts :=
  balance_append [token] ts

theorem balance_recognised (token : Token) : balance [token.recognised] = balance [token] := by
  unfold Token.recognised
  split <;> rfl

/-! ## What the tokens say -/

theorem length_of_await {awaited after : List Token} {token : Token} (h : await awaited token = some after) :
    (after.length : Int) = awaited.length + balance [token] := by
  have hclose (ht : balance [token] = -1)
      (hc : (if awaited.head? = some token then some awaited.tail else none) = some after) :
      (after.length : Int) = awaited.length + balance [token] := by
    obtain ⟨hhead,rfl⟩ : awaited.head? = some token ∧ awaited.tail = after := by simpa using hc
    obtain ⟨rest,rfl⟩ := List.head?_eq_some_iff.1 hhead
    rw [ht, List.tail_cons, List.length_cons]
    omega
  cases token with
  | openBrace =>
    cases h
    rfl
  | openParen =>
    cases h
    rfl
  | closeBrace => exact hclose rfl h
  | closeParen => exact hclose rfl h
  | _ =>
    cases h
    exact (Int.add_zero _).symm

/-- As many brackets are open as have been opened less those that have been closed. -/
theorem length_of_foldlM_await {ts awaited after : List Token} (h : ts.foldlM await awaited = some after) :
    (after.length : Int) = awaited.length + balance ts := by
  induction ts generalizing awaited with
  | nil =>
    cases h
    exact (Int.add_zero _).symm
  | cons token ts ih =>
    rw [List.foldlM_cons] at h
    obtain ⟨mid,hm,hr⟩ := Option.bind_eq_some_iff.1 h
    have hfirst := length_of_await hm
    have hrest := ih hr
    rw [balance_cons]
    omega

/-- Tokens in which every bracket that is opened is closed, by a bracket of its kind and in the right order. -/
def Matched (ts : List Token) : Prop := ∀ awaited, ts.foldlM await awaited = some awaited

theorem matched_nil : Matched [] := fun _ => rfl

theorem Matched.append {ts us : List Token} (h : Matched ts) (h' : Matched us) : Matched (ts ++ us) := by
  intro awaited
  rw [List.foldlM_append, h awaited]
  exact h' awaited

theorem Matched.cons {token : Token} {ts : List Token} (ho : opening token = false) (hc : closing token = false)
    (h : Matched ts) : Matched (token :: ts) := by
  intro awaited
  have hplain : await awaited token = some awaited := by
    cases token with
    | openBrace => cases ho
    | openParen => cases ho
    | closeBrace => cases hc
    | closeParen => cases hc
    | _ => rfl
  rw [List.foldlM_cons, hplain]
  exact h awaited

theorem Matched.parens {ts : List Token} (h : Matched ts) : Matched (.openParen :: (ts ++ [.closeParen])) := by
  intro awaited
  have hinner : (ts ++ [Token.closeParen]).foldlM await (.closeParen :: awaited) = some awaited := by
    rw [List.foldlM_append, h]
    rfl
  exact hinner

/-- Tokens that close a brace. -/
def Closes (ts : List Token) : Prop := ∀ awaited, ts.foldlM await (.closeBrace :: awaited) = some awaited

theorem closes_brace : Closes [.closeBrace] := fun _ => rfl

theorem Closes.matched {ts : List Token} (h : Closes ts) : Matched (.openBrace :: ts) := h

theorem Matched.append_closes {ts us : List Token} (h : Matched ts) (h' : Closes us) : Closes (ts ++ us) := by
  intro awaited
  rw [List.foldlM_append, h]
  exact h' awaited

theorem matchedAll {operands : List Operand} (h : ∀ operand ∈ operands, Matched operand.yield) :
    Matched (yieldAll operands) := by
  induction operands with
  | nil => exact matched_nil
  | cons operand operands ih =>
    obtain ⟨ho,hs⟩ := List.forall_mem_cons.1 h
    exact ho.append (ih hs)

theorem closesRest {steps : List Clause} (h : ∀ step ∈ steps, Matched step.yield) : Closes (yieldRest steps) := by
  induction steps with
  | nil => exact closes_brace
  | cons step steps ih =>
    obtain ⟨hf,hs⟩ := List.forall_mem_cons.1 h
    exact (Matched.cons rfl rfl hf).append_closes (ih hs)

theorem closesSteps {steps : List Clause} (h : ∀ step ∈ steps, Matched step.yield) : Closes (yieldSteps steps) := by
  cases steps with
  | nil => exact closes_brace
  | cons step steps =>
    obtain ⟨hf,hs⟩ := List.forall_mem_cons.1 h
    exact hf.append_closes (closesRest hs)

theorem matched_clause (clause : Clause) : Matched clause.yield := by
  refine (induct (P := fun clause => Matched clause.yield) (Q := fun operand => Matched operand.yield)
    ?call ?operand ?unit ?parens ?bool ?block ?text ?number ?letIn ?choice ?var).1 clause
  case call =>
    intro name receiver args hr ha
    exact .cons rfl rfl (hr.append (matchedAll ha))
  case operand =>
    intro operand ho
    exact ho
  case unit =>
    exact matched_nil.parens
  case parens =>
    intro inner hi
    exact hi.parens
  case bool =>
    intro flag
    exact .cons rfl rfl matched_nil
  case block =>
    intro steps hs
    exact (closesSteps hs).matched
  case text =>
    intro body
    exact .cons rfl rfl matched_nil
  case number =>
    intro lexeme
    exact .cons rfl rfl matched_nil
  case letIn =>
    intro name bound body hb hd
    exact .cons rfl rfl (.cons rfl rfl (.cons rfl rfl (hb.append (.cons rfl rfl hd))))
  case choice =>
    intro test yes no ht hy hn
    have hno : Matched (.otherwise :: .openBrace :: yieldSteps no) := .cons rfl rfl (closesSteps hn).matched
    have hif : Matched (.word "if" :: _) := .cons rfl rfl (ht.parens.append ((closesSteps hy).matched.append hno))
    simpa [Operand.yield] using hif
  case var =>
    intro name
    exact .cons rfl rfl matched_nil

theorem matched_method (method : MethodTree) : Matched method.yield := by
  have hparams : Matched (method.params.map Ident.token) := by
    induction method.params with
    | nil => exact matched_nil
    | cons param params ih => exact .cons rfl rfl ih
  have hbody : Matched (method.body.yield ++ [.semicolon]) := (matched_clause _).append (.cons rfl rfl matched_nil)
  exact .cons rfl rfl (.cons rfl rfl (hparams.append (.cons rfl rfl hbody)))

theorem matched_flatMap {α : Type} {f : α → List Token} (h : ∀ a, Matched (f a)) (as : List α) :
    Matched (as.flatMap f) := by
  induction as with
  | nil => exact matched_nil
  | cons a as ih => exact (h a).append ih

theorem matched_class (cls : ClassTree) : Matched cls.yield := by
  have hmethods := (matched_flatMap matched_method cls.methods).append_closes closes_brace
  exact .cons rfl rfl (.cons rfl rfl hmethods.matched)

/-! ## What the scanner sees -/

/-- A character that the scanner passes over outside strings and comments. -/
def Plain (c : Char) : Prop := modeAfter .code c = .code ∧ weight c = 0

theorem plain_of_ne {c : Char} (hq : c ≠ '"') (hs : c ≠ '/') (hb : c ∉ ['\x7b','(','\x7d',')']) : Plain c := by
  simp only [List.mem_cons, List.not_mem_nil, or_false, not_or] at hb
  obtain ⟨hb₁,hb₂,hb₃,hb₄⟩ := hb
  constructor
  · rw [modeAfter, if_neg hq, if_neg hs]
  · rw [weight, if_neg (by simp [hb₁, hb₂]), if_neg (by simp [hb₃, hb₄])]

theorem plain_of_isNamePart {c : Char} (h : Token.isNamePart c = true) : Plain c := by
  have hne (d : Char) (hd : Token.isNamePart d = false) : c ≠ d := by
    rintro rfl
    rw [h] at hd
    cases hd
  refine plain_of_ne (hne _ rfl) (hne _ rfl) ?_
  simp only [List.mem_cons, List.not_mem_nil, or_false, not_or]
  exact ⟨hne _ rfl,hne _ rfl,hne _ rfl,hne _ rfl⟩

theorem plain_of_isLayout {c : Char} (h : isLayout c = true) : Plain c := by
  simp only [isLayout, Bool.or_eq_true, beq_iff_eq] at h
  rcases h with (((rfl | rfl) | rfl) | rfl) | rfl <;> exact ⟨rfl,rfl⟩

theorem foldl_step_plain {cs : List Char} (h : ∀ c ∈ cs, Plain c) (depth : Int) :
    cs.foldl step ⟨.code,depth⟩ = ⟨.code,depth⟩ := by
  induction cs with
  | nil => rfl
  | cons c cs ih =>
    obtain ⟨⟨hm,hw⟩,hs⟩ := List.forall_mem_cons.1 h
    have hstep : step ⟨.code,depth⟩ c = ⟨.code,depth⟩ := by
      simp only [step, hm, hw, Int.add_zero]
    rw [List.foldl_cons, hstep, ih hs]

theorem foldl_step_token {token : Token} (hb : balance [token] = 0) (h : ∀ c ∈ token.lexeme.toList, Plain c) (depth : Int) :
    token.lexeme.toList.foldl step ⟨.code,depth⟩ = ⟨.code,depth + balance [token]⟩ := by
  rw [foldl_step_plain h, hb, Int.add_zero]

theorem step_slashes (depth : Int) : step (step ⟨.code,depth⟩ '/') '/' = ⟨.comment,depth⟩ := by
  simp [step, modeAfter, weight]

theorem foldl_step_comment {cs : List Char} (h : ∀ c ∈ cs, c ≠ '\n') (depth : Int) :
    cs.foldl step ⟨.comment,depth⟩ = ⟨.comment,depth⟩ := by
  induction cs with
  | nil => rfl
  | cons c cs ih =>
    obtain ⟨hc,hs⟩ := List.forall_mem_cons.1 h
    have hstep : step ⟨.comment,depth⟩ c = ⟨.comment,depth⟩ := by
      simp only [step, modeAfter, if_neg hc]
    rw [List.foldl_cons, hstep, ih hs]

/-- A backslash and what follows it never end a string, for the scanner as for the lexer. -/
theorem foldl_step_literal {cs : List Char} (h : Token.IsLiteral cs) (depth : Int) :
    cs.foldl step ⟨.string,depth⟩ = ⟨.string,depth⟩ := by
  induction h with
  | nil => rfl
  | @plain c cs hq hb hn _ ih =>
    have hstep : step ⟨.string,depth⟩ c = ⟨.string,depth⟩ := by
      simp only [step, modeAfter, if_neg (not_or.2 ⟨hq,hn⟩), if_neg hb]
    rw [List.foldl_cons, hstep, ih]
  | escaped _ _ ih =>
    rw [List.foldl_cons, List.foldl_cons]
    exact ih

theorem foldl_step_spelled {token : Token} (h : token.Spelled) (depth : Int) :
    token.lexeme.toList.foldl step ⟨.code,depth⟩ = ⟨.code,depth + balance [token]⟩ := by
  cases token with
  | word name =>
    obtain ⟨⟨c,rest,hn,hc,hr⟩,_⟩ := h
    have hstart : Token.isNamePart c = true := by
      rcases Bool.or_eq_true_iff.1 hc with ha | hu
      · simp [Token.isNamePart, Char.isAlphanum, ha]
      · simp [Token.isNamePart, hu]
    have hplain : ∀ d ∈ (Token.word name).lexeme.toList, Plain d := by
      rw [Token.lexeme, hn]
      exact List.forall_mem_cons.2 ⟨plain_of_isNamePart hstart,fun d hd => plain_of_isNamePart (hr d hd)⟩
    exact foldl_step_token rfl hplain depth
  | number lexeme =>
    obtain ⟨sign,c,rest,hn,hs,hc,hr⟩ := h
    have hdigits : ∀ d ∈ c :: rest, Plain d := by
      refine List.forall_mem_cons.2 ⟨plain_of_isNamePart ?_,fun d hd => ?_⟩
      · exact Token.isNamePart_of_isDigitPart (by simp [Token.isDigitPart, hc])
      · exact plain_of_isNamePart (Token.isNamePart_of_isDigitPart (hr d hd))
    have hsign : ∀ d ∈ sign, Plain d := by
      simp only [List.mem_cons, List.not_mem_nil, or_false] at hs
      rcases hs with rfl | rfl | rfl
      · exact fun d hd => absurd hd List.not_mem_nil
      · exact List.forall_mem_singleton.2 ⟨rfl,rfl⟩
      · exact List.forall_mem_singleton.2 ⟨rfl,rfl⟩
    have hplain : ∀ d ∈ (Token.number lexeme).lexeme.toList, Plain d := by
      rw [Token.lexeme, hn]
      exact List.forall_mem_append.2 ⟨hsign,hdigits⟩
    exact foldl_step_token rfl hplain depth
  | text body =>
    rw [Token.toList_text, List.foldl_cons, List.foldl_append]
    have hopen : step ⟨.code,depth⟩ '"' = ⟨.string,depth⟩ := congrArg (State.mk .string) (Int.add_zero depth)
    rw [hopen, foldl_step_literal h]
    exact congrArg (State.mk .code) (Int.add_zero depth).symm
  | otherwise =>
    have hplain : ∀ d ∈ Token.otherwise.lexeme.toList, Plain d :=
      fun d hd => plain_of_isNamePart (List.all_eq_true.1 (by decide) d hd)
    exact foldl_step_token rfl hplain depth
  | _ => rfl

theorem foldl_step_lexeme {token : Token} (h : token.recognised.Spelled) (depth : Int) :
    token.lexeme.toList.foldl step ⟨.code,depth⟩ = ⟨.code,depth + balance [token]⟩ := by
  have hspelled := foldl_step_spelled h depth
  rwa [Token.lexeme_recognised, balance_recognised] at hspelled

theorem foldl_step_gap {cs : List Char} (h : Gap cs) (depth : Int) : cs.foldl step ⟨.code,depth⟩ = ⟨.code,depth⟩ := by
  induction h with
  | nil => rfl
  | @blank c cs hl _ ih =>
    have hblank := foldl_step_plain (List.forall_mem_singleton.2 (plain_of_isLayout hl)) depth
    rw [List.foldl_cons]
    exact (congrArg (cs.foldl step) hblank).trans ih
  | @comment body cs hb _ ih =>
    rw [List.foldl_cons, List.foldl_cons, step_slashes, List.foldl_append, foldl_step_comment hb, List.foldl_cons]
    exact ih

theorem depth_lastGap {cs : List Char} (h : LastGap cs) (depth : Int) :
    (cs.foldl step ⟨.code,depth⟩).depth = depth := by
  cases h with
  | gap hg => rw [foldl_step_gap hg]
  | comment hg hb =>
    rw [List.foldl_append, foldl_step_gap hg, List.foldl_cons, List.foldl_cons, step_slashes, foldl_step_comment hb]

/-- Over a whole text the scanner finds the brackets that the lexer finds. -/
theorem depth_of_laid {offset : Nat} {cs : List Char} {ls : List Lexeme} (h : Laid offset cs ls) (depth : Int) :
    (cs.foldl step ⟨.code,depth⟩).depth = depth + balance (tokens ls) := by
  induction h generalizing depth with
  | done hg => exact (depth_lastGap hg depth).trans (Int.add_zero depth).symm
  | @lexeme _ gap rest token ls hg hs _ ih =>
    have hcons : balance (token :: tokens ls) = balance [token] + balance (tokens ls) := balance_cons token (tokens ls)
    rw [List.foldl_append, List.foldl_append, foldl_step_gap hg, foldl_step_lexeme hs, ih, tokens_cons, hcons,
      Int.add_assoc]

/-- At the end of each token it has found those of the tokens so far, and is inside neither a string nor a comment. -/
theorem exists_upTo {offset : Nat} {cs : List Char} {front back : List Lexeme} {lexeme : Lexeme}
    (h : Laid offset cs (front ++ lexeme :: back)) :
    ∃ before after, cs = before ++ after ∧ offset + before.length = lexeme.offset + lexeme.token.width ∧
      ∀ depth, before.foldl step ⟨.code,depth⟩ = ⟨.code,depth + balance (tokens (front ++ [lexeme]))⟩ := by
  induction front generalizing offset cs with
  | nil =>
    cases h with
    | @lexeme _ gap rest token _ hg hs _ =>
      refine ⟨gap ++ token.lexeme.toList,rest,by simp,?_,fun depth => ?_⟩
      · rw [List.length_append, Token.width_eq_length, Nat.add_assoc]
      · rw [List.foldl_append, foldl_step_gap hg, foldl_step_lexeme hs]
        rfl
  | cons first front ih =>
    cases h with
    | @lexeme _ gap rest token _ hg hs hr =>
      obtain ⟨before,after,rfl,hoffset,hfold⟩ := ih hr
      refine ⟨gap ++ (token.lexeme.toList ++ before),after,by simp,?_,fun depth => ?_⟩
      · rw [List.length_append, List.length_append, ← Token.width_eq_length]
        omega
      · have hcons := balance_cons token (tokens (front ++ [lexeme]))
        rw [List.foldl_append, List.foldl_append, foldl_step_gap hg, foldl_step_lexeme hs, hfold, List.cons_append,
          tokens_cons, hcons, Int.add_assoc]

/-! ## Agreement -/

/-- The text up to the end of a lexeme. -/
def upTo (source : String) (lexeme : Lexeme) : String :=
  String.ofList (source.toList.take (lexeme.offset + lexeme.token.width))

/-- No bracket is open at the end of a text. At the end of each of its lexemes the scanner has the depth that the tokens so
far amount to, which is the number of brackets that are still open. -/
structure Agrees (source : String) (lexemes : List Lexeme) : Prop where
  closed : depth source = 0
  within {front back : List Lexeme} {lexeme : Lexeme} : lexemes = front ++ lexeme :: back →
    depth (upTo source lexeme) = balance (tokens (front ++ [lexeme])) ∧ 0 ≤ depth (upTo source lexeme) ∧
      ∃ awaited, (tokens (front ++ [lexeme])).foldlM await [] = some awaited ∧
        depth (upTo source lexeme) = awaited.length

theorem exists_awaited {ts us : List Token} (h : Matched (ts ++ us)) : ∃ awaited, ts.foldlM await [] = some awaited := by
  have hall := h []
  rw [List.foldlM_append] at hall
  obtain ⟨awaited,ha,_⟩ := Option.bind_eq_some_iff.1 hall
  exact ⟨awaited,ha⟩

theorem agrees_of_laid {source : String} {ls : List Lexeme} (h : Laid 0 source.toList ls) (hm : Matched (tokens ls)) :
    Agrees source ls := by
  constructor
  · have hbalance : (0 : Int) = 0 + balance (tokens ls) := length_of_foldlM_await (hm [])
    exact (depth_of_laid h 0).trans hbalance.symm
  · intro front back lexeme hls
    subst hls
    obtain ⟨before,after,hsource,hoffset,hfold⟩ := exists_upTo h
    have hupTo : (upTo source lexeme).toList = before := by
      rw [upTo, String.toList_ofList, ← hoffset, Nat.zero_add, hsource, List.take_left]
    have hdepth : depth (upTo source lexeme) = balance (tokens (front ++ [lexeme])) := by
      rw [depth, hupTo, scan, hfold 0, Int.zero_add]
    have hsplit : tokens (front ++ lexeme :: back) = tokens (front ++ [lexeme]) ++ tokens back := by
      simp [tokens]
    rw [hsplit] at hm
    obtain ⟨awaited,ha⟩ := exists_awaited hm
    have hlength : depth (upTo source lexeme) = awaited.length := by
      rw [hdepth, length_of_foldlM_await ha, List.length_nil]
      omega
    exact ⟨hdepth,by omega,awaited,ha,hlength⟩

theorem agrees_expr {source : String} {expr : Named} (h : Named.parse source = .ok expr) :
    Agrees source (Lexing.ofExpr source).lexemes := by
  obtain ⟨clause,ht,_⟩ := Named.parse_eq_ok_iff.1 h
  obtain ⟨htokens,hlaid⟩ := laid_expr ht
  exact agrees_of_laid hlaid (htokens ▸ matched_clause clause)

theorem agrees_program {source : String} {program : Program} (h : Program.parse source = .ok program) :
    Agrees source (Lexing.ofProgram source).lexemes := by
  obtain ⟨classes,ht,_⟩ := Program.parse_eq_ok_iff.1 h
  obtain ⟨htokens,hlaid⟩ := laid_program ht
  exact agrees_of_laid hlaid (htokens ▸ matched_flatMap matched_class classes)

end Brackets

/-- A buffer in which no bracket is open is accepted. -/
theorem Dialogue.accept_of_depth {buffer : String} (h : Brackets.depth buffer = 0) {depth : Nat} {session : Session}
    {keys : List Key} {transcript : Transcript} (hf : follow depth session buffer (.enter :: keys) = some transcript) :
    ∃ out err, transcript.events.head? = some ⟨.accept,buffer,out,err⟩ := by
  rw [follow, h, if_neg (Int.lt_irrefl 0)] at hf
  cases ha : session.enter depth buffer with
  | none =>
    rw [ha] at hf
    cases hf
  | some answer =>
    simp only [ha] at hf
    cases he : answer.escapes with
    | some problem =>
      simp only [he] at hf
      cases hf
      exact ⟨answer.out,answer.err,rfl⟩
    | none =>
      simp only [he] at hf
      obtain ⟨rest,_,rfl⟩ := Option.map_eq_some_iff.1 hf
      exact ⟨answer.out,answer.err,rfl⟩

namespace Brackets

/-- On every text that is accepted, as an expression or as a program, the scanner agrees with the lexer: no bracket is open
at its end, and at the end of each token as many as the tokens so far have opened and not closed. So the enter key hands
every complete text over. -/
theorem agrees_of_parse (source : String) :
    (∀ expr, Named.parse source = .ok expr → Agrees source (Lexing.ofExpr source).lexemes) ∧
    (∀ program, Program.parse source = .ok program → Agrees source (Lexing.ofProgram source).lexemes) ∧
    ((∃ expr, Named.parse source = .ok expr) ∨ (∃ program, Program.parse source = .ok program) →
      ∀ depth session keys transcript, Dialogue.follow depth session source (.enter :: keys) = some transcript →
        ∃ out err, transcript.events.head? = some ⟨.accept,source,out,err⟩) := by
  refine ⟨fun _ => agrees_expr,fun _ => agrees_program,?_⟩
  rintro (⟨expr,h⟩ | ⟨program,h⟩) depth session keys transcript hf
  · exact Dialogue.accept_of_depth (agrees_expr h).closed hf
  · exact Dialogue.accept_of_depth (agrees_program h).closed hf

/-- Brackets in a string and in comments, a quotation mark in a comment, and the marks of a comment in a string. -/
def guardedText : String := "\x7b println \"\\\"(\\\\\" ; // \x7d\"\n (f \"//\") \x7d // ("

def guardedClass : String := "// \x7b\"\nclass A \x7b def m = \x7b \"(\"; () \x7d ; \x7d // ("

theorem agrees_of_parse_guarded :
    Named.parse guardedText =
      .ok (.seq [.call "println" (.lit (.string "\"(\\")) [],.call "f" (.lit (.string "//")) []]) ∧
    Program.parse guardedClass = .ok ⟨[⟨"A",[⟨"m",[],.seq [.lit (.string "("),.lit .unit]⟩]⟩]⟩ ∧
    depth guardedText = 0 ∧ depth guardedClass = 0 ∧ depth (upTo guardedText ⟨.openParen,27⟩) = 2 ∧
    ∃ transcript, Dialogue.follow 9 (.start false) guardedText [.enter] = some transcript ∧
      ∃ out err, transcript.events.head? = some ⟨.accept,guardedText,out,err⟩ := by
  have hexpr : Named.parse guardedText =
      .ok (.seq [.call "println" (.lit (.string "\"(\\")) [],.call "f" (.lit (.string "//")) []]) := by
    decide +kernel
  have hprogram : Program.parse guardedClass = .ok ⟨[⟨"A",[⟨"m",[],.seq [.lit (.string "("),.lit .unit]⟩]⟩]⟩ := by
    decide +kernel
  have hlexemes : (Lexing.ofExpr guardedText).lexemes =
      [⟨.openBrace,0⟩,⟨.word "println",2⟩,⟨.text "\\\"(\\\\",10⟩,⟨.semicolon,18⟩] ++ ⟨.openParen,27⟩ ::
        [⟨.word "f",28⟩,⟨.text "//",30⟩,⟨.closeParen,34⟩,⟨.closeBrace,36⟩] := by decide +kernel
  have hran : (Dialogue.follow 9 (.start false) guardedText [.enter]).isSome = true := by decide +kernel
  obtain ⟨transcript,ht⟩ := Option.isSome_iff_exists.1 hran
  obtain ⟨ofExpr,ofProgram,accepted⟩ := agrees_of_parse guardedText
  have hagrees := ofExpr _ hexpr
  exact ⟨hexpr,hprogram,hagrees.closed,((agrees_of_parse guardedClass).2.1 _ hprogram).closed,
    (hagrees.within hlexemes).1,transcript,ht,accepted (.inl ⟨_,hexpr⟩) _ _ _ _ ht⟩

/-! ## Going on -/

theorem depth_step {c : Char} (h : weight c = 0) (state : State) : (step state c).depth = state.depth := by
  obtain ⟨mode,depth⟩ := state
  cases mode with
  | code => exact (congrArg (depth + ·) h).trans (Int.add_zero depth)
  | slash => exact (congrArg (depth + ·) h).trans (Int.add_zero depth)
  | _ => rfl

/-- Characters that are no brackets keep the depth, whatever the scanner is inside of, though it may then be inside of
something else. -/
theorem depth_foldl_step {cs : List Char} (h : ∀ c ∈ cs, weight c = 0) (state : State) :
    (cs.foldl step state).depth = state.depth := by
  induction cs generalizing state with
  | nil => rfl
  | cons c cs ih =>
    obtain ⟨hc,hs⟩ := List.forall_mem_cons.1 h
    rw [List.foldl_cons, ih hs, depth_step hc]

/-- A line break and some spaces after it. -/
def lineBreak (spaces : Nat) : String := String.ofList ('\n' :: List.replicate spaces ' ')

theorem weight_of_mem_lineBreak {spaces : Nat} {c : Char} (h : c ∈ (lineBreak spaces).toList) : weight c = 0 := by
  rw [lineBreak, String.toList_ofList] at h
  rcases List.mem_cons.1 h with rfl | h
  · rfl
  · rw [List.eq_of_mem_replicate h]
    rfl

theorem depth_append_lineBreak (text : String) (spaces : Nat) : depth (text ++ lineBreak spaces) = depth text := by
  rw [depth, depth, scan, scan, String.toList_append, List.foldl_append]
  exact depth_foldl_step (fun _ => weight_of_mem_lineBreak) _

end Brackets

namespace Dialogue

open Brackets

/-- What some presses of the enter key add to a buffer in which as many brackets are open as given. -/
def lineBreaks (brackets presses : Nat) : String := String.join (List.replicate presses (lineBreak (4 * brackets)))

theorem lineBreaks_succ (brackets presses : Nat) :
    lineBreaks brackets (presses + 1) = lineBreak (4 * brackets) ++ lineBreaks brackets presses := by
  rw [lineBreaks, List.replicate_succ, String.join_cons, lineBreaks]

theorem depth_append_lineBreaks (buffer : String) (brackets presses : Nat) :
    Brackets.depth (buffer ++ lineBreaks brackets presses) = Brackets.depth buffer := by
  induction presses generalizing buffer with
  | zero => rw [lineBreaks, List.replicate_zero, String.join_nil, String.append_empty]
  | succ presses ih => rw [lineBreaks_succ, ← String.append_assoc, ih, depth_append_lineBreak]

/-- While brackets are open the enter key only adds to the buffer. -/
theorem follow_enter {buffer : String} {brackets : Nat} (hp : 0 < brackets) (hd : Brackets.depth buffer = brackets)
    (depth : Nat) (session : Session) (keys : List Key) :
    follow depth session buffer (.enter :: keys) = follow depth session (buffer ++ lineBreak (4 * brackets)) keys := by
  rw [follow, hd, if_pos (Int.natCast_pos.2 hp)]
  rfl

theorem follow_enters {buffer : String} {brackets : Nat} (hp : 0 < brackets) (hd : Brackets.depth buffer = brackets)
    (presses depth : Nat) (session : Session) (keys : List Key) :
    follow depth session buffer (List.replicate presses .enter ++ keys) =
      follow depth session (buffer ++ lineBreaks brackets presses) keys := by
  induction presses generalizing buffer with
  | zero => rw [lineBreaks, List.replicate_zero, List.replicate_zero, String.join_nil, String.append_empty, List.nil_append]
  | succ presses ih =>
    have hnext : Brackets.depth (buffer ++ lineBreak (4 * brackets)) = brackets := (depth_append_lineBreak _ _).trans hd
    rw [List.replicate_succ, List.cons_append, follow_enter hp hd, ih hnext, lineBreaks_succ, String.append_assoc]

/-- A line break and any number of spaces keep the depth of a text, wherever the text stops. So while brackets are open in
a buffer, each of any number of presses of the enter key adds a line break and four spaces for every open bracket, always
the same number of them, and the buffer is not accepted: if no other key follows, nothing happens before it is closed. -/
theorem enter_keeps_depth (buffer : String) :
    (∀ spaces, Brackets.depth (buffer ++ lineBreak spaces) = Brackets.depth buffer) ∧
    ∀ brackets : Nat, 0 < brackets → Brackets.depth buffer = brackets → ∀ presses,
      Brackets.depth (buffer ++ lineBreaks brackets presses) = brackets ∧
      (∀ depth session keys, follow depth session buffer (List.replicate presses .enter ++ keys) =
        follow depth session (buffer ++ lineBreaks brackets presses) keys) ∧
      ∀ depth session, follow depth session buffer (List.replicate presses .enter) =
        some (closing (buffer ++ lineBreaks brackets presses)) := by
  refine ⟨depth_append_lineBreak buffer,fun brackets hp hd presses => ?_⟩
  refine ⟨(depth_append_lineBreaks buffer brackets presses).trans hd,follow_enters hp hd presses,?_⟩
  intro depth session
  have hall := follow_enters hp hd presses depth session []
  rwa [List.append_nil] at hall

/-- Two brackets are open, and the text stops after a backslash in a string, which hides the line break from the string. -/
def halfEscaped : String := "\x7b println (concat \"a)\\"

theorem enter_keeps_depth_halfEscaped :
    Brackets.depth halfEscaped = 2 ∧ Brackets.depth (halfEscaped ++ lineBreak 3) = Brackets.depth halfEscaped ∧
    follow 9 (.start false) halfEscaped [.enter,.enter] =
      some (closing (halfEscaped ++ "\n        \n        ")) := by
  have hd : Brackets.depth halfEscaped = (2 : Nat) := by decide +kernel
  obtain ⟨hspaces,hpresses⟩ := enter_keeps_depth halfEscaped
  have hadded : lineBreaks 2 2 = "\n        \n        " := by decide +kernel
  have hend := (hpresses 2 (by decide) hd 2).2.2 9 (.start false)
  rw [hadded] at hend
  exact ⟨hd,hspaces 3,hend⟩

end Dialogue

end Mica
