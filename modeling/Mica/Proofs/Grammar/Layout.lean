import Mica.Proofs.Grammar.Joining

/-! # Layout

A text consists of its lexemes, each at its offset, and of blanks and comments before, between and after them, as far as
the lexer gets through it.
-/
namespace Mica

/-- The token that is found at the front of a text stands there, and is written as some token is. -/
theorem Region.spelled_of_token? {region : Region} {afterBlock : Bool} {cs : List Char} {token : Token}
    (h : region.token? afterBlock cs = some token) : token.recognised.Spelled ∧ token.lexeme.toList <+: cs := by
  by_cases ho : ∃ word, region.opener = some word ∧ word.toList <+: cs
  · obtain ⟨word,ho,hp⟩ := ho
    rw [token?_of_opener ho hp] at h
    cases h
    rcases eq_of_opener ho with rfl | rfl
    · exact ⟨Token.spelled_keyword (by decide) (by decide),hp⟩
    · exact ⟨Token.spelled_keyword (by decide) (by decide),hp⟩
  · rw [token?_of_not_opener fun word hw hp => ho ⟨word,hw,hp⟩] at h
    obtain ⟨found,hf,rfl⟩ := Option.map_eq_some_iff.1 h
    obtain ⟨hs,hp⟩ := Token.spelled_of_longest? hf
    by_cases he : found = .word "else"
    · subst he
      rw [if_pos rfl]
      cases afterBlock with
      | true => exact ⟨hs,hp⟩
      | false => exact ⟨hs,hp⟩
    · rw [if_neg he]
      exact ⟨hs,hp⟩

theorem Token.Visible.of_recognised {token : Token} (h : token.recognised.Visible) : token.Visible := by
  obtain ⟨c,rest,hl,hc⟩ := h
  exact ⟨c,rest,(congrArg String.toList (lexeme_recognised token)).symm.trans hl,hc⟩

namespace Grammar

/-- Blanks, and comments that end with their line. -/
inductive Gap : List Char → Prop where
  | nil : Gap []
  | blank {c : Char} {cs : List Char} : isLayout c = true → Gap cs → Gap (c :: cs)
  | comment {body cs : List Char} : (∀ c ∈ body, c ≠ '\n') → Gap cs → Gap ('/' :: '/' :: (body ++ '\n' :: cs))

/-- A gap at the end of a text, which may end in a comment. -/
inductive LastGap : List Char → Prop where
  | gap {cs : List Char} : Gap cs → LastGap cs
  | comment {cs body : List Char} : Gap cs → (∀ c ∈ body, c ≠ '\n') → LastGap (cs ++ '/' :: '/' :: body)

/-- A text with some characters before it consists of lexemes and the gaps around them. -/
inductive Laid : Nat → List Char → List Lexeme → Prop where
  | done {offset : Nat} {cs : List Char} : LastGap cs → Laid offset cs []
  | lexeme {offset : Nat} {gap rest : List Char} {token : Token} {ls : List Lexeme} : Gap gap →
      token.recognised.Spelled → Laid (offset + gap.length + token.width) rest ls →
      Laid offset (gap ++ (token.lexeme.toList ++ rest)) (⟨token,offset + gap.length⟩ :: ls)

/-- A text with some characters before it as the lexer takes it: lexemes and the gaps before them, up to the end of the
text or to a character at which the lexer is stuck. -/
inductive Lexed : Nat → List Char → Lexing → Prop where
  | done {offset : Nat} {cs : List Char} : LastGap cs → Lexed offset cs ⟨[],none⟩
  | stuck {offset : Nat} {gap rest : List Char} {c : Char} : Gap gap →
      Lexed offset (gap ++ c :: rest) ⟨[],some (c,offset + gap.length)⟩
  | lexeme {offset : Nat} {gap rest : List Char} {token : Token} {lexing : Lexing} : Gap gap →
      token.recognised.Spelled → Lexed (offset + gap.length + token.width) rest lexing →
      Lexed offset (gap ++ (token.lexeme.toList ++ rest)) (lexing.cons ⟨token,offset + gap.length⟩)

variable {opener : List Token → String → Prop} {before ts : List Token} {gap cs : List Char} {offset : Nat}
  {lexing : Lexing}

theorem Gap.append {more : List Char} (h : Gap gap) (hm : Gap more) : Gap (gap ++ more) := by
  induction h with
  | nil => exact hm
  | blank hl _ ih => exact .blank hl ih
  | comment hb _ ih =>
    rw [List.cons_append, List.cons_append, List.append_assoc, List.cons_append]
    exact .comment hb ih

/-- No part of a name stands where a gap starts. -/
theorem Gap.isNamePart_head {c : Char} (h : Gap (c :: cs)) : Token.isNamePart c = false := by
  cases h with
  | blank hl _ =>
    simp only [isLayout, Bool.or_eq_true, beq_iff_eq] at hl
    rcases hl with (((rfl | rfl) | rfl) | rfl) | rfl <;> rfl
  | comment _ _ => rfl

theorem Gap.splits (h : Gap gap) (hs : Splits opener before cs ts) : Splits opener before (gap ++ cs) ts := by
  induction h with
  | nil => exact hs
  | blank hl _ ih => exact .blank hl ih
  | @comment body rest hb _ ih =>
    have hline : Splits opener before ('/' :: '/' :: (body ++ '\n' :: (rest ++ cs))) ts :=
      .comment hb (fun c hc => (Option.some.inj hc).symm) (.blank rfl ih)
    simpa using hline

theorem LastGap.splits (h : LastGap cs) : Splits opener before cs [] := by
  cases h with
  | gap hg =>
    have hsplit := hg.splits (.done : Splits opener before [] [])
    rwa [List.append_nil] at hsplit
  | @comment gap body hg hb =>
    have hline : Splits opener before ('/' :: '/' :: (body ++ [])) [] := .comment hb nofun .done
    rw [List.append_nil] at hline
    exact hg.splits hline

theorem Gap.lexed (h : Gap gap) (hl : Lexed (offset + gap.length) cs lexing) : Lexed offset (gap ++ cs) lexing := by
  cases hl with
  | done hc =>
    refine .done ?_
    cases hc with
    | gap hg => exact .gap (h.append hg)
    | comment hg hb =>
      rw [← List.append_assoc]
      exact .comment (h.append hg) hb
  | @stuck _ more rest c hg =>
    have hoffset : offset + gap.length + more.length = offset + (gap ++ more).length := by
      rw [List.length_append, Nat.add_assoc]
    rw [hoffset, ← List.append_assoc]
    exact .stuck (h.append hg)
  | @lexeme _ more rest token lexing hg hs hr =>
    have hoffset : offset + gap.length + more.length = offset + (gap ++ more).length := by
      rw [List.length_append, Nat.add_assoc]
    rw [hoffset] at hr ⊢
    rw [← List.append_assoc]
    exact .lexeme (h.append hg) hs hr

theorem lexed_scan (region : Region) (afterBlock : Bool) (offset : Nat) (cs : List Char) :
    Lexed offset cs (Lexing.scan region afterBlock offset 0 cs) := by
  induction hk : cs.length using Nat.strong_induction_on generalizing region afterBlock offset cs with
  | h k ih =>
    subst hk
    cases cs with
    | nil => exact .done (.gap .nil)
    | cons c cs =>
      by_cases hl : isLayout c = true
      · rw [Lexing.scan_blank _ _ _ hl]
        exact Gap.lexed (.blank hl .nil) (ih _ (Nat.lt_succ_self _) _ _ _ _ rfl)
      by_cases hc : startsComment (c :: cs) = true
      · obtain ⟨text,he⟩ := startsComment_iff.1 hc
        obtain ⟨body,rest,rfl,hb,hr⟩ := exists_line text
        rw [he] at ih ⊢
        rw [Lexing.scan_comment _ _ _ hb hr]
        cases rest with
        | nil =>
          rw [List.append_nil]
          exact .done (.comment .nil hb)
        | cons line rest =>
          obtain rfl : line = '\n' := hr line rfl
          rw [Lexing.scan_blank _ _ _ rfl]
          have hrest := ih rest.length (by simp only [List.length_cons, List.length_append]; omega)
            region afterBlock (offset + 1 + (body.length + 1) + 1) rest rfl
          have hgap : Gap ('/' :: '/' :: (body ++ ['\n'])) := .comment hb .nil
          have hoffset : offset + 1 + (body.length + 1) + 1 = offset + ('/' :: '/' :: (body ++ ['\n'])).length := by
            simp only [List.length_cons, List.length_append, List.length_nil]
            omega
          rw [hoffset] at hrest ⊢
          simpa using hgap.lexed hrest
      cases hf : region.token? afterBlock (c :: cs) with
      | none =>
        rw [Lexing.scan_stuck _ _ _ (by simpa using hl) (by simpa using hc) hf]
        exact .stuck .nil
      | some token =>
        obtain ⟨hs,rest,he⟩ := Region.spelled_of_token? hf
        have hv : token.Visible := .of_recognised (Token.visible_of_spelled hs)
        rw [← he] at hf ih ⊢
        rw [Lexing.scan_lexeme _ _ _ hv hf]
        exact .lexeme .nil hs (ih _ (hv.lt_length rest) _ _ _ _ rfl)

theorem Lexed.laid (h : Lexed offset cs lexing) (hs : lexing.stuck = none) : Laid offset cs lexing.lexemes := by
  induction h with
  | done hc => exact .done hc
  | stuck _ => cases hs
  | lexeme hg ht _ ih => exact .lexeme hg ht (ih hs)

/-- A text that the lexer gets through is laid out as the lexer says. -/
theorem laid_of_scan {region : Region} {afterBlock : Bool}
    (h : (Lexing.scan region afterBlock offset 0 cs).stuck = none) :
    Laid offset cs (Lexing.scan region afterBlock offset 0 cs).lexemes :=
  (lexed_scan region afterBlock offset cs).laid h

theorem laid_expr {source : String} {clause : Clause} (h : ExprTokens source clause.yield) :
    tokens (Lexing.ofExpr source).lexemes = clause.yield ∧ Laid 0 source.toList (Lexing.ofExpr source).lexemes := by
  obtain ⟨hs,ht⟩ := (exprTokens_iff source clause).1 h
  exact ⟨ht,laid_of_scan hs⟩

theorem laid_program {source : String} {classes : List ClassTree}
    (h : ProgramTokens source (classes.flatMap ClassTree.yield)) :
    tokens (Lexing.ofProgram source).lexemes = classes.flatMap ClassTree.yield ∧
      Laid 0 source.toList (Lexing.ofProgram source).lexemes := by
  obtain ⟨hs,ht⟩ := (programTokens_iff source classes).1 h
  exact ⟨ht,laid_of_scan hs⟩

end Grammar

end Mica
