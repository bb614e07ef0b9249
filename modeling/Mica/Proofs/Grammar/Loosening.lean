import Mica.Proofs.Grammar.Layout

/-! # Loosening

Blanks and whole lines of comment can be put into a text at its ends and between its tokens, in as many places as one
likes, and the text reads as before. Tokens that touched are found one by one as they were, since each of them ends
where a gap starts, and a word that opens something is still the first thing there.
-/
namespace Mica

namespace Token

theorem Ends.of_head?_eq {token : Token} {cs ds : List Char} (h : token.Ends cs) (hd : ds.head? = cs.head?) :
    token.Ends ds := by
  cases token with
  | word name => exact fun c hc => h c (hd ▸ hc)
  | otherwise => exact fun c hc => h c (hd ▸ hc)
  | number numeral => exact fun c hc => h c (hd ▸ hc)
  | _ => trivial

theorem Visible.isLayout_head {token : Token} (h : token.Visible) {c : Char} {cs rest : List Char}
    (he : token.lexeme.toList ++ rest = c :: cs) : isLayout c = false ∧ c ≠ '/' := by
  obtain ⟨first,more,hl,hv⟩ := h
  rw [hl] at he
  obtain rfl := (List.cons.inj he).1
  exact hv

end Token

namespace Grammar

/-- A text, some lexemes with their places in it, and the same text with layout put in. It can be put in anywhere but
inside a lexeme or a comment. -/
inductive Loosened : Nat → List Char → List Lexeme → List Char → Prop where
  | done {offset : Nat} : Loosened offset [] [] []
  | blank {offset : Nat} {c : Char} {cs ds : List Char} {ls : List Lexeme} : isLayout c = true →
      Loosened (offset + 1) cs ls ds → Loosened offset (c :: cs) ls (c :: ds)
  | comment {offset : Nat} {body cs ds : List Char} {ls : List Lexeme} : (∀ c ∈ body, c ≠ '\n') →
      (∀ c, cs.head? = some c → c = '\n') → Loosened (offset + 2 + body.length) cs ls ds →
      Loosened offset ('/' :: '/' :: (body ++ cs)) ls ('/' :: '/' :: (body ++ ds))
  | lexeme {offset : Nat} {token : Token} {cs ds : List Char} {ls : List Lexeme} :
      Loosened (offset + token.width) cs ls ds →
      Loosened offset (token.lexeme.toList ++ cs) (⟨token,offset⟩ :: ls) (token.lexeme.toList ++ ds)
  | layout {offset : Nat} {gap cs ds : List Char} {ls : List Lexeme} : Gap gap → Loosened offset cs ls ds →
      Loosened offset cs ls (gap ++ ds)

section Splits

variable {opener : List Token → String → Prop} {before ts : List Token} {cs : List Char}

/-- A blank at the front of a text belongs to no token. -/
theorem Splits.of_blank (ho : ∀ before word, opener before word → (Token.word word).Spelled) {c : Char}
    (hc : isLayout c = true) (h : Splits opener before (c :: cs) ts) : Splits opener before cs ts := by
  generalize he : c :: cs = text at h
  cases h with
  | done => cases he
  | blank _ hr =>
    cases he
    exact hr
  | comment _ _ _ =>
    cases he
    cases hc
  | opening hw _ =>
    have hv := (Token.visible_of_spelled (ho _ _ hw)).isLayout_head he.symm
    rw [hv.1] at hc
    cases hc
  | token _ hl _ =>
    have hv := (Token.visible_of_spelled hl.spelled).isLayout_head he.symm
    rw [hv.1] at hc
    cases hc

/-- A comment at the front of a text belongs to no token. -/
theorem Splits.of_comment (ho : ∀ before word, opener before word → (Token.word word).Spelled) {body : List Char}
    (hb : ∀ c ∈ body, c ≠ '\n') (hr : ∀ c, cs.head? = some c → c = '\n')
    (h : Splits opener before ('/' :: '/' :: (body ++ cs)) ts) : Splits opener before cs ts := by
  generalize he : '/' :: '/' :: (body ++ cs) = text at h
  cases h with
  | done => cases he
  | blank hc _ =>
    cases he
    cases hc
  | @comment _ _ body' cs' hb' hr' hs =>
    have htext : body ++ cs = body' ++ cs' := (List.cons.inj (List.cons.inj he).2).2
    have hbody : body = body' := by rw [← Lexing.takeWhile_line hb hr, htext, Lexing.takeWhile_line hb' hr']
    rw [hbody] at htext
    rwa [List.append_cancel_left htext]
  | opening hw _ =>
    have hv := (Token.visible_of_spelled (ho _ _ hw)).isLayout_head he.symm
    exact absurd rfl hv.2
  | token _ hl _ =>
    have hv := (Token.visible_of_spelled hl.spelled).isLayout_head he.symm
    exact absurd rfl hv.2

/-- A token at the front of a text is split off first, and ends there unless it is a word that opens something. -/
theorem Splits.of_token {token : Token} (hv : token.Visible)
    (h : Splits opener before (token.lexeme.toList ++ cs) (token :: ts)) :
    Splits opener (before ++ [token]) cs ts ∧
      ((∀ word, opener before word → token ≠ .word word) → token.Ends cs) := by
  generalize he : token.lexeme.toList ++ cs = text at h
  generalize hts : token :: ts = us at h
  cases h with
  | done => cases hts
  | blank hc _ =>
    have hl := (hv.isLayout_head he).1
    rw [hl] at hc
    cases hc
  | comment _ _ _ => exact absurd rfl (hv.isLayout_head he).2
  | opening hw hs =>
    cases hts
    obtain rfl := List.append_cancel_left he
    exact ⟨hs,fun hno => absurd rfl (hno _ hw)⟩
  | token _ hl hs =>
    cases hts
    obtain rfl := List.append_cancel_left he
    exact ⟨hs,fun _ => hl.ends⟩

/-- A gap that follows a comment is a part of it, up to the end of the line. -/
theorem Gap.splits_comment {gap : List Char} (h : Gap gap) (hs : Splits opener before cs ts)
    (hc : ∀ body, (∀ c ∈ body, c ≠ '\n') → Splits opener before ('/' :: '/' :: (body ++ cs)) ts) (body : List Char)
    (hb : ∀ c ∈ body, c ≠ '\n') : Splits opener before ('/' :: '/' :: (body ++ (gap ++ cs))) ts := by
  induction h generalizing body with
  | nil => exact hc body hb
  | @blank c gap hl hg ih =>
    by_cases hline : c = '\n'
    · subst hline
      exact .comment hb (fun c hc => (Option.some.inj hc).symm) (.blank hl (hg.splits hs))
    · have hlonger : ∀ d ∈ body ++ [c], d ≠ '\n' := by
        rw [List.forall_mem_append, List.forall_mem_singleton]
        exact ⟨hb,hline⟩
      simpa using ih (body ++ [c]) hlonger
  | @comment body' gap hb' hg _ =>
    have hlonger : ∀ d ∈ body ++ '/' :: '/' :: body', d ≠ '\n' := by
      rw [List.forall_mem_append, List.forall_mem_cons, List.forall_mem_cons]
      exact ⟨hb,by decide,by decide,hb'⟩
    have hline : Splits opener before
        ('/' :: '/' :: ((body ++ '/' :: '/' :: body') ++ '\n' :: (gap ++ cs))) ts :=
      .comment hlonger (fun c hc => (Option.some.inj hc).symm) (.blank rfl (hg.splits hs))
    simpa using hline

end Splits

section Loosened

variable {offset : Nat} {cs ds : List Char} {ls : List Lexeme}

/-- A loosened text starts like the text itself, or with a character that is no part of a name. -/
theorem Loosened.head (h : Loosened offset cs ls ds) (hv : ∀ token ∈ tokens ls, token.Visible) :
    ds.head? = cs.head? ∨ ∀ c, ds.head? = some c → Token.isNamePart c = false := by
  induction h with
  | done => exact .inl rfl
  | blank _ _ _ => exact .inl rfl
  | comment _ _ _ _ => exact .inl rfl
  | @lexeme _ token _ _ _ _ _ =>
    obtain ⟨c,rest,hl,_⟩ := hv token (by simp)
    rw [hl]
    exact .inl rfl
  | @layout _ gap _ _ _ hg _ ih =>
    cases gap with
    | nil => exact ih hv
    | cons c gap =>
      right
      intro d hd
      obtain rfl : c = d := Option.some.inj hd
      exact hg.isNamePart_head

theorem Loosened.ends {token : Token} (h : Loosened offset cs ls ds) (hv : ∀ token ∈ tokens ls, token.Visible)
    (he : token.Ends cs) : token.Ends ds := by
  rcases h.head hv with hd | hd
  · exact he.of_head?_eq hd
  · exact token.ends_of_head hd

/-- A loosened text splits into the same tokens. So it does with a comment in front of it, if the text itself starts
with the end of a line. -/
theorem Loosened.splits {opener : List Token → String → Prop} {start : Region} {before : List Token}
    (h : Loosened offset cs ls ds) (ho : ∀ before word, opener before word → (Token.word word).Spelled)
    (hs : Steered opener start before (tokens ls)) (ht : Splits opener before cs (tokens ls)) :
    Splits opener before ds (tokens ls) ∧ ((∀ c, cs.head? = some c → c = '\n') →
      ∀ body, (∀ c ∈ body, c ≠ '\n') → Splits opener before ('/' :: '/' :: (body ++ ds)) (tokens ls)) := by
  induction h generalizing before with
  | done => exact ⟨ht,fun _ body hb => .comment hb (fun c hc => by cases hc) ht⟩
  | @blank _ c cs ds ls hc _ ih =>
    have hsplit : Splits opener before (c :: ds) (tokens ls) := .blank hc (ih hs (ht.of_blank ho hc)).1
    refine ⟨hsplit,fun hline body hb => .comment hb ?_ hsplit⟩
    exact fun d hd => hline d hd
  | comment hb hr _ ih =>
    refine ⟨(ih hs (ht.of_comment ho hb hr)).2 hr _ hb,fun hline => ?_⟩
    exact absurd (hline '/' rfl) (by decide)
  | @lexeme offset token cs ds ls hl ih =>
    have hspelled := ht.spelled ho
    have hvisible (token : Token) (hm : token ∈ tokens ls) : token.Visible :=
      Token.visible_of_spelled (hspelled token (List.mem_cons_of_mem _ hm))
    have hfirst : token.Spelled := hspelled token List.mem_cons_self
    have hv : token.Visible := Token.visible_of_spelled hfirst
    obtain ⟨hrest,hends⟩ := ht.of_token hv
    refine ⟨splits_of_ends hs hfirst (fun hno => hl.ends hvisible (hends hno)) (ih hs.2.2.2.2 hrest).1,fun hline => ?_⟩
    obtain ⟨c,rest,hc,hblank,_⟩ := hv
    rw [hc] at hline
    rw [hline c rfl] at hblank
    cases hblank
  | layout hg _ ih =>
    obtain ⟨hrest,hcomment⟩ := ih hs ht
    exact ⟨hg.splits hrest,fun hline => hg.splits_comment hrest (hcomment hline)⟩

theorem Gap.loosened {gap : List Char} (h : Gap gap) (hl : Loosened (offset + gap.length) cs ls ds) :
    Loosened offset (gap ++ cs) ls (gap ++ ds) := by
  induction h generalizing offset with
  | nil => exact hl
  | @blank c gap hc _ ih =>
    refine .blank hc (ih ?_)
    rwa [List.length_cons, Nat.add_comm gap.length 1, ← Nat.add_assoc] at hl
  | @comment body gap hb _ ih =>
    have hlength : ('/' :: '/' :: (body ++ '\n' :: gap)).length = 2 + body.length + 1 + gap.length := by
      simp only [List.length_cons, List.length_append]
      omega
    rw [hlength, ← Nat.add_assoc, ← Nat.add_assoc, ← Nat.add_assoc] at hl
    have hline : Loosened offset ('/' :: '/' :: (body ++ '\n' :: (gap ++ cs))) ls
        ('/' :: '/' :: (body ++ '\n' :: (gap ++ ds))) :=
      .comment hb (fun c hc => (Option.some.inj hc).symm) (.blank rfl (ih hl))
    simpa using hline

theorem LastGap.loosened {gap : List Char} (h : LastGap cs) (hg : Gap gap) : Loosened offset cs [] (cs ++ gap) := by
  have hend {offset : Nat} : Loosened offset [] [] gap := by
    have hadded : Loosened offset [] [] (gap ++ []) := .layout hg .done
    rwa [List.append_nil] at hadded
  cases h with
  | gap hc => simpa using hc.loosened hend
  | @comment cs body hc hb =>
    have hlast : Loosened (offset + cs.length) ('/' :: '/' :: (body ++ [])) [] ('/' :: '/' :: (body ++ gap)) :=
      .comment hb (fun c hc => by cases hc) hend
    rw [List.append_nil] at hlast
    simpa using hc.loosened hlast

/-- A text with something put in at the start of each of the gaps around its lexemes, and at its end. -/
def spread (extra : Nat → List Char) (offset : Nat) (cs : List Char) : List Lexeme → List Char
  | [] => extra offset ++ (cs ++ extra (offset + cs.length))
  | l :: ls =>
    let stop := l.offset + l.token.width
    extra offset ++ (cs.take (stop - offset) ++ spread extra stop (cs.drop (stop - offset)) ls)

/-- Every gap of a text that the lexer gets through can be widened, whether or not something is in it. -/
theorem Laid.loosened {extra : Nat → List Char} (h : Laid offset cs ls) (hx : ∀ place, Gap (extra place)) :
    Loosened offset cs ls (spread extra offset cs ls) := by
  induction h with
  | done hg => exact .layout (hx _) (hg.loosened (hx _))
  | @lexeme offset gap rest token ls hg _ _ ih =>
    have hstop : offset + gap.length + token.width - offset = (gap ++ token.lexeme.toList).length := by
      rw [List.length_append, Token.width_eq_length]
      omega
    have hrest : Loosened (offset + gap.length) (token.lexeme.toList ++ rest) (⟨token,offset + gap.length⟩ :: ls)
        (token.lexeme.toList ++ spread extra (offset + gap.length + token.width) rest ls) := .lexeme ih
    simp only [spread, hstop]
    rw [← List.append_assoc gap, List.take_left, List.drop_left, List.append_assoc, List.append_assoc]
    exact .layout (hx _) (hg.loosened hrest)

end Loosened

end Grammar

open Grammar

/-- Layout between the tokens of an accepted text and at its ends makes no difference to what it stands for. -/
theorem parse_loosened (source loose : String) :
    (∀ expr, Named.parse source = .ok expr →
      Loosened 0 source.toList (Lexing.ofExpr source).lexemes loose.toList → Named.parse loose = .ok expr) ∧
    (∀ program, Program.parse source = .ok program →
      Loosened 0 source.toList (Lexing.ofProgram source).lexemes loose.toList → Program.parse loose = .ok program) := by
  constructor
  · intro expr h hl
    obtain ⟨clause,ht,hg,hm⟩ := Named.parse_eq_ok_iff.1 h
    obtain ⟨htokens,_⟩ := laid_expr ht
    have hs := clause.steered
    have hsplit : Splits (fun _ _ => False) [] source.toList clause.yield := ht
    rw [← htokens] at hs hsplit
    have hloose := (hl.splits (fun _ _ => False.elim) hs hsplit).1
    rw [htokens] at hloose
    exact Named.parse_eq_ok_iff.2 ⟨clause,hloose,hg,hm⟩
  · intro program h hl
    obtain ⟨trees,ht,hg,hm⟩ := Program.parse_eq_ok_iff.1 h
    obtain ⟨htokens,_⟩ := laid_program ht
    have hs := steered_classes [] trees
    have hsplit : Splits Opens [] source.toList (trees.flatMap ClassTree.yield) := ht
    rw [← htokens] at hs hsplit
    have hloose := (hl.splits (fun _ _ => spelled_of_opens) hs hsplit).1
    rw [htokens] at hloose
    exact Program.parse_eq_ok_iff.2 ⟨trees,hloose,hg,hm⟩

/-- Tokens that touch, and a comment at the end. -/
def touchingText : String := "f\"a\"(b)-1// 1"

def touchingExpr : Named :=
  .call "f" (.lit (.string "a")) [.var "b",.lit (.i32 ⟨-1,by decide,by decide⟩)]

/-- The words that open the class and the method touch the names after them. -/
def touchingClass : String := "classA\x7bdefm=1;\x7d"

def touchingProgram : Program := ⟨[⟨"A",[⟨"m",[],.lit (.i32 ⟨1,by decide,by decide⟩)⟩]⟩]⟩

/-- A carriage return, a comment with a quotation mark and a bracket in it, a tab and a form feed. -/
def interlude : List Char := '\r' :: '/' :: '/' :: (['"','\x7d'] ++ '\n' :: ['\t','\x0c'])

def touchingLoose : String :=
  String.ofList (spread (fun _ => interlude) 0 touchingText.toList (Lexing.ofExpr touchingText).lexemes)

def touchingLooseClass : String :=
  String.ofList (spread (fun _ => interlude) 0 touchingClass.toList (Lexing.ofProgram touchingClass).lexemes)

theorem parse_loosened_touching :
    (Named.parse touchingText = .ok touchingExpr ∧
      Loosened 0 touchingText.toList (Lexing.ofExpr touchingText).lexemes touchingLoose.toList ∧
      touchingLoose.length = touchingText.length + 8 * interlude.length ∧
      Named.parse touchingLoose = .ok touchingExpr) ∧
    (Program.parse touchingClass = .ok touchingProgram ∧
      Loosened 0 touchingClass.toList (Lexing.ofProgram touchingClass).lexemes touchingLooseClass.toList ∧
      touchingLooseClass.length = touchingClass.length + 11 * interlude.length ∧
      Program.parse touchingLooseClass = .ok touchingProgram) := by
  have hgap : Gap interlude := .blank rfl (.comment (by simp) (.blank rfl (.blank rfl .nil)))
  have hexpr : Named.parse touchingText = .ok touchingExpr := by decide +kernel
  have hprogram : Program.parse touchingClass = .ok touchingProgram := by decide +kernel
  have hloose : Loosened 0 touchingText.toList (Lexing.ofExpr touchingText).lexemes touchingLoose.toList := by
    rw [touchingLoose, String.toList_ofList]
    exact (laid_of_scan (by decide +kernel)).loosened fun _ => hgap
  have hloose' :
      Loosened 0 touchingClass.toList (Lexing.ofProgram touchingClass).lexemes touchingLooseClass.toList := by
    rw [touchingLooseClass, String.toList_ofList]
    exact (laid_of_scan (by decide +kernel)).loosened fun _ => hgap
  exact ⟨⟨hexpr,hloose,by decide +kernel,(parse_loosened _ _).1 _ hexpr hloose⟩,
    ⟨hprogram,hloose',by decide +kernel,(parse_loosened _ _).2 _ hprogram hloose'⟩⟩

end Mica
