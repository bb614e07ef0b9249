import Mica.Proofs.Grammar.Reading
import Mica.Proofs.Grammar.Spelling

/-! # Splitting

How a text splits into tokens, by longest match and without the blanks and comments between them. What
the lexer finds depends on the region it takes itself to be in; where the region steers it as the
tokens before demand, it finds exactly the tokens that the text splits into.
-/
namespace Mica

namespace Grammar

/-- A text splits into tokens. Which words open something at a place, and are recognised there whatever
follows them, depends on the tokens `before` it. -/
inductive Splits (opener : List Token → String → Prop) : List Token → List Char → List Token → Prop where
  | done {before : List Token} : Splits opener before [] []
  | blank {before ts : List Token} {c : Char} {cs : List Char} : isLayout c = true → Splits opener before cs ts →
      Splits opener before (c :: cs) ts
  | comment {before ts : List Token} {body cs : List Char} : (∀ c ∈ body, c ≠ '\n') →
      (∀ c, cs.head? = some c → c = '\n') → Splits opener before cs ts →
      Splits opener before ('/' :: '/' :: (body ++ cs)) ts
  | opening {before ts : List Token} {word : String} {cs : List Char} : opener before word →
      Splits opener (before ++ [.word word]) cs ts → Splits opener before (word.toList ++ cs) (.word word :: ts)
  | token {before ts : List Token} {token : Token} {cs : List Char} :
      (∀ word, opener before word → ¬ word.toList <+: token.lexeme.toList ++ cs) →
      token.Longest (token.lexeme.toList ++ cs) → Splits opener (before ++ [token]) cs ts →
      Splits opener before (token.lexeme.toList ++ cs) (token :: ts)

end Grammar

namespace Region

def afterAll (region : Region) (ts : List Token) : Region := ts.foldl after region

@[simp] theorem afterAll_nil (region : Region) : region.afterAll [] = region := rfl

@[simp] theorem afterAll_cons (region : Region) (token : Token) (ts : List Token) :
    region.afterAll (token :: ts) = (region.after token).afterAll ts := rfl

@[simp] theorem afterAll_append (region : Region) (ts us : List Token) :
    region.afterAll (ts ++ us) = (region.afterAll ts).afterAll us := List.foldl_append

theorem token?_of_opener {region : Region} {word : String} {cs : List Char} (h : region.opener = some word)
    (hp : word.toList <+: cs) (afterBlock : Bool) : region.token? afterBlock cs = some (.word word) := by
  have hb : word.toList.isPrefixOf cs = true := List.isPrefixOf_iff_prefix.2 hp
  simp [token?, h, Option.filter, hb]

theorem token?_of_not_opener {region : Region} {cs : List Char}
    (h : ∀ word, region.opener = some word → ¬ word.toList <+: cs) (afterBlock : Bool) :
    region.token? afterBlock cs = (Token.longest? cs).map fun token =>
      if token = .word "else" then if afterBlock then .otherwise else .word "else" else token := by
  have hf : (region.opener.filter fun word => word.toList.isPrefixOf cs) = none := by
    cases ho : region.opener with
    | none => rfl
    | some word => simp [Option.filter, h word ho]
  unfold token?
  rw [hf]
  simp only
  split
  · next he => simp [he]
  · next hn =>
    cases hl : Token.longest? cs with
    | none => rfl
    | some token =>
      have ht : token ≠ .word "else" := fun he => hn (he ▸ hl)
      simp [ht]

theorem token?_of_longest {region : Region} {token : Token} {cs : List Char} {afterBlock : Bool}
    (h : ∀ word, region.opener = some word → ¬ word.toList <+: cs) (hl : token.Longest cs)
    (hb : token = .otherwise → afterBlock = true) : region.token? afterBlock cs = some token := by
  obtain ⟨found,hf,rfl⟩ := Token.longest_iff.1 hl
  rw [token?_of_not_opener h, hf, Option.map_some]
  by_cases he : found = .word "else"
  · subst he
    rw [if_pos rfl, hb rfl]
    rfl
  · rw [if_neg he, Token.recognised_of_ne he]

/-- The token that is found is a word that opens something, or the longest one. -/
theorem longest_of_token? {region : Region} {token : Token} {cs : List Char} {afterBlock : Bool}
    (h : ∀ word, region.opener = some word → ¬ word.toList <+: cs) (ht : region.token? afterBlock cs = some token)
    (he : token ≠ .word "else") : token.Longest cs := by
  rw [token?_of_not_opener h] at ht
  obtain ⟨found,hf,rfl⟩ := Option.map_eq_some_iff.1 ht
  refine Token.longest_iff.2 ⟨found,hf,?_⟩
  by_cases hw : found = .word "else"
  · subst hw
    cases afterBlock with
    | true => rfl
    | false => exact absurd rfl he
  · rw [if_neg hw, Token.recognised_of_ne hw]

theorem eq_of_opener {region : Region} {word : String} (h : region.opener = some word) :
    word = "class" ∨ word = "def" := by
  cases region <;> simp_all [opener]

end Region

theorem Token.longest?_of_isLayout {c : Char} (h : isLayout c = true) (cs : List Char) : longest? (c :: cs) = none := by
  simp only [isLayout, Bool.or_eq_true, beq_iff_eq] at h
  rcases h with (((rfl | rfl) | rfl) | rfl) | rfl <;> rfl

/-- A token starts with a character that starts neither a blank nor a comment. -/
def Token.Visible (token : Token) : Prop :=
  ∃ c rest, token.lexeme.toList = c :: rest ∧ isLayout c = false ∧ c ≠ '/'

theorem Token.visible_of_spelled {token : Token} (h : token.Spelled) : token.Visible := by
  obtain ⟨found,hf,_⟩ := exists_longest? h []
  rw [List.append_nil] at hf
  cases he : token.lexeme.toList with
  | nil =>
    rw [he] at hf
    cases hf
  | cons c rest =>
    rw [he] at hf
    refine ⟨c,rest,he,?_,?_⟩
    · rw [Bool.eq_false_iff]
      intro hl
      rw [longest?_of_isLayout hl] at hf
      cases hf
    · rintro rfl
      cases hf

theorem Token.Visible.lt_length {token : Token} (h : token.Visible) (cs : List Char) :
    cs.length < (token.lexeme.toList ++ cs).length := by
  obtain ⟨c,rest,he,_⟩ := h
  rw [he, List.length_append, List.length_cons]
  omega

theorem Token.visible_of_opener {region : Region} {word : String} (h : region.opener = some word) :
    (Token.word word).Visible := by
  rcases Region.eq_of_opener h with rfl | rfl
  · exact ⟨'c',_,rfl,rfl,by decide⟩
  · exact ⟨'d',_,rfl,rfl,by decide⟩

theorem startsComment_iff {cs : List Char} : startsComment cs = true ↔ ∃ rest, cs = '/' :: '/' :: rest := by
  unfold startsComment
  split <;> simp_all

namespace Lexing

variable (region : Region) (afterBlock : Bool) (offset : Nat)

theorem scan_skip (skip : Nat) (cs : List Char) :
    scan region afterBlock offset skip cs = scan region afterBlock (offset + skip) 0 (cs.drop skip) := by
  induction cs generalizing offset skip with
  | nil =>
    rw [List.drop_nil]
    rfl
  | cons c cs ih =>
    cases skip with
    | zero => rfl
    | succ skip =>
      rw [scan, ih, List.drop_succ_cons]
      congr 1
      omega

theorem scan_blank {c : Char} (h : isLayout c = true) (cs : List Char) :
    scan region afterBlock offset 0 (c :: cs) = scan region afterBlock (offset + 1) 0 cs := by
  rw [scan, if_pos h]

theorem takeWhile_line {body cs : List Char} (hb : ∀ c ∈ body, c ≠ '\n') (hc : ∀ c, cs.head? = some c → c = '\n') :
    (body ++ cs).takeWhile (· ≠ '\n') = body := by
  rw [List.takeWhile_append_of_pos (by simpa using hb), Token.takeWhile_of_head (by simpa using hc), List.append_nil]

theorem scan_comment {body cs : List Char} (hb : ∀ c ∈ body, c ≠ '\n') (hc : ∀ c, cs.head? = some c → c = '\n') :
    scan region afterBlock offset 0 ('/' :: '/' :: (body ++ cs)) =
      scan region afterBlock (offset + 1 + (body.length + 1)) 0 cs := by
  have hl : (('/' :: (body ++ cs)).takeWhile (· ≠ '\n')).length = body.length + 1 := by
    rw [List.takeWhile_cons_of_pos (by decide), takeWhile_line hb hc, List.length_cons]
  rw [scan, if_neg (by decide), if_pos (startsComment_iff.2 ⟨_,rfl⟩), hl, scan_skip, List.drop_succ_cons,
    List.drop_left]

theorem scan_found {token : Token} {c : Char} {cs : List Char} (hl : isLayout c = false)
    (hc : startsComment (c :: cs) = false) (ht : region.token? afterBlock (c :: cs) = some token) :
    scan region afterBlock offset 0 (c :: cs) =
      (scan (region.after token) (token == .closeBrace) (offset + 1) (token.width - 1) cs).cons ⟨token,offset⟩ := by
  rw [scan, hl, hc]
  simp only [Bool.false_eq_true, if_false, ht]

theorem scan_stuck {c : Char} {cs : List Char} (hl : isLayout c = false) (hc : startsComment (c :: cs) = false)
    (ht : region.token? afterBlock (c :: cs) = none) :
    scan region afterBlock offset 0 (c :: cs) = ⟨[],some (c,offset)⟩ := by
  rw [scan, hl, hc]
  simp only [Bool.false_eq_true, if_false, ht]

theorem scan_lexeme {token : Token} (hv : token.Visible) {cs : List Char}
    (ht : region.token? afterBlock (token.lexeme.toList ++ cs) = some token) :
    scan region afterBlock offset 0 (token.lexeme.toList ++ cs) =
      (scan (region.after token) (token == .closeBrace) (offset + token.width) 0 cs).cons ⟨token,offset⟩ := by
  obtain ⟨c,rest,he,hl,hs⟩ := hv
  have hw : token.width = rest.length + 1 := by rw [Token.width_eq_length, he, List.length_cons]
  have hc : startsComment (c :: (rest ++ cs)) = false := by
    rw [Bool.eq_false_iff]
    intro h
    obtain ⟨_,he⟩ := startsComment_iff.1 h
    exact hs (List.cons.inj he).1
  rw [he, List.cons_append] at ht ⊢
  rw [scan_found _ _ _ hl hc ht, scan_skip, hw, Nat.add_sub_cancel, List.drop_left, Nat.add_assoc,
    Nat.add_comm 1 rest.length]

end Lexing

namespace Grammar

variable {opener : List Token → String → Prop} {start : Region} {before ts : List Token} {cs : List Char}

/-- Whether the last of some tokens closes a block. -/
def closes (before : List Token) : Bool := before.getLast? == some .closeBrace

@[simp] theorem closes_append (before : List Token) (token : Token) :
    closes (before ++ [token]) = (token == .closeBrace) := by
  simp [closes]

/-- At each of some tokens the lexer looks for the words that open something there, and for a second
branch only after a block. Where a word opens something it stands, or a block ends. -/
def Steered (opener : List Token → String → Prop) (start : Region) : List Token → List Token → Prop
  | _, [] => True
  | before, token :: ts =>
    (∀ word, opener before word ↔ (start.afterAll before).opener = some word) ∧ token ≠ .word "else" ∧
      (token = .otherwise → closes before = true) ∧
      (∀ word, opener before word → token = .word word ∨ token = .closeBrace) ∧
      Steered opener start (before ++ [token]) ts

theorem scan_step {token : Token} (hv : token.Visible) (offset : Nat)
    (ht : (start.afterAll before).token? (closes before) (token.lexeme.toList ++ cs) = some token) :
    Lexing.scan (start.afterAll before) (closes before) offset 0 (token.lexeme.toList ++ cs) =
      (Lexing.scan (start.afterAll (before ++ [token])) (closes (before ++ [token])) (offset + token.width) 0 cs).cons
        ⟨token,offset⟩ := by
  rw [Lexing.scan_lexeme _ _ _ hv ht, Region.afterAll_append, closes_append]
  rfl

theorem Splits.exists_scan (h : Splits opener before cs ts) (hs : Steered opener start before ts) (offset : Nat) :
    tokens (Lexing.scan (start.afterAll before) (closes before) offset 0 cs).lexemes = ts ∧
      (Lexing.scan (start.afterAll before) (closes before) offset 0 cs).stuck = none := by
  induction h generalizing offset with
  | done => exact ⟨rfl,rfl⟩
  | blank hl _ ih =>
    rw [Lexing.scan_blank _ _ _ hl]
    exact ih hs _
  | comment hb hc _ ih =>
    rw [Lexing.scan_comment _ _ _ hb hc]
    exact ih hs _
  | @opening before ts word cs ho _ ih =>
    obtain ⟨hw,_,_,_,hs⟩ := hs
    have ho := (hw word).1 ho
    have ht := Region.token?_of_opener ho (List.prefix_append word.toList cs) (closes before)
    have he : Lexing.scan (start.afterAll before) (closes before) offset 0 (word.toList ++ cs) = _ :=
      scan_step (Token.visible_of_opener ho) offset ht
    obtain ⟨hts,hn⟩ := ih hs (offset + (Token.word word).width)
    rw [he]
    exact ⟨congrArg (Token.word word :: ·) hts,hn⟩
  | @token before ts token cs ho hl _ ih =>
    obtain ⟨hw,_,hb,_,hs⟩ := hs
    have ht := Region.token?_of_longest (fun word h => ho word ((hw word).2 h)) hl hb
    obtain ⟨hts,hn⟩ := ih hs (offset + token.width)
    rw [scan_step (Token.visible_of_spelled hl.spelled) offset ht]
    exact ⟨congrArg (token :: ·) hts,hn⟩

theorem exists_line (cs : List Char) :
    ∃ body rest, cs = body ++ rest ∧ (∀ c ∈ body, c ≠ '\n') ∧ ∀ c, rest.head? = some c → c = '\n' := by
  induction cs with
  | nil => exact ⟨[],[],rfl,nofun,nofun⟩
  | cons c cs ih =>
    by_cases hc : c = '\n'
    · exact ⟨[],c :: cs,rfl,nofun,fun d hd => by cases hd; exact hc⟩
    · obtain ⟨body,rest,rfl,hb,hr⟩ := ih
      exact ⟨c :: body,rest,rfl,List.forall_mem_cons.2 ⟨hc,hb⟩,hr⟩

/-- A token that the lexer finds where it is steered stands at the front of the text and is split off. -/
theorem Steered.front {token : Token} (hs : Steered opener start before (token :: ts))
    (hf : (start.afterAll before).token? (closes before) cs = some token) :
    ∃ left, cs = token.lexeme.toList ++ left ∧ token.Visible ∧
      ∀ {later : List Token}, Splits opener (before ++ [token]) left later → Splits opener before cs (token :: later) := by
  obtain ⟨hw,hne,_⟩ := hs
  by_cases ho : ∃ word, (start.afterAll before).opener = some word ∧ word.toList <+: cs
  · obtain ⟨word,ho,left,rfl⟩ := ho
    rw [Region.token?_of_opener ho (List.prefix_append word.toList left)] at hf
    obtain rfl := Option.some.inj hf
    exact ⟨left,rfl,Token.visible_of_opener ho,.opening ((hw word).2 ho)⟩
  · have hno (word : String) (h : (start.afterAll before).opener = some word) : ¬ word.toList <+: cs :=
      fun hp => ho ⟨word,h,hp⟩
    have hlong := Region.longest_of_token? hno hf hne
    obtain ⟨left,rfl⟩ := hlong.front
    exact ⟨left,rfl,Token.visible_of_spelled hlong.spelled,.token (fun word h => hno word ((hw word).1 h)) hlong⟩

theorem splits_of_scan {offset : Nat} (hs : Steered opener start before ts)
    (ht : tokens (Lexing.scan (start.afterAll before) (closes before) offset 0 cs).lexemes = ts)
    (hn : (Lexing.scan (start.afterAll before) (closes before) offset 0 cs).stuck = none) :
    Splits opener before cs ts := by
  induction hk : cs.length using Nat.strong_induction_on generalizing before ts cs offset with
  | h k ih =>
    subst hk
    cases cs with
    | nil =>
      subst ht
      exact .done
    | cons c cs =>
      by_cases hl : isLayout c = true
      · rw [Lexing.scan_blank _ _ _ hl] at ht hn
        exact .blank hl (ih _ (Nat.lt_succ_self _) hs ht hn rfl)
      by_cases hc : startsComment (c :: cs) = true
      · obtain ⟨rest,he⟩ := startsComment_iff.1 hc
        obtain ⟨body,left,rfl,hb,hf⟩ := exists_line rest
        rw [he] at ht hn ih ⊢
        rw [Lexing.scan_comment _ _ _ hb hf] at ht hn
        exact .comment hb hf (ih _ (by simp only [List.length_cons, List.length_append]; omega) hs ht hn rfl)
      cases hf : (start.afterAll before).token? (closes before) (c :: cs) with
      | none =>
        rw [Lexing.scan_stuck _ _ _ (by simpa using hl) (by simpa using hc) hf] at hn
        cases hn
      | some token =>
        have hfound := Lexing.scan_found _ _ offset (by simpa using hl) (by simpa using hc) hf
        have hts : ts.head? = some token := by rw [← ht, hfound]; rfl
        obtain ⟨ts,rfl⟩ : ∃ rest, ts = token :: rest := List.head?_eq_some_iff.1 hts
        obtain ⟨left,he,hv,hsplit⟩ := hs.front hf
        rw [he] at ht hn ih hf
        rw [scan_step hv offset hf] at ht hn
        exact hsplit (ih _ (hv.lt_length left) hs.2.2.2.2 (List.cons.inj ht).2 hn rfl)

end Grammar

end Mica
