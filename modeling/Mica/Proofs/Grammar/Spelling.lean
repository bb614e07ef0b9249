import Mathlib.Data.List.TakeWhile
import Mica.Source.Token

/-! # Spelling

How tokens are written, and that the token found at the front of a text is the longest one there. No
two tokens are written in the same way, so that it is the only longest one.
-/
namespace Mica.Token

/-- A letter or an underscore, and then letters, digits and underscores. -/
def IsName (cs : List Char) : Prop :=
  ∃ c rest, cs = c :: rest ∧ isNameStart c = true ∧ ∀ d ∈ rest, isNamePart d = true

/-- A digit, perhaps after a sign, and then digits and underscores. -/
def IsNumeral (cs : List Char) : Prop :=
  ∃ sign c rest, cs = sign ++ c :: rest ∧ sign ∈ [[],['+'],['-']] ∧ c.isDigit = true ∧ ∀ d ∈ rest, isDigitPart d = true

/-- What can stand between quotation marks. -/
inductive IsLiteral : List Char → Prop where
  | nil : IsLiteral []
  | plain {c : Char} {cs : List Char} : c ≠ '"' → c ≠ '\\' → c ≠ '\n' → IsLiteral cs → IsLiteral (c :: cs)
  | escaped {c : Char} {cs : List Char} : c ≠ '\n' → IsLiteral cs → IsLiteral ('\\' :: c :: cs)

def Spelled : Token → Prop
  | word name => IsName name.toList ∧ name ≠ "else"
  | number lexeme => IsNumeral lexeme.toList
  | text body => IsLiteral body.toList
  | _ => True

/-- The longest token at the front of a text. -/
structure Longest (token : Token) (cs : List Char) : Prop where
  spelled : token.Spelled
  front : token.lexeme.toList <+: cs
  longest {other : Token} : other.Spelled → other.lexeme.toList <+: cs → other.width ≤ token.width

/-- A token by itself, when nothing is known of the tokens around it. -/
def recognised : Token → Token
  | word "else" => otherwise
  | token => token

theorem recognised_of_ne {token : Token} (h : token ≠ word "else") : token.recognised = token := by
  unfold recognised
  split
  · exact absurd rfl h
  · rfl

theorem lexeme_recognised (token : Token) : token.recognised.lexeme = token.lexeme := by
  unfold recognised
  split <;> rfl

theorem longest?_name {c : Char} (h : isNameStart c = true) (cs : List Char) :
    longest? (c :: cs) = some (word (String.ofList (c :: cs.takeWhile isNamePart))) := by
  unfold longest?
  split
  case h_1 he => cases he
  case h_9 he =>
    cases he
    rw [if_pos h]
  all_goals
    next he =>
      cases he
      exact absurd h (by decide)

theorem isNameStart_of_isDigit {c : Char} (h : c.isDigit = true) : isNameStart c = false := by
  have hu : c ≠ '_' := by
    rintro rfl
    exact absurd h (by decide)
  simp only [Char.isDigit, Bool.and_eq_true, decide_eq_true_eq, ge_iff_le, UInt32.le_iff_toNat_le, Char.reduceVal,
    UInt32.reduceToNat] at h
  unfold isNameStart Char.isAlpha Char.isUpper Char.isLower
  simp only [beq_false_of_ne hu, Bool.or_false, Bool.or_eq_false_iff, Bool.and_eq_false_iff,
    decide_eq_false_iff_not, ge_iff_le, UInt32.le_iff_toNat_le, Char.reduceVal, UInt32.reduceToNat]
  omega

theorem longest?_digit {c : Char} (h : c.isDigit = true) (cs : List Char) :
    longest? (c :: cs) = some (number (String.ofList (c :: cs.takeWhile isDigitPart))) := by
  unfold longest?
  split
  case h_1 he => cases he
  case h_9 he =>
    cases he
    rw [if_neg (by simp [isNameStart_of_isDigit h]), if_pos h]
  all_goals
    next he =>
      cases he
      exact absurd h (by decide)

theorem longest?_signed {sign c : Char} (hs : sign = '+' ∨ sign = '-') (h : c.isDigit = true) (cs : List Char) :
    longest? (sign :: c :: cs) = some (number (String.ofList (sign :: c :: cs.takeWhile isDigitPart))) := by
  rcases hs with rfl | rfl
  · simp [longest?, isNameStart, h]
  · simp [longest?, isNameStart, h]

theorem literalBody_append {body : List Char} (h : IsLiteral body) (rest : List Char) :
    literalBody (body ++ '"' :: rest) = some body := by
  induction h with
  | nil => rfl
  | @plain c cs hq hb hn _ ih =>
    have he : literalBody (c :: (cs ++ '"' :: rest)) = (literalBody (cs ++ '"' :: rest)).map (c :: ·) :=
      literalBody.eq_5 _ _ hq hn fun _ _ h _ => hb h
    rw [List.cons_append, he, ih]
    rfl
  | escaped hn _ ih =>
    rw [List.cons_append, List.cons_append, literalBody, if_neg hn, ih]
    rfl

theorem isLiteral_of_literalBody {cs body : List Char} (h : literalBody cs = some body) :
    IsLiteral body ∧ body ++ ['"'] <+: cs := by
  fun_induction literalBody cs generalizing body with
  | case1 => cases h
  | case2 rest =>
    cases h
    exact ⟨.nil,rest,rfl⟩
  | case3 => cases h
  | case4 => cases h
  | case5 c cs hn ih =>
    obtain ⟨body,hb,rfl⟩ := Option.map_eq_some_iff.1 h
    obtain ⟨hl,rest,rfl⟩ := ih hb
    exact ⟨.escaped hn hl,rest,rfl⟩
  | case6 c cs hq hn hb ih =>
    obtain ⟨body,hf,rfl⟩ := Option.map_eq_some_iff.1 h
    obtain ⟨hl,rest,rfl⟩ := ih hf
    refine ⟨.plain hq ?_ hn hl,rest,rfl⟩
    -- a backslash with something after it would have been taken as an escape
    intro hc
    cases body <;> exact hb _ _ hc rfl

theorem takeWhile_of_head {p : Char → Bool} {cs : List Char} (h : ∀ c, cs.head? = some c → p c = false) :
    cs.takeWhile p = [] := by
  cases cs with
  | nil => rfl
  | cons c cs => simp [h c rfl]

/-- What follows cannot be taken as a part of the token. -/
def Ends (token : Token) (rest : List Char) : Prop :=
  match token with
  | word _ | otherwise => ∀ c, rest.head? = some c → isNamePart c = false
  | number _ => ∀ c, rest.head? = some c → isDigitPart c = false
  | _ => True

theorem width_eq_length (token : Token) : token.width = token.lexeme.toList.length := String.length_toList.symm

theorem toList_otherwise : otherwise.lexeme.toList = ['e','l','s','e'] := rfl

theorem toList_text (body : String) : (text body).lexeme.toList = '"' :: (body.toList ++ ['"']) := by
  simp [lexeme]

/-- At the front of a text that starts with a token that token is found, or one that goes on. -/
theorem exists_longest? {token : Token} (h : token.Spelled) (rest : List Char) :
    ∃ found, longest? (token.lexeme.toList ++ rest) = some found ∧ token.lexeme.toList <+: found.lexeme.toList ∧
      (token.Ends rest → found.recognised = token) := by
  cases token with
  | word name =>
    obtain ⟨⟨c,cs,hn,hc,hs⟩,he⟩ := h
    obtain rfl : name = String.ofList (c :: cs) := by rw [← hn, String.ofList_toList]
    refine ⟨_,by rw [lexeme, String.toList_ofList, List.cons_append, longest?_name hc],?_,?_⟩
    · rw [List.takeWhile_append_of_pos hs]
      simp [lexeme]
    · intro hr
      rw [List.takeWhile_append_of_pos hs, takeWhile_of_head hr, List.append_nil, recognised_of_ne (by simpa using he)]
  | otherwise =>
    have hs : ∀ d ∈ ['l','s','e'], isNamePart d = true := List.all_eq_true.1 (by decide)
    refine ⟨_,by rw [toList_otherwise, List.cons_append, longest?_name rfl],?_,?_⟩
    · rw [List.takeWhile_append_of_pos hs, toList_otherwise]
      simp [lexeme]
    · intro hr
      rw [List.takeWhile_append_of_pos hs, takeWhile_of_head hr, List.append_nil]
      rfl
  | number numeral =>
    obtain ⟨sign,c,cs,hn,hs,hc,hd⟩ := h
    obtain rfl : numeral = String.ofList (sign ++ c :: cs) := by rw [← hn, String.ofList_toList]
    have hf : longest? (sign ++ c :: (cs ++ rest)) =
        some (number (String.ofList (sign ++ c :: (cs ++ rest.takeWhile isDigitPart)))) := by
      rw [← List.takeWhile_append_of_pos hd]
      simp only [List.mem_cons, List.not_mem_nil, or_false] at hs
      rcases hs with rfl | rfl | rfl
      · exact longest?_digit hc _
      · exact longest?_signed (.inl rfl) hc _
      · exact longest?_signed (.inr rfl) hc _
    refine ⟨_,by rw [lexeme, String.toList_ofList, List.append_assoc, List.cons_append, hf],?_,?_⟩
    · simp [lexeme]
    · intro hr
      rw [takeWhile_of_head hr, List.append_nil]
      rfl
  | text body =>
    have hf : longest? ('"' :: (body.toList ++ ['"'] ++ rest)) = some (text body) := by
      rw [longest?, List.append_assoc, List.cons_append, literalBody_append h, Option.map_some, String.ofList_toList]
    refine ⟨_,by rw [toList_text, List.cons_append, hf],List.prefix_rfl,fun _ => rfl⟩
  | _ => exact ⟨_,rfl,List.prefix_rfl,fun _ => rfl⟩

theorem spelled_of_longest? {cs : List Char} {token : Token} (h : longest? cs = some token) :
    token.recognised.Spelled ∧ token.lexeme.toList <+: cs := by
  unfold longest? at h
  split at h
  case h_1 => cases h
  case h_8 =>
    next cs =>
    obtain ⟨body,hb,rfl⟩ := Option.map_eq_some_iff.1 h
    obtain ⟨hl,hp⟩ := isLiteral_of_literalBody hb
    refine ⟨?_,?_⟩
    · simpa [recognised, Spelled] using hl
    · rw [toList_text, String.toList_ofList]
      exact List.cons_prefix_cons.2 ⟨rfl,hp⟩
  case h_9 =>
    next c cs _ _ _ _ _ _ _ =>
    split at h
    · next hc =>
      cases h
      refine ⟨?_,?_⟩
      · by_cases he : String.ofList (c :: cs.takeWhile isNamePart) = "else"
        · rw [he]
          trivial
        · rw [recognised_of_ne (by simpa using he)]
          refine ⟨⟨c,cs.takeWhile isNamePart,by simp,hc,?_⟩,he⟩
          intro d hd
          exact List.mem_takeWhile_imp hd
      · simp [lexeme, List.takeWhile_prefix]
    · split at h
      · next hc =>
        cases h
        refine ⟨⟨[],c,cs.takeWhile isDigitPart,by simp,by simp,hc,fun d hd => List.mem_takeWhile_imp hd⟩,?_⟩
        simp [lexeme, List.takeWhile_prefix]
      · split at h
        · next hs =>
          split at h
          · next d ds =>
            split at h
            · next hd =>
              cases h
              refine ⟨⟨[c],d,ds.takeWhile isDigitPart,by simp,?_,hd,fun d hd => List.mem_takeWhile_imp hd⟩,?_⟩
              · rcases hs with rfl | rfl <;> decide
              · simp [lexeme, List.takeWhile_prefix]
            · cases h
          · cases h
        · cases h
  all_goals
    cases h
    exact ⟨trivial,_,rfl⟩

theorem eq_of_lexeme_eq {token other : Token} (h : token.Spelled) (h' : other.Spelled)
    (he : token.lexeme = other.lexeme) : token = other := by
  have hends (t : Token) : t.Ends [] := by cases t <;> simp [Ends]
  obtain ⟨found,hf,_,hr⟩ := exists_longest? h []
  obtain ⟨found',hf',_,hr'⟩ := exists_longest? h' []
  rw [he, hf'] at hf
  cases hf
  rw [← hr (hends _), hr' (hends _)]

theorem longest_iff {token : Token} {cs : List Char} :
    token.Longest cs ↔ ∃ found, longest? cs = some found ∧ found.recognised = token := by
  constructor
  · rintro ⟨hs,⟨rest,rfl⟩,hl⟩
    obtain ⟨found,hf,hp,_⟩ := exists_longest? hs rest
    obtain ⟨hs',hp'⟩ := spelled_of_longest? hf
    rw [← lexeme_recognised found] at hp hp'
    have hlen := hl hs' hp'
    rw [width_eq_length, width_eq_length] at hlen
    refine ⟨found,hf,eq_of_lexeme_eq hs' hs (String.toList_injective ?_)⟩
    exact (hp.eq_of_length_le hlen).symm
  · rintro ⟨found,hf,rfl⟩
    obtain ⟨hs,hp⟩ := spelled_of_longest? hf
    refine ⟨hs,by rwa [lexeme_recognised],?_⟩
    rintro other ho ⟨rest,rfl⟩
    obtain ⟨found',hf',hp',_⟩ := exists_longest? ho rest
    rw [hf] at hf'
    cases hf'
    rw [width_eq_length, width_eq_length, lexeme_recognised]
    exact hp'.length_le

theorem longest_of_ends {token : Token} {rest : List Char} (h : token.Spelled) (he : token.Ends rest) :
    token.Longest (token.lexeme.toList ++ rest) := by
  obtain ⟨found,hf,_,hr⟩ := exists_longest? h rest
  exact longest_iff.2 ⟨found,hf,hr he⟩

theorem isNamePart_of_isDigitPart {c : Char} (h : isDigitPart c = true) : isNamePart c = true := by
  rcases Bool.or_eq_true_iff.1 h with hd | hu
  · simp [isNamePart, Char.isAlphanum, hd]
  · simp [isNamePart, hu]

/-- Every token ends before a character that cannot be a part of a name. -/
theorem ends_of_head (token : Token) {rest : List Char} (h : ∀ c, rest.head? = some c → isNamePart c = false) :
    token.Ends rest := by
  have hdigit (c : Char) (hc : rest.head? = some c) : isDigitPart c = false := by
    rw [Bool.eq_false_iff]
    intro hd
    exact Bool.eq_false_iff.1 (h c hc) (isNamePart_of_isDigitPart hd)
  cases token with
  | word name => exact h
  | otherwise => exact h
  | number lexeme => exact hdigit
  | _ => trivial

end Mica.Token
