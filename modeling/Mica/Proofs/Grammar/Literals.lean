import Mathlib.Data.List.Basic
import Mica.Proofs.Grammar.Escapes

/-! # Literals

Canonical spellings of integers and of texts, and that reading gives back what was spelled. An integer
is written in decimal. In a text every character is written by its code point.
-/
namespace Mica

namespace Grammar

theorem toList_toString_int (n : Int) :
    (toString n).toList = (if n < 0 then ['-'] else []) ++ Nat.toDigits 10 n.natAbs := by
  rw [Int.toString_eq_repr]
  cases n with
  | ofNat n => simp [Int.repr, Nat.toList_repr]
  | negSucc n => simp [Int.repr, Nat.toList_repr, Int.negSucc_lt_zero]

theorem isDigit_of_mem_decimal {n : Nat} {c : Char} (h : c ∈ Nat.toDigits 10 n) : c.isDigit = true :=
  Nat.isDigit_of_mem_toDigits (by decide) (by decide) h

theorem filter_isDigit_toString (n : Int) :
    (toString n).toList.filter Char.isDigit = Nat.toDigits 10 n.natAbs := by
  have hd : (Nat.toDigits 10 n.natAbs).filter Char.isDigit = Nat.toDigits 10 n.natAbs :=
    List.filter_eq_self.2 fun _ => isDigit_of_mem_decimal
  rw [toList_toString_int, List.filter_append, hd]
  split <;> rfl

theorem isNumeral_toString (n : Int) : Token.IsNumeral (toString n).toList := by
  obtain ⟨c,cs,hc⟩ := List.exists_cons_of_ne_nil (Nat.toDigits_ne_nil (n := n.natAbs) (b := 10))
  have hd : ∀ d ∈ c :: cs, d.isDigit = true := fun d hd => isDigit_of_mem_decimal (hc ▸ hd)
  obtain ⟨hf,hr⟩ := List.forall_mem_cons.1 hd
  refine ⟨_,c,cs,by rw [toList_toString_int, hc],?_,hf,fun d hm => ?_⟩
  · split <;> decide
  · simp [Token.isDigitPart, hr d hm]

theorem numeralValue_toString (n : Int) : numeralValue (toString n) = n := by
  have hv : digitsValue (Nat.toDigits 10 n.natAbs) = n.natAbs := Nat.ofDigitChars_toDigits (by decide) (by decide)
  rw [numeralValue, filter_isDigit_toString, hv, toList_toString_int]
  obtain ⟨c,cs,hc⟩ := List.exists_cons_of_ne_nil (Nat.toDigits_ne_nil (n := n.natAbs) (b := 10))
  have hs : c ≠ '-' := by
    rintro rfl
    exact absurd (isDigit_of_mem_decimal (hc ▸ List.mem_cons_self)) (by decide)
  by_cases hn : n < 0
  · simp only [if_pos hn, List.cons_append, List.head?_cons, if_true]
    omega
  · simp only [if_neg hn, hc, List.nil_append, List.head?_cons, Option.some.injEq, hs, if_false]
    omega

theorem length_digits_toString (n : I32) : ((toString n.toInt).toList.filter Char.isDigit).length ≤ digitLimit := by
  rw [filter_isDigit_toString]
  have hl := n.lower
  have hu := n.upper
  have h10 : (Nat.toDigits 10 n.toInt.natAbs).length ≤ 10 :=
    (Nat.length_toDigits_le_iff (by decide) (by decide)).2 (by omega)
  exact h10.trans (by decide)

/-- A character by its code point. -/
def escapeChar (c : Char) : List Char := '\\' :: 'u' :: '\x7b' :: (Nat.toDigits 16 c.toNat ++ ['\x7d'])

def escapeText (text : String) : String := String.ofList (text.toList.flatMap escapeChar)

theorem hexValue?_digitChar : ∀ d < 16, Escape.hexValue? d.digitChar = some d := by decide

theorem hexNumber_toDigits (n : Nat) :
    Escape.hexNumber (Nat.toDigits 16 n) = n ∧ ∀ c ∈ Nat.toDigits 16 n, Escape.isHexDigit c = true := by
  induction n using Nat.strong_induction_on with
  | h n ih =>
    by_cases hn : n < 16
    · rw [Nat.toDigits_of_lt_base hn]
      simp [Escape.hexNumber, Escape.isHexDigit, hexValue?_digitChar n hn]
    · have hd : n % 16 < 16 := Nat.mod_lt _ (by decide)
      have hq : 0 < n / 16 := Nat.div_pos (by omega) (by decide)
      have hsplit : Nat.toDigits 16 n = Nat.toDigits 16 (n / 16) ++ [(n % 16).digitChar] := by
        rw [← Nat.toDigits_of_lt_base hd, Nat.toDigits_append_toDigits (by decide) hq hd, Nat.div_add_mod]
      obtain ⟨hv,hall⟩ := ih (n / 16) (by omega)
      rw [hsplit]
      constructor
      · rw [Escape.hexNumber, List.foldl_append]
        rw [Escape.hexNumber] at hv
        rw [hv]
        simp [hexValue?_digitChar _ hd]
        omega
      · intro c hc
        rcases List.mem_append.1 hc with hc | hc
        · exact hall c hc
        · rw [List.mem_singleton.1 hc, Escape.isHexDigit, hexValue?_digitChar _ hd]
          rfl

theorem length_hex (c : Char) : (Nat.toDigits 16 c.toNat).length ≤ 6 := by
  refine (Nat.length_toDigits_le_iff (by decide) (by decide)).2 ?_
  have hc : c.toNat.isValidChar := c.valid
  simp only [Nat.isValidChar] at hc
  omega

theorem spells_escapeChar (c : Char) : Escape.Spells (escapeChar c) c := by
  obtain ⟨hv,hd⟩ := hexNumber_toDigits c.toNat
  have hc : Escape.Coded (escapeChar c) (Escape.codeOf (Nat.toDigits 16 c.toNat)) :=
    .braced (Escape.hexadecimal_iff.2 hd) Nat.length_toDigits_pos (length_hex c)
  rw [← Escape.hexNumber_eq, hv] at hc
  have hs : Escape.Spells (escapeChar c) (Char.ofNat c.toNat) := .code hc (Escape.isScalar_iff.2 c.valid)
  rwa [Char.ofNat_toNat] at hs

theorem fits_escapeChar (c : Char) (rest : List Char) : Escape.Fits (escapeChar c) rest := by
  intro he
  cases he

theorem decode_escapeText (text : String) : Escape.decode (escapeText text) = .ok text := by
  have h (cs : List Char) : Escape.decodeFrom 0 (cs.flatMap escapeChar) = .ok cs := by
    induction cs with
    | nil => rfl
    | cons c cs ih =>
      rw [List.flatMap_cons, (spells_escapeChar c).decodeFrom_append (fits_escapeChar c _), ih]
      rfl
  rw [Escape.decode, escapeText, String.toList_ofList, h]
  simp [Except.map]

theorem isLiteral_hex_append {digits cs : List Char} (h : ∀ c ∈ digits, Escape.isHexDigit c = true)
    (hcs : Token.IsLiteral cs) : Token.IsLiteral (digits ++ cs) := by
  induction digits with
  | nil => exact hcs
  | cons c digits ih =>
    obtain ⟨hc,hs⟩ := List.forall_mem_cons.1 h
    refine .plain ?_ ?_ ?_ (ih hs)
    all_goals
      rintro rfl
      exact absurd hc (by decide)

theorem isLiteral_escapeText (text : String) : Token.IsLiteral (escapeText text).toList := by
  rw [escapeText, String.toList_ofList]
  induction text.toList with
  | nil => exact .nil
  | cons c cs ih =>
    have hbrace : Token.IsLiteral ('\x7d' :: cs.flatMap escapeChar) :=
      .plain (by decide) (by decide) (by decide) ih
    have hdigits := isLiteral_hex_append (hexNumber_toDigits c.toNat).2 hbrace
    rw [List.flatMap_cons, escapeChar, List.cons_append, List.cons_append, List.cons_append, List.append_assoc]
    exact .escaped (by decide) (.plain (by decide) (by decide) (by decide) hdigits)

end Grammar

end Mica
