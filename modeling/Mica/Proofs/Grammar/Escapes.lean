import Mathlib.Data.List.Forall2
import Mathlib.Data.Nat.Digits.Defs
import Mica.Proofs.Grammar.Splitting

/-! # Escapes

The body of a literal is cut into units, each of which spells one character. Decoding succeeds on exactly the bodies
that are units up to their end or up to a backslash there, and gives back what the units spell. A body can be cut in
one way only. Where it cannot be cut any further stands the escape that decoding fails for.
-/
namespace Mica

namespace Escape

/-- The letters that spell a character after a backslash, each with its character. -/
def letters : List (Char × Char) :=
  [('"','"'),('\'','\''),('\\','\\'),('n','\n'),('t','\t'),('r','\r'),('b','\x08'),('f','\x0c'),('v','\x0b')]

/-- The hexadecimal digits in either case, each with its value. -/
def hexTable : List (Char × Nat) := "0123456789abcdef".toList.zipIdx ++ "ABCDEF".toList.zipIdx 10

def Hexadecimal (digits : List Char) : Prop := ∀ c ∈ digits, (hexTable.lookup c).isSome = true

instance (digits : List Char) : Decidable (Hexadecimal digits) := List.decidableBAll _ digits

/-- The number that hexadecimal digits stand for. -/
def codeOf (digits : List Char) : Nat := Nat.ofDigits 16 (digits.reverse.map fun c => (hexTable.lookup c).getD 0)

/-- The codes of characters. -/
def IsScalar (code : Nat) : Prop := code ≤ 0x10FFFF ∧ ¬(0xD800 ≤ code ∧ code ≤ 0xDFFF)

/-- The escapes that give a code, be it one of a character or not. -/
inductive Coded : List Char → Nat → Prop where
  | four {digits : List Char} : Hexadecimal digits → digits.length = 4 →
      Coded ('\\' :: 'u' :: digits) (codeOf digits)
  | braced {digits : List Char} : Hexadecimal digits → 1 ≤ digits.length → digits.length ≤ 6 →
      Coded ('\\' :: 'u' :: '\x7b' :: (digits ++ ['\x7d'])) (codeOf digits)

/-- The units, each with the character that it spells. -/
inductive Spells : List Char → Char → Prop where
  | plain {c : Char} : c ≠ '\\' → Spells [c] c
  | letter {c value : Char} : (c,value) ∈ letters → Spells ['\\',c] value
  | byte {digits : List Char} : Hexadecimal digits → digits.length = 2 →
      Spells ('\\' :: 'x' :: digits) (Char.ofNat (codeOf digits))
  | code {unit : List Char} {code : Nat} : Coded unit code → IsScalar code → Spells unit (Char.ofNat code)
  | zero : Spells ['\\','0'] '\x00'

/-- What may follow a unit: after the one for zero there is no digit. -/
def Fits (unit rest : List Char) : Prop := unit = ['\\','0'] → ∀ c, rest.head? = some c → c.isDigit = false

/-- A text is cut into units that spell some characters, and a rest. -/
inductive Cut : List Char → List (List Char) → List Char → List Char → Prop where
  | nil {rest : List Char} : Cut rest [] [] rest
  | cons {unit cs values rest : List Char} {value : Char} {units : List (List Char)} : Spells unit value →
      Fits unit cs → Cut cs units values rest → Cut (unit ++ cs) (unit :: units) (value :: values) rest

/-- A body ends after a unit, or with a backslash that nothing follows. -/
def Ended (rest : List Char) : Prop := rest = [] ∨ rest = ['\\']

/-- A unit where it fits, or an escape that gives a code. -/
def Stands (unit rest : List Char) : Prop := (∃ value, Spells unit value ∧ Fits unit rest) ∨ ∃ code, Coded unit code

/-- A text starts with an escape whose code belongs to no character, or with a backslash at which no escape stands. -/
inductive Offends : List Char → SourceFault → Prop where
  | code {unit rest : List Char} {code : Nat} : Coded unit code → ¬IsScalar code →
      Offends (unit ++ rest) (.codePoint code)
  | escape {c : Char} {cs : List Char} : (∀ unit rest, unit ++ rest = '\\' :: c :: cs → ¬Stands unit rest) →
      Offends ('\\' :: c :: cs) (.escape c)

theorem hexValue?_eq_lookup (c : Char) : hexValue? c = hexTable.lookup c := by
  by_cases hc : c.toNat < 128
  · have h : ∀ n < 128, hexValue? (Char.ofNat n) = hexTable.lookup (Char.ofNat n) := by decide +kernel
    have hn := h c.toNat hc
    rwa [Char.ofNat_toNat] at hn
  · have ht : ∀ p ∈ hexTable, p.1.toNat < 128 := by decide +kernel
    have hl : hexTable.lookup c = none := by
      rw [List.lookup_eq_none_iff]
      intro p hp
      have hlt := ht p hp
      rw [bne_iff_ne]
      rintro rfl
      omega
    have hv : hexValue? c = none := by
      have he : c.toNat = c.val.toNat := rfl
      simp only [hexValue?, Char.isDigit, Char.le_def, UInt32.le_iff_toNat_le, Bool.and_eq_true, decide_eq_true_eq,
        ge_iff_le, Char.reduceVal, UInt32.reduceToNat]
      rw [if_neg (by omega), if_neg (by omega), if_neg (by omega)]
    rw [hl, hv]

theorem isHexDigit_eq (c : Char) : isHexDigit c = (hexTable.lookup c).isSome := by
  rw [isHexDigit, hexValue?_eq_lookup]

theorem hexadecimal_iff {digits : List Char} : Hexadecimal digits ↔ ∀ c ∈ digits, isHexDigit c = true := by
  simp only [Hexadecimal, isHexDigit_eq]

theorem hexNumber_eq (digits : List Char) : hexNumber digits = codeOf digits := by
  simp only [hexNumber, codeOf, Nat.ofDigits_eq_foldr, List.foldr_map, List.foldr_reverse, hexValue?_eq_lookup,
    Nat.cast_id, Nat.add_comm]

theorem isScalar_iff {code : Nat} : IsScalar code ↔ code.isValidChar := by
  simp only [IsScalar, Nat.isValidChar]
  omega

theorem scalar_of_isScalar {code : Nat} (h : IsScalar code) : scalar code = .ok (Char.ofNat code) :=
  if_pos (isScalar_iff.1 h)

theorem scalar_of_not_isScalar {code : Nat} (h : ¬IsScalar code) : scalar code = .error (.codePoint code) :=
  if_neg fun hv => h (isScalar_iff.2 hv)

theorem fixed?_eq_some_iff {count : Nat} {cs digits : List Char} :
    fixed? count cs = some digits ↔ Hexadecimal digits ∧ digits.length = count ∧ digits <+: cs := by
  rw [hexadecimal_iff]
  simp only [fixed?, Option.ite_none_right_eq_some, List.all_eq_true, Option.some.injEq]
  constructor
  · rintro ⟨⟨hl,hd⟩,rfl⟩
    exact ⟨hd,hl,List.take_prefix count cs⟩
  · rintro ⟨hd,rfl,hp⟩
    rw [← List.prefix_iff_eq_take.1 hp]
    exact ⟨⟨rfl,hd⟩,rfl⟩

theorem braced?_eq_some_iff {cs digits : List Char} :
    braced? cs = some digits ↔
      Hexadecimal digits ∧ 1 ≤ digits.length ∧ digits.length ≤ 6 ∧ digits ++ ['\x7d'] <+: cs := by
  rw [hexadecimal_iff]
  simp only [braced?, Option.ite_none_right_eq_some, Option.some.injEq]
  constructor
  · rintro ⟨⟨hl,hm,hb⟩,rfl⟩
    obtain ⟨rest,hr⟩ := List.head?_eq_some_iff.1 hb
    refine ⟨fun c hc => List.mem_takeWhile_imp hc,hl,hm,rest,?_⟩
    rw [List.append_assoc, List.singleton_append, ← hr]
    exact List.prefix_iff_eq_append.1 (List.takeWhile_prefix isHexDigit)
  · rintro ⟨hd,hl,hm,rest,rfl⟩
    have ht : (digits ++ ['\x7d'] ++ rest).takeWhile isHexDigit = digits := by
      rw [List.append_assoc, List.takeWhile_append_of_pos hd]
      exact List.append_nil digits
    rw [ht]
    exact ⟨⟨hl,hm,by simp⟩,rfl⟩

theorem codeOf_lt (digits : List Char) : codeOf digits < 16 ^ digits.length := by
  have hv : ∀ p ∈ hexTable, p.2 < 16 := by decide +kernel
  have hd : ∀ n ∈ digits.reverse.map fun c => (hexTable.lookup c).getD 0, n < 16 := by
    intro n hn
    obtain ⟨c,_,rfl⟩ := List.mem_map.1 hn
    cases hc : hexTable.lookup c with
    | none => decide
    | some value =>
      obtain ⟨before,after,he,_⟩ := List.lookup_eq_some_iff.1 hc
      exact hv (c,value) (by simp [he])
  have hlt := Nat.ofDigits_lt_base_pow_length (by decide) hd
  rwa [List.length_map, List.length_reverse] at hlt

theorem mem_letters {c value : Char} (h : simple? c = some value) : (c,value) ∈ letters := by
  unfold simple? at h
  split at h <;> cases h <;> simp [letters]

theorem read_letter {c value : Char} (h : (c,value) ∈ letters) (cs : List Char) : read c cs = .ok (value,1) := by
  have hl : ∀ p ∈ letters, read p.1 cs = .ok (p.2,1) := by simp [letters, read, simple?]
  exact hl (c,value) h

theorem Coded.exists_unit {text : List Char} {code : Nat} (h : Coded text code) (rest : List Char) :
    ∃ c more, text = c :: more ∧ unit c (more ++ rest) = (scalar code).map (·,more.length) := by
  cases h with
  | @four digits hd hl =>
    have hf : fixed? 4 (digits ++ rest) = some digits := fixed?_eq_some_iff.2 ⟨hd,hl,List.prefix_append _ _⟩
    have hb : ∀ more, digits ++ rest ≠ '\x7b' :: more := by
      intro more hm
      obtain ⟨d,ds,rfl⟩ := List.exists_cons_of_length_eq_add_one hl
      obtain ⟨rfl,_⟩ := List.cons.inj hm
      exact absurd (hd _ List.mem_cons_self) (by decide +kernel)
    have hr : unit '\\' ('u' :: (digits ++ rest)) = _ := read.eq_2 _ hb
    refine ⟨_,_,rfl,?_⟩
    rw [List.cons_append, hr, List.length_cons, hl]
    simp only [hf, hexNumber_eq]
  | @braced digits hd hl hm =>
    have hb : braced? (digits ++ ['\x7d'] ++ rest) = some digits :=
      braced?_eq_some_iff.2 ⟨hd,hl,hm,List.prefix_append _ _⟩
    have hr : unit '\\' ('u' :: '\x7b' :: (digits ++ ['\x7d'] ++ rest)) = _ := read.eq_1 _
    refine ⟨_,_,rfl,?_⟩
    rw [List.cons_append, List.cons_append, hr, List.length_cons, List.length_cons, List.length_append]
    simp only [hb, hexNumber_eq]
    rfl

theorem Spells.exists_unit {text rest : List Char} {value : Char} (h : Spells text value) (hf : Fits text rest) :
    ∃ c more, text = c :: more ∧ unit c (more ++ rest) = .ok (value,more.length) := by
  cases h with
  | plain hc =>
    refine ⟨value,[],rfl,?_⟩
    unfold unit
    split
    · exact absurd rfl hc
    · rfl
  | @letter c value hm => exact ⟨'\\',[c],rfl,read_letter hm rest⟩
  | @byte digits hd hl =>
    have hf : fixed? 2 (digits ++ rest) = some digits := fixed?_eq_some_iff.2 ⟨hd,hl,List.prefix_append _ _⟩
    have hlt : codeOf digits < 16 ^ 2 := hl ▸ codeOf_lt digits
    have hs : IsScalar (codeOf digits) := ⟨by omega,by omega⟩
    have hr : unit '\\' ('x' :: (digits ++ rest)) = _ := read.eq_3 _
    refine ⟨_,_,rfl,?_⟩
    rw [List.cons_append, hr, List.length_cons, hl]
    simp only [hf, hexNumber_eq, scalar_of_isScalar hs]
    rfl
  | code hc hs =>
    obtain ⟨c,more,he,hu⟩ := hc.exists_unit rest
    rw [scalar_of_isScalar hs] at hu
    exact ⟨c,more,he,hu⟩
  | zero =>
    have hd : rest.head?.any Char.isDigit = false := by
      cases rest with
      | nil => rfl
      | cons c rest => exact hf rfl c rfl
    have hr : unit '\\' ('0' :: rest) = _ := read.eq_4 _
    refine ⟨_,_,rfl,?_⟩
    rw [List.singleton_append, hr, hd]
    rfl

theorem decodeFrom_skip (skip : Nat) (cs : List Char) : decodeFrom skip cs = decodeFrom 0 (cs.drop skip) := by
  induction cs generalizing skip with
  | nil =>
    rw [List.drop_nil]
    rfl
  | cons c cs ih =>
    cases skip with
    | zero => rfl
    | succ skip => rw [decodeFrom, ih, List.drop_succ_cons]

theorem Spells.decodeFrom_append {text rest : List Char} {value : Char} (h : Spells text value) (hf : Fits text rest) :
    decodeFrom 0 (text ++ rest) = (decodeFrom 0 rest).map (value :: ·) := by
  obtain ⟨c,more,rfl,hu⟩ := h.exists_unit hf
  rw [List.cons_append, decodeFrom, hu]
  simp only [bind, Except.bind]
  rw [decodeFrom_skip, List.drop_left]
  cases decodeFrom 0 rest <;> rfl

/-- Decoding goes through units, whatever comes after them. -/
theorem Cut.decodeFrom_eq {cs values rest : List Char} {units : List (List Char)} (h : Cut cs units values rest) :
    decodeFrom 0 cs = (decodeFrom 0 rest).map (values ++ ·) := by
  induction h with
  | @nil rest => cases decodeFrom 0 rest <;> rfl
  | @cons _ _ _ rest _ _ hs hf _ ih =>
    rw [hs.decodeFrom_append hf, ih]
    cases decodeFrom 0 rest <;> rfl

theorem Ended.decodeFrom_eq {rest : List Char} (h : Ended rest) : decodeFrom 0 rest = .ok rest := by
  rcases h with rfl | rfl <;> rfl

theorem Coded.fits {unit : List Char} {code : Nat} (h : Coded unit code) (rest : List Char) : Fits unit rest := by
  intro he
  subst he
  cases h

theorem read_of_not_stands {c : Char} {cs : List Char}
    (h : ∀ unit rest, unit ++ rest = '\\' :: c :: cs → ¬Stands unit rest) : read c cs = .error (.escape c) := by
  unfold read
  split
  case h_1 cs =>
    cases hb : braced? cs with
    | none => rfl
    | some digits =>
      obtain ⟨hd,hl,hm,more,rfl⟩ := braced?_eq_some_iff.1 hb
      exact absurd (.inr ⟨_,.braced hd hl hm⟩) (h _ more rfl)
  case h_2 =>
    cases hf : fixed? 4 cs with
    | none => rfl
    | some digits =>
      obtain ⟨hd,hl,more,rfl⟩ := fixed?_eq_some_iff.1 hf
      exact absurd (.inr ⟨_,.four hd hl⟩) (h _ more rfl)
  case h_3 =>
    cases hf : fixed? 2 cs with
    | none => rfl
    | some digits =>
      obtain ⟨hd,hl,more,rfl⟩ := fixed?_eq_some_iff.1 hf
      refine absurd (.inl ⟨_,.byte hd hl,?_⟩) (h _ more rfl)
      intro he
      cases he
  case h_4 =>
    cases hd : cs.head?.any Char.isDigit with
    | true => rfl
    | false =>
      refine absurd (.inl ⟨_,.zero,?_⟩) (h ['\\','0'] cs rfl)
      intro _ c hc
      simpa [hc] using hd
  case h_5 =>
    cases hs : simple? c with
    | none => rfl
    | some value =>
      have hm := mem_letters hs
      refine absurd (.inl ⟨_,.letter hm,?_⟩) (h ['\\',c] cs rfl)
      intro he
      cases he
      simp [letters] at hm

theorem Offends.decodeFrom_eq {cs : List Char} {fault : SourceFault} (h : Offends cs fault) :
    decodeFrom 0 cs = .error fault := by
  cases h with
  | @code unit rest code hc hs =>
    obtain ⟨c,more,rfl,hu⟩ := hc.exists_unit rest
    rw [scalar_of_not_isScalar hs] at hu
    rw [List.cons_append, decodeFrom, hu]
    rfl
  | @escape c cs hn =>
    have hu : Escape.unit '\\' (c :: cs) = .error (.escape c) := read_of_not_stands hn
    rw [decodeFrom, hu]
    rfl

theorem exists_front (c : Char) (cs : List Char) :
    (∃ unit rest value, unit ++ rest = c :: cs ∧ Spells unit value ∧ Fits unit rest) ∨ Ended (c :: cs) ∨
      ∃ fault, Offends (c :: cs) fault := by
  by_cases hc : c = '\\'
  · subst hc
    cases cs with
    | nil => exact .inr (.inl (.inr rfl))
    | cons d cs =>
      by_cases h : ∃ unit rest, unit ++ rest = '\\' :: d :: cs ∧ Stands unit rest
      · obtain ⟨unit,rest,he,⟨value,hs,hf⟩ | ⟨code,hu⟩⟩ := h
        · exact .inl ⟨unit,rest,value,he,hs,hf⟩
        · by_cases hs : IsScalar code
          · exact .inl ⟨unit,rest,_,he,.code hu hs,hu.fits rest⟩
          · rw [← he]
            exact .inr (.inr ⟨_,.code hu hs⟩)
      · exact .inr (.inr ⟨_,.escape fun unit rest he hs => h ⟨unit,rest,he,hs⟩⟩)
  · exact .inl ⟨[c],cs,c,rfl,.plain hc,fun he => by cases he⟩

/-- A text is cut into units as far as it goes: to its end, or to the first escape that decoding fails for. -/
theorem exists_cut (cs : List Char) :
    ∃ units values rest, Cut cs units values rest ∧ (Ended rest ∨ ∃ fault, Offends rest fault) := by
  induction hk : cs.length using Nat.strong_induction_on generalizing cs with
  | h k ih =>
    subst hk
    cases cs with
    | nil => exact ⟨[],[],[],.nil,.inl (.inl rfl)⟩
    | cons c cs =>
      rcases exists_front c cs with ⟨unit,rest,value,he,hs,hf⟩ | h
      · have hlt : rest.length < (c :: cs).length := by
          obtain ⟨d,more,rfl,_⟩ := hs.exists_unit hf
          rw [← he, List.length_append, List.length_cons]
          omega
        obtain ⟨units,values,last,hc,hl⟩ := ih rest.length hlt rest rfl
        rw [← he]
        exact ⟨unit :: units,value :: values,last,.cons hs hf hc,hl⟩
      · exact ⟨[],[],c :: cs,.nil,h⟩

theorem Spells.eq_of_append {unit unit' rest rest' : List Char} {value value' : Char} (h : Spells unit value)
    (hf : Fits unit rest) (h' : Spells unit' value') (hf' : Fits unit' rest') (he : unit ++ rest = unit' ++ rest') :
    unit = unit' ∧ value = value' ∧ rest = rest' := by
  -- how long the unit at the front is can be told from the text
  obtain ⟨c,more,rfl,hu⟩ := h.exists_unit hf
  obtain ⟨c',more',rfl,hu'⟩ := h'.exists_unit hf'
  rw [List.cons_append, List.cons_append] at he
  obtain ⟨rfl,hm⟩ := List.cons.inj he
  rw [hm, hu'] at hu
  obtain ⟨rfl,hl⟩ := Prod.mk.inj (Except.ok.inj hu)
  obtain ⟨rfl,rfl⟩ := List.append_inj hm hl.symm
  exact ⟨rfl,rfl,rfl⟩

theorem Ended.of_append {cs rest : List Char} (h : Ended (cs ++ rest)) : Ended cs := by
  rcases h with h | h
  · exact .inl (List.append_eq_nil_iff.1 h).1
  · rcases List.append_eq_singleton_iff.1 h with ⟨rfl,_⟩ | ⟨rfl,_⟩
    · exact .inl rfl
    · exact .inr rfl

/-- No unit is taken for the end of a body. -/
theorem Spells.not_ended {unit : List Char} {value : Char} (h : Spells unit value) : ¬Ended unit := by
  rintro (rfl | rfl)
  · cases h with
    | code hc _ => cases hc
  · cases h with
    | plain hc => exact hc rfl
    | code hc _ => cases hc

theorem Cut.unique {cs values values' rest rest' : List Char} {units units' : List (List Char)}
    (h : Cut cs units values rest) (hr : Ended rest) (h' : Cut cs units' values' rest') (hr' : Ended rest') :
    units = units' ∧ values = values' ∧ rest = rest' := by
  induction h generalizing units' values' with
  | nil =>
    cases h' with
    | nil => exact ⟨rfl,rfl,rfl⟩
    | cons hs _ _ => exact absurd hr.of_append hs.not_ended
  | @cons unit cs values rest value units hs hf _ ih =>
    generalize he : unit ++ cs = text at h'
    cases h' with
    | nil =>
      rw [← he] at hr'
      exact absurd hr'.of_append hs.not_ended
    | cons hs' hf' hc' =>
      obtain ⟨rfl,rfl,rfl⟩ := hs.eq_of_append hf hs' hf' he
      obtain ⟨rfl,rfl,rfl⟩ := ih hr hc'
      exact ⟨rfl,rfl,rfl⟩

theorem cut_of_isChain {values : List Char} {units : List (List Char)} (h : List.Forall₂ Spells units values)
    (hf : units.IsChain Fits) : Cut units.flatten units values [] := by
  induction h with
  | nil => exact .nil
  | @cons unit value units values hs hu ih =>
    cases hu with
    | nil => exact .cons hs (fun _ c hc => by cases hc) .nil
    | @cons next _ more _ hn _ =>
      obtain ⟨hd,hf⟩ := List.isChain_cons_cons.1 hf
      have hne : next ≠ [] := fun he => hn.not_ended (.inl he)
      refine .cons hs ?_ (ih hf)
      intro hz c hc
      rw [List.flatten_cons, List.head?_append_of_ne_nil _ hne] at hc
      exact hd hz c hc

end Escape

open Escape

theorem Token.IsLiteral.of_plain {c : Char} {rest : List Char} (h : IsLiteral (c :: rest)) (hc : c ≠ '\\') :
    IsLiteral rest := by
  cases h with
  | plain _ _ _ h => exact h
  | escaped _ _ => exact absurd rfl hc

theorem Token.IsLiteral.of_escaped {c : Char} {rest : List Char} (h : IsLiteral ('\\' :: c :: rest)) :
    IsLiteral rest := by
  cases h with
  | plain _ hb _ _ => exact absurd rfl hb
  | escaped _ h => exact h

theorem Token.IsLiteral.of_append {front rest : List Char} (h : IsLiteral (front ++ rest)) (hf : '\\' ∉ front) :
    IsLiteral rest := by
  induction front with
  | nil => exact h
  | cons c front ih =>
    rw [List.mem_cons, not_or] at hf
    exact ih (h.of_plain (Ne.symm hf.1)) hf.2

namespace Escape

theorem Hexadecimal.not_mem {digits : List Char} (h : Hexadecimal digits) : '\\' ∉ digits :=
  fun hm => absurd (h '\\' hm) (by decide +kernel)

/-- What is left of a literal after a unit could be a literal of its own. -/
theorem Spells.isLiteral_of_append {unit rest : List Char} {value : Char} (h : Spells unit value)
    (hl : Token.IsLiteral (unit ++ rest)) : Token.IsLiteral rest := by
  cases h with
  | plain hc => exact hl.of_append (by simpa using hc.symm)
  | letter _ => exact hl.of_escaped
  | byte hd _ => exact hl.of_escaped.of_append hd.not_mem
  | code hc _ =>
    cases hc with
    | four hd _ => exact hl.of_escaped.of_append hd.not_mem
    | @braced digits hd _ _ =>
      have hf : '\\' ∉ '\x7b' :: (digits ++ ['\x7d']) := by simpa using hd.not_mem
      exact hl.of_escaped.of_append hf
  | zero => exact hl.of_escaped

theorem Cut.isLiteral_rest {cs values rest : List Char} {units : List (List Char)} (h : Cut cs units values rest)
    (hl : Token.IsLiteral cs) : Token.IsLiteral rest := by
  induction h with
  | nil => exact hl
  | cons hs _ _ ih => exact ih (hs.isLiteral_of_append hl)

end Escape

theorem Region.isLiteral_of_token? {region : Region} {afterBlock : Bool} {cs : List Char} {body : String}
    (h : region.token? afterBlock cs = some (.text body)) : Token.IsLiteral body.toList := by
  by_cases ho : ∃ word, region.opener = some word ∧ word.toList <+: cs
  · obtain ⟨word,ho,hp⟩ := ho
    rw [token?_of_opener ho hp] at h
    cases h
  · exact (longest_of_token? (fun word hw hp => ho ⟨word,hw,hp⟩) h (by simp)).spelled

theorem Lexing.isLiteral_of_mem {region : Region} {afterBlock : Bool} {offset skip : Nat} {cs : List Char}
    {lexeme : Lexeme} {body : String} (h : lexeme ∈ (scan region afterBlock offset skip cs).lexemes)
    (ht : lexeme.token = .text body) : Token.IsLiteral body.toList := by
  induction cs generalizing region afterBlock offset skip with
  | nil => cases h
  | cons c cs ih =>
    unfold scan at h
    split at h
    · exact ih h
    split at h
    · exact ih h
    split at h
    · exact ih h
    split at h
    · cases h
    · next token hf =>
      rcases List.mem_cons.1 h with rfl | h
      · subst ht
        exact Region.isLiteral_of_token? hf
      · exact ih h

namespace Escape

variable {body : String} {units : List (List Char)} {values rest : List Char}

theorem Cut.decodeLiteral_of_ended (h : Cut body.toList units values rest) (hr : Ended rest) (place : Place) :
    decodeLiteral body place = .ok (String.ofList (values ++ rest)) := by
  rw [decodeLiteral, decode, h.decodeFrom_eq, hr.decodeFrom_eq]
  rfl

theorem Cut.decodeLiteral_of_offends {fault : SourceFault} (h : Cut body.toList units values rest)
    (ho : Offends rest fault) (place : Place) :
    decodeLiteral body place = .error (.ofCause (.source fault place)) := by
  rw [decodeLiteral, decode, h.decodeFrom_eq, ho.decodeFrom_eq]
  rfl

end Escape

variable {body : String}

theorem decodeLiteral_eq_ok_iff {place : Place} {text : String} :
    decodeLiteral body place = .ok text ↔
      ∃ units values rest, Cut body.toList units values rest ∧ Ended rest ∧ text.toList = values ++ rest := by
  constructor
  · intro h
    obtain ⟨units,values,rest,hc,hr | ⟨fault,ho⟩⟩ := exists_cut body.toList
    · rw [hc.decodeLiteral_of_ended hr] at h
      cases h
      exact ⟨units,values,rest,hc,hr,String.toList_ofList⟩
    · rw [hc.decodeLiteral_of_offends ho] at h
      cases h
  · rintro ⟨units,values,rest,hc,hr,ht⟩
    rw [hc.decodeLiteral_of_ended hr, ← ht, String.ofList_toList]

theorem decodeLiteral_eq_error_iff {place : Place} {problem : Problem} :
    decodeLiteral body place = .error problem ↔
      ∃ units values rest fault, Cut body.toList units values rest ∧ Offends rest fault ∧
        problem = .ofCause (.source fault place) := by
  constructor
  · intro h
    obtain ⟨units,values,rest,hc,hr | ⟨fault,ho⟩⟩ := exists_cut body.toList
    · rw [hc.decodeLiteral_of_ended hr] at h
      cases h
    · rw [hc.decodeLiteral_of_offends ho] at h
      exact ⟨units,values,rest,fault,hc,ho,(Except.error.inj h).symm⟩
  · rintro ⟨units,values,rest,fault,hc,ho,rfl⟩
    exact hc.decodeLiteral_of_offends ho place

theorem decodeLiteral_of_spells {text : String} {units : List (List Char)}
    (hs : List.Forall₂ Spells units text.toList) (hf : units.IsChain Fits) (hb : body.toList = units.flatten)
    (place : Place) : decodeLiteral body place = .ok text := by
  have hc : Cut body.toList units text.toList [] := hb ▸ cut_of_isChain hs hf
  rw [hc.decodeLiteral_of_ended (.inl rfl), List.append_nil, String.ofList_toList]

/-- No literal has a backslash at its end that belongs to no unit: the lexer would have taken the quotation mark that
closes it as escaped. -/
theorem Lexing.not_cut_backslash {region : Region} {afterBlock : Bool} {offset skip : Nat} {cs : List Char}
    {lexeme : Lexeme} (h : lexeme ∈ (scan region afterBlock offset skip cs).lexemes) (ht : lexeme.token = .text body)
    (units : List (List Char)) (values : List Char) : ¬Cut body.toList units values ['\\'] := by
  intro hc
  have hl : Token.IsLiteral ['\\'] := hc.isLiteral_rest (isLiteral_of_mem h ht)
  cases hl with
  | plain _ hb _ _ => exact hb rfl

/-- The bodies that can be decoded are those made of units, perhaps with a backslash at the end. They are so in one way,
and stand for what the units spell. Any other body fails for the first thing in it that is no unit. -/
theorem decodeLiteral_iff_cut (body : String) (place : Place) :
    (∀ text : String, decodeLiteral body place = .ok text ↔
      ∃ units values rest, Cut body.toList units values rest ∧ Ended rest ∧ text.toList = values ++ rest) ∧
    (∀ units values rest units' values' rest', Cut body.toList units values rest → Ended rest →
      Cut body.toList units' values' rest' → Ended rest' → units = units' ∧ values = values' ∧ rest = rest') ∧
    (∀ (text : String) (units : List (List Char)), List.Forall₂ Spells units text.toList → units.IsChain Fits →
      body.toList = units.flatten → decodeLiteral body place = .ok text) ∧
    (∀ problem, decodeLiteral body place = .error problem ↔
      ∃ units values rest fault, Cut body.toList units values rest ∧ Offends rest fault ∧
        problem = .ofCause (.source fault place)) ∧
    (∀ code c,
      (Cause.source (.codePoint code) place).message =
        "invalid code point U+" ++ (String.ofList (Nat.toDigits 16 code)).toUpper ++ place.suffix ∧
      (Cause.source (.escape c) place).message =
        "invalid escape sequence '\\" ++ c.toString ++ "'" ++ place.suffix) ∧
    ∀ source lexeme, lexeme ∈ (Lexing.ofExpr source).lexemes ++ (Lexing.ofProgram source).lexemes →
      lexeme.token = .text body → ∀ units values, ¬Cut body.toList units values ['\\'] := by
  refine ⟨fun text => decodeLiteral_eq_ok_iff,fun _ _ _ _ _ _ h hr h' hr' => h.unique hr h' hr',
    fun text units hs hf hb => decodeLiteral_of_spells hs hf hb place,fun problem => decodeLiteral_eq_error_iff,
    fun code c => ⟨rfl,rfl⟩,?_⟩
  intro source lexeme hm ht
  rcases List.mem_append.1 hm with hm | hm
  · exact Lexing.not_cut_backslash hm ht
  · exact Lexing.not_cut_backslash hm ht

/-- Units of every kind, and a backslash after them. -/
def mixedBody : String := "a\\n\\x41\\u00e9\\u\x7b20AC\x7d\\0b\\"

def mixedText : String := "a\nA\u00e9\u20ac\x00b\\"

/-- A zero before a digit, which has to be spelled by its code. -/
def zeroUnits : List (List Char) := [['\\','x','0','0'],['1']]

theorem decodeLiteral_iff_cut_mixed :
    (decodeLiteral mixedBody .nowhere = .ok mixedText ∧
      ∃ units values rest, Cut mixedBody.toList units values rest ∧ Ended rest ∧ mixedText.toList = values ++ rest) ∧
    (List.Forall₂ Spells zeroUnits "\x001".toList ∧ zeroUnits.IsChain Fits ∧
      decodeLiteral "\\x001" .nowhere = .ok "\x001") ∧
    (decodeLiteral "\\t\\ud800" .nowhere = .error (.ofCause (.source (.codePoint 0xD800) .nowhere)) ∧
      ∃ units values rest fault, Cut "\\t\\ud800".toList units values rest ∧ Offends rest fault ∧
        Problem.ofCause (.source (.codePoint 0xD800) .nowhere) = .ofCause (.source fault .nowhere)) ∧
    ⟨.text "\\t",0⟩ ∈ (Lexing.ofExpr "\"\\t\"").lexemes ++ (Lexing.ofProgram "\"\\t\"").lexemes ∧
      ∀ units values, ¬Cut "\\t".toList units values ['\\'] := by
  have hm : decodeLiteral mixedBody .nowhere = .ok mixedText := by decide +kernel
  have hd : decodeLiteral "\\t\\ud800" .nowhere = .error (.ofCause (.source (.codePoint 0xD800) .nowhere)) := by
    decide +kernel
  have hs : List.Forall₂ Spells zeroUnits "\x001".toList := by
    refine .cons ?_ (.cons (.plain (by decide)) .nil)
    have hb : Spells ('\\' :: 'x' :: ['0','0']) (Char.ofNat (codeOf ['0','0'])) := .byte (by decide +kernel) rfl
    exact hb
  have hf : zeroUnits.IsChain Fits := by
    refine .cons_cons ?_ (.singleton _)
    intro he
    cases he
  have hl : (⟨.text "\\t",0⟩ : Lexeme) ∈
      (Lexing.ofExpr "\"\\t\"").lexemes ++ (Lexing.ofProgram "\"\\t\"").lexemes := by decide +kernel
  exact ⟨⟨hm,((decodeLiteral_iff_cut mixedBody .nowhere).1 mixedText).1 hm⟩,
    ⟨hs,hf,(decodeLiteral_iff_cut "\\x001" .nowhere).2.2.1 _ _ hs hf (by decide +kernel)⟩,
    ⟨hd,((decodeLiteral_iff_cut _ .nowhere).2.2.2.1 _).1 hd⟩,
    hl,(decodeLiteral_iff_cut "\\t" .nowhere).2.2.2.2.2 _ _ hl rfl⟩

end Mica
