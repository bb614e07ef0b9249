import Mica.Proofs.Grammar.Escapes
import Mica.Proofs.Grammar.Layout
import Mica.Proofs.Grammar.Leaves

/-! # Positions

A text that is refused is refused at a place in it. What the fault names stands there: the character at which no token
starts, or a token. Only a text that ends too soon is refused at its last token, or at its beginning if it has none.
-/
namespace Mica

namespace Grammar

/-- Some characters stand at a place in a text with `offset` characters before it. -/
def StandsAt (offset : Nat) (cs : List Char) (place : Nat) (part : List Char) : Prop :=
  ∃ k ≤ cs.length, place = offset + k ∧ part <+: cs.drop k

variable {offset place : Nat} {cs part : List Char} {lexing : Lexing}

theorem standsAt_front (gap part rest : List Char) :
    StandsAt offset (gap ++ (part ++ rest)) (offset + gap.length) part := by
  refine ⟨gap.length,by simp,rfl,?_⟩
  rw [List.drop_left]
  exact List.prefix_append part rest

theorem StandsAt.behind {gap front rest : List Char}
    (h : StandsAt (offset + gap.length + front.length) rest place part) :
    StandsAt offset (gap ++ (front ++ rest)) place part := by
  obtain ⟨k,hk,rfl,hp⟩ := h
  refine ⟨gap.length + (front.length + k),?_,by omega,?_⟩
  · simp only [List.length_append]
    omega
  · rwa [← List.drop_drop, List.drop_left, ← List.drop_drop, List.drop_left]

/-- A lexeme stands in the text where it says. -/
theorem Lexed.standsAt {l : Lexeme} (h : Lexed offset cs lexing) (hl : l ∈ lexing.lexemes) :
    StandsAt offset cs l.offset l.token.lexeme.toList := by
  induction h with
  | done _ => cases hl
  | stuck _ => cases hl
  | @lexeme offset gap rest token lexing _ _ _ ih =>
    rcases List.mem_cons.1 hl with rfl | hl
    · exact standsAt_front gap _ rest
    · rw [token.width_eq_length] at ih
      exact (ih hl).behind

/-- So does the character at which the lexer is stuck. -/
theorem Lexed.standsAt_stuck {c : Char} (h : Lexed offset cs lexing) (hs : lexing.stuck = some (c,place)) :
    StandsAt offset cs place [c] := by
  induction h with
  | done _ => cases hs
  | @stuck offset gap rest c _ =>
    cases hs
    exact standsAt_front gap [c] rest
  | @lexeme offset gap rest token lexing _ _ _ ih =>
    rw [token.width_eq_length] at ih
    exact (ih hs).behind

end Grammar

open Grammar

/-! ## What a fault names -/

/-- A string literal at a place whose body cannot be decoded, for the reason that is given. -/
def Misspelt (lexing : Lexing) (place : Nat) (fault : SourceFault) : Prop :=
  ∃ body, ⟨.text body,place⟩ ∈ lexing.lexemes ∧ Escape.decode body = .error fault

/-- What a fault names is at a place: the character at which the lexer is stuck, or a token that the fault is about. A
text that ends too soon has been lexed to its end, and the place is that of the last token. -/
def SourceFault.LiesAt (lexing : Lexing) (place : Nat) : SourceFault → Prop
  | endOfInput => lexing.stuck = none ∧ place = (lexing.lexemes.getLast?.map Lexeme.offset).getD 0
  | character c => lexing.stuck = some (c,place)
  | token lexeme => ∃ token, ⟨token,place⟩ ∈ lexing.lexemes ∧ token.lexeme = lexeme
  | keyword word => ⟨.word word,place⟩ ∈ lexing.lexemes ∧ word ∈ keywords
  | integerRange lexeme => ⟨.number lexeme,place⟩ ∈ lexing.lexemes ∧
      (numeralValue lexeme < -2147483648 ∨ 2147483647 < numeralValue lexeme)
  | escape c => Misspelt lexing place (.escape c)
  | codePoint code => Misspelt lexing place (.codePoint code)
  | other _ => False

/-- The characters that a fault quotes from the text. That is nothing for the end of the text, and the quotation mark
for a literal. -/
def SourceFault.quoted : SourceFault → List Char
  | character c => [c]
  | token lexeme | keyword lexeme | integerRange lexeme => lexeme.toList
  | escape _ | codePoint _ => ['"']
  | endOfInput | other _ => []

section Blame

variable {lexing : Lexing} {place : Nat} {fault : SourceFault}

theorem liesAt_of_decode {body : String} (hl : ⟨.text body,place⟩ ∈ lexing.lexemes)
    (h : Escape.decode body = .error fault) : fault.LiesAt lexing place := by
  have hd : decodeLiteral body .nowhere = .error (.ofCause (.source fault .nowhere)) := by rw [decodeLiteral, h]; rfl
  obtain ⟨_,_,_,found,_,ho,he⟩ := decodeLiteral_eq_error_iff.1 hd
  obtain rfl : fault = found := by
    cases he
    rfl
  cases ho with
  | code _ _ => exact ⟨body,hl,h⟩
  | escape _ => exact ⟨body,hl,h⟩

/-- A flaw of a leaf lies at the leaf. -/
theorem liesAt_of_flaw {l : Lexeme} (hl : l ∈ lexing.lexemes) (h : l.flaw? = some (.fault fault place)) :
    fault.LiesAt lexing place := by
  obtain ⟨token,offset⟩ := l
  cases token with
  | word text =>
    simp only [Lexeme.flaw?, Option.ite_none_right_eq_some] at h
    obtain ⟨hk,he⟩ := h
    cases he
    exact ⟨hl,hk⟩
  | number lexeme =>
    simp only [Lexeme.flaw?, checkNumeral] at h
    split at h
    · cases h
    · split at h
      · cases h
      · next hn =>
        cases h
        exact ⟨hl,I32.ofInt?_eq_none_iff.1 hn⟩
  | text body =>
    simp only [Lexeme.flaw?, checkLiteral] at h
    split at h
    · cases h
    · next found hd =>
      cases h
      exact liesAt_of_decode hl hd
  | _ => cases h

theorem liesAt_of_blame {left : List Lexeme} (hl : left <:+ lexing.lexemes) (h : lexing.blame left = (fault,place)) :
    fault.LiesAt lexing place := by
  cases left with
  | cons l rest =>
    cases h
    exact ⟨l.token,hl.mem List.mem_cons_self,rfl⟩
  | nil =>
    cases hs : lexing.stuck with
    | some found =>
      simp only [Lexing.blame, hs] at h
      cases h
      exact hs
    | none =>
      cases hlast : lexing.lexemes.getLast? with
      | some l =>
        simp only [Lexing.blame, hs, hlast] at h
        cases h
        exact ⟨hs,by rw [hlast]; rfl⟩
      | none =>
        simp only [Lexing.blame, hs, hlast] at h
        cases h
        exact ⟨hs,by rw [hlast]; rfl⟩

theorem liesAt_of_parse {α β : Type} {reader : Nat → Reader α} {leaves : α → List Lexeme} {check : α → Except Flaw β}
    (hc : ChecksLeaves reader leaves check) (h : lexing.parse reader check = .error (.fault fault place)) :
    fault.LiesAt lexing place := by
  rcases Lexing.parse_eq_error hc h with ⟨left,_,_,hl,hb,he⟩ | ⟨l,hl,hf⟩
  · cases he
    exact liesAt_of_blame hl hb
  · exact liesAt_of_flaw hl hf

/-- A fault quotes what stands at its place. -/
theorem SourceFault.LiesAt.standsAt {cs : List Char} (h : fault.LiesAt lexing place) (hl : Lexed 0 cs lexing) :
    StandsAt 0 cs place fault.quoted := by
  have literal {body : String} (hm : ⟨.text body,place⟩ ∈ lexing.lexemes) : StandsAt 0 cs place ['"'] := by
    obtain ⟨k,hk,ho,hp⟩ := hl.standsAt hm
    refine ⟨k,hk,ho,List.IsPrefix.trans ?_ hp⟩
    rw [Token.toList_text]
    exact ⟨_,rfl⟩
  cases fault with
  | endOfInput =>
    obtain ⟨_,rfl⟩ := h
    cases hlast : lexing.lexemes.getLast? with
    | none => exact ⟨0,Nat.zero_le _,rfl,List.nil_prefix⟩
    | some l =>
      obtain ⟨k,hk,ho,_⟩ := hl.standsAt (List.mem_of_getLast? hlast)
      exact ⟨k,hk,ho,List.nil_prefix⟩
  | character c => exact hl.standsAt_stuck h
  | token lexeme =>
    obtain ⟨token,hm,rfl⟩ := h
    exact hl.standsAt hm
  | keyword word => exact hl.standsAt h.1
  | integerRange lexeme => exact hl.standsAt h.1
  | escape c =>
    obtain ⟨body,hm,_⟩ := h
    exact literal hm
  | codePoint code =>
    obtain ⟨body,hm,_⟩ := h
    exact literal hm
  | other text => exact h.elim

end Blame

/-! ## Lines and columns -/

/-- A place gives line and column of what has `k` characters before it. Lines are counted by the line feeds before it,
columns by the characters after the last of these. -/
def Place.IsAt (place : Place) (cs : List Char) (k : Nat) : Prop :=
  ∃ earlier current, cs.take k = earlier ++ current ∧ (earlier = [] ∨ earlier.getLast? = some '\n') ∧ '\n' ∉ current ∧
    place = .point (1 + (cs.take k).count '\n' : Nat) (1 + current.length : Nat)

theorem Place.isAt_ofOffset (cs : List Char) (k : Nat) : (ofOffset cs k).IsAt cs k := by
  let back := (cs.take k).reverse
  have hsplit : cs.take k = (back.dropWhile (· ≠ '\n')).reverse ++ (back.takeWhile (· ≠ '\n')).reverse := by
    rw [← List.reverse_append, List.takeWhile_append_dropWhile, List.reverse_reverse]
  have hcurrent : '\n' ∉ (back.takeWhile (· ≠ '\n')).reverse := by
    intro hm
    simpa using List.mem_takeWhile_imp (List.mem_reverse.1 hm)
  refine ⟨_,_,hsplit,?_,hcurrent,?_⟩
  · rw [List.getLast?_reverse]
    have hhead := List.head?_dropWhile_not (· ≠ '\n') back
    cases hd : back.dropWhile (· ≠ '\n') with
    | nil => exact .inl rfl
    | cons c rest =>
      rw [hd] at hhead
      exact .inr (congrArg some (by simpa using hhead))
  · rw [List.length_reverse, Nat.add_comm 1, Nat.add_comm 1]
    rfl

/-- A text was refused at a place in it, where what is named stands. -/
def Failure.Points (failure : Failure) (source : String) (lexing : Lexing) : Prop :=
  ∃ fault place k, failure = ⟨.source fault place,[]⟩ ∧ k ≤ source.toList.length ∧ place.IsAt source.toList k ∧
    Lexed 0 source.toList lexing ∧ fault.LiesAt lexing k ∧ fault.quoted <+: source.toList.drop k

theorem Failure.points_of_parse {α β γ : Type} {reader : Nat → Reader α} {leaves : α → List Lexeme}
    {check : α → Except Flaw β} {f : β → γ} {source : String} {lexing : Lexing} {failure : Failure}
    (hc : ChecksLeaves reader leaves check) (hl : Lexed 0 source.toList lexing)
    (h : ((lexing.parse reader check).map f).mapError (Flaw.toProblem source) = .error (.failure failure)) :
    failure.Points source lexing := by
  obtain ⟨flaw,hp,hf⟩ := Except.eq_error_of_mapError_map h
  cases flaw with
  | tooLong => cases hf
  | fault fault k =>
    have hlies := liesAt_of_parse hc hp
    obtain ⟨n,hn,hk,hquoted⟩ := hlies.standsAt hl
    obtain rfl : k = n := by omega
    exact ⟨fault,_,k,(Problem.failure.inj hf).symm,hn,Place.isAt_ofOffset _ k,hl,hlies,hquoted⟩

/-- Whenever a text is refused, the failure has a line and a column, and what it names is there. -/
theorem failure_points (source : String) (failure : Failure) :
    (Named.parse source = .error (.failure failure) → failure.Points source (.ofExpr source)) ∧
      (Program.parse source = .error (.failure failure) → failure.Points source (.ofProgram source)) := by
  constructor
  · intro h
    rw [Named.parse_eq_map] at h
    exact Failure.points_of_parse Phrase.checksLeaves (lexed_scan _ _ _ _) h
  · intro h
    exact Failure.points_of_parse ClassPhrase.checksLeaves (lexed_scan _ _ _ _) h

/-- The fault is in the second literal. A numeral that is out of range comes later, and a comment before. -/
def crookedText : String := "// \"\\q\"\nf \"ok\"\n  \"a\\q\" 99999999999"

/-- A class in which a keyword is used as a name. -/
def crookedClass : String := "class A \x7b\n def m = let in = 1 in 2; \x7d"

theorem failure_points_crooked :
    (Named.parse crookedText = .error (.failure ⟨.source (.escape 'q') (.point 3 3),[]⟩) ∧
      Failure.Points ⟨.source (.escape 'q') (.point 3 3),[]⟩ crookedText (.ofExpr crookedText)) ∧
    Program.parse crookedClass = .error (.failure ⟨.source (.keyword "in") (.point 2 14),[]⟩) ∧
      Failure.Points ⟨.source (.keyword "in") (.point 2 14),[]⟩ crookedClass (.ofProgram crookedClass) := by
  have he : Named.parse crookedText = .error (.failure ⟨.source (.escape 'q') (.point 3 3),[]⟩) := by decide +kernel
  have hp : Program.parse crookedClass = .error (.failure ⟨.source (.keyword "in") (.point 2 14),[]⟩) := by
    decide +kernel
  exact ⟨⟨he,(failure_points _ _).1 he⟩,hp,(failure_points _ _).2 hp⟩

end Mica
