import Mica.Proofs.Grammar.Layout
import Mica.Session

/-! # Typed input

A typed text loses its invisible characters first, and then its beginning decides what it is taken for: a command, classes
or an expression. Neither looks at the grammar. A text keeps its tree as long as no literal has an invisible character in
it and no two tokens are kept apart by carriage returns alone. It reaches the parser that accepts it as long as it does not
open with a comment, which looks like a command, and the word that opens its first class stands by itself.
-/
namespace Mica

open Grammar

/-! ## Without invisible characters -/

/-- The characters that are left of a text. -/
def visibleChars (cs : List Char) : List Char := cs.filter (!isInvisible ·)

theorem toList_visible (source : String) : (visible source).toList = visibleChars source.toList := by
  rw [visible, String.toList_ofList, visibleChars]

theorem visibleChars_append (cs rest : List Char) : visibleChars (cs ++ rest) = visibleChars cs ++ visibleChars rest :=
  List.filter_append ..

theorem visibleChars_cons {c : Char} (h : isInvisible c = false) (cs : List Char) :
    visibleChars (c :: cs) = c :: visibleChars cs := by
  simp [visibleChars, h]

theorem visibleChars_eq_self {cs : List Char} (h : cs.any isInvisible = false) : visibleChars cs = cs := by
  refine List.filter_eq_self.2 fun c hc => ?_
  have hvisible := List.any_eq_false.1 h c hc
  simpa using hvisible

theorem visible_eq_self {source : String} (h : source.toList.any isInvisible = false) : visible source = source :=
  String.toList_injective ((toList_visible source).trans (visibleChars_eq_self h))

theorem mem_of_mem_visibleChars {c : Char} {cs : List Char} (h : c ∈ visibleChars cs) : c ∈ cs := (List.mem_filter.1 h).1

instance (token : Token) (rest : List Char) : Decidable (token.Ends rest) :=
  match token with
  | .word _ | .otherwise | .number _ => Option.decidableForallMem rest.head?
  | .text _ | .openBrace | .closeBrace | .openParen | .closeParen | .semicolon | .equals => isTrue trivial

namespace Grammar

theorem Gap.visibleChars {gap : List Char} (h : Gap gap) : Gap (visibleChars gap) := by
  induction h with
  | nil => exact .nil
  | @blank c cs hl _ ih =>
    by_cases hc : isInvisible c = true
    · simpa [Mica.visibleChars, hc] using ih
    · rw [visibleChars_cons (by simpa using hc)]
      exact .blank hl ih
  | @comment body cs hb _ ih =>
    rw [visibleChars_cons rfl, visibleChars_cons rfl, visibleChars_append, visibleChars_cons rfl]
    exact .comment (fun c hc => hb c (mem_of_mem_visibleChars hc)) ih

theorem LastGap.visibleChars {gap : List Char} (h : LastGap gap) : LastGap (visibleChars gap) := by
  cases h with
  | gap hg => exact .gap hg.visibleChars
  | comment hg hb =>
    rw [visibleChars_append, visibleChars_cons rfl, visibleChars_cons rfl]
    exact .comment hg.visibleChars fun c hc => hb c (mem_of_mem_visibleChars hc)

/-- A gap of which nothing is left consists of carriage returns. -/
theorem Gap.all_return {gap : List Char} (h : Gap gap) (he : Mica.visibleChars gap = []) :
    gap.all (· == '\r') = true := by
  induction h with
  | nil => rfl
  | @blank c cs hl _ ih =>
    have hc : isInvisible c = true := by
      by_contra hc
      rw [visibleChars_cons (by simpa using hc)] at he
      cases he
    have hrest : Mica.visibleChars cs = [] := by simpa [Mica.visibleChars, hc] using he
    refine Bool.and_eq_true_iff.2 ⟨?_,ih hrest⟩
    simp only [isLayout, Bool.or_eq_true, beq_iff_eq] at hl
    rcases hl with (((rfl | rfl) | rfl) | rfl) | rfl
    · cases hc
    · cases hc
    · cases hc
    · rfl
    · cases hc
  | comment _ _ _ =>
    rw [visibleChars_cons rfl] at he
    cases he

theorem LastGap.isNamePart_head {c : Char} {cs : List Char} (h : LastGap (c :: cs)) : Token.isNamePart c = false := by
  generalize he : c :: cs = text at h
  cases h with
  | gap hg =>
    subst he
    exact hg.isNamePart_head
  | @comment gap body hg _ =>
    cases gap with
    | nil =>
      cases he
      rfl
    | cons first gap =>
      cases he
      exact hg.isNamePart_head

/-- The characters of a text from the end of a lexeme to the start of another. -/
def between (source : String) (first second : Lexeme) : List Char :=
  (source.toList.take second.offset).drop (first.offset + first.token.width)

/-- Where nothing but carriage returns lies between two neighbouring lexemes, the second cannot be read as a part of the
first, unless the first is a word that opens something at its place, and that is recognised whatever follows. -/
def Apart (source : String) (region : Region) : List Lexeme → Prop
  | first :: second :: rest =>
    ((between source first second).all (· == '\r') = true →
      first.token.Ends second.token.lexeme.toList ∨ region.opener.map Token.word = some first.token) ∧
    Apart source (region.after first.token) (second :: rest)
  | _ => True

instance decidableApart (source : String) :
    (region : Region) → (lexemes : List Lexeme) → Decidable (Apart source region lexemes)
  | region, first :: second :: rest =>
    have := decidableApart source (region.after first.token) (second :: rest)
    inferInstanceAs (Decidable (_ ∧ _))
  | _, [] => isTrue trivial
  | _, [_] => isTrue trivial

/-- Taking out the invisible characters neither changes a token of a text nor joins two of them. -/
structure Intact (source : String) (region : Region) (lexemes : List Lexeme) : Prop where
  visible : ∀ token ∈ tokens lexemes, token.lexeme.toList.any isInvisible = false
  apart : Apart source region lexemes

/-- What is left of the text after a token cannot be read as a part of it. -/
theorem Laid.ends_visible {source : String} {region : Region} {token : Token} {offset : Nat} {pre rest : List Char}
    {ls : List Lexeme} (h : Laid (offset + token.width) rest ls) (hsource : source.toList = pre ++ rest)
    (hpre : offset + token.width = pre.length) (hv : ∀ token ∈ tokens ls, token.lexeme.toList.any isInvisible = false)
    (ha : Apart source region (⟨token,offset⟩ :: ls)) (ho : ∀ word, region.opener = some word → token ≠ .word word) :
    token.Ends (visibleChars rest) := by
  cases h with
  | done hg =>
    refine token.ends_of_head fun c hc => ?_
    obtain ⟨more,hm⟩ := List.head?_eq_some_iff.1 hc
    have hlast := hg.visibleChars
    rw [hm] at hlast
    exact hlast.isNamePart_head
  | @lexeme _ gap rest second ls hg hs _ =>
    have hsecond : visibleChars second.lexeme.toList = second.lexeme.toList :=
      visibleChars_eq_self (hv second (by simp))
    rw [visibleChars_append, visibleChars_append, hsecond]
    cases hgap : visibleChars gap with
    | cons c cs =>
      have hleft := hg.visibleChars
      rw [hgap] at hleft
      refine token.ends_of_head fun d hd => ?_
      obtain rfl : c = d := Option.some.inj hd
      exact hleft.isNamePart_head
    | nil =>
      -- the lexemes touch once the carriage returns between them are gone
      have hbetween : between source ⟨token,offset⟩ ⟨second,offset + token.width + gap.length⟩ = gap := by
        rw [between, hsource, hpre, ← List.append_assoc, List.take_left' (by simp), List.drop_left]
      obtain ⟨hends,_⟩ := ha
      rw [hbetween] at hends
      obtain ⟨c,more,hc,_⟩ := Token.Visible.of_recognised (Token.visible_of_spelled hs)
      rcases hends (hg.all_return hgap) with hends | hopen
      · rw [List.nil_append]
        -- only the first character of what follows matters, and it is that of the second lexeme
        have hhead : (second.lexeme.toList ++ visibleChars rest).head? = second.lexeme.toList.head? := by
          rw [hc]
          rfl
        cases token with
        | word name => exact fun d hd => hends d (hhead ▸ hd)
        | otherwise => exact fun d hd => hends d (hhead ▸ hd)
        | number numeral => exact fun d hd => hends d (hhead ▸ hd)
        | _ => trivial
      · obtain ⟨word,hword,hw⟩ := Option.map_eq_some_iff.1 hopen
        exact absurd hw.symm (ho word hword)

/-- What is left of an intact text splits into the same tokens. -/
theorem Laid.splits_visible {opener : List Token → String → Prop} {start : Region} {before : List Token}
    {source : String} {offset : Nat} {pre cs : List Char} {ls : List Lexeme} (h : Laid offset cs ls)
    (hs : Steered opener start before (tokens ls)) (hsource : source.toList = pre ++ cs) (hpre : offset = pre.length)
    (hi : Intact source (start.afterAll before) ls) : Splits opener before (visibleChars cs) (tokens ls) := by
  induction h generalizing before pre with
  | done hg => exact hg.visibleChars.splits
  | @lexeme offset gap rest token ls hg hspelled hr ih =>
    obtain ⟨hv,ha⟩ := hi
    obtain ⟨hvtoken,hvrest⟩ := List.forall_mem_cons.1 hv
    have hw := hs.1
    have hne := hs.2.1
    have htoken : visibleChars token.lexeme.toList = token.lexeme.toList := visibleChars_eq_self hvtoken
    have hsource' : source.toList = (pre ++ gap ++ token.lexeme.toList) ++ rest := by simpa using hsource
    have hpre' : offset + gap.length + token.width = (pre ++ gap ++ token.lexeme.toList).length := by
      simp only [List.length_append, Token.width_eq_length]
      omega
    have hnext : Apart source (start.afterAll (before ++ [token])) ls := by
      rw [Region.afterAll_append]
      cases ls with
      | nil => trivial
      | cons second ls => exact ha.2
    have hrest : Splits opener (before ++ [token]) (visibleChars rest) (tokens ls) :=
      ih hs.2.2.2.2 hsource' hpre' ⟨hvrest,hnext⟩
    rw [visibleChars_append, visibleChars_append, htoken]
    refine hg.visibleChars.splits (splits_of_ends hs ?_ (fun ho => ?_) hrest)
    · rwa [Token.recognised_of_ne hne] at hspelled
    · exact hr.ends_visible hsource' hpre' hvrest ha fun word hword => ho word ((hw word).2 hword)

end Grammar

/-! ## What a text is taken for -/

namespace Text

theorem isBlank_of_isLayout {c : Char} (h : isLayout c = true) : isBlank c = true := by
  simp only [isLayout, Bool.or_eq_true, beq_iff_eq] at h
  rcases h with (((rfl | rfl) | rfl) | rfl) | rfl <;> decide

/-- Blanks at the end of a text are taken off without its first character. -/
theorem head?_trimEnd_cons {c : Char} (h : isBlank c = false) (cs : List Char) :
    (trimEnd (c :: cs)).head? = some c := by
  have hlast : List.dropWhile isBlank [c] = [c] := List.dropWhile_cons_of_neg (by simp [h])
  rw [trimEnd, List.reverse_cons, List.dropWhile_append, hlast]
  split
  · rfl
  · rw [List.reverse_append]
    rfl

theorem trimStart_of_allBlank {source : String} (h : allBlank source = true) : trimStart source.toList = [] :=
  List.dropWhile_eq_nil_iff.2 (List.all_eq_true.1 h)

theorem allBlank_of_trimStart {source : String} {c : Char} {cs : List Char} (h : trimStart source.toList = c :: cs) :
    allBlank source = false := by
  rw [Bool.eq_false_iff]
  intro hb
  rw [trimStart_of_allBlank hb] at h
  cases h

end Text

/-- A text whose first character after the blanks is no slash is no command. -/
theorem Command.parse?_of_trimStart {source : String} {c : Char} {cs : List Char}
    (h : Text.trimStart source.toList = c :: cs) (hb : Text.isBlank c = false) (hc : c ≠ '/') :
    Command.parse? source = none := by
  have hhead : (Text.trim source).toList.head? = some c := by
    rw [Text.trim, String.toList_ofList, h, Text.head?_trimEnd_cons hb]
  have hslash : ¬ (Text.trim source).toList.head? = some '/' := by
    rw [hhead]
    exact fun he => hc (Option.some.inj he)
  simp only [Command.parse?, if_neg hslash]

theorem Token.isBlank_head {token : Token} {c : Char} {cs : List Char} (h : token.Spelled)
    (hl : token.lexeme.toList = c :: cs) : Text.isBlank c = false := by
  obtain ⟨found,hf,_⟩ := exists_longest? h []
  rw [hl, List.append_nil] at hf
  rw [Bool.eq_false_iff]
  intro hb
  rw [longest?_of_isBlank hb] at hf
  cases hf

namespace Grammar

/-- If a text does not open with a comment, there is none in the gap at its front. -/
theorem Gap.isLayout_of_mem {gap rest : List Char} (h : Gap gap)
    (hc : startsComment ((gap ++ rest).dropWhile isLayout) = false) : ∀ c ∈ gap, isLayout c = true := by
  induction h with
  | nil => nofun
  | blank hl _ ih =>
    rw [List.cons_append, List.dropWhile_cons_of_pos hl] at hc
    exact List.forall_mem_cons.2 ⟨hl,ih hc⟩
  | comment _ _ _ => cases hc

/-- A text that does not open with a comment has its first lexeme in front, once it is trimmed. -/
theorem Laid.trimStart {offset : Nat} {cs : List Char} {token : Token} {start : Nat} {ls : List Lexeme}
    (h : Laid offset cs (⟨token,start⟩ :: ls)) (hc : startsComment (cs.dropWhile isLayout) = false) :
    ∃ c more rest, token.lexeme.toList = c :: more ∧ Text.trimStart cs = c :: (more ++ rest) ∧
      Text.isBlank c = false ∧ c ≠ '/' ∧ Laid (start + token.width) rest ls := by
  cases h with
  | @lexeme _ gap rest _ _ hg hs hr =>
    obtain ⟨c,more,hl,_,hslash⟩ := Token.Visible.of_recognised (Token.visible_of_spelled hs)
    have hb : Text.isBlank c = false := Token.isBlank_head hs (by rw [Token.lexeme_recognised, hl])
    have hgap : ∀ c ∈ gap, Text.isBlank c = true :=
      fun c hm => Text.isBlank_of_isLayout (hg.isLayout_of_mem hc c hm)
    refine ⟨c,more,rest,hl,?_,hb,hslash,hr⟩
    rw [Text.trimStart, List.dropWhile_append_of_pos hgap, hl, List.cons_append, List.dropWhile_cons_of_neg (by simp [hb])]

/-- Something stands between the first two lexemes of a text. -/
def Spaced : List Lexeme → Prop
  | first :: second :: _ => second.offset ≠ first.offset + first.token.width
  | _ => True

instance (lexemes : List Lexeme) : Decidable (Spaced lexemes) :=
  match lexemes with
  | first :: second :: _ => inferInstanceAs (Decidable (second.offset ≠ first.offset + first.token.width))
  | [] | [_] => isTrue trivial

end Grammar

/-- A text that starts with the word that opens a class starts with its letter. -/
theorem trimStart_of_startsClass {source : String} (h : startsClass source = true) :
    ∃ cs, Text.trimStart source.toList = 'c' :: cs := by
  obtain ⟨hp,_⟩ := Bool.and_eq_true_iff.1 h
  obtain ⟨rest,hrest⟩ := List.isPrefixOf_iff_prefix.1 hp
  exact ⟨'l' :: 'a' :: 's' :: 's' :: rest,hrest.symm⟩

theorem Named.allBlank_of_parse {source : String} {expr : Named} (h : Named.parse source = .ok expr) :
    Text.allBlank source = false := by
  obtain ⟨clause,ht,_,_⟩ := Named.parse_eq_ok_iff.1 h
  rw [Bool.eq_false_iff]
  intro hb
  have hsplit := ht.trimStart
  rw [Text.trimStart_of_allBlank hb] at hsplit
  obtain ⟨htokens,_⟩ := hsplit.exists_scan clause.steered 0
  obtain ⟨token,more,hy,_⟩ := clause.exists_yield
  rw [hy] at htokens
  cases htokens

/-- An expression that does not open with a comment is no command. -/
theorem Command.parse?_of_expr {source : String} {expr : Named} (h : Named.parse source = .ok expr)
    (hc : startsComment (source.toList.dropWhile isLayout) = false) : Command.parse? source = none := by
  obtain ⟨clause,ht,_,_⟩ := Named.parse_eq_ok_iff.1 h
  obtain ⟨htokens,hlaid⟩ := laid_expr ht
  obtain ⟨token,more,hy,_⟩ := clause.exists_yield
  cases hl : (Lexing.ofExpr source).lexemes with
  | nil =>
    rw [hl, hy] at htokens
    cases htokens
  | cons first ls =>
    rw [hl] at hlaid
    obtain ⟨c,_,_,_,htrim,hb,hslash,_⟩ := hlaid.trimStart hc
    exact Command.parse?_of_trimStart htrim hb hslash

/-- Classes that do not open with a comment are seen as such, if the word that opens the first of them stands by
itself. -/
theorem startsClass_of_program {source : String} {program : Program} (h : Program.parse source = .ok program)
    (hne : program.classes ≠ []) (hc : startsComment (source.toList.dropWhile isLayout) = false)
    (hs : Spaced (Lexing.ofProgram source).lexemes) : startsClass source = true := by
  obtain ⟨trees,ht,_,hm⟩ := Program.parse_eq_ok_iff.1 h
  obtain ⟨htokens,hlaid⟩ := laid_program ht
  cases trees with
  | nil =>
    cases hm
    exact absurd rfl hne
  | cons tree trees =>
    match hl : (Lexing.ofProgram source).lexemes with
    | [] =>
      rw [hl] at htokens
      cases htokens
    | [_] =>
      rw [hl] at htokens
      cases (List.cons.inj htokens).2
    | ⟨token,start⟩ :: second :: ls =>
      rw [hl] at htokens hs hlaid
      obtain rfl : token = .word "class" := (List.cons.inj htokens).1
      obtain ⟨_,_,rest,hword,htrim,_,_,hr⟩ := hlaid.trimStart hc
      cases hword
      -- the next lexeme does not follow at once, so what follows is the first character of a gap
      have hhead (c : Char) (hh : rest.head? = some c) : Token.isNamePart c = false := by
        cases hr with
        | @lexeme _ gap rest second _ hg _ _ =>
          cases gap with
          | nil => exact absurd rfl hs
          | cons d gap =>
            cases hh
            exact hg.isNamePart_head
      have hnext : rest.head?.any Token.isNamePart = false := by
        cases hh : rest.head? with
        | none => rfl
        | some c => exact hhead c hh
      rw [startsClass, htrim]
      exact Bool.and_eq_true_iff.2 ⟨rfl,congrArg (!·) hnext⟩

namespace Session

/-- The session answers a typed text by the value of an expression. -/
def Evaluates (session : Session) (typed : String) (expr : Named) : Prop :=
  ∀ depth, session.enter depth typed = (Machine.evalIn depth [] expr session.machine).map session.settleValue

/-- The session answers a typed text by loading a program. -/
def Loads (session : Session) (typed : String) (program : Program) : Prop :=
  ∀ depth, session.enter depth typed =
    some (session.settleReply ((Reply.loaded <$> Machine.load program) session.machine))

variable (session : Session) {typed : String}

theorem evaluates_of_parse {expr : Named} (hp : Named.parse (visible typed) = .ok expr)
    (hc : Command.parse? (visible typed) = none) : session.Evaluates typed expr := by
  intro depth
  simp only [enter, Named.allBlank_of_parse hp, hc, submit, Machine.submit, Named.startsClass_of_parse hp, hp,
    Bool.false_eq_true, if_false, Action.ofExcept, Action.bind_apply, Action.pure]
  rcases Machine.evalIn depth [] expr session.machine with _ | ⟨_ | _⟩ <;> rfl

theorem loads_of_parse {program : Program} (hp : Program.parse (visible typed) = .ok program)
    (hs : startsClass (visible typed) = true) : session.Loads typed program := by
  intro depth
  obtain ⟨cs,htrim⟩ := trimStart_of_startsClass hs
  have hc : Command.parse? (visible typed) = none := Command.parse?_of_trimStart htrim (by decide) (by decide)
  simp only [enter, Text.allBlank_of_trimStart htrim, hc, submit, Machine.submit, hs, hp, Bool.false_eq_true, if_false,
    if_true, Action.ofExcept, Action.bind_apply, Action.pure, Action.ofEStateM]
  change _ = some (session.settleReply (EStateM.map Reply.loaded (Machine.load program) session.machine))
  rw [EStateM.map]
  rcases Machine.load program session.machine with _ | _ <;> rfl

end Session

/-! ## Accepted texts -/

theorem Named.parse_visible {source : String} {expr : Named} (h : Named.parse source = .ok expr)
    (hi : Intact source (.body 0) (Lexing.ofExpr source).lexemes) : Named.parse (visible source) = .ok expr := by
  obtain ⟨clause,ht,hg,hm⟩ := Named.parse_eq_ok_iff.1 h
  obtain ⟨htokens,hlaid⟩ := laid_expr ht
  have hs := clause.steered
  rw [← htokens] at hs
  have hsplit := hlaid.splits_visible hs (List.nil_append _).symm rfl hi
  rw [← toList_visible, htokens] at hsplit
  exact Named.parse_eq_ok_iff.2 ⟨clause,hsplit,hg,hm⟩

theorem Program.parse_visible {source : String} {program : Program} (h : Program.parse source = .ok program)
    (hi : Intact source .top (Lexing.ofProgram source).lexemes) : Program.parse (visible source) = .ok program := by
  obtain ⟨trees,ht,hg,hm⟩ := Program.parse_eq_ok_iff.1 h
  obtain ⟨htokens,hlaid⟩ := laid_program ht
  have hs := steered_classes [] trees
  rw [← htokens] at hs
  have hsplit := hlaid.splits_visible hs (List.nil_append _).symm rfl hi
  rw [← toList_visible, htokens] at hsplit
  exact Program.parse_eq_ok_iff.2 ⟨trees,hsplit,hg,hm⟩

/-- An accepted text whose tokens are intact is accepted without its invisible characters, as the same tree. So a session
that hands it to the parser answers by the value of the same expression, or loads the same classes. -/
theorem accepts_visible (source : String) :
    (∀ expr, Named.parse source = .ok expr → Intact source (.body 0) (Lexing.ofExpr source).lexemes →
      Named.parse (visible source) = .ok expr ∧
        ∀ session : Session, Command.parse? (visible source) = none → session.Evaluates source expr) ∧
    (∀ program, Program.parse source = .ok program → Intact source .top (Lexing.ofProgram source).lexemes →
      Program.parse (visible source) = .ok program ∧
        ∀ session : Session, startsClass (visible source) = true → session.Loads source program) := by
  constructor
  · intro expr h hi
    have hp := Named.parse_visible h hi
    exact ⟨hp,fun session hc => session.evaluates_of_parse hp hc⟩
  · intro program h hi
    have hp := Program.parse_visible h hi
    exact ⟨hp,fun session hs => session.loads_of_parse hp hs⟩

/-- Invisible characters at the ends of lines, in a comment, and alone between tokens. -/
def returnsText : String := "\x7b println(\r\"a\"\r);\r\n() \x7d // \xa0\ufeff\r"

def returnsExpr : Named := .seq [.call "println" (.lit (.string "a")) [],.lit .unit]

def returnsClass : String := "class A\r\n\x7b def\rm = (\r); // \xa0\n\x7d\r"

def returnsProgram : Program := ⟨[⟨"A",[⟨"m",[],.lit .unit⟩]⟩]⟩

theorem accepts_visible_returns :
    (Named.parse returnsText = .ok returnsExpr ∧ Intact returnsText (.body 0) (Lexing.ofExpr returnsText).lexemes ∧
      visible returnsText ≠ returnsText ∧ Named.parse (visible returnsText) = .ok returnsExpr ∧
      (Session.start false).Evaluates returnsText returnsExpr) ∧
    (Program.parse returnsClass = .ok returnsProgram ∧
      Intact returnsClass .top (Lexing.ofProgram returnsClass).lexemes ∧ visible returnsClass ≠ returnsClass ∧
      Program.parse (visible returnsClass) = .ok returnsProgram ∧
      (Session.start false).Loads returnsClass returnsProgram) := by
  have hexpr : Named.parse returnsText = .ok returnsExpr := by decide +kernel
  have hintact : Intact returnsText (.body 0) (Lexing.ofExpr returnsText).lexemes :=
    ⟨by decide +kernel,by decide +kernel⟩
  have hprogram : Program.parse returnsClass = .ok returnsProgram := by decide +kernel
  have hintact' : Intact returnsClass .top (Lexing.ofProgram returnsClass).lexemes :=
    ⟨by decide +kernel,by decide +kernel⟩
  obtain ⟨hp,he⟩ := (accepts_visible returnsText).1 _ hexpr hintact
  obtain ⟨hp',hl⟩ := (accepts_visible returnsClass).2 _ hprogram hintact'
  exact ⟨⟨hexpr,hintact,by decide +kernel,hp,he _ (by decide +kernel)⟩,
    ⟨hprogram,hintact',by decide +kernel,hp',hl _ (by decide +kernel)⟩⟩

/-- A literal with an invisible character in it. -/
def blottedText : String := "\"a\xa0b\""

/-- Two words that only a carriage return keeps apart. -/
def joinedText : String := "let\ra = true in a"

def joinedExpr : Named := .letIn "a" (.lit (.bool true)) (.var "a")

theorem not_accepts_visible :
    (Named.parse blottedText = .ok (.lit (.string "a\xa0b")) ∧
      Named.parse (visible blottedText) ≠ .ok (.lit (.string "a\xa0b")) ∧
      ¬ (Session.start false).Evaluates blottedText (.lit (.string "a\xa0b"))) ∧
    (Named.parse joinedText = .ok joinedExpr ∧ Named.parse (visible joinedText) ≠ .ok joinedExpr ∧
      ¬ (Session.start false).Evaluates joinedText joinedExpr) := by
  refine ⟨⟨by decide +kernel,by decide +kernel,fun h => ?_⟩,⟨by decide +kernel,by decide +kernel,fun h => ?_⟩⟩
  · have hout := congrArg (Option.map Answer.out) (h 9)
    exact absurd hout (by decide +kernel)
  · have hout := congrArg (Option.map Answer.out) (h 9)
    exact absurd hout (by decide +kernel)

/-- A session takes each accepted text without invisible characters for what it is, unless it opens with a comment or the
word that opens its first class runs into the name of the class: it is no command, and is answered by the value of the
expression, or by loading the program. -/
theorem Session.takes_accepted (session : Session) {text : String} (hv : text.toList.any isInvisible = false)
    (hc : startsComment (text.toList.dropWhile isLayout) = false) :
    (∀ expr, Named.parse text = .ok expr → Command.parse? text = none ∧ session.Evaluates text expr) ∧
    (∀ program, Program.parse text = .ok program → program.classes ≠ [] → Spaced (Lexing.ofProgram text).lexemes →
      (∀ expr, Named.parse text ≠ .ok expr) ∧ Command.parse? text = none ∧ session.Loads text program) := by
  have hvisible : visible text = text := visible_eq_self hv
  constructor
  · intro expr h
    have hcommand := Command.parse?_of_expr h hc
    exact ⟨hcommand,session.evaluates_of_parse (hvisible.symm ▸ h) (hvisible.symm ▸ hcommand)⟩
  · intro program h hne hs
    have hclass := startsClass_of_program h hne hc hs
    obtain ⟨cs,htrim⟩ := trimStart_of_startsClass hclass
    refine ⟨fun expr he => ?_,Command.parse?_of_trimStart htrim (by decide) (by decide),
      session.loads_of_parse (hvisible.symm ▸ h) (hvisible.symm ▸ hclass)⟩
    rw [Named.startsClass_of_parse he] at hclass
    cases hclass

/-- The first word of the text only looks like the one that opens a class. -/
def classyText : String := "\tclassy true// 1"

def classyExpr : Named := .call "classy" (.lit (.bool true)) []

/-- The word that opens the class is followed by a comment. -/
def remarkedClass : String := "\n class// B\nA \x7b def m = (); \x7d"

theorem Session.takes_accepted_remarked :
    (Named.parse classyText = .ok classyExpr ∧ Command.parse? classyText = none ∧
      (start true).Evaluates classyText classyExpr) ∧
    (Program.parse remarkedClass = .ok returnsProgram ∧ Spaced (Lexing.ofProgram remarkedClass).lexemes ∧
      Command.parse? remarkedClass = none ∧ (start true).Loads remarkedClass returnsProgram) := by
  have hexpr : Named.parse classyText = .ok classyExpr := by decide +kernel
  have hprogram : Program.parse remarkedClass = .ok returnsProgram := by decide +kernel
  have hspaced : Spaced (Lexing.ofProgram remarkedClass).lexemes := by decide +kernel
  have hvisible : remarkedClass.toList.any isInvisible = false := by decide +kernel
  have hcomment : startsComment (remarkedClass.toList.dropWhile isLayout) = false := by decide +kernel
  obtain ⟨_,hcommand,hloads⟩ :=
    (takes_accepted (start true) hvisible hcomment).2 _ hprogram (List.cons_ne_nil _ _) hspaced
  refine ⟨⟨hexpr,(takes_accepted (start true) ?_ ?_).1 _ hexpr⟩,⟨hprogram,hspaced,hcommand,hloads⟩⟩
  · decide +kernel
  · decide +kernel

/-- A text that opens with a comment is taken for a command. -/
def remarkFirst : String := "// one\ntrue"

/-- A class whose name follows the word that opens it at once is taken for an expression. -/
def crowdedClass : String := "classA \x7b def m = (); \x7d"

theorem Session.not_takes_accepted :
    (Named.parse remarkFirst = .ok (.lit (.bool true)) ∧ remarkFirst.toList.any isInvisible = false ∧
      Command.parse? remarkFirst = some (.unknown "//") ∧ ¬ (start false).Evaluates remarkFirst (.lit (.bool true))) ∧
    (Program.parse crowdedClass = .ok returnsProgram ∧ crowdedClass.toList.any isInvisible = false ∧
      (∀ expr, Named.parse crowdedClass ≠ .ok expr) ∧ ¬ (start false).Loads crowdedClass returnsProgram) := by
  refine ⟨⟨by decide +kernel,by decide +kernel,by decide +kernel,fun h => ?_⟩,
    ⟨by decide +kernel,by decide +kernel,fun expr h => ?_,fun h => ?_⟩⟩
  · have hout := congrArg (Option.map Answer.out) (h 9)
    exact absurd hout (by decide +kernel)
  · have hrejected : (Named.parse crowdedClass).toBool = false := by decide +kernel
    rw [h] at hrejected
    cases hrejected
  · have hout := congrArg (Option.map Answer.out) (h 9)
    exact absurd hout (by decide +kernel)

end Mica
