import Mica.Proofs.Grammar.Meaning
import Mica.Proofs.Grammar.Recognition
import Mica.Proofs.Grammar.Steering

/-! # Acceptance

A text is accepted when it splits into the tokens of a greedy derivation that has a meaning, and it then
stands for that meaning.
-/
namespace Mica

namespace Grammar

/-- The tokens that a text splits into as an expression. -/
def ExprTokens (source : String) (ts : List Token) : Prop := Splits (fun _ _ => False) [] source.toList ts

/-- The tokens that a text splits into as a program. -/
def ProgramTokens (source : String) (ts : List Token) : Prop := Splits Opens [] source.toList ts

theorem exprTokens_iff (source : String) (clause : Clause) :
    ExprTokens source clause.yield ↔
      (Lexing.ofExpr source).stuck = none ∧ tokens (Lexing.ofExpr source).lexemes = clause.yield := by
  constructor
  · intro h
    exact (h.exists_scan clause.steered 0).symm
  · rintro ⟨hs,ht⟩
    exact splits_of_scan clause.steered ht hs

theorem programTokens_iff (source : String) (classes : List ClassTree) :
    ProgramTokens source (classes.flatMap ClassTree.yield) ↔ (Lexing.ofProgram source).stuck = none ∧
      tokens (Lexing.ofProgram source).lexemes = classes.flatMap ClassTree.yield := by
  constructor
  · intro h
    exact (h.exists_scan (steered_classes [] classes) 0).symm
  · rintro ⟨hs,ht⟩
    exact splits_of_scan (steered_classes [] classes) ht hs

end Grammar

open Grammar

theorem Named.parse_eq_ok_iff {source : String} {expr : Named} :
    Named.parse source = .ok expr ↔ ∃ clause : Clause, ExprTokens source clause.yield ∧ clause.Greedy [] ∧
      clause.meaning checkedNumeral = some expr := by
  rw [Named.parse, Except.mapError_eq_ok_iff, parse_expr_eq_ok_iff]
  constructor
  · rintro ⟨hs,clause,ht,hg,hm⟩
    exact ⟨clause,(exprTokens_iff source clause).2 ⟨hs,ht⟩,hg,hm⟩
  · rintro ⟨clause,ht,hg,hm⟩
    obtain ⟨hs,ht⟩ := (exprTokens_iff source clause).1 ht
    exact ⟨hs,clause,ht,hg,hm⟩

theorem Program.parse_eq_ok_iff {source : String} {program : Program} :
    Program.parse source = .ok program ↔ ∃ classes : List ClassTree,
      ProgramTokens source (classes.flatMap ClassTree.yield) ∧ GreedyClasses classes ∧
        programMeaning checkedNumeral classes = some program := by
  have hmap : Program.parse source = .ok program ↔
      (Lexing.ofProgram source).parse Reader.classes (List.mapM ClassPhrase.check) = .ok program.classes := by
    rw [Program.parse, Except.mapError_eq_ok_iff]
    obtain ⟨classes⟩ := program
    cases (Lexing.ofProgram source).parse Reader.classes (List.mapM ClassPhrase.check) <;> simp [Except.map]
  rw [hmap, parse_classes_eq_ok_iff]
  constructor
  · rintro ⟨hs,classes,ht,hg,hm⟩
    exact ⟨classes,(programTokens_iff source classes).2 ⟨hs,ht⟩,hg,hm⟩
  · rintro ⟨classes,ht,hg,hm⟩
    obtain ⟨hs,ht⟩ := (programTokens_iff source classes).1 ht
    exact ⟨hs,classes,ht,hg,hm⟩

namespace Grammar

/-- Among some tokens no numeral has too many digits to be looked at. -/
def Short (ts : List Token) : Prop :=
  ∀ lexeme, .number lexeme ∈ ts → (lexeme.toList.filter Char.isDigit).length ≤ digitLimit

theorem Short.agreeOn {ts : List Token} (h : Short ts) : AgreeOn checkedNumeral readNumeral ts := by
  intro lexeme hl
  exact if_neg (Nat.not_lt.2 (h lexeme hl))

theorem Splits.length_lexeme_le {opener : List Token → String → Prop} {before ts : List Token} {cs : List Char}
    (h : Splits opener before cs ts) {token : Token} (ht : token ∈ ts) : token.lexeme.toList.length ≤ cs.length := by
  induction h with
  | done => cases ht
  | blank _ _ ih => exact (ih ht).trans (Nat.le_succ _)
  | comment _ _ _ ih =>
    have := ih ht
    simp only [List.length_cons, List.length_append]
    omega
  | opening _ _ ih =>
    rw [List.length_append]
    rcases List.mem_cons.1 ht with rfl | ht
    · exact Nat.le_add_right _ _
    · exact (ih ht).trans (Nat.le_add_left _ _)
  | token _ _ _ ih =>
    rw [List.length_append]
    rcases List.mem_cons.1 ht with rfl | ht
    · exact Nat.le_add_right _ _
    · exact (ih ht).trans (Nat.le_add_left _ _)

/-- A text that is short as a whole has short numerals only. -/
theorem Splits.short {opener : List Token → String → Prop} {before ts : List Token} {cs : List Char}
    (h : Splits opener before cs ts) (hl : cs.length ≤ digitLimit) : Short ts := by
  intro lexeme ht
  exact (List.length_filter_le _ _).trans ((h.length_lexeme_le ht).trans hl)

/-- A text with no overlong numeral is accepted, as an expression or as a program, exactly when it splits
into the tokens of a greedy derivation with a meaning. A sequence of tokens with any derivation has just
one that is greedy, so that only the leaves can be at fault when its text is refused. -/
theorem parse_iff_greedy (source : String) :
    ((∀ ts, ExprTokens source ts → Short ts) → ∀ expr, Named.parse source = .ok expr ↔
      ∃ clause : Clause, ExprTokens source clause.yield ∧ clause.Greedy [] ∧ clause.meaning readNumeral = some expr) ∧
    ((∀ ts, ProgramTokens source ts → Short ts) → ∀ program, Program.parse source = .ok program ↔
      ∃ classes : List ClassTree, ProgramTokens source (classes.flatMap ClassTree.yield) ∧ GreedyClasses classes ∧
        programMeaning readNumeral classes = some program) ∧
    (∀ clause : Clause, (∃! greedy : Clause, greedy.yield = clause.yield ∧ greedy.Greedy []) ∧
      (ExprTokens source clause.yield → Short clause.yield → (∀ token ∈ clause.yield, Readable readNumeral token) →
        ∃ expr, Named.parse source = .ok expr)) ∧
    ∀ classes : List ClassTree, (∃! greedy : List ClassTree,
        greedy.flatMap ClassTree.yield = classes.flatMap ClassTree.yield ∧ GreedyClasses greedy) ∧
      (ProgramTokens source (classes.flatMap ClassTree.yield) → Short (classes.flatMap ClassTree.yield) →
        (∀ token ∈ classes.flatMap ClassTree.yield, Readable readNumeral token) →
        ∃ program, Program.parse source = .ok program) := by
  refine ⟨fun hs expr => ?_,fun hs program => ?_,fun clause => ⟨clause.existsUnique_greedy,fun ht hs hl => ?_⟩,
    fun classes => ⟨existsUnique_greedyClasses classes,fun ht hs hl => ?_⟩⟩
  · rw [Named.parse_eq_ok_iff]
    refine exists_congr fun clause => and_congr_right fun ht => ?_
    rw [clause.meaning_congr (hs _ ht).agreeOn]
  · rw [Program.parse_eq_ok_iff]
    refine exists_congr fun classes => and_congr_right fun ht => ?_
    rw [programMeaning_congr classes (hs _ ht).agreeOn]
  · obtain ⟨greedy,⟨hy,hg⟩,_⟩ := clause.existsUnique_greedy
    rw [← hy] at ht hs hl
    obtain ⟨expr,he⟩ := Option.isSome_iff_exists.1 (greedy.isSome_meaning_iff.2 hl)
    exact ⟨expr,Named.parse_eq_ok_iff.2 ⟨greedy,ht,hg,by rw [greedy.meaning_congr hs.agreeOn, he]⟩⟩
  · obtain ⟨greedy,⟨hy,hg⟩,_⟩ := existsUnique_greedyClasses classes
    rw [← hy] at ht hs hl
    obtain ⟨program,he⟩ := Option.isSome_iff_exists.1 ((isSome_programMeaning_iff greedy).2 hl)
    exact ⟨program,Program.parse_eq_ok_iff.2 ⟨greedy,ht,hg,by rw [programMeaning_congr greedy hs.agreeOn, he]⟩⟩

/-- Not a greedy derivation: the last operand is given to the outer call. -/
def outerAttachment : Clause :=
  .call ⟨"f",by decide⟩ (.letIn ⟨"x",by decide⟩ (.operand (.number "1"))
    (.call ⟨"g",by decide⟩ (.var ⟨"x",by decide⟩) [])) [.var ⟨"y",by decide⟩]

/-- No blank follows the words that open the class and the method. -/
def crowded : List ClassTree :=
  [⟨⟨"A",by decide⟩,[⟨⟨"g",by decide⟩,[⟨"x",by decide⟩],.operand (.var ⟨"x",by decide⟩)⟩]⟩]

theorem parse_iff_greedy_attachment :
    (∃ clause : Clause, ExprTokens "f let x = 1 in g x y" clause.yield ∧ clause.Greedy [] ∧
      clause.meaning readNumeral = some (.call "f"
        (.letIn "x" (.lit (.i32 ⟨1,by decide,by decide⟩)) (.call "g" (.var "x") [.var "y"])) [])) ∧
    (∃ classes : List ClassTree, ProgramTokens "classA\x7bdefg x=x;\x7d" (classes.flatMap ClassTree.yield) ∧
      GreedyClasses classes ∧ programMeaning readNumeral classes = some ⟨[⟨"A",[⟨"g",["x"],.var "x"⟩]⟩]⟩) ∧
    (ExprTokens "f let x = 1 in g x y" outerAttachment.yield ∧ ∃ expr, Named.parse "f let x = 1 in g x y" = .ok expr) ∧
    ProgramTokens "classA\x7bdefg x=x;\x7d" (crowded.flatMap ClassTree.yield) ∧
      ∃ program, Program.parse "classA\x7bdefg x=x;\x7d" = .ok program := by
  have hexpr : Named.parse "f let x = 1 in g x y" = .ok (.call "f"
      (.letIn "x" (.lit (.i32 ⟨1,by decide,by decide⟩)) (.call "g" (.var "x") [.var "y"])) []) := by decide +kernel
  have hprogram : Program.parse "classA\x7bdefg x=x;\x7d" = .ok ⟨[⟨"A",[⟨"g",["x"],.var "x"⟩]⟩]⟩ := by
    decide +kernel
  have hsplit : ExprTokens "f let x = 1 in g x y" outerAttachment.yield :=
    (exprTokens_iff _ _).2 ⟨by decide +kernel,by decide +kernel⟩
  have hsplit' : ProgramTokens "classA\x7bdefg x=x;\x7d" (crowded.flatMap ClassTree.yield) :=
    (programTokens_iff _ _).2 ⟨by decide +kernel,by decide +kernel⟩
  have hread : ∀ token ∈ outerAttachment.yield, Readable readNumeral token :=
    outerAttachment.isSome_meaning_iff.1 (by decide +kernel)
  have hread' : ∀ token ∈ crowded.flatMap ClassTree.yield, Readable readNumeral token :=
    (isSome_programMeaning_iff crowded).1 (by decide +kernel)
  exact ⟨((parse_iff_greedy _).1 (fun _ h => h.short (by decide +kernel)) _).1 hexpr,
    ((parse_iff_greedy _).2.1 (fun _ h => h.short (by decide +kernel)) _).1 hprogram,
    ⟨hsplit,((parse_iff_greedy _).2.2.1 _).2 hsplit (hsplit.short (by decide +kernel)) hread⟩,
    hsplit',((parse_iff_greedy _).2.2.2 _).2 hsplit' (hsplit'.short (by decide +kernel)) hread'⟩

end Grammar

end Mica
