import Mica.Proofs.Grammar.Declarations

/-! # Recognition

What reading and checking make of the tokens of a text. Every sequence of tokens that has a derivation
has exactly one that is greedy, and it is accepted as what the greedy derivation means.
-/
namespace Mica.Grammar

variable {lexing : Lexing}

theorem readAll_eq_ok_iff {α : Type} {reader : Nat → Reader α} {a : α} :
    lexing.readAll reader = .ok a ↔
      lexing.stuck = none ∧ reader (Reader.depthBound lexing.lexemes.length) lexing.lexemes = .ok a [] := by
  unfold Lexing.readAll
  split
  · next result hr =>
    cases hs : lexing.stuck with
    | none => simp [hr]
    | some place => simp
  · next result left hn hr =>
    simp only [reduceCtorEq, hr, EStateM.Result.ok.injEq, false_iff, not_and]
    rintro _ rfl rfl
    exact hn rfl
  · next hr => simp [hr]

theorem parse_eq_ok_iff {α β : Type} {reader : Nat → Reader α} {check : α → Except Flaw β} {b : β} :
    lexing.parse reader check = .ok b ↔
      lexing.stuck = none ∧ ∃ a, reader (Reader.depthBound lexing.lexemes.length) lexing.lexemes = .ok a [] ∧
        check a = .ok b := by
  unfold Lexing.parse
  split
  · next a ha =>
    obtain ⟨hs,hr⟩ := readAll_eq_ok_iff.1 ha
    simp [hs, hr]
  · next fault offset he =>
    simp only [reduceCtorEq, false_iff, not_and]
    rintro hs ⟨a,hr,_⟩
    rw [readAll_eq_ok_iff.2 ⟨hs,hr⟩] at he
    cases he

theorem length_tokens (ls : List Lexeme) : (tokens ls).length = ls.length := List.length_map _

/-- The tokens of a clause are read as the one greedy derivation that they have. -/
theorem exists_expr {ls : List Lexeme} {clause : Clause} (h : tokens ls = clause.yield) :
    ∃ phrase, ∃ greedy : Clause, Reader.expr (Reader.depthBound ls.length) ls = .ok phrase [] ∧
      greedy.yield = clause.yield ∧ greedy.Greedy [] ∧ greedy.meaning checkedNumeral = phrase.check.toOption := by
  have hlen : clause.yield.length = ls.length := by rw [← h, length_tokens]
  have ht : tokens ls = clause.yield ++ [] := by rw [List.append_nil, h]
  obtain ⟨phrase,left,hr,hp,hl⟩ := (complete (Reader.depthBound ls.length)).whole ht nofun
    (by simp only [Reader.depthBound]; omega)
  obtain rfl := List.map_eq_nil_iff.1 hl
  obtain ⟨greedy,hy,hg,hm⟩ := (sound _).expr hr hp
  refine ⟨phrase,greedy,hr,?_,hg,hm⟩
  rw [← h, hy, tokens_nil, List.append_nil]

theorem exists_program {ls : List Lexeme} {classes : List ClassTree} (h : tokens ls = classes.flatMap ClassTree.yield) :
    ∃ phrases greedy, Reader.classes (Reader.depthBound ls.length) ls = .ok phrases [] ∧
      greedy.flatMap ClassTree.yield = classes.flatMap ClassTree.yield ∧ GreedyClasses greedy ∧
      greedy.mapM (ClassTree.meaning checkedNumeral) = (phrases.mapM ClassPhrase.check).toOption := by
  have hlen : (classes.flatMap ClassTree.yield).length = ls.length := by rw [← h, length_tokens]
  have hd : 4 * (classes.flatMap ClassTree.yield).length + 1 ≤ Reader.depthBound ls.length := by
    simp only [Reader.depthBound]
    omega
  obtain ⟨phrases,hr,hp⟩ := exists_classes h hd
  obtain ⟨_,greedy,hy,hg,hm⟩ := classTrees_of_classes hr hp
  exact ⟨phrases,greedy,hr,by rw [← h, hy],hg,hm⟩

/-- Preferring the innermost call loses no sequence of tokens, and leaves no choice. -/
theorem Clause.existsUnique_greedy (clause : Clause) :
    ∃! greedy : Clause, greedy.yield = clause.yield ∧ greedy.Greedy [] := by
  have h : tokens (clause.yield.map fun token => ⟨token,0⟩) = clause.yield := by
    simp [tokens, Function.comp_def]
  obtain ⟨_,greedy,_,hy,hg,_⟩ := exists_expr h
  refine ⟨greedy,⟨hy,hg⟩,?_⟩
  rintro other ⟨hy',hg'⟩
  have he : other.yield ++ [] = greedy.yield ++ [] := by rw [hy, hy']
  exact (other.fixed he hg' hg).1

theorem existsUnique_greedyClasses (classes : List ClassTree) :
    ∃! greedy : List ClassTree, greedy.flatMap ClassTree.yield = classes.flatMap ClassTree.yield ∧
      GreedyClasses greedy := by
  have h : tokens ((classes.flatMap ClassTree.yield).map fun token => ⟨token,0⟩) = classes.flatMap ClassTree.yield := by
    simp [tokens, Function.comp_def]
  obtain ⟨_,greedy,_,hy,hg,_⟩ := exists_program h
  refine ⟨greedy,⟨hy,hg⟩,?_⟩
  rintro other ⟨hy',hg'⟩
  exact fixedClasses (by rw [hy, hy']) hg' hg

theorem parse_expr_eq_ok_iff {expr : Named} :
    lexing.parse Reader.expr Phrase.check = .ok expr ↔
      lexing.stuck = none ∧ ∃ clause : Clause, tokens lexing.lexemes = clause.yield ∧ clause.Greedy [] ∧
        clause.meaning checkedNumeral = some expr := by
  rw [parse_eq_ok_iff]
  refine and_congr_right fun _ => ⟨?_,?_⟩
  · rintro ⟨phrase,hr,hc⟩
    obtain ⟨clause,hy,hg,hm⟩ := (sound _).expr hr (Phrase.proper_of_check hc)
    rw [tokens_nil, List.append_nil] at hy
    exact ⟨clause,hy,hg,by rw [hm, hc, Except.toOption]⟩
  · rintro ⟨clause,hy,hg,hm⟩
    obtain ⟨phrase,greedy,hr,hy',hg',hm'⟩ := exists_expr hy
    obtain rfl := clause.existsUnique_greedy.unique ⟨hy',hg'⟩ ⟨rfl,hg⟩
    exact ⟨phrase,hr,Except.toOption_eq_some_iff.1 (hm' ▸ hm)⟩

theorem parse_classes_eq_ok_iff {classes : List ClassDef} :
    lexing.parse Reader.classes (List.mapM ClassPhrase.check) = .ok classes ↔
      lexing.stuck = none ∧ ∃ trees : List ClassTree, tokens lexing.lexemes = trees.flatMap ClassTree.yield ∧
        GreedyClasses trees ∧ programMeaning checkedNumeral trees = some ⟨classes⟩ := by
  rw [parse_eq_ok_iff]
  refine and_congr_right fun _ => ⟨?_,?_⟩
  · rintro ⟨phrases,hr,hc⟩
    have hp := Except.forall_mem_of_mapM (fun _ _ _ => ClassPhrase.proper_of_check) hc
    obtain ⟨_,trees,hy,hg,hm⟩ := classTrees_of_classes hr hp
    exact ⟨trees,hy,hg,by rw [programMeaning, hm, hc, Except.toOption, Option.map_some]⟩
  · rintro ⟨trees,hy,hg,hm⟩
    obtain ⟨phrases,greedy,hr,hy',hg',hm'⟩ := exists_program hy
    obtain rfl := (existsUnique_greedyClasses trees).unique ⟨hy',hg'⟩ ⟨rfl,hg⟩
    refine ⟨phrases,hr,Except.toOption_eq_some_iff.1 ?_⟩
    rw [programMeaning, hm'] at hm
    simpa using hm

end Mica.Grammar
