import Mica.Proofs.Grammar.Reading

/-! # Coverage

Every sequence of tokens that has a derivation at all is read, to a depth that grows with its length.
Preferring the innermost call never loses a reading, because the operands that follow a clause are
whole operands whichever call takes them.
-/
namespace Mica.Grammar

variable {depth : Nat} {ls : List Lexeme}

/-- What follows is not taken for an operand by the reader. -/
def Halts (rest : List Token) : Prop := ∀ token, rest.head? = some token → Reader.startsAtom token = false

theorem halts_cons {token : Token} (h : Reader.startsAtom token = false) (rest : List Token) :
    Halts (token :: rest) := by
  intro first he
  cases he
  exact h

theorem startsAtom_of_opens {token : Token} (h : opens token = true) : Reader.startsAtom token = true := by
  cases token with
  | word name =>
    simp only [opens, List.mem_cons, List.not_mem_nil, or_false, not_or, decide_eq_true_eq] at h
    simp [Reader.startsAtom, h.2.2.2]
  | _ => first | rfl | cases h

theorem exists_of_tokens_eq_cons {token : Token} {more : List Token} (h : tokens ls = token :: more) :
    ∃ offset left, ls = ⟨token,offset⟩ :: left ∧ tokens left = more := by
  cases ls with
  | nil => cases h
  | cons l left =>
    obtain ⟨rfl,rfl⟩ := List.cons.inj h
    exact ⟨l.offset,left,rfl,rfl⟩

theorem Clause.length_yield_pos (clause : Clause) : 0 < clause.yield.length := by
  obtain ⟨token,more,hy,_⟩ := clause.exists_yield
  simp [hy]

theorem Operand.length_yield_pos (operand : Operand) : 0 < operand.yield.length :=
  (Clause.operand operand).length_yield_pos

theorem length_yieldAll_le {operands others : List Operand} (h : operands <:+ others) :
    (yieldAll operands).length ≤ (yieldAll others).length := by
  obtain ⟨used,rfl⟩ := h
  simp [yieldAll_eq_flatMap]

/-- Whatever has a derivation is read. A clause or an operand may be followed by more operands `later`,
of which the reader takes some before it stops; it never stops inside one of them. -/
structure Complete (depth : Nat) : Prop where
  expr {clause : Clause} {later : List Operand} {ls : List Lexeme} {rest : List Token} :
    tokens ls = clause.yield ++ (yieldAll later ++ rest) → Halts rest →
    4 * (clause.yield.length + (yieldAll later).length) ≤ depth + 2 →
    ∃ phrase left remaining, Reader.expr depth ls = .ok phrase left ∧ phrase.Proper ∧
      remaining <:+ later ∧ tokens left = yieldAll remaining ++ rest
  atom {operand : Operand} {later : List Operand} {ls : List Lexeme} {rest : List Token} :
    tokens ls = operand.yield ++ (yieldAll later ++ rest) → Halts rest →
    4 * (operand.yield.length + (yieldAll later).length) ≤ depth + 3 →
    ∃ phrase left remaining, Reader.atom depth ls = .ok phrase left ∧ phrase.Proper ∧
      remaining <:+ later ∧ tokens left = yieldAll remaining ++ rest
  parens {inner : Clause} {ls : List Lexeme} {rest : List Token} :
    tokens ls = inner.yield ++ .closeParen :: rest → 4 * inner.yield.length ≤ depth + 1 →
    ∃ phrase left, Reader.parens depth ls = .ok phrase left ∧ phrase.Proper ∧ tokens left = rest
  atoms {operands : List Operand} {ls : List Lexeme} {rest : List Token} :
    tokens ls = yieldAll operands ++ rest → Halts rest → 4 * (yieldAll operands).length + 1 ≤ depth →
    ∃ phrases left, Reader.atoms depth ls = .ok phrases left ∧ Phrase.ProperAll phrases ∧ tokens left = rest
  block {steps : List Clause} {ls : List Lexeme} {rest : List Token} :
    tokens ls = yieldSteps steps ++ rest → 4 * (yieldSteps steps).length ≤ depth →
    ∃ phrases left, Reader.block depth ls = .ok phrases left ∧ Phrase.ProperAll phrases ∧ tokens left = rest
  steps {first : Clause} {more : List Clause} {ls : List Lexeme} {rest : List Token} :
    tokens ls = yieldSteps (first :: more) ++ rest → 4 * (yieldSteps (first :: more)).length ≤ depth + 1 →
    ∃ phrases left, Reader.steps depth ls = .ok phrases left ∧ Phrase.ProperAll phrases ∧ tokens left = rest

/-- A clause with nothing but a token that halts the reader after it is read in full. -/
theorem Complete.whole (h : Complete depth) {clause : Clause} {rest : List Token}
    (ht : tokens ls = clause.yield ++ rest) (hh : Halts rest) (hd : 4 * clause.yield.length ≤ depth + 2) :
    ∃ phrase left, Reader.expr depth ls = .ok phrase left ∧ phrase.Proper ∧ tokens left = rest := by
  have ht' : tokens ls = clause.yield ++ (yieldAll [] ++ rest) := ht
  obtain ⟨phrase,left,remaining,hr,hp,hs,hl⟩ := h.expr ht' hh (by simpa [yieldAll] using hd)
  obtain rfl := List.suffix_nil.1 hs
  exact ⟨phrase,left,hr,hp,hl⟩

theorem Complete.steps_succ (h : Complete depth) {first : Clause} {more : List Clause} {rest : List Token}
    (ht : tokens ls = yieldSteps (first :: more) ++ rest)
    (hd : 4 * (yieldSteps (first :: more)).length ≤ depth + 2) :
    ∃ phrases left, Reader.steps (depth + 1) ls = .ok phrases left ∧ Phrase.ProperAll phrases ∧ tokens left = rest := by
  rw [Reader.steps]
  cases more with
  | nil =>
    simp only [yieldSteps, yieldRest, List.append_assoc, List.cons_append, List.nil_append] at ht
    simp only [yieldSteps, yieldRest, List.length_append, List.length_cons] at hd
    obtain ⟨phrase,mid,hr,hp,hl⟩ := h.whole ht (halts_cons rfl rest) (by omega)
    obtain ⟨offset,left,rfl,ht⟩ := exists_of_tokens_eq_cons hl
    exact ⟨[phrase],left,Reader.bind_eq_ok_iff.2 ⟨phrase,_,hr,rfl⟩,⟨hp,trivial⟩,ht⟩
  | cons second more =>
    simp only [yieldSteps, yieldRest, List.append_assoc, List.cons_append] at ht
    simp only [yieldSteps, yieldRest, List.length_append, List.length_cons] at hd
    obtain ⟨phrase,mid,hr,hp,hl⟩ := h.whole ht (halts_cons rfl _) (by omega)
    obtain ⟨offset,left,rfl,ht⟩ := exists_of_tokens_eq_cons hl
    have hs : tokens left = yieldSteps (second :: more) ++ rest := by simpa [yieldSteps] using ht
    obtain ⟨phrases,left',hr',hp',hl'⟩ := h.steps hs (by simp only [yieldSteps, List.length_append]; omega)
    refine ⟨phrase :: phrases,left',?_,⟨hp,hp'⟩,hl'⟩
    exact Reader.bind_eq_ok_iff.2 ⟨phrase,_,hr,Reader.bind_eq_ok_iff.2 ⟨phrases,left',hr',rfl⟩⟩

theorem Complete.block_succ (h : Complete depth) {steps : List Clause} {rest : List Token}
    (ht : tokens ls = yieldSteps steps ++ rest) (hd : 4 * (yieldSteps steps).length ≤ depth + 1) :
    ∃ phrases left, Reader.block (depth + 1) ls = .ok phrases left ∧ Phrase.ProperAll phrases ∧ tokens left = rest := by
  cases steps with
  | nil =>
    obtain ⟨offset,left,rfl,hl⟩ := exists_of_tokens_eq_cons ht
    exact ⟨[],left,rfl,trivial,hl⟩
  | cons first more =>
    obtain ⟨phrases,left,hr,hp,hl⟩ := h.steps ht hd
    refine ⟨phrases,left,?_,hp,hl⟩
    obtain ⟨token,tokens',hy,ho⟩ := first.exists_yield
    rw [yieldSteps, hy] at ht
    obtain ⟨offset,left,rfl,_⟩ := exists_of_tokens_eq_cons ht
    simp only [Reader.block]
    split
    · next he =>
      cases he
      cases ho
    · exact hr

theorem Complete.atoms_succ (h : Complete depth) {operands : List Operand} {rest : List Token}
    (ht : tokens ls = yieldAll operands ++ rest) (hh : Halts rest)
    (hd : 4 * (yieldAll operands).length ≤ depth) :
    ∃ phrases left, Reader.atoms (depth + 1) ls = .ok phrases left ∧ Phrase.ProperAll phrases ∧ tokens left = rest := by
  cases operands with
  | nil =>
    simp only [yieldAll, List.nil_append] at ht
    refine ⟨[],ls,?_,trivial,ht⟩
    cases ls with
    | nil => rfl
    | cons l left =>
      have hn : Reader.startsAtom l.token = false := hh l.token (by simp [← ht])
      simp [Reader.atoms, hn]
  | cons operand operands =>
    simp only [yieldAll, List.append_assoc] at ht
    simp only [yieldAll, List.length_append] at hd
    obtain ⟨phrase,mid,remaining,hr,hp,hs,hm⟩ := h.atom ht hh (by omega)
    obtain ⟨token,more,hy,ho⟩ := operand.exists_yield
    have hlen := operand.length_yield_pos
    have hrem := length_yieldAll_le hs
    obtain ⟨phrases,left,hr',hp',hl⟩ := h.atoms hm hh (by omega)
    refine ⟨phrase :: phrases,left,?_,⟨hp,hp'⟩,hl⟩
    rw [hy, List.cons_append] at ht
    obtain ⟨offset,left,rfl,_⟩ := exists_of_tokens_eq_cons ht
    simp only [Reader.atoms, startsAtom_of_opens ho, if_true]
    exact Reader.bind_eq_ok_iff.2 ⟨phrase,mid,hr,Reader.bind_eq_ok_iff.2 ⟨phrases,_,hr',rfl⟩⟩

/-- Only a name on its own starts a clause that is not read as an operand. -/
theorem expr_eq_atom {operand : Operand} (hn : ∀ name, operand ≠ .var name) {more : List Token}
    (ht : tokens ls = operand.yield ++ more) : Reader.expr (depth + 1) ls = Reader.atom depth ls := by
  cases operand with
  | var name => exact absurd rfl (hn name)
  | bool flag =>
    obtain ⟨offset,left,rfl,_⟩ := exists_of_tokens_eq_cons ht
    cases flag <;> rfl
  | _ =>
    obtain ⟨offset,left,rfl,_⟩ := exists_of_tokens_eq_cons ht
    rfl

/-- A name takes all the operands that follow it. -/
theorem Complete.named (h : Complete depth) (name : Ident) {operands : List Operand} {rest : List Token}
    (ht : tokens ls = name.token :: (yieldAll operands ++ rest)) (hh : Halts rest)
    (hd : 4 * (yieldAll operands).length + 1 ≤ depth) :
    ∃ phrase left, Reader.expr (depth + 1) ls = .ok phrase left ∧ phrase.Proper ∧ tokens left = rest := by
  obtain ⟨offset,left,rfl,ha⟩ := exists_of_tokens_eq_cons ht
  obtain ⟨phrases,left',hr,hp,hl⟩ := h.atoms ha hh hd
  have hn : (Reader.Leader.ofWord? name.text).isSome = false := by simp [name.leader_eq_none]
  cases phrases with
  | nil =>
    refine ⟨.name ⟨name.text,offset⟩,left',?_,name.not_keyword,hl⟩
    simp [Reader.expr, Ident.token, hn, hr]
  | cons receiver args =>
    refine ⟨.call ⟨name.text,offset⟩ receiver args,left',?_,⟨name.not_keyword,hp⟩,hl⟩
    simp [Reader.expr, Ident.token, hn, hr]

theorem Complete.expr_succ (h : Complete depth) {clause : Clause} {later : List Operand} {rest : List Token}
    (ht : tokens ls = clause.yield ++ (yieldAll later ++ rest)) (hh : Halts rest)
    (hd : 4 * (clause.yield.length + (yieldAll later).length) ≤ depth + 3) :
    ∃ phrase left remaining, Reader.expr (depth + 1) ls = .ok phrase left ∧ phrase.Proper ∧
      remaining <:+ later ∧ tokens left = yieldAll remaining ++ rest := by
  cases clause with
  | call name receiver args =>
    have ha : tokens ls = name.token :: (yieldAll (receiver :: args ++ later) ++ rest) := by
      simpa [Clause.yield, yieldAll_eq_flatMap] using ht
    simp only [Clause.yield, yieldAll_eq_flatMap, List.length_append, List.length_cons] at hd
    have hd' : 4 * (yieldAll (receiver :: args ++ later)).length + 1 ≤ depth := by
      simp only [yieldAll_eq_flatMap, List.cons_append, List.flatMap_cons, List.flatMap_append, List.length_append]
      omega
    obtain ⟨phrase,left,hr,hp,hl⟩ := h.named name ha hh hd'
    exact ⟨phrase,left,[],hr,hp,List.nil_suffix,hl⟩
  | operand operand =>
    by_cases hv : ∃ name, operand = .var name
    · obtain ⟨name,rfl⟩ := hv
      simp only [Clause.yield, Operand.yield, List.length_cons, List.length_nil] at hd
      obtain ⟨phrase,left,hr,hp,hl⟩ := h.named name ht hh (by omega)
      exact ⟨phrase,left,[],hr,hp,List.nil_suffix,hl⟩
    · rw [expr_eq_atom (fun name he => hv ⟨name,he⟩) ht]
      exact h.atom ht hh hd

theorem Complete.parens_succ (h : Complete depth) {inner : Clause} {rest : List Token}
    (ht : tokens ls = inner.yield ++ .closeParen :: rest) (hd : 4 * inner.yield.length ≤ depth + 2) :
    ∃ phrase left, Reader.parens (depth + 1) ls = .ok phrase left ∧ phrase.Proper ∧ tokens left = rest := by
  obtain ⟨phrase,mid,hr,hp,hm⟩ := h.whole ht (halts_cons rfl rest) hd
  obtain ⟨offset,left,rfl,hl⟩ := exists_of_tokens_eq_cons hm
  refine ⟨phrase,left,?_,hp,hl⟩
  simp only [Reader.parens]
  split
  · exact absurd ht (cons_ne_yield rfl inner _ _)
  · simp only [Reader.bind_eq_ok_iff, Reader.expect_eq_ok_iff, Reader.pure_eq_ok_iff]
    exact ⟨phrase,_,hr,(),left,⟨offset,rfl⟩,rfl,rfl⟩

theorem Complete.letIn_succ (h : Complete depth) {name : Ident} {bound body : Clause} {later : List Operand}
    {rest : List Token} (ht : tokens ls = (Operand.letIn name bound body).yield ++ (yieldAll later ++ rest))
    (hh : Halts rest)
    (hd : 4 * ((Operand.letIn name bound body).yield.length + (yieldAll later).length) ≤ depth + 4) :
    ∃ phrase left remaining, Reader.atom (depth + 1) ls = .ok phrase left ∧ phrase.Proper ∧
      remaining <:+ later ∧ tokens left = yieldAll remaining ++ rest := by
  simp only [Operand.yield, List.cons_append, List.append_assoc] at ht
  simp only [Operand.yield, List.length_cons, List.length_append] at hd
  obtain ⟨_,_,rfl,hn⟩ := exists_of_tokens_eq_cons ht
  obtain ⟨offset,_,rfl,he⟩ := exists_of_tokens_eq_cons hn
  obtain ⟨_,_,rfl,hb⟩ := exists_of_tokens_eq_cons he
  obtain ⟨value,_,hr,hp,hm⟩ := h.whole hb (halts_cons (by decide) _) (by omega)
  obtain ⟨_,_,rfl,hi⟩ := exists_of_tokens_eq_cons hm
  obtain ⟨result,left,remaining,hr',hp',hs,hl⟩ := h.expr hi hh (by omega)
  refine ⟨.letIn ⟨name.text,offset⟩ value result,left,remaining,?_,⟨name.not_keyword,hp,hp'⟩,hs,hl⟩
  simp only [Reader.atom, Reader.Leader.ofWord?, Reader.bind_eq_ok_iff, Reader.expect_eq_ok_iff, Reader.word_eq_ok_iff,
    Reader.pure_eq_ok_iff]
  exact ⟨_,_,rfl,(),_,⟨_,rfl⟩,value,_,hr,(),_,⟨_,rfl⟩,result,left,hr',rfl,rfl⟩

theorem Complete.choice_succ (h : Complete depth) {test : Clause} {yes no : List Clause} {rest : List Token}
    (ht : tokens ls = (Operand.choice test yes no).yield ++ rest)
    (hd : 4 * (Operand.choice test yes no).yield.length ≤ depth + 4) :
    ∃ phrase left, Reader.atom (depth + 1) ls = .ok phrase left ∧ phrase.Proper ∧ tokens left = rest := by
  simp only [Operand.yield, List.cons_append, List.append_assoc] at ht
  simp only [Operand.yield, List.length_cons, List.length_append] at hd
  obtain ⟨_,_,rfl,ho⟩ := exists_of_tokens_eq_cons ht
  obtain ⟨_,_,rfl,hc⟩ := exists_of_tokens_eq_cons ho
  obtain ⟨cond,_,hr,hp,hm⟩ := h.whole hc (halts_cons rfl _) (by omega)
  obtain ⟨_,_,rfl,hb⟩ := exists_of_tokens_eq_cons hm
  obtain ⟨_,_,rfl,hy⟩ := exists_of_tokens_eq_cons hb
  obtain ⟨first,_,hr₁,hp₁,he⟩ := h.block hy (by omega)
  obtain ⟨_,_,rfl,ho'⟩ := exists_of_tokens_eq_cons he
  obtain ⟨_,_,rfl,hn⟩ := exists_of_tokens_eq_cons ho'
  obtain ⟨second,left,hr₂,hp₂,hl⟩ := h.block hn (by omega)
  refine ⟨.cond cond first second,left,?_,⟨hp,hp₁,hp₂⟩,hl⟩
  simp only [Reader.atom, Reader.Leader.ofWord?, Reader.bind_eq_ok_iff, Reader.expect_eq_ok_iff, Reader.pure_eq_ok_iff]
  exact ⟨(),_,⟨_,rfl⟩,cond,_,hr,(),_,⟨_,rfl⟩,(),_,⟨_,rfl⟩,first,_,hr₁,(),_,⟨_,rfl⟩,(),_,⟨_,rfl⟩,second,left,hr₂,rfl,rfl⟩

theorem Complete.atom_succ (h : Complete depth) {operand : Operand} {later : List Operand} {rest : List Token}
    (ht : tokens ls = operand.yield ++ (yieldAll later ++ rest)) (hh : Halts rest)
    (hd : 4 * (operand.yield.length + (yieldAll later).length) ≤ depth + 4) :
    ∃ phrase left remaining, Reader.atom (depth + 1) ls = .ok phrase left ∧ phrase.Proper ∧
      remaining <:+ later ∧ tokens left = yieldAll remaining ++ rest := by
  cases operand with
  | unit =>
    obtain ⟨_,_,rfl,hc⟩ := exists_of_tokens_eq_cons ht
    obtain ⟨_,left,rfl,hl⟩ := exists_of_tokens_eq_cons hc
    simp only [Operand.yield, List.length_cons, List.length_nil] at hd
    obtain ⟨depth,rfl⟩ : ∃ n, depth = n + 1 := ⟨depth - 1,by omega⟩
    exact ⟨.unit,left,later,rfl,trivial,List.suffix_rfl,hl⟩
  | parens inner =>
    simp only [Operand.yield, List.cons_append, List.append_assoc, List.nil_append] at ht
    simp only [Operand.yield, List.length_cons, List.length_append] at hd
    obtain ⟨_,_,rfl,hi⟩ := exists_of_tokens_eq_cons ht
    obtain ⟨phrase,left,hr,hp,hl⟩ := h.parens hi (by omega)
    exact ⟨phrase,left,later,hr,hp,List.suffix_rfl,hl⟩
  | bool flag =>
    obtain ⟨_,left,rfl,hl⟩ := exists_of_tokens_eq_cons ht
    cases flag with
    | true => exact ⟨.bool true,left,later,rfl,trivial,List.suffix_rfl,hl⟩
    | false => exact ⟨.bool false,left,later,rfl,trivial,List.suffix_rfl,hl⟩
  | block steps =>
    simp only [Operand.yield, List.cons_append] at ht
    simp only [Operand.yield, List.length_cons] at hd
    obtain ⟨_,_,rfl,hb⟩ := exists_of_tokens_eq_cons ht
    obtain ⟨phrases,left,hr,hp,hl⟩ := h.block hb (by omega)
    exact ⟨.block phrases,left,later,Reader.bind_eq_ok_iff.2 ⟨phrases,left,hr,rfl⟩,hp,List.suffix_rfl,hl⟩
  | text body =>
    obtain ⟨offset,left,rfl,hl⟩ := exists_of_tokens_eq_cons ht
    exact ⟨.literal body offset,left,later,rfl,trivial,List.suffix_rfl,hl⟩
  | number lexeme =>
    obtain ⟨offset,left,rfl,hl⟩ := exists_of_tokens_eq_cons ht
    exact ⟨.numeral lexeme offset,left,later,rfl,trivial,List.suffix_rfl,hl⟩
  | letIn name bound body => exact h.letIn_succ ht hh hd
  | choice test yes no =>
    obtain ⟨phrase,left,hr,hp,hl⟩ := h.choice_succ ht (by omega)
    exact ⟨phrase,left,later,hr,hp,List.suffix_rfl,hl⟩
  | var name =>
    obtain ⟨offset,left,rfl,hl⟩ := exists_of_tokens_eq_cons ht
    refine ⟨.name ⟨name.text,offset⟩,left,later,?_,name.not_keyword,List.suffix_rfl,hl⟩
    simp [Reader.atom, Ident.token, name.leader_eq_none]

/-- Nothing is so short that it would be read to no depth at all. -/
theorem complete_zero : Complete 0 := by
  constructor
  case expr =>
    intro clause later ls rest _ _ hd
    have hlen := clause.length_yield_pos
    omega
  case atom =>
    intro operand later ls rest _ _ hd
    have hlen := operand.length_yield_pos
    omega
  case parens =>
    intro inner ls rest _ hd
    have hlen := inner.length_yield_pos
    omega
  case atoms =>
    intro operands ls rest _ _ hd
    omega
  case block =>
    intro steps ls rest _ hd
    cases steps with
    | nil => simp [yieldSteps] at hd
    | cons first more =>
      have hlen := first.length_yield_pos
      simp only [yieldSteps, List.length_append] at hd
      omega
  case steps =>
    intro first more ls rest _ hd
    have hlen := first.length_yield_pos
    simp only [yieldSteps, List.length_append] at hd
    omega

theorem complete (depth : Nat) : Complete depth := by
  induction depth with
  | zero => exact complete_zero
  | succ depth ih =>
    exact ⟨ih.expr_succ,ih.atom_succ,ih.parens_succ,fun ht hh hd => ih.atoms_succ ht hh (by omega),
      ih.block_succ,ih.steps_succ⟩

end Mica.Grammar
