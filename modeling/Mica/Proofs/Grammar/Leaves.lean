import Mica.Proofs.Grammar.Recognition
import Mica.Proofs.LooseEnds

/-! # Leaves

What is checked of a phrase are its leaves: the names, numerals and literals in it, each with its place in the text. The
first leaf with a flaw decides, so a check is a search through the leaves. Reading takes lexemes from the front and makes
leaves of some of them. No numeral is left out and none comes before another that it follows in the text.
-/
namespace Mica

def Word.lexeme (word : Word) : Lexeme := ⟨.word word.text,word.offset⟩

namespace Lexeme

/-- What is wrong with a name, a numeral or a literal by itself. -/
def flaw? (l : Lexeme) : Option Flaw :=
  match l.token with
  | .word text => if text ∈ keywords then some (.fault (.keyword text) l.offset) else none
  | .number lexeme => Except.error? (checkNumeral lexeme l.offset)
  | .text body => Except.error? (checkLiteral body l.offset)
  | _ => none

/-- A numeral and its place. -/
def numeral? (l : Lexeme) : Option (String × Nat) :=
  match l.token with
  | .number lexeme => some (lexeme,l.offset)
  | _ => none

end Lexeme

theorem Word.error?_check (word : Word) : Except.error? word.check = word.lexeme.flaw? := by
  simp only [check, lexeme, Lexeme.flaw?]
  split <;> rfl

namespace Phrase

mutual

/-- The leaves of a phrase in the order in which they are checked. -/
def leaves : Phrase → List Lexeme
  | unit | bool _ => []
  | numeral lexeme offset => [⟨.number lexeme,offset⟩]
  | literal body offset => [⟨.text body,offset⟩]
  | name word => [word.lexeme]
  | call head receiver args => leaves receiver ++ leavesAll args ++ [head.lexeme]
  | letIn binder bound body => leaves bound ++ leaves body ++ [binder.lexeme]
  | cond test yes no => leaves test ++ leavesAll yes ++ leavesAll no
  | block steps => leavesAll steps

def leavesAll : List Phrase → List Lexeme
  | [] => []
  | phrase :: phrases => leaves phrase ++ leavesAll phrases

end

theorem leavesAll_eq_flatMap (phrases : List Phrase) : leavesAll phrases = phrases.flatMap leaves := by
  induction phrases with
  | nil => rfl
  | cons phrase phrases ih => rw [leavesAll, List.flatMap_cons, ih]

end Phrase

def MethodPhrase.leaves (method : MethodPhrase) : List Lexeme :=
  method.params.map Word.lexeme ++ method.body.leaves ++ [method.name.lexeme]

def ClassPhrase.leaves (cls : ClassPhrase) : List Lexeme :=
  cls.methods.flatMap MethodPhrase.leaves ++ [cls.name.lexeme]

/-! ## Checking -/

section Search

variable {α β : Type} {x : Except Flaw α} {f : α → Except Flaw β} {ls more : List Lexeme}

theorem error?_bind_leaves (hx : Except.error? x = ls.findSome? Lexeme.flaw?)
    (hf : ∀ a, Except.error? (f a) = more.findSome? Lexeme.flaw?) :
    Except.error? (x >>= f) = (ls ++ more).findSome? Lexeme.flaw? := by
  rw [List.findSome?_append, ← hx]
  exact Except.error?_bind hf

theorem error?_map_leaves (hx : Except.error? x = ls.findSome? Lexeme.flaw?) (g : α → β) :
    Except.error? (x >>= fun a => pure (g a)) = ls.findSome? Lexeme.flaw? :=
  (Except.error?_bind_pure x g).trans hx

theorem error?_mapM_leaves {check : α → Except Flaw β} {leaves : α → List Lexeme} {as : List α}
    (h : ∀ a ∈ as, Except.error? (check a) = (leaves a).findSome? Lexeme.flaw?) :
    Except.error? (as.mapM check) = (as.flatMap leaves).findSome? Lexeme.flaw? :=
  Except.error?_mapM (List.findSome? Lexeme.flaw?) rfl (fun _ _ => List.findSome?_append) h

theorem Word.error?_leaf (word : Word) : Except.error? word.check = [word.lexeme].findSome? Lexeme.flaw? := by
  rw [word.error?_check, List.findSome?_singleton]

end Search

namespace Phrase

theorem error?_checkAll {phrases : List Phrase}
    (h : ∀ phrase ∈ phrases, Except.error? phrase.check = phrase.leaves.findSome? Lexeme.flaw?) :
    Except.error? (checkAll phrases) = (leavesAll phrases).findSome? Lexeme.flaw? := by
  rw [checkAll_eq_mapM, leavesAll_eq_flatMap]
  exact error?_mapM_leaves h

/-- A phrase is wrong for its first leaf with a flaw. -/
theorem error?_check (phrase : Phrase) : Except.error? phrase.check = phrase.leaves.findSome? Lexeme.flaw? := by
  induction phrase with
  | unit | bool => rfl
  | numeral lexeme offset =>
    rw [check, leaves, List.findSome?_singleton]
    exact Except.error?_bind_pure _ _
  | literal body offset =>
    rw [check, leaves, List.findSome?_singleton]
    exact Except.error?_bind_pure _ _
  | name word =>
    rw [check, leaves]
    exact error?_map_leaves word.error?_leaf _
  | call head receiver args hr ha =>
    rw [check, leaves, List.append_assoc]
    exact error?_bind_leaves hr fun _ =>
      error?_bind_leaves (error?_checkAll ha) fun _ => error?_map_leaves head.error?_leaf _
  | letIn binder bound body hb hd =>
    rw [check, leaves, List.append_assoc]
    exact error?_bind_leaves hb fun _ => error?_bind_leaves hd fun _ => error?_map_leaves binder.error?_leaf _
  | cond test yes no ht hy hn =>
    rw [check, leaves, List.append_assoc]
    exact error?_bind_leaves ht fun _ =>
      error?_bind_leaves (error?_checkAll hy) fun _ => error?_map_leaves (error?_checkAll hn) _
  | block steps hs =>
    rw [check, leaves]
    exact error?_map_leaves (error?_checkAll hs) _

end Phrase

theorem MethodPhrase.error?_check (method : MethodPhrase) :
    Except.error? method.check = method.leaves.findSome? Lexeme.flaw? := by
  rw [check, leaves, List.map_eq_flatMap, List.append_assoc]
  exact error?_bind_leaves (error?_mapM_leaves fun param _ => param.error?_leaf) fun _ =>
    error?_bind_leaves method.body.error?_check fun _ => error?_map_leaves method.name.error?_leaf _

theorem ClassPhrase.error?_check (cls : ClassPhrase) :
    Except.error? cls.check = cls.leaves.findSome? Lexeme.flaw? := by
  rw [check, leaves]
  exact error?_bind_leaves (error?_mapM_leaves fun method _ => method.error?_check) fun _ =>
    error?_map_leaves cls.name.error?_leaf _

/-! ## Reading -/

/-- Leaves that lexemes are read as. They are among the lexemes, and the numerals are the same in the same order. -/
structure Covers (used leaves : List Lexeme) : Prop where
  mem : leaves ⊆ used
  numerals : leaves.filterMap Lexeme.numeral? = used.filterMap Lexeme.numeral?

namespace Covers

variable {used more leaves others : List Lexeme} {l : Lexeme}

theorem self (ls : List Lexeme) : Covers ls ls := ⟨List.Subset.refl ls,rfl⟩

theorem append (h : Covers used leaves) (hm : Covers more others) : Covers (used ++ more) (leaves ++ others) := by
  refine ⟨List.append_subset.2 ⟨?_,?_⟩,?_⟩
  · exact List.subset_append_of_subset_left _ h.mem
  · exact List.subset_append_of_subset_right _ hm.mem
  · rw [List.filterMap_append, List.filterMap_append, h.numerals, hm.numerals]

/-- A lexeme that is no numeral need not become a leaf. -/
theorem skip (hl : l.numeral? = none) (h : Covers used leaves) : Covers (l :: used) leaves := by
  refine ⟨List.subset_cons_of_subset _ h.mem,?_⟩
  rw [List.filterMap_cons_none hl, h.numerals]

/-- A name is checked after what it is given to. -/
theorem insertName (word : Word) (h : Covers used (leaves ++ others)) :
    Covers (word.lexeme :: used) (leaves ++ word.lexeme :: others) := by
  have hn : word.lexeme.numeral? = none := rfl
  obtain ⟨hl,ho⟩ := List.append_subset.1 h.mem
  refine ⟨List.append_subset.2 ⟨List.subset_cons_of_subset _ hl,List.cons_subset_cons _ ho⟩,?_⟩
  rw [List.filterMap_append, List.filterMap_cons_none hn, List.filterMap_cons_none hn, ← List.filterMap_append,
    h.numerals]

theorem name (word : Word) (h : Covers used leaves) : Covers (word.lexeme :: used) (leaves ++ [word.lexeme]) :=
  insertName word (by rwa [List.append_nil])

end Covers

namespace Reader

variable {α β : Type}

/-- What can come of reading some lexemes: a result and the lexemes it was read from, which went before the rest, or a
failure, which leaves the last ones. -/
def Takes (ls : List Lexeme) (holds : α → List Lexeme → Prop) : EStateM.Result Unit (List Lexeme) α → Prop
  | .ok a rest => ∃ used, ls = used ++ rest ∧ holds a used
  | .error _ rest => rest <:+ ls

variable {ls rest : List Lexeme} {holds : α → List Lexeme → Prop} {goal : β → List Lexeme → Prop} {l : Lexeme}

theorem takes_ok {a : α} (h : holds a []) : Takes ls holds (.ok a ls) := ⟨[],rfl,h⟩

theorem takes_refuse (ls : List Lexeme) : Takes ls holds (refuse ls) := List.suffix_refl ls

theorem Takes.mono {other : α → List Lexeme → Prop} {result : EStateM.Result Unit (List Lexeme) α}
    (h : Takes ls holds result) (ho : ∀ a used, holds a used → other a used) : Takes ls other result := by
  cases result with
  | error e rest => exact h
  | ok a rest =>
    obtain ⟨used,hu,ha⟩ := h
    exact ⟨used,hu,ho a used ha⟩

/-- One more lexeme goes before what is taken. -/
theorem Takes.cons {result : EStateM.Result Unit (List Lexeme) α}
    (h : Takes ls (fun a used => holds a (l :: used)) result) : Takes (l :: ls) holds result := by
  cases result with
  | error e rest => exact h.trans (List.suffix_cons l ls)
  | ok a rest =>
    obtain ⟨used,rfl,ha⟩ := h
    exact ⟨l :: used,rfl,ha⟩

theorem Takes.bind {reader : Reader α} {next : α → Reader β} (h : Takes ls holds (reader ls))
    (hn : ∀ a used rest, holds a used → Takes rest (fun b more => goal b (used ++ more)) (next a rest)) :
    Takes ls goal ((reader >>= next) ls) := by
  simp only [Bind.bind, EStateM.bind]
  cases hr : reader ls with
  | error e rest =>
    rw [hr] at h
    exact h
  | ok a rest =>
    rw [hr] at h
    obtain ⟨used,hu,ha⟩ := h
    have hnext := hn a used rest ha
    change Takes ls goal (next a rest)
    cases hm : next a rest with
    | error e left =>
      rw [hm] at hnext
      exact List.IsSuffix.trans hnext ⟨used,hu.symm⟩
    | ok b left =>
      rw [hm] at hnext
      obtain ⟨more,rfl,hb⟩ := hnext
      exact ⟨used ++ more,by rw [hu, List.append_assoc],hb⟩

theorem Takes.map {reader : Reader α} {f : α → β} (h : Takes ls holds (reader ls))
    (hf : ∀ a used, holds a used → goal (f a) used) :
    Takes ls goal ((reader >>= fun a => pure (f a)) ls) := by
  refine h.bind fun a used rest ha => takes_ok ?_
  rw [List.append_nil]
  exact hf a used ha

theorem takes_expect {token : Token} {next : Unit → Reader β}
    (h : ∀ offset rest, Takes rest (fun b more => goal b (⟨token,offset⟩ :: more)) (next () rest)) :
    Takes ls goal ((expect token >>= next) ls) := by
  have he : Takes ls (fun _ used => ∃ offset, used = [⟨token,offset⟩]) (expect token ls) := by
    cases ls with
    | nil => exact List.suffix_refl []
    | cons l ls =>
      obtain ⟨found,offset⟩ := l
      by_cases ht : found = token
      · rw [expect, if_pos ht]
        exact ⟨[⟨found,offset⟩],rfl,offset,by rw [ht]⟩
      · rw [expect, if_neg ht]
        exact List.suffix_refl _
  refine he.bind fun _ used rest hu => ?_
  obtain ⟨offset,rfl⟩ := hu
  exact h offset rest

theorem takes_word {next : Word → Reader β}
    (h : ∀ word rest, Takes rest (fun b more => goal b (word.lexeme :: more)) (next word rest)) :
    Takes ls goal ((word >>= next) ls) := by
  have hw : Takes ls (fun word used => used = [word.lexeme]) (word ls) := by
    unfold Reader.word
    split
    · exact ⟨_,rfl,rfl⟩
    · exact List.suffix_refl _
  refine hw.bind fun found used rest hu => ?_
  obtain rfl := hu
  exact h found rest

theorem takes_words (ls : List Lexeme) : Takes ls (fun words used => used = words.map Word.lexeme) (words ls) := by
  fun_induction words ls with
  | case1 text offset ls rest left hr ih =>
    rw [hr] at ih
    obtain ⟨used,rfl,rfl⟩ := ih
    exact ⟨⟨.word text,offset⟩ :: rest.map Word.lexeme,rfl,rfl⟩
  | case2 text offset ls e left hr ih =>
    rw [hr] at ih
    exact ih.trans (List.suffix_cons _ _)
  | case3 ls _ => exact takes_ok rfl

/-- What is read to a given depth covers its leaves. -/
structure Leafing (depth : Nat) : Prop where
  expr (ls : List Lexeme) : Takes ls (fun phrase used => Covers used phrase.leaves) (expr depth ls)
  atom (ls : List Lexeme) : Takes ls (fun phrase used => Covers used phrase.leaves) (atom depth ls)
  parens (ls : List Lexeme) : Takes ls (fun phrase used => Covers used phrase.leaves) (parens depth ls)
  atoms (ls : List Lexeme) : Takes ls (fun phrases used => Covers used (Phrase.leavesAll phrases)) (atoms depth ls)
  block (ls : List Lexeme) : Takes ls (fun phrases used => Covers used (Phrase.leavesAll phrases)) (block depth ls)
  steps (ls : List Lexeme) : Takes ls (fun phrases used => Covers used (Phrase.leavesAll phrases)) (steps depth ls)

namespace Leafing

variable {depth : Nat}

theorem expr_succ (h : Leafing depth) (ls : List Lexeme) :
    Takes ls (fun phrase used => Covers used phrase.leaves) (Reader.expr (depth + 1) ls) := by
  simp only [Reader.expr]
  split
  · next text offset rest =>
    split
    · exact h.atom _
    · have ha := h.atoms rest
      split
      · next left hr =>
        rw [hr] at ha
        obtain ⟨used,rfl,hc⟩ := ha
        exact ⟨⟨.word text,offset⟩ :: used,rfl,hc.name ⟨text,offset⟩⟩
      · next receiver args left hr =>
        rw [hr] at ha
        obtain ⟨used,rfl,hc⟩ := ha
        exact ⟨⟨.word text,offset⟩ :: used,rfl,hc.name ⟨text,offset⟩⟩
      · next e left hr =>
        rw [hr] at ha
        exact List.IsSuffix.trans ha (List.suffix_cons _ _)
  · exact h.atom _

theorem choice_succ (h : Leafing depth) (offset : Nat) (ls : List Lexeme) :
    Takes (⟨.word "if",offset⟩ :: ls) (fun phrase used => Covers used phrase.leaves)
      (Reader.atom (depth + 1) (⟨.word "if",offset⟩ :: ls)) := by
  refine Takes.cons (takes_expect fun _ ls => (h.expr ls).bind fun test used rest ht => ?_)
  refine takes_expect fun _ rest => takes_expect fun _ rest => (h.block rest).bind fun yes more rest hy => ?_
  refine takes_expect fun _ rest => takes_expect fun _ rest => (h.block rest).map fun no last hn => ?_
  rw [Phrase.leaves, List.append_assoc]
  exact .skip rfl (.skip rfl (ht.append (.skip rfl (.skip rfl (hy.append (.skip rfl (.skip rfl hn)))))))

theorem letIn_succ (h : Leafing depth) (offset : Nat) (ls : List Lexeme) :
    Takes (⟨.word "let",offset⟩ :: ls) (fun phrase used => Covers used phrase.leaves)
      (Reader.atom (depth + 1) (⟨.word "let",offset⟩ :: ls)) := by
  refine Takes.cons (takes_word fun binder ls => takes_expect fun _ ls => ?_)
  refine (h.expr ls).bind fun bound used rest hb => takes_expect fun _ rest => (h.expr rest).map fun body more hd => ?_
  exact .skip rfl (.name binder (.skip rfl (hb.append (.skip rfl hd))))

theorem atom_succ (h : Leafing depth) (ls : List Lexeme) :
    Takes ls (fun phrase used => Covers used phrase.leaves) (Reader.atom (depth + 1) ls) := by
  cases ls with
  | nil => exact List.suffix_refl []
  | cons l rest =>
    obtain ⟨token,offset⟩ := l
    cases token with
    | number lexeme => exact ⟨[⟨.number lexeme,offset⟩],rfl,.self _⟩
    | text body => exact ⟨[⟨.text body,offset⟩],rfl,.self _⟩
    | openBrace => exact Takes.cons ((h.block rest).map fun steps used hs => .skip rfl hs)
    | openParen => exact Takes.cons ((h.parens rest).mono fun phrase used hp => .skip rfl hp)
    | word text =>
      cases hl : Leader.ofWord? text with
      | none =>
        simp only [Reader.atom, hl]
        exact ⟨[⟨.word text,offset⟩],rfl,.self _⟩
      | some leader =>
        obtain rfl := Grammar.eq_of_leader hl
        cases leader with
        | truth => exact Takes.cons (takes_ok (.skip rfl (.self [])))
        | falsity => exact Takes.cons (takes_ok (.skip rfl (.self [])))
        | choice => exact h.choice_succ offset rest
        | binding => exact h.letIn_succ offset rest
    | _ => exact List.suffix_refl _

theorem parens_succ (h : Leafing depth) (ls : List Lexeme) :
    Takes ls (fun phrase used => Covers used phrase.leaves) (Reader.parens (depth + 1) ls) := by
  simp only [Reader.parens]
  split
  · exact Takes.cons (takes_ok (.skip rfl (.self [])))
  · refine (h.expr ls).bind fun inner used rest hi => takes_expect fun offset rest => takes_ok ?_
    simpa using hi.append (.skip rfl (.self []) : Covers [⟨.closeParen,offset⟩] [])

theorem atoms_succ (h : Leafing depth) (ls : List Lexeme) :
    Takes ls (fun phrases used => Covers used (Phrase.leavesAll phrases)) (Reader.atoms (depth + 1) ls) := by
  simp only [Reader.atoms]
  split
  · exact takes_ok (.self [])
  · next l rest =>
    split
    · exact (h.atom _).bind fun first used left hf => (h.atoms left).map fun others more ho => hf.append ho
    · exact takes_ok (.self [])

theorem block_succ (h : Leafing depth) (ls : List Lexeme) :
    Takes ls (fun phrases used => Covers used (Phrase.leavesAll phrases)) (Reader.block (depth + 1) ls) := by
  simp only [Reader.block]
  split
  · exact Takes.cons (takes_ok (.skip rfl (.self [])))
  · exact h.steps ls

theorem steps_succ (h : Leafing depth) (ls : List Lexeme) :
    Takes ls (fun phrases used => Covers used (Phrase.leavesAll phrases)) (Reader.steps (depth + 1) ls) := by
  rw [Reader.steps]
  refine (h.expr ls).bind fun first used rest hf => ?_
  split
  · next offset left =>
    exact Takes.cons ((h.steps left).map fun others more ho => hf.append (.skip rfl ho))
  · next offset left => exact Takes.cons (takes_ok (hf.append (.skip rfl (.self []))))
  · exact List.suffix_refl _

end Leafing

theorem leafing (depth : Nat) : Leafing depth := by
  induction depth with
  | zero => exact ⟨takes_refuse,takes_refuse,takes_refuse,takes_refuse,takes_refuse,takes_refuse⟩
  | succ depth ih =>
    exact ⟨ih.expr_succ,ih.atom_succ,ih.parens_succ,ih.atoms_succ,ih.block_succ,ih.steps_succ⟩

theorem takes_members (depth : Nat) (ls : List Lexeme) :
    Takes ls (fun methods used => Covers used (methods.flatMap MethodPhrase.leaves)) (members depth ls) := by
  induction depth generalizing ls with
  | zero => exact takes_refuse ls
  | succ depth ih =>
    simp only [members]
    split
    · exact Takes.cons (takes_ok (.skip rfl (.self [])))
    · refine takes_expect fun _ ls => takes_word fun name ls => (takes_words ls).bind fun params used rest hp => ?_
      refine takes_expect fun _ rest => ((leafing depth).expr rest).bind fun body more rest hb => ?_
      refine takes_expect fun _ rest => (ih rest).map fun methods last hm => ?_
      obtain rfl := hp
      rw [List.flatMap_cons, MethodPhrase.leaves, List.append_assoc, List.singleton_append]
      refine .skip rfl (.insertName name ?_)
      rw [List.append_assoc]
      exact (Covers.self _).append (.skip rfl (hb.append (.skip rfl hm)))

theorem takes_classes (depth : Nat) (ls : List Lexeme) :
    Takes ls (fun classes used => Covers used (classes.flatMap ClassPhrase.leaves)) (classes depth ls) := by
  induction depth generalizing ls with
  | zero => exact takes_refuse ls
  | succ depth ih =>
    simp only [classes]
    split
    · exact takes_ok (.self [])
    · refine takes_expect fun _ ls => takes_word fun name ls => takes_expect fun _ ls => ?_
      refine (takes_members depth ls).bind fun methods used rest hm => (ih rest).map fun others more ho => ?_
      rw [List.flatMap_cons, ClassPhrase.leaves, List.append_assoc, List.singleton_append]
      exact .skip rfl (.insertName name (.skip rfl (hm.append ho)))

end Reader

/-! ## Parsing -/

/-- A check of what a reader makes of some lexemes looks at leaves that it has taken from them. -/
structure ChecksLeaves {α β : Type} (reader : Nat → Reader α) (leaves : α → List Lexeme) (check : α → Except Flaw β) :
    Prop where
  takes : ∀ depth ls, Reader.Takes ls (fun a used => Covers used (leaves a)) (reader depth ls)
  flaws : ∀ a, Except.error? (check a) = (leaves a).findSome? Lexeme.flaw?

theorem Phrase.checksLeaves : ChecksLeaves Reader.expr leaves check :=
  ⟨fun depth => (Reader.leafing depth).expr,error?_check⟩

theorem ClassPhrase.checksLeaves : ChecksLeaves Reader.classes (List.flatMap leaves) (List.mapM check) :=
  ⟨Reader.takes_classes,fun _ => error?_mapM_leaves fun cls _ => cls.error?_check⟩

namespace Lexing

variable {α β : Type} {lexing : Lexing} {reader : Nat → Reader α} {leaves : α → List Lexeme}
  {check : α → Except Flaw β}

theorem readAll_covers (hc : ChecksLeaves reader leaves check) {a : α} (h : lexing.readAll reader = .ok a) :
    Covers lexing.lexemes (leaves a) := by
  obtain ⟨_,hread⟩ := Grammar.readAll_eq_ok_iff.1 h
  have ht := hc.takes (Reader.depthBound lexing.lexemes.length) lexing.lexemes
  rw [hread] at ht
  obtain ⟨used,hu,hcovers⟩ := ht
  rw [List.append_nil] at hu
  exact hu ▸ hcovers

/-- When a text cannot be read, the blame lies with what is left, which is the end of the text. -/
theorem readAll_blames (hc : ChecksLeaves reader leaves check) {fault : SourceFault} {offset : Nat}
    (h : lexing.readAll reader = .error (fault,offset)) :
    ∃ left, left <:+ lexing.lexemes ∧ lexing.blame left = (fault,offset) := by
  have ht := hc.takes (Reader.depthBound lexing.lexemes.length) lexing.lexemes
  unfold readAll at h
  split at h
  · split at h
    · cases h
    · exact ⟨[],List.nil_suffix,Except.error.inj h⟩
  · next left _ hread =>
    rw [hread] at ht
    obtain ⟨used,hu,_⟩ := ht
    exact ⟨left,⟨used,hu.symm⟩,Except.error.inj h⟩
  · next left hread =>
    rw [hread] at ht
    exact ⟨left,ht,Except.error.inj h⟩

/-- A text is refused because it cannot be read, or for its first leaf with a flaw. -/
theorem parse_eq_error (hc : ChecksLeaves reader leaves check) {flaw : Flaw}
    (h : lexing.parse reader check = .error flaw) :
    (∃ left fault offset, left <:+ lexing.lexemes ∧ lexing.blame left = (fault,offset) ∧ flaw = .fault fault offset) ∨
      ∃ l ∈ lexing.lexemes, l.flaw? = some flaw := by
  unfold parse at h
  split at h
  · next a hread =>
    have hfound := hc.flaws a
    rw [h] at hfound
    obtain ⟨l,hl,hf⟩ := List.exists_of_findSome?_eq_some hfound.symm
    exact .inr ⟨l,(readAll_covers hc hread).mem hl,hf⟩
  · next fault offset hread =>
    obtain ⟨left,hs,hb⟩ := readAll_blames hc hread
    exact .inl ⟨left,fault,offset,hs,hb,(Except.error.inj h).symm⟩

end Lexing

/-- An expression is read in the same way as a program, but nothing is made of it. -/
theorem Named.parse_eq_map (source : String) :
    parse source = (((Lexing.ofExpr source).parse Reader.expr Phrase.check).map id).mapError (Flaw.toProblem source) := by
  rw [Except.map_id]
  rfl

end Mica
