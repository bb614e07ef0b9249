import Mica.Proofs.Grammar.Coverage

/-! # Declarations

Derivations of classes and methods. Where a method or a class ends is always marked by a token, so all
that is ambiguous in a program is inside the bodies of its methods.
-/
namespace Mica

namespace Grammar

structure MethodTree where
  name : Ident
  params : List Ident
  body : Clause

structure ClassTree where
  name : Ident
  methods : List MethodTree

def MethodTree.yield (method : MethodTree) : List Token :=
  .word "def" :: method.name.token :: (method.params.map Ident.token ++ .equals :: (method.body.yield ++ [.semicolon]))

def ClassTree.yield (cls : ClassTree) : List Token :=
  .word "class" :: cls.name.token :: .openBrace :: (cls.methods.flatMap MethodTree.yield ++ [.closeBrace])

def GreedyMethods (rest : List Token) : List MethodTree → Prop
  | [] => True
  | method :: methods =>
    method.body.Greedy (.semicolon :: (methods.flatMap MethodTree.yield ++ rest)) ∧ GreedyMethods rest methods

def GreedyClasses : List ClassTree → Prop
  | [] => True
  | cls :: classes =>
    GreedyMethods (.closeBrace :: classes.flatMap ClassTree.yield) cls.methods ∧ GreedyClasses classes

def MethodTree.meaning (read : String → Option I32) (method : MethodTree) : Option MethodDef :=
  (method.body.meaning read).map (MethodDef.mk method.name.text (method.params.map Ident.text))

def ClassTree.meaning (read : String → Option I32) (cls : ClassTree) : Option ClassDef :=
  (cls.methods.mapM (MethodTree.meaning read)).map (ClassDef.mk cls.name.text)

/-- The program that derivations of its classes stand for. -/
def programMeaning (read : String → Option I32) (classes : List ClassTree) : Option Program :=
  (classes.mapM (ClassTree.meaning read)).map Program.mk

theorem fixedParams {params others : List Ident} {rest more : List Token}
    (h : params.map Ident.token ++ .equals :: rest = others.map Ident.token ++ .equals :: more) :
    params = others ∧ rest = more := by
  induction params generalizing others with
  | nil =>
    cases others with
    | nil => exact ⟨rfl,(List.cons.inj h).2⟩
    | cons other others => simp [Ident.token] at h
  | cons param params ih =>
    cases others with
    | nil => simp [Ident.token] at h
    | cons other others =>
      obtain ⟨hp,hr⟩ := List.cons.inj h
      obtain rfl := Ident.token_inj hp
      obtain ⟨rfl,he⟩ := ih hr
      exact ⟨rfl,he⟩

theorem fixedMethods {methods others : List MethodTree} {rest more : List Token}
    (h : methods.flatMap MethodTree.yield ++ .closeBrace :: rest =
      others.flatMap MethodTree.yield ++ .closeBrace :: more)
    (hg : GreedyMethods (.closeBrace :: rest) methods) (hg' : GreedyMethods (.closeBrace :: more) others) :
    methods = others ∧ rest = more := by
  induction methods generalizing others with
  | nil =>
    cases others with
    | nil => exact ⟨rfl,(List.cons.inj h).2⟩
    | cons other others => simp [MethodTree.yield] at h
  | cons method methods ih =>
    cases others with
    | nil => simp [MethodTree.yield] at h
    | cons other others =>
      obtain ⟨name,params,body⟩ := method
      obtain ⟨name',params',body'⟩ := other
      simp only [List.flatMap_cons, MethodTree.yield, List.cons_append, List.append_assoc, List.nil_append,
        List.cons.injEq, true_and] at h
      obtain ⟨hn,h⟩ := h
      obtain rfl := Ident.token_inj hn
      obtain ⟨rfl,hb⟩ := fixedParams h
      obtain ⟨rfl,hm⟩ := body.fixed hb hg.1 hg'.1
      obtain ⟨rfl,he⟩ := ih (List.cons.inj hm).2 hg.2 hg'.2
      exact ⟨rfl,he⟩

/-- Of all greedy derivations of a program only one has a given yield. -/
theorem fixedClasses {classes others : List ClassTree}
    (h : classes.flatMap ClassTree.yield = others.flatMap ClassTree.yield) (hg : GreedyClasses classes)
    (hg' : GreedyClasses others) : classes = others := by
  induction classes generalizing others with
  | nil =>
    cases others with
    | nil => rfl
    | cons other others => simp [ClassTree.yield] at h
  | cons cls classes ih =>
    cases others with
    | nil => simp [ClassTree.yield] at h
    | cons other others =>
      obtain ⟨name,methods⟩ := cls
      obtain ⟨name',methods'⟩ := other
      simp only [List.flatMap_cons, ClassTree.yield, List.cons_append, List.append_assoc, List.nil_append,
        List.cons.injEq, true_and] at h
      obtain ⟨hn,h⟩ := h
      obtain rfl := Ident.token_inj hn
      obtain ⟨rfl,he⟩ := fixedMethods h hg.1 hg'.1
      obtain rfl := ih he hg.2 hg'.2
      rfl

end Grammar

namespace Word

theorem mapM_check_of_proper {words : List Word} (h : ∀ word ∈ words, word.Proper) :
    words.mapM check = .ok (words.map Word.text) := by
  rw [Except.mapM_eq_ok_iff, List.forall₂_map_right_iff, List.forall₂_same]
  exact fun word hw => check_of_proper (h word hw)

end Word

namespace MethodPhrase

structure Proper (method : MethodPhrase) : Prop where
  name : method.name.Proper
  params : ∀ param ∈ method.params, param.Proper
  body : method.body.Proper

theorem proper_of_check {method : MethodPhrase} {found : MethodDef} (h : method.check = .ok found) :
    method.Proper := by
  obtain ⟨_,hp,h⟩ := Except.bind_eq_ok_iff.1 h
  obtain ⟨_,hb,h⟩ := Except.bind_eq_ok_iff.1 h
  obtain ⟨_,hn,_⟩ := Except.bind_eq_ok_iff.1 h
  exact ⟨Word.proper_of_check hn,Except.forall_mem_of_mapM (fun _ _ _ => Word.proper_of_check) hp,
    Phrase.proper_of_check hb⟩

theorem toOption_check {method : MethodPhrase} (h : method.Proper) :
    method.check.toOption =
      method.body.check.toOption.map (MethodDef.mk method.name.text (method.params.map Word.text)) := by
  rw [check, Word.mapM_check_of_proper h.params, Word.check_of_proper h.name]
  cases method.body.check <;> rfl

end MethodPhrase

namespace ClassPhrase

structure Proper (cls : ClassPhrase) : Prop where
  name : cls.name.Proper
  methods : ∀ method ∈ cls.methods, method.Proper

theorem proper_of_check {cls : ClassPhrase} {found : ClassDef} (h : cls.check = .ok found) : cls.Proper := by
  obtain ⟨_,hm,h⟩ := Except.bind_eq_ok_iff.1 h
  obtain ⟨_,hn,_⟩ := Except.bind_eq_ok_iff.1 h
  exact ⟨Word.proper_of_check hn,Except.forall_mem_of_mapM (fun _ _ _ => MethodPhrase.proper_of_check) hm⟩

theorem toOption_check {cls : ClassPhrase} (h : cls.Proper) :
    cls.check.toOption = (cls.methods.mapM MethodPhrase.check).toOption.map (ClassDef.mk cls.name.text) := by
  rw [check, Word.check_of_proper h.name]
  cases cls.methods.mapM MethodPhrase.check <;> rfl

end ClassPhrase

namespace Grammar

variable {depth : Nat} {ls rest : List Lexeme}

theorem tokens_of_words {words : List Word} (h : Reader.words ls = .ok words rest) :
    tokens ls = (words.map Word.text).map .word ++ tokens rest := by
  fun_induction Reader.words ls generalizing words rest with
  | case1 text offset ls found left hw ih =>
    cases h
    rw [tokens_cons, ih hw]
    rfl
  | case2 text offset ls e left hw ih => cases h
  | case3 ls hn =>
    cases h
    rfl

theorem exists_idents {texts : List String} (h : ∀ text ∈ texts, text ∉ keywords) :
    ∃ idents : List Ident, idents.map Ident.text = texts ∧ idents.map Ident.token = texts.map .word := by
  induction texts with
  | nil => exact ⟨[],rfl,rfl⟩
  | cons text texts ih =>
    obtain ⟨hw,hs⟩ := List.forall_mem_cons.1 h
    obtain ⟨idents,hi,ht⟩ := ih hs
    exact ⟨⟨text,hw⟩ :: idents,by rw [List.map_cons, hi],by rw [List.map_cons, ht]; rfl⟩

theorem methodTrees_of_members {methods : List MethodPhrase} (h : Reader.members depth ls = .ok methods rest)
    (hp : ∀ method ∈ methods, method.Proper) :
    ∃ trees : List MethodTree, tokens ls = trees.flatMap MethodTree.yield ++ .closeBrace :: tokens rest ∧
      GreedyMethods (.closeBrace :: tokens rest) trees ∧
      trees.mapM (MethodTree.meaning checkedNumeral) = (methods.mapM MethodPhrase.check).toOption := by
  induction depth generalizing ls methods with
  | zero => cases h
  | succ depth ih =>
    simp only [Reader.members] at h
    split at h
    · cases h
      exact ⟨[],rfl,trivial,rfl⟩
    · simp only [Reader.bind_eq_ok_iff, Reader.expect_eq_ok_iff, Reader.word_eq_ok_iff, Reader.pure_eq_ok_iff] at h
      obtain ⟨_,_,⟨_,rfl⟩,name,_,rfl,params,_,hw,_,_,⟨_,rfl⟩,body,_,hb,_,_,⟨_,rfl⟩,later,_,hl,rfl,rfl⟩ := h
      obtain ⟨hm,hs⟩ := List.forall_mem_cons.1 hp
      obtain ⟨trees,hy,hg,hc⟩ := ih hl hs
      obtain ⟨clause,hyb,hgb,hcb⟩ := (sound depth).expr hb hm.body
      obtain ⟨idents,hi,ht⟩ := exists_idents (List.forall_mem_map.2 hm.params)
      simp only [tokens_cons, hy] at hyb hgb
      refine ⟨⟨⟨name.text,hm.name⟩,idents,clause⟩ :: trees,?_,⟨hgb,hg⟩,?_⟩
      · simp only [tokens_cons, tokens_of_words hw, hyb, MethodTree.yield, ht, List.flatMap_cons, List.cons_append,
          List.append_assoc, List.nil_append]
        rfl
      · rw [Except.toOption_mapM_cons, MethodPhrase.toOption_check hm, List.mapM_cons, hc, MethodTree.meaning, hcb, hi]
        cases body.check <;> cases later.mapM MethodPhrase.check <;> rfl

theorem classTrees_of_classes {classes : List ClassPhrase} (h : Reader.classes depth ls = .ok classes rest)
    (hp : ∀ cls ∈ classes, cls.Proper) :
    rest = [] ∧ ∃ trees : List ClassTree, tokens ls = trees.flatMap ClassTree.yield ∧ GreedyClasses trees ∧
      trees.mapM (ClassTree.meaning checkedNumeral) = (classes.mapM ClassPhrase.check).toOption := by
  induction depth generalizing ls classes with
  | zero => cases h
  | succ depth ih =>
    simp only [Reader.classes] at h
    split at h
    · cases h
      exact ⟨rfl,[],rfl,trivial,rfl⟩
    · simp only [Reader.bind_eq_ok_iff, Reader.expect_eq_ok_iff, Reader.word_eq_ok_iff, Reader.pure_eq_ok_iff] at h
      obtain ⟨_,_,⟨_,rfl⟩,name,_,rfl,_,_,⟨_,rfl⟩,methods,_,hm,later,_,hl,rfl,rfl⟩ := h
      obtain ⟨hc,hs⟩ := List.forall_mem_cons.1 hp
      obtain ⟨hr,trees,hy,hg,hmean⟩ := ih hl hs
      obtain ⟨members,hym,hgm,hmm⟩ := methodTrees_of_members hm hc.methods
      rw [hy] at hym hgm
      refine ⟨hr,⟨⟨name.text,hc.name⟩,members⟩ :: trees,by simp [hym, ClassTree.yield, Ident.token],⟨hgm,hg⟩,?_⟩
      rw [Except.toOption_mapM_cons, ClassPhrase.toOption_check hc, List.mapM_cons, hmean, ClassTree.meaning, hmm]
      cases methods.mapM MethodPhrase.check <;> cases later.mapM ClassPhrase.check <;> rfl

theorem exists_words {params : List Ident} {rest : List Token}
    (h : tokens ls = params.map Ident.token ++ .equals :: rest) :
    ∃ words left, Reader.words ls = .ok words left ∧ (∀ word ∈ words, word.Proper) ∧ tokens left = .equals :: rest := by
  induction params generalizing ls with
  | nil =>
    obtain ⟨offset,left,rfl,_⟩ := exists_of_tokens_eq_cons h
    exact ⟨[],_,rfl,nofun,h⟩
  | cons param params ih =>
    obtain ⟨offset,mid,rfl,hm⟩ := exists_of_tokens_eq_cons h
    obtain ⟨words,left,hw,hp,hl⟩ := ih hm
    refine ⟨⟨param.text,offset⟩ :: words,left,?_,List.forall_mem_cons.2 ⟨param.not_keyword,hp⟩,hl⟩
    simp [Reader.words, Ident.token, hw]

theorem exists_members {methods : List MethodTree} {rest : List Token}
    (h : tokens ls = methods.flatMap MethodTree.yield ++ .closeBrace :: rest)
    (hd : 4 * (methods.flatMap MethodTree.yield).length + 1 ≤ depth) :
    ∃ found left, Reader.members depth ls = .ok found left ∧ (∀ method ∈ found, method.Proper) ∧
      tokens left = rest := by
  induction methods generalizing ls depth with
  | nil =>
    obtain ⟨depth,rfl⟩ : ∃ n, depth = n + 1 := ⟨depth - 1,by omega⟩
    obtain ⟨offset,left,rfl,hl⟩ := exists_of_tokens_eq_cons h
    exact ⟨[],left,rfl,nofun,hl⟩
  | cons method methods ih =>
    obtain ⟨depth,rfl⟩ : ∃ n, depth = n + 1 := ⟨depth - 1,by omega⟩
    simp only [List.flatMap_cons, MethodTree.yield, List.length_append, List.length_cons] at hd
    simp only [List.flatMap_cons, MethodTree.yield, List.cons_append, List.append_assoc, List.nil_append] at h
    obtain ⟨_,_,rfl,hn⟩ := exists_of_tokens_eq_cons h
    obtain ⟨offset,_,rfl,hps⟩ := exists_of_tokens_eq_cons hn
    obtain ⟨params,_,hw,hp,he⟩ := exists_words hps
    obtain ⟨_,_,rfl,hb⟩ := exists_of_tokens_eq_cons he
    obtain ⟨body,_,hr,hpb,hs⟩ := (complete depth).whole hb (halts_cons rfl _) (by omega)
    obtain ⟨_,_,rfl,hm⟩ := exists_of_tokens_eq_cons hs
    have hd' : 4 * (methods.flatMap MethodTree.yield).length + 1 ≤ depth := by omega
    obtain ⟨found,left,hf,hpf,hl⟩ := ih hm hd'
    refine ⟨⟨⟨method.name.text,offset⟩,params,body⟩ :: found,left,?_,
      List.forall_mem_cons.2 ⟨⟨method.name.not_keyword,hp,hpb⟩,hpf⟩,hl⟩
    simp only [Reader.members, Reader.bind_eq_ok_iff, Reader.expect_eq_ok_iff, Reader.word_eq_ok_iff,
      Reader.pure_eq_ok_iff]
    exact ⟨(),_,⟨_,rfl⟩,_,_,rfl,params,_,hw,(),_,⟨_,rfl⟩,body,_,hr,(),_,⟨_,rfl⟩,found,left,hf,rfl,rfl⟩

theorem exists_classes {classes : List ClassTree} (h : tokens ls = classes.flatMap ClassTree.yield)
    (hd : 4 * (classes.flatMap ClassTree.yield).length + 1 ≤ depth) :
    ∃ found, Reader.classes depth ls = .ok found [] ∧ ∀ cls ∈ found, cls.Proper := by
  induction classes generalizing ls depth with
  | nil =>
    obtain ⟨depth,rfl⟩ : ∃ n, depth = n + 1 := ⟨depth - 1,by omega⟩
    obtain rfl := List.map_eq_nil_iff.1 h
    exact ⟨[],rfl,nofun⟩
  | cons cls classes ih =>
    obtain ⟨depth,rfl⟩ : ∃ n, depth = n + 1 := ⟨depth - 1,by omega⟩
    simp only [List.flatMap_cons, ClassTree.yield, List.length_append, List.length_cons] at hd
    simp only [List.flatMap_cons, ClassTree.yield, List.cons_append, List.append_assoc, List.nil_append] at h
    obtain ⟨_,_,rfl,hn⟩ := exists_of_tokens_eq_cons h
    obtain ⟨offset,_,rfl,ho⟩ := exists_of_tokens_eq_cons hn
    obtain ⟨_,_,rfl,hm⟩ := exists_of_tokens_eq_cons ho
    have hdm : 4 * (cls.methods.flatMap MethodTree.yield).length + 1 ≤ depth := by omega
    have hdc : 4 * (classes.flatMap ClassTree.yield).length + 1 ≤ depth := by omega
    obtain ⟨methods,_,hr,hp,hl⟩ := exists_members hm hdm
    obtain ⟨found,hf,hpf⟩ := ih hl hdc
    refine ⟨⟨⟨cls.name.text,offset⟩,methods⟩ :: found,?_,List.forall_mem_cons.2 ⟨⟨cls.name.not_keyword,hp⟩,hpf⟩⟩
    simp only [Reader.classes, Reader.bind_eq_ok_iff, Reader.expect_eq_ok_iff, Reader.word_eq_ok_iff,
      Reader.pure_eq_ok_iff]
    exact ⟨(),_,⟨_,rfl⟩,_,_,rfl,(),_,⟨_,rfl⟩,methods,_,hr,found,_,hf,rfl,rfl⟩

end Grammar

end Mica
