import Mica.Proofs.Grammar.Declarations
import Mica.Proofs.Grammar.Splitting

/-! # Steering

The lexer follows a program by regions and never sees its derivation. On the tokens of a derivation the
region says just what the lexer has to know: inside an expression no word opens anything, and where a
class or a method can start the word that opens it is looked for.
-/
namespace Mica.Grammar

/-- Tokens that lead from one region to another without a place where a word opens something. The
flags tell whether a block has just been closed. -/
inductive Passes : Region → Bool → List Token → Region → Bool → Prop where
  | nil {region : Region} {flag : Bool} : Passes region flag [] region flag
  | cons {region region' : Region} {flag flag' : Bool} {token : Token} {ts : List Token} : region.opener = none →
      token ≠ .word "else" → (token = .otherwise → flag = true) →
      Passes (region.after token) (token == .closeBrace) ts region' flag' →
      Passes region flag (token :: ts) region' flag'

section Passes

variable {region mid last : Region} {flag flag' flag'' : Bool} {depth : Nat} {ts us : List Token}

theorem Passes.append (h : Passes region flag ts mid flag') (h' : Passes mid flag' us last flag'') :
    Passes region flag (ts ++ us) last flag'' := by
  induction h with
  | nil => exact h'
  | cons ho hn hb _ ih => exact .cons ho hn hb (ih h')

theorem Passes.afterAll_eq (h : Passes region flag ts mid flag') : region.afterAll ts = mid := by
  induction h with
  | nil => rfl
  | cons _ _ _ _ ih => exact ih

/-- A token that neither opens nor closes a bracket. -/
theorem passes_plain {token : Token} (h : (Region.body depth).after token = .body depth) (hn : token ≠ .word "else")
    (ho : token ≠ .otherwise) (hc : token ≠ .closeBrace) :
    Passes (.body depth) flag [token] (.body depth) false := by
  refine .cons rfl hn (fun he => absurd he ho) ?_
  rw [h, beq_false_of_ne hc]
  exact .nil

theorem passes_word {name : String} (h : name ≠ "else") :
    Passes (.body depth) flag [.word name] (.body depth) false :=
  passes_plain rfl (by simpa using h) (by simp) (by simp)

theorem Ident.passes_token (name : Ident) : Passes (.body depth) flag [name.token] (.body depth) false :=
  passes_word (name.text_ne (by decide))

theorem passes_open {token : Token} (h : token = .openBrace ∨ token = .openParen) :
    Passes (.body depth) flag [token] (.body (depth + 1)) false := by
  rcases h with rfl | rfl
  · exact .cons rfl (by simp) nofun .nil
  · exact .cons rfl (by simp) nofun .nil

theorem passes_closeParen : Passes (.body (depth + 1)) flag [.closeParen] (.body depth) false :=
  .cons rfl (by simp) nofun .nil

theorem passes_closeBrace : Passes (.body (depth + 1)) flag [.closeBrace] (.body depth) true :=
  .cons rfl (by simp) nofun .nil

theorem passes_semicolon : Passes (.body (depth + 1)) flag [.semicolon] (.body (depth + 1)) false :=
  passes_plain rfl (by simp) (by simp) (by simp)

theorem passes_otherwise : Passes (.body depth) true [.otherwise] (.body depth) false :=
  .cons rfl (by simp) (fun _ => rfl) .nil

end Passes

/-- Tokens with balanced brackets, from the lexer's point of view. -/
def Balanced (ts : List Token) : Prop :=
  ∀ (depth : Nat) (flag : Bool), ∃ flag', Passes (.body depth) flag ts (.body depth) flag'

theorem Balanced.append {ts us : List Token} (h : Balanced ts) (h' : Balanced us) : Balanced (ts ++ us) := by
  intro depth flag
  obtain ⟨mid,hm⟩ := h depth flag
  obtain ⟨last,hl⟩ := h' depth mid
  exact ⟨last,hm.append hl⟩

theorem Balanced.cons {token : Token} {ts : List Token}
    (h : ∀ (depth : Nat) (flag : Bool), Passes (.body depth) flag [token] (.body depth) false) (h' : Balanced ts) :
    Balanced (token :: ts) := Balanced.append (fun depth flag => ⟨false,h depth flag⟩) h'

theorem balanced_nil : Balanced [] := fun _ flag => ⟨flag,.nil⟩

theorem balancedAll {operands : List Operand} (h : ∀ operand ∈ operands, Balanced operand.yield) :
    Balanced (yieldAll operands) := by
  induction operands with
  | nil => exact balanced_nil
  | cons operand operands ih =>
    obtain ⟨ho,hs⟩ := List.forall_mem_cons.1 h
    exact ho.append (ih hs)

theorem passesRest {steps : List Clause} (h : ∀ step ∈ steps, Balanced step.yield) (depth : Nat) (flag : Bool) :
    Passes (.body (depth + 1)) flag (yieldRest steps) (.body depth) true := by
  induction steps generalizing flag with
  | nil => exact passes_closeBrace
  | cons step steps ih =>
    obtain ⟨hf,hs⟩ := List.forall_mem_cons.1 h
    obtain ⟨mid,hm⟩ := hf (depth + 1) false
    exact (passes_semicolon.append hm).append (ih hs mid)

theorem passesSteps {steps : List Clause} (h : ∀ step ∈ steps, Balanced step.yield) (depth : Nat) (flag : Bool) :
    Passes (.body depth) flag (.openBrace :: yieldSteps steps) (.body depth) true := by
  refine (passes_open (.inl rfl)).append ?_
  cases steps with
  | nil => exact passes_closeBrace
  | cons step steps =>
    obtain ⟨hf,hs⟩ := List.forall_mem_cons.1 h
    obtain ⟨mid,hm⟩ := hf (depth + 1) false
    exact hm.append (passesRest hs depth mid)

theorem balanced_parens {inner : List Token} (h : Balanced inner) :
    Balanced (.openParen :: (inner ++ [.closeParen])) := by
  intro depth flag
  obtain ⟨mid,hm⟩ := h (depth + 1) false
  exact ⟨false,((passes_open (.inr rfl)).append hm).append passes_closeParen⟩

theorem Clause.balanced (clause : Clause) : Balanced clause.yield := by
  refine (induct (P := fun clause => Balanced clause.yield) (Q := fun operand => Balanced operand.yield)
    ?call ?operand ?unit ?parens ?bool ?block ?text ?number ?letIn ?choice ?var).1 clause
  case call =>
    intro name receiver args hr ha
    exact .cons (fun _ _ => name.passes_token) (hr.append (balancedAll ha))
  case operand =>
    intro operand ho
    exact ho
  case unit =>
    exact balanced_parens balanced_nil
  case parens =>
    intro inner hi
    exact balanced_parens hi
  case bool =>
    intro flag
    exact .cons (fun _ _ => passes_word (by cases flag <;> decide)) balanced_nil
  case block =>
    intro steps hs depth flag
    exact ⟨true,passesSteps hs depth flag⟩
  case text =>
    intro body
    exact .cons (fun _ _ => passes_plain rfl (by simp) (by simp) (by simp)) balanced_nil
  case number =>
    intro lexeme
    exact .cons (fun _ _ => passes_plain rfl (by simp) (by simp) (by simp)) balanced_nil
  case letIn =>
    intro name bound body hb hd
    refine .cons (fun _ _ => passes_word (by decide)) (.cons (fun _ _ => name.passes_token) ?_)
    refine .cons (fun _ _ => passes_plain rfl (by simp) (by simp) (by simp)) (hb.append ?_)
    exact .cons (fun _ _ => passes_word (by decide)) hd
  case choice =>
    intro test yes no ht hy hn
    have hbranches : Balanced (.openBrace :: yieldSteps yes ++ .otherwise :: .openBrace :: yieldSteps no) := by
      intro depth flag
      exact ⟨true,(passesSteps hy depth flag).append (passes_otherwise.append (passesSteps hn depth false))⟩
    have hif : Balanced (.word "if" :: _) :=
      .cons (fun _ _ => passes_word (by decide)) ((balanced_parens ht).append hbranches)
    simpa [Operand.yield] using hif
  case var =>
    intro name
    exact .cons (fun _ _ => name.passes_token) balanced_nil

section Steered

variable {opener : List Token → String → Prop} {start last : Region} {before ts us : List Token} {flag : Bool}

theorem Passes.steered (h : Passes (start.afterAll before) (closes before) ts last flag)
    (ho : ∀ before word, opener before word → (start.afterAll before).opener = some word)
    (hs : Steered opener start (before ++ ts) us) : Steered opener start before (ts ++ us) := by
  induction ts generalizing before with
  | nil => simpa using hs
  | cons token ts ih =>
    cases h with
    | cons hnone hne hb ht =>
      have hclosed (word : String) : ¬ opener before word := fun hw => by
        rw [ho before word hw] at hnone
        cases hnone
      refine ⟨fun word => ⟨ho before word,fun he => ?_⟩,hne,hb,fun word hw => absurd hw (hclosed word),?_⟩
      · rw [hnone] at he
        cases he
      · have ht' : Passes (start.afterAll (before ++ [token])) (closes (before ++ [token])) ts last flag := by
          rw [Region.afterAll_append, closes_append]
          exact ht
        exact ih ht' (by simpa using hs)

end Steered

theorem MethodTree.passes (method : MethodTree) (flag : Bool) :
    Passes (.body 0) flag (method.name.token ::
      (method.params.map Ident.token ++ .equals :: (method.body.yield ++ [.semicolon]))) .members false := by
  have hparams : Balanced (method.params.map Ident.token) := by
    induction method.params with
    | nil => exact balanced_nil
    | cons param params ih => exact .cons (fun _ _ => param.passes_token) ih
  have hbody : Balanced (method.name.token :: (method.params.map Ident.token ++ .equals :: method.body.yield)) :=
    .cons (fun _ _ => method.name.passes_token)
      (hparams.append (.cons (fun _ _ => passes_plain rfl (by simp) (by simp) (by simp)) method.body.balanced))
  obtain ⟨mid,hm⟩ := hbody 0 flag
  have hsemi : Passes (.body 0) mid [.semicolon] .members false := .cons rfl (by simp) nofun .nil
  simpa using hm.append hsemi

theorem Ident.passes_header (name : Ident) (flag : Bool) :
    Passes .header flag [name.token,.openBrace] .members false :=
  .cons rfl (by simpa [Ident.token] using name.text_ne (by decide)) nofun (.cons rfl (by simp) nofun .nil)

theorem afterAll_methods (methods : List MethodTree) :
    Region.members.afterAll (methods.flatMap MethodTree.yield) = .members := by
  induction methods with
  | nil => rfl
  | cons method methods ih =>
    have hm : Region.members.afterAll method.yield = .members := (method.passes false).afterAll_eq
    rw [List.flatMap_cons, Region.afterAll_append, hm, ih]

/-- A class up to a place between its methods. -/
def classStart (name : Ident) (methods : List MethodTree) : List Token :=
  .word "class" :: name.token :: .openBrace :: methods.flatMap MethodTree.yield

theorem ClassTree.yield_eq (cls : ClassTree) : cls.yield = classStart cls.name cls.methods ++ [.closeBrace] := rfl

theorem classStart_append (name : Ident) (methods : List MethodTree) (method : MethodTree) :
    classStart name methods ++ method.yield = classStart name (methods ++ [method]) := by
  simp [classStart]

theorem afterAll_classStart (name : Ident) (methods : List MethodTree) :
    Region.top.afterAll (classStart name methods) = .members := by
  have hh : Region.header.afterAll [name.token,.openBrace] = .members := (name.passes_header false).afterAll_eq
  have he : classStart name methods =
      [.word "class"] ++ ([name.token,.openBrace] ++ methods.flatMap MethodTree.yield) := rfl
  rw [he, Region.afterAll_append, Region.afterAll_append]
  exact (congrArg (Region.afterAll · _) hh).trans (afterAll_methods methods)

theorem afterAll_classes (classes : List ClassTree) :
    Region.top.afterAll (classes.flatMap ClassTree.yield) = .top := by
  induction classes with
  | nil => rfl
  | cons cls classes ih =>
    have hc : Region.top.afterAll cls.yield = .top := by
      rw [ClassTree.yield_eq, Region.afterAll_append, afterAll_classStart]
      rfl
    rw [List.flatMap_cons, Region.afterAll_append, hc, ih]

/-- The words that open something in a program: a class after whole classes, and a method after whole
methods of a class. -/
inductive Opens : List Token → String → Prop where
  | cls (classes : List ClassTree) : Opens (classes.flatMap ClassTree.yield) "class"
  | method (classes : List ClassTree) (name : Ident) (methods : List MethodTree) :
      Opens (classes.flatMap ClassTree.yield ++ classStart name methods) "def"

theorem opener_of_opens {before : List Token} {word : String} (h : Opens before word) :
    (Region.top.afterAll before).opener = some word := by
  cases h with
  | cls classes => rw [afterAll_classes, Region.opener]
  | method classes name methods => rw [Region.afterAll_append, afterAll_classes, afterAll_classStart, Region.opener]

theorem Opens.unique {before : List Token} {word other : String} (h : Opens before word) (h' : Opens before other) :
    word = other := Option.some.inj ((opener_of_opens h).symm.trans (opener_of_opens h'))

/-- Where a word opens something, it is the one that the lexer looks for. -/
theorem Opens.iff_opener {before : List Token} {word : String} (h : Opens before word) (other : String) :
    Opens before other ↔ (Region.top.afterAll before).opener = some other := by
  refine ⟨opener_of_opens,fun ho => ?_⟩
  rw [opener_of_opens h] at ho
  cases ho
  exact h

theorem steered_opening {before ts us : List Token} {word : String} {region last : Region} {flag : Bool}
    (ho : Opens before word) (hr : Region.top.afterAll before = region)
    (hp : Passes (region.after (.word word)) false ts last flag)
    (hs : Steered Opens .top (before ++ .word word :: ts) us) :
    Steered Opens .top before (.word word :: (ts ++ us)) := by
  refine ⟨ho.iff_opener,?_,nofun,fun other h => .inl (congrArg Token.word (ho.unique h)),?_⟩
  · rcases Region.eq_of_opener (opener_of_opens ho) with rfl | rfl <;> decide
  · have hp' : Passes (Region.top.afterAll (before ++ [.word word])) (closes (before ++ [.word word])) ts last
        flag := by
      rw [Region.afterAll_append, closes_append, hr]
      exact hp
    exact hp'.steered (fun _ _ => opener_of_opens) (by simpa using hs)

theorem steered_methods (classes : List ClassTree) (name : Ident) (past methods : List MethodTree) (us : List Token)
    (h : Steered Opens .top
      (classes.flatMap ClassTree.yield ++ classStart name (past ++ methods) ++ [.closeBrace]) us) :
    Steered Opens .top (classes.flatMap ClassTree.yield ++ classStart name past)
      (methods.flatMap MethodTree.yield ++ .closeBrace :: us) := by
  induction methods generalizing past with
  | nil =>
    rw [List.append_nil] at h
    exact ⟨(Opens.method classes name past).iff_opener,by simp,nofun,fun _ _ => .inr rfl,h⟩
  | cons method methods ih =>
    have hregion : Region.top.afterAll (classes.flatMap ClassTree.yield ++ classStart name past) = .members := by
      rw [Region.afterAll_append, afterAll_classes, afterAll_classStart]
    have hstep := ih (past ++ [method]) (by simpa using h)
    rw [← classStart_append, ← List.append_assoc] at hstep
    have hmethod := steered_opening (.method classes name past) hregion (method.passes false) hstep
    simpa [MethodTree.yield] using hmethod

theorem steered_classes (past classes : List ClassTree) :
    Steered Opens .top (past.flatMap ClassTree.yield) (classes.flatMap ClassTree.yield) := by
  induction classes generalizing past with
  | nil => trivial
  | cons cls classes ih =>
    have hnext := ih (past ++ [cls])
    have hstep := steered_methods past cls.name [] cls.methods (classes.flatMap ClassTree.yield)
      (by simpa [ClassTree.yield_eq] using hnext)
    have hcls := steered_opening (.cls past) (afterAll_classes past) (cls.name.passes_header false) hstep
    simpa [ClassTree.yield] using hcls

/-- In an expression on its own no word opens anything. -/
theorem Clause.steered (clause : Clause) : Steered (fun _ _ => False) (.body 0) [] clause.yield := by
  obtain ⟨flag,hp⟩ := clause.balanced 0 false
  have hp' : Passes (Region.afterAll (.body 0) []) (closes []) clause.yield (.body 0) flag := hp
  have h : Steered (fun _ _ => False) (.body 0) [] (clause.yield ++ []) := hp'.steered (fun _ _ => False.elim) trivial
  rwa [List.append_nil] at h

end Mica.Grammar
