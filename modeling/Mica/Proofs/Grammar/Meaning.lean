import Mica.Proofs.Grammar.Declarations

/-! # Meaning

What a derivation means depends on its leaves only. It has a meaning when every numeral among them has a
value and every literal can be decoded, and two ways to read numerals make no difference to it when they
agree on the numerals that occur.
-/
namespace Mica.Grammar

/-- A leaf of a derivation has a meaning of its own. -/
def Readable (read : String → Option I32) : Token → Prop
  | .number lexeme => (read lexeme).isSome
  | .text body => (Escape.decode body).toOption.isSome
  | _ => True

section Readable

variable {read : String → Option I32}

theorem forall_mem_yieldAll {P : Token → Prop} {operands : List Operand} :
    (∀ token ∈ yieldAll operands, P token) ↔ ∀ operand ∈ operands, ∀ token ∈ operand.yield, P token := by
  rw [yieldAll_eq_flatMap, List.forall_mem_flatMap]

theorem forall_mem_yieldRest {P : Token → Prop} (hs : P .semicolon) (hc : P .closeBrace) {steps : List Clause} :
    (∀ token ∈ yieldRest steps, P token) ↔ ∀ step ∈ steps, ∀ token ∈ step.yield, P token := by
  induction steps with
  | nil => simp [yieldRest, hc]
  | cons step steps ih => simp [yieldRest, hs, ← ih, or_imp, forall_and]

theorem forall_mem_yieldSteps {P : Token → Prop} (hs : P .semicolon) (hc : P .closeBrace) {steps : List Clause} :
    (∀ token ∈ yieldSteps steps, P token) ↔ ∀ step ∈ steps, ∀ token ∈ step.yield, P token := by
  cases steps with
  | nil => simp [yieldSteps, hc]
  | cons step steps => rw [yieldSteps, List.forall_mem_append, forall_mem_yieldRest hs hc, List.forall_mem_cons]

theorem isSome_meaningAll {operands : List Operand}
    (h : ∀ operand ∈ operands, (operand.meaning read).isSome ↔ ∀ token ∈ operand.yield, Readable read token) :
    (meaningAll read operands).isSome ↔ ∀ token ∈ yieldAll operands, Readable read token := by
  rw [meaningAll_eq_mapM, Option.isSome_mapM_iff, forall_mem_yieldAll]
  exact forall₂_congr h

theorem isSome_meaningSteps {steps : List Clause}
    (h : ∀ step ∈ steps, (step.meaning read).isSome ↔ ∀ token ∈ step.yield, Readable read token) :
    (meaningSteps read steps).isSome ↔ ∀ token ∈ yieldSteps steps, Readable read token := by
  rw [meaningSteps_eq_mapM, Option.isSome_mapM_iff, forall_mem_yieldSteps trivial trivial]
  exact forall₂_congr h

/-- Whether a derivation has a meaning depends on its leaves only. -/
theorem Clause.isSome_meaning_iff (clause : Clause) :
    (clause.meaning read).isSome ↔ ∀ token ∈ clause.yield, Readable read token := by
  refine (induct (P := fun clause => (clause.meaning read).isSome ↔ ∀ token ∈ clause.yield, Readable read token)
    (Q := fun operand => (operand.meaning read).isSome ↔ ∀ token ∈ operand.yield, Readable read token)
    ?call ?operand ?unit ?parens ?bool ?block ?text ?number ?letIn ?choice ?var).1 clause
  case call =>
    intro name receiver args hr ha
    rw [Clause.meaning, Option.isSome_bind_map, hr, isSome_meaningAll ha]
    simp [Clause.yield, Ident.token, Readable, or_imp, forall_and]
  case operand =>
    intro operand ho
    exact ho
  case unit =>
    simp [Operand.meaning, Operand.yield, Readable]
  case parens =>
    intro inner hi
    rw [Operand.meaning, hi]
    simp [Operand.yield, Readable, or_imp, forall_and]
  case bool =>
    intro flag
    simp [Operand.meaning, Operand.yield, Readable]
  case block =>
    intro steps hs
    rw [Operand.meaning, Option.isSome_map, isSome_meaningSteps hs]
    simp [Operand.yield, Readable]
  case text =>
    intro body
    simp [Operand.meaning, Operand.yield, Readable]
  case number =>
    intro lexeme
    simp [Operand.meaning, Operand.yield, Readable]
  case letIn =>
    intro name bound body hb hd
    rw [Operand.meaning, Option.isSome_bind_map, hb, hd]
    simp [Operand.yield, Ident.token, Readable, or_imp, forall_and]
  case choice =>
    intro test yes no ht hy hn
    have hm : (Operand.choice test yes no).meaning read = (test.meaning read).bind fun test =>
        ((meaningSteps read yes).bind fun yes => (meaningSteps read no).map (Prod.mk yes)).map fun branches =>
          .cond test (.seq branches.1) (.seq branches.2) := by
      rw [Operand.meaning]
      cases meaningSteps read yes <;> cases meaningSteps read no <;> rfl
    rw [hm, Option.isSome_bind_map, Option.isSome_bind_map, ht, isSome_meaningSteps hy, isSome_meaningSteps hn]
    simp [Operand.yield, Readable, or_imp, forall_and]
  case var =>
    intro name
    simp [Operand.meaning, Operand.yield, Ident.token, Readable]

theorem mem_yieldAll {operands : List Operand} {operand : Operand} {token : Token} (h : operand ∈ operands)
    (ht : token ∈ operand.yield) : token ∈ yieldAll operands := by
  rw [yieldAll_eq_flatMap]
  exact List.mem_flatMap.2 ⟨operand,h,ht⟩

theorem mem_yieldRest {steps : List Clause} {step : Clause} {token : Token} (h : step ∈ steps)
    (ht : token ∈ step.yield) : token ∈ yieldRest steps := by
  induction h with
  | head => exact List.mem_cons_of_mem _ (List.mem_append_left _ ht)
  | tail _ _ ih => exact List.mem_cons_of_mem _ (List.mem_append_right _ ih)

theorem mem_yieldSteps {steps : List Clause} {step : Clause} {token : Token} (h : step ∈ steps)
    (ht : token ∈ step.yield) : token ∈ yieldSteps steps := by
  cases h with
  | head => exact List.mem_append_left _ ht
  | tail _ h => exact List.mem_append_right _ (mem_yieldRest h ht)

theorem meaningSteps_congr {read' : String → Option I32} {steps : List Clause}
    (h : ∀ step ∈ steps, step.meaning read = step.meaning read') :
    meaningSteps read steps = meaningSteps read' steps := by
  rw [meaningSteps_eq_mapM, meaningSteps_eq_mapM, Option.mapM_congr h]

/-- Two ways to read numerals that agree on those among some tokens. -/
def AgreeOn (read read' : String → Option I32) (ts : List Token) : Prop :=
  ∀ lexeme, .number lexeme ∈ ts → read lexeme = read' lexeme

theorem AgreeOn.mono {read' : String → Option I32} {ts us : List Token} (h : AgreeOn read read' us) (hs : ts ⊆ us) :
    AgreeOn read read' ts := fun lexeme hl => h lexeme (hs hl)

/-- What a derivation means depends on the values of its own numerals only. -/
theorem Clause.meaning_congr {read' : String → Option I32} (clause : Clause) (h : AgreeOn read read' clause.yield) :
    clause.meaning read = clause.meaning read' := by
  refine (induct (P := fun clause => AgreeOn read read' clause.yield → clause.meaning read = clause.meaning read')
    (Q := fun operand => AgreeOn read read' operand.yield → operand.meaning read = operand.meaning read')
    ?call ?operand ?unit ?parens ?bool ?block ?text ?number ?letIn ?choice ?var).1 clause h
  case call =>
    intro name receiver args hr ha h
    have hall : meaningAll read args = meaningAll read' args := by
      rw [meaningAll_eq_mapM, meaningAll_eq_mapM]
      refine Option.mapM_congr fun arg hm => ?_
      exact ha arg hm (h.mono fun _ ht => by simp [Clause.yield, mem_yieldAll hm ht])
    rw [Clause.meaning, Clause.meaning, hr (h.mono fun _ ht => by simp [Clause.yield, ht]), hall]
  case operand =>
    intro operand ho h
    exact ho h
  case unit =>
    intro _
    rfl
  case parens =>
    intro inner hi h
    exact hi (h.mono fun _ ht => by simp [Operand.yield, ht])
  case bool =>
    intro flag _
    rfl
  case block =>
    intro steps hs h
    have hall : meaningSteps read steps = meaningSteps read' steps := meaningSteps_congr fun step hm =>
      hs step hm (h.mono fun _ ht => by simp [Operand.yield, mem_yieldSteps hm ht])
    rw [Operand.meaning, Operand.meaning, hall]
  case text =>
    intro body _
    rfl
  case number =>
    intro lexeme h
    rw [Operand.meaning, Operand.meaning, h lexeme (by simp [Operand.yield])]
  case letIn =>
    intro name bound body hb hd h
    rw [Operand.meaning, Operand.meaning, hb (h.mono fun _ ht => by simp [Operand.yield, ht]),
      hd (h.mono fun _ ht => by simp [Operand.yield, ht])]
  case choice =>
    intro test yes no ht hy hn h
    have hyes : meaningSteps read yes = meaningSteps read' yes := meaningSteps_congr fun step hm =>
      hy step hm (h.mono fun _ ht => by simp [Operand.yield, mem_yieldSteps hm ht])
    have hno : meaningSteps read no = meaningSteps read' no := meaningSteps_congr fun step hm =>
      hn step hm (h.mono fun _ ht => by simp [Operand.yield, mem_yieldSteps hm ht])
    rw [Operand.meaning, Operand.meaning, ht (h.mono fun _ ht => by simp [Operand.yield, ht]), hyes, hno]
  case var =>
    intro name _
    rfl

theorem MethodTree.body_subset (method : MethodTree) : method.body.yield ⊆ method.yield := by
  intro token ht
  simp [MethodTree.yield, ht]

theorem ClassTree.methods_subset (cls : ClassTree) : cls.methods.flatMap MethodTree.yield ⊆ cls.yield := by
  intro token ht
  rw [ClassTree.yield]
  exact List.mem_cons_of_mem _ (List.mem_cons_of_mem _ (List.mem_cons_of_mem _ (List.mem_append_left _ ht)))

theorem programMeaning_congr {read' : String → Option I32} (classes : List ClassTree)
    (h : AgreeOn read read' (classes.flatMap ClassTree.yield)) :
    programMeaning read classes = programMeaning read' classes := by
  have hclass (cls : ClassTree) (hc : cls ∈ classes) : cls.meaning read = cls.meaning read' := by
    have hmethods : AgreeOn read read' (cls.methods.flatMap MethodTree.yield) :=
      h.mono fun _ ht => List.mem_flatMap.2 ⟨cls,hc,cls.methods_subset ht⟩
    have hmethod (method : MethodTree) (hm : method ∈ cls.methods) : method.meaning read = method.meaning read' := by
      have hbody : AgreeOn read read' method.body.yield :=
        hmethods.mono fun _ ht => List.mem_flatMap.2 ⟨method,hm,method.body_subset ht⟩
      rw [MethodTree.meaning, MethodTree.meaning, method.body.meaning_congr hbody]
    rw [ClassTree.meaning, ClassTree.meaning, Option.mapM_congr hmethod]
  rw [programMeaning, programMeaning, Option.mapM_congr hclass]

theorem MethodTree.isSome_meaning_iff (method : MethodTree) :
    (method.meaning read).isSome ↔ ∀ token ∈ method.yield, Readable read token := by
  rw [MethodTree.meaning, Option.isSome_map, Clause.isSome_meaning_iff]
  simp [MethodTree.yield, Ident.token, Readable, or_imp, forall_and]

theorem ClassTree.isSome_meaning_iff (cls : ClassTree) :
    (cls.meaning read).isSome ↔ ∀ token ∈ cls.yield, Readable read token := by
  rw [ClassTree.meaning, Option.isSome_map, Option.isSome_mapM_iff]
  simp only [MethodTree.isSome_meaning_iff, ← List.forall_mem_flatMap]
  rw [ClassTree.yield, List.forall_mem_cons, List.forall_mem_cons, List.forall_mem_cons, List.forall_mem_append]
  simp [Ident.token, Readable]

theorem isSome_programMeaning_iff (classes : List ClassTree) :
    (programMeaning read classes).isSome ↔ ∀ token ∈ classes.flatMap ClassTree.yield, Readable read token := by
  rw [programMeaning, Option.isSome_map, Option.isSome_mapM_iff, List.forall_mem_flatMap]
  simp only [ClassTree.isSome_meaning_iff]

end Readable

end Mica.Grammar
