import Mica.Outline
import Mica.Proofs.Grammar.Literals

/-! # Outlines determine trees

The line of a node shows its own part of the tree, and how far the line is indented shows whose child the node is: the
children of a node are the nodes one level deeper, up to the next line that is not deeper than the node itself. So a tree
can be told from its outline as long as no line is broken by what it shows.

Both forms of an expression are trees of one kind, in which a binder is a name or nothing and a reference is a name or a
position. That is where an expression of the one form can be the same as one of the other.
-/
namespace Mica

/-- A value that is shown on one line. Objects are left out, since they are not told apart by what is shown. -/
def Value.OneLine : Value → Prop
  | unit | bool _ | i32 _ => True
  | string text => '\n' ∉ text.toList
  | object _ _ => False

namespace Expr

variable {β ρ : Type}

/-- A tree of expressions in which the methods called have proper names and the literals are shown on one line. -/
inductive Plain (binder : β → Prop) (reference : ρ → Prop) : Expr β ρ → Prop where
  | lit {value : Value} : value.OneLine → Plain binder reference (.lit value)
  | call {name : String} {receiver : Expr β ρ} {args : List (Expr β ρ)} : Token.IsName name.toList →
      Plain binder reference receiver → (∀ arg ∈ args, Plain binder reference arg) →
      Plain binder reference (.call name receiver args)
  | var {found : ρ} : reference found → Plain binder reference (.var found)
  | letIn {name : β} {bound body : Expr β ρ} : binder name → Plain binder reference bound →
      Plain binder reference body → Plain binder reference (.letIn name bound body)
  | cond {test yes no : Expr β ρ} : Plain binder reference test → Plain binder reference yes →
      Plain binder reference no → Plain binder reference (.cond test yes no)
  | seq {steps : List (Expr β ρ)} : (∀ step ∈ steps, Plain binder reference step) →
      Plain binder reference (.seq steps)

/-! ## One kind of tree -/

section Map

variable {β' ρ' : Type} (f : β → β') (g : ρ → ρ')

mutual

/-- The same tree with other binders and references. -/
def map : Expr β ρ → Expr β' ρ'
  | lit value => .lit value
  | call name receiver args => .call name (map receiver) (mapAll args)
  | var reference => .var (g reference)
  | letIn binder bound body => .letIn (f binder) (map bound) (map body)
  | cond test yes no => .cond (map test) (map yes) (map no)
  | seq steps => .seq (mapAll steps)
  | stray text => .stray text

def mapAll : List (Expr β ρ) → List (Expr β' ρ')
  | [] => []
  | expr :: exprs => map expr :: mapAll exprs

end

variable {f g}

theorem mapAll_eq_map (exprs : List (Expr β ρ)) : mapAll f g exprs = exprs.map (map f g) := by
  induction exprs with
  | nil => rfl
  | cons expr exprs ih => rw [mapAll, ih, List.map_cons]

theorem Plain.map {binder : β → Prop} {binder' : β' → Prop} {reference : ρ → Prop} {reference' : ρ' → Prop}
    {expr : Expr β ρ} (h : Plain binder reference expr) (hf : ∀ name, binder name → binder' (f name))
    (hg : ∀ found, reference found → reference' (g found)) : Plain binder' reference' (expr.map f g) := by
  have all {exprs : List (Expr β ρ)} (hs : ∀ expr ∈ exprs, Plain binder' reference' (expr.map f g)) :
      ∀ expr ∈ mapAll f g exprs, Plain binder' reference' expr := by
    rw [mapAll_eq_map]
    exact List.forall_mem_map.2 hs
  induction h with
  | lit hv => exact .lit hv
  | call hn _ _ hr ha => exact .call hn hr (all ha)
  | var hr => exact .var (hg _ hr)
  | letIn hb _ _ h₁ h₂ => exact .letIn (hf _ hb) h₁ h₂
  | cond _ _ _ h₁ h₂ h₃ => exact .cond h₁ h₂ h₃
  | seq _ hs => exact .seq (all hs)

theorem nodesAll_mapAll {labels : Labels β' ρ'} {level : Nat} {exprs : List (Expr β ρ)}
    (h : ∀ expr ∈ exprs, (expr.map f g).nodes labels level =
      expr.nodes ⟨labels.binder ∘ f,labels.reference ∘ g⟩ level) :
    nodesAll labels level (mapAll f g exprs) = nodesAll ⟨labels.binder ∘ f,labels.reference ∘ g⟩ level exprs := by
  induction exprs with
  | nil => rfl
  | cons expr exprs ih =>
    obtain ⟨hf,hr⟩ := List.forall_mem_cons.1 h
    rw [mapAll, nodesAll, nodesAll, hf, ih hr]

theorem nodes_map (labels : Labels β' ρ') (level : Nat) (expr : Expr β ρ) :
    (expr.map f g).nodes labels level = expr.nodes ⟨labels.binder ∘ f,labels.reference ∘ g⟩ level := by
  induction expr generalizing level with
  | lit value => rfl
  | call name receiver args hr ha => simp only [map, nodes, hr, nodesAll_mapAll fun arg hm => ha arg hm _]
  | var reference => rfl
  | letIn binder bound body hb hd => simp only [map, nodes, hb, hd, Function.comp_apply]
  | cond test yes no ht hy hn => simp only [map, nodes, ht, hy, hn]
  | seq steps hs => simp only [map, nodes, nodesAll_mapAll fun step hm => hs step hm _]
  | stray text => rfl

/-- The outline of a tree depends on what its binders and references are shown as only. -/
theorem outline_map (labels : Labels β' ρ') (pad : String) (expr : Expr β ρ) :
    (expr.map f g).outline labels pad = expr.outline ⟨labels.binder ∘ f,labels.reference ∘ g⟩ pad := by
  rw [outline, outline, nodes_map]

end Map

/-! ## Levels -/

/-- What the line of a node shows. -/
def label (labels : Labels β ρ) : Expr β ρ → String
  | lit value => "literal " ++ value.display
  | call name _ _ => "call " ++ name
  | var reference => "var " ++ labels.reference reference
  | letIn binder _ _ => ((labels.binder binder).map ("let " ++ ·)).getD "let"
  | cond _ _ _ => "if"
  | seq _ => "do"
  | stray text => text

def children : Expr β ρ → List (Expr β ρ)
  | call _ receiver args => receiver :: args
  | letIn _ bound body => [bound,body]
  | cond test yes no => [test,yes,no]
  | seq steps => steps
  | lit _ | var _ | stray _ => []

section Levels

variable {labels : Labels β ρ} {level : Nat} {binder : β → Prop} {reference : ρ → Prop} {expr : Expr β ρ}
  {exprs : List (Expr β ρ)} {lines : List (Nat × String)}

theorem Plain.children (h : Plain binder reference expr) : ∀ child ∈ expr.children, Plain binder reference child := by
  cases h with
  | lit _ => nofun
  | call _ hr ha => exact List.forall_mem_cons.2 ⟨hr,ha⟩
  | var _ => nofun
  | letIn _ hb hd => simpa [Expr.children] using ⟨hb,hd⟩
  | cond ht hy hn => simpa [Expr.children] using ⟨ht,hy,hn⟩
  | seq hs => exact hs

/-- The nodes of a tree are its root and, one level deeper, the nodes of its children. -/
theorem Plain.nodes_eq (h : Plain binder reference expr) :
    expr.nodes labels level =
      (nodesAll labels (level + 1) expr.children).map ((level,expr.label labels) :: ·) := by
  cases h with
  | lit _ => simp [nodes, nodesAll, Expr.children, label, Except.map]
  | var _ => simp [nodes, nodesAll, Expr.children, label, Except.map]
  | @call name receiver args _ _ _ =>
    simp only [nodes, nodesAll, Expr.children, label, bind, Except.bind]
    cases receiver.nodes labels (level + 1) <;> cases nodesAll labels (level + 1) args <;> rfl
  | @letIn name bound body _ _ _ =>
    simp only [nodes, nodesAll, Expr.children, label, bind, Except.bind]
    cases bound.nodes labels (level + 1) <;> cases body.nodes labels (level + 1) <;>
      simp [Except.map, pure, Except.pure]
  | @cond test yes no _ _ _ =>
    simp only [nodes, nodesAll, Expr.children, label, bind, Except.bind]
    cases test.nodes labels (level + 1) <;> cases yes.nodes labels (level + 1) <;>
      cases no.nodes labels (level + 1) <;> simp [Except.map, pure, Except.pure]
  | @seq steps _ =>
    simp only [nodes, Expr.children, label, bind, Except.bind]
    cases nodesAll labels (level + 1) steps <;> rfl

theorem nodesAll_cons_eq_ok :
    nodesAll labels level (expr :: exprs) = .ok lines ↔
      ∃ first rest, expr.nodes labels level = .ok first ∧ nodesAll labels level exprs = .ok rest ∧
        lines = first ++ rest := by
  rw [nodesAll, Except.bind_eq_ok_iff]
  constructor
  · rintro ⟨first,hf,h⟩
    obtain ⟨rest,hr,h⟩ := Except.bind_eq_ok_iff.1 h
    exact ⟨first,rest,hf,hr,(Except.ok.inj h).symm⟩
  · rintro ⟨first,rest,hf,hr,rfl⟩
    exact ⟨first,hf,Except.bind_eq_ok_iff.2 ⟨rest,hr,rfl⟩⟩

theorem Plain.nodes_eq_ok (h : Plain binder reference expr) :
    expr.nodes labels level = .ok lines ↔
      ∃ below, nodesAll labels (level + 1) expr.children = .ok below ∧ lines = (level,expr.label labels) :: below := by
  rw [h.nodes_eq]
  cases nodesAll labels (level + 1) expr.children <;> simp [Except.map, eq_comm]

theorem induct_children {motive : Expr β ρ → Prop}
    (h : ∀ expr, (∀ child ∈ expr.children, motive child) → motive expr) (expr : Expr β ρ) : motive expr := by
  induction expr with
  | lit value => exact h _ nofun
  | call name receiver args hr ha => exact h _ (List.forall_mem_cons.2 ⟨hr,ha⟩)
  | var reference => exact h _ nofun
  | letIn binder bound body hb hd => exact h _ (by simpa [Expr.children] using ⟨hb,hd⟩)
  | cond test yes no ht hy hn => exact h _ (by simpa [Expr.children] using ⟨ht,hy,hn⟩)
  | seq steps hs => exact h _ hs
  | stray text => exact h _ nofun

theorem exists_nodesAll (h : ∀ expr ∈ exprs, ∃ lines, expr.nodes labels level = .ok lines) :
    ∃ lines, nodesAll labels level exprs = .ok lines := by
  induction exprs with
  | nil => exact ⟨[],rfl⟩
  | cons expr exprs ih =>
    obtain ⟨⟨first,hf⟩,hr⟩ := List.forall_mem_cons.1 h
    obtain ⟨rest,hrest⟩ := ih hr
    exact ⟨first ++ rest,nodesAll_cons_eq_ok.2 ⟨first,rest,hf,hrest,rfl⟩⟩

theorem Plain.exists_nodes (h : Plain binder reference expr) : ∃ lines, expr.nodes labels level = .ok lines := by
  induction expr using induct_children generalizing level with
  | h expr ih =>
    obtain ⟨below,hb⟩ : ∃ below, nodesAll labels (level + 1) expr.children = .ok below :=
      exists_nodesAll fun child hm => ih child hm (h.children child hm)
    exact ⟨_,h.nodes_eq_ok.2 ⟨below,hb,rfl⟩⟩

/-- What holds of the nodes of every tree in a list holds of the nodes of all. -/
theorem forall_mem_nodesAll {P : Nat × String → Prop}
    (h : ∀ expr ∈ exprs, ∀ lines, expr.nodes labels level = .ok lines → ∀ line ∈ lines, P line)
    (hn : nodesAll labels level exprs = .ok lines) : ∀ line ∈ lines, P line := by
  induction exprs generalizing lines with
  | nil =>
    cases hn
    nofun
  | cons expr exprs ih =>
    obtain ⟨hf,hr⟩ := List.forall_mem_cons.1 h
    obtain ⟨first,rest,hfirst,hrest,rfl⟩ := nodesAll_cons_eq_ok.1 hn
    exact List.forall_mem_append.2 ⟨hf first hfirst,ih hr hrest⟩

theorem Plain.le_level (h : Plain binder reference expr) (hn : expr.nodes labels level = .ok lines) :
    ∀ line ∈ lines, level ≤ line.1 := by
  induction expr using induct_children generalizing level lines with
  | h expr ih =>
    obtain ⟨below,hb,rfl⟩ := h.nodes_eq_ok.1 hn
    refine List.forall_mem_cons.2 ⟨Nat.le_refl _,forall_mem_nodesAll (fun child hm found hf line hl => ?_) hb⟩
    exact Nat.le_of_succ_le (ih child hm (h.children child hm) hf line hl)

theorem le_level_of_nodesAll (h : ∀ expr ∈ exprs, Plain binder reference expr)
    (hn : nodesAll labels level exprs = .ok lines) : ∀ line ∈ lines, level ≤ line.1 :=
  forall_mem_nodesAll (fun expr hm _ hf => (h expr hm).le_level hf) hn

/-- The nodes below a node end where the next tree begins. -/
theorem below_eq {below below' rest rest' : List (Nat × String)} (hb : ∀ line ∈ below, level < line.1)
    (hb' : ∀ line ∈ below', level < line.1) (hr : ∀ line, rest.head? = some line → line.1 = level)
    (hr' : ∀ line, rest'.head? = some line → line.1 = level) (h : below ++ rest = below' ++ rest') :
    below = below' ∧ rest = rest' := by
  have taken {lines more : List (Nat × String)} (hl : ∀ line ∈ lines, level < line.1)
      (hm : ∀ line, more.head? = some line → line.1 = level) :
      (lines ++ more).takeWhile (fun line => level < line.1) = lines := by
    rw [List.takeWhile_append_of_pos (by simpa using hl)]
    cases more with
    | nil => simp
    | cons line more => simp [hm line rfl]
  have heq : below = below' := by rw [← taken hb hr, h, taken hb' hr']
  subst heq
  exact ⟨rfl,List.append_cancel_left h⟩

theorem head_level_of_nodesAll (h : ∀ expr ∈ exprs, Plain binder reference expr)
    (hn : nodesAll labels level exprs = .ok lines) : ∀ line, lines.head? = some line → line.1 = level := by
  cases exprs with
  | nil =>
    cases hn
    nofun
  | cons expr exprs =>
    obtain ⟨first,rest,hf,_,rfl⟩ := nodesAll_cons_eq_ok.1 hn
    obtain ⟨below,_,rfl⟩ := (h expr List.mem_cons_self).nodes_eq_ok.1 hf
    rintro _ ⟨⟩
    rfl

/-- Trees next to each other are determined by their nodes when each of them is. -/
theorem eq_of_nodesAll {others : List (Expr β ρ)} (h : ∀ expr ∈ exprs, Plain binder reference expr)
    (h' : ∀ expr ∈ others, Plain binder reference expr)
    (hi : ∀ expr ∈ exprs, ∀ other lines, Plain binder reference other → expr.nodes labels level = .ok lines →
      other.nodes labels level = .ok lines → expr = other)
    (hn : nodesAll labels level exprs = .ok lines) (hn' : nodesAll labels level others = .ok lines) :
    exprs = others := by
  induction exprs generalizing others lines with
  | nil =>
    cases hn
    cases others with
    | nil => rfl
    | cons other others =>
      obtain ⟨first,rest,hf,_,he⟩ := nodesAll_cons_eq_ok.1 hn'
      obtain ⟨below,_,rfl⟩ := (h' other List.mem_cons_self).nodes_eq_ok.1 hf
      cases he
  | cons expr exprs ih =>
    obtain ⟨first,rest,hf,hr,rfl⟩ := nodesAll_cons_eq_ok.1 hn
    obtain ⟨hp,hps⟩ := List.forall_mem_cons.1 h
    obtain ⟨hfirst,hrest⟩ := List.forall_mem_cons.1 hi
    obtain ⟨below,hb,rfl⟩ := hp.nodes_eq_ok.1 hf
    cases others with
    | nil => cases hn'
    | cons other others =>
      obtain ⟨first',rest',hf',hr',he⟩ := nodesAll_cons_eq_ok.1 hn'
      obtain ⟨hp',hps'⟩ := List.forall_mem_cons.1 h'
      obtain ⟨below',hb',rfl⟩ := hp'.nodes_eq_ok.1 hf'
      obtain ⟨hl,he⟩ := List.cons.inj he
      obtain ⟨rfl,rfl⟩ := below_eq (le_level_of_nodesAll hp.children hb) (le_level_of_nodesAll hp'.children hb')
        (head_level_of_nodesAll hps hr) (head_level_of_nodesAll hps' hr') he
      rw [hfirst other _ hp' hf (hl ▸ hf'), ih hps hps' hrest hr hr']

end Levels

/-! ## Lines -/

/-- A text that can be told from its indentation and from other lines. -/
def Shown (text : String) : Prop := '\n' ∉ text.toList ∧ ∃ c, text.toList.head? = some c ∧ c ≠ ' '

/-- What a line of an outline shows, and how deep. -/
def lineOf (line : List Char) : Nat × String :=
  ((line.takeWhile (· = ' ')).length / 2,String.ofList (line.dropWhile (· = ' ')))

theorem toList_indented (line : Nat × String) :
    (String.join (List.replicate line.1 defaultPad) ++ line.2).toList =
      List.replicate (2 * line.1) ' ' ++ line.2.toList := by
  rw [String.toList_append, String.toList_join, Nat.mul_comm]
  induction line.1 with
  | zero => rfl
  | succ level ih =>
    rw [List.replicate_succ, List.flatMap_cons, List.append_assoc, ih, Nat.succ_mul, Nat.add_comm,
      List.replicate_add]
    rfl

theorem lineOf_indented {line : Nat × String} (h : Shown line.2) :
    lineOf (List.replicate (2 * line.1) ' ' ++ line.2.toList) = line := by
  obtain ⟨_,c,hh,hc⟩ := h
  obtain ⟨rest,he⟩ := List.head?_eq_some_iff.1 hh
  have hpad : ∀ d ∈ List.replicate (2 * line.1) ' ', decide (d = ' ') = true := by simp
  have htake : line.2.toList.takeWhile (· = ' ') = [] := by simp [he, hc]
  have hdrop : line.2.toList.dropWhile (· = ' ') = line.2.toList := by simp [he, hc]
  rw [lineOf, List.takeWhile_append_of_pos hpad, List.dropWhile_append_of_pos hpad, htake, hdrop]
  simp

/-- The lines of a text are those that it was laid out from. -/
theorem map_lineOf_splitOn {lines : List (Nat × String)} (hn : lines ≠ []) (h : ∀ line ∈ lines, Shown line.2) :
    ((layOut defaultPad lines).toList.splitOn '\n').map lineOf = lines := by
  have hbreak : ∀ text ∈ lines.map fun line => List.replicate (2 * line.1) ' ' ++ line.2.toList, '\n' ∉ text := by
    refine List.forall_mem_map.2 fun line hm hmem => ?_
    rcases List.mem_append.1 hmem with hmem | hmem
    · exact absurd (List.eq_of_mem_replicate hmem) (by decide)
    · exact (h line hm).1 hmem
  have hlayout : (layOut defaultPad lines).toList =
      ['\n'].intercalate (lines.map fun line => List.replicate (2 * line.1) ' ' ++ line.2.toList) := by
    rw [layOut, String.toList_intercalate, List.map_map]
    exact congrArg _ (List.map_congr_left fun line _ => toList_indented line)
  rw [hlayout, List.splitOn_intercalate '\n' hbreak (by simpa using hn), List.map_map]
  calc
    lines.map _ = lines.map id := List.map_congr_left fun line hm => lineOf_indented (h line hm)
    _ = lines := List.map_id lines

end Expr

/-! ## Labels -/

theorem Token.IsName.not_mem_newline {cs : List Char} (h : Token.IsName cs) : '\n' ∉ cs := by
  obtain ⟨c,rest,rfl,hc,hr⟩ := h
  intro hm
  rcases List.mem_cons.1 hm with rfl | hm
  · exact absurd hc (by decide)
  · exact absurd (hr _ hm) (by decide)

theorem toString_int_injective {n m : Int} (h : toString n = toString m) : n = m := by
  rw [← Grammar.numeralValue_toString n, h, Grammar.numeralValue_toString]

/-- An integer is written with a sign or a digit in front, and with digits after it. -/
theorem exists_toString_int (n : Int) : ∃ c rest, (toString n).toList = c :: rest ∧ (c = '-' ∨ c.isDigit = true) ∧
    ∀ d ∈ rest, d.isDigit = true := by
  obtain ⟨c,cs,hc⟩ := List.exists_cons_of_ne_nil (Nat.toDigits_ne_nil (n := n.natAbs) (b := 10))
  have hd : ∀ d ∈ c :: cs, d.isDigit = true := fun d hd => Grammar.isDigit_of_mem_decimal (hc ▸ hd)
  rw [Grammar.toList_toString_int, hc]
  by_cases hn : n < 0
  · exact ⟨'-',c :: cs,by simp [hn],.inl rfl,hd⟩
  · obtain ⟨hf,hr⟩ := List.forall_mem_cons.1 hd
    exact ⟨c,cs,by simp [hn],.inr hf,hr⟩

theorem not_mem_newline_toString_int (n : Int) : '\n' ∉ (toString n).toList := by
  obtain ⟨c,rest,he,hc,hr⟩ := exists_toString_int n
  rw [he]
  intro hm
  rcases List.mem_cons.1 hm with rfl | hm
  · rcases hc with hc | hc <;> exact absurd hc (by decide)
  · exact absurd (hr _ hm) (by decide)

theorem toString_int_ne {n : Int} {text : String} (h : ∀ c, text.toList.head? = some c → c ≠ '-' ∧ c.isDigit = false) :
    toString n ≠ text := by
  rintro rfl
  obtain ⟨c,rest,he,hc,_⟩ := exists_toString_int n
  obtain ⟨hs,hd⟩ := h c (by rw [he]; rfl)
  rcases hc with rfl | hc
  · exact hs rfl
  · rw [hd] at hc
    cases hc

namespace Value

variable {value other : Value}

theorem toList_display_string (text : String) : (string text).display.toList = '"' :: (text.toList ++ ['"']) := by
  change ("\"" ++ text ++ "\"").toList = _
  simp

theorem OneLine.not_mem_newline (h : value.OneLine) : '\n' ∉ value.display.toList := by
  cases value with
  | unit => decide
  | bool flag => cases flag <;> decide
  | i32 number => exact not_mem_newline_toString_int number.toInt
  | string text =>
    rw [toList_display_string]
    have hn : '\n' ∉ text.toList := h
    simpa using hn
  | object id identity => cases h

/-- The value that is shown as a text on one line. -/
def ofDisplay (text : String) : Option Value :=
  if text = "()" then some unit
  else if text = "true" then some (bool true)
  else if text = "false" then some (bool false)
  else if text.toList.head? = some '"' then some (string (String.ofList text.toList.tail.dropLast))
  else (I32.ofInt? (numeralValue text)).map i32

theorem OneLine.ofDisplay_display (h : value.OneLine) : ofDisplay value.display = some value := by
  cases value with
  | unit => rfl
  | bool flag => cases flag <;> decide
  | i32 number =>
    have hne (text : String) (ht : ∀ c, text.toList.head? = some c → c ≠ '-' ∧ c.isDigit = false) :
        (i32 number).display ≠ text := toString_int_ne ht
    have hquote : (i32 number).display.toList.head? ≠ some '"' := by
      obtain ⟨c,rest,he,hc,_⟩ := exists_toString_int number.toInt
      rw [show (i32 number).display.toList = c :: rest from he]
      rintro ⟨⟩
      rcases hc with hc | hc <;> exact absurd hc (by decide)
    have hvalue : numeralValue (i32 number).display = number.toInt := Grammar.numeralValue_toString number.toInt
    rw [ofDisplay, if_neg (hne "()" (by simp)), if_neg (hne "true" (by simp)), if_neg (hne "false" (by simp)),
      if_neg hquote, hvalue, I32.ofInt?_toInt, Option.map_some]
  | string text =>
    have hhead : (string text).display.toList.head? = some '"' := by rw [toList_display_string]; rfl
    have hne (other : String) (ho : other.toList.head? ≠ some '"') : (string text).display ≠ other :=
      fun he => ho (he ▸ hhead)
    rw [ofDisplay, if_neg (hne "()" (by simp)), if_neg (hne "true" (by simp)), if_neg (hne "false" (by simp)),
      if_pos hhead, toList_display_string]
    simp
  | object id identity => cases h

/-- Values that are shown on one line are shown differently. -/
theorem OneLine.eq_of_display (h : value.OneLine) (h' : other.OneLine) (he : value.display = other.display) :
    value = other := by
  have hread := h.ofDisplay_display
  rw [he, h'.ofDisplay_display] at hread
  exact (Option.some.inj hread).symm

end Value

/-- Binders and references are shown on one line, and differently from each other. -/
structure Labels.Legible {β ρ : Type} (labels : Labels β ρ) (binder : β → Prop) (reference : ρ → Prop) : Prop where
  binder_oneLine {found : β} {name : String} : binder found → labels.binder found = some name → '\n' ∉ name.toList
  binder_eq {found other : β} : binder found → binder other → labels.binder found = labels.binder other → found = other
  reference_oneLine {found : ρ} : reference found → '\n' ∉ (labels.reference found).toList
  reference_eq {found other : ρ} : reference found → reference other →
    labels.reference found = labels.reference other → found = other

namespace Expr

variable {β ρ : Type} {labels : Labels β ρ} {binder : β → Prop} {reference : ρ → Prop} {expr other : Expr β ρ}
  {lines : List (Nat × String)} {level : Nat}

/-- The characters by which the line of a node shows its kind. -/
def mark : Expr β ρ → List Char
  | lit _ => ['l','i']
  | call _ _ _ => ['c','a']
  | var _ => ['v','a']
  | letIn _ _ _ => ['l','e']
  | cond _ _ _ => ['i','f']
  | seq _ => ['d','o']
  | stray text => text.toList.take 2

theorem take_label (labels : Labels β ρ) (expr : Expr β ρ) : (expr.label labels).toList.take 2 = expr.mark := by
  cases expr with
  | letIn name bound body => cases hb : labels.binder name <;> simp [label, hb, mark]
  | _ => simp [label, mark]

theorem binder_of_label_eq {name name' : Option String}
    (h : (name.map ("let " ++ ·)).getD "let" = (name'.map ("let " ++ ·)).getD "let") : name = name' := by
  have hlonger (text : String) : "let " ++ text ≠ "let" := by
    intro he
    simpa using congrArg String.toList he
  cases name with
  | none =>
    cases name' with
    | none => rfl
    | some text' => exact absurd h.symm (hlonger text')
  | some text =>
    cases name' with
    | none => exact absurd h (hlonger text)
    | some text' => exact congrArg some ((String.append_right_inj _).1 h)

/-- A node is determined by its label and its children. -/
theorem Plain.eq_of_label (hl : labels.Legible binder reference) (h : Plain binder reference expr)
    (h' : Plain binder reference other) (he : expr.label labels = other.label labels)
    (hc : expr.children = other.children) : expr = other := by
  have hm : expr.mark = other.mark := by rw [← take_label labels, he, take_label]
  cases h with
  | lit hv =>
    cases h' with
    | lit hv' => rw [hv.eq_of_display hv' ((String.append_right_inj _).1 he)]
    | _ => cases hm
  | call hn _ _ =>
    cases h' with
    | call hn' _ _ =>
      obtain ⟨rfl,rfl⟩ := List.cons.inj hc
      rw [(String.append_right_inj _).1 he]
    | _ => cases hm
  | var hr =>
    cases h' with
    | var hr' => rw [hl.reference_eq hr hr' ((String.append_right_inj _).1 he)]
    | _ => cases hm
  | letIn hb _ _ =>
    cases h' with
    | letIn hb' _ _ =>
      cases hc
      rw [hl.binder_eq hb hb' (binder_of_label_eq he)]
    | _ => cases hm
  | cond _ _ _ =>
    cases h' with
    | cond _ _ _ =>
      cases hc
      rfl
    | _ => cases hm
  | seq _ =>
    cases h' with
    | seq _ => exact congrArg Expr.seq hc
    | _ => cases hm

theorem Plain.shown_label (hl : labels.Legible binder reference) (h : Plain binder reference expr) :
    Shown (expr.label labels) := by
  cases h with
  | lit hv => exact ⟨by simpa [label] using hv.not_mem_newline,'l',by simp [label],by decide⟩
  | call hn _ _ => exact ⟨by simpa [label] using hn.not_mem_newline,'c',by simp [label],by decide⟩
  | var hr => exact ⟨by simpa [label] using hl.reference_oneLine hr,'v',by simp [label],by decide⟩
  | @letIn name _ _ hb _ _ =>
    cases hn : labels.binder name with
    | none => exact ⟨by simp [label, hn],'l',by simp [label, hn],by decide⟩
    | some text => exact ⟨by simpa [label, hn] using hl.binder_oneLine hb hn,'l',by simp [label, hn],by decide⟩
  | cond _ _ _ => exact ⟨by simp [label],'i',by simp [label],by decide⟩
  | seq _ => exact ⟨by simp [label],'d',by simp [label],by decide⟩

theorem Plain.shown_of_nodes (hl : labels.Legible binder reference) (h : Plain binder reference expr)
    (hn : expr.nodes labels level = .ok lines) : ∀ line ∈ lines, Shown line.2 := by
  induction expr using induct_children generalizing level lines with
  | h expr ih =>
    obtain ⟨below,hb,rfl⟩ := h.nodes_eq_ok.1 hn
    refine List.forall_mem_cons.2 ⟨h.shown_label hl,forall_mem_nodesAll (fun child hm found hf => ?_) hb⟩
    exact ih child hm (h.children child hm) hf

/-- A tree is determined by its nodes with their levels. -/
theorem Plain.eq_of_nodes (hl : labels.Legible binder reference) (h : Plain binder reference expr)
    (h' : Plain binder reference other) (hn : expr.nodes labels level = .ok lines)
    (hn' : other.nodes labels level = .ok lines) : expr = other := by
  induction expr using induct_children generalizing other level lines with
  | h expr ih =>
    obtain ⟨below,hb,rfl⟩ := h.nodes_eq_ok.1 hn
    obtain ⟨below',hb',he⟩ := h'.nodes_eq_ok.1 hn'
    obtain ⟨hlabel,rfl⟩ := List.cons.inj he
    refine h.eq_of_label hl h' (Prod.mk.inj hlabel).2 ?_
    exact eq_of_nodesAll h.children h'.children
      (fun child hm other lines ho hc => ih child hm (h.children child hm) ho hc) hb hb'

/-- A tree is determined by the text of its outline. -/
theorem Plain.eq_of_outline (hl : labels.Legible binder reference) (h : Plain binder reference expr)
    (h' : Plain binder reference other)
    (he : expr.outline labels defaultPad = other.outline labels defaultPad) : expr = other := by
  obtain ⟨lines,hn⟩ : ∃ lines, expr.nodes labels 0 = .ok lines := h.exists_nodes
  obtain ⟨lines',hn'⟩ : ∃ lines, other.nodes labels 0 = .ok lines := h'.exists_nodes
  have hne : lines ≠ [] := by
    obtain ⟨_,_,rfl⟩ := h.nodes_eq_ok.1 hn
    exact List.cons_ne_nil _ _
  have hne' : lines' ≠ [] := by
    obtain ⟨_,_,rfl⟩ := h'.nodes_eq_ok.1 hn'
    exact List.cons_ne_nil _ _
  rw [outline, outline, hn, hn'] at he
  have htext : layOut defaultPad lines = layOut defaultPad lines' := Except.ok.inj he
  obtain rfl : lines = lines' := by
    rw [← map_lineOf_splitOn hne (h.shown_of_nodes hl hn), htext,
      map_lineOf_splitOn hne' (h'.shown_of_nodes hl hn')]
  exact h.eq_of_nodes hl h' hn hn'

end Expr

/-! ## The two forms -/

/-- Expressions of either form. -/
abbrev Tree := Expr (Option String) (String ⊕ Int)

def Named.tree (expr : Named) : Tree := expr.map some .inl

def Resolved.tree (expr : Resolved) : Tree := expr.map (fun _ => none) .inr

/-- A letter or an underscore, and then letters, digits and underscores. -/
def Identifier (name : String) : Prop := Token.IsName name.toList

theorem Identifier.toString_ne {name : String} (h : Identifier name) (n : Int) : toString n ≠ name := by
  obtain ⟨c,rest,he,hc,_⟩ := h
  refine toString_int_ne fun d hd => ?_
  rw [he] at hd
  cases hd
  refine ⟨?_,?_⟩
  · rintro rfl
    exact absurd hc (by decide)
  · rw [Bool.eq_false_iff]
    intro hd
    rw [Token.isNameStart_of_isDigit hd] at hc
    cases hc

namespace Labels

def either : Labels (Option String) (String ⊕ Int) := ⟨id,Sum.elim id toString⟩

theorem legible_named : named.Legible Identifier Identifier where
  binder_oneLine h he := (Option.some.inj he) ▸ Token.IsName.not_mem_newline h
  binder_eq _ _ he := Option.some.inj he
  reference_oneLine h := Token.IsName.not_mem_newline h
  reference_eq _ _ he := he

theorem legible_resolved : resolved.Legible (fun _ => True) (fun _ => True) where
  binder_oneLine _ he := by cases he
  binder_eq _ _ _ := rfl
  reference_oneLine _ := not_mem_newline_toString_int _
  reference_eq _ _ he := toString_int_injective he

/-- A name is never shown like a position, nor like a binder without a name. -/
theorem legible_either : either.Legible (fun name => ∀ text, name = some text → Identifier text)
    (Sum.elim Identifier fun _ => True) where
  binder_oneLine h he := Token.IsName.not_mem_newline (h _ he)
  binder_eq _ _ he := he
  reference_oneLine {found} h := by
    cases found with
    | inl name => exact Token.IsName.not_mem_newline h
    | inr position => exact not_mem_newline_toString_int position
  reference_eq {found other} h h' he := by
    cases found with
    | inl name =>
      cases other with
      | inl name' => exact congrArg Sum.inl he
      | inr position => exact absurd he.symm (Identifier.toString_ne h position)
    | inr position =>
      cases other with
      | inl name => exact absurd he (Identifier.toString_ne h' position)
      | inr position' => exact congrArg Sum.inr (toString_int_injective he)

end Labels

theorem Named.outline_tree (expr : Named) (pad : String) :
    (Named.tree expr).outline .either pad = expr.outline .named pad := Expr.outline_map .either pad expr

theorem Resolved.outline_tree (expr : Resolved) (pad : String) :
    (Resolved.tree expr).outline .either pad = expr.outline .resolved pad := Expr.outline_map .either pad expr

/-- Whatever is made up of expressions with identifiers as names, and shown on one line for each node, can be told from
the text of its outline. If the outline of an expression with names is that of a resolved one, they are the same tree. -/
theorem eq_of_outline_eq :
    (∀ expr other : Named, Expr.Plain Identifier Identifier expr → Expr.Plain Identifier Identifier other →
      expr.outline .named defaultPad = other.outline .named defaultPad → expr = other) ∧
    (∀ expr other : Resolved, Expr.Plain (fun _ => True) (fun _ => True) expr →
      Expr.Plain (fun _ => True) (fun _ => True) other →
      expr.outline .resolved defaultPad = other.outline .resolved defaultPad → expr = other) ∧
    ∀ (expr : Named) (other : Resolved), Expr.Plain Identifier Identifier expr →
      Expr.Plain (fun _ => True) (fun _ => True) other →
      expr.outline .named defaultPad = other.outline .resolved defaultPad → Named.tree expr = Resolved.tree other := by
  refine ⟨fun _ _ h h' => h.eq_of_outline Labels.legible_named h',
    fun _ _ h h' => h.eq_of_outline Labels.legible_resolved h',fun expr other h h' he => ?_⟩
  have hplain : Expr.Plain (fun name => ∀ text, name = some text → Identifier text) (Sum.elim Identifier fun _ => True)
      (Named.tree expr) := h.map (fun _ hn _ he => Option.some.inj he ▸ hn) fun _ hn => hn
  have hplain' : Expr.Plain (fun name => ∀ text, name = some text → Identifier text) (Sum.elim Identifier fun _ => True)
      (Resolved.tree other) := h'.map (fun _ _ => nofun) fun _ _ => trivial
  refine hplain.eq_of_outline Labels.legible_either hplain' ?_
  rw [Named.outline_tree, Resolved.outline_tree, he]

/-- A call whose receiver is a text that looks like the line of a variable, and whose argument is an empty block. -/
def lookalike {β ρ : Type} : Expr β ρ := .call "f" (.lit (.string "\"  var x")) [.seq []]

theorem plain_lookalike {β ρ : Type} {binder : β → Prop} {reference : ρ → Prop} :
    Expr.Plain binder reference lookalike := by
  have hname : Token.IsName "f".toList := ⟨'f',[],rfl,rfl,nofun⟩
  have htext : '\n' ∉ "\"  var x".toList := by decide
  exact .call hname (.lit htext) fun _ hm => List.mem_singleton.1 hm ▸ .seq nofun

theorem eq_of_outline_eq_lookalike :
    ((.seq [lookalike,.var "x"] : Named).outline .named defaultPad ≠
      (.seq [.call "f" (.lit (.string "\"  var x")) [.seq [.var "x"]]] : Named).outline .named defaultPad) ∧
    ((.letIn () lookalike (.var (-1)) : Resolved).outline .resolved defaultPad ≠
      (.letIn () lookalike (.var 1) : Resolved).outline .resolved defaultPad) ∧
    (lookalike : Named).outline .named defaultPad = (lookalike : Resolved).outline .resolved defaultPad ∧
      Named.tree lookalike = Resolved.tree lookalike := by
  have hname (text : String) (h : text ∈ ["f","x"]) : Identifier text := by
    simp only [List.mem_cons, List.not_mem_nil, or_false] at h
    rcases h with rfl | rfl <;> exact ⟨_,_,rfl,rfl,nofun⟩
  have htext : '\n' ∉ "\"  var x".toList := by decide
  have hvar : Expr.Plain Identifier Identifier (.var "x") := .var (hname "x" (by simp))
  have hboth : (lookalike : Named).outline .named defaultPad = (lookalike : Resolved).outline .resolved defaultPad := by
    decide +kernel
  refine ⟨fun he => ?_,fun he => ?_,hboth,eq_of_outline_eq.2.2 _ _ plain_lookalike plain_lookalike hboth⟩
  · have hflat : Expr.Plain Identifier Identifier (.seq [lookalike,.var "x"]) :=
      .seq (by simpa using ⟨plain_lookalike,hvar⟩)
    have hnested : Expr.Plain Identifier Identifier
        (.seq [.call "f" (.lit (.string "\"  var x")) [.seq [.var "x"]]]) :=
      .seq (by simpa using .call (hname "f" (by simp)) (.lit htext) (by simpa using .seq (by simpa using hvar)))
    exact absurd (eq_of_outline_eq.1 _ _ hflat hnested he) (by decide)
  · have hlet (position : Int) : Expr.Plain (fun _ => True) (fun _ => True)
        (.letIn () lookalike (.var position) : Resolved) := .letIn trivial plain_lookalike (.var trivial)
    exact absurd (eq_of_outline_eq.2.1 _ _ (hlet (-1)) (hlet 1) he) (by decide)

/-- A text that goes on to a second line can take the place of two. -/
example : (.seq [.lit (.string "a\"\n  literal \"b")] : Named).outline .named defaultPad =
    (.seq [.lit (.string "a"),.lit (.string "b")] : Named).outline .named defaultPad := by decide +kernel

end Mica
