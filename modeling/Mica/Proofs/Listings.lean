import Mica.Listing
import Mica.Proofs.Bystanders
import Mica.Proofs.Grammar.Joining
import Mica.Proofs.Inquiries
import Mica.Proofs.Outlines

/-! # Listings agree with loading

A listing and a load go through the methods of a program in the same order and resolve each of them in the same scope.
So they come to an end at the same method, for the same variable, if they do not come through. A listing writes as it
goes: what it has written by then is everything up to the body that cannot be resolved. If they come through, the listing
has shown every body that the machine has stored, and of the methods of a class under one name the last one counts.
-/
namespace Mica

/-! ## Headings -/

namespace Text

theorem trimEnd_eq_self {cs : List Char} (h : ∀ c, cs.getLast? = some c → isBlank c = false) : trimEnd cs = cs := by
  rcases List.eq_nil_or_concat cs with rfl | ⟨front,c,rfl⟩
  · rfl
  · have hc := h c (by simp)
    simp [trimEnd, hc]

theorem trimEnd_append_blank (cs : List Char) : trimEnd (cs ++ [' ']) = trimEnd cs := by
  have hb : isBlank ' ' = true := by decide
  simp [trimEnd, hb]

end Text

theorem Token.isNamePart_eq (c : Char) : isNamePart c = (isNameStart c || c.isDigit) := by
  rw [isNamePart, isNameStart, Char.isAlphanum, Bool.or_right_comm]

theorem Token.isBlank_of_isNamePart {c : Char} (h : isNamePart c = true) : Text.isBlank c = false := by
  cases hb : Text.isBlank c with
  | false => rfl
  | true =>
    rw [isNamePart_eq, isNameStart_of_isBlank hb, isDigit_of_isBlank hb] at h
    cases h

theorem IsIdent.exists_last {name : String} (h : IsIdent name) :
    ∃ c, name.toList.getLast? = some c ∧ Text.isBlank c = false := by
  obtain ⟨first,rest,he,hf,hr⟩ := h.spelled
  have hall : ∀ c ∈ first :: rest, Token.isNamePart c = true := by
    refine List.forall_mem_cons.2 ⟨?_,hr⟩
    rw [Token.isNamePart_eq, hf, Bool.true_or]
  rw [he]
  have hl := List.getLast?_eq_some_getLast (List.cons_ne_nil first rest)
  exact ⟨_,hl,Token.isBlank_of_isNamePart (hall _ (List.mem_of_getLast? hl))⟩

/-- Names in a row end with the last one. -/
theorem exists_last_intercalate {names : List String} (hne : names ≠ []) (h : ∀ name ∈ names, IsIdent name) :
    ∃ c, (" ".intercalate names).toList.getLast? = some c ∧ Text.isBlank c = false := by
  induction names with
  | nil => exact absurd rfl hne
  | cons name names ih =>
    obtain ⟨hn,hs⟩ := List.forall_mem_cons.1 h
    cases names with
    | nil => simpa using hn.exists_last
    | cons next names =>
      obtain ⟨c,hc,hb⟩ := ih (List.cons_ne_nil _ _) hs
      refine ⟨c,?_,hb⟩
      rw [String.intercalate_cons_cons, String.toList_append, List.getLast?_append, hc]
      rfl

namespace MethodDef

/-- The line above a body: the name of the method and those of its parameters. -/
def headline (method : MethodDef) : String := "  def " ++ " ".intercalate (method.name :: method.params)

theorem WellFormed.heading_eq {method : MethodDef} (h : method.WellFormed) : method.heading = method.headline := by
  have hlast : ∀ c, method.headline.toList.getLast? = some c → Text.isBlank c = false := by
    intro c hc
    obtain ⟨d,hd,hb⟩ := exists_last_intercalate (List.cons_ne_nil method.name method.params)
      (List.forall_mem_cons.2 ⟨h.name,h.params⟩)
    rw [headline, String.toList_append, List.getLast?_append, hd] at hc
    obtain rfl : d = c := Option.some.inj hc
    exact hb
  have htrim : String.ofList (Text.trimEnd method.headline.toList) = method.headline := by
    rw [Text.trimEnd_eq_self hlast, String.ofList_toList]
  rw [heading, ← htrim]
  cases hp : method.params with
  | nil =>
    have hw : (s!"  def {method.name} " ++ " ".intercalate []).toList = method.headline.toList ++ [' '] := by
      simp [headline, hp, toString]
    rw [hw, Text.trimEnd_append_blank]
  | cons param params =>
    have hw : s!"  def {method.name} " ++ " ".intercalate (param :: params) = method.headline := by
      simp [headline, hp, toString, String.intercalate_cons_cons, String.append_assoc]
    rw [hw]

end MethodDef

/-! ## Entries and pages -/

namespace Resolved

/-- Whatever comes out of resolution has an outline. -/
theorem WellScoped.exists_nodes {depth : Nat} {code : Resolved} (h : WellScoped depth code)
    (labels : Labels Unit Int) (level : Nat) : ∃ lines, code.nodes labels level = .ok lines := by
  induction h generalizing level with
  | lit value => exact ⟨_,rfl⟩
  | call _ _ hr ha =>
    obtain ⟨first,hf⟩ := hr (level + 1)
    obtain ⟨rest,hs⟩ := Expr.exists_nodesAll fun arg hm => ha arg hm (level + 1)
    exact ⟨_,by rw [Expr.nodes, hf, hs]; rfl⟩
  | var _ => exact ⟨_,rfl⟩
  | letIn _ _ hb hd =>
    obtain ⟨first,hf⟩ := hb (level + 1)
    obtain ⟨rest,hs⟩ := hd (level + 1)
    exact ⟨_,by rw [Expr.nodes, hf, hs]; rfl⟩
  | cond _ _ _ ht hy hn =>
    obtain ⟨first,hf⟩ := ht (level + 1)
    obtain ⟨second,hs⟩ := hy (level + 1)
    obtain ⟨third,hr⟩ := hn (level + 1)
    exact ⟨_,by rw [Expr.nodes, hf, hs, hr]; rfl⟩
  | seq _ hs =>
    obtain ⟨rest,hr⟩ := Expr.exists_nodesAll fun step hm => hs step hm (level + 1)
    exact ⟨_,by rw [Expr.nodes, hr]; rfl⟩

theorem WellScoped.exists_outline {depth : Nat} {code : Resolved} (h : WellScoped depth code)
    (labels : Labels Unit Int) (pad : String) : ∃ text, code.outline labels pad = .ok text := by
  obtain ⟨lines,hn⟩ := h.exists_nodes labels 0
  exact ⟨Expr.layOut pad lines,by rw [Expr.outline, hn]; rfl⟩

end Resolved

/-- A method together with its body as it is resolved and the outline of that. -/
structure Entry where
  method : MethodDef
  body : Resolved
  outline : String
  wellFormed : method.WellFormed
  resolves : method.body.resolveIn (.ofMethod method.params) = .ok body
  shows : body.outline .resolved defaultPad = .ok outline

/-- A class together with an entry for each of its methods. -/
structure Page where
  cls : ClassDef
  entries : List Entry
  complete : entries.map (·.method) = cls.methods

def Entry.text (entry : Entry) : String :=
  entry.method.headline ++ "\n" ++ Text.indent "    " entry.outline ++ "\n"

def ClassDef.headline (cls : ClassDef) : String := "class " ++ cls.name

def Page.text (page : Page) : String :=
  page.cls.headline ++ "\n" ++ String.join (page.entries.map (·.text))

namespace MethodDef

variable {method : MethodDef}

theorem exists_resolveIn (h : method.Tied) : ∃ body, method.body.resolveIn (.ofMethod method.params) = .ok body := by
  refine Except.error?_eq_none_iff.1 ?_
  rw [Named.error?_resolveIn, Option.map_eq_none_iff]
  exact untied?_eq_none_iff.2 h

theorem resolveIn_of_untied {loose : LooseEnd} (h : method.untied? = some loose) :
    method.body.resolveIn (.ofMethod method.params) = .error loose.problem := by
  refine Except.error?_eq_some_iff.1 ?_
  rw [Named.error?_resolveIn, Option.map_eq_some_iff]
  exact ⟨loose,h,rfl⟩

theorem WellFormed.exists_entry (h : method.WellFormed) (ht : method.Tied) : ∃ entry : Entry, entry.method = method := by
  obtain ⟨body,hb⟩ := exists_resolveIn ht
  obtain ⟨outline,ho⟩ := (Named.wellScoped_of_resolveIn hb).exists_outline .resolved defaultPad
  exact ⟨⟨method,body,outline,h,hb,ho⟩,rfl⟩

theorem exists_entries {methods : List MethodDef} (h : ∀ method ∈ methods, method.WellFormed)
    (ht : ∀ method ∈ methods, method.Tied) : ∃ entries : List Entry, entries.map (·.method) = methods := by
  induction methods with
  | nil => exact ⟨[],rfl⟩
  | cons method methods ih =>
    obtain ⟨hf,hr⟩ := List.forall_mem_cons.1 h
    obtain ⟨htf,htr⟩ := List.forall_mem_cons.1 ht
    obtain ⟨entry,rfl⟩ := hf.exists_entry htf
    obtain ⟨entries,rfl⟩ := ih hr htr
    exact ⟨entry :: entries,rfl⟩

/-- A well-formed method has nothing but variables for loose ends. -/
theorem WellFormed.untied?_ne_stray (h : method.WellFormed) (text : String) : method.untied? ≠ some (.stray text) :=
  fun hu => h.body.not_internal (resolveIn_of_untied hu) trivial

/-! ## What is written -/

theorem list_entry (entry : Entry) (written : String) :
    entry.method.list written = .ok () (written ++ entry.text) := by
  simp only [list, bind, EStateM.bind, Writing.line, Writing.ofExcept, entry.resolves, entry.shows,
    entry.wellFormed.heading_eq, Entry.text, String.append_assoc]

/-- At a variable that is not bound a listing breaks off below the heading of the method. -/
theorem WellFormed.list_of_untied (h : method.WellFormed) {name : String} (hu : method.untied? = some (.free name))
    (written : String) :
    method.list written = .error (.failure ⟨.unbound name,[]⟩) (written ++ method.headline ++ "\n") := by
  simp only [list, bind, EStateM.bind, Writing.line, Writing.ofExcept, resolveIn_of_untied hu, h.heading_eq]
  rfl

theorem listAll_entries (entries : List Entry) (rest : List MethodDef) (written : String) :
    listAll (entries.map (·.method) ++ rest) written = listAll rest (written ++ String.join (entries.map (·.text))) := by
  induction entries generalizing written with
  | nil => simp
  | cons entry entries ih =>
    simp only [List.map_cons, List.cons_append, listAll, bind, EStateM.bind, list_entry, ih, String.join_cons,
      String.append_assoc]

end MethodDef

namespace ClassDef

theorem list_eq (cls : ClassDef) (written : String) :
    cls.list written = MethodDef.listAll cls.methods (written ++ cls.headline ++ "\n") := by
  simp only [list, bind, EStateM.bind, Writing.line, headline]
  rfl

theorem list_page (page : Page) (written : String) : page.cls.list written = .ok () (written ++ page.text) := by
  have hl := MethodDef.listAll_entries page.entries [] (written ++ page.cls.headline ++ "\n")
  rw [List.append_nil, page.complete] at hl
  rw [list_eq, hl, Page.text, ← String.append_assoc, ← String.append_assoc]
  rfl

theorem listAll_pages (pages : List Page) (rest : List ClassDef) (written : String) :
    listAll (pages.map (·.cls) ++ rest) written = listAll rest (written ++ String.join (pages.map (·.text))) := by
  induction pages generalizing written with
  | nil => simp
  | cons page pages ih =>
    simp only [List.map_cons, List.cons_append, listAll, bind, EStateM.bind, list_page, ih, String.join_cons,
      String.append_assoc]

/-- A listing breaks off at the first method with a variable that is not bound. -/
theorem listAll_of_untied {cls : ClassDef} {entries : List Entry} {method : MethodDef} {later : List MethodDef}
    {name : String} (hm : cls.methods = entries.map (·.method) ++ method :: later) (hw : method.WellFormed)
    (hu : method.untied? = some (.free name)) (pages : List Page) (rest : List ClassDef) (written : String) :
    listAll (pages.map (·.cls) ++ cls :: rest) written =
      .error (.failure ⟨.unbound name,[]⟩)
        (written ++ String.join (pages.map (·.text)) ++ cls.headline ++ "\n" ++
          String.join (entries.map (·.text)) ++ method.headline ++ "\n") := by
  rw [listAll_pages, listAll]
  simp only [bind, EStateM.bind, list_eq, hm, MethodDef.listAll_entries, MethodDef.listAll, hw.list_of_untied hu]

theorem exists_page {cls : ClassDef} (h : cls.WellFormed) (ht : ∀ method ∈ cls.methods, method.Tied) :
    ∃ page : Page, page.cls = cls := by
  obtain ⟨entries,he⟩ := MethodDef.exists_entries h.methods ht
  exact ⟨⟨cls,entries,he⟩,rfl⟩

theorem exists_pages {known : List String} {classes : List ClassDef} (h : ∀ cls ∈ classes, cls.WellFormed)
    (ha : Admitted known classes) : ∃ pages : List Page, pages.map (·.cls) = classes := by
  induction classes generalizing known with
  | nil => exact ⟨[],rfl⟩
  | cons cls classes ih =>
    obtain ⟨hf,hr⟩ := List.forall_mem_cons.1 h
    obtain ⟨_,ht,ha⟩ := admitted_cons.1 ha
    obtain ⟨page,rfl⟩ := exists_page hf ht
    obtain ⟨pages,rfl⟩ := ih hr ha
    exact ⟨page :: pages,rfl⟩

end ClassDef

/-! ## What is stored -/

namespace Page

/-- The last entry under a name. -/
def last? (page : Page) (name : String) : Option Entry := page.entries.reverse.find? (·.method.name = name)

/-- A method with the body that an entry shows. -/
def compiled (page : Page) (entry : Entry) : Method :=
  .custom entry.body (page.cls.label entry.method) (some entry.method.params.length)

theorem latest?_eq (page : Page) (name : String) : page.cls.latest? name = (page.last? name).map (·.method) := by
  rw [ClassDef.latest?, ← page.complete, ← List.map_reverse, List.find?_map]
  rfl

theorem customMethod_eq (page : Page) (entry : Entry) :
    page.cls.customMethod entry.method = .ok (page.compiled entry) :=
  ClassDef.customMethod_eq_ok.2 ⟨entry.body,entry.resolves,rfl⟩

/-- The table of a class has the last entry under each name. -/
theorem get?_of_methodTable (page : Page) {table : MethodTable} (h : page.cls.methodTable = .ok table) (name : String) :
    table.get? name = (page.last? name).map page.compiled := by
  rcases ClassDef.get?_of_methodTable h name with ⟨hn,hg⟩ | ⟨method,custom,hf,hc,hg⟩
  · rw [latest?_eq, Option.map_eq_none_iff] at hn
    rw [hg, hn]
    rfl
  · rw [latest?_eq, Option.map_eq_some_iff] at hf
    obtain ⟨entry,he,rfl⟩ := hf
    rw [customMethod_eq] at hc
    rw [hg, he, ← Except.ok.inj hc]
    rfl

theorem exists_of_load {program : Program} {classes : List (String × ClassId)} {machine loaded : Machine}
    (page : Page) (hl : Machine.load program machine = .ok classes loaded) (hc : page.cls ∈ program.classes) :
    ∃ id, classes.lookup page.cls.name = some id ∧
      ∀ name, loaded.method? (.object id) name = (page.last? name).map page.compiled := by
  obtain ⟨id,table,hid,ht,hg⟩ := Machine.exists_of_load hl hc
  refine ⟨id,hid,fun name => ?_⟩
  rw [Machine.method?, hg]
  exact page.get?_of_methodTable ht name

end Page

theorem listSource_of_parse {source : String} {program : Program} (h : Program.parse source = .ok program)
    (written : String) : listSource source written = ClassDef.listAll program.classes written := by
  simp only [listSource, bind, EStateM.bind, h, Writing.ofExcept]

section Agreement

variable {source : String} {program : Program} {classes : List (String × ClassId)} {machine after : Machine}

theorem exists_pages_of_load (hp : Program.parse source = .ok program)
    (hl : Machine.load program .fresh = .ok classes machine) :
    ∃ pages : List Page, pages.map (·.cls) = program.classes ∧
      listSource source "" = .ok () (String.join (pages.map (·.text))) := by
  obtain ⟨pages,hs⟩ := ClassDef.exists_pages (Program.wellFormed_of_parse hp) (Machine.admitted_of_load hl)
  have hw := ClassDef.listAll_pages pages [] ""
  rw [List.append_nil, hs, String.empty_append] at hw
  exact ⟨pages,hs,by rw [listSource_of_parse hp, hw]; rfl⟩

/-- Where a load is refused, a listing breaks off. -/
theorem exists_break_of_load {problem : Problem} (hp : Program.parse source = .ok program)
    (hd : (program.classes.map (·.name)).Nodup) (hl : Machine.load program .fresh = .error problem after) :
    ∃ (pages : List Page) (cls : ClassDef) (rest : List ClassDef) (entries : List Entry) (method : MethodDef)
      (later : List MethodDef) (name : String),
      program.classes = pages.map (·.cls) ++ cls :: rest ∧ cls.methods = entries.map (·.method) ++ method :: later ∧
      problem = .failure ⟨.unbound name,[cls.label method]⟩ ∧
      listSource source "" = .error (.failure ⟨.unbound name,[]⟩)
        (String.join (pages.map (·.text)) ++ cls.headline ++ "\n" ++
          String.join (entries.map (·.text)) ++ method.headline ++ "\n") := by
  have hw := Program.wellFormed_of_parse hp
  obtain ⟨before,cls,rest,taken,hs,ha,hr,_⟩ := Machine.refused_of_load hl
  have hcls : cls ∈ program.classes := by simp [hs]
  obtain ⟨pages,rfl⟩ := ClassDef.exists_pages (fun other hm => hw other (by simp [hs, hm])) ha
  cases hr with
  | duplicate hk =>
    -- nothing is known to a machine that is fresh
    have hk : cls.name ∈ (pages.map (·.cls)).map (·.name) := hk.resolve_left List.not_mem_nil
    rw [hs, List.map_append, List.map_cons] at hd
    exact absurd rfl ((List.nodup_append.1 hd).2.2 _ hk _ List.mem_cons_self)
  | @unbound earlier later method name _ hm ht hu =>
    have hmethods := (hw cls hcls).methods
    rw [hm] at hmethods
    obtain ⟨entries,rfl⟩ := MethodDef.exists_entries (fun other ho => hmethods other (by simp [ho])) ht
    refine ⟨pages,cls,rest,entries,method,later,name,hs,hm,rfl,?_⟩
    rw [listSource_of_parse hp, hs, ClassDef.listAll_of_untied hm (hmethods method (by simp)) hu, String.empty_append]
  | @stray earlier later method text _ hm _ hu =>
    exact absurd hu (((hw cls hcls).methods method (by simp [hm])).untied?_ne_stray text)

/-- A listing comes through exactly if the program can be loaded. If not, both fail for the same variable, and the
listing has written everything before the body in which it is, the heading of that method included. If they come
through, each class has under each name the method that is listed last under it, with the body that is shown there. -/
theorem listing_agrees_with_load (hp : Program.parse source = .ok program)
    (hd : (program.classes.map (·.name)).Nodup) :
    ((∃ text, listSource source "" = .ok () text) ↔
      ∃ classes machine, Machine.load program .fresh = .ok classes machine) ∧
    (∀ problem text, listSource source "" = .error problem text →
      ∃ (pages : List Page) (cls : ClassDef) (rest : List ClassDef) (entries : List Entry) (method : MethodDef)
        (later : List MethodDef) (name : String) (after : Machine),
        program.classes = pages.map (·.cls) ++ cls :: rest ∧ cls.methods = entries.map (·.method) ++ method :: later ∧
        problem = .failure ⟨.unbound name,[]⟩ ∧
        Machine.load program .fresh = .error (.failure ⟨.unbound name,[cls.label method]⟩) after ∧
        text = String.join (pages.map (·.text)) ++ cls.headline ++ "\n" ++
          String.join (entries.map (·.text)) ++ method.headline ++ "\n") ∧
    ∀ text classes machine, listSource source "" = .ok () text →
      Machine.load program .fresh = .ok classes machine →
      ∃ pages : List Page, pages.map (·.cls) = program.classes ∧ text = String.join (pages.map (·.text)) ∧
        ∀ page ∈ pages, ∃ id, classes.lookup page.cls.name = some id ∧
          ∀ name, machine.method? (.object id) name = (page.last? name).map page.compiled := by
  cases hl : Machine.load program .fresh with
  | ok classes machine =>
    obtain ⟨pages,hs,ht⟩ := exists_pages_of_load hp hl
    refine ⟨⟨fun _ => ⟨classes,machine,rfl⟩,fun _ => ⟨_,ht⟩⟩,fun problem text he => ?_,?_⟩
    · rw [ht] at he
      cases he
    · rintro text classes' machine' he hl'
      cases hl'
      rw [ht] at he
      cases he
      refine ⟨pages,hs,rfl,fun page hm => page.exists_of_load hl ?_⟩
      rw [← hs]
      exact List.mem_map_of_mem hm
  | error problem after =>
    obtain ⟨pages,cls,rest,entries,method,later,name,hs,hm,rfl,ht⟩ := exists_break_of_load hp hd hl
    refine ⟨⟨?_,?_⟩,fun problem text he => ?_,?_⟩
    · rintro ⟨text,he⟩
      rw [ht] at he
      cases he
    · rintro ⟨classes,machine,hc⟩
      cases hc
    · rw [ht] at he
      cases he
      exact ⟨pages,cls,rest,entries,method,later,name,after,hs,hm,rfl,rfl,rfl⟩
    · intro text classes machine _ hc
      cases hc

end Agreement

/-- A class with two methods of one name. -/
def renewedText : String := "class A \x7b def m x y = x; def m x = f x this; \x7d"

def renewed : ClassDef :=
  ⟨"A",[⟨"m",["x","y"],.var "x"⟩,⟨"m",["x"],.call "f" (.var "x") [.var "this"]⟩]⟩

def renewedMethod : Method := .custom (.call "f" (.var 0) [.var 1]) "A.m" (some 1)

def renewedMachine : Machine :=
  { Machine.fresh.enroll [⟨"A",⟨1⟩,⟨[("m",renewedMethod)]⟩⟩] with classCount := 1 }

def renewedListing : String :=
  "class A\n  def m x y\n    var 1\n  def m x\n    call f\n      var 0\n      var 1\n"

/-- The same class before another one, in which a variable is not bound between two methods that are sound. -/
def brokenText : String := renewedText ++ " class B \x7b def f = \"s\"; def g x = let y = z in y; def h = this; \x7d"

def broken : ClassDef :=
  ⟨"B",[⟨"f",[],.lit (.string "s")⟩,⟨"g",["x"],.letIn "y" (.var "z") (.var "y")⟩,⟨"h",[],.var "this"⟩]⟩

def brokenListing : String := renewedListing ++ "class B\n  def f\n    literal \"s\"\n  def g x\n"

theorem listing_agrees_with_load_renewed :
    (Program.parse renewedText = .ok ⟨[renewed]⟩ ∧ listSource renewedText "" = .ok () renewedListing ∧
      Machine.load ⟨[renewed]⟩ .fresh = .ok [("A",⟨1⟩)] renewedMachine ∧
      ∃ page : Page, page.cls = renewed ∧ renewedListing = page.text ∧
        some renewedMethod = (page.last? "m").map page.compiled) ∧
    Program.parse brokenText = .ok ⟨[renewed,broken]⟩ ∧
    listSource brokenText "" = .error (.failure ⟨.unbound "z",[]⟩) brokenListing ∧
    Machine.load ⟨[renewed,broken]⟩ .fresh =
      .error (.failure ⟨.unbound "z",["B.g"]⟩) { Machine.fresh with classCount := 2 } ∧
    ∃ (pages : List Page) (cls : ClassDef) (entries : List Entry) (method : MethodDef),
      pages.map (·.cls) ++ [cls] <+: [renewed,broken] ∧ entries.map (·.method) ++ [method] <+: cls.methods ∧
      cls.label method = "B.g" ∧
      brokenListing = String.join (pages.map (·.text)) ++ cls.headline ++ "\n" ++
        String.join (entries.map (·.text)) ++ method.headline ++ "\n" := by
  have hp : Program.parse renewedText = .ok ⟨[renewed]⟩ := by decide +kernel
  have ht : listSource renewedText "" = .ok () renewedListing := by decide +kernel
  have hl : Machine.load ⟨[renewed]⟩ .fresh = .ok [("A",⟨1⟩)] renewedMachine := by decide +kernel
  have hp' : Program.parse brokenText = .ok ⟨[renewed,broken]⟩ := by decide +kernel
  have ht' : listSource brokenText "" = .error (.failure ⟨.unbound "z",[]⟩) brokenListing := by decide +kernel
  have hl' : Machine.load ⟨[renewed,broken]⟩ .fresh =
      .error (.failure ⟨.unbound "z",["B.g"]⟩) { Machine.fresh with classCount := 2 } := by decide +kernel
  refine ⟨⟨hp,ht,hl,?_⟩,hp',ht',hl',?_⟩
  · obtain ⟨pages,hs,htext,hstored⟩ := (listing_agrees_with_load hp (by decide)).2.2 _ _ _ ht hl
    obtain ⟨page,rfl,hpage⟩ := List.map_eq_singleton_iff.1 hs
    obtain ⟨id,hid,hmethods⟩ := hstored page List.mem_cons_self
    rw [hpage] at hid
    obtain rfl : ⟨1⟩ = id := Option.some.inj hid
    exact ⟨page,hpage,by simpa using htext,(hmethods "m").symm ▸ rfl⟩
  · obtain ⟨pages,cls,rest,entries,method,later,name,after,hs,hm,_,hload,htext⟩ :=
      (listing_agrees_with_load hp' (by decide)).2.1 _ _ ht'
    rw [hl'] at hload
    refine ⟨pages,cls,entries,method,⟨rest,?_⟩,⟨later,?_⟩,?_,htext⟩
    · rw [List.append_assoc]
      exact hs.symm
    · rw [List.append_assoc]
      exact hm.symm
    · simp only [EStateM.Result.error.injEq, Problem.failure.injEq, Failure.mk.injEq, List.cons.injEq] at hload
      exact hload.1.2.1.symm

end Mica
