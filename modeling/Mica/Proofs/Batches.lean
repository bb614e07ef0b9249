import Mica.Proofs.Grammar.Joining
import Mica.Proofs.Register

/-! # Loading in batches

Classes can be loaded all at once or one part after another. Staging looks at no more of a machine than the names that
are taken and the number of classes so far, so the later classes are staged alike whether or not the earlier ones
are in the register already.
-/
namespace Mica

namespace Machine

variable {known known' : List String} {classes more : List ClassDef} {machine left after : Machine}
  {staged : List Staged}

theorem stage_congr (h : ∀ name, name ∈ known ↔ name ∈ known') :
    stage known classes machine = stage known' classes machine := by
  induction classes generalizing known known' machine with
  | nil => rfl
  | cons cls classes ih =>
    have hcons (name : String) : name ∈ cls.name :: known ↔ name ∈ cls.name :: known' := by
      rw [List.mem_cons, List.mem_cons, h]
    simp only [stage_cons, h, ih hcons]

/-- Staging goes on after the first classes with their names taken. -/
theorem stage_append : stage known (classes ++ more) machine =
    match stage known classes machine with
    | .error problem left => .error problem left
    | .ok first left =>
      match stage ((classes.map (·.name)).reverse ++ known) more left with
      | .error problem after => .error problem after
      | .ok second after => .ok (first ++ second) after := by
  induction classes generalizing known machine with
  | nil =>
    have hnil : stage known [] machine = .ok [] machine := rfl
    rw [hnil]
    cases hs : stage known more machine <;> simp [hs]
  | cons cls classes ih =>
    have hnames : (classes.map (·.name)).reverse ++ cls.name :: known =
        ((cls :: classes).map (·.name)).reverse ++ known := by simp
    rw [List.cons_append, stage_cons, stage_cons]
    by_cases hk : cls.name ∈ known
    · rw [if_pos hk, if_pos hk]
    · rw [if_neg hk, if_neg hk]
      cases cls.methodTable with
      | error problem => rfl
      | ok table =>
        dsimp only
        rw [ih, hnames]
        cases stage (cls.name :: known) classes { machine with classCount := machine.classCount + 1 } with
        | error problem left => rfl
        | ok first left =>
          dsimp only
          cases stage (((cls :: classes).map (·.name)).reverse ++ known) more left <;> rfl

theorem stage_enroll (staged : List Staged) : stage known classes (machine.enroll staged) =
    match stage known classes machine with
    | .error problem after => .error problem (after.enroll staged)
    | .ok found after => .ok found (after.enroll staged) := by
  induction classes generalizing known machine with
  | nil => rfl
  | cons cls classes ih =>
    have hcount : { machine.enroll staged with classCount := (machine.enroll staged).classCount + 1 } =
        ({ machine with classCount := machine.classCount + 1 } : Machine).enroll staged := rfl
    rw [stage_cons, stage_cons, hcount, ih]
    by_cases hk : cls.name ∈ known
    · rw [if_pos hk, if_pos hk]
    · rw [if_neg hk, if_neg hk]
      cases cls.methodTable with
      | error problem => rfl
      | ok table =>
        cases stage (cls.name :: known) classes { machine with classCount := machine.classCount + 1 } <;> rfl

theorem Orderly.foldl_install_of_stage (h : machine.Orderly) (hs : stage known classes machine = .ok staged left)
    (hm : after.methods = machine.methods) (hn : after.classNames = machine.classNames) :
    staged.foldl install after = after.enroll staged := by
  obtain ⟨_,hf⟩ := stage_eq_ok hs
  have hnew (cls : Staged) (hc : cls ∈ staged) :
      cls.id ∉ after.classNames.keys ∧ TypeKey.object cls.id ∉ after.methods.keys := by
    have hge := (number_of_stagedAs hf (List.mem_map_of_mem hc)).1
    rw [hm, hn]
    exact h.not_mem_of_lt (by omega)
  exact foldl_install_eq ((increasing_of_stagedAs hf).imp ne_of_lt) (fun cls hc => (hnew cls hc).1)
    fun cls hc => (hnew cls hc).2

theorem stage_frame (h : stage known classes machine = .ok staged left) :
    left.methods = machine.methods ∧ left.classNames = machine.classNames := by
  obtain ⟨rfl,_⟩ := stage_eq_ok h
  exact ⟨rfl,rfl⟩

/-- Loading classes at once is loading the first of them and then the others, except that the first ones are not
kept when one of the others is at fault. -/
theorem Orderly.load_append (h : machine.Orderly) (classes more : List ClassDef) : load ⟨classes ++ more⟩ machine =
    match load ⟨classes⟩ machine with
    | .error problem left => .error problem left
    | .ok first left =>
      match load ⟨more⟩ left with
      | .error problem after => .error problem { machine with classCount := after.classCount }
      | .ok second after => .ok (first ++ second) after := by
  rw [load_eq, load_eq, stage_append]
  dsimp only
  cases hs : stage machine.classNames.values classes machine with
  | error problem left => rfl
  | ok first left =>
    obtain ⟨hm,hn⟩ := stage_frame hs
    have hfirst : first.foldl install left = left.enroll first := h.foldl_install_of_stage hs hm hn
    have hknown (name : String) : name ∈ (classes.map (·.name)).reverse ++ machine.classNames.values ↔
        name ∈ (left.enroll first).classNames.values := by
      rw [names_enroll, hn, names_of_stagedAs (stage_eq_ok hs).2, List.mem_append, List.mem_append, List.mem_reverse,
        or_comm]
    dsimp only
    rw [hfirst, load_eq, stage_congr hknown, stage_enroll]
    dsimp only
    cases hs' : stage (left.enroll first).classNames.values more left with
    | error problem after =>
      obtain ⟨_,_,_,_,_,_,_,rfl⟩ := refused_of_stage hs'
      obtain ⟨rfl,_⟩ := stage_eq_ok hs
      rfl
    | ok second after =>
      obtain ⟨hm',hn'⟩ := stage_frame hs'
      have hboth : first.foldl install after = after.enroll first :=
        h.foldl_install_of_stage hs (hm'.trans hm) (hn'.trans hn)
      dsimp only
      rw [List.map_append, List.foldl_append, hboth]

theorem names_of_load {program : Program} {found : List (String × ClassId)}
    (h : load program machine = .ok found after) : found.map Prod.fst = program.classes.map (·.name) := by
  obtain ⟨staged,hs,rfl,_⟩ := load_eq_ok h
  rw [List.map_map, ← names_of_stagedAs hs]
  rfl

theorem nodup_names_of_load {program : Program} {found : List (String × ClassId)}
    (h : load program machine = .ok found after) : (found.map Prod.fst).Nodup := by
  rw [names_of_load h]
  exact (admitted_of_load h).distinct

end Machine

/-- Two texts with a line break between them load as the one and then the other do. The two loads succeed just when the
load of the joined text does, which then brings about the same machine and gives the classes of both, no two of one
name. Otherwise the problem and the count are those of the first load that fails. -/
theorem load_joined {source other : String} {program more : Program} (hp : Program.parse source = .ok program)
    (hm : Program.parse other = .ok more) :
    ∃ joined, Program.parse (source ++ "\n" ++ other) = .ok joined ∧ joined.classes = program.classes ++ more.classes ∧
      ∀ machine, Grown machine →
        ((∃ classes after, Machine.load joined machine = .ok classes after) ↔
          ∃ first left second after, Machine.load program machine = .ok first left ∧
            Machine.load more left = .ok second after) ∧
        (∀ first left second after, Machine.load program machine = .ok first left →
          Machine.load more left = .ok second after →
          Machine.load joined machine = .ok (first ++ second) after ∧ ((first ++ second).map Prod.fst).Nodup) ∧
        ∀ problem after, Machine.load joined machine = .error problem after →
          (∃ left, Machine.load program machine = .error problem left ∧ left.classCount = after.classCount) ∨
          ∃ first left last, Machine.load program machine = .ok first left ∧
            Machine.load more left = .error problem last ∧ last.classCount = after.classCount := by
  refine ⟨⟨program.classes ++ more.classes⟩,Program.parse_append_line hp hm,rfl,fun machine hg => ?_⟩
  have hload := hg.orderly.load_append program.classes more.classes
  cases hf : Machine.load program machine with
  | error problem left =>
    rw [hf] at hload
    rw [hload]
    refine ⟨by simp,by simp,?_⟩
    rintro _ _ ⟨⟩
    exact .inl ⟨left,rfl,rfl⟩
  | ok first left =>
    rw [hf] at hload
    dsimp only at hload
    cases hs : Machine.load more left with
    | error problem last =>
      rw [hs] at hload
      rw [hload]
      have hnever (second : List (String × ClassId)) (after : Machine) : Machine.load more left ≠ .ok second after := by
        rw [hs]
        nofun
      refine ⟨by simp [hs],?_,?_⟩
      · rintro _ _ _ _ ⟨⟩ hs'
        exact absurd hs' (hnever _ _)
      · rintro _ _ ⟨⟩
        exact .inr ⟨first,left,last,rfl,hs,rfl⟩
    | ok second after =>
      rw [hs] at hload
      have hnames := Machine.nodup_names_of_load hload
      rw [hload]
      refine ⟨by simp [hs],?_,by simp⟩
      rintro _ _ _ _ ⟨⟩ hs'
      rw [hs] at hs'
      cases hs'
      exact ⟨rfl,hnames⟩

/-- The comment goes on to the end of the text. -/
def commentedText : String := "class B \x7b def m = this; \x7d // a class"

def commented : Program := ⟨[⟨"B",[⟨"m",[],.var "this"⟩]⟩]⟩

def commentedMachine : Machine :=
  { settledMachine.enroll [⟨"B",⟨2⟩,⟨[("m",.custom (.var 0) "B.m" (some 0))]⟩⟩] with classCount := 2 }

def followingMachine : Machine :=
  { commentedMachine.enroll [⟨"C",⟨3⟩,⟨[("m",.custom (.var 0) "C.m" (some 1))]⟩⟩] with classCount := 3 }

/-- The first text goes well with the one that follows it, and not with one whose second class has a name that is
taken. -/
theorem load_joined_commented :
    Program.parse commentedText = .ok commented ∧ Grown settledMachine ∧
    (∃ joined, Program.parse (commentedText ++ "\n" ++ "class C \x7b def m x = x; \x7d") = .ok joined ∧
      Machine.load joined settledMachine = .ok [("B",⟨2⟩),("C",⟨3⟩)] followingMachine) ∧
    ∃ joined, Program.parse (commentedText ++ "\n" ++ "class C \x7b \x7d class A \x7b \x7d") = .ok joined ∧
      Machine.load joined settledMachine =
        .error (.failure ⟨.duplicateClass "A",[]⟩) { settledMachine with classCount := 3 } ∧
      ∃ left last, Machine.load commented settledMachine = .ok [("B",⟨2⟩)] left ∧
        Machine.load ⟨[⟨"C",[]⟩,⟨"A",[]⟩]⟩ left = .error (.failure ⟨.duplicateClass "A",[]⟩) last ∧
        last.classCount = 3 := by
  have hp : Program.parse commentedText = .ok commented := by decide +kernel
  have hf : Program.parse "class C \x7b def m x = x; \x7d" = .ok ⟨[⟨"C",[⟨"m",["x"],.var "x"⟩]⟩]⟩ := by decide +kernel
  have hc : Program.parse "class C \x7b \x7d class A \x7b \x7d" = .ok ⟨[⟨"C",[]⟩,⟨"A",[]⟩]⟩ := by decide +kernel
  have ho : some (Machine.load settled .fresh) = Outcome.ended (.ok [("A",⟨1⟩)]) settledMachine := by decide +kernel
  have hg : Grown settledMachine := Grown.fresh.load ho
  have hl : Machine.load commented settledMachine = .ok [("B",⟨2⟩)] commentedMachine := by decide +kernel
  have hs : Machine.load ⟨[⟨"C",[⟨"m",["x"],.var "x"⟩]⟩]⟩ commentedMachine = .ok [("C",⟨3⟩)] followingMachine := by
    decide +kernel
  refine ⟨hp,hg,?_,?_⟩
  · obtain ⟨joined,hj,_,hall⟩ := load_joined hp hf
    exact ⟨joined,hj,((hall _ hg).2.1 _ _ _ _ hl hs).1⟩
  · obtain ⟨⟨classes⟩,hj,rfl,hall⟩ := load_joined hp hc
    have he : Machine.load ⟨commented.classes ++ [⟨"C",[]⟩,⟨"A",[]⟩]⟩ settledMachine =
        .error (.failure ⟨.duplicateClass "A",[]⟩) { settledMachine with classCount := 3 } := by decide +kernel
    rcases (hall _ hg).2.2 _ _ he with ⟨left,hn,_⟩ | ⟨first,left,last,hfirst,hsecond,hcount⟩
    · rw [hl] at hn
      cases hn
    · rw [hl] at hfirst
      cases hfirst
      exact ⟨_,hj,he,commentedMachine,last,hl,hsecond,hcount⟩

end Mica
