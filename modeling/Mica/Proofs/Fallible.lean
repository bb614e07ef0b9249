import Mathlib.Data.List.Forall2

/-! # Computations that may fail

When a chain of fallible computations, or one of them run on every member of a list, has a result, and
what it fails with when it has none.
-/
namespace Mica

instance decidableEqExcept {ε α : Type} [DecidableEq ε] [DecidableEq α] : DecidableEq (Except ε α)
  | .ok a, .ok b => decidable_of_iff (a = b) ⟨congrArg _,Except.ok.inj⟩
  | .error e, .error f => decidable_of_iff (e = f) ⟨congrArg _,Except.error.inj⟩
  | .ok _, .error _ => isFalse nofun
  | .error _, .ok _ => isFalse nofun

instance decidableEqResult {ε σ α : Type} [DecidableEq ε] [DecidableEq σ] [DecidableEq α] :
    DecidableEq (EStateM.Result ε σ α)
  | .ok a s, .ok b t => decidable_of_iff (a = b ∧ s = t) (by simp)
  | .error e s, .error f t => decidable_of_iff (e = f ∧ s = t) (by simp)
  | .ok _ _, .error _ _ => isFalse nofun
  | .error _ _, .ok _ _ => isFalse nofun

section EStateM

variable {ε σ α : Type}

theorem EStateM.throw_apply (e : ε) (state : σ) : (throw e : EStateM ε σ α) state = .error e state := rfl

theorem EStateM.get_apply (state : σ) : (get : EStateM ε σ σ) state = .ok state state := rfl

theorem EStateM.modify_apply (f : σ → σ) (state : σ) : (modify f : EStateM ε σ PUnit) state = .ok ⟨⟩ (f state) := rfl

end EStateM

theorem Except.bind_eq_ok_iff {ε α β : Type} {x : Except ε α} {f : α → Except ε β} {b : β} :
    (x >>= f) = .ok b ↔ ∃ a, x = .ok a ∧ f a = .ok b := by
  cases x with
  | error e => simp [bind, Except.bind]
  | ok a => simp [bind, Except.bind]

theorem Except.toOption_bind {ε α β : Type} (x : Except ε α) (f : α → Except ε β) :
    (x >>= f).toOption = x.toOption.bind fun a => (f a).toOption := by
  cases x <;> rfl

theorem Except.toOption_eq_some_iff {ε α : Type} {result : Except ε α} {a : α} :
    result.toOption = some a ↔ result = .ok a := by
  cases result <;> simp [Except.toOption]

theorem Except.mapError_eq_ok_iff {ε ε' α : Type} {result : Except ε α} {f : ε → ε'} {a : α} :
    result.mapError f = .ok a ↔ result = .ok a := by
  cases result <;> simp [Except.mapError]

theorem Except.eq_error_of_mapError_map {ε ε' α β : Type} {result : Except ε α} {f : α → β} {g : ε → ε'} {e : ε'}
    (h : (result.map f).mapError g = .error e) : ∃ found, result = .error found ∧ g found = e := by
  cases result with
  | ok a => cases h
  | error found => exact ⟨found,rfl,Except.error.inj h⟩

/-- What a fallible computation fails with. -/
def Except.error? {ε α : Type} : Except ε α → Option ε
  | .ok _ => none
  | .error e => some e

theorem Except.error?_eq_some_iff {ε α : Type} {result : Except ε α} {e : ε} :
    Except.error? result = some e ↔ result = .error e := by
  cases result <;> simp [Except.error?]

theorem Except.error?_eq_none_iff {ε α : Type} {result : Except ε α} :
    Except.error? result = none ↔ ∃ a, result = .ok a := by
  cases result <;> simp [Except.error?]

theorem Except.error?_bind {ε α β : Type} {x : Except ε α} {f : α → Except ε β} {fault : Option ε}
    (h : ∀ a, Except.error? (f a) = fault) : Except.error? (x >>= f) = (Except.error? x).or fault := by
  cases x with
  | error e => rfl
  | ok a => exact h a

theorem Except.error?_bind_pure {ε α β : Type} (x : Except ε α) (f : α → β) :
    Except.error? (x >>= fun a => pure (f a)) = Except.error? x := by
  cases x <;> rfl

section Traversal

variable {ε α β γ : Type} {f : α → Except ε β} {as : List α} {bs : List β}

theorem Except.mapM_eq_ok_iff : as.mapM f = .ok bs ↔ List.Forall₂ (fun a b => f a = .ok b) as bs := by
  induction as generalizing bs with
  | nil => simp [pure, Except.pure, eq_comm]
  | cons a as ih =>
    rw [List.mapM_cons, Except.bind_eq_ok_iff, List.forall₂_cons_left_iff]
    constructor
    · rintro ⟨b,hb,h⟩
      obtain ⟨rest,hr,h⟩ := Except.bind_eq_ok_iff.1 h
      exact ⟨b,rest,hb,ih.1 hr,(Except.ok.inj h).symm⟩
    · rintro ⟨b,rest,hb,hr,rfl⟩
      exact ⟨b,hb,Except.bind_eq_ok_iff.2 ⟨rest,ih.2 hr,rfl⟩⟩

theorem Except.toOption_mapM_cons (f : α → Except ε β) (a : α) (as : List α) :
    ((a :: as).mapM f).toOption = (f a).toOption.bind fun first => (as.mapM f).toOption.map (first :: ·) := by
  rw [List.mapM_cons]
  cases f a <;> cases as.mapM f <;> rfl

theorem Except.forall_mem_of_mapM {P : α → Prop} (h : ∀ a ∈ as, ∀ b, f a = .ok b → P a) (hm : as.mapM f = .ok bs) :
    ∀ a ∈ as, P a := by
  rw [Except.mapM_eq_ok_iff] at hm
  induction hm with
  | nil => nofun
  | cons hb _ ih =>
    obtain ⟨ha,hs⟩ := List.forall_mem_cons.1 h
    exact List.forall_mem_cons.2 ⟨ha _ hb,ih hs⟩

/-- What is collected from the results is what is collected from the members they belong to. -/
theorem Except.flatMap_of_mapM {g : β → List γ} {k : α → List γ} (h : ∀ a ∈ as, ∀ b, f a = .ok b → g b = k a)
    (hm : as.mapM f = .ok bs) : bs.flatMap g = as.flatMap k := by
  rw [Except.mapM_eq_ok_iff] at hm
  induction hm with
  | nil => rfl
  | cons hb _ ih =>
    obtain ⟨ha,hs⟩ := List.forall_mem_cons.1 h
    rw [List.flatMap_cons, List.flatMap_cons, ha _ hb, ih hs]

/-- Where each member fails as a search through its parts says, a traversal fails as a search through all parts does. -/
theorem Except.error?_mapM {parts : α → List γ} (search : List γ → Option ε) (hn : search [] = none)
    (hs : ∀ first more, search (first ++ more) = (search first).or (search more))
    (h : ∀ a ∈ as, Except.error? (f a) = search (parts a)) :
    Except.error? (as.mapM f) = search (as.flatMap parts) := by
  induction as with
  | nil => exact hn.symm
  | cons a as ih =>
    obtain ⟨ha,hr⟩ := List.forall_mem_cons.1 h
    rw [List.mapM_cons, List.flatMap_cons, hs, ← ha, ← ih hr]
    exact Except.error?_bind fun first => Except.error?_bind_pure _ _

end Traversal

section Option

variable {α β γ : Type}

theorem Option.isSome_bind_map (first : Option α) (second : Option β) (f : α → β → γ) :
    (first.bind fun a => second.map (f a)).isSome ↔ first.isSome ∧ second.isSome := by
  cases first <;> simp

variable {f : α → Option β} {as : List α}

theorem Option.mapM_congr {g : α → Option β} (h : ∀ a ∈ as, f a = g a) : as.mapM f = as.mapM g := by
  induction as with
  | nil => rfl
  | cons a as ih =>
    obtain ⟨ha,hs⟩ := List.forall_mem_cons.1 h
    rw [List.mapM_cons, List.mapM_cons, ha, ih hs]

theorem Option.isSome_mapM_iff : (as.mapM f).isSome ↔ ∀ a ∈ as, (f a).isSome := by
  induction as with
  | nil => simp
  | cons a as ih =>
    rw [List.mapM_cons, List.forall_mem_cons, ← ih]
    cases f a <;> cases as.mapM f <;> simp

theorem Option.forall_mem_of_mapM {P : β → Prop} {bs : List β} (h : ∀ a ∈ as, ∀ b, f a = some b → P b)
    (hm : as.mapM f = some bs) : ∀ b ∈ bs, P b := by
  induction as generalizing bs with
  | nil =>
    cases hm
    nofun
  | cons a as ih =>
    obtain ⟨ha,hs⟩ := List.forall_mem_cons.1 h
    simp only [List.mapM_cons, Option.bind_eq_bind, Option.bind_eq_some_iff, Option.pure_def, Option.some.injEq] at hm
    obtain ⟨b,hb,bs,hr,rfl⟩ := hm
    exact List.forall_mem_cons.2 ⟨ha b hb,ih hs hr⟩

end Option

end Mica
