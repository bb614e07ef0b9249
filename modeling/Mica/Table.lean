/-! # Tables

Finite maps that remember the order in which keys first came in. Writing to a key that is there
keeps its place, so the listing of a table is stable under later writes.
-/
namespace Mica

structure Table (κ : Type) (α : Type) where
  entries : List (κ × α)
deriving DecidableEq

namespace Table

variable {κ α : Type} [DecidableEq κ]

def empty : Table κ α := ⟨[]⟩

def findIn (key : κ) : List (κ × α) → Option α
  | [] => none
  | entry :: rest => if entry.1 = key then some entry.2 else findIn key rest

def putIn (key : κ) (value : α) : List (κ × α) → List (κ × α)
  | [] => [(key, value)]
  | entry :: rest =>
    if entry.1 = key then (key, value) :: rest else entry :: putIn key value rest

def get? (table : Table κ α) (key : κ) : Option α := findIn key table.entries

def insert (table : Table κ α) (key : κ) (value : α) : Table κ α := ⟨putIn key value table.entries⟩

/-- Writes the given entries from left to right. -/
def insertAll (table : Table κ α) (entries : List (κ × α)) : Table κ α :=
  entries.foldl (fun table entry => table.insert entry.1 entry.2) table

def keys (table : Table κ α) : List κ := table.entries.map (·.1)

def values (table : Table κ α) : List α := table.entries.map (·.2)

def size (table : Table κ α) : Nat := table.entries.length

theorem findIn_putIn (key other : κ) (value : α) (entries : List (κ × α)) :
    findIn other (putIn key value entries) =
      if key = other then some value else findIn other entries := by
  induction entries with
  | nil => rfl
  | cons entry rest ih =>
    by_cases h : entry.1 = key
    · subst h
      by_cases h' : entry.1 = other <;> simp [putIn, findIn, h']
    · by_cases h' : entry.1 = other
      · subst h'
        simp [putIn, findIn, h, Ne.symm h]
      · simp [putIn, findIn, h, h', ih]

/-- A written value is what the key holds, and every other key holds what it held. -/
@[simp]
theorem get?_insert (table : Table κ α) (key other : κ) (value : α) :
    (table.insert key value).get? other = if key = other then some value else table.get? other :=
  findIn_putIn key other value table.entries

@[simp]
theorem get?_empty (key : κ) : (empty : Table κ α).get? key = none := rfl

/-- What a key holds was written under it. -/
theorem mem_entries_of_get? {table : Table κ α} {key : κ} {value : α}
    (h : table.get? key = some value) : (key, value) ∈ table.entries := by
  obtain ⟨entries⟩ := table
  induction entries with
  | nil => simp [get?, findIn] at h
  | cons entry rest ih =>
    by_cases he : entry.1 = key
    · obtain rfl : entry.2 = value := by simpa [get?, findIn, he] using h
      exact he ▸ List.mem_cons_self
    · exact List.mem_cons_of_mem _ (ih (by simpa [get?, findIn, he] using h))

theorem putIn_of_not_mem {key : κ} {value : α} {entries : List (κ × α)}
    (h : key ∉ entries.map (·.1)) : putIn key value entries = entries ++ [(key, value)] := by
  induction entries with
  | nil => rfl
  | cons entry rest ih =>
    simp only [List.map_cons, List.mem_cons, not_or] at h
    simp [putIn, Ne.symm h.1, ih h.2]

/-- A new key goes to the end of the listing. -/
theorem keys_insert_of_not_mem {table : Table κ α} {key : κ} {value : α}
    (h : key ∉ table.keys) : (table.insert key value).keys = table.keys ++ [key] := by
  simp [keys, insert, putIn_of_not_mem h]

theorem map_fst_putIn_of_mem {key : κ} {value : α} {entries : List (κ × α)}
    (h : key ∈ entries.map (·.1)) :
    (putIn key value entries).map (·.1) = entries.map (·.1) := by
  induction entries with
  | nil => simp at h
  | cons entry rest ih =>
    by_cases he : entry.1 = key
    · simp [putIn, he]
    · simp only [List.map_cons, List.mem_cons] at h
      simp [putIn, he, ih (h.resolve_left (Ne.symm he))]

/-- Writing to a key that is there keeps the listing of keys. -/
theorem keys_insert_of_mem {table : Table κ α} {key : κ} {value : α}
    (h : key ∈ table.keys) : (table.insert key value).keys = table.keys :=
  map_fst_putIn_of_mem h

end Table

end Mica
