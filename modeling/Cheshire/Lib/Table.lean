import Cheshire.Lib.Tally

/-!
# Hash tables

A hash table keeps one value for each of its keys, and the order in which the keys first came.  A loop
over items enters the key of an item if it is new and changes its value otherwise.  A walk over the table
goes from bucket to bucket, as `Buckets.walk` does; where its order does not matter the entries are taken
as they are.
-/

namespace Cheshire.Lib

variable {κ ν : Type*}

structure Table (κ ν : Type*) where
  entries : List (κ × ν)
  nodup : (entries.map Prod.fst).Nodup

namespace Table

def keys (table : Table κ ν) : List κ := table.entries.map Prod.fst

def empty : Table κ ν := ⟨[], List.nodup_nil⟩

theorem nodup_mapValues {μ : Type*} (f : ν → μ) (table : Table κ ν) :
    ((table.entries.map (Prod.map id f)).map Prod.fst).Nodup := by
  rw [List.map_map]
  exact table.nodup

def mapValues {μ : Type*} (f : ν → μ) (table : Table κ ν) : Table κ μ where
  entries := table.entries.map (Prod.map id f)
  nodup := nodup_mapValues f table

theorem keys_mapValues {μ : Type*} (f : ν → μ) (table : Table κ ν) : (table.mapValues f).keys = table.keys :=
  List.map_map

variable [DecidableEq κ]

/-- `Tcl_FindHashEntry` -/
def find? (table : Table κ ν) (key : κ) : Option ν := table.entries.lookup key

/-- The entries with a new value under a key. -/
def entered (entries : List (κ × ν)) (key : κ) (value : ν) : List (κ × ν) :=
  if key ∈ entries.map Prod.fst then
    entries.map fun entry ↦ if entry.1 = key then (entry.1, value) else entry
  else entries ++ [(key, value)]

theorem keys_entered (entries : List (κ × ν)) (key : κ) (value : ν) :
    (entered entries key value).map Prod.fst =
      if key ∈ entries.map Prod.fst then entries.map Prod.fst
      else entries.map Prod.fst ++ [key] := by
  unfold entered
  split
  · rw [List.map_map]
    apply List.map_congr_left
    intro entry _
    simp only [Function.comp_apply]
    split <;> rfl
  · simp

theorem nodup_entered {entries : List (κ × ν)} (hnodup : (entries.map Prod.fst).Nodup) (key : κ)
    (value : ν) : ((entered entries key value).map Prod.fst).Nodup := by
  rw [keys_entered]
  split
  · exact hnodup
  · next hnew =>
    rw [← List.concat_eq_append]
    exact hnodup.concat hnew

/-- `Tcl_SetHashValue` under an old or a new key. -/
def enter (table : Table κ ν) (key : κ) (value : ν) : Table κ ν where
  entries := entered table.entries key value
  nodup := nodup_entered table.nodup key value

variable (table : Table κ ν)

theorem mem_keys_enter (key other : κ) (value : ν) :
    other ∈ (table.enter key value).keys ↔ other = key ∨ other ∈ table.keys := by
  change other ∈ (entered table.entries key value).map Prod.fst ↔ _
  rw [keys_entered]
  split
  · next hold =>
    constructor
    · exact Or.inr
    · rintro (rfl | hmem)
      · exact hold
      · exact hmem
  · rw [List.mem_append, List.mem_singleton, or_comm]
    rfl

@[simp] theorem find?_empty (key : κ) : (empty : Table κ ν).find? key = none := rfl

theorem find?_of_mem {entry : κ × ν} (hentry : entry ∈ table.entries) :
    table.find? entry.1 = some entry.2 := Tally.lookup_of_mem table.nodup hentry

theorem find?_eq_none_iff (key : κ) : table.find? key = none ↔ key ∉ table.keys := by
  constructor
  · intro hnone hkey
    obtain ⟨entry, hentry, rfl⟩ := List.mem_map.mp hkey
    rw [table.find?_of_mem hentry] at hnone
    cases hnone
  · exact Tally.lookup_of_not_mem

theorem keys_enter_of_mem {key : κ} (hmem : key ∈ table.keys) (value : ν) :
    (table.enter key value).keys = table.keys :=
  (keys_entered table.entries key value).trans (if_pos hmem)

theorem mem_entries_iff (key : κ) (value : ν) :
    (key, value) ∈ table.entries ↔ table.find? key = some value := by
  constructor
  · exact table.find?_of_mem
  · intro hfind
    have hkey : key ∈ table.keys := by
      by_contra hnot
      rw [(table.find?_eq_none_iff key).mpr hnot] at hfind
      cases hfind
    obtain ⟨entry, hentry, rfl⟩ := List.mem_map.mp hkey
    rw [table.find?_of_mem hentry] at hfind
    rw [← Option.some.inj hfind]
    exact hentry

theorem find?_enter_self (key : κ) (value : ν) :
    (table.enter key value).find? key = some value := by
  rw [← mem_entries_iff]
  change _ ∈ entered table.entries key value
  unfold entered
  split
  · next hold =>
    obtain ⟨entry, hentry, rfl⟩ := List.mem_map.mp hold
    exact List.mem_map.mpr ⟨entry, hentry, if_pos rfl⟩
  · exact List.mem_append_right _ (List.mem_singleton_self _)

theorem find?_enter_of_ne {key other : κ} (hne : other ≠ key) (value : ν) :
    (table.enter key value).find? other = table.find? other := by
  cases hfind : table.find? other with
  | none =>
    rw [find?_eq_none_iff, mem_keys_enter, not_or, ← find?_eq_none_iff]
    exact ⟨hne, hfind⟩
  | some found =>
    rw [← mem_entries_iff] at hfind ⊢
    change _ ∈ entered table.entries key value
    unfold entered
    split
    · exact List.mem_map.mpr ⟨_, hfind, if_neg hne⟩
    · exact List.mem_append_left _ hfind

theorem find?_enter (key other : κ) (value : ν) :
    (table.enter key value).find? other = if other = key then some value else table.find? other := by
  by_cases heq : other = key
  · rw [if_pos heq, heq, find?_enter_self]
  · rw [if_neg heq, find?_enter_of_ne _ heq]

end Table

end Cheshire.Lib
