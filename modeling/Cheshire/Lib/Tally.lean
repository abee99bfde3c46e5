import Mathlib

/-!
# Tally tables

A tally table counts how often each key was put into it.  The keys stand in the order in which they
first came; each has one entry, and no entry counts nothing.
-/

namespace Cheshire.Lib

variable {α : Type*}

structure Tally (α : Type*) where
  entries : List (α × ℕ)
  nodup : (entries.map Prod.fst).Nodup
  counted : ∀ entry ∈ entries, 0 < entry.2

namespace Tally

def keys (table : Tally α) : List α := table.entries.map Prod.fst

def empty : Tally α := ⟨[], List.nodup_nil, List.forall_mem_nil _⟩

theorem lookup_of_mem {β : Type*} [BEq α] [LawfulBEq α] {entries : List (α × β)}
    (hnodup : (entries.map Prod.fst).Nodup) {entry : α × β} (hentry : entry ∈ entries) :
    entries.lookup entry.1 = some entry.2 := by
  induction entries with
  | nil => cases hentry
  | cons first entries ih =>
    rw [List.map_cons, List.nodup_cons] at hnodup
    rcases List.mem_cons.mp hentry with rfl | hrest
    · exact List.lookup_cons_self
    · have hne : entry.1 ≠ first.1 := fun heq ↦
        hnodup.1 (heq ▸ List.mem_map_of_mem hrest)
      rw [List.lookup_cons, beq_eq_false_iff_ne.mpr hne]
      exact ih hnodup.2 hrest

theorem lookup_of_not_mem {β : Type*} [BEq α] [LawfulBEq α] {entries : List (α × β)} {key : α}
    (hkey : key ∉ entries.map Prod.fst) : entries.lookup key = none := by
  rw [List.lookup_eq_none_iff]
  intro entry hentry
  have hne : entry.1 ≠ key := fun heq ↦ hkey (heq ▸ List.mem_map_of_mem hentry)
  simpa using hne.symm

variable [DecidableEq α]

/-- How often a key was counted. -/
def get (table : Tally α) (key : α) : ℕ := (table.entries.lookup key).getD 0

/-- The entries with one more occurrence of a key. -/
def bumped (entries : List (α × ℕ)) (key : α) : List (α × ℕ) :=
  if key ∈ entries.map Prod.fst then
    entries.map fun entry ↦ if entry.1 = key then (entry.1, entry.2 + 1) else entry
  else entries ++ [(key, 1)]

theorem keys_bumped (entries : List (α × ℕ)) (key : α) : (bumped entries key).map Prod.fst =
    if key ∈ entries.map Prod.fst then entries.map Prod.fst
    else entries.map Prod.fst ++ [key] := by
  unfold bumped
  split
  · rw [List.map_map]
    apply List.map_congr_left
    intro entry _
    simp only [Function.comp_apply]
    split <;> rfl
  · simp

theorem nodup_bumped {entries : List (α × ℕ)} (hnodup : (entries.map Prod.fst).Nodup) (key : α) :
    ((bumped entries key).map Prod.fst).Nodup := by
  rw [keys_bumped]
  split
  · exact hnodup
  · next hnew =>
    rw [← List.concat_eq_append]
    exact hnodup.concat hnew

theorem counted_bumped {entries : List (α × ℕ)} (hcounted : ∀ entry ∈ entries, 0 < entry.2)
    (key : α) : ∀ entry ∈ bumped entries key, 0 < entry.2 := by
  intro entry hentry
  unfold bumped at hentry
  split at hentry
  · obtain ⟨old, hold, rfl⟩ := List.mem_map.mp hentry
    have hpos := hcounted old hold
    split
    · exact Nat.succ_pos _
    · exact hpos
  · rcases List.mem_append.mp hentry with hold | hnew
    · exact hcounted entry hold
    · rw [List.mem_singleton.mp hnew]
      exact Nat.one_pos

def bump (table : Tally α) (key : α) : Tally α where
  entries := bumped table.entries key
  nodup := nodup_bumped table.nodup key
  counted := counted_bumped table.counted key

@[simp] theorem get_empty (key : α) : (empty : Tally α).get key = 0 := rfl

theorem get_of_mem (table : Tally α) {entry : α × ℕ} (hentry : entry ∈ table.entries) :
    table.get entry.1 = entry.2 := by
  rw [get, lookup_of_mem table.nodup hentry, Option.getD_some]

theorem get_of_not_mem (table : Tally α) {key : α} (hkey : key ∉ table.keys) :
    table.get key = 0 := by
  rw [get, lookup_of_not_mem hkey, Option.getD_none]

theorem mem_keys_iff (table : Tally α) (key : α) : key ∈ table.keys ↔ 0 < table.get key := by
  constructor
  · intro hkey
    obtain ⟨entry, hentry, rfl⟩ := List.mem_map.mp hkey
    rw [table.get_of_mem hentry]
    exact table.counted entry hentry
  · intro hpos
    by_contra hkey
    rw [table.get_of_not_mem hkey] at hpos
    exact Nat.lt_irrefl 0 hpos

theorem mem_entries_iff (table : Tally α) (key : α) (count : ℕ) :
    (key, count) ∈ table.entries ↔ table.get key = count ∧ 0 < count := by
  constructor
  · intro hentry
    exact ⟨table.get_of_mem hentry, table.counted _ hentry⟩
  · intro h
    have hkey : key ∈ table.keys := (table.mem_keys_iff key).mpr (h.1 ▸ h.2)
    obtain ⟨entry, hentry, rfl⟩ := List.mem_map.mp hkey
    rw [← h.1, table.get_of_mem hentry]
    exact hentry

theorem get_bump (table : Tally α) (key other : α) :
    (table.bump key).get other = table.get other + if other = key then 1 else 0 := by
  by_cases hin : other ∈ table.keys
  · obtain ⟨entry, hentry, rfl⟩ := List.mem_map.mp hin
    have hnew : (entry.1, entry.2 + if entry.1 = key then 1 else 0) ∈ (table.bump key).entries := by
      change _ ∈ bumped table.entries key
      unfold bumped
      split
      · refine List.mem_map.mpr ⟨entry, hentry, ?_⟩
        split <;> rfl
      · next hkey =>
        have hne : entry.1 ≠ key := fun heq ↦ hkey (heq ▸ hin)
        simpa [hne] using Or.inl hentry
    rw [table.get_of_mem hentry]
    exact (table.bump key).get_of_mem hnew
  · rw [table.get_of_not_mem hin, Nat.zero_add]
    by_cases heq : other = key
    · subst heq
      have hnew : (other, 1) ∈ (table.bump other).entries := by
        change _ ∈ bumped table.entries other
        unfold bumped
        split
        · contradiction
        · simp
      rw [if_pos rfl]
      exact (table.bump other).get_of_mem hnew
    · rw [if_neg heq]
      apply get_of_not_mem
      change other ∉ (bumped table.entries key).map Prod.fst
      rw [keys_bumped]
      split
      · exact hin
      · intro hmem
        rcases List.mem_append.mp hmem with hold | hnew
        · exact hin hold
        · exact heq (List.mem_singleton.mp hnew)

theorem get_foldl_bump [BEq α] [LawfulBEq α] (xs : List α) (table : Tally α) (key : α) :
    (xs.foldl bump table).get key = table.get key + xs.count key := by
  induction xs generalizing table with
  | nil => simp
  | cons x xs ih =>
    rw [List.foldl_cons, ih, get_bump, List.count_cons]
    have hcomm : (x == key) = decide (key = x) := by
      rw [Bool.eq_iff_iff, beq_iff_eq, decide_eq_true_iff, eq_comm]
    rw [hcomm]
    simp only [decide_eq_true_eq]
    omega

end Tally

end Cheshire.Lib
