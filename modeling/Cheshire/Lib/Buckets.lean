import Mathlib

/-!
# Walks over buckets

A chained hash table puts a new key in front of the chain of its bucket, and moves all of them to four
times as many buckets once there are three keys for each bucket.  A walk goes from bucket to bucket.
Its order depends on the history of the table, but it meets each key once.
-/

namespace Cheshire.Lib.Buckets

/-- After `rebuilds` enlargements there are `4 ^ (rebuilds + 1)` chains. -/
structure Chains (κ : Type*) where
  rebuilds : ℕ
  chains : List (List κ)

variable {κ : Type*} (index : ℕ → κ → ℕ)

def numBuckets (rebuilds : ℕ) : ℕ := 4 ^ (rebuilds + 1)

def init : Chains κ := ⟨0, List.replicate (numBuckets 0) []⟩

/-- The key becomes the first one of its chain. -/
def link (rebuilds : ℕ) (chains : List (List κ)) (key : κ) : List (List κ) :=
  chains.modify (index rebuilds key) (key :: ·)

/-- The keys are moved one by one, from the front of the chains. -/
def rebuild (table : Chains κ) : Chains κ where
  rebuilds := table.rebuilds + 1
  chains := table.chains.flatten.foldl (link index (table.rebuilds + 1))
    (List.replicate (numBuckets (table.rebuilds + 1)) [])

def create (table : Chains κ) (key : κ) : Chains κ :=
  let linked := { table with chains := link index table.rebuilds table.chains key }
  if 3 * numBuckets table.rebuilds ≤ linked.chains.flatten.length then rebuild index linked else linked

/-- The keys of a table as a walk meets them, when they were created in the given order. -/
def walk (keys : List κ) : List κ := (keys.foldl (create index) init).chains.flatten

variable {index}

theorem flatten_modify_perm (chains : List (List κ)) {place : ℕ} (hplace : place < chains.length) (key : κ) :
    (chains.modify place (key :: ·)).flatten.Perm (key :: chains.flatten) := by
  induction chains generalizing place with
  | nil => cases hplace
  | cons chain chains ih =>
    cases place with
    | zero => exact List.Perm.refl _
    | succ place =>
      have hrest := ih (Nat.lt_of_succ_lt_succ hplace)
      exact (hrest.append_left chain).trans List.perm_middle

section Walk

variable (hindex : ∀ rebuilds key, index rebuilds key < numBuckets rebuilds)
include hindex

theorem foldl_link_perm (rebuilds : ℕ) (keys : List κ) {chains : List (List κ)}
    (hlength : chains.length = numBuckets rebuilds) :
    (keys.foldl (link index rebuilds) chains).length = numBuckets rebuilds ∧
      (keys.foldl (link index rebuilds) chains).flatten.Perm (keys ++ chains.flatten) := by
  induction keys generalizing chains with
  | nil => exact ⟨hlength, List.Perm.refl _⟩
  | cons key keys ih =>
    have hlink := flatten_modify_perm chains (hlength ▸ hindex rebuilds key) key
    have hlinked : (link index rebuilds chains key).length = numBuckets rebuilds :=
      (List.length_modify ..).trans hlength
    obtain ⟨hlength', hperm⟩ := ih hlinked
    exact ⟨hlength', hperm.trans ((hlink.append_left keys).trans List.perm_middle)⟩

theorem create_perm {table : Chains κ} (hlength : table.chains.length = numBuckets table.rebuilds)
    (key : κ) :
    (create index table key).chains.length = numBuckets (create index table key).rebuilds ∧
      (create index table key).chains.flatten.Perm (key :: table.chains.flatten) := by
  obtain ⟨hlinked, hperm⟩ := foldl_link_perm hindex table.rebuilds [key] hlength
  rw [create]
  split_ifs
  · have hempty : (List.replicate (numBuckets (table.rebuilds + 1)) ([] : List κ)).length =
        numBuckets (table.rebuilds + 1) := List.length_replicate
    obtain ⟨hrebuilt, hmoved⟩ := foldl_link_perm hindex (table.rebuilds + 1)
      (link index table.rebuilds table.chains key).flatten hempty
    rw [List.flatten_replicate_nil, List.append_nil] at hmoved
    exact ⟨hrebuilt, hmoved.trans hperm⟩
  · exact ⟨hlinked, hperm⟩

theorem walk_perm (keys : List κ) : (walk index keys).Perm keys := by
  have hfold {table : Chains κ} (hlength : table.chains.length = numBuckets table.rebuilds) :
      (keys.foldl (create index) table).chains.flatten.Perm (keys ++ table.chains.flatten) := by
    induction keys generalizing table with
    | nil => exact List.Perm.refl _
    | cons key keys ih =>
      obtain ⟨hlength', hperm⟩ := create_perm hindex hlength key
      exact (ih hlength').trans ((hperm.append_left keys).trans List.perm_middle)
  have hinit : (init : Chains κ).chains.length = numBuckets (init : Chains κ).rebuilds :=
    List.length_replicate
  have hall := hfold hinit
  rwa [init, List.flatten_replicate_nil, List.append_nil] at hall

end Walk

end Cheshire.Lib.Buckets
