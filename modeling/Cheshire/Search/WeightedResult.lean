import Cheshire.Lib.Buffer
import Cheshire.Fault

/-!
# Result sets

A search produces a `weighted_result`: a header with flags, bounds and a hit count, followed by an
allocated block of entries of which the first `num_hits` are the result.  Weights are exact
rationals.
-/

namespace Cheshire.Search

open Lib

def PROBABILISTIC_RESULT : ℕ := 1
def FEEDBACK_RESULT : ℕ := 1 <<< 1
def CLUSTER_RESULT : ℕ := 1 <<< 2
def PAGED_RESULT : ℕ := 1 <<< 3
def PAGED_DOC_RESULT : ℕ := 1 <<< 4
def COMPONENT_RESULT : ℕ := 1 <<< 5
def VIRTUAL_RESULT : ℕ := 1 <<< 7
def OKAPI_RESULT : ℕ := 1 <<< 9
def CORI_RESULT : ℕ := 1 <<< 10
def BITMAP_RESULT : ℕ := 1 <<< 11
def FUZZY_RESULT : ℕ := 1 <<< 12
def FUZZY_REQUEST : ℕ := 1 <<< 13
def BLOB_RESULT : ℕ := 1 <<< 14
def GEORANK_RESULT : ℕ := 1 <<< 15
def TFIDF_RESULT : ℕ := 1 <<< 16

def BOOLEAN_AND : ℕ := 0
def BOOLEAN_OR : ℕ := 1
def BOOLEAN_NOT : ℕ := 2

/-- The flags under which entries carry a rank instead of a mere match. -/
def RANKED_FLAGS : ℕ :=
  PROBABILISTIC_RESULT ||| OKAPI_RESULT ||| TFIDF_RESULT ||| CORI_RESULT ||| FUZZY_RESULT |||
    BLOB_RESULT ||| GEORANK_RESULT

/-- The flags that send a Boolean operator to another routine or to another representation. -/
def STRUCTURED_FLAGS : ℕ :=
  VIRTUAL_RESULT ||| BITMAP_RESULT ||| PAGED_RESULT ||| COMPONENT_RESULT

/-- `weighted_entry`; the extra data is a pointer, of which only the address is kept. -/
structure WeightedEntry where
  recordNum : ℤ
  xtra : ℕ
  weight : ℚ
deriving DecidableEq, Repr

/-- What `CALLOC` leaves in an entry. -/
def WeightedEntry.zero : WeightedEntry := ⟨0, 0, 0⟩

/-- `weighted_result`; `entries` is the whole allocated block. -/
structure WeightedResult where
  setid : String
  filename : String
  resultType : ℕ
  component : Option ℕ
  termid : List ℤ
  numHits : ℤ
  resultWeight : ℚ
  maxWeight : ℚ
  minWeight : ℚ
  entries : List WeightedEntry
deriving DecidableEq, Repr

namespace WeightedResult

/-- `set->result_type & flag` as a condition. -/
def has (set : WeightedResult) (flag : ℕ) : Bool := set.resultType &&& flag != 0

def hits (set : WeightedResult) : List WeightedEntry := set.entries.take set.numHits.toNat

def recordNums (set : WeightedResult) : List ℤ := set.hits.map WeightedEntry.recordNum

/-- The set a Boolean search of one database builds: every entry has weight one. -/
def ofRecords (filename : String) (records : List ℤ) : WeightedResult where
  setid := ""
  filename := filename
  resultType := 0
  component := none
  termid := []
  numHits := records.length
  resultWeight := 0
  maxWeight := 1
  minWeight := 1
  entries := records.map fun record ↦ ⟨record, 0, 1⟩

/-- `set->entries[index]` -/
def entryAt (set : WeightedResult) (index : ℕ) : Exec WeightedEntry :=
  match set.entries[index]? with
  | some entry => .ok entry
  | none => .error .outOfBounds

/-- The hit count is a length that the allocated block covers. -/
structure Allocated (set : WeightedResult) : Prop where
  nonneg : 0 ≤ set.numHits
  covered : set.numHits.toNat ≤ set.entries.length

/-- An allocated set whose entries are strictly increasing in record number, with none of the
flags that ask for another representation or for ranked merging. -/
structure Plain (set : WeightedResult) : Prop extends Allocated set where
  increasing : set.recordNums.Pairwise (· < ·)
  unflagged : set.resultType &&& (STRUCTURED_FLAGS ||| RANKED_FLAGS) = 0

variable {set : WeightedResult}

theorem Allocated.length_hits (h : set.Allocated) : set.hits.length = set.numHits.toNat := by
  rw [hits, List.length_take, min_eq_left h.covered]

theorem Allocated.length_recordNums (h : set.Allocated) :
    set.recordNums.length = set.numHits.toNat := by
  rw [recordNums, List.length_map, h.length_hits]

theorem Allocated.entryAt (h : set.Allocated) {index : ℕ} (hlt : (index : ℤ) < set.numHits) :
    ∃ entry, set.entryAt index = .ok entry ∧
      set.hits.drop index = entry :: set.hits.drop (index + 1) := by
  have hindex : index < set.hits.length := by rw [h.length_hits]; omega
  have hcell : index < set.entries.length := by
    have := h.covered
    omega
  refine ⟨set.entries[index], by simp [WeightedResult.entryAt, hcell], ?_⟩
  rw [List.drop_eq_getElem_cons hindex]
  simp [hits]

theorem Allocated.drop_eq_nil (h : set.Allocated) {index : ℕ} (hle : ¬(index : ℤ) < set.numHits) :
    set.hits.drop index = [] := by
  rw [List.drop_eq_nil_iff, h.length_hits]
  omega

/-- An allocated set with none of the flags that ask for another representation or for ranked
merging, in whatever order. -/
structure Unflagged (set : WeightedResult) : Prop extends Allocated set where
  unflagged : set.resultType &&& (STRUCTURED_FLAGS ||| RANKED_FLAGS) = 0

theorem Plain.toUnflagged (h : set.Plain) : set.Unflagged := ⟨h.toAllocated, h.unflagged⟩

theorem Unflagged.not_has (h : set.Unflagged) (flag : ℕ)
    (hflag : (STRUCTURED_FLAGS ||| RANKED_FLAGS) &&& flag = flag) : set.has flag = false := by
  have hzero : set.resultType &&& flag = 0 := by
    rw [← hflag, ← Nat.land_assoc, h.unflagged, Nat.zero_and]
  simp [has, hzero]

theorem Unflagged.not_ranked (h : set.Unflagged) : set.resultType &&& RANKED_FLAGS = 0 := by
  have hranked : (STRUCTURED_FLAGS ||| RANKED_FLAGS) &&& RANKED_FLAGS = RANKED_FLAGS := by decide
  rw [← hranked, ← Nat.land_assoc, h.unflagged, Nat.zero_and]

theorem Plain.not_has (h : set.Plain) (flag : ℕ)
    (hflag : (STRUCTURED_FLAGS ||| RANKED_FLAGS) &&& flag = flag) : set.has flag = false :=
  h.toUnflagged.not_has flag hflag

end WeightedResult

/-- `se_dup_result_set`; the copy is one entry longer than the result. -/
def seDupResultSet (set : WeightedResult) : Exec WeightedResult :=
  if set.numHits.toNat ≤ set.entries.length then
    .ok { set with
      entries :=
        if set.numHits.toNat = 0 then set.entries.take 1
        else set.entries.take set.numHits.toNat ++ [WeightedEntry.zero] }
  else .error .outOfBounds

end Cheshire.Search
