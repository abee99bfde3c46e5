import Cheshire.Search.BooleanMergeSets

/-!
# Merging ranked sets

`se_sortwtset` and `se_rank_docs` call `qsort` on the hits of a set.  A ranked operand is brought
back into record order before the merge and the result into rank order after it, so the merged
records are those of the set operation whatever the order of the operands.  A set that can be
merged must therefore be in record order only when it carries no ranked flag.
-/

namespace Cheshire.Search

open Lib Lib.SortedMerge

theorem WeightedResult.has_eq_false_iff (set : WeightedResult) (flag : ℕ) :
    set.has flag = false ↔ set.resultType &&& flag = 0 := by
  simp [WeightedResult.has]

/-- `qsort(set->entries, set->num_hits, ...)`, which leaves the rest of the block alone. -/
def WeightedResult.qsort (set : WeightedResult) (compare : WeightedEntry → WeightedEntry → ℤ) :
    WeightedResult :=
  { set with
    entries := set.hits.insertionSort (fun e1 e2 ↦ compare e1 e2 ≤ 0) ++
      set.entries.drop set.numHits.toNat }

/-- Entries with one record number are ordered by the address of their extra data. -/
def compareWtEntries (e1 e2 : WeightedEntry) : ℤ :=
  if e1.recordNum < e2.recordNum then -1
  else if e1.recordNum = e2.recordNum then
    if e1.xtra < e2.xtra then -1 else if e1.xtra > e2.xtra then 1 else 0
  else 1

def seSortwtset (set : WeightedResult) : WeightedResult := set.qsort compareWtEntries

/-- The higher weight comes first. -/
def compareWeights (ent1 ent2 : WeightedEntry) : ℤ :=
  if ent1.weight < ent2.weight then 1 else if ent1.weight = ent2.weight then 0 else -1

def seRankDocs (src : WeightedResult) : WeightedResult := src.qsort compareWeights

theorem WeightedResult.Allocated.length_ahead {set : WeightedResult} (h : set.Allocated) (i : ℕ) :
    (set.ahead i).length = set.numHits.toNat - i := by
  rw [WeightedResult.ahead, List.length_map, List.length_drop, h.length_hits]

section Sorting

variable {set : WeightedResult} (compare : WeightedEntry → WeightedEntry → ℤ)

theorem WeightedResult.Allocated.hits_qsort (h : set.Allocated) :
    (set.qsort compare).hits = set.hits.insertionSort (fun e1 e2 ↦ compare e1 e2 ≤ 0) := by
  unfold WeightedResult.qsort
  rw [WeightedResult.hits]
  exact List.take_left' (by rw [List.length_insertionSort, h.length_hits])

theorem WeightedResult.Allocated.qsort (h : set.Allocated) : (set.qsort compare).Allocated where
  nonneg := h.nonneg
  covered := by
    have hlength := h.length_hits
    have hcovered := h.covered
    simp only [WeightedResult.qsort, List.length_append, List.length_insertionSort, hlength]
    omega

theorem WeightedResult.Allocated.perm_recordNums_qsort (h : set.Allocated) :
    (set.qsort compare).recordNums.Perm set.recordNums := by
  rw [WeightedResult.recordNums, WeightedResult.recordNums, h.hits_qsort]
  exact (List.perm_insertionSort _ _).map _

theorem compareWtEntries_total (e1 e2 : WeightedEntry) :
    compareWtEntries e1 e2 ≤ 0 ∨ compareWtEntries e2 e1 ≤ 0 := by
  unfold compareWtEntries
  split_ifs <;> omega

theorem compareWtEntries_trans (e1 e2 e3 : WeightedEntry) (h12 : compareWtEntries e1 e2 ≤ 0)
    (h23 : compareWtEntries e2 e3 ≤ 0) : compareWtEntries e1 e3 ≤ 0 := by
  unfold compareWtEntries at *
  split_ifs at * <;> omega

theorem recordNum_le_of_compareWtEntries {e1 e2 : WeightedEntry}
    (h : compareWtEntries e1 e2 ≤ 0) : e1.recordNum ≤ e2.recordNum := by
  unfold compareWtEntries at h
  split_ifs at h <;> omega

instance : Std.Total fun e1 e2 ↦ compareWtEntries e1 e2 ≤ 0 := ⟨compareWtEntries_total⟩

instance : IsTrans WeightedEntry fun e1 e2 ↦ compareWtEntries e1 e2 ≤ 0 :=
  ⟨compareWtEntries_trans⟩

theorem WeightedResult.Allocated.sorted_seSortwtset (h : set.Allocated) :
    (seSortwtset set).recordNums.Pairwise (· ≤ ·) := by
  rw [seSortwtset, WeightedResult.recordNums, h.hits_qsort, List.pairwise_map]
  exact (List.pairwise_insertionSort _ set.hits).imp recordNum_le_of_compareWtEntries

end Sorting

/-- A set of distinct records that is in record order unless it is ranked. -/
structure WeightedResult.Sortable (set : WeightedResult) : Prop extends Allocated set where
  distinct : set.recordNums.Nodup
  ordered : set.has RANKED_FLAGS = false → set.recordNums.Pairwise (· < ·)

/-- A sortable set that asks for no other representation. -/
structure WeightedResult.Mergeable (set : WeightedResult) : Prop extends Sortable set where
  unstructured : set.resultType &&& STRUCTURED_FLAGS = 0

theorem WeightedResult.Plain.mergeable {set : WeightedResult} (h : set.Plain) : set.Mergeable where
  toAllocated := h.toAllocated
  distinct := h.increasing.imp fun hlt ↦ hlt.ne
  ordered := fun _ ↦ h.increasing
  unstructured := by
    have hflags : (STRUCTURED_FLAGS ||| RANKED_FLAGS) &&& STRUCTURED_FLAGS = STRUCTURED_FLAGS := by
      decide
    rw [← hflags, ← Nat.land_assoc, h.unflagged, Nat.zero_and]

theorem WeightedResult.Mergeable.not_has {set : WeightedResult} (h : set.Mergeable) (flag : ℕ)
    (hflag : STRUCTURED_FLAGS &&& flag = flag) : set.has flag = false := by
  have hzero : set.resultType &&& flag = 0 := by
    rw [← hflag, ← Nat.land_assoc, h.unstructured, Nat.zero_and]
  exact (WeightedResult.has_eq_false_iff _ _).mpr hzero

/-- The two sorts are the library's. -/
structure SortingCallees (callees : MergeCallees) : Prop where
  seSortwtset_eq : callees.seSortwtset = seSortwtset
  seRankDocs_eq : callees.seRankDocs = seRankDocs

section Preparation

variable {callees : MergeCallees} {set : WeightedResult}

theorem SortingCallees.perm_inRecordOrder (hsorts : SortingCallees callees) (h : set.Allocated) :
    (inRecordOrder callees set).recordNums.Perm set.recordNums := by
  unfold inRecordOrder
  split
  · rw [hsorts.seSortwtset_eq]
    exact h.perm_recordNums_qsort compareWtEntries
  · exact List.Perm.refl _

theorem SortingCallees.allocated_inRecordOrder (hsorts : SortingCallees callees)
    (h : set.Allocated) : (inRecordOrder callees set).Allocated := by
  unfold inRecordOrder
  split
  · rw [hsorts.seSortwtset_eq]
    exact h.qsort compareWtEntries
  · exact h

theorem SortingCallees.increasing_inRecordOrder (hsorts : SortingCallees callees)
    (h : set.Sortable) : (inRecordOrder callees set).recordNums.Pairwise (· < ·) := by
  have hperm := hsorts.perm_inRecordOrder h.toAllocated
  unfold inRecordOrder at hperm ⊢
  split at hperm
  · rename_i hranked
    rw [if_pos hranked]
    rw [hsorts.seSortwtset_eq] at hperm ⊢
    have hnodup : (seSortwtset set).recordNums.Nodup := hperm.nodup_iff.mpr h.distinct
    exact h.sorted_seSortwtset.imp₂ (fun a b hle hne ↦ lt_of_le_of_ne hle hne) hnodup
  · rename_i hranked
    rw [if_neg hranked]
    exact h.ordered (by simpa using hranked)

theorem inRecordOrder_header (hsorts : SortingCallees callees) :
    (inRecordOrder callees set).filename = set.filename ∧
      (inRecordOrder callees set).numHits = set.numHits ∧
      (inRecordOrder callees set).component = set.component := by
  unfold inRecordOrder
  split
  · rw [hsorts.seSortwtset_eq]
    exact ⟨rfl, rfl, rfl⟩
  · exact ⟨rfl, rfl, rfl⟩

end Preparation

/-- A set with the given header that lists each of its members once, in increasing order when
`flags`, the ranked flags of its operands, are zero. -/
structure Merged (set : WeightedResult) (filename : String) (component : Option ℕ)
    (resultType flags : ℕ) (members : ℤ → Prop) : Prop extends set.Allocated where
  filename_eq : set.filename = filename
  component_eq : set.component = component
  resultType_eq : set.resultType = resultType ||| flags
  distinct : set.recordNums.Nodup
  ordered : flags = 0 → set.recordNums.Pairwise (· < ·)
  mem_iff : ∀ record, record ∈ set.recordNums ↔ members record

theorem Merged.sortable {set : WeightedResult} {filename : String} {component : Option ℕ}
    {resultType flags : ℕ} {members : ℤ → Prop}
    (h : Merged set filename component resultType flags members)
    (hflags : flags &&& RANKED_FLAGS = flags) : set.Sortable where
  toAllocated := h.toAllocated
  distinct := h.distinct
  ordered := by
    intro hranked
    apply h.ordered
    have hzero := (WeightedResult.has_eq_false_iff _ _).mp hranked
    rw [h.resultType_eq, Nat.and_or_distrib_right, hflags] at hzero
    exact (Nat.or_eq_zero_iff.mp hzero).2

theorem probFlag_ranked (set1 set2 : WeightedResult) :
    probFlag set1 set2 &&& RANKED_FLAGS = probFlag set1 set2 := by
  unfold probFlag
  rw [Nat.and_or_distrib_right, Nat.land_assoc, Nat.land_assoc, Nat.and_self]

/-- A set with the given header whose hits are `records`, ranked when `flags` are not zero. -/
structure MergedFrom (set : WeightedResult) (filename : String) (component : Option ℕ)
    (resultType flags : ℕ) (records : List ℤ) : Prop extends set.Allocated where
  filename_eq : set.filename = filename
  component_eq : set.component = component
  resultType_eq : set.resultType = resultType ||| flags
  perm : set.recordNums.Perm records
  in_order : flags = 0 → set.recordNums = records

theorem MergedFrom.merged {set : WeightedResult} {filename : String} {component : Option ℕ}
    {resultType flags : ℕ} {records : List ℤ} {members : ℤ → Prop}
    (h : MergedFrom set filename component resultType flags records)
    (hincreasing : records.Pairwise (· < ·))
    (hmem : ∀ record, record ∈ records ↔ members record) :
    Merged set filename component resultType flags members where
  toAllocated := h.toAllocated
  filename_eq := h.filename_eq
  component_eq := h.component_eq
  resultType_eq := h.resultType_eq
  distinct := h.perm.nodup_iff.mpr (hincreasing.imp fun hlt ↦ hlt.ne)
  ordered := fun hflags ↦ h.in_order hflags ▸ hincreasing
  mem_iff := fun record ↦ h.perm.mem_iff.trans (hmem record)

theorem MergedExactly.ranked {callees : MergeCallees} (hsorts : SortingCallees callees)
    {set : WeightedResult} {total : ℕ} {records : List ℤ} (h : MergedExactly set total records)
    (flags : ℕ) :
    MergedFrom (ranked callees flags set) set.filename set.component set.resultType flags
      records := by
  have halloc : set.Allocated := by
    have hlength := congrArg List.length h.recordNums_eq
    rw [WeightedResult.recordNums, List.length_map, WeightedResult.hits, List.length_take] at hlength
    have hnum := h.numHits_eq
    exact ⟨by omega, by omega⟩
  by_cases hflags : flags = 0
  · subst hflags
    exact ⟨halloc, rfl, rfl, by simp [Search.ranked], List.Perm.of_eq h.recordNums_eq,
      fun _ ↦ h.recordNums_eq⟩
  · have halloc' : { set with resultType := set.resultType ||| flags }.Allocated :=
      ⟨halloc.nonneg, halloc.covered⟩
    have hranked : Search.ranked callees flags set =
        { set with resultType := set.resultType ||| flags }.qsort compareWeights := by
      rw [Search.ranked, if_pos hflags, hsorts.seRankDocs_eq, seRankDocs]
    have hperm := halloc'.perm_recordNums_qsort compareWeights
    rw [hranked]
    refine ⟨halloc'.qsort _, rfl, rfl, rfl, ?_, fun hzero ↦ absurd hzero hflags⟩
    rw [← h.recordNums_eq]
    exact hperm

theorem NewSet.Filled.merged {callees : MergeCallees} (hsorts : SortingCallees callees)
    {newset : NewSet} {total : ℕ} {out : List WeightedEntry} (h : newset.Filled total out)
    (hle : out.length ≤ total) (filename : String) (component : Option ℕ) (resultType : ℕ)
    (resultWeight : ℚ) (flags : ℕ) :
    MergedFrom (ranked callees flags (newset.finish filename component resultType resultWeight))
      filename component resultType flags (out.map WeightedEntry.recordNum) :=
  (h.finish hle filename component resultType resultWeight).ranked hsorts flags

section Operators

variable {callees : MergeCallees} {inset1 inset2 : WeightedResult} {paged comp : Operands}

/-- Neither operand asks for another routine. -/
structure Direct (inset1 inset2 : WeightedResult) : Prop where
  virtual1 : inset1.has VIRTUAL_RESULT = false
  virtual2 : inset2.has VIRTUAL_RESULT = false
  bitmap1 : inset1.has BITMAP_RESULT = false
  bitmap2 : inset2.has BITMAP_RESULT = false

/-- Operands in the order in which they are merged. -/
structure Prepared (callees : MergeCallees) (comp : Operands) : Prop where
  allocated1 : (inRecordOrder callees comp.set1).Allocated
  allocated2 : (inRecordOrder callees comp.set2).Allocated

theorem SortingCallees.prepared (hsorts : SortingCallees callees) (h1 : comp.set1.Allocated)
    (h2 : comp.set2.Allocated) : Prepared callees comp :=
  ⟨hsorts.allocated_inRecordOrder h1, hsorts.allocated_inRecordOrder h2⟩

theorem seAndmerge_records (hsorts : SortingCallees callees) (hdirect : Direct inset1 inset2)
    (hpaged : pagedOperands callees inset1 inset2 = .ok paged)
    (hcomp : componentOperands callees inset1 inset2 paged.set1 paged.set2 = .ok comp)
    (hprepared : Prepared callees comp) :
    ∃ merged, seAndmerge callees (some inset1) (some inset2) = .ok (some merged) ∧
      MergedFrom merged inset1.filename (if comp.both then comp.set1.component else none)
        (mergedType paged comp (inset1.has FUZZY_REQUEST && inset1.has FUZZY_REQUEST))
        (probFlag comp.set1 comp.set2)
        (inter (inRecordOrder callees comp.set1).recordNums
          (inRecordOrder callees comp.set2).recordNums) := by
  have ha1 := hprepared.allocated1
  have ha2 := hprepared.allocated2
  obtain ⟨-, -, hc1⟩ := @inRecordOrder_header callees comp.set1 hsorts
  set set1 := inRecordOrder callees comp.set1 with hset1
  set set2 := inRecordOrder callees comp.set2 with hset2
  have hn1 := ha1.nonneg
  have hn2 := ha2.nonneg
  have htotal : (if set1.numHits < set2.numHits then set1.numHits.toNat
      else set2.numHits.toNat) = (min set1.numHits set2.numHits).toNat := by
    split <;> omega
  obtain ⟨newset, out, hloop, hfilled, hle, hout⟩ :=
    andLoop_spec ha1 ha2 (inset1.has FUZZY_REQUEST && inset1.has FUZZY_REQUEST)
      (probFlag comp.set1 comp.set2) (Int.self_le_toNat (min set1.numHits set2.numHits))
      (set1.numHits.toNat + set2.numHits.toNat + 1) 0 0 (by omega) (NewSet.filled_alloc _)
      le_rfl le_rfl (by simpa using hn1) (by simpa using hn2)
  rw [WeightedResult.ahead_zero, WeightedResult.ahead_zero, List.map_nil, List.nil_append] at hout
  rw [← hout]
  refine ⟨_, ?_, hfilled.merged hsorts hle inset1.filename
    (if comp.both then comp.set1.component else none)
    (mergedType paged comp (inset1.has FUZZY_REQUEST && inset1.has FUZZY_REQUEST)) 0
    (probFlag comp.set1 comp.set2)⟩
  simp only [seAndmerge, hdirect.virtual1, hdirect.virtual2, hdirect.bitmap1, hdirect.bitmap2,
    hpaged, hcomp, bind, Except.bind, ← hset1, ← hset2, htotal, hloop, hc1]
  rfl

theorem seOrmerge_records (hsorts : SortingCallees callees) (hdirect : Direct inset1 inset2)
    (hpaged : pagedOperands callees inset1 inset2 = .ok paged)
    (hcomp : componentOperandsOr callees inset1 inset2 paged.set1 paged.set2 = .ok comp)
    (hprepared : Prepared callees comp) (addweights : ℕ) :
    ∃ merged, seOrmerge callees (some inset1) (some inset2) addweights = .ok (some merged) ∧
      MergedFrom merged comp.set1.filename (if comp.both then comp.set1.component else none)
        (mergedType paged comp (inset1.has FUZZY_REQUEST && inset2.has FUZZY_REQUEST))
        (probFlag comp.set1 comp.set2)
        (union (inRecordOrder callees comp.set1).recordNums
          (inRecordOrder callees comp.set2).recordNums) := by
  have ha1 := hprepared.allocated1
  have ha2 := hprepared.allocated2
  obtain ⟨hf1, -, hc1⟩ := @inRecordOrder_header callees comp.set1 hsorts
  set set1 := inRecordOrder callees comp.set1 with hset1
  set set2 := inRecordOrder callees comp.set2 with hset2
  have hn1 := ha1.nonneg
  have hn2 := ha2.nonneg
  obtain ⟨i1, i2, newset, out, hloop, hfilled, hlen, hj1, hj2, -, hout⟩ :=
    orLoop_spec ha1 ha2 addweights (inset1.has FUZZY_REQUEST && inset2.has FUZZY_REQUEST)
      (Int.self_le_toNat (set1.numHits + set2.numHits))
      (set1.numHits.toNat + set2.numHits.toNat + 1) 0 0 (by omega) (NewSet.filled_alloc _)
      le_rfl (by simpa using hn1) (by simpa using hn2)
  rw [WeightedResult.ahead_zero, WeightedResult.ahead_zero, List.map_nil, List.nil_append] at hout
  have hl1 := ha1.length_ahead i1
  have hl2 := ha2.length_ahead i2
  obtain ⟨newset1, out1, htail1, hfilled1, hout1⟩ :=
    orTail_spec ha1 addweights (set1.numHits.toNat + 1) i1 (by omega) hfilled (by omega)
  have hlen1 : out1.length = out.length + (set1.ahead i1).length := by
    simpa using congrArg List.length hout1
  obtain ⟨newset2, out2, htail2, hfilled2, hout2⟩ :=
    orTail_spec ha2 addweights (set2.numHits.toNat + 1) i2 (by omega) hfilled1 (by omega)
  have hle : out2.length ≤ (set1.numHits + set2.numHits).toNat := by
    have hlen2 : out2.length = out1.length + (set2.ahead i2).length := by
      simpa using congrArg List.length hout2
    omega
  rw [hout1, List.append_assoc, hout] at hout2
  rw [← hout2]
  refine ⟨_, ?_, hfilled2.merged hsorts hle comp.set1.filename
    (if comp.both then comp.set1.component else none)
    (mergedType paged comp (inset1.has FUZZY_REQUEST && inset2.has FUZZY_REQUEST))
    (if addweights ≠ 0 then min set1.resultWeight 1 + min set2.resultWeight 1 else 0)
    (probFlag comp.set1 comp.set2)⟩
  simp only [seOrmerge, hdirect.virtual1, hdirect.virtual2, hdirect.bitmap1, hdirect.bitmap2,
    hpaged, hcomp, bind, Except.bind, ← hset1, ← hset2, hloop, htail1, htail2, hc1, hf1]
  rfl

theorem seNotmerge_records (hsorts : SortingCallees callees) (hdirect : Direct inset1 inset2)
    (hpaged : pagedOperands callees inset1 inset2 = .ok paged)
    (hcomp : componentOperands callees inset1 inset2 paged.set1 paged.set2 = .ok comp)
    (hprepared : Prepared callees comp) :
    ∃ merged, seNotmerge callees (some inset1) (some inset2) = .ok (some merged) ∧
      MergedFrom merged comp.set1.filename (if comp.both then comp.set1.component else none)
        (mergedType paged comp (inset1.has FUZZY_REQUEST && inset2.has FUZZY_REQUEST))
        (probFlag comp.set1 comp.set2)
        (diff (inRecordOrder callees comp.set1).recordNums
          (inRecordOrder callees comp.set2).recordNums) := by
  have ha1 := hprepared.allocated1
  have ha2 := hprepared.allocated2
  obtain ⟨hf1, -, hc1⟩ := @inRecordOrder_header callees comp.set1 hsorts
  set set1 := inRecordOrder callees comp.set1 with hset1
  set set2 := inRecordOrder callees comp.set2 with hset2
  have hn1 := ha1.nonneg
  have hn2 := ha2.nonneg
  have htotal : (if set1.numHits > set2.numHits then set1.numHits.toNat
      else set2.numHits.toNat) = (max set1.numHits set2.numHits).toNat := by
    split <;> omega
  have halloc := NewSet.filled_alloc (max set1.numHits set2.numHits).toNat
  obtain ⟨i1, newset, out, hloop, hfilled, hlen, hj1, hout⟩ :=
    notLoop_spec ha1 ha2 ((le_max_left set1.numHits set2.numHits).trans (Int.self_le_toNat _))
      (set1.numHits.toNat + set2.numHits.toNat + 1) 0 0 (by omega)
      (halloc.weights set1.maxWeight set1.minWeight) le_rfl (by simpa using hn1)
  rw [WeightedResult.ahead_zero, WeightedResult.ahead_zero, List.map_nil, List.nil_append] at hout
  have hl1 := ha1.length_ahead i1
  obtain ⟨newset', out', htail, hfilled', hout'⟩ :=
    notTail_spec ha1 (set1.numHits.toNat + 1) i1 (by omega) hfilled (by omega)
  have hle : out'.length ≤ (max set1.numHits set2.numHits).toNat := by
    have hlen' : out'.length = out.length + (set1.ahead i1).length := by
      simpa using congrArg List.length hout'
    omega
  rw [hout] at hout'
  rw [← hout']
  refine ⟨_, ?_, hfilled'.merged hsorts hle comp.set1.filename
    (if comp.both then comp.set1.component else none)
    (mergedType paged comp (inset1.has FUZZY_REQUEST && inset2.has FUZZY_REQUEST)) 0
    (probFlag comp.set1 comp.set2)⟩
  simp only [seNotmerge, hdirect.virtual1, hdirect.virtual2, hdirect.bitmap1, hdirect.bitmap2,
    hpaged, hcomp, bind, Except.bind, ← hset1, ← hset2, htotal, hloop, htail, hc1, hf1]
  rfl

theorem seAndmerge_operands (hsorts : SortingCallees callees) (hdirect : Direct inset1 inset2)
    (hpaged : pagedOperands callees inset1 inset2 = .ok paged)
    (hcomp : componentOperands callees inset1 inset2 paged.set1 paged.set2 = .ok comp)
    (h1 : comp.set1.Sortable) (h2 : comp.set2.Sortable) :
    ∃ merged, seAndmerge callees (some inset1) (some inset2) = .ok (some merged) ∧
      Merged merged inset1.filename (if comp.both then comp.set1.component else none)
        (mergedType paged comp (inset1.has FUZZY_REQUEST && inset1.has FUZZY_REQUEST))
        (probFlag comp.set1 comp.set2)
        (fun record ↦ record ∈ comp.set1.recordNums ∧ record ∈ comp.set2.recordNums) := by
  have hi1 := hsorts.increasing_inRecordOrder h1
  have hi2 := hsorts.increasing_inRecordOrder h2
  obtain ⟨merged, hrun, hfrom⟩ := seAndmerge_records hsorts hdirect hpaged hcomp
    (hsorts.prepared h1.toAllocated h2.toAllocated)
  refine ⟨merged, hrun, hfrom.merged (strictlyIncreasing_inter _ hi1) ?_⟩
  intro record
  rw [mem_inter hi1 hi2, (hsorts.perm_inRecordOrder h1.toAllocated).mem_iff,
    (hsorts.perm_inRecordOrder h2.toAllocated).mem_iff]

theorem seOrmerge_operands (hsorts : SortingCallees callees) (hdirect : Direct inset1 inset2)
    (hpaged : pagedOperands callees inset1 inset2 = .ok paged)
    (hcomp : componentOperandsOr callees inset1 inset2 paged.set1 paged.set2 = .ok comp)
    (h1 : comp.set1.Sortable) (h2 : comp.set2.Sortable) (addweights : ℕ) :
    ∃ merged, seOrmerge callees (some inset1) (some inset2) addweights = .ok (some merged) ∧
      Merged merged comp.set1.filename (if comp.both then comp.set1.component else none)
        (mergedType paged comp (inset1.has FUZZY_REQUEST && inset2.has FUZZY_REQUEST))
        (probFlag comp.set1 comp.set2)
        (fun record ↦ record ∈ comp.set1.recordNums ∨ record ∈ comp.set2.recordNums) := by
  have hi1 := hsorts.increasing_inRecordOrder h1
  have hi2 := hsorts.increasing_inRecordOrder h2
  obtain ⟨merged, hrun, hfrom⟩ := seOrmerge_records hsorts hdirect hpaged hcomp
    (hsorts.prepared h1.toAllocated h2.toAllocated) addweights
  refine ⟨merged, hrun, hfrom.merged (strictlyIncreasing_union hi1 hi2) ?_⟩
  intro record
  rw [mem_union, (hsorts.perm_inRecordOrder h1.toAllocated).mem_iff,
    (hsorts.perm_inRecordOrder h2.toAllocated).mem_iff]

theorem seNotmerge_operands (hsorts : SortingCallees callees) (hdirect : Direct inset1 inset2)
    (hpaged : pagedOperands callees inset1 inset2 = .ok paged)
    (hcomp : componentOperands callees inset1 inset2 paged.set1 paged.set2 = .ok comp)
    (h1 : comp.set1.Sortable) (h2 : comp.set2.Sortable) :
    ∃ merged, seNotmerge callees (some inset1) (some inset2) = .ok (some merged) ∧
      Merged merged comp.set1.filename (if comp.both then comp.set1.component else none)
        (mergedType paged comp (inset1.has FUZZY_REQUEST && inset2.has FUZZY_REQUEST))
        (probFlag comp.set1 comp.set2)
        (fun record ↦ record ∈ comp.set1.recordNums ∧ record ∉ comp.set2.recordNums) := by
  have hi1 := hsorts.increasing_inRecordOrder h1
  have hi2 := hsorts.increasing_inRecordOrder h2
  obtain ⟨merged, hrun, hfrom⟩ := seNotmerge_records hsorts hdirect hpaged hcomp
    (hsorts.prepared h1.toAllocated h2.toAllocated)
  refine ⟨merged, hrun, hfrom.merged (strictlyIncreasing_diff _ hi1) ?_⟩
  intro record
  rw [mem_diff hi1 hi2, (hsorts.perm_inRecordOrder h1.toAllocated).mem_iff,
    (hsorts.perm_inRecordOrder h2.toAllocated).mem_iff]

variable {set1 set2 : WeightedResult}

theorem WeightedResult.Mergeable.direct (h1 : set1.Mergeable) (h2 : set2.Mergeable) :
    Direct set1 set2 where
  virtual1 := h1.not_has VIRTUAL_RESULT (by decide)
  virtual2 := h2.not_has VIRTUAL_RESULT (by decide)
  bitmap1 := h1.not_has BITMAP_RESULT (by decide)
  bitmap2 := h2.not_has BITMAP_RESULT (by decide)

theorem pagedOperands_mergeable (h1 : set1.Mergeable) (h2 : set2.Mergeable) :
    pagedOperands callees set1 set2 = .ok ⟨set1, set2, false, 0⟩ := by
  simp [pagedOperands, h1.not_has PAGED_RESULT (by decide), h2.not_has PAGED_RESULT (by decide)]

theorem componentOperands_mergeable (h1 : set1.Mergeable) (h2 : set2.Mergeable) :
    componentOperands callees set1 set2 set1 set2 = .ok ⟨set1, set2, false, 0⟩ := by
  simp [componentOperands, sameComponent, h1.not_has COMPONENT_RESULT (by decide),
    h2.not_has COMPONENT_RESULT (by decide)]

theorem componentOperandsOr_mergeable (h1 : set1.Mergeable) (h2 : set2.Mergeable) :
    componentOperandsOr callees set1 set2 set1 set2 = .ok ⟨set1, set2, false, 0⟩ := by
  simp [componentOperandsOr, sameComponent, h1.not_has COMPONENT_RESULT (by decide),
    h2.not_has COMPONENT_RESULT (by decide), bind, Except.bind]

theorem seAndmerge_mergeable (hsorts : SortingCallees callees) (h1 : set1.Mergeable)
    (h2 : set2.Mergeable) :
    ∃ merged, seAndmerge callees (some set1) (some set2) = .ok (some merged) ∧
      Merged merged set1.filename none
        (mergedType ⟨set1, set2, false, 0⟩ ⟨set1, set2, false, 0⟩
          (set1.has FUZZY_REQUEST && set1.has FUZZY_REQUEST))
        (probFlag set1 set2)
        (fun record ↦ record ∈ set1.recordNums ∧ record ∈ set2.recordNums) :=
  seAndmerge_operands hsorts (h1.direct h2) (pagedOperands_mergeable h1 h2)
    (componentOperands_mergeable h1 h2) h1.toSortable h2.toSortable

theorem seOrmerge_mergeable (hsorts : SortingCallees callees) (h1 : set1.Mergeable)
    (h2 : set2.Mergeable) (addweights : ℕ) :
    ∃ merged, seOrmerge callees (some set1) (some set2) addweights = .ok (some merged) ∧
      Merged merged set1.filename none
        (mergedType ⟨set1, set2, false, 0⟩ ⟨set1, set2, false, 0⟩
          (set1.has FUZZY_REQUEST && set2.has FUZZY_REQUEST))
        (probFlag set1 set2)
        (fun record ↦ record ∈ set1.recordNums ∨ record ∈ set2.recordNums) :=
  seOrmerge_operands hsorts (h1.direct h2) (pagedOperands_mergeable h1 h2)
    (componentOperandsOr_mergeable h1 h2) h1.toSortable h2.toSortable addweights

theorem seNotmerge_mergeable (hsorts : SortingCallees callees) (h1 : set1.Mergeable)
    (h2 : set2.Mergeable) :
    ∃ merged, seNotmerge callees (some set1) (some set2) = .ok (some merged) ∧
      Merged merged set1.filename none
        (mergedType ⟨set1, set2, false, 0⟩ ⟨set1, set2, false, 0⟩
          (set1.has FUZZY_REQUEST && set2.has FUZZY_REQUEST))
        (probFlag set1 set2)
        (fun record ↦ record ∈ set1.recordNums ∧ record ∉ set2.recordNums) :=
  seNotmerge_operands hsorts (h1.direct h2) (pagedOperands_mergeable h1 h2)
    (componentOperands_mergeable h1 h2) h1.toSortable h2.toSortable

end Operators

end Cheshire.Search
