import Cheshire.Search.ResultLevels

/-!
# Levels in whole queries

The restrictions and the pivot merge keep the header of one operand.  The proximity merge of two
component sets lists component numbers under a header without the component flag, and a hybrid
merge leaves the component type out.  A query marks all its results exactly when no operator in it
meets such operands.
-/

namespace Cheshire.Search

open Lib Lib.SortedMerge Lib.OperatorTree
open Index (ComponentKey ComponentDataItem)

section Stored

variable {set compset docset : WeightedResult} {size : ℕ} {cells cells' out : List WeightedEntry}
  {hitcount : ℕ}

theorem WeightedResult.Allocated.entryAt_mem (h : set.Allocated) {index : ℕ}
    (hindex : index < set.numHits.toNat) {entry : WeightedEntry}
    (hentry : set.entryAt index = .ok entry) : entry.recordNum ∈ set.recordNums := by
  obtain ⟨entry', hentry', hdrop⟩ := h.entryAt (show (index : ℤ) < set.numHits by omega)
  obtain rfl : entry = entry' := Except.ok.inj (hentry.symm.trans hentry')
  have hmem : entry ∈ set.hits.drop index := hdrop ▸ List.mem_cons_self
  exact List.mem_map_of_mem (List.mem_of_mem_drop hmem)

/-- The block holds entries of the set only. -/
structure StoredFrom (set : WeightedResult) (size : ℕ) (cells : List WeightedEntry)
    (hitcount : ℕ) : Prop where
  holds : ∃ out, Buffer.Holds WeightedEntry.zero size cells out ∧ hitcount = out.length ∧
    ∀ entry ∈ out, entry.recordNum ∈ set.recordNums

theorem storedFrom_calloc (set : WeightedResult) (size : ℕ) :
    StoredFrom set size (Buffer.calloc WeightedEntry.zero size) 0 :=
  ⟨[], Buffer.holds_calloc _ _, rfl, fun _ h ↦ absurd h List.not_mem_nil⟩

theorem StoredFrom.storeDoc (h : StoredFrom set size cells hitcount) {record : ℤ} {weight : ℚ}
    (hmem : record ∈ set.recordNums) (hstore : storeDoc cells hitcount record weight = .ok cells') :
    StoredFrom set size cells' (hitcount + 1) := by
  obtain ⟨out, hholds, rfl, hout⟩ := h.holds
  unfold Search.storeDoc at hstore
  rcases hcells : Buffer.store? cells out.length ⟨record, 0, weight⟩ with _ | stored
  · rw [hcells] at hstore
    cases hstore
  rw [hcells] at hstore
  obtain rfl : stored = cells' := Except.ok.inj hstore
  refine ⟨out ++ [⟨record, 0, weight⟩], hholds.of_store hcells, by simp, ?_⟩
  intro entry hentry
  rcases List.mem_append.mp hentry with hentry | hentry
  · exact hout entry hentry
  · rw [List.mem_singleton.mp hentry]
    exact hmem

theorem StoredFrom.levelled {numbering : Numbering} (h : StoredFrom set size cells hitcount)
    (hset : Levelled numbering set) : Levelled numbering (restrictedSet set cells hitcount) := by
  obtain ⟨out, hholds, rfl, hout⟩ := h.holds
  have hlength := hholds.length_cells
  have hle := hholds.length_le
  refine hset.of_same ⟨by simp [restrictedSet], ?_⟩ rfl rfl ?_
  · simp only [restrictedSet, Int.toNat_natCast]
    omega
  · intro number hnumber
    rw [WeightedResult.recordNums, WeightedResult.hits] at hnumber
    simp only [restrictedSet, Int.toNat_natCast, hholds.take] at hnumber
    obtain ⟨entry, hentry, rfl⟩ := List.mem_map.mp hnumber
    exact hout entry hentry

variable {result : List WeightedEntry × ℕ}

theorem copyComponents_stored (halloc : compset.Allocated) (minval maxval : ℤ) (js : List ℕ)
    (hjs : ∀ j ∈ js, j < compset.numHits.toNat) (h : StoredFrom compset size cells hitcount)
    (hrun : copyComponents compset minval maxval js cells hitcount = .ok result) :
    StoredFrom compset size result.1 result.2 := by
  induction js generalizing cells hitcount with
  | nil =>
    obtain rfl : (cells, hitcount) = result := Except.ok.inj hrun
    exact h
  | cons j js ih =>
    have hrest := fun k hk ↦ hjs k (List.mem_cons_of_mem _ hk)
    rw [copyComponents, bind_eq_ok] at hrun
    obtain ⟨entry, hentry, hrun⟩ := hrun
    split at hrun
    · obtain ⟨stored, hstore, hrun⟩ := bind_eq_ok.mp hrun
      have hmem := halloc.entryAt_mem (hjs j List.mem_cons_self) hentry
      exact ih hrest (h.storeDoc hmem hstore) hrun
    · exact ih hrest h hrun

theorem restrictLoop_stored {get : ComponentKey → DbReply} (halloc : compset.Allocated)
    (is : List ℕ) (compData : Option ComponentDataItem) (h : StoredFrom compset size cells hitcount)
    (hrun : restrictLoop get compset docset is compData cells hitcount = .ok (some result)) :
    StoredFrom compset size result.1 result.2 := by
  induction is generalizing compData cells hitcount with
  | nil =>
    obtain rfl : (cells, hitcount) = result := Option.some.inj (Except.ok.inj hrun)
    exact h
  | cons i is ih =>
    rw [restrictLoop, bind_eq_ok] at hrun
    obtain ⟨document, -, hrun⟩ := hrun
    split at hrun
    · cases hrun
    · cases hrun
    · obtain ⟨copied, hcopied, hrun⟩ := bind_eq_ok.mp hrun
      refine ih _ (copyComponents_stored halloc _ _ _ ?_ h hcopied) hrun
      intro j hj
      exact List.mem_range.mp hj

theorem containingLoop_stored {get : ComponentKey → DbReply} (halloc : set.Allocated)
    (children : List (Option ComponentDataItem)) (is : List ℕ)
    (his : ∀ i ∈ is, i < set.numHits.toNat) (h : StoredFrom set size cells hitcount)
    (hrun : containingLoop get set children is cells hitcount = .ok (some result)) :
    StoredFrom set size result.1 result.2 := by
  induction is generalizing cells hitcount with
  | nil =>
    obtain rfl : (cells, hitcount) = result := Option.some.inj (Except.ok.inj hrun)
    exact h
  | cons i is ih =>
    have hrest := fun k hk ↦ his k (List.mem_cons_of_mem _ hk)
    rw [containingLoop, bind_eq_ok] at hrun
    obtain ⟨entry, hentry, hrun⟩ := hrun
    split at hrun
    · obtain ⟨contained, -, hrun⟩ := bind_eq_ok.mp hrun
      cases contained with
      | true =>
        obtain ⟨stored, hstore, hrun⟩ := bind_eq_ok.mp hrun
        have hmem := halloc.entryAt_mem (his i List.mem_cons_self) hentry
        exact ih hrest (h.storeDoc hmem hstore) hrun
      | false => exact ih hrest h hrun
    · cases hrun

end Stored

section Restrictions

variable {numbering : Numbering} {set1 set2 newset : WeightedResult}
  {get : ℕ → ComponentKey → DbReply}

theorem seComponentDocRestrict_levelled (h1 : Levelled numbering set1)
    (h2 : Levelled numbering set2)
    (hrun : seComponentDocRestrict get set1 set2 = .ok (some newset)) :
    Levelled numbering newset := by
  have hcompset : Levelled numbering (if set1.has COMPONENT_RESULT then set1 else set2) := by
    split
    · exact h1
    · exact h2
  obtain ⟨comp, -, hrun⟩ := bind_eq_ok.mp hrun
  obtain ⟨result, hloop, hrun⟩ := bind_eq_ok.mp hrun
  rcases result with _ | ⟨cells, hitcount⟩
  · cases hrun
  · obtain rfl := Option.some.inj (Except.ok.inj hrun)
    exact (restrictLoop_stored hcompset.toAllocated _ _ (storedFrom_calloc _ _) hloop).levelled
      hcompset

theorem seComponentSubRestrict_levelled {op : ProximityOperator} (h1 : Levelled numbering set1)
    (h2 : Levelled numbering set2)
    (hrun : seComponentSubRestrict get op set1 set2 = .ok (some newset)) :
    Levelled numbering newset := by
  unfold seComponentSubRestrict at hrun
  rcases hsides : parentAndChild op set1 set2 with _ | ⟨parentcomp, childcomp⟩
  · rw [hsides] at hrun
    cases hrun
  have hparent : Levelled numbering parentcomp := by
    unfold parentAndChild at hsides
    split at hsides
    · cases hsides
      exact h1
    · split at hsides
      · cases hsides
        exact h2
      · cases hsides
  rw [hsides] at hrun
  obtain ⟨parententry, -, hrun⟩ := bind_eq_ok.mp hrun
  obtain ⟨childentry, -, hrun⟩ := bind_eq_ok.mp hrun
  obtain ⟨children, -, hrun⟩ := bind_eq_ok.mp hrun
  rcases children with _ | children
  · cases hrun
  obtain ⟨result, hloop, hrun⟩ := bind_eq_ok.mp hrun
  rcases result with _ | ⟨cells, hitcount⟩
  · cases hrun
  · obtain rfl := Option.some.inj (Except.ok.inj hrun)
    refine (containingLoop_stored hparent.toAllocated children _ ?_ (storedFrom_calloc _ _)
      hloop).levelled hparent
    intro i hi
    exact List.mem_range.mp hi

theorem pivotLoop_stored (h : set1.Allocated) (distance : ℤ) (component : Option ℕ)
    (docset : WeightedResult) (is : List ℕ) (his : ∀ i ∈ is, i < set1.numHits.toNat)
    (recordId : ℤ) {total : ℕ} {newset result : NewSet} {out : List WeightedEntry}
    (hfilled : newset.Filled total out) (hout : ∀ entry ∈ out, entry.recordNum ∈ set1.recordNums)
    (hrun : pivotLoop get distance component set1 docset is recordId newset = .ok (some result)) :
    ∃ out', result.Filled total out' ∧ ∀ entry ∈ out', entry.recordNum ∈ set1.recordNums := by
  induction is generalizing recordId newset out with
  | nil =>
    obtain rfl : newset = result := Option.some.inj (Except.ok.inj hrun)
    exact ⟨out, hfilled, hout⟩
  | cons i is ih =>
    have hrest := fun k hk ↦ his k (List.mem_cons_of_mem _ hk)
    rw [pivotLoop, bind_eq_ok] at hrun
    obtain ⟨entry, hentry, hrun⟩ := hrun
    have hmem := h.entryAt_mem (his i List.mem_cons_self) hentry
    split at hrun
    · cases hrun
    · obtain ⟨stored, hstore, hrun⟩ := bind_eq_ok.mp hrun
      refine ih hrest _ ((hfilled.of_put hstore).bound _) ?_ hrun
      intro entry' hentry'
      rcases List.mem_append.mp hentry' with hentry' | hentry'
      · exact hout entry' hentry'
      · rw [List.mem_singleton.mp hentry']
        exact hmem

theorem pivotNormalize_levelled {op : ProximityOperator} (h1 : Levelled numbering set1)
    (hrun : pivotNormalize get op set1 set2 = .ok (some newset)) : Levelled numbering newset := by
  obtain ⟨component, -, hrun⟩ := bind_eq_ok.mp hrun
  obtain ⟨result, hloop, hrun⟩ := bind_eq_ok.mp hrun
  rcases result with _ | result
  · cases hrun
  obtain rfl := Option.some.inj (Except.ok.inj hrun)
  obtain ⟨out, hfilled, hout⟩ := pivotLoop_stored h1.toAllocated _ _ _ _
    (fun i hi ↦ List.mem_range.mp hi) 0 (NewSet.filled_alloc _)
    (fun _ h ↦ absurd h List.not_mem_nil) hloop
  have hindex := hfilled.index_eq
  have hlength := hfilled.holds.length_cells
  have hle := hfilled.holds.length_le
  refine h1.of_same ⟨by simp [NewSet.finish], ?_⟩ rfl rfl ?_
  · simp only [NewSet.finish, Int.toNat_natCast]
    omega
  · intro number hnumber
    rw [WeightedResult.recordNums, WeightedResult.hits] at hnumber
    simp only [NewSet.finish, Int.toNat_natCast, hindex, hfilled.holds.take] at hnumber
    obtain ⟨entry, hentry, rfl⟩ := List.mem_map.mp hnumber
    exact hout entry hentry

end Restrictions

section Proximity

variable {numbering : Numbering} {set1 set2 : WeightedResult} {total : ℕ}

/-- Invariant of the proximity loop: it writes what the AND loop would write and the test lets
through. -/
theorem proxLoop_spec (h1 : set1.Allocated) (h2 : set2.Allocated) (proxTest : ℤ → Bool)
    (flags : ℕ) (htotal : min set1.numHits set2.numHits ≤ total) (fuel i1 i2 : ℕ)
    (hfuel : (set1.numHits.toNat - i1) + (set2.numHits.toNat - i2) < fuel) {newset : NewSet}
    {out : List WeightedEntry} (hfilled : newset.Filled total out) (hi1 : out.length ≤ i1)
    (hi2 : out.length ≤ i2) (hn1 : out.length ≤ set1.numHits) (hn2 : out.length ≤ set2.numHits) :
    ∃ newset' out', proxLoop proxTest flags set1 set2 fuel i1 i2 newset = .ok newset' ∧
      newset'.Filled total out' ∧
      out'.map WeightedEntry.recordNum = out.map WeightedEntry.recordNum ++
        (inter (set1.ahead i1) (set2.ahead i2)).filter proxTest := by
  induction fuel generalizing i1 i2 newset out with
  | zero => omega
  | succ fuel ih =>
    by_cases hcond : (i1 : ℤ) < set1.numHits ∧ (i2 : ℤ) < set2.numHits
    · obtain ⟨entry1, hentry1, hahead1⟩ := h1.ahead_cons hcond.1
      obtain ⟨entry2, hentry2, hahead2⟩ := h2.ahead_cons hcond.2
      rw [proxLoop, if_pos hcond, hentry1, hentry2, hahead1, hahead2]
      simp only [bind, Except.bind]
      rcases lt_trichotomy entry1.recordNum entry2.recordNum with hlt | heq | hgt
      · rw [if_pos hlt, inter_cons_lt _ _ hlt, ← hahead2]
        exact ih (i1 + 1) i2 (by omega) hfilled (by omega) hi2 hn1 hn2
      · rw [if_neg heq.not_lt, if_neg heq.not_gt, heq, inter_cons_eq]
        rcases htest : proxTest entry2.recordNum with _ | _
        · rw [if_neg Bool.false_ne_true, List.filter_cons_of_neg (by rw [htest]; simp)]
          exact ih (i1 + 1) (i2 + 1) (by omega) hfilled (by omega) (by omega) hn1 hn2
        · rw [if_pos rfl, List.filter_cons_of_pos htest]
          obtain ⟨newset', hput, hfilled'⟩ := hfilled.put (by omega)
            ⟨entry2.recordNum, 0, if flags ≠ 0 then entry1.weight + entry2.weight else 1⟩
          rw [hput]
          obtain ⟨last, out', hloop, hlast, hout⟩ :=
            ih (i1 + 1) (i2 + 1) (by omega) hfilled' (by simpa using hi1) (by simpa using hi2)
              (by simp; omega) (by simp; omega)
          exact ⟨last, out', hloop, hlast, by rw [hout]; simp⟩
      · rw [if_neg hgt.not_gt, if_pos hgt, inter_cons_gt _ _ hgt, ← hahead1]
        exact ih i1 (i2 + 1) (by omega) hfilled hi1 (by omega) hn1 hn2
    · refine ⟨newset, out, by rw [proxLoop, if_neg hcond], hfilled, ?_⟩
      rcases not_and_or.mp hcond with hend | hend
      · rw [h1.ahead_nil hend, inter_nil_left, List.filter_nil, List.append_nil]
      · rw [h2.ahead_nil hend, inter_nil_right, List.filter_nil, List.append_nil]

theorem inProximityOrder_allocated (h : set1.Allocated) : (inProximityOrder set1).Allocated := by
  unfold inProximityOrder
  split
  · exact h.qsort compareWtEntries
  · exact h

theorem mem_inProximityOrder (h : set1.Allocated) (number : ℤ) :
    number ∈ (inProximityOrder set1).recordNums ↔ number ∈ set1.recordNums := by
  unfold inProximityOrder
  split
  · exact (h.perm_recordNums_qsort compareWtEntries).mem_iff
  · exact Iff.rfl

theorem proximitySet_unranked (inset1 set1 set2 paged1 paged2 : WeightedResult) {flags : ℕ}
    (newset : NewSet) (hflags : flags = 0) :
    proximitySet inset1 set1 set2 ⟨paged1, paged2, false, 0⟩ flags newset =
      { newset.finish inset1.filename none PROXIMITY_RESULT 0 with
        termid := mergeTermids set1.termid set2.termid } := by
  simp [proximitySet, hflags]

theorem proximitySet_ranked (inset1 set1 set2 paged1 paged2 : WeightedResult) {flags : ℕ}
    (newset : NewSet) (hflags : flags ≠ 0) :
    proximitySet inset1 set1 set2 ⟨paged1, paged2, false, 0⟩ flags newset =
      seRankDocs { newset.finish inset1.filename none flags 0 with
        termid := mergeTermids set1.termid set2.termid } := if_pos hflags

/-- The numbers that the proximity merge of two sets lists. -/
def proximate (callees : ProximityCallees) (op : ProximityOperator)
    (set1 set2 : WeightedResult) : List ℤ :=
  (inter (inProximityOrder set1).recordNums (inProximityOrder set2).recordNums).filter
    (callees.proxTest op (inProximityOrder set1) (inProximityOrder set2))

theorem mergeProximity_spec (callees : ProximityCallees) (op : ProximityOperator)
    (h1 : Listed set1) (h2 : Listed set2) :
    ∃ merged, mergeProximity callees op set1 ⟨set1, set2, false, 0⟩ = .ok (some merged) ∧
      Listed merged ∧ merged.has COMPONENT_RESULT = false ∧
      ∀ number, number ∈ merged.recordNums ↔ number ∈ proximate callees op set1 set2 := by
  have ha1 := inProximityOrder_allocated h1.toAllocated
  have ha2 := inProximityOrder_allocated h2.toAllocated
  have hn1 := ha1.nonneg
  have hn2 := ha2.nonneg
  have htotal : (if (inProximityOrder set1).numHits < (inProximityOrder set2).numHits then
      (inProximityOrder set1).numHits.toNat else (inProximityOrder set2).numHits.toNat) =
      (min (inProximityOrder set1).numHits (inProximityOrder set2).numHits).toNat := by
    split <;> omega
  set flags := (set1.resultType &&& DOC_FLAGS) ||| (set2.resultType &&& DOC_FLAGS) with hflags
  obtain ⟨newset, out, hloop, hfilled, hout⟩ :=
    proxLoop_spec ha1 ha2 (callees.proxTest op (inProximityOrder set1) (inProximityOrder set2))
      flags (Int.self_le_toNat _)
      ((inProximityOrder set1).numHits.toNat + (inProximityOrder set2).numHits.toNat + 1) 0 0
      (by omega) (NewSet.filled_alloc _) le_rfl le_rfl (by simpa using hn1) (by simpa using hn2)
  rw [WeightedResult.ahead_zero, WeightedResult.ahead_zero, List.map_nil, List.nil_append] at hout
  have hlength := hfilled.holds.length_cells
  have hle := hfilled.holds.length_le
  -- a header with the given flags over the numbers that the loop has written
  have hset (resultType : ℕ) (hlisted : resultType &&& UNLISTED_FLAGS = 0)
      (hcomponent : resultType &&& COMPONENT_RESULT = 0) (merged : WeightedResult)
      (htype : merged.resultType = resultType) (hhits : merged.numHits = newset.index)
      (hentries : merged.entries = newset.cells) :
      Listed merged ∧ merged.has COMPONENT_RESULT = false ∧
        ∀ number, number ∈ merged.recordNums ↔ number ∈ proximate callees op set1 set2 := by
    have hhas : merged.has COMPONENT_RESULT = false := by
      rw [WeightedResult.has_eq_false_iff, htype, hcomponent]
    refine ⟨⟨⟨?_, ?_⟩, htype ▸ hlisted, fun htrue ↦ ?_⟩, hhas, ?_⟩
    · rw [hhits]
      exact Int.natCast_nonneg _
    · rw [hhits, hentries, hfilled.index_eq, Int.toNat_natCast]
      omega
    · rw [hhas] at htrue
      cases htrue
    · intro number
      rw [WeightedResult.recordNums, WeightedResult.hits, hhits, hentries, hfilled.index_eq,
        Int.toNat_natCast, hfilled.holds.take, hout, proximate]
  have hrun : mergeProximity callees op set1 ⟨set1, set2, false, 0⟩ =
      .ok (some (proximitySet set1 (inProximityOrder set1) (inProximityOrder set2)
        ⟨set1, set2, false, 0⟩ flags newset)) := by
    simp only [mergeProximity, htotal, ← hflags, hloop, bind, Except.bind]
  refine ⟨_, hrun, ?_⟩
  rcases eq_or_ne flags 0 with hzero | hne
  · rw [proximitySet_unranked set1 _ _ set1 set2 newset hzero]
    exact hset PROXIMITY_RESULT (by decide) (by decide) _ rfl rfl rfl
  · have hdoc (flag : ℕ) (hflag : DOC_FLAGS &&& flag = 0) : flags &&& flag = 0 := by
      rw [hflags, Nat.and_or_distrib_right, Nat.land_assoc, Nat.land_assoc, hflag, Nat.and_zero,
        Nat.and_zero, Nat.or_zero]
    obtain ⟨hlisted, hhas, hmem⟩ := hset flags (hdoc UNLISTED_FLAGS (by decide))
      (hdoc COMPONENT_RESULT (by decide)) { newset.finish set1.filename none flags 0 with
        termid := mergeTermids (inProximityOrder set1).termid (inProximityOrder set2).termid }
      rfl rfl rfl
    rw [proximitySet_ranked set1 _ _ set1 set2 newset hne]
    refine ⟨⟨hlisted.toAllocated.qsort compareWeights, hlisted.listed, hlisted.unhybrid⟩, hhas, ?_⟩
    intro number
    rw [← hmem]
    exact (perm_recordNums_seRankDocs hlisted.toAllocated).mem_iff

end Proximity

/-- The run marks what it returns exactly when `keeps` holds, and a marked result is levelled. -/
structure StepLevel (numbering : Numbering) (run : Exec (Option WeightedResult)) (keeps : Prop) :
    Prop where
  marks_iff : (∀ result, run = .ok (some result) → Marked numbering result) ↔ keeps
  levelled : ∀ result, run = .ok (some result) → Marked numbering result →
    Levelled numbering result

section Steps

variable {numbering : Numbering} {run : Exec (Option WeightedResult)} {keeps : Prop}
  {set set1 set2 merged : WeightedResult}

theorem StepLevel.of_true (h : StepLevel numbering run True) (hkeeps : keeps) :
    StepLevel numbering run keeps :=
  ⟨iff_of_true (h.marks_iff.mpr trivial) hkeeps, h.levelled⟩

theorem stepLevel_of_levelled
    (h : ∀ result, run = .ok (some result) → Levelled numbering result) :
    StepLevel numbering run True :=
  ⟨iff_of_true (fun result hrun ↦ (h result hrun).toMarked) trivial, fun result hrun _ ↦
    h result hrun⟩

theorem stepLevel_of_listed (hrun : run = .ok (some merged)) (hlisted : Listed merged)
    (hiff : Marked numbering merged ↔ keeps) : StepLevel numbering run keeps where
  marks_iff := by
    rw [← hiff]
    constructor
    · intro h
      exact h merged hrun
    · intro hmarked result hresult
      obtain rfl := Option.some.inj (Except.ok.inj (hrun.symm.trans hresult))
      exact hmarked
  levelled := by
    intro result hresult hmarked
    obtain rfl := Option.some.inj (Except.ok.inj (hrun.symm.trans hresult))
    exact ⟨hlisted, hmarked⟩

theorem stepLevel_some (h : Levelled numbering set) : StepLevel numbering (.ok (some set)) True :=
  stepLevel_of_listed rfl h.toListed (iff_of_true h.toMarked trivial)

theorem stepLevel_none : StepLevel numbering (.ok none) True :=
  stepLevel_of_levelled fun _ hrun ↦ by cases hrun

theorem listed_seRankDocs (h : Listed set) : Listed (seRankDocs set) :=
  ⟨h.toAllocated.qsort compareWeights, h.listed, h.unhybrid⟩

theorem stepLevel_rankMerged (hrun : run = .ok (some merged)) (hlisted : Listed merged)
    (hiff : Marked numbering merged ↔ keeps) : StepLevel numbering (rankMerged run) keeps := by
  refine stepLevel_of_listed ?_ (listed_seRankDocs hlisted)
    ((marked_seRankDocs_iff hlisted.toAllocated).trans hiff)
  rw [hrun, rankMerged_some]

theorem stepLevel_rankMerged_levelled
    (h : ∀ result, run = .ok (some result) → Levelled numbering result) :
    StepLevel numbering (rankMerged run) True := by
  apply stepLevel_of_levelled
  intro result hrank
  obtain ⟨inner, hinner, hrank⟩ := bind_eq_ok.mp hrank
  obtain ⟨newset, hnewset, hrank⟩ := bind_eq_ok.mp hrank
  obtain rfl := Option.some.inj (Except.ok.inj hrank)
  rcases inner with _ | inner
  · cases hnewset
  · obtain rfl := Except.ok.inj hnewset
    exact (h inner hinner).seRankDocs

end Steps

/-- What `se_hybridmerge` returns for two listed sets: one of them where the other is empty, and
otherwise the numbers of both under the flags of both, without a component type. -/
structure HybridMerges
    (seHybridmerge : WeightedResult → WeightedResult → ℕ → ℕ → Exec (Option WeightedResult)) :
    Prop where
  empty : ∀ set1 set2, Listed set1 → Listed set2 → set1.recordNums = [] ∨ set2.recordNums = [] →
    ∃ merged, seHybridmerge set1 set2 BOOLEAN_OR MERGENORM = .ok (some merged) ∧
      ∃ set, (set = set1 ∨ set = set2) ∧ merged.Allocated ∧ merged.resultType = set.resultType ∧
        merged.component = set.component ∧ merged.recordNums = set.recordNums
  documents : ∀ set1 set2, Listed set1 → Listed set2 → set1.recordNums ≠ [] →
    set2.recordNums ≠ [] → set1.has COMPONENT_RESULT = false → set2.has COMPONENT_RESULT = false →
    ∃ merged, seHybridmerge set1 set2 BOOLEAN_OR MERGENORM = .ok (some merged) ∧ Listed merged ∧
      merged.has COMPONENT_RESULT = false ∧
      ∀ number ∈ merged.recordNums, number ∈ set1.recordNums ∨ number ∈ set2.recordNums
  components : ∀ set1 set2, Listed set1 → Listed set2 → set1.recordNums ≠ [] →
    set2.recordNums ≠ [] → set1.has COMPONENT_RESULT = true ∨ set2.has COMPONENT_RESULT = true →
    ∃ merged, seHybridmerge set1 set2 BOOLEAN_OR MERGENORM = .ok (some merged) ∧
      merged.has COMPONENT_RESULT = true ∧ merged.component = none

/-- Neither operand is an empty component set that has to be converted. -/
def UnionKeepsLevel (set1 set2 : WeightedResult) : Prop :=
  ¬ (converts set1 set2 = true ∧ set1.recordNums = []) ∧
    ¬ (converts set2 set1 = true ∧ set2.recordNums = [])

/-- The first operand is not an empty component set that has to be converted. -/
def DifferenceKeepsLevel (set1 set2 : WeightedResult) : Prop :=
  ¬ (converts set1 set2 = true ∧ set1.recordNums = [])

/-- A hybrid of two sets that have hits has no component set in it. -/
def HybridKeepsLevel (set1 set2 : WeightedResult) : Prop :=
  set1.recordNums ≠ [] → set2.recordNums ≠ [] →
    set1.has COMPONENT_RESULT = false ∧ set2.has COMPONENT_RESULT = false

/-- A proximity merge of two component sets lists nothing but numbers that documents have too. -/
def ProximityKeepsLevel (numbering : Numbering) (callees : ProximityCallees)
    (op : ProximityOperator) (set1 set2 : WeightedResult) : Prop :=
  set1.has PROXIMITY_RESULT = true → set2.has PROXIMITY_RESULT = true → op.relationType = 2 →
    set1.has COMPONENT_RESULT = true → set2.has COMPONENT_RESULT = true →
      ∀ number ∈ proximate callees op set1 set2, number ∈ numbering.documents

/-- The operator marks its result. -/
def KeepsLevel (numbering : Numbering) (callees : ProximityCallees) :
    RpnOperator → Option WeightedResult → Option WeightedResult → Prop
  | .or, some set1, some set2 => UnionKeepsLevel set1 set2
  | .andNot, some set1, some set2 => DifferenceKeepsLevel set1 set2
  | .prox op, some set1, some set2 =>
    match op.proximityUnitCode with
    | .known _ => ProximityKeepsLevel numbering callees op set1 set2
    | .privateVar code =>
      match privateMerge code with
      | .fuzzyOr | .merge _ => UnionKeepsLevel set1 set2
      | .fuzzyNot => DifferenceKeepsLevel set1 set2
      | .mergeHybrid => HybridKeepsLevel set1 set2
      | .fuzzyAnd | .restrict | .mergePivot | .unsupported => True
  | _, _, _ => True

/-- The callees of the evaluation, with the routines that handle components as they are. -/
def levelCallees (files : ComponentFiles) (proximity : ProximityCallees)
    (seVirtualmerge : WeightedResult → WeightedResult → ℕ → ℕ → Exec (Option WeightedResult))
    (seBitmapMerge : WeightedResult → WeightedResult → ℕ → Exec (Option WeightedResult))
    (seHybridmerge : WeightedResult → WeightedResult → ℕ → ℕ → Exec (Option WeightedResult)) :
    RpnCallees where
  seVirtualmerge := seVirtualmerge
  seBitmapMerge := seBitmapMerge
  seGetPageDocs := proximity.seGetPageDocs
  seComp2doc := seComp2doc files
  compDbGet := proximity.compDbGet
  seComponentSubRestrict := seComponentSubRestrict proximity.compDbGet
  pivotNormalize := pivotNormalize proximity.compDbGet
  seHybridmerge := seHybridmerge
  seProxKnown := seProxKnown proximity

/-- The routines of a `RpnCallees` that decide levels. -/
structure KeepsComponents (callees : RpnCallees) (files : ComponentFiles)
    (proximity : ProximityCallees) : Prop where
  seComp2doc_eq : callees.seComp2doc = seComp2doc files
  seComponentSubRestrict_eq :
    callees.seComponentSubRestrict = seComponentSubRestrict proximity.compDbGet
  pivotNormalize_eq : callees.pivotNormalize = pivotNormalize proximity.compDbGet
  seProxKnown_eq : callees.seProxKnown = seProxKnown proximity
  hybridMerges : HybridMerges callees.seHybridmerge

section OneOperator

variable {numbering : Numbering} {files : ComponentFiles} {proximity : ProximityCallees}
  {callees : RpnCallees} {set1 set2 : WeightedResult} {op : ProximityOperator}

theorem converts_fuzzyRequest (set1 set2 : WeightedResult) :
    converts (fuzzyRequest set1) (fuzzyRequest set2) = converts set1 set2 := by
  have hcomponent (set : WeightedResult) := has_fuzzyRequest set COMPONENT_RESULT (by decide)
  unfold converts sameComponent
  rw [hcomponent, hcomponent]
  rfl

theorem seProxKnown_stepLevel (h1 : Levelled numbering set1) (h2 : Levelled numbering set2) :
    StepLevel numbering (seProxKnown proximity op set1 set2)
      (ProximityKeepsLevel numbering proximity op set1 set2) := by
  have hpaged : pagedProximity proximity set1 set2 = .ok ⟨set1, set2, false, 0⟩ :=
    pagedOperands_listed _ h1.toListed h2.toListed
  unfold seProxKnown ProximityKeepsLevel
  rcases hboth : set1.has PROXIMITY_RESULT && set2.has PROXIMITY_RESULT with _ | _
  · -- no proximity results: the sets are restricted
    have hnot : ¬ (set1.has PROXIMITY_RESULT = true ∧ set2.has PROXIMITY_RESULT = true) := by
      rw [← Bool.and_eq_true_iff, hboth]
      exact Bool.false_ne_true
    rw [if_neg Bool.false_ne_true]
    refine StepLevel.of_true ?_ fun hprox1 hprox2 ↦ absurd ⟨hprox1, hprox2⟩ hnot
    split
    · exact stepLevel_of_levelled fun _ hrun ↦ seComponentSubRestrict_levelled h1 h2 hrun
    · split
      · exact stepLevel_of_levelled fun _ hrun ↦ seComponentDocRestrict_levelled h1 h2 hrun
      · exact stepLevel_none
  rw [if_pos rfl]
  obtain ⟨hprox1, hprox2⟩ := Bool.and_eq_true_iff.mp hboth
  by_cases hrelation : op.relationType = 2
  · rw [if_neg (not_not.mpr hrelation), hpaged]
    obtain ⟨merged, hrun, hlisted, hhas, hmem⟩ :=
      mergeProximity_spec proximity op h1.toListed h2.toListed
    refine stepLevel_of_listed hrun hlisted ?_
    constructor
    · intro hmarked _ _ _ _ _ number hnumber
      exact hmarked.documents hhas number ((hmem number).mpr hnumber)
    · intro hkeeps
      refine ⟨fun htrue ↦ ?_, ?_⟩
      · rw [hhas] at htrue
        cases htrue
      intro _ number hnumber
      have hproximate := (hmem number).mp hnumber
      have hinter := List.mem_of_mem_filter hproximate
      rcases hhas1 : set1.has COMPONENT_RESULT with _ | _
      · exact h1.documents hhas1 number
          ((mem_inProximityOrder h1.toAllocated number).mp ((inter_sublist_left _ _).subset hinter))
      · rcases hhas2 : set2.has COMPONENT_RESULT with _ | _
        · exact h2.documents hhas2 number
            ((mem_inProximityOrder h2.toAllocated number).mp (mem_of_mem_inter_right hinter))
        · exact hkeeps hprox1 hprox2 hrelation hhas1 hhas2 number hproximate
  · rw [if_pos hrelation]
    exact stepLevel_none.of_true fun _ _ hrelation' ↦ absurd hrelation' hrelation

theorem HybridMerges.stepLevel (h : HybridMerges callees.seHybridmerge)
    (h1 : Levelled numbering set1) (h2 : Levelled numbering set2) :
    StepLevel numbering (rankMerged (callees.seHybridmerge set1 set2 BOOLEAN_OR MERGENORM))
      (HybridKeepsLevel set1 set2) := by
  by_cases hempty : set1.recordNums = [] ∨ set2.recordNums = []
  · obtain ⟨merged, hrun, set, hset, halloc, htype, hcomponent, hnumbers⟩ :=
      h.empty set1 set2 h1.toListed h2.toListed hempty
    have hlevelled : Levelled numbering merged := by
      rcases hset with rfl | rfl
      · exact h1.of_same halloc htype hcomponent fun number hnumber ↦ hnumbers ▸ hnumber
      · exact h2.of_same halloc htype hcomponent fun number hnumber ↦ hnumbers ▸ hnumber
    refine stepLevel_rankMerged hrun hlevelled.toListed (iff_of_true hlevelled.toMarked ?_)
    intro hne1 hne2
    exact absurd hempty (not_or.mpr ⟨hne1, hne2⟩)
  obtain ⟨hne1, hne2⟩ := not_or.mp hempty
  by_cases hcomponents : set1.has COMPONENT_RESULT = true ∨ set2.has COMPONENT_RESULT = true
  · obtain ⟨merged, hrun, hhas, hnone⟩ :=
      h.components set1 set2 h1.toListed h2.toListed hne1 hne2 hcomponents
    have hunmarked (result : WeightedResult) (hresult : rankMerged
        (callees.seHybridmerge set1 set2 BOOLEAN_OR MERGENORM) = .ok (some result)) :
        ¬ Marked numbering result := by
      rw [hrun, rankMerged_some] at hresult
      obtain rfl := Option.some.inj (Except.ok.inj hresult)
      intro hmarked
      obtain ⟨component, hsome, -⟩ := hmarked.components hhas
      cases hnone.symm.trans hsome
    refine ⟨iff_of_false ?_ ?_, fun result hresult hmarked ↦
      absurd hmarked (hunmarked result hresult)⟩
    · intro hmarks
      have hranked : rankMerged (callees.seHybridmerge set1 set2 BOOLEAN_OR MERGENORM) =
          .ok (some (seRankDocs merged)) := by rw [hrun, rankMerged_some]
      exact hunmarked _ hranked (hmarks _ hranked)
    · intro hkeeps
      obtain ⟨hfalse1, hfalse2⟩ := hkeeps hne1 hne2
      rcases hcomponents with htrue | htrue
      · exact Bool.false_ne_true (hfalse1.symm.trans htrue)
      · exact Bool.false_ne_true (hfalse2.symm.trans htrue)
  · obtain ⟨hdoc1, hdoc2⟩ := not_or.mp hcomponents
    rw [Bool.not_eq_true] at hdoc1 hdoc2
    obtain ⟨merged, hrun, hlisted, hhas, hmem⟩ :=
      h.documents set1 set2 h1.toListed h2.toListed hne1 hne2 hdoc1 hdoc2
    refine stepLevel_rankMerged hrun hlisted (iff_of_true ⟨fun htrue ↦ ?_, ?_⟩
      fun _ _ ↦ ⟨hdoc1, hdoc2⟩)
    · rw [hhas] at htrue
      cases htrue
    intro _ number hnumber
    rcases hmem number hnumber with hnumber | hnumber
    · exact h1.documents hdoc1 number hnumber
    · exact h2.documents hdoc2 number hnumber

theorem seProxmerge_stepLevel (hcallees : KeepsComponents callees files proximity)
    (hconsistent : numbering.Consistent files) (h1 : Levelled numbering set1)
    (h2 : Levelled numbering set2) :
    StepLevel numbering (seProxmerge callees op (some set1) (some set2))
      (KeepsLevel numbering proximity (.prox op) (some set1) (some set2)) := by
  have hsorts := callees.sortingCallees
  have hcomp : callees.merges.seComp2doc = seComp2doc files := hcallees.seComp2doc_eq
  rcases hcode : op.proximityUnitCode with unit | code
  · simp only [seProxmerge, KeepsLevel, hcode, Option.isNone_some, Bool.and_false,
      Bool.false_eq_true, if_false, hcallees.seProxKnown_eq]
    exact seProxKnown_stepLevel h1 h2
  simp only [seProxmerge, KeepsLevel, hcode, Option.isNone_some, Bool.and_false, Bool.false_eq_true, if_false]
  cases hmerge : privateMerge code with
  | fuzzyAnd =>
    obtain ⟨merged, hrun, hlevelled⟩ :=
      seAndmerge_levelled hsorts hcomp hconsistent h1.fuzzyRequest h2.fuzzyRequest
    exact stepLevel_rankMerged hrun hlevelled.toListed (iff_of_true hlevelled.toMarked trivial)
  | fuzzyOr =>
    obtain ⟨merged, hrun, hlisted, hiff⟩ :=
      seOrmerge_levelled hsorts hcomp hconsistent h1.fuzzyRequest h2.fuzzyRequest FUZZY
    rw [converts_fuzzyRequest, converts_fuzzyRequest] at hiff
    exact stepLevel_rankMerged hrun hlisted hiff
  | fuzzyNot =>
    obtain ⟨merged, hrun, hlisted, hiff⟩ :=
      seNotmerge_levelled hsorts hcomp hconsistent h1.fuzzyRequest h2.fuzzyRequest
    rw [converts_fuzzyRequest] at hiff
    exact stepLevel_rankMerged hrun hlisted hiff
  | restrict =>
    simp only [componentRestrict, hcallees.seComponentSubRestrict_eq]
    split
    · exact stepLevel_rankMerged_levelled fun _ hrun ↦ seComponentSubRestrict_levelled h1 h2 hrun
    · split
      · exact stepLevel_rankMerged_levelled fun _ hrun ↦ seComponentDocRestrict_levelled h1 h2 hrun
      · exact stepLevel_none
  | merge addweights =>
    obtain ⟨merged, hrun, hlisted, hiff⟩ :=
      seOrmerge_levelled hsorts hcomp hconsistent h1 h2 addweights
    exact stepLevel_rankMerged hrun hlisted hiff
  | mergePivot =>
    simp only [sePivotDocNormalize, hcallees.pivotNormalize_eq]
    exact stepLevel_rankMerged_levelled fun _ hrun ↦ pivotNormalize_levelled h1 hrun
  | mergeHybrid =>
    exact hcallees.hybridMerges.stepLevel h1 h2
  | unsupported =>
    exact stepLevel_none

theorem Levelled.orDuplicate {set : WeightedResult} (h : Levelled numbering set) (addweights : ℕ) :
    Levelled numbering (orDuplicate addweights set) := by
  unfold Search.orDuplicate
  split
  · exact h.of_same ⟨h.nonneg, h.covered⟩ rfl rfl fun _ hnumber ↦ hnumber
  · exact h

theorem stepLevel_rank {set : WeightedResult} (h : Levelled numbering set) :
    StepLevel numbering (rankMerged (.ok (some set))) True :=
  stepLevel_rankMerged rfl h.toListed (iff_of_true h.toMarked trivial)

theorem seProxmerge_one_stepLevel {set : WeightedResult} (h : Levelled numbering set)
    (inset1 inset2 : Option WeightedResult)
    (hone : inset1 = none ∧ inset2 = some set ∨ inset1 = some set ∧ inset2 = none) :
    StepLevel numbering (seProxmerge callees op inset1 inset2) True := by
  have herror : StepLevel numbering (.error .nullDereference) True :=
    stepLevel_of_levelled fun _ hrun ↦ by cases hrun
  rcases hone with ⟨rfl, rfl⟩ | ⟨rfl, rfl⟩
  · rcases hcode : op.proximityUnitCode with unit | code
    · simpa [seProxmerge, hcode] using stepLevel_none
    cases hmerge : privateMerge code with
    | fuzzyAnd => simpa [seProxmerge, hcode, hmerge, fuzzyMerge] using stepLevel_some h
    | fuzzyOr => simpa [seProxmerge, hcode, hmerge, fuzzyMerge] using stepLevel_some h
    | fuzzyNot =>
      simpa [seProxmerge, hcode, hmerge, fuzzyNotMerge, deref, bind, Except.bind] using herror
    | restrict => simpa [seProxmerge, hcode, hmerge, componentRestrict] using stepLevel_none
    | merge addweights =>
      simpa [seProxmerge, hcode, hmerge, seOrmerge] using stepLevel_rank (h.orDuplicate addweights)
    | mergePivot =>
      simpa [seProxmerge, hcode, hmerge, sePivotDocNormalize, rankMerged_none] using herror
    | mergeHybrid =>
      simpa [seProxmerge, hcode, hmerge, seHybridMergeNormalize] using stepLevel_rank h
    | unsupported => simpa [seProxmerge, hcode, hmerge] using stepLevel_none
  · rcases hcode : op.proximityUnitCode with unit | code
    · simpa [seProxmerge, hcode] using stepLevel_none
    cases hmerge : privateMerge code with
    | fuzzyAnd => simpa [seProxmerge, hcode, hmerge, fuzzyMerge] using stepLevel_some h
    | fuzzyOr => simpa [seProxmerge, hcode, hmerge, fuzzyMerge] using stepLevel_some h
    | fuzzyNot => simpa [seProxmerge, hcode, hmerge, fuzzyNotMerge] using stepLevel_some h
    | restrict => simpa [seProxmerge, hcode, hmerge, componentRestrict] using stepLevel_none
    | merge addweights =>
      simpa [seProxmerge, hcode, hmerge, seOrmerge] using stepLevel_rank (h.orDuplicate addweights)
    | mergePivot =>
      simpa [seProxmerge, hcode, hmerge, sePivotDocNormalize] using stepLevel_rank h
    | mergeHybrid =>
      simpa [seProxmerge, hcode, hmerge, seHybridMergeNormalize] using stepLevel_rank h
    | unsupported => simpa [seProxmerge, hcode, hmerge] using stepLevel_none

/-- A result, if there is one, of one level and flagged as what it is. -/
def LevelledResult (numbering : Numbering) (result : Option WeightedResult) : Prop :=
  ∀ set, result = some set → Levelled numbering set

theorem processOperator_stepLevel (hcallees : KeepsComponents callees files proximity)
    (hconsistent : numbering.Consistent files) (operator : RpnOperator)
    (leftRes rightRes : Option WeightedResult)
    (hgoes : (leftRes.isNone && stopsAtLeft operator) = false)
    (hleft : LevelledResult numbering leftRes) (hright : LevelledResult numbering rightRes) :
    StepLevel numbering (processOperator callees operator leftRes rightRes)
      (KeepsLevel numbering proximity operator leftRes rightRes) := by
  have hsorts := callees.sortingCallees
  have hcomp : callees.merges.seComp2doc = seComp2doc files := hcallees.seComp2doc_eq
  rcases leftRes with _ | set1 <;> rcases rightRes with _ | set2
  · cases operator with
    | and => cases hgoes
    | or => exact stepLevel_none
    | andNot => cases hgoes
    | prox op => exact stepLevel_none
  · have h2 := hright set2 rfl
    cases operator with
    | and => cases hgoes
    | or => exact stepLevel_some h2
    | andNot => cases hgoes
    | prox op => exact seProxmerge_one_stepLevel h2 none (some set2) (.inl ⟨rfl, rfl⟩)
  · have h1 := hleft set1 rfl
    cases operator with
    | and => exact stepLevel_none
    | or => exact stepLevel_some h1
    | andNot => exact stepLevel_of_levelled fun _ hrun ↦ by cases hrun
    | prox op => exact seProxmerge_one_stepLevel h1 (some set1) none (.inr ⟨rfl, rfl⟩)
  · have h1 := hleft set1 rfl
    have h2 := hright set2 rfl
    cases operator with
    | and =>
      obtain ⟨merged, hrun, hlevelled⟩ := seAndmerge_levelled hsorts hcomp hconsistent h1 h2
      refine stepLevel_of_listed ?_ hlevelled.toListed (iff_of_true hlevelled.toMarked trivial)
      simp [processOperator, hrun, deref, bind, Except.bind]
    | or =>
      obtain ⟨merged, hrun, hlisted, hiff⟩ := seOrmerge_levelled hsorts hcomp hconsistent h1 h2 0
      exact stepLevel_of_listed hrun hlisted hiff
    | andNot =>
      obtain ⟨merged, hrun, hlisted, hiff⟩ := seNotmerge_levelled hsorts hcomp hconsistent h1 h2
      refine stepLevel_of_listed ?_ hlisted hiff
      simp [processOperator, hrun, deref, bind, Except.bind]
    | prox op => exact seProxmerge_stepLevel hcallees hconsistent h1 h2

end OneOperator

/-- Every operator that the evaluation applies marks what it returns. -/
def MarksLevels (numbering : Numbering) {σ : Type} (callees : RpnCallees)
    (answer : σ → Option WeightedResult) (rpn : RpnStructure σ) : Prop :=
  AtEach (rpnSemantics callees) answer (fun operator leftRes rightRes ↦
    ∀ result, processOperator callees operator leftRes rightRes = .ok (some result) →
      Marked numbering result) rpn

/-- No operator that the evaluation applies loses the level. -/
def AllKeepLevel (numbering : Numbering) (proximity : ProximityCallees) {σ : Type}
    (callees : RpnCallees) (answer : σ → Option WeightedResult) (rpn : RpnStructure σ) : Prop :=
  AtEach (rpnSemantics callees) answer (KeepsLevel numbering proximity) rpn

section Queries

variable {numbering : Numbering} {files : ComponentFiles} {proximity : ProximityCallees}
  {callees : RpnCallees} {σ : Type} {answer : σ → Option WeightedResult}

/-- By induction over the query: marking and keeping the level coincide, and a query that does so
returns a levelled result. -/
theorem marksLevels_induction (hcallees : KeepsComponents callees files proximity)
    (hconsistent : numbering.Consistent files)
    (hanswer : ∀ oper, LevelledResult numbering (answer oper)) (rpn : RpnStructure σ) :
    (MarksLevels numbering callees answer rpn ↔
      AllKeepLevel numbering proximity callees answer rpn) ∧
    (MarksLevels numbering callees answer rpn →
      ∀ result, eval (rpnSemantics callees) answer rpn = .ok result →
        LevelledResult numbering result) := by
  induction rpn with
  | leaf oper =>
    refine ⟨Iff.rfl, ?_⟩
    intro _ result hresult
    obtain rfl := Except.ok.inj hresult
    exact hanswer oper
  | node operator rpn1 rpn2 ihleft ihright =>
    have hstep (hmarks1 : MarksLevels numbering callees answer rpn1)
        (hmarks2 : MarksLevels numbering callees answer rpn2) (leftRes : Option WeightedResult)
        (hleft : eval (rpnSemantics callees) answer rpn1 = .ok leftRes)
        (rightRes : Option WeightedResult)
        (hright : eval (rpnSemantics callees) answer rpn2 = .ok rightRes)
        (hgoes : (leftRes.isNone && stopsAtLeft operator) = false) :
        StepLevel numbering (processOperator callees operator leftRes rightRes)
          (KeepsLevel numbering proximity operator leftRes rightRes) :=
      processOperator_stepLevel hcallees hconsistent operator leftRes rightRes hgoes
        (ihleft.2 hmarks1 leftRes hleft) (ihright.2 hmarks2 rightRes hright)
    refine ⟨?_, ?_⟩
    · constructor
      · intro hmarks
        refine ⟨ihleft.1.mp hmarks.1, ?_⟩
        intro leftRes hleft hgoes
        obtain ⟨hmarks2, hoperands⟩ := hmarks.2 leftRes hleft hgoes
        refine ⟨ihright.1.mp hmarks2, ?_⟩
        intro rightRes hright
        exact (hstep hmarks.1 hmarks2 leftRes hleft rightRes hright hgoes).marks_iff.mp
          (hoperands rightRes hright)
      · intro hkeeps
        have hmarks1 := ihleft.1.mpr hkeeps.1
        refine ⟨hmarks1, ?_⟩
        intro leftRes hleft hgoes
        obtain ⟨hkeeps2, hoperands⟩ := hkeeps.2 leftRes hleft hgoes
        have hmarks2 := ihright.1.mpr hkeeps2
        refine ⟨hmarks2, ?_⟩
        intro rightRes hright
        exact (hstep hmarks1 hmarks2 leftRes hleft rightRes hright hgoes).marks_iff.mpr
          (hoperands rightRes hright)
    · intro hmarks result hresult
      obtain ⟨leftRes, hleft, hresult⟩ := bind_eq_ok.mp hresult
      rcases hgoes : leftRes.isNone && (rpnSemantics callees).stops operator with _ | _
      · rw [hgoes, if_neg Bool.false_ne_true] at hresult
        obtain ⟨rightRes, hright, hresult⟩ := bind_eq_ok.mp hresult
        obtain ⟨hmarks2, hoperands⟩ := hmarks.2 leftRes hleft hgoes
        have hlevel := hstep hmarks.1 hmarks2 leftRes hleft rightRes hright hgoes
        rintro set rfl
        exact hlevel.levelled set hresult (hoperands rightRes hright set hresult)
      · rw [hgoes, if_pos rfl] at hresult
        obtain rfl := Except.ok.inj hresult
        rintro set ⟨⟩

end Queries

theorem keepsComponents_levelCallees (files : ComponentFiles) (proximity : ProximityCallees)
    (seVirtualmerge : WeightedResult → WeightedResult → ℕ → ℕ → Exec (Option WeightedResult))
    (seBitmapMerge : WeightedResult → WeightedResult → ℕ → Exec (Option WeightedResult))
    {seHybridmerge : WeightedResult → WeightedResult → ℕ → ℕ → Exec (Option WeightedResult)}
    (hhybrid : HybridMerges seHybridmerge) :
    KeepsComponents (levelCallees files proximity seVirtualmerge seBitmapMerge seHybridmerge) files
      proximity :=
  ⟨rfl, rfl, rfl, rfl, hhybrid⟩

/-- Every result inside a query over document sets and component sets is marked exactly when no
operator in the query loses the level, and then so is the result of the query. -/
theorem marksLevels_iff (numbering : Numbering) (files : ComponentFiles)
    (proximity : ProximityCallees)
    (seVirtualmerge : WeightedResult → WeightedResult → ℕ → ℕ → Exec (Option WeightedResult))
    (seBitmapMerge : WeightedResult → WeightedResult → ℕ → Exec (Option WeightedResult))
    (seHybridmerge : WeightedResult → WeightedResult → ℕ → ℕ → Exec (Option WeightedResult))
    (hhybrid : HybridMerges seHybridmerge) (hconsistent : numbering.Consistent files) {σ : Type}
    (answer : σ → Option WeightedResult)
    (hanswer : ∀ oper, LevelledResult numbering (answer oper)) (rpn : RpnStructure σ) :
    let callees := levelCallees files proximity seVirtualmerge seBitmapMerge seHybridmerge
    (MarksLevels numbering callees answer rpn ↔
      AllKeepLevel numbering proximity callees answer rpn) ∧
    (AllKeepLevel numbering proximity callees answer rpn →
      ∀ set, seProcessRpnStructure callees answer rpn = .ok (some set) →
        Marked numbering set) := by
  intro callees
  obtain ⟨hiff, hresult⟩ := marksLevels_induction
    (keepsComponents_levelCallees files proximity seVirtualmerge seBitmapMerge hhybrid)
    hconsistent hanswer rpn
  refine ⟨hiff, ?_⟩
  intro hkeeps set hset
  rw [seProcessRpnStructure_eq_eval] at hset
  exact (hresult (hiff.mpr hkeeps) _ hset set rfl).toMarked

/-- The numbers of two sets under the flags of a hybrid, without the subsets that its entries
point to. -/
def hybridSet (set1 set2 : WeightedResult) (resultType : ℕ) : WeightedResult :=
  { WeightedResult.ofRecords set1.filename (set1.recordNums ++ set2.recordNums) with
    resultType := resultType }

def hybridOf (set1 set2 : WeightedResult) (_ _ : ℕ) : Exec (Option WeightedResult) :=
  if set2.recordNums = [] then .ok (some set1)
  else if set1.recordNums = [] then .ok (some set2)
  else if set1.has COMPONENT_RESULT || set2.has COMPONENT_RESULT then
    .ok (some (hybridSet set1 set2 (HYBRID_RESULT ||| COMPONENT_RESULT)))
  else .ok (some (hybridSet set1 set2 HYBRID_RESULT))

theorem recordNums_ofRecords (filename : String) (records : List ℤ) :
    (WeightedResult.ofRecords filename records).recordNums = records := by
  simp [WeightedResult.ofRecords, WeightedResult.recordNums, WeightedResult.hits,
    Function.comp_def]

theorem hybridMerges_hybridOf : HybridMerges hybridOf where
  empty := by
    intro set1 set2 h1 h2 hempty
    by_cases hnil2 : set2.recordNums = []
    · exact ⟨set1, if_pos hnil2, set1, .inl rfl, h1.toAllocated, rfl, rfl, rfl⟩
    · have hnil1 := hempty.resolve_right hnil2
      refine ⟨set2, ?_, set2, .inr rfl, h2.toAllocated, rfl, rfl, rfl⟩
      rw [hybridOf, if_neg hnil2, if_pos hnil1]
  documents := by
    intro set1 set2 h1 h2 hne1 hne2 hdoc1 hdoc2
    refine ⟨hybridSet set1 set2 HYBRID_RESULT, ?_, ⟨⟨Int.natCast_nonneg _, ?_⟩, ?_, ?_⟩, ?_, ?_⟩
    · rw [hybridOf, if_neg hne2, if_neg hne1, hdoc1, hdoc2, Bool.or_false,
        if_neg Bool.false_ne_true]
    · simp [hybridSet, WeightedResult.ofRecords]
    · simp [hybridSet]
      decide
    · intro htrue
      simp [WeightedResult.has, hybridSet] at htrue
      exact absurd htrue (by decide)
    · simp [WeightedResult.has, hybridSet]
      decide
    · intro number hnumber
      have hnumber' : number ∈ set1.recordNums ++ set2.recordNums := by
        rw [← recordNums_ofRecords set1.filename (set1.recordNums ++ set2.recordNums)]
        exact hnumber
      exact List.mem_append.mp hnumber'
  components := by
    intro set1 set2 h1 h2 hne1 hne2 hcomponents
    rw [← Bool.or_eq_true] at hcomponents
    refine ⟨hybridSet set1 set2 (HYBRID_RESULT ||| COMPONENT_RESULT), ?_, ?_, rfl⟩
    · rw [hybridOf, if_neg hne2, if_neg hne1, if_pos hcomponents]
    · simp [WeightedResult.has, hybridSet]
      decide

/-- Document 1 has the components 5 and 6 of the one definition there is. -/
def twoComponents : Numbering where
  documents := {1}
  components component := {number | component = 0 ∧ (number = 5 ∨ number = 6)}

def twoComponentFiles : ComponentFiles where
  getComponentRecord number component :=
    if component = some 0 ∧ (number = 5 ∨ number = 6) then some ⟨1, 0, 40⟩ else none
  componentAt _ := .ok none

/-- The terms of any two sets are near each other. -/
def alwaysNear : ProximityCallees where
  compDbGet _ _ := .notFound
  seGetPageDocs _ _ := .ok none
  proxTest _ _ _ _ := true

/-- Two component sets that are proximity results, and a document set. -/
def threeSets : Fin 3 → Option WeightedResult
  | 0 => some { componentsOf 0 [5] with resultType := COMPONENT_RESULT ||| PROXIMITY_RESULT }
  | 1 => some { componentsOf 0 [5, 6] with resultType := COMPONENT_RESULT ||| PROXIMITY_RESULT }
  | 2 => some (WeightedResult.ofRecords "DB" [1])

theorem twoComponents_consistent : twoComponents.Consistent twoComponentFiles where
  document_ne_zero := by simp [twoComponents]
  component_ne_zero := by
    rintro component ⟨-, hzero⟩
    rcases hzero with hzero | hzero <;> cases hzero
  stored := by
    rintro component number ⟨rfl, hnumber⟩
    exact ⟨⟨1, 0, 40⟩, if_pos ⟨rfl, hnumber⟩, rfl⟩

theorem threeSets_levelled (oper : Fin 3) : LevelledResult twoComponents (threeSets oper) := by
  intro set hset
  fin_cases oper
  · obtain rfl := Option.some.inj hset
    refine ⟨⟨⟨by decide, by decide⟩, by decide, by decide⟩, fun _ ↦ ⟨0, rfl, ?_⟩,
      fun hfalse ↦ absurd hfalse (by decide)⟩
    intro number hnumber
    exact ⟨rfl, .inl (List.mem_singleton.mp hnumber)⟩
  · obtain rfl := Option.some.inj hset
    refine ⟨⟨⟨by decide, by decide⟩, by decide, by decide⟩, fun _ ↦ ⟨0, rfl, ?_⟩,
      fun hfalse ↦ absurd hfalse (by decide)⟩
    intro number hnumber
    exact ⟨rfl, (List.mem_cons.mp hnumber).imp id List.mem_singleton.mp⟩
  · obtain rfl := Option.some.inj hset
    refine ⟨⟨⟨by decide, by decide⟩, by decide, by decide⟩,
      fun htrue ↦ absurd htrue (by decide), ?_⟩
    intro _ number hnumber
    exact List.mem_singleton.mp hnumber

/-- The documents of the components, and others, are a document set. -/
theorem marksLevels_or :
    MarksLevels twoComponents
      (levelCallees twoComponentFiles alwaysNear (fun _ _ _ _ ↦ .ok none) (fun _ _ _ ↦ .ok none)
        hybridOf) threeSets (.node .or (.leaf 1) (.leaf 2)) := by
  refine (marksLevels_iff twoComponents twoComponentFiles alwaysNear _ _ _ hybridMerges_hybridOf
    twoComponents_consistent threeSets threeSets_levelled _).1.mpr ⟨trivial, ?_⟩
  intro leftRes hleft _
  obtain rfl := Except.ok.inj hleft
  refine ⟨trivial, ?_⟩
  intro rightRes hright
  obtain rfl := Except.ok.inj hright
  exact ⟨by decide, by decide⟩

/-- The proximity merge of two component sets returns component 5 as a document. -/
theorem marksLevels_proximity :
    twoComponents.Consistent twoComponentFiles ∧ HybridMerges hybridOf ∧
    (∀ oper, LevelledResult twoComponents (threeSets oper)) ∧
    ∃ set, seProcessRpnStructure
        (levelCallees twoComponentFiles alwaysNear (fun _ _ _ _ ↦ .ok none) (fun _ _ _ ↦ .ok none)
          hybridOf) threeSets (.node (.prox ⟨1, 2, .known 2⟩) (.leaf 0) (.leaf 1)) =
        .ok (some set) ∧ set.recordNums = [5] ∧ ¬ Marked twoComponents set := by
  refine ⟨twoComponents_consistent, hybridMerges_hybridOf, threeSets_levelled, _, rfl, ?_, ?_⟩
  · decide +kernel
  · intro hmarked
    have hfive := hmarked.documents (by decide +kernel) 5 (by decide +kernel)
    revert hfive
    simp [twoComponents]

end Cheshire.Search
