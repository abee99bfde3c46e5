import Cheshire.Search.PageMergeLoops
import Cheshire.Search.MergeScores

/-!
# The best documents of two page sets

The combined weight of a document is the sum of its weights in the two sets of documents.  A merge that is
limited to `maxresults` should list the documents with the highest combined weights.  `se_pagemerge` lists the
documents of the AND first, compares a weight with a record number to decide from which set the next one
comes, and loads what is left of a set without a bound.
-/

namespace Cheshire.Search

open Lib Lib.RankedChoice

/-- The weight of a record in a set of documents, 0 if it is not there. -/
def pageDocWeight (docs : List WeightedEntry) (record : ℤ) : ℚ :=
  ((docs.find? fun entry ↦ entry.recordNum = record).map WeightedEntry.weight).getD 0

def PageSets.combinedWeight (sets : PageSets) (record : ℤ) : ℚ :=
  pageDocWeight sets.set1.1.hits record + pageDocWeight sets.set2.1.hits record

def PageSets.records (sets : PageSets) : List ℤ := sets.set1.1.recordNums ++ sets.set2.1.recordNums

/-- At most `maxresults` hits, each record once, those with the highest weights, in descending order. -/
structure BestHits (maxresults : ℤ) (weight : ℤ → ℚ) (records : List ℤ) (numHits : ℤ) (hits : List ℤ) :
    Prop where
  within : numHits ≤ maxresults
  distinct : hits.Nodup
  descending : hits.Pairwise fun record other ↦ weight other ≤ weight record
  highest : ∀ record ∈ hits, ∀ other ∈ records, other ∉ hits → weight other ≤ weight record

/-- The merge stays within its memory and lists the best documents; `NULL` lists nothing. -/
def MergesBest (callees : MergeCallees) (maps : PageMaps) (maxresults : ℤ) (inset1 inset2 : WeightedResult)
    (buffers : List PageInfoBuffer) : Prop :=
  ∃ sets merged, pageSets callees maps inset1 inset2 buffers = .ok sets ∧
    sePagemerge callees maps maxresults (some inset1) (some inset2) buffers = .ok merged ∧
    BestHits maxresults (sets.1.elim 0 PageSets.combinedWeight) (sets.1.elim [] PageSets.records)
      (merged.1.elim 0 fun newset ↦ newset.1.numHits) (merged.1.elim [] fun newset ↦ newset.1.recordNums)

/-- A ranked set of pages -/
structure WeightedResult.PageRanked (set : WeightedResult) : Prop where
  paged : set.has PAGED_RESULT = true
  ranked : set.has PAGE_PROB_FLAGS = true
  notVirtual : set.has VIRTUAL_RESULT = false
  notBitmap : set.has BITMAP_RESULT = false
  notComponent : set.has COMPONENT_RESULT = false

theorem compareWeights_le_iff {entry1 entry2 : WeightedEntry} :
    compareWeights entry1 entry2 ≤ 0 ↔ entry2.weight ≤ entry1.weight := by
  rw [compareWeights]
  split_ifs with hless hsame
  · exact iff_of_false (by decide) (not_le.mpr hless)
  · exact iff_of_true le_rfl hsame.ge
  · exact iff_of_true (by decide) (not_lt.mp hless)

theorem compareWeights_total (entry1 entry2 : WeightedEntry) :
    compareWeights entry1 entry2 ≤ 0 ∨ compareWeights entry2 entry1 ≤ 0 := by
  rw [compareWeights_le_iff, compareWeights_le_iff]
  exact le_total _ _

theorem compareWeights_trans (entry1 entry2 entry3 : WeightedEntry) (h12 : compareWeights entry1 entry2 ≤ 0)
    (h23 : compareWeights entry2 entry3 ≤ 0) : compareWeights entry1 entry3 ≤ 0 :=
  compareWeights_le_iff.mpr ((compareWeights_le_iff.mp h23).trans (compareWeights_le_iff.mp h12))

instance totalCompareWeights : Std.Total fun entry1 entry2 ↦ compareWeights entry1 entry2 ≤ 0 :=
  ⟨compareWeights_total⟩

instance transCompareWeights : IsTrans WeightedEntry fun entry1 entry2 ↦ compareWeights entry1 entry2 ≤ 0 :=
  ⟨compareWeights_trans⟩

def inRankOrder (entries : List WeightedEntry) : List WeightedEntry :=
  entries.insertionSort fun entry1 entry2 ↦ compareWeights entry1 entry2 ≤ 0

/-- A set of documents with its table. -/
structure IsDocuments (docs : WeightedResult × Table ℤ DocSum) : Prop extends docs.1.Allocated where
  perm : docs.1.recordNums.Perm docs.2.keys

variable {docs : WeightedResult × Table ℤ DocSum}

theorem IsDocuments.nodup (h : IsDocuments docs) :
    docs.1.recordNums.Nodup := h.perm.nodup_iff.mpr docs.2.nodup

section Documents

variable {callees : MergeCallees} {maps : PageMaps} {inset1 inset2 inset : WeightedResult}
  {buffers buffers' : List PageInfoBuffer}

theorem seGetPageDocs_eq_ok {idnumber : ℤ}
    (h : seGetPageDocs maps (some inset) idnumber buffers = .ok (some docs, buffers')) :
    docs.1 = if inset.resultType &&& PAGE_PROB_FLAGS ≠ 0 then
        seRankDocs (pageDocSet inset docs.2 (inset.resultType &&& PAGE_PROB_FLAGS))
      else pageDocSet inset docs.2 (inset.resultType &&& PAGE_PROB_FLAGS) := by
  rw [seGetPageDocs] at h
  split_ifs at h
  · cases h
  · obtain ⟨name, -, h⟩ := bind_eq_ok.mp h
    cases name with
    | none => cases h
    | some name =>
      obtain ⟨found, -, h⟩ := bind_eq_ok.mp h
      cases h
      rfl

theorem isDocuments_of_seGetPageDocs {idnumber : ℤ}
    (h : seGetPageDocs maps (some inset) idnumber buffers = .ok (some docs, buffers')) :
    IsDocuments docs ∧ (inset.has PAGE_PROB_FLAGS = true → inRankOrder docs.1.hits = docs.1.hits) := by
  have hdocs := seGetPageDocs_eq_ok h
  have halloc := allocated_pageDocSet inset docs.2 (inset.resultType &&& PAGE_PROB_FLAGS)
  have hrecords := recordNums_pageDocSet inset docs.2 (inset.resultType &&& PAGE_PROB_FLAGS)
  by_cases hprob : inset.resultType &&& PAGE_PROB_FLAGS ≠ 0
  · rw [if_pos hprob] at hdocs
    refine ⟨⟨hdocs ▸ halloc.qsort compareWeights, ?_⟩, fun _ ↦ ?_⟩
    · rw [hdocs]
      exact (halloc.perm_recordNums_qsort compareWeights).trans hrecords
    · have hhits := halloc.hits_qsort compareWeights
      rw [← seRankDocs, ← hdocs] at hhits
      rw [hhits]
      exact (List.pairwise_insertionSort _ _).insertionSort_eq
  · rw [if_neg hprob] at hdocs
    refine ⟨⟨hdocs ▸ halloc, ?_⟩, fun hhas ↦ ?_⟩
    · rw [hdocs]
      exact hrecords
    · rw [WeightedResult.has, not_not.mp hprob] at hhas
      cases hhas

theorem ranked_of_seAndmerge (hsorts : SortingCallees callees) (h1 : inset1.PageRanked)
    (h2 : inset2.PageRanked) {merged : WeightedResult} (h : seAndmerge callees (some inset1) (some inset2) = .ok (some merged)) :
    merged.has PAGE_PROB_FLAGS = true := by
  simp only [seAndmerge, h1.notVirtual, h2.notVirtual, h1.notBitmap, h2.notBitmap, Bool.or_false,
    Bool.false_eq_true, if_false] at h
  obtain ⟨paged, hpaged, h⟩ := bind_eq_ok.mp h
  obtain ⟨comp, hcomp, h⟩ := bind_eq_ok.mp h
  obtain ⟨newset, -, h⟩ := bind_eq_ok.mp h
  rw [pagedOperands, h1.paged, h2.paged, Bool.and_true, if_pos rfl] at hpaged
  cases hpaged
  have hsame : sameComponent inset1 inset2 = false := by
    rw [sameComponent, h1.notComponent, Bool.false_and, Bool.false_and]
  rw [componentOperands, hsame, h1.notComponent, h2.notComponent, if_neg Bool.false_ne_true,
    if_neg Bool.false_ne_true, if_neg Bool.false_ne_true] at hcomp
  cases hcomp
  -- the flag of the first set is among those that the AND inherits
  have hflags (type : ℕ) : (type ||| probFlag inset1 inset2) &&& PAGE_PROB_FLAGS ≠ 0 := by
    have hsub : RANKED_FLAGS &&& PAGE_PROB_FLAGS = PAGE_PROB_FLAGS := by decide
    have hranked : inset1.resultType &&& PAGE_PROB_FLAGS ≠ 0 := by
      have hhas := h1.ranked
      rwa [WeightedResult.has, bne_iff_ne] at hhas
    intro hzero
    rw [Nat.and_or_distrib_right, Nat.or_eq_zero_iff, probFlag, Nat.and_or_distrib_right, Nat.or_eq_zero_iff,
      Nat.land_assoc, hsub] at hzero
    exact hranked hzero.2.1
  have hne : probFlag inset1 inset2 ≠ 0 := by
    intro hzero
    have hflag := hflags 0
    rw [hzero] at hflag
    exact hflag rfl
  rw [ranked, if_pos hne, hsorts.seRankDocs_eq] at h
  cases h
  exact bne_iff_ne.mpr (hflags _)

structure PageSets.Documents (sets : PageSets) : Prop where
  mergedDocs : IsDocuments sets.mergedDocs
  set1 : IsDocuments sets.set1
  set2 : IsDocuments sets.set2
  ranked : inRankOrder sets.mergedDocs.1.hits = sets.mergedDocs.1.hits

theorem documents_of_pageSets (hsorts : SortingCallees callees) (h1 : inset1.PageRanked)
    (h2 : inset2.PageRanked) {sets : PageSets} (h : pageSets callees maps inset1 inset2 buffers = .ok (some sets, buffers')) :
    sets.Documents := by
  obtain ⟨anded, hand, h⟩ := bind_eq_ok.mp h
  obtain ⟨merged, hmerged, hrest⟩ := bind_eq_ok.mp h
  cases anded with
  | none => cases hmerged
  | some anded =>
    cases hmerged
    by_cases hzero : merged.numHits = 0
    · rw [if_pos hzero] at hrest
      cases hrest
    rw [if_neg hzero] at hrest
    obtain ⟨mergedDocs, hmergedDocs, hrest⟩ := bind_eq_ok.mp hrest
    obtain ⟨docs1, hdocs1, hrest⟩ := bind_eq_ok.mp hrest
    obtain ⟨docs2, hdocs2, hrest⟩ := bind_eq_ok.mp hrest
    obtain ⟨found, hfound, hrest⟩ := bind_eq_ok.mp hrest
    obtain ⟨found1, hfound1, hrest⟩ := bind_eq_ok.mp hrest
    obtain ⟨found2, hfound2, hrest⟩ := bind_eq_ok.mp hrest
    cases hrest
    have hsome {docs : Option (WeightedResult × Table ℤ DocSum) × List PageInfoBuffer}
        {found : WeightedResult × Table ℤ DocSum} (hderef : deref docs.1 = .ok found) :
        docs = (some found, docs.2) := by
      obtain ⟨docs, buffers⟩ := docs
      cases docs with
      | none => cases hderef
      | some docs =>
        cases hderef
        rfl
    rw [hsome hfound] at hmergedDocs
    rw [hsome hfound1] at hdocs1
    rw [hsome hfound2] at hdocs2
    obtain ⟨hdocs, hranked⟩ := isDocuments_of_seGetPageDocs hmergedDocs
    exact ⟨hdocs, (isDocuments_of_seGetPageDocs hdocs1).1, (isDocuments_of_seGetPageDocs hdocs2).1,
      hranked (ranked_of_seAndmerge hsorts h1 h2 hand)⟩

end Documents

section Merge

variable {sets : PageSets} {maxresults : ℤ}

theorem tables_spec (h : sets.Documents) :
    sets.tables.Keeps sets.set1.1.recordNums sets.set2.1.recordNums ∧
      (∀ record, record ∈ sets.tables.merghash.keys ↔ record ∈ sets.mergedDocs.1.recordNums) ∧
      (sets.tables.docWtsSet2 ≠ none ↔
        ∃ record ∈ sets.mergedDocs.1.recordNums, record ∈ sets.set2.1.recordNums) := by
  have hkeys {docs : WeightedResult × Table ℤ DocSum} (hdocs : IsDocuments docs) (record : ℤ) :
      record ∈ (docs.2.mapValues PageSum.of).keys ↔ record ∈ docs.1.recordNums := by
    rw [Table.keys_mapValues]
    exact hdocs.perm.mem_iff.symm
  let start : PageTables := ⟨sets.mergedDocs.2.mapValues PageSum.of, sets.set1.2.mapValues PageSum.of,
    sets.set2.2.mapValues PageSum.of, none⟩
  have hstart : start.Keeps sets.set1.1.recordNums sets.set2.1.recordNums :=
    ⟨hkeys h.set1, hkeys h.set2, fun _ hnone ↦ by cases hnone⟩
  have hwalk (record : ℤ) : record ∈ (hashEntries start.merghash).map Prod.fst ↔ record ∈ start.merghash.keys :=
    ((hashEntries_perm start.merghash).map Prod.fst).mem_iff
  obtain ⟨hmerge, hkeeps, hpointer⟩ :=
    PageTables.foldl_joinDoc_spec _ hstart fun record hmem ↦ (hwalk record).mp hmem
  refine ⟨hkeeps, fun record ↦ ?_, ?_⟩
  · rw [← hkeys h.mergedDocs record]
    exact hmerge ▸ Iff.rfl
  · refine hpointer.trans ?_
    simp only [hwalk, start, ne_eq, not_true_eq_false, false_or, hkeys h.mergedDocs]

theorem PageMerge.finish_spec {merge : PageMerge} {total : ℕ} {listed : List WeightedEntry}
    (h : merge.newset.Filled total listed) (mergedDocs : WeightedResult) (filename : String) :
    (merge.finish mergedDocs filename).numHits = listed.length ∧
      (merge.finish mergedDocs filename).hits = inRankOrder listed := by
  let newset : WeightedResult :=
    { mergedDocs with
      setid := ""
      filename := filename
      resultType := PAGED_DOC_RESULT ||| PROBABILISTIC_RESULT
      numHits := merge.newset.index
      entries := merge.newset.cells }
  have hhits : newset.hits = listed := by
    rw [WeightedResult.hits]
    change merge.newset.cells.take (merge.newset.index : ℤ).toNat = listed
    rw [Int.toNat_natCast, h.index_eq, h.holds.take]
  have halloc : newset.Allocated := by
    refine ⟨Int.natCast_nonneg _, ?_⟩
    change (merge.newset.index : ℤ).toNat ≤ merge.newset.cells.length
    rw [Int.toNat_natCast, h.index_eq, h.holds.length_cells]
    exact h.holds.length_le
  refine ⟨congrArg Nat.cast h.index_eq, ?_⟩
  have hsorted := halloc.hits_qsort compareWeights
  rwa [hhits] at hsorted

/-- With room, the entries are listed in rank order; without, there are more than `maxresults` hits, if the
merge ends at all. -/
theorem mergePageSets_spec (h : sets.Documents) (maxresults : ℤ) (filename : String) :
    (Fits maxresults sets.mergedDocs.1.hits sets.set1.1.hits sets.set2.1.hits →
      ∃ merged, mergePageSets maxresults filename sets = .ok merged ∧
        merged.1.numHits ≤ maxresults ∧
        merged.1.hits = inRankOrder
          (entriesListed maxresults sets.mergedDocs.1.hits sets.set1.1.hits sets.set2.1.hits)) ∧
      (¬Fits maxresults sets.mergedDocs.1.hits sets.set1.1.hits sets.set2.1.hits →
        ∀ merged, mergePageSets maxresults filename sets = .ok merged → maxresults < merged.1.numHits) := by
  have hcount : sets.mergedDocs.1.numHits = sets.mergedDocs.1.hits.length := by
    have hlength := h.mergedDocs.toAllocated.length_hits
    have hnonneg := h.mergedDocs.nonneg
    omega
  have hstart (entries : List WeightedEntry) :
      sets.mergedDocs.1.hits <+: listNew sets.mergedDocs.1.hits entries := prefix_addNew _ entries
  by_cases hmany : sets.mergedDocs.1.numHits ≥ maxresults
  · -- the documents of the AND are enough
    rw [mergePageSets, if_pos hmany]
    constructor
    · rintro ⟨hle, -⟩
      have hlength : (sets.mergedDocs.1.hits.length : ℤ) = maxresults := by omega
      refine ⟨_, rfl, hcount ▸ hle, ?_⟩
      rw [entriesListed, ← hlength, Int.toNat_natCast, ← List.prefix_iff_eq_take.mp (hstart _), h.ranked]
    · intro hnot merged hmerged
      cases hmerged
      change maxresults < sets.mergedDocs.1.numHits
      by_contra hfew
      have hle := (hstart (contest set1First sets.set1.1.hits sets.set2.1.hits).order).length_le
      exact hnot ⟨by omega, Or.inl (by omega)⟩
  · obtain ⟨hkeeps, hmerged, hpointer⟩ := tables_spec h
    have hlt : (sets.mergedDocs.1.hits.length : ℤ) < maxresults := by omega
    have hroom : ([] : List WeightedEntry).length + sets.mergedDocs.1.hits.length ≤ (maxresults + 1).toNat := by
      rw [List.length_nil]
      omega
    obtain ⟨newset, hcopy, hfilled⟩ :=
      copyEntries_spec (NewSet.filled_alloc (maxresults + 1).toNat) hroom
    rw [List.nil_append] at hfilled
    have htotal : maxresults ≤ ((maxresults + 1).toNat : ℤ) := by omega
    have hlists : PageMerge.Lists ⟨newset, sets.tables⟩ (maxresults + 1).toNat sets.set1.1.recordNums
        sets.set2.1.recordNums sets.mergedDocs.1.hits := ⟨hkeeps, hfilled, hmerged⟩
    obtain ⟨hfits, hnot⟩ := loadEntries_spec htotal hlists hpointer hlt.le
    have hrun : mergePageSets maxresults filename sets =
        loadEntries maxresults sets.set1.1.hits sets.set2.1.hits ⟨newset, sets.tables⟩ >>= fun merge ↦
          .ok (merge.finish sets.mergedDocs.1 filename, merge.tables.merghash) := by
      rw [mergePageSets, if_neg hmany, hcopy]
      rfl
    rw [hrun]
    constructor
    · intro hall
      obtain ⟨merge, hload, hlisted⟩ := hfits hall
      obtain ⟨hnumHits, hhits⟩ := PageMerge.finish_spec hlisted sets.mergedDocs.1 filename
      rw [hload]
      refine ⟨_, rfl, ?_, hhits⟩
      rw [hnumHits, entriesListed, List.length_take]
      omega
    · intro hnone merged hmerged
      obtain ⟨merge, hload, hmerged⟩ := bind_eq_ok.mp hmerged
      cases hmerged
      exact hnot hnone merge hload

theorem mem_records_inRankOrder (entries : List WeightedEntry) (record : ℤ) :
    record ∈ (inRankOrder entries).map WeightedEntry.recordNum ↔
      record ∈ entries.map WeightedEntry.recordNum :=
  ((List.perm_insertionSort _ entries).map _).mem_iff

theorem nodup_entriesListed (h : sets.Documents) (maxresults : ℤ) :
    ((entriesListed maxresults sets.mergedDocs.1.hits sets.set1.1.hits sets.set2.1.hits).map
      WeightedEntry.recordNum).Nodup := by
  rw [entriesListed, List.map_take]
  exact (nodup_addNew h.mergedDocs.nodup _).sublist (List.take_sublist _ _)

/-- There is room for the entries that are listed; of two of them, the one that ranks higher, or was listed
first among equals, has no lower combined weight; and no document that is not listed has a higher one. -/
structure ListsTheBest (maxresults : ℤ) (sets : PageSets) (listed : List WeightedEntry) : Prop where
  fits : Fits maxresults sets.mergedDocs.1.hits sets.set1.1.hits sets.set2.1.hits
  ranks : ∀ entry ∈ listed, ∀ other ∈ listed, entry ≠ other → other.weight ≤ entry.weight →
    (entry.weight ≤ other.weight → [entry, other].Sublist listed) →
    sets.combinedWeight other.recordNum ≤ sets.combinedWeight entry.recordNum
  highest : ∀ entry ∈ listed, ∀ record ∈ sets.records, record ∉ listed.map WeightedEntry.recordNum →
    sets.combinedWeight record ≤ sets.combinedWeight entry.recordNum

theorem bestHits_iff {numHits : ℤ} {hits listed : List WeightedEntry}
    (hfits : Fits maxresults sets.mergedDocs.1.hits sets.set1.1.hits sets.set2.1.hits)
    (hwithin : numHits ≤ maxresults) (hhits : hits = inRankOrder listed)
    (hnodup : (listed.map WeightedEntry.recordNum).Nodup) :
    BestHits maxresults sets.combinedWeight sets.records numHits (hits.map WeightedEntry.recordNum) ↔
      ListsTheBest maxresults sets listed := by
  have hdescending : (hits.map WeightedEntry.recordNum).Pairwise
        (fun record other ↦ sets.combinedWeight other ≤ sets.combinedWeight record) ↔
      ∀ entry ∈ listed, ∀ other ∈ listed, entry ≠ other → other.weight ≤ entry.weight →
        (entry.weight ≤ other.weight → [entry, other].Sublist listed) →
        sets.combinedWeight other.recordNum ≤ sets.combinedWeight entry.recordNum := by
    rw [hhits, List.pairwise_map, inRankOrder, pairwise_insertionSort_iff (hnodup.of_map _)]
    simp only [compareWeights_le_iff]
  have hmem (record : ℤ) :
      record ∈ hits.map WeightedEntry.recordNum ↔ record ∈ listed.map WeightedEntry.recordNum :=
    hhits ▸ mem_records_inRankOrder listed record
  constructor
  · intro hbest
    refine ⟨hfits, hdescending.mp hbest.descending, fun entry hentry record hrecord hnot ↦ ?_⟩
    exact hbest.highest _ ((hmem _).mpr (List.mem_map_of_mem hentry)) record hrecord fun hin ↦
      hnot ((hmem record).mp hin)
  · intro hlists
    refine ⟨hwithin, ?_, hdescending.mpr hlists.ranks, fun record hrecord other hother hnot ↦ ?_⟩
    · rw [hhits]
      exact ((List.perm_insertionSort _ listed).map _).nodup_iff.mpr hnodup
    · obtain ⟨entry, hentry, rfl⟩ := List.mem_map.mp ((hmem record).mp hrecord)
      exact hlists.highest entry hentry other hother fun hin ↦ hnot ((hmem other).mpr hin)

/-- The merge of these sets lists the best documents; without pages in both sets it lists nothing. -/
def FindsBest (maxresults : ℤ) : Option PageSets → Prop
  | none => 0 ≤ maxresults
  | some sets => ListsTheBest maxresults sets
      (entriesListed maxresults sets.mergedDocs.1.hits sets.set1.1.hits sets.set2.1.hits)

theorem mergePageSets_best_iff (h : sets.Documents) (maxresults : ℤ) (filename : String) :
    (∃ merged, mergePageSets maxresults filename sets = .ok merged ∧
        BestHits maxresults sets.combinedWeight sets.records merged.1.numHits merged.1.recordNums) ↔
      FindsBest maxresults (some sets) := by
  obtain ⟨hfits, hnot⟩ := mergePageSets_spec h maxresults filename
  by_cases hall : Fits maxresults sets.mergedDocs.1.hits sets.set1.1.hits sets.set2.1.hits
  · obtain ⟨merged, hrun, hwithin, hhits⟩ := hfits hall
    have hbest := bestHits_iff hall hwithin hhits (nodup_entriesListed h maxresults)
    constructor
    · rintro ⟨merged', hrun', hbest'⟩
      rw [hrun] at hrun'
      cases hrun'
      exact hbest.mp hbest'
    · exact fun hlists ↦ ⟨merged, hrun, hbest.mpr hlists⟩
  · refine iff_of_false ?_ fun hlists ↦ hall hlists.fits
    rintro ⟨merged, hrun, hbest⟩
    exact absurd hbest.within (not_le.mpr (hnot hall merged hrun))

end Merge

/-- A page map with three pages, each of another document. -/
def threePages : PageMaps := fun _ _ ↦
  some (4, [⟨0, 3, 0, 0⟩, ⟨1, 1, 0, 0⟩, ⟨5, 1, 0, 0⟩, ⟨7, 1, 0, 0⟩])

/-- A ranked set of pages of that map. -/
def rankedPages (pages : List (ℤ × ℚ)) : WeightedResult where
  setid := ""
  filename := "docs::pages"
  resultType := PAGED_RESULT ||| PROBABILISTIC_RESULT
  component := none
  termid := []
  numHits := pages.length
  resultWeight := 0
  maxWeight := 0
  minWeight := 0
  entries := pages.map fun page ↦ ⟨page.1, 0, page.2⟩

theorem pageRanked_rankedPages (pages : List (ℤ × ℚ)) : (rankedPages pages).PageRanked := by
  have hhas (flag : ℕ) :
      (rankedPages pages).has flag = ((PAGED_RESULT ||| PROBABILISTIC_RESULT) &&& flag != 0) := rfl
  constructor <;> rw [hhas] <;> decide

def firstPages : WeightedResult := rankedPages [(1, 4 / 5), (2, 9 / 10)]
def secondPages : WeightedResult := rankedPages [(1, 3 / 5), (3, 1 / 10)]

end Cheshire.Search
