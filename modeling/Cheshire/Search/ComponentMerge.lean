import Cheshire.Search.ComponentDocuments

/-!
# Boolean operators on sets of different components

Two component sets of different definitions have no number in common that means anything.  OR maps
both to their documents.  AND and NOT map the first one only, so they compare its documents with
the component numbers of the second.
-/

namespace Cheshire.Search

/-- The callees of the operators with the sorts and `se_comp2doc` as they are. -/
def componentCallees (files : ComponentFiles)
    (seVirtualmerge : WeightedResult → WeightedResult → ℕ → ℕ → Exec (Option WeightedResult))
    (seBitmapMerge : WeightedResult → WeightedResult → ℕ → Exec (Option WeightedResult))
    (seGetPageDocs : WeightedResult → ℕ → Exec (Option WeightedResult)) : MergeCallees where
  seVirtualmerge := seVirtualmerge
  seBitmapMerge := seBitmapMerge
  seGetPageDocs := seGetPageDocs
  seComp2doc := seComp2doc files
  seSortwtset := seSortwtset
  seRankDocs := seRankDocs

/-- The run returns a set with exactly these members. -/
def ReturnsMembers (run : Exec (Option WeightedResult)) (members : ℤ → Prop) : Prop :=
  ∃ merged, run = .ok (some merged) ∧ ∀ record, record ∈ merged.recordNums ↔ members record

/-- The three operators act on the documents of both sets. -/
structure MergesDocuments (callees : MergeCallees) (files : ComponentFiles)
    (set1 set2 : WeightedResult) (addweights : ℕ) : Prop where
  and_documents : ReturnsMembers (seAndmerge callees (some set1) (some set2))
    (fun record ↦ record ∈ set1.documents files ∧ record ∈ set2.documents files)
  or_documents : ReturnsMembers (seOrmerge callees (some set1) (some set2) addweights)
    (fun record ↦ record ∈ set1.documents files ∨ record ∈ set2.documents files)
  not_documents : ReturnsMembers (seNotmerge callees (some set1) (some set2))
    (fun record ↦ record ∈ set1.documents files ∧ record ∉ set2.documents files)

section Operators

variable {files : ComponentFiles} {callees : MergeCallees} {set1 set2 : WeightedResult}

/-- What the document set of a component set lists, the document zero when there is nothing to
list. -/
def listedDocuments (files : ComponentFiles) (set : WeightedResult) (record : ℤ) : Prop :=
  if set.recordNums = [] then record = 0 else record ∈ set.documents files

theorem pagedOperands_components (h1 : ComponentSet files set1) (h2 : ComponentSet files set2) :
    pagedOperands callees set1 set2 = .ok ⟨set1, set2, false, 0⟩ := by
  simp [pagedOperands, h1.not_has PAGED_RESULT (by decide), h2.not_has PAGED_RESULT (by decide)]

theorem direct_components (h1 : ComponentSet files set1) (h2 : ComponentSet files set2) :
    Direct set1 set2 where
  virtual1 := h1.not_has VIRTUAL_RESULT (by decide)
  virtual2 := h2.not_has VIRTUAL_RESULT (by decide)
  bitmap1 := h1.not_has BITMAP_RESULT (by decide)
  bitmap2 := h2.not_has BITMAP_RESULT (by decide)

theorem not_sameComponent (hdiff : set1.component ≠ set2.component) :
    sameComponent set1 set2 = false := by
  simp [sameComponent, hdiff]

theorem componentOperands_components (hcomp : callees.seComp2doc = seComp2doc files)
    (h1 : ComponentSet files set1) (hdiff : set1.component ≠ set2.component) :
    ∃ docs, componentOperands callees set1 set2 set1 set2 = .ok ⟨docs, set2, false, 1⟩ ∧
      docs.Sortable ∧ ∀ record, record ∈ docs.recordNums ↔ listedDocuments files set1 record := by
  obtain ⟨docs, hdocs, hsortable, -, -, hmem⟩ := h1.storedComponents.seComp2doc_spec
  refine ⟨docs, ?_, hsortable, hmem⟩
  rw [componentOperands, not_sameComponent hdiff, if_neg Bool.false_ne_true, if_pos h1.component,
    hcomp, hdocs]
  rfl

theorem componentOperandsOr_components (hcomp : callees.seComp2doc = seComp2doc files)
    (h1 : ComponentSet files set1) (h2 : ComponentSet files set2)
    (hdiff : set1.component ≠ set2.component) :
    ∃ docs1 docs2, componentOperandsOr callees set1 set2 set1 set2 =
        .ok ⟨docs1, docs2, false, 3⟩ ∧ docs1.Sortable ∧ docs2.Sortable ∧
      (∀ record, record ∈ docs1.recordNums ↔ listedDocuments files set1 record) ∧
      ∀ record, record ∈ docs2.recordNums ↔ listedDocuments files set2 record := by
  obtain ⟨docs1, hdocs1, hsortable1, -, -, hmem1⟩ := h1.storedComponents.seComp2doc_spec
  obtain ⟨docs2, hdocs2, hsortable2, -, -, hmem2⟩ := h2.storedComponents.seComp2doc_spec
  refine ⟨docs1, docs2, ?_, hsortable1, hsortable2, hmem1, hmem2⟩
  rw [componentOperandsOr, not_sameComponent hdiff, if_neg Bool.false_ne_true, h1.component,
    h2.component, hcomp, hdocs1, hdocs2]
  rfl

theorem componentMerges_members (hsorts : SortingCallees callees)
    (hcomp : callees.seComp2doc = seComp2doc files) (h1 : ComponentSet files set1)
    (h2 : ComponentSet files set2) (hdiff : set1.component ≠ set2.component) (addweights : ℕ) :
    ReturnsMembers (seAndmerge callees (some set1) (some set2))
      (fun record ↦ listedDocuments files set1 record ∧ record ∈ set2.recordNums) ∧
    ReturnsMembers (seOrmerge callees (some set1) (some set2) addweights)
      (fun record ↦ listedDocuments files set1 record ∨ listedDocuments files set2 record) ∧
    ReturnsMembers (seNotmerge callees (some set1) (some set2))
      (fun record ↦ listedDocuments files set1 record ∧ record ∉ set2.recordNums) := by
  have hpaged := @pagedOperands_components _ callees _ _ h1 h2
  have hdirect := direct_components h1 h2
  obtain ⟨docs, hdocs, hsortable, hmem⟩ := componentOperands_components hcomp h1 hdiff
  obtain ⟨docs1, docs2, hboth, hsortable1, hsortable2, hmem1, hmem2⟩ :=
    componentOperandsOr_components hcomp h1 h2 hdiff
  obtain ⟨both, hand, hand'⟩ :=
    seAndmerge_operands hsorts hdirect hpaged hdocs hsortable h2.toSortable
  obtain ⟨either, hor, hor'⟩ :=
    seOrmerge_operands hsorts hdirect hpaged hboth hsortable1 hsortable2 addweights
  obtain ⟨first, hnot, hnot'⟩ :=
    seNotmerge_operands hsorts hdirect hpaged hdocs hsortable h2.toSortable
  refine ⟨⟨both, hand, ?_⟩, ⟨either, hor, ?_⟩, ⟨first, hnot, ?_⟩⟩
  · intro record
    rw [hand'.mem_iff, hmem]
  · intro record
    rw [hor'.mem_iff, hmem1, hmem2]
  · intro record
    rw [hnot'.mem_iff, hmem]

theorem ReturnsMembers.iff_of_same {run : Exec (Option WeightedResult)} {members : ℤ → Prop}
    (h : ReturnsMembers run members) (expected : ℤ → Prop) :
    ReturnsMembers run expected ↔ ∀ record, members record ↔ expected record := by
  obtain ⟨merged, hrun, hmem⟩ := h
  constructor
  · rintro ⟨merged', hrun', hmem'⟩ record
    rw [hrun, Except.ok.injEq, Option.some.injEq] at hrun'
    rw [← hmem, hrun', hmem']
  · intro hsame
    exact ⟨merged, hrun, fun record ↦ by rw [hmem, hsame]⟩

theorem ComponentSet.zero_not_mem (h : ComponentSet files set1) :
    (0 : ℤ) ∉ set1.documents files := by
  intro hmem
  obtain ⟨number, hnumber, hzero⟩ := List.mem_map.mp hmem
  have hpositive := (h.positive number hnumber).2
  omega

theorem ComponentSet.listedDocuments_iff (h : ComponentSet files set1) :
    (∀ record, listedDocuments files set1 record ↔ record ∈ set1.documents files) ↔
      set1.recordNums ≠ [] := by
  unfold listedDocuments
  constructor
  · intro hsame hnil
    have hzero := (hsame 0).mp (by rw [if_pos hnil])
    exact h.zero_not_mem hzero
  · intro hne record
    rw [if_neg hne]

end Operators

/-- All three operators act on the documents of two sets of different components exactly when
neither set is empty and, among the documents of the first set, those that the second set has as
component numbers are those that it has as documents. -/
theorem mergesDocuments_iff (files : ComponentFiles)
    (seVirtualmerge : WeightedResult → WeightedResult → ℕ → ℕ → Exec (Option WeightedResult))
    (seBitmapMerge : WeightedResult → WeightedResult → ℕ → Exec (Option WeightedResult))
    (seGetPageDocs : WeightedResult → ℕ → Exec (Option WeightedResult))
    (set1 set2 : WeightedResult) (h1 : ComponentSet files set1) (h2 : ComponentSet files set2)
    (hdiff : set1.component ≠ set2.component) (addweights : ℕ) :
    MergesDocuments (componentCallees files seVirtualmerge seBitmapMerge seGetPageDocs) files
        set1 set2 addweights ↔
      set1.recordNums ≠ [] ∧ set2.recordNums ≠ [] ∧
        ∀ document ∈ set1.documents files,
          (document ∈ set2.recordNums ↔ document ∈ set2.documents files) := by
  obtain ⟨hand, hor, hnot⟩ := @componentMerges_members _
    (componentCallees files seVirtualmerge seBitmapMerge seGetPageDocs) _ _ ⟨rfl, rfl⟩ rfl
    h1 h2 hdiff addweights
  have hl1 := h1.listedDocuments_iff
  constructor
  · intro h
    have hand' := (hand.iff_of_same _).mp h.and_documents
    have hor' := (hor.iff_of_same _).mp h.or_documents
    have hne1 : set1.recordNums ≠ [] := by
      intro hnil
      have hzero := (hor' 0).mp (.inl (by rw [listedDocuments, if_pos hnil]))
      exact hzero.elim h1.zero_not_mem h2.zero_not_mem
    have hne2 : set2.recordNums ≠ [] := by
      intro hnil
      have hzero := (hor' 0).mp (.inr (by rw [listedDocuments, if_pos hnil]))
      exact hzero.elim h1.zero_not_mem h2.zero_not_mem
    refine ⟨hne1, hne2, ?_⟩
    intro document hdocument
    have hlisted := (hl1.mpr hne1 document).mpr hdocument
    have hsame := hand' document
    tauto
  · rintro ⟨hne1, hne2, hsame⟩
    have hlist1 := hl1.mpr hne1
    have hlist2 := h2.listedDocuments_iff.mpr hne2
    refine ⟨(hand.iff_of_same _).mpr ?_, (hor.iff_of_same _).mpr ?_, (hnot.iff_of_same _).mpr ?_⟩
    · intro record
      have := hsame record
      rw [hlist1]
      tauto
    · intro record
      rw [hlist1, hlist2]
    · intro record
      have := hsame record
      rw [hlist1]
      tauto

/-- Document 1 holds component 1 of the first definition and components 1 and 5 of the second. -/
def oneDocument : ComponentFiles where
  getComponentRecord number component :=
    if component = some 0 ∧ number = 1 then some ⟨1, 0, 40⟩
    else if component = some 1 ∧ (number = 1 ∨ number = 5) then some ⟨1, 50, 90⟩
    else none
  componentAt _ := .ok none

theorem oneDocument_first : ComponentSet oneDocument (componentsOf 0 [1]) where
  nonneg := by decide
  covered := by decide
  distinct := by decide
  ordered := by decide
  component := by decide
  ordinary := by decide
  stored := by decide
  positive := by decide

theorem oneDocument_second : ComponentSet oneDocument (componentsOf 1 [5]) :=
  ⟨⟨⟨by decide, by decide⟩, by decide, by decide⟩, by decide, by decide, by decide, by decide⟩

/-- Document 2 holds components 7 of the first definition and 2 and 5 of the second, and document 9
component 8 of the first. -/
def twoDocuments : ComponentFiles where
  getComponentRecord number component :=
    if component = some 0 ∧ number = 7 then some ⟨2, 0, 40⟩
    else if component = some 0 ∧ number = 8 then some ⟨9, 0, 40⟩
    else if component = some 1 ∧ (number = 2 ∨ number = 5) then some ⟨2, 50, 90⟩
    else none
  componentAt _ := .ok none

/-- The number of one of the second components is also that of its document. -/
theorem mergesDocuments_sameNumber :
    MergesDocuments (componentCallees twoDocuments (fun _ _ _ _ ↦ .ok none) (fun _ _ _ ↦ .ok none)
      fun _ _ ↦ .ok none) twoDocuments (componentsOf 0 [7, 8]) (componentsOf 1 [2, 5]) 0 :=
  (mergesDocuments_iff twoDocuments _ _ _ _ _
    ⟨⟨⟨by decide, by decide⟩, by decide, by decide⟩, by decide, by decide, by decide, by decide⟩
    ⟨⟨⟨by decide, by decide⟩, by decide, by decide⟩, by decide, by decide, by decide, by decide⟩
    (by decide) 0).mpr ⟨by decide, by decide, by decide⟩

/-- Both sets lie in document 1, but AND finds nothing. -/
theorem mergesDocuments_otherNumber :
    ComponentSet oneDocument (componentsOf 0 [1]) ∧ ComponentSet oneDocument (componentsOf 1 [5]) ∧
    (componentsOf 0 [1]).component ≠ (componentsOf 1 [5]).component ∧
    ¬ MergesDocuments (componentCallees oneDocument (fun _ _ _ _ ↦ .ok none)
      (fun _ _ _ ↦ .ok none) fun _ _ ↦ .ok none) oneDocument (componentsOf 0 [1])
      (componentsOf 1 [5]) 0 := by
  refine ⟨oneDocument_first, oneDocument_second, by decide, ?_⟩
  intro h
  obtain ⟨merged, hrun, hmem⟩ := h.and_documents
  have hnone : (seAndmerge (componentCallees oneDocument (fun _ _ _ _ ↦ .ok none)
      (fun _ _ _ ↦ .ok none) fun _ _ ↦ .ok none) (some (componentsOf 0 [1]))
      (some (componentsOf 1 [5]))).map (Option.map WeightedResult.recordNums) =
      .ok (some []) := by decide +kernel
  rw [hrun] at hnone
  have hempty : merged.recordNums = [] := Option.some.inj (Except.ok.inj hnone)
  have hone := (hmem 1).mpr (by decide)
  rw [hempty] at hone
  exact List.not_mem_nil hone

end Cheshire.Search
