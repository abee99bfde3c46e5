import Cheshire.Search.ComponentDocuments

/-!
# The weights of documents

`se_comp2doc` should give a document the highest weight among its components.  The running maximum is
taken with the entry of the sorted set that stands at the place of the document, and a set without
components still gives one document.
-/

namespace Cheshire.Search

open Lib

/-- The weight with which the loop leaves the document at a place, whose components are `group`. -/
def keptWeight (probFlag : ℕ) (all : List WeightedEntry) (place : ℕ) (group : List WeightedEntry) :
    ℚ :=
  match group with
  | [] => 0
  | [entry] => entry.weight
  | entry :: next :: rest =>
    if probFlag ≠ 0 then
      max ((next :: rest).getLastD entry).weight (all[place]?.getD WeightedEntry.zero).weight
    else 1

theorem keptWeight_append (probFlag : ℕ) (all : List WeightedEntry) (place : ℕ)
    {group : List WeightedEntry} (hne : group ≠ []) (entry : WeightedEntry) :
    keptWeight probFlag all place (group ++ [entry]) =
      if probFlag ≠ 0 then max entry.weight (all[place]?.getD WeightedEntry.zero).weight else 1 := by
  match group, hne with
  | [first], _ => rfl
  | first :: second :: rest, _ =>
    change (if probFlag ≠ 0 then
      max ((second :: rest ++ [entry]).getLastD first).weight _ else 1) = _
    rw [List.getLastD_concat]

/-- The components of a document among entries. -/
def ofRecord (record : ℤ) (entries : List WeightedEntry) : List WeightedEntry :=
  entries.filter fun entry ↦ entry.recordNum = record

/-- The block holds a document for each record among the entries that were passed. -/
structure DocWeights (probFlag size : ℕ) (all passed out cells : List WeightedEntry) : Prop where
  holds : Buffer.Holds WeightedEntry.zero size cells out
  increasing : (out.map WeightedEntry.recordNum).Pairwise (· < ·)
  records : ∀ record, record ∈ out.map WeightedEntry.recordNum ↔
    record ∈ passed.map WeightedEntry.recordNum
  weights : ∀ place doc, out[place]? = some doc →
    doc.weight = keptWeight probFlag all place (ofRecord doc.recordNum passed)

section Loop

variable {probFlag size : ℕ} {all passed front cells : List WeightedEntry}
  {last entry : WeightedEntry}

theorem lt_last_of_increasing
    (h : ((front ++ [last]).map WeightedEntry.recordNum).Pairwise (· < ·)) :
    ∀ doc ∈ front, doc.recordNum < last.recordNum := by
  intro doc hdoc
  rw [List.map_append, List.pairwise_append] at h
  exact h.2.2 _ (List.mem_map_of_mem hdoc) _ (List.mem_singleton_self _)

theorem ofRecord_append_self (passed : List WeightedEntry) (entry : WeightedEntry) :
    ofRecord entry.recordNum (passed ++ [entry]) = ofRecord entry.recordNum passed ++ [entry] := by
  simp [ofRecord]

theorem ofRecord_append_of_ne {record : ℤ} (hne : entry.recordNum ≠ record)
    (passed : List WeightedEntry) : ofRecord record (passed ++ [entry]) = ofRecord record passed := by
  simp [ofRecord, hne]

theorem ofRecord_ne_nil {record : ℤ}
    (hmem : record ∈ passed.map WeightedEntry.recordNum) : ofRecord record passed ≠ [] := by
  obtain ⟨entry, hentry, rfl⟩ := List.mem_map.mp hmem
  exact List.ne_nil_of_mem (List.mem_filter.mpr ⟨hentry, decide_eq_true rfl⟩)

theorem DocWeights.update (h : DocWeights probFlag size all passed (front ++ [last]) cells)
    (hsame : last.recordNum = entry.recordNum) {weight : ℚ}
    (hweight : weight = if probFlag ≠ 0 then
      max entry.weight (all[front.length]?.getD WeightedEntry.zero).weight else 1) :
    ∃ cells', storeWeight cells front.length weight = .ok cells' ∧
      DocWeights probFlag size all (passed ++ [entry]) (front ++ [{ last with weight := weight }])
        cells' := by
  obtain ⟨hsize, hcells⟩ := h.holds
  have hcell : cells[front.length]? = some last := by
    rw [hcells, List.append_assoc, List.getElem?_append_right le_rfl, Nat.sub_self]
    rfl
  refine ⟨cells.set front.length { last with weight := weight }, ?_, ⟨?_, ?_⟩, ?_, ?_, ?_⟩
  · rw [storeWeight, hcell]
  · simpa using hsize
  · rw [hcells]
    simp
  · simpa using h.increasing
  · intro record
    have hmem := h.records record
    have hlast := (h.records last.recordNum).mp (by simp)
    simp only [List.map_append, List.mem_append, List.map_cons, List.map_nil, List.mem_singleton,
      ← hsame] at hmem ⊢
    rw [hmem]
    constructor
    · exact Or.inl
    · rintro (hpassed | rfl)
      · exact hpassed
      · exact hlast
  · intro place doc hdoc
    rcases lt_trichotomy place front.length with hlt | rfl | hgt
    · -- the documents before the last one keep their components
      rw [List.getElem?_append_left hlt] at hdoc
      have hne : entry.recordNum ≠ doc.recordNum := by
        rw [← hsame]
        exact (lt_last_of_increasing h.increasing doc (List.mem_of_getElem? hdoc)).ne'
      rw [ofRecord_append_of_ne hne]
      apply h.weights place doc
      rw [List.getElem?_append_left hlt, hdoc]
    · rw [List.getElem?_append_right le_rfl, Nat.sub_self] at hdoc
      have hdoc := Option.some.inj hdoc
      subst hdoc
      have hlast := (h.records last.recordNum).mp (by simp)
      simp only [hsame] at hlast ⊢
      rw [ofRecord_append_self, keptWeight_append _ _ _ (ofRecord_ne_nil hlast), hweight]
    · rw [List.getElem?_eq_none] at hdoc
      · cases hdoc
      · rw [List.length_append, List.length_singleton]
        omega

theorem DocWeights.next (h : DocWeights probFlag size all passed (front ++ [last]) cells)
    (hsize : front.length + 1 < size) (hlt : last.recordNum < entry.recordNum) :
    ∃ cells', storeDoc cells (front.length + 1) entry.recordNum entry.weight = .ok cells' ∧
      DocWeights probFlag size all (passed ++ [entry])
        (front ++ [last] ++ [⟨entry.recordNum, 0, entry.weight⟩]) cells' := by
  have hlength : (front ++ [last]).length = front.length + 1 := by
    rw [List.length_append, List.length_singleton]
  obtain ⟨cells', hstore, hholds⟩ := h.holds.store (by omega) ⟨entry.recordNum, 0, entry.weight⟩
  rw [hlength] at hstore
  have hbelow : ∀ doc ∈ front ++ [last], doc.recordNum < entry.recordNum := by
    intro doc hdoc
    rcases List.mem_append.mp hdoc with hfront | hlast
    · exact (lt_last_of_increasing h.increasing doc hfront).trans hlt
    · rwa [List.mem_singleton.mp hlast]
  refine ⟨cells', by rw [storeDoc, hstore], hholds, ?_, ?_, ?_⟩
  · rw [List.map_append, List.pairwise_append]
    refine ⟨h.increasing, List.pairwise_singleton _ _, ?_⟩
    intro record hrecord other hother
    obtain ⟨doc, hdoc, rfl⟩ := List.mem_map.mp hrecord
    rw [List.mem_singleton.mp hother]
    exact hbelow doc hdoc
  · intro record
    rw [List.map_append, List.mem_append, h.records record, List.map_append, List.mem_append]
    rfl
  · intro place doc hdoc
    rcases lt_trichotomy place (front ++ [last]).length with hless | rfl | hgt
    · rw [List.getElem?_append_left hless] at hdoc
      rw [ofRecord_append_of_ne (hbelow doc (List.mem_of_getElem? hdoc)).ne']
      exact h.weights place doc hdoc
    · rw [List.getElem?_append_right le_rfl, Nat.sub_self] at hdoc
      have hdoc := Option.some.inj hdoc
      subst hdoc
      change entry.weight = keptWeight probFlag all _ (ofRecord entry.recordNum (passed ++ [entry]))
      have hnone : ofRecord entry.recordNum passed = [] := by
        rw [ofRecord, List.filter_eq_nil_iff]
        intro other hother
        have hmem := (h.records other.recordNum).mpr (List.mem_map_of_mem hother)
        obtain ⟨doc, hdoc, hsame⟩ := List.mem_map.mp hmem
        simpa [← hsame] using (hbelow doc hdoc).ne
      rw [ofRecord_append_self, hnone]
      rfl
    · rw [List.getElem?_eq_none] at hdoc
      · cases hdoc
      · rw [List.length_append, List.length_singleton]
        omega

end Loop

theorem comp2docLoop_weights (probFlag : ℕ) {tempset : WeightedResult} (halloc : tempset.Allocated)
    (hsorted : tempset.recordNums.Pairwise (· ≤ ·)) (k j : ℕ) (hjk : j + k = tempset.numHits.toNat)
    {front cells : List WeightedEntry} {last : WeightedEntry}
    (h : DocWeights probFlag (tempset.numHits.toNat + 1) tempset.hits (tempset.hits.take j)
      (front ++ [last]) cells) (hfront : front.length + 1 ≤ j) :
    ∃ front' last' cells', comp2docLoop probFlag tempset (List.range' j k) cells front.length
        last.recordNum = .ok (cells', front'.length) ∧
      DocWeights probFlag (tempset.numHits.toNat + 1) tempset.hits tempset.hits
        (front' ++ [last']) cells' := by
  induction k generalizing j front cells last with
  | zero =>
    refine ⟨front, last, cells, rfl, ?_⟩
    rwa [List.take_of_length_le (by rw [halloc.length_hits]; omega)] at h
  | succ k ih =>
    obtain ⟨entry, hentry, hdrop⟩ := halloc.entryAt (show (j : ℤ) < tempset.numHits by omega)
    have hlt : j < tempset.hits.length := by
      rw [halloc.length_hits]
      omega
    have hpassed : tempset.hits.take (j + 1) = tempset.hits.take j ++ [entry] := by
      rw [List.drop_eq_getElem_cons hlt] at hdrop
      rw [List.take_succ_eq_append_getElem hlt, (List.cons.inj hdrop).1]
    have hle : last.recordNum ≤ entry.recordNum := by
      have hsplit : tempset.hits = tempset.hits.take j ++ entry :: tempset.hits.drop (j + 1) := by
        rw [← hdrop, List.take_append_drop]
      rw [WeightedResult.recordNums, hsplit, List.map_append, List.pairwise_append] at hsorted
      exact hsorted.2.2 _ ((h.records last.recordNum).mp (by simp)) _ List.mem_cons_self
    rw [List.range'_succ, comp2docLoop, hentry]
    simp only [bind, Except.bind]
    by_cases hsame : last.recordNum = entry.recordNum
    · have hweight : docWeight probFlag tempset entry front.length =
          .ok (if probFlag ≠ 0 then max entry.weight
            (tempset.hits[front.length]?.getD WeightedEntry.zero).weight else 1) := by
        obtain ⟨other, hother, hothers⟩ :=
          halloc.entryAt (show (front.length : ℤ) < tempset.numHits by omega)
        have hplace : tempset.hits[front.length]? = some other := by
          rw [← List.head?_drop, hothers]
          rfl
        rw [docWeight, hother, hplace]
        split
        · simp only [bind, Except.bind, Option.getD_some, gt_iff_lt, max_def]
          split <;> split <;> grind
        · rfl
      obtain ⟨cells', hstore, hupdate⟩ := h.update hsame rfl
      rw [if_pos hsame, hweight]
      simp only [hstore]
      rw [← hpassed] at hupdate
      have hrest := ih (j + 1) (by omega) hupdate (by omega)
      exact hrest
    · obtain ⟨cells', hstore, hnext⟩ := h.next (by omega) (lt_of_le_of_ne hle hsame)
      rw [if_neg hsame, hstore]
      have hlength : (front ++ [last]).length = front.length + 1 := by
        rw [List.length_append, List.length_singleton]
      rw [← hlength]
      rw [← hpassed] at hnext
      have hrest := ih (j + 1) (by omega) hnext (by omega)
      exact hrest

/-- The components of a set with the numbers of their documents, in the order of `se_sortwtset`. -/
def sortedDocs (files : ComponentFiles) (inset : WeightedResult) : List WeightedEntry :=
  (seSortwtset (docTempset (inset.hits.map (replacedEntry files inset)) inset.numHits)).hits

/-- The result lists the documents of the components, each once; a ranked set gives each document the
highest weight of its components. -/
structure MapsToDocuments (files : ComponentFiles) (inset docs : WeightedResult) : Prop where
  distinct : docs.recordNums.Nodup
  numHits : docs.numHits = docs.recordNums.length
  records : ∀ record, record ∈ docs.recordNums ↔ record ∈ inset.documents files
  weights : inset.has RANKED_FLAGS = true → ∀ doc ∈ docs.hits,
    IsGreatest {weight | ∃ entry ∈ inset.hits,
      files.parent inset.component entry.recordNum = doc.recordNum ∧ entry.weight = weight} doc.weight

/-- The larger one of two weights is the highest of each document with several components: that of its
last component, and that of the entry at the place of the document. -/
def HighestKept (files : ComponentFiles) (inset : WeightedResult) : Prop :=
  ∀ place record, ((sortedDocs files inset).map WeightedEntry.recordNum).dedup[place]? = some record →
    IsGreatest {weight | ∃ entry ∈ ofRecord record (sortedDocs files inset), entry.weight = weight}
      (keptWeight (inset.resultType &&& DOC_FLAGS) (sortedDocs files inset) place
        (ofRecord record (sortedDocs files inset)))

section Documents

variable {files : ComponentFiles} {inset : WeightedResult}

theorem StoredComponents.allocated_tempset (h : StoredComponents files inset) :
    (docTempset (inset.hits.map (replacedEntry files inset)) inset.numHits).Allocated ∧
      (docTempset (inset.hits.map (replacedEntry files inset)) inset.numHits).hits =
        inset.hits.map (replacedEntry files inset) := by
  have hlength : (inset.hits.map (replacedEntry files inset)).length = inset.numHits.toNat := by
    rw [List.length_map, h.length_hits]
  refine ⟨⟨h.nonneg, ?_⟩, ?_⟩
  · simp [docTempset, hlength]
  · rw [WeightedResult.hits]
    exact List.take_left' hlength

theorem StoredComponents.perm_sortedDocs (h : StoredComponents files inset) :
    (sortedDocs files inset).Perm (inset.hits.map (replacedEntry files inset)) := by
  rw [sortedDocs, seSortwtset, h.allocated_tempset.1.hits_qsort, h.allocated_tempset.2]
  exact List.perm_insertionSort _ _

theorem StoredComponents.sorted_sortedDocs (h : StoredComponents files inset) :
    ((sortedDocs files inset).map WeightedEntry.recordNum).Pairwise (· ≤ ·) :=
  h.allocated_tempset.1.sorted_seSortwtset

theorem StoredComponents.mem_sortedDocs (h : StoredComponents files inset) (record : ℤ) :
    record ∈ (sortedDocs files inset).map WeightedEntry.recordNum ↔
      record ∈ inset.documents files := by
  rw [(h.perm_sortedDocs.map WeightedEntry.recordNum).mem_iff, WeightedResult.documents,
    WeightedResult.recordNums, List.map_map, List.map_map]
  rfl

theorem StoredComponents.weights_ofRecord (h : StoredComponents files inset) (record : ℤ) :
    {weight | ∃ entry ∈ ofRecord record (sortedDocs files inset), entry.weight = weight} =
      {weight | ∃ entry ∈ inset.hits,
        files.parent inset.component entry.recordNum = record ∧ entry.weight = weight} := by
  ext weight
  constructor
  · rintro ⟨entry, hentry, rfl⟩
    obtain ⟨hmem, hrecord⟩ := List.mem_filter.mp hentry
    obtain ⟨source, hsource, rfl⟩ := List.mem_map.mp (h.perm_sortedDocs.mem_iff.mp hmem)
    exact ⟨source, hsource, of_decide_eq_true hrecord, rfl⟩
  · rintro ⟨source, hsource, hrecord, rfl⟩
    refine ⟨replacedEntry files inset source, List.mem_filter.mpr ⟨?_, decide_eq_true hrecord⟩, rfl⟩
    exact h.perm_sortedDocs.mem_iff.mpr (List.mem_map_of_mem hsource)

theorem StoredComponents.seComp2doc_weights (h : StoredComponents files inset)
    (hne : inset.recordNums ≠ []) :
    ∃ docs out cells, seComp2doc files inset = .ok (some docs) ∧
      docs.numHits = out.length ∧ docs.hits.Perm out ∧
      DocWeights (inset.resultType &&& DOC_FLAGS) (inset.numHits.toNat + 1)
        (sortedDocs files inset) (sortedDocs files inset) out cells := by
  obtain ⟨hallocated, hhits⟩ := h.allocated_tempset
  set tempset := seSortwtset (docTempset (inset.hits.map (replacedEntry files inset)) inset.numHits)
    with htempset
  have halloc : tempset.Allocated := hallocated.qsort _
  have hsorted : tempset.recordNums.Pairwise (· ≤ ·) := hallocated.sorted_seSortwtset
  have hcount := h.length_recordNums
  have hpositive : 0 < inset.recordNums.length := List.length_pos_iff.mpr hne
  have hnumHits : tempset.numHits = inset.numHits := rfl
  obtain ⟨first, hfirst, hdrop⟩ :=
    @WeightedResult.Allocated.entryAt _ halloc 0 (by rw [hnumHits]; omega)
  have hpassed : tempset.hits.take 1 = [first] := by
    rw [List.drop_zero] at hdrop
    rw [hdrop]
    rfl
  obtain ⟨cells, hstore, hholds⟩ := (Buffer.holds_calloc WeightedEntry.zero
    (inset.numHits.toNat + 1)).store (by simp) ⟨first.recordNum, 0, first.weight⟩
  have hstart : DocWeights (inset.resultType &&& DOC_FLAGS) (tempset.numHits.toNat + 1) tempset.hits
      (tempset.hits.take 1) ([] ++ [⟨first.recordNum, 0, first.weight⟩]) cells := by
    rw [hpassed]
    refine ⟨hholds, List.pairwise_singleton _ _, fun _ ↦ Iff.rfl, ?_⟩
    intro place doc hdoc
    cases place with
    | zero =>
      have hdoc := Option.some.inj hdoc
      subst hdoc
      simp [ofRecord, keptWeight]
    | succ place => cases hdoc
  obtain ⟨front, last, cells', hrun, hdone⟩ := comp2docLoop_weights (inset.resultType &&& DOC_FLAGS)
    halloc hsorted (inset.numHits.toNat - 1) 1 (by rw [hnumHits]; omega) hstart le_rfl
  have hstore : storeDoc (Buffer.calloc WeightedEntry.zero (inset.numHits.toNat + 1)) 0
      first.recordNum first.weight = .ok cells := by
    rw [List.length_nil] at hstore
    rw [storeDoc, hstore]
  have hreplaced := h.replaced_ok
  simp only [bind, Except.bind] at hreplaced
  have hlength : (front ++ [last]).length = front.length + 1 := by
    rw [List.length_append, List.length_singleton]
  have hdocs : (docSet inset cells' (front.length + 1)).hits = front ++ [last] := by
    rw [WeightedResult.hits]
    simp only [docSet, Int.toNat_natCast]
    rw [← hlength, hdone.holds.take]
  have hcovered : (docSet inset cells' (front.length + 1)).Allocated := by
    refine ⟨?_, ?_⟩
    · simp only [docSet]
      omega
    · have hcells := hdone.holds.length_cells
      have hsize := hdone.holds.length_le
      simp only [docSet, Int.toNat_natCast]
      omega
  have heq : seComp2doc files inset =
      (if inset.resultType &&& DOC_FLAGS ≠ 0 then
        .ok (some (seRankDocs { docSet inset cells' (front.length + 1) with
          resultType := (docSet inset cells' (front.length + 1)).resultType |||
            (inset.resultType &&& DOC_FLAGS) }))
      else .ok (some (docSet inset cells' (front.length + 1)))) := by
    simp only [List.length_nil] at hrun
    simp only [seComp2doc, bind, Except.bind, hreplaced, ← htempset, hfirst, hstore, hrun]
  rw [heq]
  split
  · have hranked : { docSet inset cells' (front.length + 1) with
        resultType := (docSet inset cells' (front.length + 1)).resultType |||
          (inset.resultType &&& DOC_FLAGS) }.Allocated := ⟨hcovered.nonneg, hcovered.covered⟩
    refine ⟨_, front ++ [last], cells', rfl, ?_, ?_, hdone⟩
    · rw [hlength]
      rfl
    · rw [seRankDocs, hranked.hits_qsort]
      exact (List.perm_insertionSort _ _).trans (.of_eq hdocs)
  · refine ⟨_, front ++ [last], cells', rfl, ?_, .of_eq hdocs, hdone⟩
    rw [hlength]
    rfl

theorem DocWeights.dedup {probFlag size : ℕ} {all passed out cells : List WeightedEntry}
    (h : DocWeights probFlag size all passed out cells)
    (hsorted : (passed.map WeightedEntry.recordNum).Pairwise (· ≤ ·)) :
    out.map WeightedEntry.recordNum = (passed.map WeightedEntry.recordNum).dedup := by
  apply List.Pairwise.eq_of_mem_iff h.increasing
  · have hle := hsorted.sublist (List.dedup_sublist _)
    have hnodup := List.nodup_iff_pairwise_ne.mp (List.nodup_dedup (passed.map WeightedEntry.recordNum))
    exact (hle.and hnodup).imp fun hboth ↦ lt_of_le_of_ne hboth.1 hboth.2
  · intro record
    rw [h.records, List.mem_dedup]

/-- Whatever component set there is, its documents come out right if and only if it has a hit and, in
a ranked set, the two weights that the loop compares last include the highest one. -/
theorem seComp2doc_maps_iff (h : StoredComponents files inset) :
    (∃ docs, seComp2doc files inset = .ok (some docs) ∧ MapsToDocuments files inset docs) ↔
      inset.recordNums ≠ [] ∧ (inset.has RANKED_FLAGS = true → HighestKept files inset) := by
  by_cases hne : inset.recordNums = []
  · -- the document zero
    apply iff_of_false
    · rintro ⟨docs, hdocs, hmaps⟩
      obtain ⟨docs', hdocs', -, -, -, hrecords⟩ := h.seComp2doc_spec
      rw [hdocs] at hdocs'
      have hsame := Option.some.inj (Except.ok.inj hdocs')
      have hzero : (0 : ℤ) ∈ inset.documents files := by
        rw [← hmaps.records, hsame, hrecords, if_pos hne]
      rw [WeightedResult.documents, hne] at hzero
      cases hzero
    · exact fun hboth ↦ hboth.1 hne
  · obtain ⟨docs, out, cells, hdocs, hnumHits, hperm, hout⟩ := h.seComp2doc_weights hne
    have hrecordNums : docs.recordNums.Perm (out.map WeightedEntry.recordNum) :=
      hperm.map WeightedEntry.recordNum
    have hplaces := hout.dedup h.sorted_sortedDocs
    have hweights : (∀ doc ∈ docs.hits, IsGreatest {weight | ∃ entry ∈ inset.hits,
        files.parent inset.component entry.recordNum = doc.recordNum ∧ entry.weight = weight}
          doc.weight) ↔ HighestKept files inset := by
      constructor
      · intro hall place record hplace
        rw [← hplaces, List.getElem?_map, Option.map_eq_some_iff] at hplace
        obtain ⟨doc, hdoc, rfl⟩ := hplace
        rw [h.weights_ofRecord, ← hout.weights place doc hdoc]
        exact hall doc (hperm.mem_iff.mpr (List.mem_of_getElem? hdoc))
      · intro hkept doc hdoc
        obtain ⟨place, hplace⟩ := List.getElem?_of_mem (hperm.mem_iff.mp hdoc)
        rw [← h.weights_ofRecord, hout.weights place doc hplace]
        apply hkept place
        rw [← hplaces, List.getElem?_map, hplace]
        rfl
    constructor
    · rintro ⟨docs', hdocs', hmaps⟩
      rw [hdocs] at hdocs'
      have hsame := Option.some.inj (Except.ok.inj hdocs')
      subst hsame
      exact ⟨hne, fun hranked ↦ hweights.mp (hmaps.weights hranked)⟩
    · rintro ⟨-, hkept⟩
      refine ⟨docs, hdocs, ?_, ?_, ?_, fun hranked ↦ hweights.mpr (hkept hranked)⟩
      · rw [hrecordNums.nodup_iff]
        exact hout.increasing.imp fun hlt ↦ hlt.ne
      · rw [hnumHits, hrecordNums.length_eq, List.length_map]
      · intro record
        rw [hrecordNums.mem_iff, hout.records, h.mem_sortedDocs]

end Documents

/-- Components 1 and 2 belong to record 10, the others to record 20. -/
def scoredFiles : ComponentFiles where
  getComponentRecord number _ := some ⟨if number ≤ 2 then 10 else 20, 0, 0⟩
  componentAt _ := .ok none

def scoredSet : WeightedResult :=
  { componentsOf 0 [1, 2, 3, 4] with
    resultType := COMPONENT_RESULT ||| PROBABILISTIC_RESULT
    entries := [⟨1, 0, 9 / 10⟩, ⟨2, 0, 1 / 10⟩, ⟨3, 0, 8 / 10⟩, ⟨4, 0, 2 / 10⟩] }

theorem storedComponents_scored : StoredComponents scoredFiles scoredSet where
  nonneg := by decide
  covered := by decide
  unhybrid := by decide
  stored := fun _ _ ↦ rfl

theorem seComp2doc_maps_scored :
    (∃ docs, seComp2doc scoredFiles scoredSet = .ok (some docs) ∧
      MapsToDocuments scoredFiles scoredSet docs) ↔
        scoredSet.recordNums ≠ [] ∧
          (scoredSet.has RANKED_FLAGS = true → HighestKept scoredFiles scoredSet) :=
  seComp2doc_maps_iff storedComponents_scored

/-- Record 20 gets the weight of its second component instead of the higher one of its first, and
without hits there is still a document. -/
theorem seComp2doc_not_maps :
    (∃ docs, seComp2doc scoredFiles scoredSet = .ok (some docs) ∧
      ¬MapsToDocuments scoredFiles scoredSet docs) ∧
    ∃ docs, seComp2doc scoredFiles { scoredSet with numHits := 0 } = .ok (some docs) ∧
      docs.numHits = 1 := by
  constructor
  · have hrun : seComp2doc scoredFiles scoredSet = .ok (some { scoredSet with
        resultType := PROBABILISTIC_RESULT
        component := none
        numHits := 2
        entries := [⟨10, 0, 9 / 10⟩, ⟨20, 0, 2 / 10⟩, ⟨0, 0, 0⟩, ⟨0, 0, 0⟩, ⟨0, 0, 0⟩] }) := by
      decide +kernel
    refine ⟨_, hrun, ?_⟩
    intro hmaps
    have hdoc : (⟨20, 0, 2 / 10⟩ : WeightedEntry) ∈ [⟨10, 0, 9 / 10⟩, ⟨20, 0, 2 / 10⟩] := by simp
    have hle := (hmaps.weights (by decide) _ hdoc).2
      ⟨⟨3, 0, 8 / 10⟩, by decide +kernel, by decide +kernel, rfl⟩
    norm_num at hle
  · exact ⟨_, rfl, rfl⟩

end Cheshire.Search
