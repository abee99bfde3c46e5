import Cheshire.Index.Components
import Cheshire.Search.RankedMerge

/-!
# From components to documents

`se_comp2doc` replaces each component number of a set by the record it belongs to, sorts the
entries and keeps one entry for each record.  The files that map component numbers to records are a
parameter.
-/

namespace Cheshire.Search

open Lib Lib.SortedMerge

def HYBRID_RESULT : ℕ := 1 <<< 17

/-- The component files, and the component of the set to which a hybrid entry points. -/
structure ComponentFiles where
  getComponentRecord : ℤ → Option ℕ → Option Index.ComponentDataItem
  componentAt : ℕ → Exec (Option ℕ)

/-- The flags under which `se_comp2doc` keeps the highest weight. -/
def DOC_FLAGS : ℕ :=
  PROBABILISTIC_RESULT ||| OKAPI_RESULT ||| TFIDF_RESULT ||| CORI_RESULT ||| FUZZY_RESULT |||
    BLOB_RESULT

/-- The entry with its component number replaced. -/
def docEntry (files : ComponentFiles) (inset : WeightedResult) (entry : WeightedEntry) :
    Exec WeightedEntry :=
  if inset.has HYBRID_RESULT then do
    match ← files.componentAt entry.xtra with
    | none => .ok entry
    | some component =>
      let compData ← deref (files.getComponentRecord entry.recordNum (some component))
      .ok { entry with recordNum := compData.recordId }
  else do
    let compData ← deref (files.getComponentRecord entry.recordNum inset.component)
    .ok { entry with recordNum := compData.recordId }

/-- `tempset`: a zeroed header with the replaced entries and the entry the header brings. -/
def docTempset (entries : List WeightedEntry) (numHits : ℤ) : WeightedResult where
  setid := ""
  filename := ""
  resultType := 0
  component := none
  termid := []
  numHits := numHits
  resultWeight := 0
  maxWeight := 0
  minWeight := 0
  entries := entries ++ [WeightedEntry.zero]

/-- `newset->entries[i].weight = weight` -/
def storeWeight (cells : List WeightedEntry) (i : ℕ) (weight : ℚ) : Exec (List WeightedEntry) :=
  match cells[i]? with
  | some cell => .ok (cells.set i { cell with weight := weight })
  | none => .error .outOfBounds

/-- The weight and the record number of `newset->entries[i]`. -/
def storeDoc (cells : List WeightedEntry) (i : ℕ) (recordNum : ℤ) (weight : ℚ) :
    Exec (List WeightedEntry) :=
  match Buffer.store? cells i ⟨recordNum, 0, weight⟩ with
  | some cells => .ok cells
  | none => .error .outOfBounds

/-- `newset->entries[i].weight = ...; newset->entries[i].record_num = ...` with the values of an entry. -/
def putHit (cells : List WeightedEntry) (i : ℕ) (entry : WeightedEntry) :
    Exec (List WeightedEntry) :=
  match cells[i]? with
  | some cell => .ok (cells.set i { cell with recordNum := entry.recordNum, weight := entry.weight })
  | none => .error .outOfBounds

/-- The weight of a repeated document.  It is compared with the entry of the sorted set that stands
at the index of the document, not with the document itself. -/
def docWeight (probFlag : ℕ) (tempset : WeightedResult) (entry : WeightedEntry) (i : ℕ) : Exec ℚ :=
  if probFlag ≠ 0 then do
    let other ← tempset.entryAt i
    .ok (if entry.weight > other.weight then entry.weight else other.weight)
  else .ok 1

/-- `for (j = 1; j < inset->num_hits; j++)`; the document in cell `i` is `recnum`. -/
def comp2docLoop (probFlag : ℕ) (tempset : WeightedResult) :
    List ℕ → List WeightedEntry → ℕ → ℤ → Exec (List WeightedEntry × ℕ)
  | [], cells, i, _ => .ok (cells, i)
  | j :: js, cells, i, recnum => do
    let entry ← tempset.entryAt j
    if recnum = entry.recordNum then do
      let weight ← docWeight probFlag tempset entry i
      let cells ← storeWeight cells i weight
      comp2docLoop probFlag tempset js cells i recnum
    else do
      let cells ← storeDoc cells (i + 1) entry.recordNum entry.weight
      comp2docLoop probFlag tempset js cells (i + 1) entry.recordNum

def docSet (inset : WeightedResult) (cells : List WeightedEntry) (docCount : ℕ) :
    WeightedResult where
  setid := ""
  filename := inset.filename
  resultType := Nat.ldiff inset.resultType COMPONENT_RESULT
  component := none
  termid := []
  numHits := docCount
  resultWeight := inset.resultWeight
  maxWeight := inset.maxWeight
  minWeight := inset.minWeight
  entries := cells

def seComp2doc (files : ComponentFiles) (inset : WeightedResult) :
    Exec (Option WeightedResult) := do
  let probFlag := inset.resultType &&& DOC_FLAGS
  let totalPostings := inset.numHits.toNat
  let entries ← (List.range totalPostings).mapM fun i ↦ do docEntry files inset (← inset.entryAt i)
  let tempset := seSortwtset (docTempset entries inset.numHits)
  let first ← tempset.entryAt 0
  -- the first document is counted even when the set has no hits
  let cells ← storeDoc (Buffer.calloc WeightedEntry.zero (totalPostings + 1)) 0 first.recordNum
    first.weight
  let (cells, i) ← comp2docLoop probFlag tempset (List.range' 1 (totalPostings - 1)) cells 0
    first.recordNum
  let newset := docSet inset cells (i + 1)
  if probFlag ≠ 0 then
    .ok (some (seRankDocs { newset with resultType := newset.resultType ||| probFlag }))
  else .ok (some newset)

/-- The block holds the documents up to cell `i`, in increasing order; `recnum` is the last one. -/
structure DocCells (size : ℕ) (cells : List WeightedEntry) (i : ℕ) (recnum : ℤ)
    (records : List ℤ) : Prop where
  holds : ∃ out : List WeightedEntry, Buffer.Holds WeightedEntry.zero size cells out ∧
    out.map WeightedEntry.recordNum = records
  count : records.length = i + 1
  last : records.getLast? = some recnum
  increasing : records.Pairwise (· < ·)

section Loop

variable {size i : ℕ} {cells : List WeightedEntry} {recnum : ℤ} {records : List ℤ}

theorem DocCells.le_last (h : DocCells size cells i recnum records) :
    ∀ record ∈ records, record ≤ recnum := by
  intro record hmem
  have hne : records ≠ [] := by
    intro hnil
    simp [hnil] at hmem
  have hlast := h.last
  rw [List.getLast?_eq_some_getLast hne, Option.some_inj] at hlast
  have hsplit := List.dropLast_append_getLast hne
  rw [hlast] at hsplit
  have hincreasing := h.increasing
  rw [← hsplit, List.pairwise_append] at hincreasing
  rw [← hsplit, List.mem_append, List.mem_singleton] at hmem
  rcases hmem with hmem | rfl
  · exact (hincreasing.2.2 record hmem recnum (List.mem_singleton_self _)).le
  · exact le_rfl

theorem DocCells.setWeight (h : DocCells size cells i recnum records) (weight : ℚ) :
    ∃ cells', storeWeight cells i weight = .ok cells' ∧
      DocCells size cells' i recnum records := by
  obtain ⟨out, ⟨hsize, hcells⟩, hrecords⟩ := h.holds
  have hlength : out.length = i + 1 := by
    rw [← h.count, ← hrecords, List.length_map]
  have hi : i < out.length := by omega
  have hcell : cells[i]? = some out[i] := by
    rw [hcells, List.getElem?_append_left hi, List.getElem?_eq_getElem hi]
  refine ⟨cells.set i { out[i] with weight := weight }, by rw [storeWeight, hcell], ?_⟩
  refine ⟨⟨out.set i { out[i] with weight := weight }, ⟨by simpa using hsize, ?_⟩, ?_⟩, h.count,
    h.last, h.increasing⟩
  · rw [hcells, List.set_append_left _ _ hi, List.length_set]
  · rw [List.map_set, ← hrecords]
    apply List.ext_getElem
    · simp
    · intro k hk1 hk2
      rw [List.getElem_set]
      split
      · subst_vars
        simp
      · rfl

theorem DocCells.next (h : DocCells size cells i recnum records) (hsize : i + 1 < size)
    {record : ℤ} (hlt : recnum < record) (weight : ℚ) :
    ∃ cells', storeDoc cells (i + 1) record weight = .ok cells' ∧
      DocCells size cells' (i + 1) record (records ++ [record]) := by
  obtain ⟨out, hholds, hrecords⟩ := h.holds
  have hlength : out.length = i + 1 := by
    rw [← h.count, ← hrecords, List.length_map]
  obtain ⟨cells', hstore, hholds'⟩ := hholds.store (by omega) ⟨record, 0, weight⟩
  rw [hlength] at hstore
  refine ⟨cells', by rw [storeDoc, hstore], ⟨_, hholds', ?_⟩, ?_, ?_, ?_⟩
  · rw [List.map_append, hrecords]
    rfl
  · rw [List.length_append, h.count]
    rfl
  · simp
  · rw [List.pairwise_append]
    refine ⟨h.increasing, List.pairwise_singleton _ _, ?_⟩
    intro a ha b hb
    rw [List.mem_singleton.mp hb]
    exact (h.le_last a ha).trans_lt hlt

/-- Invariant of the loop: the cells hold the documents of the entries before `j`, which are not
above those that follow. -/
theorem comp2docLoop_spec (probFlag : ℕ) {tempset : WeightedResult} (halloc : tempset.Allocated)
    (hsorted : tempset.recordNums.Pairwise (· ≤ ·)) (k j : ℕ) (hjk : j + k = tempset.numHits.toNat)
    (h : DocCells (tempset.numHits.toNat + 1) cells i recnum records) (hij : i + 1 ≤ j)
    (hle : ∀ record ∈ tempset.ahead j, recnum ≤ record) :
    ∃ cells' i' recnum' records',
      comp2docLoop probFlag tempset (List.range' j k) cells i recnum = .ok (cells', i') ∧
      DocCells (tempset.numHits.toNat + 1) cells' i' recnum' records' ∧
      ∀ record, record ∈ records' ↔ record ∈ records ∨ record ∈ tempset.ahead j := by
  induction k generalizing j cells i recnum records with
  | zero =>
    refine ⟨cells, i, recnum, records, rfl, h, ?_⟩
    intro record
    rw [halloc.ahead_nil (by omega)]
    simp
  | succ k ih =>
    obtain ⟨entry, hentry, hahead⟩ := halloc.ahead_cons (show (j : ℤ) < tempset.numHits by omega)
    have hordered : (tempset.ahead j).Pairwise (· ≤ ·) := by
      have hsub := hsorted.sublist (List.drop_sublist j _)
      rwa [WeightedResult.recordNums, ← List.map_drop] at hsub
    rw [hahead] at hordered hle
    have hnext := (List.pairwise_cons.mp hordered).1
    rw [List.range'_succ, comp2docLoop, hentry]
    simp only [bind, Except.bind]
    by_cases heq : recnum = entry.recordNum
    · obtain ⟨weight, hweight⟩ : ∃ weight, docWeight probFlag tempset entry i = .ok weight := by
        obtain ⟨other, hother, -⟩ := halloc.entryAt (show (i : ℤ) < tempset.numHits by omega)
        rw [docWeight, hother]
        split
        · exact ⟨_, rfl⟩
        · exact ⟨_, rfl⟩
      obtain ⟨cells', hstore, hcells⟩ := h.setWeight weight
      rw [if_pos heq, hweight]
      simp only [hstore]
      obtain ⟨cells'', i', recnum', records', hrun, hdocs, hmem⟩ :=
        ih (j + 1) (by omega) hcells (by omega) (heq ▸ hnext)
      refine ⟨cells'', i', recnum', records', hrun, hdocs, ?_⟩
      intro record
      have hrecnum : recnum ∈ records := List.mem_of_getLast? h.last
      rw [hmem, hahead, List.mem_cons, ← heq]
      grind
    · have hlt : recnum < entry.recordNum :=
        lt_of_le_of_ne (hle _ List.mem_cons_self) heq
      obtain ⟨cells', hstore, hcells⟩ := h.next (by omega) hlt entry.weight
      rw [if_neg heq, hstore]
      obtain ⟨cells'', i', recnum', records', hrun, hdocs, hmem⟩ :=
        ih (j + 1) (by omega) hcells (by omega) hnext
      refine ⟨cells'', i', recnum', records', hrun, hdocs, ?_⟩
      intro record
      rw [hmem, hahead, List.mem_append, List.mem_singleton, List.mem_cons, or_assoc]

end Loop

/-- The record a component belongs to, zero when its file has no entry for the number. -/
def ComponentFiles.parent (files : ComponentFiles) (component : Option ℕ) (number : ℤ) : ℤ :=
  ((files.getComponentRecord number component).map Index.ComponentDataItem.recordId).getD 0

/-- The records to which the components of a set belong. -/
def WeightedResult.documents (files : ComponentFiles) (set : WeightedResult) : List ℤ :=
  set.recordNums.map (files.parent set.component)

/-- A set of components of one definition, in whatever order, each of them in the file of that
definition. -/
structure StoredComponents (files : ComponentFiles) (set : WeightedResult) : Prop
    extends set.Allocated where
  unhybrid : set.has HYBRID_RESULT = false
  stored : ∀ number ∈ set.recordNums, (files.getComponentRecord number set.component).isSome

/-- A set of distinct components that can be merged. -/
structure ComponentSet (files : ComponentFiles) (set : WeightedResult) : Prop
    extends set.Sortable where
  component : set.has COMPONENT_RESULT = true
  ordinary : set.resultType &&& (VIRTUAL_RESULT ||| BITMAP_RESULT ||| PAGED_RESULT |||
    HYBRID_RESULT) = 0
  stored : ∀ number ∈ set.recordNums, (files.getComponentRecord number set.component).isSome
  positive : ∀ number ∈ set.recordNums, 0 < number ∧ 0 < files.parent set.component number

/-- A Boolean set of components. -/
def componentsOf (component : ℕ) (numbers : List ℤ) : WeightedResult :=
  { WeightedResult.ofRecords "DB" numbers with
    resultType := COMPONENT_RESULT, component := some component }

section Documents

variable {files : ComponentFiles} {inset : WeightedResult}

theorem ComponentSet.not_has (h : ComponentSet files inset) (flag : ℕ)
    (hflag : (VIRTUAL_RESULT ||| BITMAP_RESULT ||| PAGED_RESULT ||| HYBRID_RESULT) &&& flag =
      flag) : inset.has flag = false := by
  have hzero : inset.resultType &&& flag = 0 := by
    rw [← hflag, ← Nat.land_assoc, h.ordinary, Nat.zero_and]
  exact (WeightedResult.has_eq_false_iff _ _).mpr hzero

/-- The entry of a component as the loop over the set replaces it. -/
def replacedEntry (files : ComponentFiles) (inset : WeightedResult) (entry : WeightedEntry) :
    WeightedEntry :=
  { entry with recordNum := files.parent inset.component entry.recordNum }

theorem ComponentSet.storedComponents (h : ComponentSet files inset) :
    StoredComponents files inset :=
  ⟨h.toAllocated, h.not_has HYBRID_RESULT (by decide), h.stored⟩

theorem StoredComponents.docEntry_ok (h : StoredComponents files inset) {entry : WeightedEntry}
    (hentry : entry ∈ inset.hits) :
    docEntry files inset entry = .ok (replacedEntry files inset entry) := by
  have hstored := h.stored entry.recordNum (List.mem_map_of_mem hentry)
  rw [docEntry, h.unhybrid, if_neg Bool.false_ne_true]
  obtain ⟨data, hdata⟩ := Option.isSome_iff_exists.mp hstored
  rw [hdata, replacedEntry, ComponentFiles.parent, hdata]
  rfl

theorem StoredComponents.replaced_ok (h : StoredComponents files inset) :
    ((List.range inset.numHits.toNat).mapM fun i ↦ do
      docEntry files inset (← inset.entryAt i)) =
      .ok (inset.hits.map (replacedEntry files inset)) := by
  have hlength := h.length_hits
  have hread : ∀ i ∈ List.range inset.numHits.toNat,
      (do docEntry files inset (← inset.entryAt i)) =
        .ok (replacedEntry files inset (inset.hits[i]?.getD WeightedEntry.zero)) := by
    intro i hi
    have hlt : i < inset.hits.length := by
      rw [hlength]
      exact List.mem_range.mp hi
    obtain ⟨entry, hentry, hdrop⟩ := h.entryAt (show (i : ℤ) < inset.numHits by omega)
    rw [List.drop_eq_getElem_cons hlt] at hdrop
    have hsame : inset.hits[i] = entry := (List.cons.inj hdrop).1
    rw [hentry, List.getElem?_eq_getElem hlt, hsame]
    exact h.docEntry_ok (hsame ▸ List.getElem_mem hlt)
  rw [mapM_ok _ hread]
  congr 1
  apply List.ext_getElem
  · simp [hlength]
  · intro i hi1 hi2
    have hlt : i < inset.hits.length := by simpa using hi2
    simp [List.getElem?_eq_getElem hlt]

theorem storeDoc_first (size : ℕ) (hsize : 0 < size) (record : ℤ) (weight : ℚ) :
    ∃ cells, storeDoc (Buffer.calloc WeightedEntry.zero size) 0 record weight = .ok cells ∧
      DocCells size cells 0 record [record] := by
  obtain ⟨cells, hstore, hholds⟩ :=
    (Buffer.holds_calloc WeightedEntry.zero size).store hsize ⟨record, 0, weight⟩
  rw [List.length_nil] at hstore
  refine ⟨cells, by rw [storeDoc, hstore], ⟨_, hholds, rfl⟩, rfl, rfl, List.pairwise_singleton _ _⟩

theorem DocCells.docSet {size i : ℕ} {cells : List WeightedEntry} {recnum : ℤ} {records : List ℤ}
    (h : DocCells size cells i recnum records) (inset : WeightedResult) :
    (docSet inset cells (i + 1)).Allocated ∧ (docSet inset cells (i + 1)).recordNums = records := by
  obtain ⟨out, hholds, hrecords⟩ := h.holds
  have hlength : out.length = i + 1 := by
    rw [← h.count, ← hrecords, List.length_map]
  have hcells := hholds.length_cells
  have hsize := hholds.length_le
  refine ⟨⟨?_, ?_⟩, ?_⟩
  · simp only [Search.docSet]
    omega
  · simp only [Search.docSet, Int.toNat_natCast]
    omega
  · rw [WeightedResult.recordNums, WeightedResult.hits]
    simp only [Search.docSet, Int.toNat_natCast]
    rw [← hlength, hholds.take, hrecords]

/-- The cells after the loop hold the documents of the set, or the document zero of an empty set. -/
theorem StoredComponents.collect (h : StoredComponents files inset) (probFlag : ℕ) :
    ∃ first cells cells' i recnum records,
      (seSortwtset (docTempset (inset.hits.map (replacedEntry files inset)) inset.numHits)).entryAt
        0 = .ok first ∧
      storeDoc (Buffer.calloc WeightedEntry.zero (inset.numHits.toNat + 1)) 0 first.recordNum
        first.weight = .ok cells ∧
      comp2docLoop probFlag
        (seSortwtset (docTempset (inset.hits.map (replacedEntry files inset)) inset.numHits))
        (List.range' 1 (inset.numHits.toNat - 1)) cells 0 first.recordNum = .ok (cells', i) ∧
      DocCells (inset.numHits.toNat + 1) cells' i recnum records ∧
      ∀ record, record ∈ records ↔
        (if inset.recordNums = [] then record = 0 else record ∈ inset.documents files) := by
  set entries := inset.hits.map (replacedEntry files inset) with hentries
  have hnumHits := h.length_hits
  have hlength : entries.length = inset.numHits.toNat := by
    rw [hentries, List.length_map, hnumHits]
  have hcount := h.length_recordNums
  have hdocs : (docTempset entries inset.numHits).Allocated := by
    refine ⟨h.nonneg, ?_⟩
    simp [docTempset, hlength]
  have hrecords : (docTempset entries inset.numHits).recordNums = inset.documents files := by
    rw [WeightedResult.recordNums, WeightedResult.hits]
    simp only [docTempset]
    rw [List.take_left' hlength, hentries, WeightedResult.documents, WeightedResult.recordNums,
      List.map_map, List.map_map]
    rfl
  have halloc : (seSortwtset (docTempset entries inset.numHits)).Allocated := hdocs.qsort _
  have hperm : (seSortwtset (docTempset entries inset.numHits)).recordNums.Perm
      (inset.documents files) := hrecords ▸ hdocs.perm_recordNums_qsort _
  have hsorted := hdocs.sorted_seSortwtset
  rcases Nat.eq_zero_or_pos inset.numHits.toNat with hzero | hpos
  · have hnil : inset.recordNums = [] := List.eq_nil_of_length_eq_zero (by omega)
    have hempty : entries = [] := List.eq_nil_of_length_eq_zero (by omega)
    obtain ⟨cells, hstore, hcells⟩ := storeDoc_first (inset.numHits.toNat + 1) (by omega)
      WeightedEntry.zero.recordNum WeightedEntry.zero.weight
    refine ⟨WeightedEntry.zero, cells, cells, 0, _, _, ?_, hstore, by rw [hzero]; rfl, hcells, ?_⟩
    · rw [hempty, seSortwtset, WeightedResult.qsort, WeightedResult.entryAt,
        WeightedResult.hits]
      simp only [docTempset, hzero]
      rfl
    · intro record
      rw [if_pos hnil, List.mem_singleton]
      rfl
  · have hne : inset.recordNums ≠ [] := by
      intro hnil
      rw [hnil, List.length_nil] at hcount
      omega
    have hn : (seSortwtset (docTempset entries inset.numHits)).numHits = inset.numHits := rfl
    obtain ⟨first, hfirst, hahead⟩ :=
      @WeightedResult.Allocated.ahead_cons _ halloc 0 (by rw [hn]; omega)
    obtain ⟨cells, hstore, hcells⟩ := storeDoc_first (inset.numHits.toNat + 1) (by omega)
      first.recordNum first.weight
    have hle : ∀ record ∈ (seSortwtset (docTempset entries inset.numHits)).ahead 1,
        first.recordNum ≤ record := by
      rw [WeightedResult.ahead_zero] at hahead
      rw [hahead] at hsorted
      exact (List.pairwise_cons.mp hsorted).1
    obtain ⟨cells', i, recnum, records, hrun, hdone, hmem⟩ :=
      comp2docLoop_spec probFlag halloc hsorted (inset.numHits.toNat - 1) 1 (by rw [hn]; omega)
        hcells le_rfl hle
    refine ⟨first, cells, cells', i, recnum, records, hfirst, hstore, hrun, hdone, ?_⟩
    intro record
    rw [if_neg hne, hmem, ← hperm.mem_iff, ← WeightedResult.ahead_zero, hahead, List.mem_singleton,
      List.mem_cons]

/-- The result lists each document of the set once; the result of an empty set lists the document
zero. -/
theorem StoredComponents.seComp2doc_spec (h : StoredComponents files inset) :
    ∃ docs, seComp2doc files inset = .ok (some docs) ∧ docs.Sortable ∧
      docs.filename = inset.filename ∧
      docs.resultType =
        Nat.ldiff inset.resultType COMPONENT_RESULT ||| (inset.resultType &&& DOC_FLAGS) ∧
      ∀ record, record ∈ docs.recordNums ↔
        (if inset.recordNums = [] then record = 0 else record ∈ inset.documents files) := by
  obtain ⟨first, cells, cells', i, recnum, records, hfirst, hstore, hrun, hdone, hmem⟩ :=
    h.collect (inset.resultType &&& DOC_FLAGS)
  obtain ⟨halloc, hrecords⟩ := hdone.docSet inset
  have hdistinct : (docSet inset cells' (i + 1)).recordNums.Nodup := by
    rw [hrecords]
    exact hdone.increasing.imp fun hlt ↦ hlt.ne
  have heq : seComp2doc files inset =
      (if inset.resultType &&& DOC_FLAGS ≠ 0 then
        .ok (some (seRankDocs { docSet inset cells' (i + 1) with
          resultType := (docSet inset cells' (i + 1)).resultType |||
            (inset.resultType &&& DOC_FLAGS) }))
      else .ok (some (docSet inset cells' (i + 1)))) := by
    have hreplaced := h.replaced_ok
    simp only [bind, Except.bind] at hreplaced
    simp only [seComp2doc, bind, Except.bind, hreplaced, hfirst, hstore, hrun]
  rw [heq]
  split
  · rename_i hflag
    have halloc' : { docSet inset cells' (i + 1) with
        resultType := (docSet inset cells' (i + 1)).resultType |||
          (inset.resultType &&& DOC_FLAGS) }.Allocated := ⟨halloc.nonneg, halloc.covered⟩
    have hperm := halloc'.perm_recordNums_qsort compareWeights
    refine ⟨_, rfl, ⟨halloc'.qsort _, hperm.nodup_iff.mpr hdistinct, ?_⟩, rfl, rfl, ?_⟩
    · intro hranked
      have hnone : (inset.resultType &&& DOC_FLAGS) &&& RANKED_FLAGS = 0 := by
        have hzero : (docSet inset cells' (i + 1)).resultType &&& RANKED_FLAGS |||
            (inset.resultType &&& DOC_FLAGS) &&& RANKED_FLAGS = 0 := by
          rw [← Nat.and_or_distrib_right]
          exact (WeightedResult.has_eq_false_iff _ _).mp hranked
        exact (Nat.or_eq_zero_iff.mp hzero).2
      have hsub : DOC_FLAGS &&& RANKED_FLAGS = DOC_FLAGS := by decide
      rw [Nat.land_assoc, hsub] at hnone
      exact absurd hnone hflag
    · intro record
      rw [← hmem, ← hrecords]
      exact hperm.mem_iff
  · rename_i hflag
    refine ⟨_, rfl, ⟨halloc, hdistinct, fun _ ↦ hrecords ▸ hdone.increasing⟩, rfl, ?_, ?_⟩
    · rw [not_not.mp hflag, Nat.or_zero]
      rfl
    · intro record
      rw [hrecords, hmem]

end Documents

end Cheshire.Search
