import Cheshire.Index.PagedIndex
import Cheshire.Lib.Buckets
import Cheshire.Lib.Table
import Cheshire.Search.RankedMerge

/-!
# From pages to documents

`se_get_page_docs` replaces the page numbers of a set by the documents that the page map names, and adds up
the weights of the pages of each document.  The page map of an index is read into a buffer when it is
needed for the first time, and the buffer is kept as long as the process runs.
-/

namespace Cheshire.Search

open Lib Index

def MAXPAGEBUFFS : ℕ := 10

/-- `page_info_buffers` -/
structure PageInfoBuffer where
  tag : List Char
  maxpagenum : ℕ
  pagedata : List PageAssocRec

/-- The file that `cf_index_open` gives for a file name and an index tag: the number of records that
`fstat` sees, and the records. -/
abbrev PageMaps := List Char → List Char → Option (ℕ × List PageAssocRec)

/-- A zeroed block with the records of the file. -/
def loadBuffer (tag : List Char) (pagemap : ℕ × List PageAssocRec) : PageInfoBuffer where
  tag := tag
  maxpagenum := pagemap.1
  pagedata :=
    let newdata := pagemap.2.take pagemap.1
    newdata ++ List.replicate (pagemap.1 + 1 - newdata.length) PageAssocRec.zero

/-- `*(pagedata + pagenum)` -/
def pageAt (buffer : PageInfoBuffer) (pagenum : ℤ) : Exec PageAssocRec :=
  if pagenum < 0 then .error .outOfBounds
  else
    match buffer.pagedata[pagenum.toNat]? with
    | some record => .ok record
    | none => .error .outOfBounds

/-- `se_get_page_assoc`, with the record at its result in place of the pointer. -/
def seGetPageAssoc (maps : PageMaps) (filename indextag : List Char) (pagenum : ℤ)
    (buffers : List PageInfoBuffer) : Exec (Option PageAssocRec × List PageInfoBuffer) :=
  match buffers.find? fun buffer ↦ buffer.tag = indextag with
  | some buffer =>
    if pagenum > buffer.maxpagenum then .ok (none, buffers)
    else do
      let record ← pageAt buffer pagenum
      .ok (some record, buffers)
  | none =>
    if MAXPAGEBUFFS ≤ buffers.length then .ok (none, buffers)
    else do
      let pagemap ← deref (maps filename indextag)
      let record ← pageAt (loadBuffer indextag pagemap) pagenum
      .ok (some record, buffers ++ [loadBuffer indextag pagemap])

/-- `struct pageitem` -/
structure PageItem where
  pagenum : ℤ
  setindex : ℕ
  pageid : ℤ
deriving DecidableEq, Repr

/-- `struct docsum`; `num_pages` is the length of the list. -/
structure DocSum where
  sumWts : ℚ
  pages : List PageItem

/-- The size of `filename` in `se_get_page_docs`. -/
def FILENAME_BUFFER : ℕ := 100

/-- The name of a set is that of the file and that of the index; without a colon in it, the index has no
value. -/
def indexName (filename : List Char) : Exec (Option (List Char × Option (List Char))) :=
  if filename.length < FILENAME_BUFFER then
    match filename.dropWhile (· ≠ ':') with
    | [] => .ok (some (filename, none))
    | _ :: rest =>
      if rest.head? = some ':' then .ok (some (filename.takeWhile (· ≠ ':'), some rest.tail))
      else .ok none
  else .error .outOfBounds

def addPage (hash : Table ℤ DocSum) (page : PageAssocRec) (weight : ℚ) (setindex : ℕ) (idnumber : ℤ) :
    Table ℤ DocSum :=
  let item : PageItem := ⟨page.pagenum, setindex, idnumber⟩
  match hash.find? page.parentid with
  | none => hash.enter page.parentid ⟨weight, [item]⟩
  | some docWts =>
    hash.enter page.parentid ⟨docWts.sumWts + weight, docWts.pages ++ [item]⟩

def pageDocsLoop (maps : PageMaps) (filename : List Char) (indexTag : Option (List Char))
    (inset : WeightedResult) (idnumber : ℤ) :
    List ℕ → Table ℤ DocSum → List PageInfoBuffer → Exec (Table ℤ DocSum × List PageInfoBuffer)
  | [], hash, buffers => .ok (hash, buffers)
  | i :: is, hash, buffers => do
    let entry ← inset.entryAt i
    match indexTag with
    | none => .error .uninitialized
    | some indexTag => do
      let found ← seGetPageAssoc maps filename indexTag entry.recordNum buffers
      let page ← deref found.1
      pageDocsLoop maps filename (some indexTag) inset idnumber is
        (addPage hash page entry.weight i idnumber) found.2

/-- The flags that the document set takes over. -/
def PAGE_PROB_FLAGS : ℕ :=
  PROBABILISTIC_RESULT ||| OKAPI_RESULT ||| CORI_RESULT ||| FUZZY_RESULT ||| BLOB_RESULT

/-- `RANDOM_INDEX` of `tclHash.h` -/
def randomIndex (rebuilds : ℕ) (key : ℤ) : ℕ :=
  (key * 1103515245 / 2 ^ (28 - 2 * rebuilds) % Buckets.numBuckets rebuilds).toNat

theorem randomIndex_lt (rebuilds : ℕ) (key : ℤ) : randomIndex rebuilds key < Buckets.numBuckets rebuilds := by
  have hbuckets : (0 : ℤ) < Buckets.numBuckets rebuilds := Int.natCast_pos.mpr (Nat.pow_pos (by decide))
  rw [randomIndex, Int.toNat_lt (Int.emod_nonneg _ hbuckets.ne')]
  exact Int.emod_lt_of_pos _ hbuckets

/-- The entries as `Tcl_FirstHashEntry` and `Tcl_NextHashEntry` meet them. -/
def hashEntries {ν : Type*} (hash : Table ℤ ν) : List (ℤ × ν) :=
  Buckets.walk (fun rebuilds entry ↦ randomIndex rebuilds entry.1) hash.entries

theorem hashEntries_perm {ν : Type*} (hash : Table ℤ ν) : (hashEntries hash).Perm hash.entries := by
  rw [hashEntries]
  apply Buckets.walk_perm
  intro rebuilds entry
  exact randomIndex_lt rebuilds entry.1

/-- The documents of the hash table. -/
def pageDocSet (inset : WeightedResult) (hash : Table ℤ DocSum) (probFlag : ℕ) : WeightedResult where
  setid := ""
  filename := inset.filename
  resultType := PAGED_DOC_RESULT ||| probFlag
  component := none
  termid := []
  numHits := hash.entries.length
  resultWeight := 0
  maxWeight := 0
  minWeight := 0
  entries := ((hashEntries hash).map fun entry ↦
    ⟨entry.1, 0, entry.2.sumWts / (entry.2.pages.length + 1)⟩) ++ [WeightedEntry.zero]

/-- `se_get_page_docs`: the document set with the pages of its documents, and the page buffers. -/
def seGetPageDocs (maps : PageMaps) (inset : Option WeightedResult) (idnumber : ℤ)
    (buffers : List PageInfoBuffer) :
    Exec (Option (WeightedResult × Table ℤ DocSum) × List PageInfoBuffer) :=
  match inset with
  | none => .ok (none, buffers)
  | some inset =>
    if inset.has PAGED_RESULT = false then .ok (none, buffers)
    else do
      match ← indexName inset.filename.toList with
      | none => .ok (none, buffers)
      | some name => do
        let docs ← pageDocsLoop maps name.1 name.2 inset idnumber
          (List.range inset.numHits.toNat) Table.empty buffers
        let probFlag := inset.resultType &&& PAGE_PROB_FLAGS
        let newset := pageDocSet inset docs.1 probFlag
        .ok (some (if probFlag ≠ 0 then seRankDocs newset else newset, docs.1), docs.2)

theorem mem_keys_addPage (hash : Table ℤ DocSum) (page : PageAssocRec) (weight : ℚ) (setindex : ℕ)
    (idnumber doc : ℤ) :
    doc ∈ (addPage hash page weight setindex idnumber).keys ↔ doc = page.parentid ∨ doc ∈ hash.keys := by
  rw [addPage]
  split <;> exact Table.mem_keys_enter _ _ _ _

theorem allocated_pageDocSet (inset : WeightedResult) (hash : Table ℤ DocSum) (probFlag : ℕ) :
    (pageDocSet inset hash probFlag).Allocated where
  nonneg := Int.natCast_nonneg _
  covered := by simp [pageDocSet, (hashEntries_perm hash).length_eq]

theorem hits_pageDocSet (inset : WeightedResult) (hash : Table ℤ DocSum) (probFlag : ℕ) :
    (pageDocSet inset hash probFlag).hits = (hashEntries hash).map fun entry ↦
      ⟨entry.1, 0, entry.2.sumWts / (entry.2.pages.length + 1)⟩ := by
  rw [WeightedResult.hits]
  change List.take hash.entries.length _ = _
  rw [pageDocSet, List.take_left' ((List.length_map _).trans (hashEntries_perm hash).length_eq)]

theorem recordNums_pageDocSet (inset : WeightedResult) (hash : Table ℤ DocSum) (probFlag : ℕ) :
    (pageDocSet inset hash probFlag).recordNums.Perm hash.keys := by
  rw [WeightedResult.recordNums, hits_pageDocSet, List.map_map]
  exact (hashEntries_perm hash).map Prod.fst

theorem mem_recordNums_docs (inset : WeightedResult) (hash : Table ℤ DocSum) (probFlag : ℕ) (doc : ℤ) :
    doc ∈ (if probFlag ≠ 0 then seRankDocs (pageDocSet inset hash probFlag)
      else pageDocSet inset hash probFlag).recordNums ↔ doc ∈ hash.keys := by
  rw [← (recordNums_pageDocSet inset hash probFlag).mem_iff]
  split
  · exact ((allocated_pageDocSet inset hash probFlag).perm_recordNums_qsort compareWeights).mem_iff
  · rfl

theorem length_pagedata_loadBuffer (tag : List Char) (pagemap : ℕ × List PageAssocRec) :
    (loadBuffer tag pagemap).pagedata.length = pagemap.1 + 1 := by
  have hle : (pagemap.2.take pagemap.1).length ≤ pagemap.1 := List.length_take_le _ _
  rw [loadBuffer, List.length_append, List.length_replicate]
  omega

def pageRecord (buffer : PageInfoBuffer) (pagenum : ℤ) : Option PageAssocRec :=
  if pagenum < 0 ∨ pagenum > buffer.maxpagenum then none else buffer.pagedata[pagenum.toNat]?

/-- The buffer of an index, which may have to be loaded. -/
def bufferFor (maps : PageMaps) (filename indextag : List Char) (buffers : List PageInfoBuffer) :
    Option PageInfoBuffer :=
  match buffers.find? fun buffer ↦ buffer.tag = indextag with
  | some buffer => some buffer
  | none =>
    if MAXPAGEBUFFS ≤ buffers.length then none
    else (maps filename indextag).map (loadBuffer indextag)

/-- The buffers with that of the index among them. -/
def withBuffer (maps : PageMaps) (filename indextag : List Char) (buffers : List PageInfoBuffer) :
    List PageInfoBuffer :=
  match buffers.find? fun buffer ↦ buffer.tag = indextag with
  | some _ => buffers
  | none => buffers ++ (bufferFor maps filename indextag buffers).toList

variable {inset : WeightedResult}

section Reading

variable {maps : PageMaps} {filename indextag : List Char} {buffers : List PageInfoBuffer}

variable {buffer : PageInfoBuffer}

theorem pageAt_eq_ok_iff {pagenum : ℤ} {record : PageAssocRec}
    (hbehind : pagenum > buffer.maxpagenum → buffer.pagedata[pagenum.toNat]? = none) :
    pageAt buffer pagenum = .ok record ↔ pageRecord buffer pagenum = some record := by
  have hcell (cell : Option PageAssocRec) :
      (match cell with
        | some record => Except.ok record
        | none => Except.error Fault.outOfBounds) = Except.ok record ↔ cell = some record := by
    cases cell <;> simp
  rw [pageAt, pageRecord]
  by_cases hneg : pagenum < 0
  · rw [if_pos hneg, if_pos (Or.inl hneg)]
    simp
  · rw [if_neg hneg, hcell]
    by_cases hgt : pagenum > buffer.maxpagenum
    · rw [if_pos (Or.inr hgt), hbehind hgt]
    · rw [if_neg (not_or.mpr ⟨hneg, hgt⟩)]

theorem seGetPageAssoc_eq_ok_iff {pagenum : ℤ} {record : PageAssocRec}
    {buffers' : List PageInfoBuffer} :
    seGetPageAssoc maps filename indextag pagenum buffers = .ok (some record, buffers') ↔
      (∃ buffer, bufferFor maps filename indextag buffers = some buffer ∧
        pageRecord buffer pagenum = some record) ∧
      buffers' = withBuffer maps filename indextag buffers := by
  have hread (buffer : PageInfoBuffer) (buffers'' : List PageInfoBuffer)
      (hbehind : pagenum > buffer.maxpagenum → buffer.pagedata[pagenum.toNat]? = none) :
      (pageAt buffer pagenum >>= fun record ↦ (.ok (some record, buffers'') :
        Exec (Option PageAssocRec × List PageInfoBuffer))) = .ok (some record, buffers') ↔
      pageRecord buffer pagenum = some record ∧ buffers' = buffers'' := by
    rw [bind_eq_ok]
    constructor
    · rintro ⟨found, hfound, heq⟩
      cases heq
      exact ⟨(pageAt_eq_ok_iff hbehind).mp hfound, rfl⟩
    · rintro ⟨hrecord, rfl⟩
      exact ⟨record, (pageAt_eq_ok_iff hbehind).mpr hrecord, rfl⟩
  rw [seGetPageAssoc, bufferFor, withBuffer, bufferFor]
  cases buffers.find? fun buffer ↦ buffer.tag = indextag with
  | some buffer =>
    simp only [Option.some.injEq, exists_eq_left']
    by_cases hgt : pagenum > buffer.maxpagenum
    · rw [if_pos hgt]
      simp [pageRecord, hgt]
    · rw [if_neg hgt]
      exact hread buffer buffers fun h ↦ absurd h hgt
  | none =>
    simp only
    by_cases hfull : MAXPAGEBUFFS ≤ buffers.length
    · rw [if_pos hfull, if_pos hfull]
      simp
    · rw [if_neg hfull, if_neg hfull]
      cases maps filename indextag with
      | none => simp [deref, bind, Except.bind]
      | some pagemap =>
        simp only [Option.map_some, Option.some.injEq, exists_eq_left', Option.toList_some]
        have hbehind : pagenum > (loadBuffer indextag pagemap).maxpagenum →
            (loadBuffer indextag pagemap).pagedata[pagenum.toNat]? = none := by
          intro hgt
          have hsize := length_pagedata_loadBuffer indextag pagemap
          change pagenum > (pagemap.1 : ℤ) at hgt
          rw [List.getElem?_eq_none_iff, hsize]
          omega
        exact hread _ _ hbehind

theorem find?_withBuffer (h : bufferFor maps filename indextag buffers = some buffer) :
    (withBuffer maps filename indextag buffers).find? (fun buffer ↦ buffer.tag = indextag) =
      some buffer := by
  rw [withBuffer]
  cases hfind : buffers.find? fun buffer ↦ buffer.tag = indextag with
  | some found =>
    rw [bufferFor, hfind] at h
    rw [← h]
    exact hfind
  | none =>
    simp only [h, Option.toList_some]
    rw [List.find?_append, hfind, Option.none_or, List.find?_singleton]
    have htag : buffer.tag = indextag := by
      rw [bufferFor, hfind] at h
      simp only at h
      split at h
      · cases h
      · obtain ⟨pagemap, -, rfl⟩ := Option.map_eq_some_iff.mp h
        rfl
    rw [if_pos (decide_eq_true htag)]

theorem bufferFor_withBuffer (h : bufferFor maps filename indextag buffers = some buffer) :
    bufferFor maps filename indextag (withBuffer maps filename indextag buffers) = some buffer := by
  rw [bufferFor, find?_withBuffer h]

theorem withBuffer_withBuffer (h : bufferFor maps filename indextag buffers = some buffer) :
    withBuffer maps filename indextag (withBuffer maps filename indextag buffers) =
      withBuffer maps filename indextag buffers := by
  rw [withBuffer, find?_withBuffer h]

/-- The entries that the loop goes over. -/
def Reads (inset : WeightedResult) (is : List ℕ) (entries : List WeightedEntry) : Prop :=
  List.Forall₂ (fun i entry ↦ inset.entryAt i = .ok entry) is entries

/-- What a loop that returned has found. -/
structure Found (buffer : PageInfoBuffer) (entries : List WeightedEntry) (hash hash' : Table ℤ DocSum) :
    Prop where
  records : ∀ entry ∈ entries, ∃ record, pageRecord buffer entry.recordNum = some record
  keys : ∀ doc, doc ∈ hash'.keys ↔ doc ∈ hash.keys ∨
    ∃ entry ∈ entries, ∃ record, pageRecord buffer entry.recordNum = some record ∧ record.parentid = doc

variable {is : List ℕ} {entries : List WeightedEntry}

theorem found_of_pageDocsLoop {idnumber : ℤ} (hreads : Reads inset is entries)
    {hash hash' : Table ℤ DocSum} {buffers' : List PageInfoBuffer}
    (hbuffer : bufferFor maps filename indextag buffers = some buffer)
    (h : pageDocsLoop maps filename (some indextag) inset idnumber is hash buffers =
      .ok (hash', buffers')) :
    Found buffer entries hash hash' ∧
      buffers' = if entries = [] then buffers else withBuffer maps filename indextag buffers := by
  induction hreads generalizing hash buffers with
  | nil =>
    cases h
    exact ⟨⟨List.forall_mem_nil _, by simp⟩, rfl⟩
  | @cons i entry is entries hentry hreads ih =>
    rw [pageDocsLoop] at h
    obtain ⟨first, hfirst, h⟩ := bind_eq_ok.mp h
    rw [hentry] at hfirst
    cases hfirst
    obtain ⟨found, hfound, h⟩ := bind_eq_ok.mp h
    obtain ⟨page, hpage, h⟩ := bind_eq_ok.mp h
    rcases found with ⟨read, between⟩
    cases read with
    | none => cases hpage
    | some read =>
      cases hpage
      obtain ⟨⟨buffer', hbuffer', hrecord⟩, rfl⟩ := seGetPageAssoc_eq_ok_iff.mp hfound
      obtain rfl := Option.some.inj (hbuffer'.symm.trans hbuffer)
      obtain ⟨hrest, hbuffers⟩ := ih (bufferFor_withBuffer hbuffer) h
      refine ⟨⟨List.forall_mem_cons.mpr ⟨⟨page, hrecord⟩, hrest.records⟩, ?_⟩, ?_⟩
      · intro doc
        rw [hrest.keys doc, mem_keys_addPage]
        constructor
        · rintro ((rfl | hold) | ⟨other, hother, found⟩)
          · exact Or.inr ⟨entry, List.mem_cons_self, page, hrecord, rfl⟩
          · exact Or.inl hold
          · exact Or.inr ⟨other, List.mem_cons_of_mem _ hother, found⟩
        · rintro (hold | ⟨other, hother, record, hother', rfl⟩)
          · exact Or.inl (Or.inr hold)
          · rcases List.mem_cons.mp hother with rfl | hother
            · rw [hrecord] at hother'
              cases hother'
              exact Or.inl (Or.inl rfl)
            · exact Or.inr ⟨other, hother, record, hother', rfl⟩
      · rw [hbuffers, if_neg (List.cons_ne_nil _ _), withBuffer_withBuffer hbuffer, ite_self]

theorem exists_pageDocsLoop (hreads : Reads inset is entries)
    (hbuffer : bufferFor maps filename indextag buffers = some buffer)
    (h : ∀ entry ∈ entries, ∃ record, pageRecord buffer entry.recordNum = some record)
    (idnumber : ℤ) (hash : Table ℤ DocSum) :
    ∃ result, pageDocsLoop maps filename (some indextag) inset idnumber is hash buffers =
      .ok result := by
  induction hreads generalizing hash buffers with
  | nil => exact ⟨_, rfl⟩
  | @cons i entry is entries hentry hreads ih =>
    obtain ⟨⟨record, hrecord⟩, hrest⟩ := List.forall_mem_cons.mp h
    have hassoc : seGetPageAssoc maps filename indextag entry.recordNum buffers =
        .ok (some record, withBuffer maps filename indextag buffers) :=
      seGetPageAssoc_eq_ok_iff.mpr ⟨⟨buffer, hbuffer, hrecord⟩, rfl⟩
    obtain ⟨result, hresult⟩ := ih (bufferFor_withBuffer hbuffer) hrest
      (addPage hash record entry.weight i idnumber)
    refine ⟨result, ?_⟩
    rw [pageDocsLoop, hentry]
    simp only [bind, Except.bind, hassoc, deref]
    exact hresult

theorem exists_bufferFor (hreads : Reads inset is entries) (hne : entries ≠ []) {idnumber : ℤ}
    {hash : Table ℤ DocSum} {result : Table ℤ DocSum × List PageInfoBuffer}
    (h : pageDocsLoop maps filename (some indextag) inset idnumber is hash buffers = .ok result) :
    ∃ buffer, bufferFor maps filename indextag buffers = some buffer := by
  cases hreads with
  | nil => exact absurd rfl hne
  | cons hentry hreads =>
    rw [pageDocsLoop] at h
    obtain ⟨first, hfirst, h⟩ := bind_eq_ok.mp h
    rw [hentry] at hfirst
    cases hfirst
    obtain ⟨found, hfound, h⟩ := bind_eq_ok.mp h
    obtain ⟨page, hpage, -⟩ := bind_eq_ok.mp h
    rcases found with ⟨read, between⟩
    cases read with
    | none => cases hpage
    | some read =>
      obtain ⟨⟨buffer, hbuffer, -⟩, -⟩ := seGetPageAssoc_eq_ok_iff.mp hfound
      exact ⟨buffer, hbuffer⟩

end Reading

theorem reads_hits (h : inset.Allocated) :
    Reads inset (List.range inset.numHits.toNat) inset.hits := by
  rw [Reads, List.forall₂_iff_get]
  have hlength := h.length_hits
  refine ⟨by rw [List.length_range, hlength], ?_⟩
  intro i hi hi'
  have hcovered := h.covered
  have hcell : i < inset.entries.length := by omega
  simp [WeightedResult.entryAt, hcell, WeightedResult.hits]

end Cheshire.Search
