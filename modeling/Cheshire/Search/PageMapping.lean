import Cheshire.Search.PagedHistory

/-!
# Page maps in a process

A process looks up the documents of pages in several page-level indexes, of several databases, while
pages are added to them.  A ledger keeps from which database the buffer of each index tag was read and
how much of the page map was in the file then; a look-up is right when its page was.
-/

namespace Cheshire.Search

open Lib Lib.Runs Index

/-- The page-level indexes by database and tag, the page buffers, and what the last call returned. -/
structure PageStore where
  indexes : List Char → List Char → Option PagedIndex
  buffers : List PageInfoBuffer
  assoc : Option PageAssocRec
  docs : Option WeightedResult

namespace PageStore

def maps (s : PageStore) : PageMaps := fun filename tag ↦
  (s.indexes filename tag).map fun index ↦ (index.visible, index.header :: index.records)

/-- The indexes with one of them changed. -/
def setIndex (s : PageStore) (filename tag : List Char) (index : PagedIndex) :
    List Char → List Char → Option PagedIndex := fun name other ↦
  if name = filename ∧ other = tag then some index else s.indexes name other

/-- Reading a page map into a new buffer writes what was in the buffer of its stream. -/
def withBuffers (s : PageStore) (filename tag : List Char) (buffers : List PageInfoBuffer) :
    PageStore :=
  { s with
    indexes :=
      if buffers.length = s.buffers.length then s.indexes
      else
        match s.indexes filename tag with
        | some index => s.setIndex filename tag index.seek
        | none => s.indexes
    buffers := buffers }

end PageStore

inductive PageCall where
  | lookup (filename tag : List Char) (pagenum : ℤ)
  | docs (filename tag : List Char) (inset : WeightedResult) (idnumber : ℤ)
  | add (filename tag : List Char) (recnum : RecordNumber) (batch : Bool) (data : PageDirectory)

def stepCall (s : PageStore) : PageCall → Exec PageStore
  | .lookup filename tag pagenum => do
    let found ← seGetPageAssoc s.maps filename tag pagenum s.buffers
    .ok { s.withBuffers filename tag found.2 with assoc := found.1, docs := none }
  | .docs filename tag inset idnumber => do
    let found ← seGetPageDocs s.maps (some inset) idnumber s.buffers
    .ok { s.withBuffers filename tag found.2 with
      assoc := none
      docs := found.1.map Prod.fst }
  | .add filename tag recnum batch data => do
    let index ← deref (s.indexes filename tag)
    let index ← idxpages data recnum (if batch then 1 else 0) index
    .ok { s with indexes := s.setIndex filename tag index, assoc := none, docs := none }

/-- The record of a page in the page map of its index. -/
def storedRecord (s : PageStore) (filename tag : List Char) (pagenum : ℤ) : Option PageAssocRec :=
  (s.indexes filename tag).bind fun index ↦
    if 0 < pagenum then index.records[pagenum.toNat - 1]? else none

/-- The document and the weight of each page of a set that has a record. -/
def documentPages (s : PageStore) (filename tag : List Char) (inset : WeightedResult) :
    List (ℤ × ℚ) :=
  inset.hits.filterMap fun entry ↦
    (storedRecord s filename tag entry.recordNum).map fun record ↦ (record.parentid, entry.weight)

def weightsOf (pages : List (ℤ × ℚ)) (doc : ℤ) : List ℚ :=
  (pages.filter fun page ↦ page.1 = doc).map Prod.snd

/-- Each document of the pages once, with the sum of the weights of its pages divided by one more
than their number. -/
structure DocsOf (set : WeightedResult) (pages : List (ℤ × ℚ)) : Prop where
  once : set.recordNums.Nodup
  documents : ∀ doc, doc ∈ set.recordNums ↔ doc ∈ pages.map Prod.fst
  weights : ∀ entry ∈ set.hits,
    entry.weight = (weightsOf pages entry.recordNum).sum / ((weightsOf pages entry.recordNum).length + 1)

/-- What the last call should have returned. -/
inductive PageAnswer where
  | nothing
  | record (record : Option PageAssocRec)
  | docs (pages : List (ℤ × ℚ))

def AnswerHolds (s : PageStore) : PageAnswer → Prop
  | .nothing => True
  | .record record => s.assoc = record
  | .docs pages => ∃ set, s.docs = some set ∧ DocsOf set pages

/-- The buffer of a tag was read from this database, with so many records of the page map, the first one
included. -/
structure PageLoad where
  tag : List Char
  filename : List Char
  visible : ℕ

structure MappingLedger where
  loads : List PageLoad
  answer : PageAnswer

def MappingLedger.empty : MappingLedger := ⟨[], .nothing⟩

/-- The loads after a look-up in an index. -/
def withLoad (s : PageStore) (loads : List PageLoad) (filename tag : List Char) : List PageLoad :=
  match loads.find? fun load ↦ load.tag = tag with
  | some _ => loads
  | none =>
    if MAXPAGEBUFFS ≤ loads.length then loads
    else loads ++ ((s.indexes filename tag).map fun index ↦ ⟨tag, filename, index.visible⟩).toList

def specCall (s : PageStore) (a : MappingLedger) : PageCall → MappingLedger
  | .lookup filename tag pagenum =>
    ⟨withLoad s a.loads filename tag, .record (storedRecord s filename tag pagenum)⟩
  | .docs filename tag inset _ =>
    ⟨if inset.hits = [] then a.loads else withLoad s a.loads filename tag,
      .docs (documentPages s filename tag inset)⟩
  | .add _ _ _ _ _ => ⟨a.loads, .nothing⟩

/-- The page was in the file when the page map of this database was read; or the page map can be read, and
the page is in the file. -/
def PageKept (s : PageStore) (a : MappingLedger) (filename tag : List Char) (pagenum : ℤ) : Prop :=
  0 < pagenum ∧
    match a.loads.find? fun load ↦ load.tag = tag with
    | some load => load.filename = filename ∧ pagenum < load.visible
    | none => a.loads.length < MAXPAGEBUFFS ∧
        ∃ index, s.indexes filename tag = some index ∧ pagenum < index.visible

/-- There is no record of the page, and it is more than one behind those that were read, or no page map
can be read any more. -/
def PageAbsent (s : PageStore) (a : MappingLedger) (filename tag : List Char) (pagenum : ℤ) : Prop :=
  storedRecord s filename tag pagenum = none ∧
    match a.loads.find? fun load ↦ load.tag = tag with
    | some load => (load.visible : ℤ) < pagenum
    | none => MAXPAGEBUFFS ≤ a.loads.length

/-- Result sets are page sets of the index, and the pages that are added fit. -/
def ValidCall (s : PageStore) : PageCall → Prop
  | .lookup _ _ _ => True
  | .docs filename tag inset _ => inset.has PAGED_RESULT = true ∧ inset.Allocated ∧ ':' ∉ filename ∧
      inset.filename.toList = filename ++ ':' :: ':' :: tag
  | .add filename tag _ batch data => ∃ index, s.indexes filename tag = some index ∧
      match data with
      | .files entries => NamesFit entries ∧
          index.records.length + (pageNumbers entries).length ≤ INT_MAX ∧
          (pageNumbers entries = [] ∨ BatchReady batch index)
      | _ => True

def CallCondition (s : PageStore) (a : MappingLedger) : PageCall → Prop
  | .lookup filename tag pagenum =>
    PageKept s a filename tag pagenum ∨ PageAbsent s a filename tag pagenum
  | .docs filename tag inset _ => inset.filename.toList.length < FILENAME_BUFFER ∧
      ∀ pagenum ∈ inset.recordNums, PageKept s a filename tag pagenum
  | .add _ _ _ _ _ => True

/-- The table has the documents of the pages, with their weights. -/
structure SumsOf (hash : Table ℤ DocSum) (pages : List (ℤ × ℚ)) : Prop where
  keys : ∀ doc, doc ∈ hash.keys ↔ doc ∈ pages.map Prod.fst
  sums : ∀ doc docWts, hash.find? doc = some docWts →
    docWts.sumWts = (weightsOf pages doc).sum ∧ docWts.pages.length = (weightsOf pages doc).length

theorem weightsOf_append_self (pages : List (ℤ × ℚ)) (doc : ℤ) (weight : ℚ) :
    weightsOf (pages ++ [(doc, weight)]) doc = weightsOf pages doc ++ [weight] := by
  simp [weightsOf]

theorem weightsOf_append_of_ne (pages : List (ℤ × ℚ)) {doc other : ℤ} (hne : other ≠ doc)
    (weight : ℚ) : weightsOf (pages ++ [(other, weight)]) doc = weightsOf pages doc := by
  simp [weightsOf, hne]

variable {pages : List (ℤ × ℚ)}

theorem weightsOf_eq_nil {doc : ℤ} (h : doc ∉ pages.map Prod.fst) : weightsOf pages doc = [] := by
  rw [weightsOf, List.map_eq_nil_iff, List.filter_eq_nil_iff]
  intro page hpage heq
  exact h (List.mem_map.mpr ⟨page, hpage, by simpa using heq⟩)

theorem sumsOf_empty : SumsOf Table.empty [] where
  keys := fun doc ↦ by simp [Table.keys, Table.empty]
  sums := fun doc docWts h ↦ by cases h

theorem SumsOf.addPage {hash : Table ℤ DocSum} (h : SumsOf hash pages) (page : PageAssocRec)
    (weight : ℚ) (setindex : ℕ) (idnumber : ℤ) :
    SumsOf (Search.addPage hash page weight setindex idnumber)
      (pages ++ [(page.parentid, weight)]) where
  keys := by
    intro doc
    rw [mem_keys_addPage, h.keys, List.map_append, List.mem_append, List.map_singleton,
      List.mem_singleton, or_comm]
  sums := by
    intro doc docWts hfind
    by_cases hdoc : doc = page.parentid
    · subst hdoc
      rw [weightsOf_append_self, List.sum_append, List.sum_singleton, List.length_append,
        List.length_singleton]
      rw [Search.addPage] at hfind
      cases hold : hash.find? page.parentid with
      | none =>
        have hnil := weightsOf_eq_nil (mt (h.keys _).mpr ((hash.find?_eq_none_iff _).mp hold))
        simp only [hold, Table.find?_enter_self, Option.some.injEq] at hfind
        subst hfind
        rw [hnil]
        exact ⟨(zero_add _).symm, rfl⟩
      | some old =>
        obtain ⟨hsum, hlength⟩ := h.sums _ old hold
        simp only [hold, Table.find?_enter_self, Option.some.injEq] at hfind
        subst hfind
        rw [← hsum, ← hlength]
        exact ⟨rfl, List.length_append⟩
    · rw [weightsOf_append_of_ne _ (Ne.symm hdoc)]
      rw [Search.addPage] at hfind
      apply h.sums
      rw [← hfind]
      split
      · rw [Table.find?_enter_of_ne _ hdoc]
      · rw [Table.find?_enter_of_ne _ hdoc]

theorem SumsOf.docsOf {hash : Table ℤ DocSum} (h : SumsOf hash pages) (inset : WeightedResult)
    (probFlag : ℕ) : DocsOf (if probFlag ≠ 0 then seRankDocs (pageDocSet inset hash probFlag)
      else pageDocSet inset hash probFlag) pages := by
  have hnums := recordNums_pageDocSet inset hash probFlag
  have hdocs : DocsOf (pageDocSet inset hash probFlag) pages := by
    refine ⟨?_, ?_, ?_⟩
    · exact hnums.nodup_iff.mpr hash.nodup
    · intro doc
      exact hnums.mem_iff.trans (h.keys doc)
    · intro entry hentry
      rw [hits_pageDocSet] at hentry
      obtain ⟨item, hitem, rfl⟩ := List.mem_map.mp hentry
      have hitem' := (hashEntries_perm hash).mem_iff.mp hitem
      obtain ⟨hsum, hlength⟩ := h.sums _ _ (hash.find?_of_mem hitem')
      rw [← hsum, ← hlength]
  split
  · have hallocated := allocated_pageDocSet inset hash probFlag
    have hperm : (seRankDocs (pageDocSet inset hash probFlag)).hits.Perm
        (pageDocSet inset hash probFlag).hits := by
      rw [seRankDocs, hallocated.hits_qsort]
      exact List.perm_insertionSort _ _
    have hnums := hperm.map WeightedEntry.recordNum
    refine ⟨hnums.nodup_iff.mpr hdocs.once, ?_, ?_⟩
    · intro doc
      exact hnums.mem_iff.trans (hdocs.documents doc)
    · intro entry hentry
      exact hdocs.weights entry (hperm.mem_iff.mp hentry)
  · exact hdocs

theorem pageDocsLoop_sums {maps : PageMaps} {filename tag : List Char} {inset : WeightedResult}
    {idnumber : ℤ} {is : List ℕ} {entries : List WeightedEntry} (hreads : Reads inset is entries)
    {buffers : List PageInfoBuffer} {buffer : PageInfoBuffer}
    (hbuffer : bufferFor maps filename tag buffers = some buffer)
    {found : WeightedEntry → PageAssocRec}
    (hfound : ∀ entry ∈ entries, pageRecord buffer entry.recordNum = some (found entry))
    {hash : Table ℤ DocSum} {pages : List (ℤ × ℚ)} (hsums : SumsOf hash pages) :
    ∃ hash', pageDocsLoop maps filename (some tag) inset idnumber is hash buffers =
        .ok (hash', if entries = [] then buffers else withBuffer maps filename tag buffers) ∧
      SumsOf hash' (pages ++ entries.map fun entry ↦ ((found entry).parentid, entry.weight)) := by
  induction hreads generalizing hash buffers pages with
  | nil => exact ⟨hash, rfl, by simpa using hsums⟩
  | @cons i entry is entries hentry hreads ih =>
    obtain ⟨hrecord, hrest⟩ := List.forall_mem_cons.mp hfound
    have hassoc : seGetPageAssoc maps filename tag entry.recordNum buffers =
        .ok (some (found entry), withBuffer maps filename tag buffers) :=
      seGetPageAssoc_eq_ok_iff.mpr ⟨⟨buffer, hbuffer, hrecord⟩, rfl⟩
    obtain ⟨hash', hrun, hsums'⟩ := ih (bufferFor_withBuffer hbuffer) hrest
      (hsums.addPage (found entry) entry.weight i idnumber)
    refine ⟨hash', ?_, by simpa using hsums'⟩
    rw [withBuffer_withBuffer hbuffer, ite_self] at hrun
    rw [if_neg (List.cons_ne_nil _ _), pageDocsLoop, hentry]
    simp only [bind, Except.bind, hassoc, deref]
    exact hrun

abbrev PageIndexes := List Char → List Char → Option PagedIndex

/-- The buffer has the records of the page map that were in the file, as they still are. -/
structure LoadedFrom (indexes : PageIndexes) (buffer : PageInfoBuffer) (load : PageLoad) : Prop where
  tag_eq : buffer.tag = load.tag
  bound : buffer.maxpagenum = load.visible
  kept : ∃ index, indexes load.filename load.tag = some index ∧ ∀ i, i + 1 < load.visible →
    ∃ record, index.records[i]? = some record ∧ pageRecord buffer (i + 1) = some record

/-- The indexes are those from before, with more records behind the others. -/
def Grown (indexes indexes' : PageIndexes) : Prop :=
  ∀ filename tag index, indexes filename tag = some index →
    ∃ index', indexes' filename tag = some index' ∧ index.records <+: index'.records

theorem LoadedFrom.grown {indexes indexes' : PageIndexes} {buffer : PageInfoBuffer} {load : PageLoad}
    (h : LoadedFrom indexes buffer load) (hgrown : Grown indexes indexes') :
    LoadedFrom indexes' buffer load := by
  obtain ⟨index, hindex, hkept⟩ := h.kept
  obtain ⟨index', hindex', added, hadded⟩ := hgrown _ _ _ hindex
  refine ⟨h.tag_eq, h.bound, index', hindex', ?_⟩
  intro i hi
  obtain ⟨record, hrecord, hread⟩ := hkept i hi
  have hlt := (List.getElem?_eq_some_iff.mp hrecord).1
  exact ⟨record, by rw [← hadded, List.getElem?_append_left hlt, hrecord], hread⟩

theorem rel_find? {α β : Type*} {R : α → β → Prop} {p : α → Bool} {q : β → Bool}
    (hpq : ∀ a b, R a b → p a = q b) {first : List α} {second : List β}
    (h : List.Forall₂ R first second) : Option.Rel R (first.find? p) (second.find? q) := by
  induction h with
  | nil => exact Option.Rel.none
  | @cons a b first second hab h ih =>
    rw [List.find?_cons, List.find?_cons, hpq a b hab]
    split
    · exact Option.Rel.some hab
    · exact ih

/-- The indexes are sound, the buffers are those of the ledger, and the last answer was right. -/
structure RepresentsMapping (s : PageStore) (a : MappingLedger) : Prop where
  numbered : ∀ filename tag index, s.indexes filename tag = some index → index.Numbered
  loads : List.Forall₂ (LoadedFrom s.indexes) s.buffers a.loads
  answered : AnswerHolds s a.answer

variable {pagenum : ℤ}

section Buffers

variable {s : PageStore} {a : MappingLedger} {filename tag : List Char}

theorem RepresentsMapping.loaded_or_new (h : RepresentsMapping s a) (tag : List Char) :
    (∃ buffer load, s.buffers.find? (fun buffer ↦ buffer.tag = tag) = some buffer ∧
        a.loads.find? (fun load ↦ load.tag = tag) = some load ∧ LoadedFrom s.indexes buffer load) ∨
      s.buffers.find? (fun buffer ↦ buffer.tag = tag) = none ∧
        a.loads.find? (fun load ↦ load.tag = tag) = none := by
  have hfind : Option.Rel (LoadedFrom s.indexes) (s.buffers.find? fun buffer ↦ buffer.tag = tag)
      (a.loads.find? fun load ↦ load.tag = tag) := by
    apply rel_find? _ h.loads
    intro buffer load hload
    rw [hload.tag_eq]
  generalize s.buffers.find? (fun buffer ↦ buffer.tag = tag) = buffer at hfind ⊢
  generalize a.loads.find? (fun load ↦ load.tag = tag) = load at hfind ⊢
  cases hfind with
  | some hload => exact Or.inl ⟨_, _, rfl, rfl, hload⟩
  | none => exact Or.inr ⟨rfl, rfl⟩

theorem loadedFrom_loadBuffer {indexes : PageIndexes} {index : PagedIndex} (hnumbered : index.Numbered)
    {index' : PagedIndex} (hindex : indexes filename tag = some index')
    (hrecords : index'.records = index.records) :
    LoadedFrom indexes (loadBuffer tag (index.visible, index.header :: index.records))
      ⟨tag, filename, index.visible⟩ where
  tag_eq := rfl
  bound := rfl
  kept := by
    refine ⟨index', hindex, fun i hi ↦ ?_⟩
    have hvisible := hnumbered.visible
    have hlt : i < index.records.length := by
      change i + 1 < index.visible at hi
      omega
    have hread := pageRecord_loadBuffer (s := ⟨index, filename, tag, [], []⟩) tag hvisible i
    rw [if_pos hi] at hread
    exact ⟨index.records[i], by rw [hrecords, List.getElem?_eq_getElem hlt],
      by rw [hread, List.getElem?_eq_getElem hlt]⟩

theorem RepresentsMapping.keptRecord (h : RepresentsMapping s a)
    (hkept : PageKept s a filename tag pagenum) :
    ∃ buffer record, bufferFor s.maps filename tag s.buffers = some buffer ∧
      pageRecord buffer pagenum = some record ∧
      storedRecord s filename tag pagenum = some record := by
  obtain ⟨hpos, hread⟩ := hkept
  have hnum : ((pagenum.toNat - 1 : ℕ) : ℤ) + 1 = pagenum := by omega
  have hload : ∃ buffer load, bufferFor s.maps filename tag s.buffers = some buffer ∧
      LoadedFrom s.indexes buffer load ∧ load.tag = tag ∧ load.filename = filename ∧
      pagenum < load.visible := by
    rw [bufferFor]
    rcases h.loaded_or_new tag with ⟨buffer, load, hbuffer, hload, hfrom⟩ | ⟨hbuffer, hload⟩
    · rw [hload] at hread
      rw [hbuffer]
      exact ⟨buffer, load, rfl, hfrom, by simpa using List.find?_some hload, hread⟩
    · rw [hload] at hread
      obtain ⟨hroom, index, hindex, hlt⟩ := hread
      have hfull : ¬MAXPAGEBUFFS ≤ s.buffers.length := by
        rw [h.loads.length_eq]
        omega
      have hmaps : s.maps filename tag = some (index.visible, index.header :: index.records) := by
        rw [PageStore.maps, hindex]
        rfl
      rw [hbuffer]
      exact ⟨_, ⟨tag, filename, index.visible⟩, by simp only [if_neg hfull, hmaps]; rfl,
        loadedFrom_loadBuffer (h.numbered _ _ _ hindex) hindex rfl, rfl, rfl, hlt⟩
  obtain ⟨buffer, load, hbuffer, hfrom, rfl, rfl, hlt⟩ := hload
  obtain ⟨index, hindex, hrecords⟩ := hfrom.kept
  obtain ⟨record, hrecord, hpage⟩ := hrecords (pagenum.toNat - 1) (by omega)
  rw [hnum] at hpage
  refine ⟨buffer, record, hbuffer, hpage, ?_⟩
  rw [storedRecord, hindex, Option.bind_some, if_pos hpos]
  exact hrecord

theorem RepresentsMapping.absentRecord (h : RepresentsMapping s a)
    (habsent : PageAbsent s a filename tag pagenum) :
    seGetPageAssoc s.maps filename tag pagenum s.buffers = .ok (none, s.buffers) := by
  have hbehind := habsent.2
  rw [seGetPageAssoc]
  rcases h.loaded_or_new tag with ⟨buffer, load, hbuffer, hload, hfrom⟩ | ⟨hbuffer, hload⟩
  · rw [hload] at hbehind
    have hgt : pagenum > buffer.maxpagenum := by
      rw [hfrom.bound]
      exact hbehind
    rw [hbuffer]
    simp only [if_pos hgt]
  · rw [hload] at hbehind
    rw [← h.loads.length_eq] at hbehind
    rw [hbuffer]
    simp only [if_pos hbehind]

theorem withBuffers_indexes (buffers : List PageInfoBuffer) (name other : List Char) :
    (s.withBuffers filename tag buffers).indexes name other = s.indexes name other ∨
      ∃ index, s.indexes name other = some index ∧
        (s.withBuffers filename tag buffers).indexes name other = some index.seek := by
  rw [PageStore.withBuffers]
  simp only
  split
  · exact Or.inl rfl
  · cases hindex : s.indexes filename tag with
    | none => exact Or.inl rfl
    | some index =>
      simp only [PageStore.setIndex]
      split
      · rename_i hname
        obtain ⟨rfl, rfl⟩ := hname
        exact Or.inr ⟨index, hindex, rfl⟩
      · exact Or.inl rfl

theorem grown_withBuffers (s : PageStore) (filename tag : List Char) (buffers : List PageInfoBuffer) :
    Grown s.indexes (s.withBuffers filename tag buffers).indexes := by
  intro name other index hindex
  rcases withBuffers_indexes buffers name other with hsame | ⟨index', hold, hnew⟩
  · exact ⟨index, hsame.trans hindex, List.prefix_rfl⟩
  · obtain rfl := Option.some.inj (hold.symm.trans hindex)
    exact ⟨index'.seek, hnew, List.prefix_rfl⟩

theorem RepresentsMapping.numbered_withBuffers (h : RepresentsMapping s a)
    (filename tag : List Char) (buffers : List PageInfoBuffer) (name other : List Char)
    (index : PagedIndex)
    (hindex : (s.withBuffers filename tag buffers).indexes name other = some index) :
    index.Numbered := by
  rcases withBuffers_indexes buffers name other with hsame | ⟨index', hold, hnew⟩
  · exact h.numbered _ _ _ (hsame.symm.trans hindex)
  · obtain rfl := Option.some.inj (hnew.symm.trans hindex)
    exact numbered_seek (h.numbered _ _ _ hold)

theorem loadedFrom_withBuffers {index : PagedIndex} (hnumbered : index.Numbered)
    (hindex : s.indexes filename tag = some index) (buffers : List PageInfoBuffer) :
    LoadedFrom (s.withBuffers filename tag buffers).indexes
      (loadBuffer tag (index.visible, index.header :: index.records))
      ⟨tag, filename, index.visible⟩ := by
  rcases withBuffers_indexes (s := s) buffers filename tag with hsame | ⟨other, hother, hnew⟩
  · exact loadedFrom_loadBuffer hnumbered (hsame.trans hindex) rfl
  · obtain rfl := Option.some.inj (hother.symm.trans hindex)
    exact loadedFrom_loadBuffer hnumbered hnew rfl

theorem RepresentsMapping.loads_withBuffer (h : RepresentsMapping s a) (filename tag : List Char) :
    List.Forall₂ (LoadedFrom (s.withBuffers filename tag
        (withBuffer s.maps filename tag s.buffers)).indexes)
      (withBuffer s.maps filename tag s.buffers) (withLoad s a.loads filename tag) := by
  have hgrown := grown_withBuffers s filename tag (withBuffer s.maps filename tag s.buffers)
  have hold : List.Forall₂ (LoadedFrom (s.withBuffers filename tag
      (withBuffer s.maps filename tag s.buffers)).indexes) s.buffers a.loads :=
    h.loads.imp fun _ _ hload ↦ hload.grown hgrown
  rcases h.loaded_or_new tag with ⟨buffer, load, hbuffer, hload, -⟩ | ⟨hbuffer, hload⟩
  · have hbuffers : withBuffer s.maps filename tag s.buffers = s.buffers := by
      rw [withBuffer, hbuffer]
    have hloads : withLoad s a.loads filename tag = a.loads := by rw [withLoad, hload]
    rw [hbuffers] at hold ⊢
    rw [hloads]
    exact hold
  · have hbuffers : withBuffer s.maps filename tag s.buffers =
        s.buffers ++ (bufferFor s.maps filename tag s.buffers).toList := by
      rw [withBuffer, hbuffer]
    have hloads : withLoad s a.loads filename tag =
        if MAXPAGEBUFFS ≤ s.buffers.length then a.loads
        else a.loads ++
          ((s.indexes filename tag).map fun index ↦ ⟨tag, filename, index.visible⟩).toList := by
      rw [withLoad, hload, h.loads.length_eq]
    rw [hloads]
    by_cases hfull : MAXPAGEBUFFS ≤ s.buffers.length
    · have hnone : bufferFor s.maps filename tag s.buffers = none := by
        rw [bufferFor, hbuffer]
        exact if_pos hfull
      rw [if_pos hfull]
      rw [hbuffers, hnone, Option.toList_none, List.append_nil] at hold ⊢
      exact hold
    · have hfor : bufferFor s.maps filename tag s.buffers =
          (s.indexes filename tag).map fun index ↦
            loadBuffer tag (index.visible, index.header :: index.records) := by
        rw [bufferFor, hbuffer]
        simp only [if_neg hfull, PageStore.maps, Option.map_map]
        rfl
      rw [if_neg hfull]
      cases hindex : s.indexes filename tag with
      | none =>
        rw [Option.map_none, Option.toList_none, List.append_nil]
        rw [hbuffers, hfor, hindex, Option.map_none, Option.toList_none, List.append_nil] at hold ⊢
        exact hold
      | some index =>
        have hlast := loadedFrom_withBuffers (h.numbered _ _ _ hindex) hindex
          (withBuffer s.maps filename tag s.buffers)
        rw [hbuffers, hfor, hindex, Option.map_some] at hold hlast ⊢
        exact List.rel_append hold (List.Forall₂.cons hlast List.Forall₂.nil)

end Buffers

section Calls

variable {s : PageStore} {a : MappingLedger} {filename tag : List Char}

theorem RepresentsMapping.lookup (h : RepresentsMapping s a)
    (hcondition : CallCondition s a (.lookup filename tag pagenum)) :
    ∃ s', stepCall s (.lookup filename tag pagenum) = .ok s' ∧
      RepresentsMapping s' (specCall s a (.lookup filename tag pagenum)) := by
  rcases hcondition with hkept | habsent
  · obtain ⟨buffer, record, hbuffer, hpage, hstored⟩ := h.keptRecord hkept
    have hassoc := seGetPageAssoc_eq_ok_iff.mpr ⟨⟨buffer, hbuffer, hpage⟩, rfl⟩
    refine ⟨_, by rw [stepCall, hassoc]; rfl, ?_, ?_, ?_⟩
    · exact h.numbered_withBuffers filename tag _
    · exact h.loads_withBuffer filename tag
    · exact hstored.symm
  · have hassoc := h.absentRecord habsent
    refine ⟨_, by rw [stepCall, hassoc]; rfl, ?_, ?_, ?_⟩
    · exact h.numbered_withBuffers filename tag _
    · have hloads : withLoad s a.loads filename tag = a.loads := by
        have hbehind := habsent.2
        rw [withLoad]
        split
        · rfl
        · rename_i hnone
          rw [hnone] at hbehind
          exact if_pos hbehind
      rw [specCall, hloads]
      have hsame : (s.withBuffers filename tag s.buffers).indexes = s.indexes := if_pos rfl
      change List.Forall₂ (LoadedFrom (s.withBuffers filename tag s.buffers).indexes) s.buffers a.loads
      rw [hsame]
      exact h.loads
    · exact habsent.1.symm

theorem seGetPageDocs_named {maps : PageMaps} {inset : WeightedResult} {idnumber : ℤ}
    {buffers : List PageInfoBuffer}
    (hvalid : ValidCall s (.docs filename tag inset idnumber))
    (hlength : inset.filename.toList.length < FILENAME_BUFFER) :
    seGetPageDocs maps (some inset) idnumber buffers =
      pageDocsLoop maps filename (some tag) inset idnumber (List.range inset.numHits.toNat)
        Table.empty buffers >>= fun docs ↦
          .ok (some (if inset.resultType &&& PAGE_PROB_FLAGS ≠ 0 then
              seRankDocs (pageDocSet inset docs.1 (inset.resultType &&& PAGE_PROB_FLAGS))
            else pageDocSet inset docs.1 (inset.resultType &&& PAGE_PROB_FLAGS), docs.1), docs.2) := by
  obtain ⟨hpaged, -, hcolon, hname⟩ := hvalid
  have hpaged' : ¬inset.has PAGED_RESULT = false := by simp [hpaged]
  rw [hname] at hlength
  rw [seGetPageDocs]
  simp only [if_neg hpaged', hname]
  rw [indexName_eq hcolon, if_pos hlength]
  rfl

theorem RepresentsMapping.docsLoop (h : RepresentsMapping s a) {inset : WeightedResult} {idnumber : ℤ}
    (hallocated : inset.Allocated)
    (hkept : ∀ pagenum ∈ inset.recordNums, PageKept s a filename tag pagenum) :
    ∃ hash, pageDocsLoop s.maps filename (some tag) inset idnumber (List.range inset.numHits.toNat)
        Table.empty s.buffers =
          .ok (hash, if inset.hits = [] then s.buffers else withBuffer s.maps filename tag s.buffers) ∧
      SumsOf hash (documentPages s filename tag inset) := by
  have hreads := reads_hits hallocated
  by_cases hnil : inset.hits = []
  · rw [hits_of_reads_nil hallocated hnil, if_pos hnil]
    refine ⟨Table.empty, rfl, ?_⟩
    rw [documentPages, hnil]
    exact sumsOf_empty
  · obtain ⟨first, hfirst⟩ := List.exists_mem_of_ne_nil _ hnil
    obtain ⟨buffer, -, hbuffer, -, -⟩ := h.keptRecord (hkept _ (mem_recordNums_of_hit hfirst))
    have hfound (entry : WeightedEntry) (hentry : entry ∈ inset.hits) :
        ∃ record, pageRecord buffer entry.recordNum = some record ∧
          storedRecord s filename tag entry.recordNum = some record := by
      obtain ⟨other, record, hother, hpage, hstored⟩ :=
        h.keptRecord (hkept _ (mem_recordNums_of_hit hentry))
      obtain rfl := Option.some.inj (hother.symm.trans hbuffer)
      exact ⟨record, hpage, hstored⟩
    let found (entry : WeightedEntry) : PageAssocRec :=
      (storedRecord s filename tag entry.recordNum).getD PageAssocRec.zero
    have hread : ∀ entry ∈ inset.hits, pageRecord buffer entry.recordNum = some (found entry) := by
      intro entry hentry
      obtain ⟨record, hpage, hstored⟩ := hfound entry hentry
      rw [hpage]
      exact congrArg some (by simp only [found, hstored, Option.getD_some])
    obtain ⟨hash, hrun, hsums⟩ := @pageDocsLoop_sums _ _ _ _ idnumber _ _ hreads _ _ hbuffer _ hread _ _
      sumsOf_empty
    refine ⟨hash, hrun, ?_⟩
    have hpages : documentPages s filename tag inset =
        inset.hits.map fun entry ↦ ((found entry).parentid, entry.weight) := by
      rw [documentPages, ← List.filterMap_eq_map]
      apply List.filterMap_congr
      intro entry hentry
      obtain ⟨record, -, hstored⟩ := hfound entry hentry
      simp only [found, hstored, Option.map_some, Option.getD_some, Function.comp_apply]
    rw [hpages]
    exact hsums

theorem RepresentsMapping.docs (h : RepresentsMapping s a) {inset : WeightedResult} {idnumber : ℤ}
    (hvalid : ValidCall s (.docs filename tag inset idnumber))
    (hcondition : CallCondition s a (.docs filename tag inset idnumber)) :
    ∃ s', stepCall s (.docs filename tag inset idnumber) = .ok s' ∧
      RepresentsMapping s' (specCall s a (.docs filename tag inset idnumber)) := by
  obtain ⟨hlength, hkept⟩ := hcondition
  obtain ⟨hash, hrun, hsums⟩ := @RepresentsMapping.docsLoop _ _ _ _ h _ idnumber hvalid.2.1 hkept
  have hdocs := @seGetPageDocs_named _ _ _ s.maps _ _ s.buffers hvalid hlength
  rw [hrun] at hdocs
  refine ⟨_, by rw [stepCall, hdocs]; rfl, ?_, ?_, _, rfl, hsums.docsOf inset _⟩
  · exact h.numbered_withBuffers filename tag _
  · rw [specCall]
    by_cases hnil : inset.hits = []
    · simp only [if_pos hnil]
      have hsame : (s.withBuffers filename tag s.buffers).indexes = s.indexes := if_pos rfl
      change List.Forall₂ (LoadedFrom (s.withBuffers filename tag s.buffers).indexes) s.buffers a.loads
      rw [hsame]
      exact h.loads
    · simp only [if_neg hnil]
      exact h.loads_withBuffer filename tag

theorem RepresentsMapping.add (h : RepresentsMapping s a) {recnum : RecordNumber} {batch : Bool}
    {data : PageDirectory} (hvalid : ValidCall s (.add filename tag recnum batch data)) :
    ∃ s', stepCall s (.add filename tag recnum batch data) = .ok s' ∧
      RepresentsMapping s' (specCall s a (.add filename tag recnum batch data)) := by
  obtain ⟨index, hindex, hfit⟩ := hvalid
  have hnumbered := h.numbered _ _ _ hindex
  have hadd : ∃ index', idxpages data recnum (if batch then 1 else 0) index = .ok index' ∧
      index'.Numbered ∧ index.records <+: index'.records := by
    cases data with
    | null => exact ⟨index, rfl, hnumbered, List.prefix_rfl⟩
    | unreadable => exact ⟨index, idxpages_unreadable recnum batch index, hnumbered, List.prefix_rfl⟩
    | files entries =>
      obtain ⟨hnames, hroom, hready⟩ := hfit
      obtain ⟨index', hrun, hadded⟩ := @exists_idxpagesLoop recnum _ _ _ hnumbered hnames
        hroom hready
      obtain ⟨added, hrecords, -⟩ := hadded.records
      exact ⟨index', by rw [idxpages_files, hrun], hadded.numbered, added, hrecords.symm⟩
  obtain ⟨index', hrun, hnumbered', hpre⟩ := hadd
  have hgrown : Grown s.indexes (s.setIndex filename tag index') := by
    intro name other old hold
    rw [PageStore.setIndex]
    split
    · rename_i hname
      obtain ⟨rfl, rfl⟩ := hname
      obtain rfl := Option.some.inj (hold.symm.trans hindex)
      exact ⟨index', rfl, hpre⟩
    · exact ⟨old, hold, List.prefix_rfl⟩
  refine ⟨{ s with indexes := s.setIndex filename tag index', assoc := none, docs := none }, ?_,
    ?_, ?_, trivial⟩
  · rw [stepCall, hindex]
    simp only [deref, bind, Except.bind, hrun]
  · intro name other found hfound
    simp only [PageStore.setIndex] at hfound
    split at hfound
    · rw [← Option.some.inj hfound]
      exact hnumbered'
    · exact h.numbered _ _ _ hfound
  · exact h.loads.imp fun _ _ hload ↦ hload.grown hgrown

end Calls

/-- A process that has read no page map. -/
structure NewStore (s : PageStore) : Prop where
  numbered : ∀ filename tag index, s.indexes filename tag = some index → index.Numbered
  buffers : s.buffers = []

theorem NewStore.represents {s : PageStore} (h : NewStore s) :
    RepresentsMapping s MappingLedger.empty where
  numbered := h.numbered
  loads := by
    rw [h.buffers]
    exact List.Forall₂.nil
  answered := trivial

theorem RepresentsMapping.step {s : PageStore} {a : MappingLedger} (h : RepresentsMapping s a)
    {call : PageCall} (hvalid : ValidCall s call) (hcondition : CallCondition s a call) :
    ∃ s', stepCall s call = .ok s' ∧ RepresentsMapping s' (specCall s a call) := by
  cases call with
  | lookup filename tag pagenum => exact h.lookup hcondition
  | docs filename tag inset idnumber => exact h.docs hvalid hcondition
  | add filename tag recnum batch data => exact h.add hvalid

/-- In every run of calls that meet their conditions, over any databases and indexes and with pages added
in between, every look-up returns the record that is stored, and every document set has each document
once with its weight. -/
theorem answered_of_along (s : PageStore) (hnew : NewStore s) (calls : List PageCall)
    (hvalid : Along stepCall specCall (fun s _ call ↦ ValidCall s call) s MappingLedger.empty calls)
    (hcondition : Along stepCall specCall CallCondition s MappingLedger.empty calls) :
    Throughout stepCall specCall (fun s a ↦ AnswerHolds s a.answer) (fun _ _ _ ↦ True) s
      MappingLedger.empty calls := by
  have hrun : Throughout stepCall specCall RepresentsMapping (fun _ _ _ ↦ True) s
      MappingLedger.empty calls := by
    apply throughout_of_along (fun _ ↦ True) _ trivial hnew.represents (hvalid.and hcondition)
    intro s a call _ h hcall
    obtain ⟨s', hs', h'⟩ := h.step hcall.1 hcall.2
    exact ⟨s', hs', trivial, trivial, h'⟩
  exact hrun.imp fun _ _ h ↦ h.answered

/-- An index with a record for its only page. -/
def onePageIndex (parentid : ℤ) : PagedIndex :=
  { PagedIndex.created PAGEDINDEX none with
    header := ⟨1, 0, 0, 0⟩
    records := [⟨parentid, 1, 1, 0⟩]
    visible := 2
    highestPageNumber := 1 }

def journals : List Char := ['j', 'o', 'u', 'r', 'n', 'a', 'l', 's']

/-- Two databases, both with an index of this tag. -/
def twoDatabases : PageStore where
  indexes := fun filename tag ↦
    if tag = textTag then
      if filename = books then some (onePageIndex 1)
      else if filename = journals then some (onePageIndex 2)
      else none
    else none
  buffers := []
  assoc := none
  docs := none

theorem newStore_twoDatabases : NewStore twoDatabases where
  numbered := by
    have hsmall : 1 ≤ INT_MAX := by decide
    have hindex (parentid : ℤ) : (onePageIndex parentid).Numbered :=
      ⟨rfl, hsmall, le_rfl, fun _ _ h ↦ by cases h⟩
    intro filename tag index h
    simp only [twoDatabases] at h
    split at h
    · split at h
      · rw [← Option.some.inj h]
        exact hindex 1
      · split at h
        · rw [← Option.some.inj h]
          exact hindex 2
        · cases h
    · cases h
  buffers := rfl

/-- A page is looked up, another one is added, and the documents of the first one are found. -/
theorem answered_added : Throughout stepCall specCall (fun s a ↦ AnswerHolds s a.answer)
    (fun _ _ _ ↦ True) twoDatabases MappingLedger.empty
    [.lookup books textTag 1, .add books textTag firstDocument false onePage,
      .docs books textTag pageResult 0] := by
  refine answered_of_along twoDatabases newStore_twoDatabases _ ?_ ?_
  · refine ⟨trivial, ?_⟩
    intro s₁ h₁
    cases h₁
    refine ⟨⟨_, rfl, ⟨by decide, by decide, fun _ ↦ trivial⟩, by decide, Or.inr fun h ↦ by cases h⟩,
      ?_⟩
    intro s₂ h₂
    cases h₂
    exact ⟨⟨by decide, ⟨by decide, by decide⟩, by decide, by decide⟩, fun _ _ ↦ trivial⟩
  · refine ⟨Or.inl ⟨by decide, by decide, _, rfl, by decide⟩, ?_⟩
    intro s₁ h₁
    cases h₁
    refine ⟨trivial, ?_⟩
    intro s₂ h₂
    cases h₂
    refine ⟨⟨by decide, ?_⟩, fun _ _ ↦ trivial⟩
    intro pagenum hpagenum
    obtain rfl : pagenum = 1 := List.mem_singleton.mp hpagenum
    exact ⟨by decide, rfl, by decide⟩

/-- The page of the second database is looked up in the page map of the first one. -/
theorem not_answered_twoDatabases : ¬∀ s, NewStore s → ∀ calls,
    Along stepCall specCall (fun s _ call ↦ ValidCall s call) s MappingLedger.empty calls →
    Throughout stepCall specCall (fun s a ↦ AnswerHolds s a.answer) (fun _ _ _ ↦ True) s
      MappingLedger.empty calls := by
  intro hall
  have hvalid : Along stepCall specCall (fun s _ call ↦ ValidCall s call) twoDatabases
      MappingLedger.empty [.lookup books textTag 1, .lookup journals textTag 1] :=
    ⟨trivial, fun _ _ ↦ ⟨trivial, fun _ _ ↦ trivial⟩⟩
  obtain ⟨-, s₁, ⟨⟩, -, -, s₂, ⟨⟩, -, hgood⟩ := hall _ newStore_twoDatabases _ hvalid
  have hparent : (some (1 : ℤ)) = some 2 := congrArg (Option.map PageAssocRec.parentid) hgood
  cases hparent

end Cheshire.Search
