import Cheshire.Index.PageRecords
import Cheshire.Lib.Runs
import Cheshire.Search.PageDocs

/-!
# Histories of a page-level index

Documents are added and deleted, and sets of pages are turned into sets of documents, in any order.  A
ledger keeps the pages of all documents, whether each of them was deleted, and which pages the process
read into its buffer.
-/

namespace Cheshire.Search

open Lib Lib.Runs Index

/-- A page-level index in a process, with the document set that was computed last. -/
structure PageProcess where
  index : PagedIndex
  filename : List Char
  tag : List Char
  buffers : List PageInfoBuffer
  docs : List ℤ

/-- The page map of the index, as the process opens it. -/
def PageProcess.maps (s : PageProcess) : PageMaps := fun filename tag ↦
  if filename = s.filename ∧ tag = s.tag then
    some (s.index.visible, s.index.header :: s.index.records)
  else none

inductive PageOp where
  | add (recnum : RecordNumber) (batch : Bool) (data : PageDirectory)
  | delete (recnum : RecordNumber)
  | search (inset : WeightedResult) (idnumber : ℤ)
  | other (buffer : PageInfoBuffer)
  | reopen (unset : ℤ)

/-- One operation; a search that loads the page map writes what was in the buffer of its stream, and a
search of another index may load the page map of that index. -/
def stepPage (s : PageProcess) : PageOp → Exec PageProcess
  | .add recnum batch data => do
    let index ← idxpages data recnum (if batch then 1 else 0) s.index
    .ok { s with index := index, docs := [] }
  | .delete recnum => .ok { s with index := pageFileDelete recnum s.index, docs := [] }
  | .search inset idnumber => do
    let found ← seGetPageDocs s.maps (some inset) idnumber s.buffers
    .ok { s with
      index := if found.2.length = s.buffers.length then s.index else s.index.seek
      buffers := found.2
      docs := (found.1.map fun result ↦ result.1.recordNums).getD [] }
  | .other buffer =>
    if (s.buffers.any fun other ↦ other.tag = buffer.tag) = true ∨ MAXPAGEBUFFS ≤ s.buffers.length then
      .ok s
    else .ok { s with buffers := s.buffers ++ [buffer] }
  | .reopen unset => .ok { s with index := s.index.reopen unset, buffers := [], docs := [] }

def PageProcess.created (idxType : ℕ) (batchFile : Option (List BatchItem)) (filename tag : List Char) :
    PageProcess := ⟨PagedIndex.created idxType batchFile, filename, tag, [], []⟩

structure Page where
  doc : RecordNumber
  pagenum : ℤ
  live : Bool

/-- The pages in the order in which they were added, the documents that were added and not deleted since,
and the pages that were read into the buffer, as they were then. -/
structure PageLedger where
  pages : List Page
  live : List RecordNumber
  seen : Option (List Page)

namespace PageLedger

def empty : PageLedger := ⟨[], [], none⟩

def numbers : PageDirectory → List ℕ
  | .files entries => pageNumbers entries
  | _ => []

def add (recnum : RecordNumber) (data : PageDirectory) (a : PageLedger) : PageLedger :=
  { a with
    pages := a.pages ++ (numbers data).map fun number : ℕ ↦ ⟨recnum, number, true⟩
    live := recnum :: a.live }

def delete (recnum : RecordNumber) (a : PageLedger) : PageLedger :=
  { a with
    pages := a.pages.map fun page ↦ if page.doc = recnum then { page with live := false } else page
    live := a.live.filter (· ≠ recnum) }

end PageLedger

/-- The pages that a search looks at: those in the buffer, or those in the file. -/
def seenPages (s : PageProcess) (a : PageLedger) : List Page :=
  a.seen.getD (a.pages.take (s.index.visible - 1))

def specPage (s : PageProcess) (a : PageLedger) : PageOp → PageLedger
  | .add recnum _ data => a.add recnum data
  | .delete recnum => a.delete recnum
  | .search inset _ => if inset.hits = [] then a else { a with seen := some (seenPages s a) }
  | .other _ => a
  | .reopen _ => { a with seen := none }

/-- What the record of a page says; the number of a document that was deleted is negative. -/
def Page.link (page : Page) : ℤ × ℤ :=
  (if page.live then (page.doc.1 : ℤ) else -(page.doc.1 : ℤ), page.pagenum)

/-- Every page has its record, and the document set has documents that are live. -/
structure FaithfulPages (s : PageProcess) (a : PageLedger) : Prop where
  records : s.index.records.map PageAssocRec.link = a.pages.map Page.link
  docs : ∀ doc ∈ s.docs, ∃ recnum ∈ a.live, (recnum.1 : ℤ) = doc

/-- What an operation does to the records that are there: a deletion marks all records of its document,
and nothing else changes. -/
def PageFrame (s : PageProcess) : PageOp → PageProcess → Prop
  | .add _ _ _, s' => s.index.records <+: s'.index.records
  | .delete recnum, s' =>
    s'.index = { s.index with
      records := s.index.records.map (markDeleted recnum.1)
      visible := s.index.records.length + 1 }
  | _, s' => s'.index.records = s.index.records

/-- Result sets are those of this index, and other indexes have other tags. -/
def ValidPage (s : PageProcess) (_ : PageLedger) : PageOp → Prop
  | .search inset _ => inset.has PAGED_RESULT = true ∧ inset.Allocated ∧ ':' ∉ s.filename ∧
      inset.filename.toList = s.filename ++ ':' :: ':' :: s.tag ∧
      ∀ page ∈ inset.recordNums, 0 < page
  | .other buffer => buffer.tag ≠ s.tag
  | _ => True

/-- The pages of a document can be added. -/
def PagesFit (s : PageProcess) (batch : Bool) : PageDirectory → Prop
  | .files entries => NamesFit entries ∧
      s.index.records.length + (pageNumbers entries).length ≤ INT_MAX ∧
      (pageNumbers entries = [] ∨ BatchReady batch s.index)
  | _ => True

/-- The condition of an operation.  The pages of a document that is deleted stand together; a page that is
searched was in the file, and its document not deleted, when the page map was read, and the document is
still there. -/
def PageCondition (s : PageProcess) (a : PageLedger) : PageOp → Prop
  | .add _ batch data => PagesFit s batch data
  | .delete recnum => Together (fun page : Page ↦ decide (page.doc = recnum) && page.live) a.pages
  | .search inset _ => inset.filename.toList.length < FILENAME_BUFFER ∧
      (inset.hits = [] ∨ a.seen.isSome = true ∨ s.buffers.length < MAXPAGEBUFFS) ∧
      ∀ pagenum ∈ inset.recordNums, ∃ page, (seenPages s a)[pagenum.toNat - 1]? = some page ∧
        page.live = true ∧ page.doc ∈ a.live
  | _ => True

/-- The buffer has these pages, and zeros behind them. -/
def HoldsPages (buffer : PageInfoBuffer) (pages : List Page) : Prop :=
  ∀ i : ℕ, (∀ page, pages[i]? = some page →
      ∃ record, pageRecord buffer (i + 1) = some record ∧ record.link = page.link) ∧
    (pages[i]? = none → ∀ record, pageRecord buffer (i + 1) = some record → record.parentid = 0)

theorem pageRecord_loadBuffer {s : PageProcess} (tag : List Char)
    (hvisible : s.index.visible ≤ s.index.records.length + 1) (i : ℕ) :
    pageRecord (loadBuffer tag (s.index.visible, s.index.header :: s.index.records)) (i + 1) =
      if i + 1 < s.index.visible then s.index.records[i]?
      else if i + 1 = s.index.visible then some PageAssocRec.zero else none := by
  have hlength : ((s.index.header :: s.index.records).take s.index.visible).length = s.index.visible := by
    rw [List.length_take, List.length_cons]
    exact min_eq_left hvisible
  have hdata : (loadBuffer tag (s.index.visible, s.index.header :: s.index.records)).pagedata =
      (s.index.header :: s.index.records).take s.index.visible ++ [PageAssocRec.zero] := by
    change _ ++ List.replicate (s.index.visible + 1 -
      ((s.index.header :: s.index.records).take s.index.visible).length) _ = _
    rw [hlength, Nat.add_sub_cancel_left]
    rfl
  have hplace : ((i : ℤ) + 1).toNat = i + 1 := by omega
  rw [pageRecord, hdata, hplace]
  change (if (i : ℤ) + 1 < 0 ∨ (i : ℤ) + 1 > (s.index.visible : ℤ) then _ else _) = _
  by_cases hbehind : s.index.visible < i + 1
  · rw [if_pos (Or.inr (by omega)), if_neg (by omega), if_neg (by omega)]
  · rw [if_neg (by omega)]
    by_cases hlast : i + 1 = s.index.visible
    · rw [if_neg (by omega), if_pos hlast, List.getElem?_append_right (by omega), hlength, hlast,
        Nat.sub_self]
      rfl
    · rw [if_pos (by omega), List.getElem?_append_left (by omega), List.getElem?_take_of_lt (by omega),
        List.getElem?_cons_succ]

variable {pages : List Page}

theorem holdsPages_loadBuffer {s : PageProcess} (tag : List Char)
    (hlinks : s.index.records.map PageAssocRec.link = pages.map Page.link)
    (hvisible : s.index.visible ≤ s.index.records.length + 1) :
    HoldsPages (loadBuffer tag (s.index.visible, s.index.header :: s.index.records))
      (pages.take (s.index.visible - 1)) := by
  intro i
  have hlink : s.index.records[i]?.map PageAssocRec.link = pages[i]?.map Page.link := by
    rw [← List.getElem?_map, ← List.getElem?_map, hlinks]
  have hlength : s.index.records.length = pages.length := by
    simpa using congrArg List.length hlinks
  rw [pageRecord_loadBuffer tag hvisible]
  constructor
  · intro page hpage
    have hi : i < s.index.visible - 1 := by
      by_contra hnot
      rw [List.getElem?_take_eq_none (by omega)] at hpage
      cases hpage
    rw [List.getElem?_take_of_lt hi] at hpage
    rw [hpage] at hlink
    obtain ⟨record, hrecord, hsame⟩ := Option.map_eq_some_iff.mp hlink
    exact ⟨record, by rw [if_pos (by omega), hrecord], hsame⟩
  · intro hnone record hrecord
    have hi : ¬i + 1 < s.index.visible := by
      intro hlt
      rw [List.getElem?_take_of_lt (by omega), List.getElem?_eq_none_iff] at hnone
      omega
    rw [if_neg hi] at hrecord
    split at hrecord
    · cases hrecord
      rfl
    · cases hrecord

/-- The index of a process has what the ledger says. -/
structure RepresentsPages (s : PageProcess) (a : PageLedger) : Prop extends FaithfulPages s a where
  numbered : s.index.Numbered
  live : ∀ page ∈ a.pages, page.live = true → page.doc ∈ a.live
  loaded : (s.buffers.find? fun buffer ↦ buffer.tag = s.tag).isSome = a.seen.isSome
  buffer : ∀ buffer pages, s.buffers.find? (fun buffer ↦ buffer.tag = s.tag) = some buffer →
    a.seen = some pages → HoldsPages buffer pages

theorem representsPages_created (idxType : ℕ) (batchFile : Option (List BatchItem))
    (filename tag : List Char) :
    RepresentsPages (PageProcess.created idxType batchFile filename tag) PageLedger.empty where
  records := rfl
  docs := List.forall_mem_nil _
  numbered := ⟨rfl, Nat.zero_le _, Nat.zero_le _, fun _ _ h ↦ by cases h⟩
  live := List.forall_mem_nil _
  loaded := rfl
  buffer := fun _ _ h ↦ by cases h

variable {s' : PageProcess}

section Steps

variable {s : PageProcess} {a : PageLedger}

variable {index : PagedIndex}

theorem numbered_seek (h : index.Numbered) : index.seek.Numbered :=
  ⟨h.highest, h.small, le_rfl, h.sound⟩

variable {recnum : RecordNumber} {data : PageDirectory}

theorem RepresentsPages.added (h : RepresentsPages s a)
    (hadded : PagesAdded recnum (PageLedger.numbers data) s.index index) :
    RepresentsPages { s with index := index, docs := [] } (a.add recnum data) := by
  obtain ⟨added, hrecords, hlinks⟩ := hadded.records
  refine ⟨⟨?_, List.forall_mem_nil _⟩, hadded.numbered, ?_, h.loaded, h.buffer⟩
  · change index.records.map PageAssocRec.link = (a.add recnum data).pages.map Page.link
    rw [hrecords, List.map_append, h.records, hlinks, PageLedger.add, List.map_append, List.map_map]
    rfl
  · intro page hpage hlive
    rw [PageLedger.add] at hpage ⊢
    rcases List.mem_append.mp hpage with hold | hnew
    · exact List.mem_cons_of_mem _ (h.live page hold hlive)
    · obtain ⟨number, -, rfl⟩ := List.mem_map.mp hnew
      exact List.mem_cons_self

theorem pagesAdded_nil (h : index.Numbered) (recnum : RecordNumber) :
    PagesAdded recnum [] index index := ⟨h, [], (List.append_nil _).symm, rfl⟩

theorem idxpages_files (entries : List DirEntry) (recnum : RecordNumber) (batch : Bool)
    (index : PagedIndex) :
    idxpages (.files entries) recnum (if batch then 1 else 0) index =
      idxpagesLoop recnum batch entries index := by
  cases batch <;> rfl

theorem idxpages_unreadable (recnum : RecordNumber) (batch : Bool) (index : PagedIndex) :
    idxpages .unreadable recnum (if batch then 1 else 0) index = .ok index := by
  cases batch <;> rfl

theorem RepresentsPages.add (h : RepresentsPages s a) {batch : Bool} (hfit : PagesFit s batch data)
    (recnum : RecordNumber) :
    ∃ s', stepPage s (.add recnum batch data) = .ok s' ∧ PageFrame s (.add recnum batch data) s' ∧
      RepresentsPages s' (a.add recnum data) := by
  have hindex : ∃ index, idxpages data recnum (if batch then 1 else 0) s.index = .ok index ∧
      PagesAdded recnum (PageLedger.numbers data) s.index index := by
    cases data with
    | null => exact ⟨s.index, rfl, pagesAdded_nil h.numbered recnum⟩
    | unreadable =>
      exact ⟨s.index, idxpages_unreadable recnum batch s.index, pagesAdded_nil h.numbered recnum⟩
    | files entries =>
      obtain ⟨hnames, hroom, hready⟩ := hfit
      rw [idxpages_files]
      exact exists_idxpagesLoop h.numbered hnames hroom hready
  obtain ⟨index, hrun, hadded⟩ := hindex
  refine ⟨{ s with index := index, docs := [] }, ?_, ?_, h.added hadded⟩
  · rw [stepPage, hrun]
    rfl
  · obtain ⟨added, hrecords, -⟩ := hadded.records
    exact ⟨added, hrecords.symm⟩

theorem RepresentsPages.pagesFit (h : RepresentsPages s a) {batch : Bool}
    (hrun : stepPage s (.add recnum batch data) = .ok s')
    (hgood : FaithfulPages s' (a.add recnum data)) : PagesFit s batch data := by
  cases data with
  | null => trivial
  | unreadable => trivial
  | files entries =>
    obtain ⟨index, hindex, hrun⟩ := bind_eq_ok.mp hrun
    cases hrun
    rw [idxpages_files] at hindex
    apply of_idxpagesLoop h.numbered hindex
    have hold := congrArg List.length h.records
    have hnew := congrArg List.length hgood.records
    simp only [List.length_map, PageLedger.add, List.length_append, PageLedger.numbers] at hold hnew
    rw [hnew, hold]

theorem Page.link_fst_eq_iff (page : Page) (recnum : RecordNumber) :
    page.link.1 = (recnum.1 : ℤ) ↔ page.doc = recnum ∧ page.live = true := by
  have hdoc := page.doc.2.1
  have hrecnum := recnum.2.1
  rw [Page.link, Subtype.ext_iff]
  cases page.live with
  | true => simp
  | false =>
    simp only [Bool.false_eq_true, if_false, and_false, iff_false]
    omega

theorem together_pages_iff (h : RepresentsPages s a) (recnum : RecordNumber) :
    Together (fun record : PageAssocRec ↦ decide (record.parentid = recnum.1)) s.index.records ↔
      Together (fun page : Page ↦ decide (page.doc = recnum) && page.live) a.pages := by
  have hrecords := @together_map _ _ PageAssocRec.link (fun link ↦ decide (link.1 = (recnum.1 : ℤ)))
    s.index.records
  have hpages := @together_map _ _ Page.link (fun link ↦ decide (link.1 = (recnum.1 : ℤ))) a.pages
  have htest : (fun page : Page ↦ decide (page.link.1 = (recnum.1 : ℤ))) =
      fun page : Page ↦ decide (page.doc = recnum) && page.live := by
    funext page
    have hboth : (decide (page.doc = recnum) && page.live) =
        decide (page.doc = recnum ∧ page.live = true) := by simp
    rw [hboth]
    exact decide_eq_decide.mpr (page.link_fst_eq_iff recnum)
  rw [htest] at hpages
  rw [h.records] at hrecords
  exact hrecords.symm.trans hpages

theorem links_markDeleted (h : RepresentsPages s a) (recnum : RecordNumber) :
    (s.index.records.map (markDeleted recnum.1)).map PageAssocRec.link =
      (a.delete recnum).pages.map Page.link := by
  let mark (link : ℤ × ℤ) : ℤ × ℤ := if link.1 = (recnum.1 : ℤ) then (link.1 * -1, link.2) else link
  have hrecord (record : PageAssocRec) : (markDeleted recnum.1 record).link = mark record.link := by
    change _ = if record.parentid = (recnum.1 : ℤ) then _ else _
    rw [markDeleted]
    split <;> rfl
  have hpage (page : Page) :
      mark page.link = (if page.doc = recnum then { page with live := false } else page).link := by
    change (if page.link.1 = (recnum.1 : ℤ) then (page.link.1 * -1, page.link.2) else page.link) = _
    by_cases hof : page.doc = recnum
    · rw [if_pos hof]
      cases hlive : page.live with
      | true =>
        rw [if_pos ((page.link_fst_eq_iff recnum).mpr ⟨hof, hlive⟩), Page.link, hlive]
        simp [Page.link]
      | false =>
        have hmarked : ¬page.link.1 = (recnum.1 : ℤ) := by
          rw [page.link_fst_eq_iff, hlive]
          simp
        rw [if_neg hmarked, Page.link, hlive]
        rfl
    · have hother : ¬page.link.1 = (recnum.1 : ℤ) := by
        rw [page.link_fst_eq_iff]
        exact fun heq ↦ hof heq.1
      rw [if_neg hother, if_neg hof]
  calc (s.index.records.map (markDeleted recnum.1)).map PageAssocRec.link
      = (s.index.records.map PageAssocRec.link).map mark := by
        rw [List.map_map, List.map_map]
        exact List.map_congr_left fun record _ ↦ hrecord record
    _ = (a.pages.map Page.link).map mark := by rw [h.records]
    _ = (a.delete recnum).pages.map Page.link := by
        rw [PageLedger.delete, List.map_map, List.map_map]
        exact List.map_congr_left fun page _ ↦ hpage page

theorem RepresentsPages.delete (h : RepresentsPages s a)
    (htogether : PageCondition s a (.delete recnum)) :
    ∃ s', stepPage s (.delete recnum) = .ok s' ∧ PageFrame s (.delete recnum) s' ∧
      RepresentsPages s' (a.delete recnum) := by
  have hrecords := deleteLoop_eq_map ((together_pages_iff h recnum).mpr htogether)
  have hlinks := links_markDeleted h recnum
  refine ⟨_, rfl, ?_, ⟨?_, List.forall_mem_nil _⟩, ?_, ?_, h.loaded, h.buffer⟩
  · change pageFileDelete recnum s.index = _
    rw [pageFileDelete, hrecords]
    rfl
  · change (deleteLoop recnum.1 false s.index.records).map PageAssocRec.link = _
    rw [hrecords, hlinks]
  · have hlength : (deleteLoop recnum.1 false s.index.records).length = s.index.records.length := by
      rw [hrecords, List.length_map]
    refine ⟨?_, ?_, ?_, h.numbered.sound⟩
    · exact h.numbered.highest.trans hlength.symm
    · exact hlength.trans_le h.numbered.small
    · exact (congrArg (· + 1) hlength).ge
  · intro page hpage hlive
    rw [PageLedger.delete] at hpage ⊢
    obtain ⟨old, hold, rfl⟩ := List.mem_map.mp hpage
    by_cases hof : old.doc = recnum
    · rw [if_pos hof] at hlive
      cases hlive
    · rw [if_neg hof] at hlive ⊢
      exact List.mem_filter.mpr ⟨h.live old hold hlive, by simpa using hof⟩

theorem RepresentsPages.together (h : RepresentsPages s a)
    (hrun : stepPage s (.delete recnum) = .ok s') (hgood : FaithfulPages s' (a.delete recnum)) :
    PageCondition s a (.delete recnum) := by
  cases hrun
  have hrecords := hgood.records
  rw [← links_markDeleted h recnum] at hrecords
  have hpos : (0 : ℤ) < recnum.1 := by exact_mod_cast recnum.2.1
  exact (together_pages_iff h recnum).mp (together_of_deleteLoop hpos hrecords)

theorem indexName_eq {filename tag : List Char} (hcolon : ':' ∉ filename) :
    indexName (filename ++ ':' :: ':' :: tag) =
      if (filename ++ ':' :: ':' :: tag).length < FILENAME_BUFFER then .ok (some (filename, some tag))
      else .error .outOfBounds := by
  have hbefore : ∀ c ∈ filename, decide (c ≠ ':') = true := by
    intro c hc
    exact decide_eq_true fun heq ↦ hcolon (heq ▸ hc)
  have hdrop : (':' :: ':' :: tag).dropWhile (fun c ↦ decide (c ≠ ':')) = ':' :: ':' :: tag := rfl
  have htake : (':' :: ':' :: tag).takeWhile (fun c ↦ decide (c ≠ ':')) = [] := rfl
  rw [indexName, List.dropWhile_append_of_pos hbefore, List.takeWhile_append_of_pos hbefore, hdrop, htake,
    List.append_nil]
  rfl

theorem RepresentsPages.bufferFor (h : RepresentsPages s a) :
    ((Search.bufferFor s.maps s.filename s.tag s.buffers).isSome = true ↔
      a.seen.isSome = true ∨ s.buffers.length < MAXPAGEBUFFS) ∧
    ∀ buffer, Search.bufferFor s.maps s.filename s.tag s.buffers = some buffer →
      HoldsPages buffer (seenPages s a) := by
  have hloaded := h.loaded
  rw [Search.bufferFor]
  cases hfind : s.buffers.find? fun buffer ↦ buffer.tag = s.tag with
  | some buffer =>
    rw [hfind] at hloaded
    obtain ⟨pages, hpages⟩ := Option.isSome_iff_exists.mp hloaded.symm
    constructor
    · simp [hpages]
    · intro other hother
      rw [← Option.some.inj hother, seenPages, hpages]
      exact h.buffer buffer pages hfind hpages
  | none =>
    rw [hfind] at hloaded
    have hseen : a.seen = none := Option.isNone_iff_eq_none.mp (Option.isSome_eq_false_iff.mp hloaded.symm)
    have hmaps : s.maps s.filename s.tag = some (s.index.visible, s.index.header :: s.index.records) :=
      if_pos ⟨rfl, rfl⟩
    simp only [hmaps, hseen]
    by_cases hfull : MAXPAGEBUFFS ≤ s.buffers.length
    · rw [if_pos hfull]
      simp [hfull]
    · rw [if_neg hfull]
      constructor
      · simp [not_le.mp hfull]
      · intro buffer hbuffer
        rw [← Option.some.inj hbuffer, seenPages, hseen]
        exact holdsPages_loadBuffer s.tag h.records h.numbered.visible

variable {buffer : PageInfoBuffer}

theorem HoldsPages.record (h : HoldsPages buffer pages) {pagenum : ℤ} (hpos : 0 < pagenum)
    {page : Page} (hpage : pages[pagenum.toNat - 1]? = some page) :
    ∃ record, pageRecord buffer pagenum = some record ∧ record.link = page.link := by
  obtain ⟨record, hrecord, hlink⟩ := (h (pagenum.toNat - 1)).1 page hpage
  have hnum : ((pagenum.toNat - 1 : ℕ) : ℤ) + 1 = pagenum := by omega
  rw [hnum] at hrecord
  exact ⟨record, hrecord, hlink⟩

theorem HoldsPages.page (h : HoldsPages buffer pages) {pagenum : ℤ} (hpos : 0 < pagenum)
    {record : PageAssocRec} (hrecord : pageRecord buffer pagenum = some record)
    (hdoc : (recnum.1 : ℤ) = record.parentid) :
    ∃ page, pages[pagenum.toNat - 1]? = some page ∧ page.live = true ∧ page.doc = recnum := by
  have hnum : ((pagenum.toNat - 1 : ℕ) : ℤ) + 1 = pagenum := by omega
  cases hpage : pages[pagenum.toNat - 1]? with
  | none =>
    have hzero := (h (pagenum.toNat - 1)).2 hpage record (by rw [hnum, hrecord])
    have hpositive := recnum.2.1
    omega
  | some page =>
    obtain ⟨other, hother, hlink⟩ := (h (pagenum.toNat - 1)).1 page hpage
    rw [hnum, hrecord] at hother
    cases hother
    have hfst : page.link.1 = (recnum.1 : ℤ) := by
      rw [← hlink, hdoc]
      rfl
    obtain ⟨heq, hlive⟩ := (page.link_fst_eq_iff recnum).mp hfst
    exact ⟨page, rfl, hlive, heq⟩

section Search

variable {inset : WeightedResult} {idnumber : ℤ}

theorem seGetPageDocs_eq (hvalid : ValidPage s a (.search inset idnumber))
    (hlength : inset.filename.toList.length < FILENAME_BUFFER) :
    seGetPageDocs s.maps (some inset) idnumber s.buffers =
      pageDocsLoop s.maps s.filename (some s.tag) inset idnumber (List.range inset.numHits.toNat)
        Table.empty s.buffers >>= fun docs ↦
          .ok (some (if inset.resultType &&& PAGE_PROB_FLAGS ≠ 0 then
              seRankDocs (pageDocSet inset docs.1 (inset.resultType &&& PAGE_PROB_FLAGS))
            else pageDocSet inset docs.1 (inset.resultType &&& PAGE_PROB_FLAGS), docs.1), docs.2) := by
  obtain ⟨hpaged, -, hcolon, hname, -⟩ := hvalid
  have hpaged' : ¬inset.has PAGED_RESULT = false := by simp [hpaged]
  rw [hname] at hlength
  rw [seGetPageDocs]
  simp only [if_neg hpaged', hname]
  rw [indexName_eq hcolon, if_pos hlength]
  rfl

/-- The process after a search. -/
def searched (s : PageProcess) (buffers : List PageInfoBuffer) (docs : List ℤ) : PageProcess :=
  { s with
    index := if buffers.length = s.buffers.length then s.index else s.index.seek
    buffers := buffers
    docs := docs }

theorem stepPage_search_eq_ok_iff (hvalid : ValidPage s a (.search inset idnumber)) :
    stepPage s (.search inset idnumber) = .ok s' ↔
      inset.filename.toList.length < FILENAME_BUFFER ∧ ∃ hash buffers,
        pageDocsLoop s.maps s.filename (some s.tag) inset idnumber (List.range inset.numHits.toNat)
          Table.empty s.buffers = .ok (hash, buffers) ∧
        s' = searched s buffers (if inset.resultType &&& PAGE_PROB_FLAGS ≠ 0 then
            seRankDocs (pageDocSet inset hash (inset.resultType &&& PAGE_PROB_FLAGS))
          else pageDocSet inset hash (inset.resultType &&& PAGE_PROB_FLAGS)).recordNums := by
  by_cases hlength : inset.filename.toList.length < FILENAME_BUFFER
  · rw [stepPage, seGetPageDocs_eq hvalid hlength]
    cases pageDocsLoop s.maps s.filename (some s.tag) inset idnumber
        (List.range inset.numHits.toNat) Table.empty s.buffers with
    | error fault => simp [bind, Except.bind]
    | ok result =>
      rcases result with ⟨hash, buffers⟩
      simp only [bind, Except.bind, Except.ok.injEq, Prod.mk.injEq, hlength, true_and]
      constructor
      · rintro rfl
        exact ⟨hash, buffers, ⟨rfl, rfl⟩, rfl⟩
      · rintro ⟨hash', buffers', ⟨rfl, rfl⟩, rfl⟩
        rfl
  · obtain ⟨hpaged, -, hcolon, hname, -⟩ := hvalid
    have hfault : stepPage s (.search inset idnumber) = .error .outOfBounds := by
      have hpaged' : ¬inset.has PAGED_RESULT = false := by simp [hpaged]
      rw [hname] at hlength
      rw [stepPage, seGetPageDocs]
      simp only [if_neg hpaged', hname]
      rw [indexName_eq hcolon, if_neg hlength]
      rfl
    rw [hfault]
    simp [hlength]

theorem hits_of_reads_nil (hallocated : inset.Allocated) (hnil : inset.hits = []) :
    List.range inset.numHits.toNat = [] := by
  rw [← hallocated.length_hits, hnil]
  rfl

theorem RepresentsPages.searched (h : RepresentsPages s a) (hallocated : inset.Allocated)
    {hash : Table ℤ DocSum} {buffers : List PageInfoBuffer}
    (hloop : pageDocsLoop s.maps s.filename (some s.tag) inset idnumber
      (List.range inset.numHits.toNat) Table.empty s.buffers = .ok (hash, buffers)) {docs : List ℤ}
    (hdocs : ∀ doc ∈ docs, ∃ recnum ∈ a.live, (recnum.1 : ℤ) = doc) :
    RepresentsPages (searched s buffers docs) (specPage s a (.search inset idnumber)) := by
  have hindex : (Search.searched s buffers docs).index.records = s.index.records ∧
      (Search.searched s buffers docs).index.Numbered := by
    rw [Search.searched]
    simp only
    split
    · exact ⟨rfl, h.numbered⟩
    · exact ⟨rfl, numbered_seek h.numbered⟩
  obtain ⟨hrecords, hnumbered⟩ := hindex
  have hfaithful : FaithfulPages (Search.searched s buffers docs)
      (specPage s a (.search inset idnumber)) := by
    rw [specPage]
    split <;> exact ⟨hrecords ▸ h.records, hdocs⟩
  by_cases hnil : inset.hits = []
  · rw [hits_of_reads_nil hallocated hnil] at hloop
    cases hloop
    rw [specPage, if_pos hnil] at hfaithful ⊢
    exact ⟨hfaithful, hnumbered, h.live, h.loaded, h.buffer⟩
  · have hreads := reads_hits hallocated
    obtain ⟨buffer, hbuffer⟩ := exists_bufferFor hreads hnil hloop
    obtain ⟨-, hbuffers⟩ := found_of_pageDocsLoop hreads hbuffer hloop
    rw [if_neg hnil] at hbuffers
    have hfind := find?_withBuffer hbuffer
    rw [← hbuffers] at hfind
    rw [specPage, if_neg hnil] at hfaithful ⊢
    refine ⟨hfaithful, hnumbered, h.live, ?_, ?_⟩
    · change (buffers.find? fun buffer ↦ buffer.tag = s.tag).isSome = _
      rw [hfind]
      rfl
    · intro found pages hfound hpages
      change buffers.find? (fun buffer ↦ buffer.tag = s.tag) = some found at hfound
      rw [hfind] at hfound
      rw [← Option.some.inj hfound, ← Option.some.inj hpages]
      exact h.bufferFor.2 buffer hbuffer

theorem mem_recordNums_of_hit {entry : WeightedEntry} (hentry : entry ∈ inset.hits) :
    entry.recordNum ∈ inset.recordNums := List.mem_map_of_mem hentry

theorem records_searched (buffers : List PageInfoBuffer) (docs : List ℤ) :
    (searched s buffers docs).index.records = s.index.records := by
  rw [searched]
  simp only
  split <;> rfl

theorem RepresentsPages.exists_loop (h : RepresentsPages s a)
    (hvalid : ValidPage s a (.search inset idnumber))
    (hcondition : PageCondition s a (.search inset idnumber)) :
    ∃ hash buffers, pageDocsLoop s.maps s.filename (some s.tag) inset idnumber
        (List.range inset.numHits.toNat) Table.empty s.buffers = .ok (hash, buffers) ∧
      ∀ doc ∈ hash.keys, ∃ recnum ∈ a.live, (recnum.1 : ℤ) = doc := by
  obtain ⟨-, hallocated, -, -, hpos⟩ := hvalid
  obtain ⟨-, hroom, hpages⟩ := hcondition
  by_cases hnil : inset.hits = []
  · rw [hits_of_reads_nil hallocated hnil]
    exact ⟨Table.empty, s.buffers, rfl, List.forall_mem_nil _⟩
  · obtain ⟨buffer, hbuffer⟩ := Option.isSome_iff_exists.mp
      (h.bufferFor.1.mpr (hroom.resolve_left hnil))
    have hholds := h.bufferFor.2 buffer hbuffer
    have hreads := reads_hits hallocated
    have hrecord (entry : WeightedEntry) (hentry : entry ∈ inset.hits) :
        ∃ record, pageRecord buffer entry.recordNum = some record ∧
          ∃ recnum ∈ a.live, (recnum.1 : ℤ) = record.parentid := by
      have hmem := mem_recordNums_of_hit hentry
      obtain ⟨page, hpage, hlive, hdoc⟩ := hpages _ hmem
      obtain ⟨record, hfound, hlink⟩ := hholds.record (hpos _ hmem) hpage
      have hfst := (page.link_fst_eq_iff page.doc).mpr ⟨rfl, hlive⟩
      rw [← hlink] at hfst
      exact ⟨record, hfound, page.doc, hdoc, hfst.symm⟩
    have hall (entry : WeightedEntry) (hentry : entry ∈ inset.hits) :
        ∃ record, pageRecord buffer entry.recordNum = some record := by
      obtain ⟨record, hfound, -⟩ := hrecord entry hentry
      exact ⟨record, hfound⟩
    obtain ⟨result, hloop⟩ := exists_pageDocsLoop hreads hbuffer hall idnumber Table.empty
    rcases result with ⟨hash, buffers⟩
    refine ⟨hash, buffers, hloop, ?_⟩
    intro doc hdoc
    obtain ⟨hfound, -⟩ := found_of_pageDocsLoop hreads hbuffer hloop
    rcases (hfound.keys doc).mp hdoc with hold | ⟨entry, hentry, record, hread, rfl⟩
    · cases hold
    · obtain ⟨other, hother, hlive⟩ := hrecord entry hentry
      rw [hread] at hother
      cases hother
      exact hlive

theorem RepresentsPages.search (h : RepresentsPages s a)
    (hvalid : ValidPage s a (.search inset idnumber))
    (hcondition : PageCondition s a (.search inset idnumber)) :
    ∃ s', stepPage s (.search inset idnumber) = .ok s' ∧ PageFrame s (.search inset idnumber) s' ∧
      RepresentsPages s' (specPage s a (.search inset idnumber)) := by
  obtain ⟨hash, buffers, hloop, hdocs⟩ := h.exists_loop hvalid hcondition
  have hrun := (stepPage_search_eq_ok_iff hvalid).mpr ⟨hcondition.1, hash, buffers, hloop, rfl⟩
  refine ⟨_, hrun, records_searched _ _, h.searched hvalid.2.1 hloop ?_⟩
  intro doc hdoc
  exact hdocs doc ((mem_recordNums_docs inset hash _ doc).mp hdoc)

theorem live_specPage_search : (specPage s a (.search inset idnumber)).live = a.live := by
  rw [specPage]
  split <;> rfl

theorem RepresentsPages.searchCondition (h : RepresentsPages s a)
    (hvalid : ValidPage s a (.search inset idnumber))
    (hrun : stepPage s (.search inset idnumber) = .ok s')
    (hgood : FaithfulPages s' (specPage s a (.search inset idnumber))) :
    PageCondition s a (.search inset idnumber) := by
  obtain ⟨hlength, hash, buffers, hloop, rfl⟩ := (stepPage_search_eq_ok_iff hvalid).mp hrun
  obtain ⟨-, hallocated, -, -, hpos⟩ := hvalid
  have hdocs : ∀ doc ∈ hash.keys, ∃ recnum ∈ a.live, (recnum.1 : ℤ) = doc := by
    intro doc hdoc
    rw [← live_specPage_search]
    exact hgood.docs doc ((mem_recordNums_docs inset hash _ doc).mpr hdoc)
  by_cases hnil : inset.hits = []
  · refine ⟨hlength, Or.inl hnil, ?_⟩
    rw [WeightedResult.recordNums, hnil]
    exact List.forall_mem_nil _
  · have hreads := reads_hits hallocated
    obtain ⟨buffer, hbuffer⟩ := exists_bufferFor hreads hnil hloop
    have hroom := h.bufferFor.1.mp (Option.isSome_iff_exists.mpr ⟨buffer, hbuffer⟩)
    have hholds := h.bufferFor.2 buffer hbuffer
    obtain ⟨hfound, -⟩ := found_of_pageDocsLoop hreads hbuffer hloop
    refine ⟨hlength, Or.inr hroom, ?_⟩
    intro pagenum hpagenum
    obtain ⟨entry, hentry, rfl⟩ := List.mem_map.mp hpagenum
    obtain ⟨record, hrecord⟩ := hfound.records entry hentry
    have hkey := (hfound.keys record.parentid).mpr (Or.inr ⟨entry, hentry, record, hrecord, rfl⟩)
    obtain ⟨recnum, hlive, hdoc⟩ := hdocs _ hkey
    obtain ⟨page, hpage, hpageLive, rfl⟩ := hholds.page (hpos _ hpagenum) hrecord hdoc
    exact ⟨page, hpage, hpageLive, hlive⟩

end Search

theorem RepresentsPages.other (h : RepresentsPages s a) (hvalid : ValidPage s a (.other buffer)) :
    ∃ s', stepPage s (.other buffer) = .ok s' ∧ PageFrame s (.other buffer) s' ∧
      RepresentsPages s' a := by
  rw [stepPage]
  split
  · exact ⟨s, rfl, rfl, h⟩
  · have htag : buffer.tag ≠ s.tag := hvalid
    have hfind : (s.buffers ++ [buffer]).find? (fun buffer ↦ buffer.tag = s.tag) =
        s.buffers.find? fun buffer ↦ buffer.tag = s.tag := by
      rw [List.find?_append, List.find?_singleton, if_neg (by simpa using htag), Option.or_none]
    refine ⟨_, rfl, rfl, ⟨h.records, h.docs⟩, h.numbered, h.live, ?_, ?_⟩
    · rw [← h.loaded, ← hfind]
    · intro found pages hfound hpages
      rw [hfind] at hfound
      exact h.buffer found pages hfound hpages

theorem RepresentsPages.reopen (h : RepresentsPages s a) (unset : ℤ) :
    ∃ s', stepPage s (.reopen unset) = .ok s' ∧ PageFrame s (.reopen unset) s' ∧
      RepresentsPages s' (specPage s a (.reopen unset)) := by
  refine ⟨_, rfl, rfl, ⟨h.records, List.forall_mem_nil _⟩, ?_, h.live, rfl, ?_⟩
  · have hhighest : ((s.index.highestPageNumber : ℤ)).toNat = s.index.records.length := by
      rw [Int.toNat_natCast, h.numbered.highest]
    exact ⟨hhighest, h.numbered.small, le_rfl, h.numbered.sound⟩
  · intro found pages hfound
    cases hfound

end Steps

theorem RepresentsPages.step {s : PageProcess} {a : PageLedger} (h : RepresentsPages s a) {op : PageOp}
    (hvalid : ValidPage s a op) (hcondition : PageCondition s a op) :
    ∃ s', stepPage s op = .ok s' ∧ PageFrame s op s' ∧ RepresentsPages s' (specPage s a op) := by
  cases op with
  | add recnum batch data => exact h.add hcondition recnum
  | delete recnum => exact h.delete hcondition
  | search inset idnumber => exact h.search hvalid hcondition
  | other buffer => exact h.other hvalid
  | reopen unset => exact h.reopen unset

theorem RepresentsPages.condition {s : PageProcess} {a : PageLedger} (h : RepresentsPages s a)
    {op : PageOp} (hvalid : ValidPage s a op) (hrun : stepPage s op = .ok s')
    (hgood : FaithfulPages s' (specPage s a op)) : PageCondition s a op := by
  cases op with
  | add recnum batch data => exact h.pagesFit hrun hgood
  | delete recnum => exact h.together hrun hgood
  | search inset idnumber => exact h.searchCondition hvalid hrun hgood
  | other buffer => trivial
  | reopen unset => trivial

/-- In every run the records name their documents until these are deleted, a deletion marks exactly the
records of its document, and the document sets have live documents only, exactly as long as the
operations meet their conditions. -/
theorem faithfulPages_iff (idxType : ℕ) (batchFile : Option (List BatchItem)) (filename tag : List Char)
    (ops : List PageOp)
    (hvalid : Along stepPage specPage ValidPage (PageProcess.created idxType batchFile filename tag)
      PageLedger.empty ops) :
    Throughout stepPage specPage FaithfulPages PageFrame
        (PageProcess.created idxType batchFile filename tag) PageLedger.empty ops ↔
      Along stepPage specPage PageCondition (PageProcess.created idxType batchFile filename tag)
        PageLedger.empty ops := by
  refine throughout_iff_along_of_inv RepresentsPages ?_ ?_ ?_
    (representsPages_created idxType batchFile filename tag) hvalid
  · intro s a h
    exact h.toFaithfulPages
  · intro s a op h hvalid hcondition
    exact h.step hvalid hcondition
  · intro s a op s' h hvalid hrun hgood
    exact h.condition hvalid hrun hgood

def books : List Char := ['b', 'o', 'o', 'k', 's']
def textTag : List Char := ['t', 'e', 'x', 't']
theorem inRange_document : 0 < 1 ∧ 1 ≤ INT_MAX := by decide

def firstDocument : RecordNumber := ⟨1, inRange_document⟩

theorem nodup_word : (([([97], ⟨1, []⟩)] : List (Term × HtData)).map Prod.fst).Nodup :=
  List.nodup_singleton _

/-- A directory with one page, and one word in it. -/
def onePage : PageDirectory := .files [⟨[49], true, ⟨[([97], ⟨1, []⟩)], nodup_word⟩⟩]

/-- What a search for the word returns. -/
def pageResult : WeightedResult where
  setid := ""
  filename := "books::text"
  resultType := PAGED_RESULT
  component := none
  termid := [1]
  numHits := 1
  resultWeight := 0
  maxWeight := 1
  minWeight := 1
  entries := [⟨1, 0, 1⟩]

theorem validPage_pageResult {s : PageProcess} (hfile : s.filename = books) (htag : s.tag = textTag)
    (a : PageLedger) : ValidPage s a (.search pageResult 0) := by
  refine ⟨by decide, ⟨by decide, by decide⟩, ?_, ?_, by decide⟩
  · rw [hfile]
    decide
  · rw [hfile, htag]
    decide

/-- A page that is found, whose document is deleted afterwards. -/
theorem faithfulPages_found : Throughout stepPage specPage FaithfulPages PageFrame
    (PageProcess.created PAGEDINDEX none books textTag) PageLedger.empty
    [.add firstDocument false onePage, .reopen 0, .search pageResult 0, .delete firstDocument] := by
  refine (faithfulPages_iff _ _ _ _ _ ?_).mpr ?_
  · refine ⟨trivial, ?_⟩
    intro s₁ h₁
    cases h₁
    refine ⟨trivial, ?_⟩
    intro s₂ h₂
    cases h₂
    refine ⟨validPage_pageResult rfl rfl _, fun _ _ ↦ ⟨trivial, fun _ _ ↦ trivial⟩⟩
  · refine ⟨⟨⟨by decide, by decide, fun _ ↦ trivial⟩, by decide, Or.inr fun h ↦ by cases h⟩, ?_⟩
    intro s₁ h₁
    cases h₁
    refine ⟨trivial, ?_⟩
    intro s₂ h₂
    cases h₂
    refine ⟨⟨by decide, Or.inr (Or.inr (by decide)), ?_⟩, ?_⟩
    · intro pagenum hpagenum
      obtain rfl : pagenum = 1 := List.mem_singleton.mp hpagenum
      exact ⟨⟨firstDocument, 1, true⟩, rfl, rfl, List.mem_cons_self⟩
    · intro s₃ h₃
      cases h₃
      exact ⟨List.forall_mem_nil _, fun _ _ ↦ trivial⟩

/-- The page of a document that was deleted is still found, and the document set has the negative number
of the document. -/
theorem not_faithfulPages_deleted : ¬∀ ops : List PageOp,
    Along stepPage specPage ValidPage (PageProcess.created PAGEDINDEX none books textTag)
      PageLedger.empty ops →
    Throughout stepPage specPage FaithfulPages PageFrame
      (PageProcess.created PAGEDINDEX none books textTag) PageLedger.empty ops := by
  intro hall
  have hvalid : Along stepPage specPage ValidPage (PageProcess.created PAGEDINDEX none books textTag)
      PageLedger.empty
      [.add firstDocument false onePage, .delete firstDocument, .search pageResult 0] := by
    refine ⟨trivial, ?_⟩
    intro s₁ h₁
    cases h₁
    refine ⟨trivial, ?_⟩
    intro s₂ h₂
    cases h₂
    exact ⟨validPage_pageResult rfl rfl _, fun _ _ ↦ trivial⟩
  obtain ⟨-, s₁, ⟨⟩, -, -, s₂, ⟨⟩, -, -, s₃, ⟨⟩, -, hgood⟩ := hall _ hvalid
  obtain ⟨recnum, hlive, -⟩ := hgood.docs (-1) (by decide +kernel)
  cases hlive

end Cheshire.Search
