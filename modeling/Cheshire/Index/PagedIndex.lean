import Cheshire.Index.BatchLoad

/-!
# Page-level indexes

The pages of a document are files of a directory.  `idxpages` gives each of them the next page number of
the index, under which its words are indexed, and writes a record of its document and of the number in its
name at the place of the page number.  `page_file_delete` marks the records of a document, and leaves its
words where they are.
-/

namespace Cheshire.Index

structure PageAssocRec where
  parentid : ℤ
  pagenum : ℤ
  recsize : ℤ
  nameoffset : ℤ
deriving DecidableEq, Repr

def PageAssocRec.zero : PageAssocRec := ⟨0, 0, 0, 0⟩

/-- An index with its two page files.  The first record of the page map has the highest page number;
`visible` of its records, the first one included, are in the file and not only in the buffer of the
stream. -/
structure PagedIndex where
  idx : IdxListEntry
  header : PageAssocRec
  records : List PageAssocRec
  visible : ℕ
  pageFileNames : Term
  highestPageNumber : ℕ
  batchFile : Option (List BatchItem)

def PagedIndex.created (idxType : ℕ) (batchFile : Option (List BatchItem)) : PagedIndex where
  idx := IdxListEntry.created idxType
  header := PageAssocRec.zero
  records := []
  visible := 0
  pageFileNames := []
  highestPageNumber := 0
  batchFile := batchFile

namespace PagedIndex

/-- `fseek` in the page map writes what is in its buffer. -/
def seek (s : PagedIndex) : PagedIndex := { s with visible := s.records.length + 1 }

/-- A record at a place of the page map, with zeros before it if the file ends there. -/
def writeRecord (s : PagedIndex) (page : ℕ) (record : PageAssocRec) : PagedIndex :=
  let place := page - 1
  { s with
    records :=
      if place < s.records.length then s.records.set place record
      else s.records ++ List.replicate (place - s.records.length) PageAssocRec.zero ++ [record] }

/-- `cf_sync_global_data` for a page index; the page number of the record is not set. -/
def sync (s : PagedIndex) (unset : ℤ) : PagedIndex :=
  { s.seek with header := ⟨s.highestPageNumber, unset, 0, 0⟩ }

def reopen (s : PagedIndex) (unset : ℤ) : PagedIndex :=
  { (s.sync unset).seek with highestPageNumber := (s.sync unset).header.parentid.toNat }

end PagedIndex

/-- A file of a directory, and the words that are found in it. -/
structure DirEntry where
  name : Term
  opened : Bool
  hash : TermHash

/-- What the data are: NULL, no directory that can be read, or a directory. -/
inductive PageDirectory where
  | null
  | unreadable
  | files (entries : List DirEntry)

def isDigitByte (c : UInt8) : Bool := 48 ≤ c && c ≤ 57

def digitsValue (digits : Term) : ℕ := digits.foldl (fun value c ↦ 10 * value + (c.toNat - 48)) 0

/-- The first digits of a name. -/
def pageDigits (name : Term) : Term :=
  (name.dropWhile fun c ↦ ! isDigitByte c).takeWhile isDigitByte

def PAGENUM_BUFFER : ℕ := 20

/-- The page number of a name; there is none for a file that is skipped. -/
def pageNumber (name : Term) : Exec (Option ℤ) :=
  if name = [46] ∨ name = [46, 46] then .ok none
  else if pageDigits name = [] then .ok none
  else if (pageDigits name).length < PAGENUM_BUFFER then
    (checkInt (digitsValue (pageDigits name))).map some
  else .error .outOfBounds

/-- `++idx->highest_page_number` -/
def nextPage (s : PagedIndex) : Exec RecordNumber :=
  if h : s.highestPageNumber + 1 ≤ INT_MAX then .ok ⟨s.highestPageNumber + 1, Nat.succ_pos _, h⟩
  else .error .signedOverflow

/-- One word of a page, added directly to the index. -/
def idxpagesTerm (internPagenum : RecordNumber) (idx : IdxListEntry) (item : Term × HtData) :
    Exec IdxListEntry :=
  match idx.terms item.1 with
  | some info => do
    let newinfo ← addPosting info internPagenum item.2.termfreq
    .ok (putProximity ((idx.addOccur item.2.termfreq).putTerm item.1 newinfo) internPagenum
      newinfo.termid item.2)
  | none =>
    let termid := idx.globalData.recptr
    .ok (putProximity ((idx.takeTermid.addOccur item.2.termfreq).putTerm item.1
      (newBlock termid internPagenum item.2.termfreq)) internPagenum termid item.2)

def idxpagesTerms (internPagenum : RecordNumber) :
    List (Term × HtData) → IdxListEntry → Exec IdxListEntry
  | [], idx => .ok idx
  | item :: items, idx => do
    let idx ← idxpagesTerm internPagenum idx item
    idxpagesTerms internPagenum items idx

/-- The line for a word of a page; there are no positions in it. -/
def pageLine (internPagenum : RecordNumber) (item : Term × HtData) : BatchItem :=
  ⟨item.1, internPagenum, item.2.termfreq, []⟩

/-- The words of a page go into the batch file or into the index. -/
def outputTerms (internPagenum : RecordNumber) (batch : Bool) (hash : TermHash) (s : PagedIndex) :
    Exec PagedIndex :=
  if batch then
    .ok { s with batchFile := s.batchFile.map (· ++ hash.entries.map (pageLine internPagenum)) }
  else do
    let idx ← idxpagesTerms internPagenum hash.entries s.idx
    .ok { s with
      idx := if hash.entries ≠ [] then
          { idx with globalData :=
            { idx.globalData with totNumrecs := idx.globalData.totNumrecs + 1 } }
        else idx }

/-- The words of a page, every occurrence counted. -/
def totalWords (hash : TermHash) : ℕ := (hash.entries.map fun item ↦ item.2.termfreq).sum

/-- The conversion of a `long` to an `int`. -/
def toInt (value : ℤ) : ℤ := value.bmod (2 ^ 32)

def linkPage (recnum internPagenum : RecordNumber) (pagenum : ℤ) (entry : DirEntry) (s : PagedIndex) :
    PagedIndex :=
  let record : PageAssocRec :=
    ⟨recnum.1, pagenum, totalWords entry.hash, toInt s.pageFileNames.length⟩
  { s.seek.writeRecord internPagenum.1 record with
    pageFileNames := s.pageFileNames ++ entry.name ++ [0] }

/-- The loop over the files of a directory.  A file that cannot be opened ends it, and so does a batch run
without a batch file, when the page number is already taken. -/
def idxpagesLoop (recnum : RecordNumber) (batch : Bool) :
    List DirEntry → PagedIndex → Exec PagedIndex
  | [], s => .ok s
  | entry :: entries, s => do
    match ← pageNumber entry.name with
    | none => idxpagesLoop recnum batch entries s
    | some pagenum =>
      if entry.opened then do
        let internPagenum ← nextPage s
        let s := { s with highestPageNumber := internPagenum.1 }
        if batch = true ∧ s.batchFile = none then .ok s
        else do
          let s ← outputTerms internPagenum batch entry.hash s
          idxpagesLoop recnum batch entries (linkPage recnum internPagenum pagenum entry s)
      else .ok s

/-- The records behind the one that was read last; `foundFlag` is set by the first record that is
marked. -/
def deleteLoop (recnum : ℤ) (foundFlag : Bool) : List PageAssocRec → List PageAssocRec
  | [] => []
  | record :: records =>
    if record.parentid = recnum then
      { record with parentid := record.parentid * -1 } :: deleteLoop recnum true records
    else if foundFlag then record :: records
    else record :: deleteLoop recnum false records

/-- `page_file_delete`; reading goes on behind a record that was written. -/
def pageFileDelete (recnum : RecordNumber) (s : PagedIndex) : PagedIndex :=
  { s.seek with records := deleteLoop recnum.1 false s.records }

def idxpages (data : PageDirectory) (recnum : RecordNumber) (batchFlag : ℤ) (s : PagedIndex) :
    Exec PagedIndex :=
  match data with
  | .null => .ok s
  | .unreadable => .ok (if batchFlag = -1 then pageFileDelete recnum s else s)
  | .files entries =>
    if batchFlag = -1 then .ok (pageFileDelete recnum s)
    else idxpagesLoop recnum (batchFlag ≠ 0) entries s

end Cheshire.Index
