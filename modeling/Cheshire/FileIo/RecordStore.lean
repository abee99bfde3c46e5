import Cheshire.Fault

/-!
# The main file and its associator

The records of a database stand one after another in the main file.  The associator file gives, for
each record number, where the record begins and how long it is; the place of record number 0 holds
the highest record number in use.  A deleted record is meant to be marked by a negative offset.
-/

namespace Cheshire.FileIo

abbrev Bytes := List UInt8

/-- The bytes of a C string, without the terminating zero. -/
structure CString where
  bytes : Bytes
  nonzero : ∀ byte ∈ bytes, byte ≠ 0
deriving DecidableEq, Repr

/-- What a buffer holds as a C string. -/
def asString (buffer : Bytes) : Bytes := buffer.takeWhile (· ≠ 0)

def newline : UInt8 := 10

/-- `assoc_rec`; both fields are `unsigned int`. -/
structure AssocRec where
  offset : BitVec 32
  recsize : BitVec 32
deriving DecidableEq, Repr

inductive Transaction where
  | add
  | delete
  | replace
deriving DecidableEq, Repr

/-- `history_file_info` without the time. -/
structure HistoryFileInfo where
  transaction : Transaction
  offset : ℤ
  recno : ℤ
  reclen : ℤ
deriving DecidableEq, Repr

/-- A main file with its associator and history files. -/
structure DataFile where
  main : Bytes
  highRecno : ℤ
  assoc : ℤ → Option AssocRec
  history : List HistoryFileInfo

namespace DataFile

def created : DataFile := ⟨[], 0, fun _ ↦ none, []⟩

/-- `fread` of an associator record; past the end of the file the record stays unset. -/
def readAssoc (s : DataFile) (recno : ℤ) : Exec AssocRec :=
  match s.assoc recno with
  | some assocrec => .ok assocrec
  | none => .error .uninitialized

theorem readAssoc_of_some {s : DataFile} {recno : ℤ} {assocrec : AssocRec}
    (hassoc : s.assoc recno = some assocrec) : s.readAssoc recno = .ok assocrec := by
  rw [readAssoc, hassoc]

def writeAssoc (s : DataFile) (recno : ℤ) (assocrec : AssocRec) : DataFile :=
  { s with assoc := Function.update s.assoc recno (some assocrec) }

/-- `fprintf(file, "%s\n", indata)` at the end of the main file. -/
def appendMain (s : DataFile) (indata : CString) : DataFile :=
  { s with main := s.main ++ indata.bytes ++ [newline] }

def filHist (s : DataFile) (transaction : Transaction) (offset : BitVec 32) (recno : ℤ)
    (reclen : BitVec 32) : DataFile :=
  { s with history := s.history ++ [⟨transaction, offset.toInt, recno, reclen.toInt⟩] }

/-- The associator record of a string that is written at the end of the main file. -/
def assocAtEnd (s : DataFile) (indata : CString) : AssocRec :=
  ⟨BitVec.ofNat 32 s.main.length, BitVec.ofNat 32 indata.bytes.length⟩

/-- `fil_add`, with the record number it returns. -/
def filAdd (s : DataFile) (indata : CString) : Exec (ℤ × DataFile) := do
  let recno ← checkInt (s.highRecno + 1)
  let assocrec := s.assocAtEnd indata
  .ok (recno, { ((s.appendMain indata).writeAssoc recno assocrec).filHist .add assocrec.offset recno
    assocrec.recsize with highRecno := recno })

/-- The offset that marks a deleted record.  The comparisons and the negation are those of
`unsigned int`, so that the mark is a positive number itself. -/
def deletedOffset (offset : BitVec 32) : BitVec 32 :=
  if 0#32 < offset then offset * -1#32
  else if offset = 0#32 then -1#32
  else offset

def filDel (s : DataFile) (recno : ℤ) : Exec DataFile := do
  let assocrec ← s.readAssoc recno
  .ok ((s.filHist .delete assocrec.offset recno assocrec.recsize).writeAssoc recno
    ⟨deletedOffset assocrec.offset, assocrec.recsize⟩)

def filReplace (s : DataFile) (input : CString) (recno : ℤ) : Exec DataFile := do
  let assocrec ← s.readAssoc recno
  .ok (((s.filHist .replace assocrec.offset recno assocrec.recsize).writeAssoc recno
    (s.assocAtEnd input)).appendMain input)

/-- `fil_seek`: the position as an `int`, and the associator record if one was read. -/
def filSeek (s : DataFile) (recnumber : ℤ) : Exec (ℤ × Option AssocRec) :=
  if recnumber > s.highRecno then .ok (-1, none)
  else if recnumber > 0 then do
    let assocrec ← s.readAssoc recnumber
    .ok (assocrec.offset.toInt, some assocrec)
  else .ok (-1, none)

/-- `fil_read` into a buffer of the given size that `CALLOC` has cleared. -/
def filRead (s : DataFile) (size : ℕ) (assocrec : AssocRec) : Exec Bytes :=
  let chunk := (s.main.drop assocrec.offset.toNat).take assocrec.recsize.toNat
  if chunk.length ≤ size then .ok (chunk ++ List.replicate (size - chunk.length) 0)
  else .error .outOfBounds

/-- `GetRawSGML`: the record if there is one, and `errno`.  The test `assocrec.offset < 0` for a
deleted record compares an `unsigned int`. -/
def getRawSgml (s : DataFile) (errno : ℤ) (recordnum : ℤ) : Exec (Option Bytes × ℤ) := do
  let (filePosition, assocrec) ← s.filSeek recordnum
  if assocrec.any fun assocrec ↦ assocrec.offset.toNat < 0 then .ok (none, 1000)
  else if filePosition ≥ 0 then
    match assocrec with
    | none => .error .uninitialized
    | some assocrec => do
      let recBuffer ← s.filRead (assocrec.recsize + 10#32).toNat assocrec
      .ok (some (asString recBuffer), errno)
  else .ok (none, errno)

/-- Fetching a record, with `errno` cleared before. -/
def fetch (s : DataFile) (recordnum : ℤ) : Exec (Option Bytes × ℤ) := s.getRawSgml 0 recordnum

end DataFile

theorem CString.asString_buffer (data : CString) (zeros : ℕ) :
    asString (data.bytes ++ List.replicate zeros 0) = data.bytes := by
  rw [asString, List.takeWhile_append_of_pos (by simpa using data.nonzero)]
  cases zeros <;> simp [List.replicate_succ]

end Cheshire.FileIo
