import Cheshire.Index.KwDel
import Cheshire.Index.BatchLoad

/-!
# The primary key of a file

A file may have a primary key index.  `in_kwadd` looks the key of a new record up first: the record
is dropped, or under `PRIMARYREPLACE` the older record is taken out of every index and deleted.  A
batch run indexes all the records and leaves the choice to `in_batch_load`, which loads the primary
key first and keeps the records to be passed over in a hash table for the other indexes.  A record
carries one key here.  Of the other indexes only this matters: whether they hold the record.
-/

namespace Cheshire.Index

def PRIMARYIGNORE : ℕ := 1 <<< 12
def PRIMARYREPLACE : ℕ := 1 <<< 13

/-- A data file: every record has a key, which is extracted from it as the only term of the primary
key index.  `bitmapped` is the kind of the other indexes. -/
structure KeyedFile where
  key : RecordNumber → Term
  htData : RecordNumber → HtData
  bitmapped : Bool

/-- The hash table that `in_extract` fills for the primary key index. -/
def KeyedFile.hash (file : KeyedFile) (recnum : RecordNumber) : TermHash :=
  ⟨[(file.key recnum, file.htData recnum)], by simp⟩

/-- The primary key index, the records that `fil_del` has deleted, and those that the other indexes
hold. -/
structure PrimaryState where
  idx : IdxListEntry
  deleted : RecordNumber → Bool
  indexed : RecordNumber → Bool

/-- `GetSGML`: a deleted record is not read. -/
def getSgml (file : KeyedFile) (s : PrimaryState) (recnum : RecordNumber) : Option TermHash :=
  if s.deleted recnum then none else some (file.hash recnum)

/-- A `record_no` as the number of a record. -/
def recordOf (recordNo : ℤ) : Option RecordNumber :=
  if h : 0 < recordNo.toNat ∧ recordNo.toNat ≤ INT_MAX then some ⟨recordNo.toNat, h⟩ else none

/-- `in_kwdel` and `fil_del` of an old record. -/
def deleteOld (file : KeyedFile) (s : PrimaryState) (oldRecord : ℤ) : Exec PrimaryState :=
  match recordOf oldRecord with
  | none => .ok s
  | some old =>
    match getSgml file s old with
    | none => .ok s
    | some hash => do
      let idx ← inKwdel s.idx old hash
      .ok ⟨idx, Function.update s.deleted old true, Function.update s.indexed old false⟩

/-- The look-up of the keys before a record is indexed; the flag says whether to go on. -/
def checkPrimary (file : KeyedFile) (recnum : RecordNumber) :
    List (Term × HtData) → PrimaryState → Exec (PrimaryState × Bool)
  | [], s => .ok (s, true)
  | item :: items, s =>
    match s.idx.terms item.1 with
    | none => checkPrimary file recnum items s
    | some newinfo =>
      if s.idx.has PRIMARYREPLACE then
        if newinfo.numEntries = 1 then do
          let first ← postingAt newinfo.entries 0
          -- newer records are not replaced with old ones
          if first.recordNo > recnum.1 then .ok (s, false)
          else do
            let s ← deleteOld file s first.recordNo
            checkPrimary file recnum items s
        else checkPrimary file recnum items s
      else .ok (s, false)

/-- `in_kwadd` with `batch_flag == 0` -/
def inKwaddRecord (file : KeyedFile) (s : PrimaryState) (recnum : RecordNumber) :
    Exec PrimaryState :=
  match getSgml file s recnum with
  | none => .ok s
  | some hash => do
    let (s, continues) ← checkPrimary file recnum hash.entries s
    if continues then do
      let idx ← inKwadd s.idx recnum hash
      .ok { s with idx := idx, indexed := Function.update s.indexed recnum true }
    else .ok s

/-- What the loop over the lines of the primary key keeps: `last_key` with `newinfo`, and
`hash_tab`. -/
structure PrimaryBatch where
  s : PrimaryState
  pending : Option (Term × IdxResult)
  dups : List ℤ

/-- The index with the accumulated block put. -/
def PrimaryBatch.flush (b : PrimaryBatch) : IdxListEntry :=
  match b.pending with
  | none => b.s.idx
  | some (lastKey, newinfo) => b.s.idx.putTerm lastKey newinfo

/-- A line with the key of the line before. -/
def samePrimary (file : KeyedFile) (b : PrimaryBatch) (newinfo : IdxResult) (item : BatchItem) :
    Exec PrimaryBatch :=
  if b.s.idx.has PRIMARYREPLACE then do
    let first ← postingAt newinfo.entries 0
    let s ← deleteOld file b.s first.recordNo
    .ok ⟨s, some (item.key, { newinfo with
      entries := newinfo.entries.set 0 ⟨item.recnum.1, item.termfreq⟩ }), first.recordNo :: b.dups⟩
  else .ok { b with dups := item.recnum.1 :: b.dups }

/-- A line with a key that the index has already. -/
def foundPrimary (file : KeyedFile) (s : PrimaryState) (newinfo : IdxResult) :
    Exec PrimaryState :=
  if s.idx.has PRIMARYREPLACE then
    if newinfo.numEntries = 1 then do
      let first ← postingAt newinfo.entries 0
      deleteOld file s first.recordNo
    else .ok s
  else .ok s

/-- A line with another key: whether the key was found or not, a new block is started for it. -/
def newPrimary (file : KeyedFile) (b : PrimaryBatch) (item : BatchItem) : Exec PrimaryBatch := do
  let s := { b.s with idx := b.flush }
  let s ← match s.idx.terms item.key with
    | some newinfo => foundPrimary file s newinfo
    | none => .ok s
  .ok ⟨{ s with idx := s.idx.takeTermid.addOccur item.termfreq },
    some (item.key, newBlock s.idx.globalData.recptr item.recnum item.termfreq), b.dups⟩

/-- One line.  Lines that exceed the buffer and lines of duplicate records are passed over. -/
def batchPrimaryItem (file : KeyedFile) (b : PrimaryBatch) (item : BatchItem) :
    Exec PrimaryBatch :=
  if lineLength b.s.idx item > TEMP_BUFFER_SIZE then .ok b
  else if (item.recnum.1 : ℤ) ∈ b.dups then .ok b
  else
    match b.pending with
    | some (lastKey, newinfo) =>
      if lastKey = item.key then samePrimary file b newinfo item else newPrimary file b item
    | none => newPrimary file b item

def batchPrimaryItems (file : KeyedFile) : List BatchItem → PrimaryBatch → Exec PrimaryBatch
  | [], b => .ok b
  | item :: items, b => do
    let b ← batchPrimaryItem file b item
    batchPrimaryItems file items b

/-- The lines that `in_kwadd` writes for the primary key of the records of a batch. -/
def primaryLines (file : KeyedFile) (s : PrimaryState) (recnums : List RecordNumber) :
    List BatchItem :=
  recnums.flatMap fun recnum ↦
    (getSgml file s recnum).elim [] fun hash ↦ inKwaddBatch s.idx recnum hash

/-- The other indexes load the lines of the batch, but not those of the records in `hash_tab`; a
bitmapped index does not look there. -/
def loadOthers (file : KeyedFile) (before : PrimaryState) (recnums : List RecordNumber)
    (b : PrimaryBatch) (recnum : RecordNumber) : Bool :=
  b.s.indexed recnum || (recnums.contains recnum && !before.deleted recnum &&
    (file.bitmapped || !b.dups.contains (recnum.1 : ℤ)))

/-- `in_batch_load` after a batch run of `in_kwadd` over the records. -/
def inBatchLoadRecords (file : KeyedFile) (s : PrimaryState) (recnums : List RecordNumber) :
    Exec PrimaryState := do
  let b ← batchPrimaryItems file (sortItems (primaryLines file s recnums)) ⟨s, none, []⟩
  .ok ⟨b.flush, b.s.deleted, loadOthers file s recnums b⟩

/-- Records are loaded one at a time or in a batch. -/
inductive LoadOp where
  | single (recnum : RecordNumber)
  | batch (recnums : List RecordNumber)

def stepLoad (file : KeyedFile) (s : PrimaryState) : LoadOp → Exec PrimaryState
  | .single recnum => inKwaddRecord file s recnum
  | .batch recnums => inBatchLoadRecords file s recnums

def PrimaryState.created (idxType : ℕ) : PrimaryState :=
  ⟨IdxListEntry.created idxType, fun _ ↦ false, fun _ ↦ false⟩

end Cheshire.Index
