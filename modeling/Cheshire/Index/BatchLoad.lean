import Cheshire.Index.KwAdd

/-!
# Batch loading

In a batch run `in_kwadd` writes one line for every term of a record.  The lines of an index are
sorted by their octets, and `in_batch_load` reads them back: it accumulates the postings of one key
in core and puts them into the index when the key changes and at the end of the file.  A line is an
item here, since its fields are read back as they were written.
-/

namespace Cheshire.Index

/-- The fields of one line of the batch file. -/
structure BatchItem where
  key : Term
  recnum : RecordNumber
  termfreq : ℕ
  pos : List ℤ
deriving DecidableEq

/-- The replacement of `\001`, which separates the positions from the other fields. -/
def replaceSeparator (word : Term) : Term := word.map fun c ↦ if c = 1 then 63 else c

/-- The line for one term of a hash; positions are written for a proximity index. -/
def batchItem (idx : IdxListEntry) (recnum : RecordNumber) (item : Term × HtData) : BatchItem where
  key := replaceSeparator item.1
  recnum := recnum
  termfreq := item.2.termfreq
  pos := if idx.has PROXIMITY then item.2.pos else []

/-- The batch path of `in_kwadd` for one index: the lines of one record. -/
def inKwaddBatch (idx : IdxListEntry) (recnum : RecordNumber) (hash : TermHash) : List BatchItem :=
  if idx.has PAGEDINDEX || idx.has NORM_WITH_FREQ then []
  else hash.entries.map (batchItem idx recnum)

/-- The octets of a line are compared up to the record number, which is written with leading
zeros. -/
def sortKey (item : BatchItem) : List ℕ ×ₗ ℕ :=
  toLex (item.key.map UInt8.toNat ++ [9], item.recnum.1)

/-- `sort` in the C locale. -/
def sortItems (items : List BatchItem) : List BatchItem :=
  items.insertionSort fun a b ↦ sortKey a ≤ sortKey b

def TEMP_BUFFER_SIZE : ℕ := 50000

def printedLength (value : ℤ) : ℕ := (toString value).length

/-- `strlen(in_buffer)`: key, record number of twelve digits, frequency and positions. -/
def lineLength (idx : IdxListEntry) (item : BatchItem) : ℕ :=
  item.key.length + 1 + 12 + 1 + printedLength item.termfreq +
    (if idx.has PROXIMITY then 1 + (item.pos.map fun p ↦ 1 + printedLength p).sum else 0) + 1

theorem lineLength_of_idxType {idx idx' : IdxListEntry} (htype : idx'.idxType = idx.idxType)
    (item : BatchItem) : lineLength idx' item = lineLength idx item := by
  rw [lineLength, lineLength, has_of_idxType htype]

/-- The positions read back from a line: `termfreq` of them, zero when the line has no more. -/
def proxdata (item : BatchItem) : List ℤ :=
  (List.range item.termfreq).map fun i ↦ item.pos[i]?.getD 0

/-- The positions of an item are stored in a proximity index. -/
def putProximityArray (idx : IdxListEntry) (item : BatchItem) (termid : ℤ) : IdxListEntry :=
  if idx.has PROXIMITY then putPositionInfo idx item.recnum termid (proxdata item) else idx

/-- What the loop over the lines keeps: `last_key` and `newinfo`, the block that is still to be put
under it.  The two are set together. -/
structure BatchState where
  idx : IdxListEntry
  pending : Option (Term × IdxResult)

/-- The put of the accumulated block. -/
def BatchState.flush (s : BatchState) : IdxListEntry :=
  match s.pending with
  | none => s.idx
  | some (lastKey, newinfo) => s.idx.putTerm lastKey newinfo

/-- A line with the key of the line before. -/
def sameKey (s : BatchState) (newinfo : IdxResult) (item : BatchItem) : Exec BatchState := do
  let newinfo ← addPosting newinfo item.recnum item.termfreq
  .ok ⟨putProximityArray (s.idx.addOccur item.termfreq) item newinfo.termid,
    some (item.key, newinfo)⟩

/-- A line with another key: the block before it is put, and the block of the key is looked up or
started. -/
def newKey (s : BatchState) (item : BatchItem) : Exec BatchState :=
  let idx := s.flush
  match idx.terms item.key with
  | some info => do
    let newinfo ← addPosting info item.recnum item.termfreq
    .ok ⟨putProximityArray (idx.addOccur item.termfreq) item newinfo.termid,
      some (item.key, newinfo)⟩
  | none =>
    let termid := idx.globalData.recptr
    .ok ⟨putProximityArray (idx.takeTermid.addOccur item.termfreq) item termid,
      some (item.key, newBlock termid item.recnum item.termfreq)⟩

/-- One line.  Lines that exceed the buffer are passed over. -/
def batchLoadItem (s : BatchState) (item : BatchItem) : Exec BatchState :=
  if lineLength s.idx item > TEMP_BUFFER_SIZE then .ok s
  else
    match s.pending with
    | some (lastKey, newinfo) =>
      if lastKey = item.key then sameKey s newinfo item else newKey s item
    | none => newKey s item

def batchLoadItems : List BatchItem → BatchState → Exec BatchState
  | [], s => .ok s
  | item :: items, s => do
    let s ← batchLoadItem s item
    batchLoadItems items s

/-- What the loop keeps for a bitmap index: the block that is being filled, its number, the last
record and the number of records set in it. -/
structure BitmapBatchState where
  idx : IdxListEntry
  lastKey : Option Term
  currentBitblock : Option Block
  lastBitblock : ℕ
  lastRecnum : ℕ
  entryCount : ℕ

/-- The block with its first record. -/
def BitmapBatchState.start (s : BitmapBatchState) (idx : IdxListEntry) (item : BatchItem) :
    BitmapBatchState :=
  { s with
    idx := idx
    currentBitblock := some (bitblockSet bitmapBlockAlloc item.recnum.1)
    lastBitblock := bitblockId item.recnum.1
    lastRecnum := item.recnum.1
    entryCount := 1 }

/-- The put of the block under a key. -/
def BitmapBatchState.flush (s : BitmapBatchState) (key : Term) (block : Block) :
    Exec IdxListEntry :=
  inAddBitmapEntry s.idx s.lastRecnum key (some block) s.entryCount

/-- One line for a bitmap index. -/
def batchLoadBitmapItem (s : BitmapBatchState) (item : BatchItem) : Exec BitmapBatchState :=
  if lineLength s.idx item > TEMP_BUFFER_SIZE then .ok s
  else if s.lastKey = some item.key then
    let block := s.currentBitblock.getD bitmapBlockAlloc
    if bitblockId item.recnum.1 = s.lastBitblock then
      .ok { s with
        currentBitblock := some (bitblockSet block item.recnum.1)
        lastRecnum := item.recnum.1
        entryCount := s.entryCount + 1 }
    else do
      let idx ← s.flush item.key block
      .ok (s.start idx item)
  else
    match s.currentBitblock with
    | none => .ok { s.start s.idx item with lastKey := some item.key }
    | some block => do
      let lastKey ← deref s.lastKey
      let idx ← s.flush lastKey block
      .ok { s.start idx item with lastKey := some item.key }

def batchLoadBitmapItems : List BatchItem → BitmapBatchState → Exec BitmapBatchState
  | [], s => .ok s
  | item :: items, s => do
    let s ← batchLoadBitmapItem s item
    batchLoadBitmapItems items s

/-- The bitmap branches of `in_batch_load_main`. -/
def batchLoadBitmap (idx : IdxListEntry) (items : List BatchItem) : Exec IdxListEntry := do
  let s ← batchLoadBitmapItems items ⟨idx, none, none, 0, 0, 0⟩
  match s.currentBitblock with
  | none => .ok s.idx
  | some block => do
    let lastKey ← deref s.lastKey
    s.flush lastKey block

/-- `in_batch_load_main` for an index that is not the primary key of a file, on the lines of its
batch file. -/
def inBatchLoad (idx : IdxListEntry) (lines : List BatchItem) : Exec IdxListEntry :=
  if idx.has BITMAPPED_TYPE then batchLoadBitmap idx (sortItems lines)
  else do
    let s ← batchLoadItems (sortItems lines) ⟨idx, none⟩
    .ok s.flush

end Cheshire.Index
