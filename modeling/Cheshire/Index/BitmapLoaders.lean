import Cheshire.Index.BitmapContent
import Cheshire.Index.BatchAgreement

/-!
# The three loaders of a bitmap index

Records come into a bitmap index one at a time, from the sorted lines of a batch, or from the
postings of an ordinary index that `convert2bitmap` walks through.  The last two keep a block in
hand and put it when the block number or the term changes.  The three leave the same content, with
one exception: the converter starts with block 0 in hand whatever the first record is.
-/

namespace Cheshire.Index

open Search.Addition (bitmapOf bit_bitmapOf)

/-- `in_add_bitmap_entry` for each record, without a block. -/
def addOneByOne : List (Term × RecordNumber) → IdxListEntry → Exec IdxListEntry
  | [], idx => .ok idx
  | (word, r) :: additions, idx => do
    let idx ← inAddBitmapEntry idx r.1 word none 1
    addOneByOne additions idx

theorem addOneByOne_content (additions : List (Term × RecordNumber)) :
    ∀ {idx : IdxListEntry} {pairs extra}, BitmapContent idx pairs extra →
      ∃ idx', addOneByOne additions idx = .ok idx' ∧
        BitmapContent idx' (pairs ++ additions) extra := by
  induction additions with
  | nil =>
    intro idx pairs extra h
    exact ⟨idx, rfl, by rwa [List.append_nil]⟩
  | cons addition additions ih =>
    obtain ⟨word, r⟩ := addition
    intro idx pairs extra h
    obtain ⟨idx₁, hrun, -, hcontent⟩ := h.add r.1 word [r] (r.1 / 65536) (toShort_bitblockId r)
      (by simp [bitblockId_eq]) (.inr ⟨rfl, r, rfl, rfl⟩)
    simp only [List.cons_ne_nil, false_and, or_false] at hcontent
    obtain ⟨idx', hrest, hcontent'⟩ := ih hcontent
    refine ⟨idx', ?_, by simpa using hcontent'⟩
    have hone : inAddBitmapEntry idx r.1 word none 1 = .ok idx₁ := hrun
    rw [addOneByOne, hone]
    exact hrest

/-- The block in hand holds these records, all with its block number. -/
structure Filling (block : Block) (blockno lastRecnum entryCount : ℕ)
    (waiting : List RecordNumber) : Prop where
  block_eq : block = bitmapOf waiting
  count : entryCount = waiting.length
  same : ∀ r ∈ waiting, bitblockId r.1 = blockno
  last : toShort (bitblockId lastRecnum) = blockno

theorem filling_alloc : Filling bitmapBlockAlloc 0 0 0 [] where
  block_eq := rfl
  count := rfl
  same := by simp
  last := by decide

theorem filling_first (r : RecordNumber) :
    Filling (bitblockSet bitmapBlockAlloc r.1) (bitblockId r.1) r.1 1 [r] where
  block_eq := (bitmapOf_concat [] r).symm
  count := rfl
  same := by simp
  last := by rw [toShort_bitblockId, bitblockId_eq]

variable {block : Block} {blockno lastRecnum entryCount : ℕ} {waiting : List RecordNumber}

theorem Filling.next (h : Filling block blockno lastRecnum entryCount waiting) {r : RecordNumber}
    (hr : bitblockId r.1 = blockno) :
    Filling (bitblockSet block r.1) blockno r.1 (entryCount + 1) (waiting ++ [r]) where
  block_eq := by rw [bitmapOf_concat, h.block_eq]
  count := by rw [h.count, List.length_append, List.length_singleton]
  same := by
    intro other hother
    rcases List.mem_append.mp hother with hother | hother
    · exact h.same other hother
    · rw [List.mem_singleton.mp hother, hr]
  last := by rw [toShort_bitblockId, ← hr, bitblockId_eq]

variable {idx : IdxListEntry}

theorem Filling.put (h : Filling block blockno lastRecnum entryCount waiting) {pairs extra}
    (hcontent : BitmapContent idx pairs extra) (word : Term) :
    ∃ idx', inAddBitmapEntry idx lastRecnum word (some block) entryCount = .ok idx' ∧
      idx'.idxType = idx.idxType ∧
      BitmapContent idx' (pairs ++ waiting.map fun r ↦ (word, r)) fun other b ↦
        extra other b ∨ waiting = [] ∧ other = word ∧ b = blockno := by
  have hadd := hcontent.add lastRecnum word waiting blockno h.last h.same
    (.inl (congrArg some h.block_eq))
  rwa [← h.count] at hadd

theorem Filling.put_records (h : Filling block blockno lastRecnum entryCount waiting) {pairs extra}
    (hcontent : BitmapContent idx pairs extra) (word : Term) (hwaiting : waiting ≠ []) :
    ∃ idx', inAddBitmapEntry idx lastRecnum word (some block) entryCount = .ok idx' ∧
      idx'.idxType = idx.idxType ∧
      BitmapContent idx' (pairs ++ waiting.map fun r ↦ (word, r)) extra := by
  have hput := h.put hcontent word
  simpa only [hwaiting, false_and, or_false] using hput

/-- The line is not longer than the buffer it is read into. -/
def Fits (idx : IdxListEntry) (line : BatchItem) : Prop := lineLength idx line ≤ TEMP_BUFFER_SIZE

instance (idx : IdxListEntry) (line : BatchItem) : Decidable (Fits idx line) :=
  inferInstanceAs (Decidable (_ ≤ _))

/-- The additions that lines stand for. -/
def lineAdditions (lines : List BatchItem) : List (Term × RecordNumber) :=
  lines.map fun line ↦ (line.key, line.recnum)

/-- Between two lines, the index and the block in hand hold the lines so far. -/
structure BatchFilled (s : BitmapBatchState) (idxType : ℕ) (additions : List (Term × RecordNumber))
    : Prop where
  idxType_eq : s.idx.idxType = idxType
  holds : (s.currentBitblock = none ∧ s.lastKey = none ∧
      BitmapContent s.idx additions fun _ _ ↦ False) ∨
    ∃ pairs word block waiting, s.currentBitblock = some block ∧ s.lastKey = some word ∧
      Filling block s.lastBitblock s.lastRecnum s.entryCount waiting ∧ waiting ≠ [] ∧
      BitmapContent s.idx pairs (fun _ _ ↦ False) ∧
      additions = pairs ++ waiting.map fun r ↦ (word, r)

theorem batchFilled_start (s : BitmapBatchState) {additions : List (Term × RecordNumber)}
    (hcontent : BitmapContent idx additions fun _ _ ↦ False) (line : BatchItem) :
    BatchFilled { s.start idx line with lastKey := some line.key } idx.idxType
      (additions ++ [(line.key, line.recnum)]) where
  idxType_eq := rfl
  holds := .inr ⟨additions, line.key, _, [line.recnum], rfl, rfl, filling_first line.recnum,
    by simp, hcontent, rfl⟩

theorem BatchFilled.item {s : BitmapBatchState} {idxType : ℕ}
    {additions : List (Term × RecordNumber)} (h : BatchFilled s idxType additions)
    (line : BatchItem) (hfits : Fits s.idx line) :
    ∃ s', batchLoadBitmapItem s line = .ok s' ∧
      BatchFilled s' idxType (additions ++ [(line.key, line.recnum)]) := by
  have hlength : ¬lineLength s.idx line > TEMP_BUFFER_SIZE := not_lt.mpr hfits
  rcases h.holds with ⟨hnone, hkey, hcontent⟩ |
    ⟨pairs, word, block, waiting, hblock, hkey, hfilling, hwaiting, hcontent, hadditions⟩
  · have hne : s.lastKey ≠ some line.key := by simp [hkey]
    refine ⟨{ s.start s.idx line with lastKey := some line.key }, ?_, ?_⟩
    · rw [batchLoadBitmapItem, if_neg hlength, if_neg hne, hnone]
    · rw [← h.idxType_eq]
      exact batchFilled_start s hcontent line
  obtain ⟨idx', hput, htype, hcontent'⟩ := hfilling.put_records hcontent word hwaiting
  rw [← hadditions] at hcontent'
  have hstart := batchFilled_start s hcontent' line
  rw [htype, h.idxType_eq] at hstart
  by_cases hsame : word = line.key
  · have hlast : s.lastKey = some line.key := by rw [hkey, hsame]
    rw [batchLoadBitmapItem, if_neg hlength, if_pos hlast]
    by_cases hid : bitblockId line.recnum.1 = s.lastBitblock
    · rw [if_pos hid]
      refine ⟨_, rfl, h.idxType_eq, .inr ⟨pairs, word, _, waiting ++ [line.recnum], rfl, hkey, ?_,
        by simp, hcontent, ?_⟩⟩
      · rw [hblock]
        exact hfilling.next hid
      · rw [hadditions, List.map_append, List.append_assoc, hsame]
        rfl
    · rw [hsame] at hput
      rw [if_neg hid, BitmapBatchState.flush, hblock, Option.getD_some, hput]
      rw [← hlast] at hstart
      exact ⟨s.start idx' line, rfl, hstart⟩
  · have hlast : s.lastKey ≠ some line.key := by
      rw [hkey]
      exact fun heq ↦ hsame (Option.some.inj heq)
    refine ⟨{ s.start idx' line with lastKey := some line.key }, ?_, hstart⟩
    rw [batchLoadBitmapItem, if_neg hlength, if_neg hlast, hblock, hkey]
    simp only [deref, bind, Except.bind, BitmapBatchState.flush, hput]

theorem BatchFilled.items (lines : List BatchItem) : ∀ {s : BitmapBatchState} {idxType : ℕ}
    {additions : List (Term × RecordNumber)}, BatchFilled s idxType additions →
      ∃ s', batchLoadBitmapItems lines s = .ok s' ∧ BatchFilled s' idxType
        (additions ++ lineAdditions (lines.filter fun line ↦
          Fits (IdxListEntry.created idxType) line)) := by
  induction lines with
  | nil =>
    intro s idxType additions h
    exact ⟨s, rfl, by simpa [lineAdditions] using h⟩
  | cons line lines ih =>
    intro s idxType additions h
    have hlength : lineLength (IdxListEntry.created idxType) line = lineLength s.idx line :=
      lineLength_of_idxType h.idxType_eq.symm line
    by_cases hfits : Fits s.idx line
    · obtain ⟨s₁, hrun, h₁⟩ := h.item line hfits
      obtain ⟨s', hrest, h'⟩ := ih h₁
      have hcreated : Fits (IdxListEntry.created idxType) line := by rwa [Fits, hlength]
      refine ⟨s', ?_, ?_⟩
      · rw [batchLoadBitmapItems, hrun]
        exact hrest
      · rw [List.filter_cons_of_pos (by simpa using hcreated)]
        simpa [lineAdditions] using h'
    · have hcreated : ¬Fits (IdxListEntry.created idxType) line := by rwa [Fits, hlength]
      obtain ⟨s', hrest, h'⟩ := ih h
      refine ⟨s', ?_, ?_⟩
      · rw [batchLoadBitmapItems, batchLoadBitmapItem, if_pos (not_le.mp hfits)]
        exact hrest
      · rwa [List.filter_cons_of_neg (by simpa using hcreated)]

theorem inBatchLoad_content {idxType : ℕ}
    (hbitmap : (IdxListEntry.created idxType).has BITMAPPED_TYPE = true) (lines : List BatchItem) :
    ∃ idx', inBatchLoad (IdxListEntry.created idxType) lines = .ok idx' ∧
      BitmapContent idx' (lineAdditions ((sortItems lines).filter fun line ↦
        Fits (IdxListEntry.created idxType) line)) fun _ _ ↦ False := by
  have hstart : BatchFilled ⟨IdxListEntry.created idxType, none, none, 0, 0, 0⟩ idxType [] :=
    ⟨rfl, .inl ⟨rfl, rfl, bitmapContent_created idxType⟩⟩
  obtain ⟨s, hrun, h⟩ := hstart.items (sortItems lines)
  rw [List.nil_append] at h
  rw [inBatchLoad, if_pos hbitmap, batchLoadBitmap, hrun]
  rcases h.holds with ⟨hnone, -, hcontent⟩ |
    ⟨pairs, word, block, waiting, hblock, hkey, hfilling, hwaiting, hcontent, hadditions⟩
  · refine ⟨s.idx, ?_, hcontent⟩
    simp only [bind, Except.bind, hnone]
  · obtain ⟨idx', hput, -, hcontent'⟩ := hfilling.put_records hcontent word hwaiting
    refine ⟨idx', ?_, by rwa [hadditions]⟩
    simp only [bind, Except.bind, hblock, hkey, deref, BitmapBatchState.flush, hput]

/-- A value of the input index, in the order of the cursor. -/
inductive CursorData where
  | totals (info : DictInfo)
  | postings (block : IdxResult)

/-- `sizeof(idx_result)`, a block with one posting. -/
def SIZEOF_IDX_RESULT : ℕ := HEADER_SIZE + POSTING_SIZE

/-- `indata.size`; `dict_info` has three members. -/
def CursorData.size : CursorData → ℕ
  | totals _ => 12
  | postings block => block.size

/-- What the converter keeps between two keys. -/
structure ConvertState where
  outIdx : IdxListEntry
  workBlock : Option Block
  lastKey : Option Term
  lastRecnum : ℕ
  lastBitblock : ℕ
  entryCount : ℕ

/-- `in_add_bitmap_entry` of the block in hand. -/
def ConvertState.flush (s : ConvertState) (workBlock : Block) : Exec IdxListEntry := do
  let lastKey ← deref s.lastKey
  inAddBitmapEntry s.outIdx s.lastRecnum lastKey (some workBlock) s.entryCount

/-- The beginning of a new term; `first` is `entries[0].record_no`. -/
def newTerm (s : ConvertState) (key : Term) (first : ℕ) : Exec ConvertState :=
  match s.workBlock with
  | some workBlock => do
    let outIdx ← s.flush workBlock
    .ok ⟨outIdx, none, some key, 0, bitblockId first, 0⟩
  | none => .ok { s with lastKey := some key }

/-- The block in hand, allocated when there is none. -/
def ConvertState.withBlock (s : ConvertState) : ConvertState :=
  match s.workBlock with
  | some _ => s
  | none => { s with workBlock := some bitmapBlockAlloc, lastRecnum := 0, entryCount := 0 }

def convertEntry (s : ConvertState) (recordNo : ℕ) : Exec ConvertState := do
  let s := s.withBlock
  let workBlock ← deref s.workBlock
  if bitblockId recordNo = s.lastBitblock then
    .ok { s with
      workBlock := some (bitblockSet workBlock recordNo)
      lastRecnum := recordNo
      entryCount := s.entryCount + 1 }
  else do
    let outIdx ← s.flush workBlock
    .ok ⟨outIdx, some (bitblockSet bitmapBlockAlloc recordNo), s.lastKey, recordNo,
      bitblockId recordNo, 1⟩

def convertEntries : List ℕ → ConvertState → Exec ConvertState
  | [], s => .ok s
  | recordNo :: recordNos, s => do
    let s ← convertEntry s recordNo
    convertEntries recordNos s

/-- `oldinfo->entries[i].record_no`; the copy has room for one posting more than the block.
Record numbers are positive. -/
def oldinfoRecord (block : IdxResult) (i : ℕ) : Exec ℕ :=
  if h : i < block.entries.length then .ok block.entries[i].recordNo.toNat
  else if i = block.entries.length then .ok 0
  else .error .outOfBounds

def convertKey (s : ConvertState) (key : Term) (data : CursorData) : Exec ConvertState :=
  if data.size < SIZEOF_IDX_RESULT then .ok s
  else
    match data with
    | .totals _ => .ok s
    | .postings block => do
      let first ← oldinfoRecord block 0
      let s ← newTerm s key first
      let recordNos ← (List.range block.numEntries.toNat).mapM (oldinfoRecord block)
      convertEntries recordNos s

def convertKeys : List (Term × CursorData) → ConvertState → Exec ConvertState
  | [], s => .ok s
  | (key, data) :: cursor, s => do
    let s ← convertKey s key data
    convertKeys cursor s

/-- `convert2bitmap`: a new bitmap index from the keys of an index. -/
def convert2bitmap (cursor : List (Term × CursorData)) : Exec IdxListEntry := do
  let s ← convertKeys cursor ⟨IdxListEntry.created BITMAPPED_TYPE, none, none, 0, 0, 0⟩
  match s.workBlock with
  | some workBlock => s.flush workBlock
  | none => .ok s.outIdx

/-- The cursor walks through these terms, whose postings are these records; totals may come in
between. -/
inductive Walks : List (Term × CursorData) → List (Term × List RecordNumber) → Prop where
  | nil : Walks [] []
  | totals {cursor terms} (key : Term) (info : DictInfo) (rest : Walks cursor terms) :
    Walks ((key, .totals info) :: cursor) terms
  | postings {cursor terms} (key : Term) (block : IdxResult) (records : List RecordNumber)
    (sound : block.Sound) (nonempty : records ≠ [])
    (entries : block.postings.map IdxPostingEntry.recordNo = records.map fun r ↦ (r.1 : ℤ))
    (rest : Walks cursor terms) :
    Walks ((key, .postings block) :: cursor) ((key, records) :: terms)

/-- The additions that terms with their records stand for. -/
def termAdditions (terms : List (Term × List RecordNumber)) : List (Term × RecordNumber) :=
  terms.flatMap fun term ↦ term.2.map fun r ↦ (term.1, r)

theorem oldinfoRecord_eq {block : IdxResult} {records : List RecordNumber} (hsound : block.Sound)
    (hentries : block.postings.map IdxPostingEntry.recordNo = records.map fun r ↦ (r.1 : ℤ))
    {i : ℕ} (hi : i < records.length) : oldinfoRecord block i = .ok records[i].1 := by
  have hlength : block.numEntries.toNat = records.length := by
    rw [← hsound.length_postings, ← List.length_map (f := IdxPostingEntry.recordNo), hentries,
      List.length_map]
  have hstored : i < block.entries.length := by
    have := hsound.stored
    omega
  have hpostings : i < block.postings.length := by
    rw [hsound.length_postings]
    omega
  have hrecord : block.entries[i].recordNo = (records[i].1 : ℤ) := by
    have hget : block.postings[i].recordNo = (records[i].1 : ℤ) := by
      have hmap := List.getElem_of_eq hentries (i := i) (by simpa using hpostings)
      simpa only [List.getElem_map] using hmap
    rw [← hget]
    simp only [IdxResult.postings, List.getElem_take]
  rw [oldinfoRecord, dif_pos hstored, hrecord, Int.toNat_natCast]

theorem recordNos_eq {block : IdxResult} {records : List RecordNumber} (hsound : block.Sound)
    (hentries : block.postings.map IdxPostingEntry.recordNo = records.map fun r ↦ (r.1 : ℤ)) :
    (List.range block.numEntries.toNat).mapM (oldinfoRecord block) =
      .ok (records.map Subtype.val) := by
  have hlength : block.numEntries.toNat = records.length := by
    rw [← hsound.length_postings, ← List.length_map (f := IdxPostingEntry.recordNo), hentries,
      List.length_map]
  rw [hlength, mapM_ok (g := fun i ↦ (records.map Subtype.val).getD i 0)]
  · congr 1
    apply List.ext_getElem
    · simp
    · intro i _ hi
      have hi' : i < records.length := by simpa using hi
      simp [hi']
  · intro i hi
    have hi' : i < records.length := List.mem_range.mp hi
    rw [oldinfoRecord_eq hsound hentries hi']
    simp [hi']

/-- Within and after a term, the index and the block in hand hold the postings so far. -/
structure InHand (s : ConvertState) (word : Term) (additions : List (Term × RecordNumber))
    (extra : Term → ℕ → Prop) : Prop where
  lastKey : s.lastKey = some word
  holds : ∃ pairs block waiting, s.workBlock = some block ∧
    Filling block s.lastBitblock s.lastRecnum s.entryCount waiting ∧ waiting ≠ [] ∧
    BitmapContent s.outIdx pairs extra ∧ additions = pairs ++ waiting.map fun r ↦ (word, r)

section InHand

variable {s : ConvertState} {word : Term} {additions : List (Term × RecordNumber)}
  {extra : Term → ℕ → Prop}

theorem InHand.flush (h : InHand s word additions extra) :
    ∃ workBlock outIdx, s.workBlock = some workBlock ∧ s.flush workBlock = .ok outIdx ∧
      BitmapContent outIdx additions extra := by
  obtain ⟨pairs, block, waiting, hblock, hfilling, hwaiting, hcontent, hadditions⟩ := h.holds
  obtain ⟨outIdx, hput, -, hcontent'⟩ := hfilling.put_records hcontent word hwaiting
  refine ⟨block, outIdx, hblock, ?_, by rwa [hadditions]⟩
  simp only [ConvertState.flush, h.lastKey, deref, bind, Except.bind, hput]

theorem InHand.entry (h : InHand s word additions extra) (r : RecordNumber) :
    ∃ s', convertEntry s r.1 = .ok s' ∧ InHand s' word (additions ++ [(word, r)]) extra := by
  obtain ⟨pairs, block, waiting, hblock, hfilling, hwaiting, hcontent, hadditions⟩ := h.holds
  obtain ⟨block', outIdx, hblock', hflush, hflushed⟩ := h.flush
  obtain rfl : block = block' := Option.some.inj (hblock.symm.trans hblock')
  have hopen : s.withBlock = s := by rw [ConvertState.withBlock, hblock]
  by_cases hid : bitblockId r.1 = s.lastBitblock
  · refine ⟨{ s with
      workBlock := some (bitblockSet block r.1)
      lastRecnum := r.1
      entryCount := s.entryCount + 1 }, ?_, h.lastKey, pairs, _, waiting ++ [r], rfl,
      hfilling.next hid, by simp, hcontent, ?_⟩
    · simp only [convertEntry, hopen, hblock, deref, bind, Except.bind, if_pos hid]
    · rw [hadditions, List.map_append, List.append_assoc]
      rfl
  · refine ⟨⟨outIdx, some (bitblockSet bitmapBlockAlloc r.1), s.lastKey, r.1, bitblockId r.1, 1⟩,
      ?_, h.lastKey, additions, _, [r], rfl, filling_first r, by simp, hflushed, rfl⟩
    simp only [convertEntry, hopen, hblock, deref, bind, Except.bind, if_neg hid, hflush]

theorem InHand.entries (records : List RecordNumber) : ∀ {s : ConvertState} {additions},
    InHand s word additions extra →
      ∃ s', convertEntries (records.map Subtype.val) s = .ok s' ∧
        InHand s' word (additions ++ records.map fun r ↦ (word, r)) extra := by
  induction records with
  | nil =>
    intro s additions h
    exact ⟨s, rfl, by simpa using h⟩
  | cons r records ih =>
    intro s additions h
    obtain ⟨s₁, hrun, h₁⟩ := h.entry r
    obtain ⟨s', hrest, h'⟩ := ih h₁
    refine ⟨s', ?_, by simpa using h'⟩
    rw [List.map_cons, convertEntries, hrun]
    exact hrest

theorem InHand.firstEntry (h : InHand s word additions extra) (key : Term) (r : RecordNumber) :
    ∃ s₁ s', newTerm s key r.1 = .ok s₁ ∧ convertEntry s₁ r.1 = .ok s' ∧
      InHand s' key (additions ++ [(key, r)]) extra := by
  obtain ⟨block, outIdx, hblock, hflush, hcontent⟩ := h.flush
  refine ⟨⟨outIdx, none, some key, 0, bitblockId r.1, 0⟩,
    ⟨outIdx, some (bitblockSet bitmapBlockAlloc r.1), some key, r.1, bitblockId r.1, 1⟩, ?_, ?_,
    rfl, additions, _, [r], rfl, filling_first r, by simp, hcontent, rfl⟩
  · rw [newTerm, hblock]
    simp only [hflush, bind, Except.bind]
  · simp only [convertEntry, ConvertState.withBlock, deref, bind, Except.bind, if_pos]

end InHand

def ConvertState.start : ConvertState := ⟨IdxListEntry.created BITMAPPED_TYPE, none, none, 0, 0, 0⟩

theorem firstEntry_start (key : Term) (r : RecordNumber) :
    ∃ s₁ s', newTerm ConvertState.start key r.1 = .ok s₁ ∧ convertEntry s₁ r.1 = .ok s' ∧
      InHand s' key [(key, r)] fun other b ↦ bitblockId r.1 ≠ 0 ∧ other = key ∧ b = 0 := by
  have hcreated := bitmapContent_created BITMAPPED_TYPE
  refine ⟨{ ConvertState.start with lastKey := some key }, ?_⟩
  by_cases hid : bitblockId r.1 = 0
  · refine ⟨⟨IdxListEntry.created BITMAPPED_TYPE, some (bitblockSet bitmapBlockAlloc r.1),
      some key, r.1, 0, 1⟩, rfl, ?_, rfl, [], _, [r], rfl, filling_alloc.next hid, by simp, ?_,
      rfl⟩
    · simp only [convertEntry, ConvertState.withBlock, ConvertState.start, deref, bind,
        Except.bind]
      exact if_pos hid
    · simpa only [hid, ne_eq, not_true_eq_false, false_and] using hcreated
  · obtain ⟨outIdx, hput, -, hcontent⟩ := filling_alloc.put hcreated key
    refine ⟨⟨outIdx, some (bitblockSet bitmapBlockAlloc r.1), some key, r.1, bitblockId r.1, 1⟩,
      rfl, ?_, rfl, [], _, [r], rfl, filling_first r, by simp, ?_, rfl⟩
    · have hput' : inAddBitmapEntry (IdxListEntry.created BITMAPPED_TYPE) 0 key
          (some bitmapBlockAlloc) (0 : ℕ) = .ok outIdx := hput
      simp only [convertEntry, ConvertState.withBlock, ConvertState.start, deref, bind,
        Except.bind, if_neg hid, ConvertState.flush, hput']
    · simpa [hid] using hcontent

theorem convertKey_postings {s s₁ s₂ : ConvertState} {key : Term} {block : IdxResult}
    {r : RecordNumber} {records : List RecordNumber} (hsound : block.Sound)
    (hentries : block.postings.map IdxPostingEntry.recordNo =
      (r :: records).map fun r ↦ (r.1 : ℤ))
    {additions : List (Term × RecordNumber)} {extra : Term → ℕ → Prop}
    (hnew : newTerm s key r.1 = .ok s₁) (hfirst : convertEntry s₁ r.1 = .ok s₂)
    (h : InHand s₂ key (additions ++ [(key, r)]) extra) :
    ∃ s', convertKey s key (.postings block) = .ok s' ∧
      InHand s' key (additions ++ (r :: records).map fun r ↦ (key, r)) extra := by
  have hsize : ¬(CursorData.postings block).size < SIZEOF_IDX_RESULT := by
    have hlength : block.postings.length = records.length + 1 := by
      rw [← List.length_map (f := IdxPostingEntry.recordNo), hentries, List.length_map,
        List.length_cons]
    have hstored := hsound.stored
    rw [← hsound.length_postings, hlength] at hstored
    rw [CursorData.size, IdxResult.size, SIZEOF_IDX_RESULT]
    simp only [POSTING_SIZE, HEADER_SIZE]
    omega
  obtain ⟨s', hrest, h'⟩ := h.entries records
  have hzero : oldinfoRecord block 0 = .ok r.1 :=
    oldinfoRecord_eq hsound hentries (i := 0) (by simp)
  refine ⟨s', ?_, by simpa using h'⟩
  rw [convertKey, if_neg hsize]
  simp only [hzero, hnew, recordNos_eq hsound hentries, bind, Except.bind, List.map_cons,
    convertEntries, hfirst, hrest]

theorem convertKey_totals (s : ConvertState) (key : Term) (info : DictInfo) :
    convertKey s key (.totals info) = .ok s := by
  rw [convertKey]
  split <;> rfl

theorem InHand.keys {cursor : List (Term × CursorData)} {terms : List (Term × List RecordNumber)}
    (hwalks : Walks cursor terms) : ∀ {s : ConvertState} {word additions extra},
      InHand s word additions extra → ∃ s' word', convertKeys cursor s = .ok s' ∧
        InHand s' word' (additions ++ termAdditions terms) extra := by
  induction hwalks with
  | nil =>
    intro s word additions extra h
    exact ⟨s, word, rfl, by simpa [termAdditions] using h⟩
  | totals key info rest ih =>
    intro s word additions extra h
    obtain ⟨s', word', hrun, h'⟩ := ih h
    refine ⟨s', word', ?_, h'⟩
    rw [convertKeys, convertKey_totals]
    exact hrun
  | postings key block records hsound hnonempty hentries rest ih =>
    intro s word additions extra h
    obtain ⟨r, records, rfl⟩ := List.exists_cons_of_ne_nil hnonempty
    obtain ⟨s₁, s₂, hnew, hfirst, h₂⟩ := h.firstEntry key r
    obtain ⟨s₃, hkey, h₃⟩ := convertKey_postings hsound hentries hnew hfirst h₂
    obtain ⟨s', word', hrun, h'⟩ := ih h₃
    refine ⟨s', word', ?_, ?_⟩
    · rw [convertKeys, hkey]
      exact hrun
    · rw [termAdditions, List.flatMap_cons, ← List.append_assoc]
      exact h'

/-- The block without records that the converter leaves under the first term. -/
def Spurious (terms : List (Term × List RecordNumber)) (word : Term) (blockno : ℕ) : Prop :=
  ∃ r records, terms.head? = some (word, r :: records) ∧ bitblockId r.1 ≠ 0 ∧ blockno = 0

theorem spurious_cons (key : Term) (r : RecordNumber) (records : List RecordNumber)
    (terms : List (Term × List RecordNumber)) : Spurious ((key, r :: records) :: terms) =
      fun other b ↦ bitblockId r.1 ≠ 0 ∧ other = key ∧ b = 0 := by
  funext other b
  simp only [Spurious, List.head?_cons, Option.some.injEq, Prod.mk.injEq, List.cons.injEq]
  apply propext
  constructor
  · rintro ⟨_, _, ⟨rfl, rfl, rfl⟩, hid, rfl⟩
    exact ⟨hid, rfl, rfl⟩
  · rintro ⟨hid, rfl, rfl⟩
    exact ⟨r, records, ⟨rfl, rfl, rfl⟩, hid, rfl⟩

theorem convert2bitmap_content {cursor : List (Term × CursorData)}
    {terms : List (Term × List RecordNumber)} (hwalks : Walks cursor terms) :
    ∃ idx', convert2bitmap cursor = .ok idx' ∧
      BitmapContent idx' (termAdditions terms) (Spurious terms) := by
  have hrun : ∃ s', convertKeys cursor ConvertState.start = .ok s' ∧
      (terms = [] ∧ s' = ConvertState.start ∨
        ∃ word, InHand s' word (termAdditions terms) (Spurious terms)) := by
    induction hwalks with
    | nil => exact ⟨_, rfl, .inl ⟨rfl, rfl⟩⟩
    | totals key info rest ih =>
      obtain ⟨s', hrun, h⟩ := ih
      refine ⟨s', ?_, h⟩
      rw [convertKeys, convertKey_totals]
      exact hrun
    | postings key block records hsound hnonempty hentries rest =>
      obtain ⟨r, records, rfl⟩ := List.exists_cons_of_ne_nil hnonempty
      obtain ⟨s₁, s₂, hnew, hfirst, h₂⟩ := firstEntry_start key r
      obtain ⟨s₃, hkey, h₃⟩ :=
        @convertKey_postings _ _ _ _ _ _ _ hsound hentries [] _ hnew hfirst h₂
      obtain ⟨s', word', hrun, h'⟩ := h₃.keys rest
      refine ⟨s', ?_, .inr ⟨word', ?_⟩⟩
      · rw [convertKeys, hkey]
        exact hrun
      · rw [termAdditions, List.flatMap_cons, spurious_cons]
        exact h'
  obtain ⟨s', hrun, h⟩ := hrun
  have hstart : convert2bitmap cursor = (do
      match s'.workBlock with
      | some workBlock => s'.flush workBlock
      | none => .ok s'.outIdx) := by
    rw [convert2bitmap]
    change (do
      let s ← convertKeys cursor ConvertState.start
      match s.workBlock with
      | some workBlock => s.flush workBlock
      | none => .ok s.outIdx) = _
    rw [hrun]
    rfl
  rw [hstart]
  rcases h with ⟨rfl, rfl⟩ | ⟨word, h⟩
  · refine ⟨_, rfl, ?_⟩
    have hnone : Spurious [] = fun _ _ ↦ False := by
      funext word b
      simp [Spurious]
    rw [hnone]
    exact bitmapContent_created BITMAPPED_TYPE
  · obtain ⟨workBlock, outIdx, hblock, hflush, hcontent⟩ := h.flush
    refine ⟨outIdx, ?_, hcontent⟩
    rw [hblock]
    exact hflush

end Cheshire.Index
