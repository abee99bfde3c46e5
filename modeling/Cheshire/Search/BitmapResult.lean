import Cheshire.Index.Bitmaps
import Cheshire.Search.WeightedResult

/-!
# Bitmap results

A search of a bitmap index yields a result that only names its terms: its single entry carries the
last record that was added and its hit count may be unknown.  The blocks are fetched when the result
is used, and `se_bitmap_to_result` turns a part of it into an ordinary result.  All the terms of a
result belong to one index.
-/

namespace Cheshire.Search

open Lib Index

/-- `inset->termid[i]`; the array is zeroed behind the terms of the result. -/
def termidAt (inset : WeightedResult) (i : ℕ) : ℤ := inset.termid[i]?.getD 0

/-- The boolean over the further terms of a block, up to the first zero and to the first term
without such a block. -/
def andTerms (idx : IdxListEntry) (blockid : ℤ) : List ℤ → Block → Block
  | [], accumBlock => accumBlock
  | termid :: termids, accumBlock =>
    if termid > 0 then
      match idx.blocks ⟨blockid, termid⟩ with
      | none => bitmapBlockAlloc
      | some resultBlock => andTerms idx blockid termids (accumBlock.and resultBlock)
    else accumBlock

/-- `se_fetch_bitmap_block`: the block and what is left in `*block`. -/
def seFetchBitmapBlock (idx : IdxListEntry) (inset : WeightedResult) (recordno : ℕ) (block : ℤ)
    (lastBlock : Option Block) : Block × ℤ :=
  let currentBlockno : ℤ := bitblockId recordno
  match lastBlock, decide (block = currentBlockno) with
  | some last, true => (last, block)
  | _, _ =>
    let blockid := toShort currentBlockno
    match idx.blocks ⟨blockid, termidAt inset 0⟩ with
    | none => (bitmapBlockAlloc, 0)
    | some found =>
      (if inset.numHits < 0 then andTerms idx blockid (inset.termid.drop 1) found else found,
        currentBlockno)

/-- The result that `se_bitmap` builds for one normalised term.  A search for a list of words leaves
the hit count at -1, any other search reports the number of entries of the term. -/
def seBitmap (idx : IdxListEntry) (wordList : Bool) (word : Term) : WeightedResult :=
  let wtRes : WeightedResult :=
    { setid := "", filename := "", resultType := BITMAP_RESULT, component := none, termid := []
      numHits := 0, resultWeight := 0, maxWeight := 0, minWeight := 0
      entries := [WeightedEntry.zero] }
  match idx.terms word with
  | some indexResult =>
    { wtRes with
      termid := [indexResult.termid]
      numHits := if wordList then -1 else indexResult.numEntries
      entries := [⟨(indexResult.entries.headD IdxPostingEntry.zero).recordNo, 0, 0⟩] }
  | none => if wordList then wtRes else { wtRes with resultType := 0 }

/-- What the loops of `se_bitmap_to_result` change. -/
structure Enumeration where
  entries : List WeightedEntry
  numHits : ℕ
  skip : ℕ

/-- The body of the loops for a bit that is set: it is skipped, stored or left out. -/
def takeBit (nWanted nStart : ℕ) (recordNum : ℤ) (s : Enumeration) : Exec Enumeration :=
  if s.skip < nStart then .ok { s with skip := s.skip + 1 }
  else if s.numHits < nWanted then do
    let recordNum ← checkInt recordNum
    match s.entries[s.numHits]? with
    | some entry =>
      .ok { s with
        entries := s.entries.set s.numHits { entry with recordNum := recordNum, weight := 1 }
        numHits := s.numHits + 1 }
    | none => .error .outOfBounds
  else .ok s

/-- One bit of a byte, which stands for the record `base + bit + 1`. -/
def scanBit (nWanted nStart : ℕ) (byte : BitVec 8) (base : ℤ) (bit : ℕ) (s : Enumeration) :
    Exec Enumeration :=
  if byte &&& (1#8 <<< bit) != 0#8 then takeBit nWanted nStart (base + bit + 1) s else .ok s

def scanBits (nWanted nStart : ℕ) (byte : BitVec 8) (base : ℤ) :
    List ℕ → Enumeration → Exec Enumeration
  | [], s => .ok s
  | bit :: bits, s => do
    let s ← scanBit nWanted nStart byte base bit s
    scanBits nWanted nStart byte base bits s

/-- One byte of a block; a zero byte is passed over. -/
def scanByte (nWanted nStart : ℕ) (resultBlock : Block) (currentBlockno : ℤ) (j : ℕ)
    (s : Enumeration) : Exec Enumeration :=
  if resultBlock.byte j != 0#8 then
    scanBits nWanted nStart (resultBlock.byte j)
      (currentBlockno * BITMAP_BLOCKSIZE_BITS + j * 8) (List.range 8) s
  else .ok s

/-- Some bytes of one block, until enough records have been found. -/
def scanBytes (nWanted nStart : ℕ) (resultBlock : Block) (currentBlockno : ℤ) :
    List ℕ → Enumeration → Exec Enumeration
  | [], s => .ok s
  | j :: js, s =>
    if s.numHits < nWanted then do
      let s ← scanByte nWanted nStart resultBlock currentBlockno j s
      scanBytes nWanted nStart resultBlock currentBlockno js s
    else .ok s

/-- The blocks, up to the one in which the last added record falls. -/
def scanBlocks (idx : IdxListEntry) (inres : WeightedResult) (maxDocid : ℤ) (nWanted nStart : ℕ) :
    ℕ → ℕ → ℤ → Option Block → Enumeration → Exec Enumeration
  | 0, _, _, _, _ => .error .unfinished
  | fuel + 1, dummyRecno, currentBlockno, resultBlock, s =>
    if dummyRecno < maxDocid ∧ s.numHits < nWanted then do
      let (resultBlock, currentBlockno) :=
        seFetchBitmapBlock idx inres dummyRecno currentBlockno resultBlock
      let s ← scanBytes nWanted nStart resultBlock currentBlockno
        (List.range BITMAP_BLOCKSIZE_BYTES) s
      let next ← checkInt (dummyRecno + BITMAP_BLOCKSIZE_BITS)
      scanBlocks idx inres maxDocid nWanted nStart fuel next.toNat currentBlockno
        (some resultBlock) s
    else .ok s

/-- The header of the result over the entries that were filled; a known hit count is kept. -/
def enumeratedResult (inres : WeightedResult) (s : Enumeration) : WeightedResult :=
  { inres with
    setid := ""
    resultType := Nat.ldiff inres.resultType BITMAP_RESULT
    maxWeight := 1
    minWeight := 1
    entries := s.entries
    numHits := if inres.numHits > 0 then inres.numHits else s.numHits }

/-- `se_bitmap_to_result`; the block has `n_wanted + 1` entries behind the one that belongs to the
header, and the header is copied together with its entry. -/
def seBitmapToResult (idx : IdxListEntry) (inres : Option WeightedResult) (nWanted nStart : ℕ) :
    Exec (Option WeightedResult) :=
  match inres with
  | none => .ok none
  | some inres => do
    let first ← inres.entryAt 0
    let maxDocid := first.recordNum
    let size ← checkInt (nWanted + 1)
    let entries := first :: Buffer.calloc WeightedEntry.zero size.toNat
    let s ← scanBlocks idx inres maxDocid nWanted nStart (bitblockId maxDocid.toNat + 2) 1 0 none
      ⟨entries, 0, 0⟩
    .ok (some (enumeratedResult inres s))

end Cheshire.Search
