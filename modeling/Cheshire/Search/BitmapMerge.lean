import Cheshire.Search.BitmapResult
import Cheshire.Search.BooleanMerge

/-!
# Merging bitmap results

`se_bitmap_merge` takes over from the Boolean merges when an operand is a bitmap result.  Two
bitmaps are combined block by block, a bitmap and an ordinary result by testing the records of the
latter, and where neither is done the bitmap is turned into an ordinary result first.  The result is
always an ordinary one.
-/

namespace Cheshire.Search

open Lib Index

def combineByte (oper : ℕ) (byte1 byte2 : BitVec 8) : BitVec 8 :=
  if oper = BOOLEAN_AND then byte1 &&& byte2 else byte1 &&& ~~~byte2

/-- A set bit of a byte is stored as a record. -/
def storeBit (byte : BitVec 8) (base : ℤ) (bit : ℕ) (wtRes : NewSet) : Exec NewSet :=
  if byte &&& (1#8 <<< bit) != 0#8 then do
    let recordNum ← checkInt (base + bit + 1)
    wtRes.put { recordNum := recordNum, xtra := 0, weight := 1 }
  else .ok wtRes

def storeBits (byte : BitVec 8) (base : ℤ) : List ℕ → NewSet → Exec NewSet
  | [], wtRes => .ok wtRes
  | bit :: bits, wtRes => do
    let wtRes ← storeBit byte base bit wtRes
    storeBits byte base bits wtRes

/-- The loop over the bytes of two blocks; a zero byte is passed over. -/
def storeBytes (oper : ℕ) (resultBlock1 resultBlock2 : Block) (block : ℕ) :
    List ℕ → NewSet → Exec NewSet
  | [], wtRes => .ok wtRes
  | j :: js, wtRes => do
    let byte := combineByte oper (resultBlock1.byte j) (resultBlock2.byte j)
    let wtRes ←
      if byte != 0#8 then
        storeBits byte (block * BITMAP_BLOCKSIZE_BITS + j * 8) (List.range 8) wtRes
      else .ok wtRes
    storeBytes oper resultBlock1 resultBlock2 block js wtRes

/-- One side of the loop over the blocks: the block fetched last and what `se_fetch_bitmap_block`
left in its number, which is not looked at before the first block is there. -/
structure Fetched where
  maxBlockno : ℤ
  resultBlock : Option Block

/-- `result_block = se_fetch_bitmap_block(inset, dummy_recno, &max_blockno, result_block)`; without
a term there is no index to fetch from. -/
def Fetched.next (s : Fetched) (index : Option IdxListEntry) (inset : WeightedResult) (block : ℕ) :
    Exec (Block × Fetched) := do
  let idx ← deref index
  let (resultBlock, maxBlockno) := seFetchBitmapBlock idx inset (block * BITMAP_BLOCKSIZE_BITS + 1)
    s.maxBlockno s.resultBlock
  .ok (resultBlock, ⟨maxBlockno, some resultBlock⟩)

def storeBlocks (index1 index2 : Option IdxListEntry) (inset1 inset2 : WeightedResult) (oper : ℕ) :
    List ℕ → Fetched → Fetched → NewSet → Exec NewSet
  | [], _, _, wtRes => .ok wtRes
  | block :: blocks, s1, s2, wtRes => do
    let (resultBlock1, s1) ← s1.next index1 inset1 block
    let (resultBlock2, s2) ← s2.next index2 inset2 block
    let wtRes ← storeBytes oper resultBlock1 resultBlock2 block
      (List.range BITMAP_BLOCKSIZE_BYTES) wtRes
    storeBlocks index1 index2 inset1 inset2 oper blocks s1 s2 wtRes

def maxResult (oper : ℕ) (numHits1 numHits2 maxDocid1 : ℤ) : ℤ :=
  let maxResult := if numHits1 > 0 then numHits1 else maxDocid1
  let maxResult := if numHits2 > 0 ∧ numHits2 < maxResult then numHits2 else maxResult
  if oper = BOOLEAN_NOT ∧ numHits2 > 0 ∧ maxResult < numHits2 then numHits1 else maxResult

/-- `se_bitmaps_and`, for AND and for NOT. -/
def seBitmapsAnd (index1 index2 : Option IdxListEntry) (inset1 inset2 : WeightedResult)
    (oper : ℕ) : Exec WeightedResult := do
  let first1 ← inset1.entryAt 0
  let first2 ← inset2.entryAt 0
  let maxBlockno := min (bitblockId first1.recordNum.toNat + 1)
    (bitblockId first2.recordNum.toNat + 1)
  let size ← checkInt (maxResult oper inset1.numHits inset2.numHits first1.recordNum + 1)
  let wtRes ← storeBlocks index1 index2 inset1 inset2 oper (List.range maxBlockno) ⟨0, none⟩
    ⟨0, none⟩ (NewSet.alloc size.toNat)
  .ok (wtRes.finish inset1.filename none 0 0)

/-- `se_bitmap_to_result(inset, inset->entries[0].record_num, 1)`; without a term there is no index
and nothing to fetch unless a record is announced. -/
def bitmapToResult (index : Option IdxListEntry) (inset : WeightedResult) :
    Exec (Option WeightedResult) := do
  let first ← inset.entryAt 0
  if index.isNone ∧ first.recordNum > 1 then .error .nullDereference
  else
    let idx := index.getD (IdxListEntry.created BITMAPPED_TYPE)
    seBitmapToResult idx (some inset) first.recordNum.toNat 1

/-- The flags under which `se_bitmap_merge` sorts; GEORANK_RESULT is not among them. -/
def BITMAP_PROB_FLAGS : ℕ :=
  PROBABILISTIC_RESULT ||| OKAPI_RESULT ||| TFIDF_RESULT ||| CORI_RESULT ||| FUZZY_RESULT |||
    BLOB_RESULT

def bitmapTest (index : Option IdxListEntry) (bitmapSet : WeightedResult) (recordNum : ℤ)
    (currentBlockno : ℤ) : Exec (Bool × ℤ) := do
  let idx ← deref index
  let (resultBlock, currentBlockno) :=
    seFetchBitmapBlock idx bitmapSet recordNum.toNat currentBlockno none
  .ok (bitblockTest resultBlock recordNum.toNat, currentBlockno)

/-- `for (i=0; i < normal_set->num_hits; i++)` -/
def testLoop (index : Option IdxListEntry) (bitmapSet normalSet : WeightedResult) (oper : ℕ) :
    ℕ → ℕ → ℤ → NewSet → Exec NewSet
  | 0, _, _, _ => .error .unfinished
  | fuel + 1, i, currentBlockno, newset =>
    if (i : ℤ) < normalSet.numHits then do
      let entry ← normalSet.entryAt i
      let (test, currentBlockno) ← bitmapTest index bitmapSet entry.recordNum currentBlockno
      let newset ←
        if oper = BOOLEAN_AND ∧ test = true ∨ oper = BOOLEAN_NOT ∧ test = false then
          newset.put entry
        else .ok newset
      testLoop index bitmapSet normalSet oper fuel (i + 1) currentBlockno newset
    else .ok newset

/-- One operand is a bitmap and the operator is not the one that turns it around. -/
def bitmapAndNormal (callees : MergeCallees) (addweights : ℕ) (index : Option IdxListEntry)
    (bitmapSet normalSet : WeightedResult) (oper : ℕ) : Exec (Option WeightedResult) :=
  if oper = BOOLEAN_OR then do
    let converted ← bitmapToResult index bitmapSet
    seOrmerge callees (some normalSet) converted addweights
  else do
    let probFlag := normalSet.resultType &&& BITMAP_PROB_FLAGS
    -- the set is sorted in place
    let normalSet := if probFlag ≠ 0 then callees.seSortwtset normalSet else normalSet
    let size ← checkInt (normalSet.numHits + 1)
    let newset ← testLoop index bitmapSet normalSet oper (normalSet.numHits.toNat + 1) 0 0
      (NewSet.alloc size.toNat)
    .ok (some (ranked callees probFlag (newset.finish normalSet.filename none 0 0)))

/-- `se_bitmap_merge`.  The declaration of `se_ormerge` that it uses lacks the third parameter, so
`addweights` is whatever is passed for it. -/
def seBitmapMerge (callees : MergeCallees) (addweights : ℕ) (index1 index2 : Option IdxListEntry)
    (inset1 inset2 : Option WeightedResult) (oper : ℕ) : Exec (Option WeightedResult) :=
  match inset1, inset2 with
  | some inset1, some inset2 =>
    if inset1.has BITMAP_RESULT && inset2.has BITMAP_RESULT then
      if oper = BOOLEAN_AND ∨ oper = BOOLEAN_NOT then do
        let wtRes ← seBitmapsAnd index1 index2 inset1 inset2 oper
        .ok (some wtRes)
      else if oper = BOOLEAN_OR then do
        let converted1 ← bitmapToResult index1 inset1
        let converted2 ← bitmapToResult index2 inset2
        seOrmerge callees converted1 converted2 addweights
      else .error .uninitialized
    else if inset1.has BITMAP_RESULT then
      if oper = BOOLEAN_NOT then do
        let converted ← bitmapToResult index1 inset1
        seNotmerge callees converted (some inset2)
      else bitmapAndNormal callees addweights index1 inset1 inset2 oper
    else if inset2.has BITMAP_RESULT then
      bitmapAndNormal callees addweights index2 inset2 inset1 oper
    else .error .uninitialized
  | _, _ => .ok none

end Cheshire.Search
