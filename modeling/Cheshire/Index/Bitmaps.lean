import Cheshire.Index.Database

/-!
# Bitmap indexes

A bitmap index stores the records of a term as bits in blocks of 65536.  The block of a record is
its number shifted right, the bit its number less one masked; blocks are created when a record
first falls into them.
-/

namespace Cheshire.Index

def bitblockId (recno : ℕ) : ℕ := recno >>> 16

def bitblockBit (recno : ℕ) : ℕ := (recno - 1) &&& 0xffff

def bitmapByte (bit : ℕ) : ℕ := bit >>> 3

def bitmapMask (bit : ℕ) : BitVec 8 := 1#8 <<< (bit &&& 0x7)

/-- The conversion to `short` of a block number. -/
def toShort (value : ℤ) : ℤ := value.bmod (2 ^ 16)

def bitmapBlockAlloc : Block := Vector.replicate BITMAP_BLOCKSIZE_BYTES 0#8

/-- `name[byte]` -/
def Block.byte (block : Block) (byte : ℕ) : BitVec 8 := block[byte]?.getD 0#8

def bitblockSet (block : Block) (recno : ℕ) : Block :=
  let bit := bitblockBit recno
  block.setIfInBounds (bitmapByte bit) (Block.byte block (bitmapByte bit) ||| bitmapMask bit)

def bitblockClear (block : Block) (recno : ℕ) : Block :=
  let bit := bitblockBit recno
  block.setIfInBounds (bitmapByte bit) (Block.byte block (bitmapByte bit) &&& ~~~bitmapMask bit)

/-- `bitblock_test` as a condition. -/
def bitblockTest (block : Block) (recno : ℕ) : Bool :=
  let bit := bitblockBit recno
  (Block.byte block (bitmapByte bit) &&& bitmapMask bit) != 0#8

/-- `b[i] |= in_bitmap[i]` for all bytes of a block. -/
def Block.or (block inBitmap : Block) : Block := Vector.zipWith (· ||| ·) block inBitmap

/-- `accum_block[j] &= result_block[j]` for all bytes of a block. -/
def Block.and (block other : Block) : Block := Vector.zipWith (· &&& ·) block other

/-- The entry of the term, updated or new, with the totals that belong to it. -/
def bitmapTermEntry (idx : IdxListEntry) (recnum : ℕ) (word : Term) (nNewEntries : ℤ) :
    IdxResult × DictInfo :=
  let globalData := { idx.globalData with
    totOccur := idx.globalData.totOccur + nNewEntries
    totNumrecs := idx.globalData.totNumrecs + nNewEntries }
  match idx.terms word with
  | some info =>
    let first := info.entries.headD IdxPostingEntry.zero
    ({ info with
        totFreq := info.totFreq + nNewEntries
        numEntries := info.numEntries + nNewEntries
        entries := info.entries.set 0 ⟨recnum, first.termFreq + 1⟩ }, globalData)
  | none =>
    ({ termid := idx.globalData.recptr
       numEntries := nNewEntries
       totFreq := nNewEntries
       entries := [⟨recnum, 1⟩] },
      { globalData with recptr := idx.globalData.recptr + 1 })

/-- The block after the addition; a missing bitmap is followed unless a single record is added. -/
def bitmapNewBlock (found : Option Block) (recnum : ℕ) (inBitmap : Option Block)
    (nNewEntries : ℤ) : Exec Block :=
  if nNewEntries = 1 ∧ inBitmap = none then
    .ok (bitblockSet (found.getD bitmapBlockAlloc) recnum)
  else do
    let inBitmap ← deref inBitmap
    match found with
    | some block => .ok (block.or inBitmap)
    | none => .ok inBitmap

/-- `in_add_bitmap_entry`: one record when `in_bitmap` is null, otherwise a block of
`n_new_entries` records, of which `recnum` is one. -/
def inAddBitmapEntry (idx : IdxListEntry) (recnum : ℕ) (word : Term) (inBitmap : Option Block)
    (nNewEntries : ℤ) : Exec IdxListEntry := do
  let (info, globalData) := bitmapTermEntry idx recnum word nNewEntries
  let key : BitblockKey := ⟨toShort (bitblockId recnum), info.termid⟩
  let block ← bitmapNewBlock (idx.blocks key) recnum inBitmap nNewEntries
  .ok ({ idx with globalData := globalData }.putTerm word info |>.putBlock key block)

def inDelBitmapEntry (idx : IdxListEntry) (recnum : ℕ) (termid : ℤ) : IdxListEntry :=
  let key : BitblockKey := ⟨toShort (bitblockId recnum), termid⟩
  match idx.blocks key with
  | some block => idx.putBlock key (bitblockClear block recnum)
  | none => idx

def Block.bit (block : Block) (position : ℕ) : Bool :=
  (Block.byte block (position / 8)).getLsbD (position % 8)

section Bits

variable {block other : Block}

theorem bitblockId_eq (recno : ℕ) : bitblockId recno = recno / 65536 := by
  rw [bitblockId, Nat.shiftRight_eq_div_pow]

theorem bitblockBit_eq (recno : ℕ) : bitblockBit recno = (recno - 1) % 65536 :=
  Nat.and_two_pow_sub_one_eq_mod (recno - 1) 16

theorem bitblockBit_lt (recno : ℕ) : bitblockBit recno < 65536 := by
  rw [bitblockBit_eq]
  exact Nat.mod_lt _ (by decide)

theorem bitmapByte_eq (bit : ℕ) : bitmapByte bit = bit / 8 := by
  rw [bitmapByte, Nat.shiftRight_eq_div_pow]

theorem bitmapMask_eq (bit : ℕ) : bitmapMask bit = BitVec.twoPow 8 (bit % 8) := by
  rw [bitmapMask, BitVec.twoPow]
  exact congrArg (1#8 <<< ·) (Nat.and_two_pow_sub_one_eq_mod bit 3)

@[simp] theorem byte_setIfInBounds_self (byte : ℕ) (hbyte : byte < BITMAP_BLOCKSIZE_BYTES)
    (value : BitVec 8) : Block.byte (block.setIfInBounds byte value) byte = value := by
  simp [Block.byte, hbyte]

theorem byte_setIfInBounds_ne {byte position : ℕ} (hne : byte ≠ position) (value : BitVec 8) :
    Block.byte (block.setIfInBounds byte value) position = Block.byte block position := by
  simp [Block.byte, Vector.getElem?_setIfInBounds_ne hne]

theorem bit_setIfInBounds {bit : ℕ} (hbit : bit < 65536) (value : BitVec 8) (flag : Bool)
    (hvalue : ∀ k < 8, value.getLsbD k =
      if bit % 8 = k then flag else (Block.byte block (bit / 8)).getLsbD k) (position : ℕ) :
    Block.bit (block.setIfInBounds (bit / 8) value) position =
      if bit = position then flag else block.bit position := by
  by_cases hbyte : bit / 8 = position / 8
  · rw [Block.bit, ← hbyte, byte_setIfInBounds_self _ (by
      rw [BITMAP_BLOCKSIZE_BYTES]
      omega), hvalue _ (Nat.mod_lt _ (by decide))]
    have hiff : bit % 8 = position % 8 ↔ bit = position := by omega
    simp only [hiff, Block.bit, hbyte]
  · have hne : bit ≠ position := fun h ↦ hbyte (by rw [h])
    rw [if_neg hne, Block.bit, byte_setIfInBounds_ne hbyte, Block.bit]

theorem bit_bitblockSet (recno position : ℕ) :
    (bitblockSet block recno).bit position =
      (decide (bitblockBit recno = position) || block.bit position) := by
  rw [bitblockSet, bitmapByte_eq, bitmapMask_eq,
    bit_setIfInBounds (bitblockBit_lt recno) _ true]
  · by_cases h : bitblockBit recno = position <;> simp [h]
  · intro k hk
    by_cases h : bitblockBit recno % 8 = k
    · simp [h, hk]
    · simp [h]

theorem bit_bitblockClear (recno position : ℕ) :
    (bitblockClear block recno).bit position =
      (!decide (bitblockBit recno = position) && block.bit position) := by
  rw [bitblockClear, bitmapByte_eq, bitmapMask_eq,
    bit_setIfInBounds (bitblockBit_lt recno) _ false]
  · by_cases h : bitblockBit recno = position <;> simp [h]
  · intro k hk
    by_cases h : bitblockBit recno % 8 = k
    · simp [h]
    · simp only [BitVec.getLsbD_and, BitVec.getLsbD_not, BitVec.getLsbD_twoPow, h, hk,
        decide_true, decide_false, Bool.and_false, Bool.not_false, Bool.and_true, if_false]

theorem and_mask_bne_zero (byte : BitVec 8) {bit : ℕ} (hbit : bit < 8) :
    (byte &&& (1#8 <<< bit) != 0#8) = byte.getLsbD bit := by
  rw [← BitVec.twoPow_eq, BitVec.and_twoPow]
  have hpow : BitVec.twoPow 8 bit ≠ 0#8 := by
    intro heq
    have hzero := congrArg (BitVec.getLsbD · bit) heq
    simp [hbit] at hzero
  cases byte.getLsbD bit with
  | true => simpa using hpow
  | false => simp

theorem bitblockTest_eq (recno : ℕ) :
    bitblockTest block recno = block.bit (bitblockBit recno) := by
  have hmask : bitblockBit recno &&& 0x7 = bitblockBit recno % 8 :=
    Nat.and_two_pow_sub_one_eq_mod _ 3
  rw [bitblockTest, bitmapByte_eq, bitmapMask, hmask,
    and_mask_bne_zero _ (Nat.mod_lt _ (by decide)), Block.bit]

@[simp] theorem bit_bitmapBlockAlloc (position : ℕ) : bitmapBlockAlloc.bit position = false := by
  have hzero : Block.byte bitmapBlockAlloc (position / 8) = 0#8 := by
    rw [Block.byte, bitmapBlockAlloc, Vector.getElem?_replicate]
    split <;> rfl
  rw [Block.bit, hzero, BitVec.getLsbD_zero]

theorem Block.bit_or (position : ℕ) :
    (block.or other).bit position = (block.bit position || other.bit position) := by
  have hbyte : Block.byte (block.or other) (position / 8) =
      Block.byte block (position / 8) ||| Block.byte other (position / 8) := by
    by_cases hlt : position / 8 < BITMAP_BLOCKSIZE_BYTES
    · simp [Block.byte, Block.or, hlt]
    · simp [Block.byte, Block.or, hlt]
  rw [Block.bit, hbyte, BitVec.getLsbD_or, Block.bit, Block.bit]

end Bits

/-- The record numbers of a file: positive values of a C `int`. -/
abbrev RecordNumber := { recno : ℕ // 0 < recno ∧ recno ≤ INT_MAX }

instance : LawfulBEq RecordNumber := inferInstance

theorem toShort_bitblockId (recno : RecordNumber) :
    toShort (bitblockId recno.1) = (recno.1 / 65536 : ℕ) := by
  have hle : recno.1 ≤ 2 ^ 31 - 1 := recno.2.2
  rw [bitblockId_eq, toShort, Int.bmod_eq_of_le] <;> omega

theorem bitblock_injective {recno recno' : ℕ} (hpos : 0 < recno) (hpos' : 0 < recno')
    (hblock : recno / 65536 = recno' / 65536) (hbit : bitblockBit recno = bitblockBit recno') :
    recno = recno' := by
  rw [bitblockBit_eq, bitblockBit_eq] at hbit
  omega

end Cheshire.Index
