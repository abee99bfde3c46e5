import Cheshire.Fault

/-!
# The database behind one index

An index keeps one B-tree file.  Its keys are the terms, whose value is the posting block
`idx_result`, and in a bitmap index also the keys of the bitmap blocks.  The positions of a
proximity index are in a second file.  The two kinds of keys of the first file never coincide, so
each kind has a map of its own here.  The running totals of the index are the `dict_info` record.
-/

namespace Cheshire.Index

/-- The characters of a C string. -/
abbrev Term := List UInt8

instance lawfulBEqTerm : LawfulBEq Term := inferInstance

structure IdxPostingEntry where
  recordNo : ℤ
  termFreq : ℤ
deriving DecidableEq, Repr

/-- What `CALLOC` leaves in a posting. -/
def IdxPostingEntry.zero : IdxPostingEntry := ⟨0, 0⟩

/-- `idx_result`, the value stored for a term.  `entries` are all the postings that the stored
block has room for; the first `num_entries` of them are in use. -/
structure IdxResult where
  termid : ℤ
  numEntries : ℤ
  totFreq : ℤ
  entries : List IdxPostingEntry
deriving DecidableEq, Repr

/-- The octets before the first posting of a block. -/
def HEADER_SIZE : ℕ := 24

/-- `sizeof(idx_posting_entry)` -/
def POSTING_SIZE : ℕ := 8

/-- `dataval.size` of a stored block. -/
def IdxResult.size (block : IdxResult) : ℕ := HEADER_SIZE + POSTING_SIZE * block.entries.length

structure DictInfo where
  totNumrecs : ℤ
  totOccur : ℤ
  recptr : ℤ
deriving DecidableEq, Repr

def BITMAP_BLOCKSIZE_BYTES : ℕ := 8192

def BITMAP_BLOCKSIZE_BITS : ℕ := 65536

/-- `bitmap_t[bitmap_blocksize_bytes]` -/
abbrev Block := Vector (BitVec 8) BITMAP_BLOCKSIZE_BYTES

/-- `bitblock_key`; the block number is a `short`. -/
structure BitblockKey where
  blockid : ℤ
  termid : ℤ
deriving DecidableEq, Repr

structure ProxIdxPosKey where
  termid : ℤ
  recnum : ℤ
deriving DecidableEq, Repr

def PROXIMITY : ℕ := 1 <<< 7
def BITMAPPED_TYPE : ℕ := 1 <<< 29

/-- `idx_list_entry`: one index with its files. -/
structure IdxListEntry where
  idxType : ℕ
  terms : Term → Option IdxResult
  blocks : BitblockKey → Option Block
  prox : ProxIdxPosKey → Option (List ℤ)
  globalData : DictInfo

def IdxListEntry.created (idxType : ℕ) : IdxListEntry where
  idxType := idxType
  terms := fun _ ↦ none
  blocks := fun _ ↦ none
  prox := fun _ ↦ none
  globalData := ⟨0, 0, 0⟩

/-- `idx->type & flag` as a condition. -/
def IdxListEntry.has (idx : IdxListEntry) (flag : ℕ) : Bool := idx.idxType &&& flag != 0

theorem has_of_idxType {idx idx' : IdxListEntry} (htype : idx'.idxType = idx.idxType) (flag : ℕ) :
    idx'.has flag = idx.has flag := by
  rw [IdxListEntry.has, IdxListEntry.has, htype]

/-- `db->put` under a term. -/
def IdxListEntry.putTerm (idx : IdxListEntry) (word : Term) (block : IdxResult) : IdxListEntry :=
  { idx with terms := Function.update idx.terms word (some block) }

/-- `db->del` of a term. -/
def IdxListEntry.delTerm (idx : IdxListEntry) (word : Term) : IdxListEntry :=
  { idx with terms := Function.update idx.terms word none }

/-- `db->put` under a block key. -/
def IdxListEntry.putBlock (idx : IdxListEntry) (key : BitblockKey) (block : Block) : IdxListEntry :=
  { idx with blocks := Function.update idx.blocks key (some block) }

end Cheshire.Index
