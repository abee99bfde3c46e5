import Cheshire.Lib.Runs
import Cheshire.Search.BitmapResult

/-!
# A bitmap index stores a set of records for every term

Along every sequence of additions and deletions the blocks of a term hold exactly the records whose
last operation was an addition.  The proof keeps one invariant: the term ids are a separate range
for every term, and a bit is set exactly for the member that owns its block and position.
-/

namespace Cheshire.Search

open Lib Index

/-- One call of `in_add_bitmap_entry`: a single record, or the bitmap of some records that all fall
into the block of `recnum`. -/
inductive Addition where
  | single (recnum : RecordNumber)
  | batch (recnum : RecordNumber) (others : List RecordNumber)
      (hblock : ∀ r ∈ others, bitblockId r.1 = bitblockId recnum.1)

namespace Addition

def recnum : Addition → RecordNumber
  | single recnum => recnum
  | batch recnum _ _ => recnum

/-- The records that the call adds. -/
def records : Addition → List RecordNumber
  | single recnum => [recnum]
  | batch recnum others _ => recnum :: others

def bitmapOf (records : List RecordNumber) : Block :=
  records.foldr (fun r block ↦ bitblockSet block r.1) bitmapBlockAlloc

def inBitmap : Addition → Option Block
  | single _ => none
  | batch recnum others _ => some (bitmapOf (recnum :: others))

def nNewEntries (addition : Addition) : ℤ := addition.records.length

theorem recnum_mem_records (addition : Addition) : addition.recnum ∈ addition.records := by
  cases addition <;> simp [recnum, records]

theorem bitblockId_of_mem {addition : Addition} {r : RecordNumber} (hr : r ∈ addition.records) :
    bitblockId r.1 = bitblockId addition.recnum.1 := by
  cases addition with
  | single recnum =>
    rw [records, List.mem_singleton] at hr
    rw [hr, Addition.recnum]
  | batch recnum others hblock =>
    rw [records, List.mem_cons] at hr
    rcases hr with rfl | hr
    · rfl
    · exact hblock r hr

theorem bit_bitmapOf (records : List RecordNumber) (position : ℕ) :
    (bitmapOf records).bit position = true ↔ ∃ r ∈ records, bitblockBit r.1 = position := by
  induction records with
  | nil => simp [bitmapOf]
  | cons r records ih =>
    rw [bitmapOf, List.foldr_cons, bit_bitblockSet, Bool.or_eq_true, decide_eq_true_eq,
      ← bitmapOf, ih, List.exists_mem_cons_iff]

theorem bitmapNewBlock (addition : Addition) (found : Option Block) :
    ∃ block, Index.bitmapNewBlock found addition.recnum.1 addition.inBitmap addition.nNewEntries =
        .ok block ∧
      ∀ position, block.bit position = true ↔
        (∃ old, found = some old ∧ old.bit position = true) ∨
          ∃ r ∈ addition.records, bitblockBit r.1 = position := by
  cases addition with
  | single recnum =>
    refine ⟨_, if_pos ⟨rfl, rfl⟩, fun position ↦ ?_⟩
    cases found <;> simp [bit_bitblockSet, records, Addition.recnum, or_comm]
  | batch recnum others hblock =>
    cases found with
    | none =>
      refine ⟨bitmapOf (recnum :: others), by simp [Index.bitmapNewBlock, inBitmap, deref]; rfl,
        fun position ↦ ?_⟩
      simp only [bit_bitmapOf, records, reduceCtorEq, false_and, exists_false, false_or]
    | some old =>
      refine ⟨old.or (bitmapOf (recnum :: others)),
        by simp [Index.bitmapNewBlock, inBitmap, deref]; rfl, fun position ↦ ?_⟩
      simp only [Block.bit_or, Bool.or_eq_true, bit_bitmapOf, records, Option.some.injEq,
        exists_eq_left']

end Addition

inductive BitmapOp where
  | add (word : Term) (addition : Addition)
  | del (word : Term) (recnum : RecordNumber)

/-- An operation on the index.  A deletion looks up the id of its term. -/
def stepBitmap (idx : IdxListEntry) : BitmapOp → Exec IdxListEntry
  | .add word addition =>
    inAddBitmapEntry idx addition.recnum.1 word addition.inBitmap addition.nNewEntries
  | .del word recnum =>
    match idx.terms word with
    | some newinfo => .ok (inDelBitmapEntry idx recnum.1 newinfo.termid)
    | none => .ok idx

namespace BitmapOp

def word : BitmapOp → Term
  | add word _ => word
  | del word _ => word

def records : BitmapOp → List RecordNumber
  | add _ addition => addition.records
  | del _ recnum => [recnum]

def isAdd : BitmapOp → Bool
  | add _ _ => true
  | del _ _ => false

/-- The operation is on this record of this term. -/
def concerns (op : BitmapOp) (word : Term) (r : RecordNumber) : Bool :=
  decide (op.word = word ∧ r ∈ op.records)

end BitmapOp

def lastOperation (ops : List BitmapOp) (word : Term) (r : RecordNumber) : Option BitmapOp :=
  (ops.filter (·.concerns word r)).getLast?

/-- The last operation on the record was an addition. -/
def lastAdded (ops : List BitmapOp) (word : Term) (r : RecordNumber) : Prop :=
  ∃ op, lastOperation ops word r = some op ∧ op.isAdd = true

theorem not_lastAdded_nil (word : Term) (r : RecordNumber) : ¬lastAdded [] word r := by
  simp [lastAdded, lastOperation]

theorem lastAdded_append (ops : List BitmapOp) (op : BitmapOp) (word : Term) (r : RecordNumber) :
    lastAdded (ops ++ [op]) word r ↔
      if op.concerns word r then op.isAdd = true else lastAdded ops word r := by
  rw [lastAdded, lastOperation, List.filter_append]
  by_cases hop : op.concerns word r = true
  · simp [hop]
  · simp [hop, lastAdded, lastOperation]

def storedBit (idx : IdxListEntry) (blockno : ℕ) (termid : ℤ) (position : ℕ) : Prop :=
  ∃ block, idx.blocks ⟨blockno, termid⟩ = some block ∧ block.bit position = true

/-- The index stores the given records for every term. -/
structure Stores (idx : IdxListEntry) (members : Term → RecordNumber → Prop) : Prop where
  termid_lt : ∀ {word info}, idx.terms word = some info → info.termid < idx.globalData.recptr
  termid_inj : ∀ {word word' info info'}, idx.terms word = some info →
    idx.terms word' = some info' → info.termid = info'.termid → word = word'
  block_lt : ∀ {key block}, idx.blocks key = some block → key.termid < idx.globalData.recptr
  absent : ∀ {word}, idx.terms word = none → ∀ r, ¬members word r
  bits : ∀ {word info}, idx.terms word = some info → ∀ blockno position,
    storedBit idx blockno info.termid position ↔
      ∃ r, members word r ∧ r.1 / 65536 = blockno ∧ bitblockBit r.1 = position

theorem stores_created (idxType : ℕ) : Stores (IdxListEntry.created idxType) fun _ _ ↦ False where
  termid_lt h := by simp [IdxListEntry.created] at h
  termid_inj h := by simp [IdxListEntry.created] at h
  block_lt h := by simp [IdxListEntry.created] at h
  absent _ _ := id
  bits h := by simp [IdxListEntry.created] at h

theorem storedBit_putBlock (idx : IdxListEntry) (blockno blockno' : ℕ) (termid termid' : ℤ)
    (block : Block) (position : ℕ) :
    storedBit (idx.putBlock ⟨blockno', termid'⟩ block) blockno termid position ↔
      if blockno = blockno' ∧ termid = termid' then block.bit position = true
      else storedBit idx blockno termid position := by
  rw [storedBit, IdxListEntry.putBlock]
  by_cases hkey : blockno = blockno' ∧ termid = termid'
  · obtain ⟨rfl, rfl⟩ := hkey
    simp
  · have hne : (⟨blockno, termid⟩ : BitblockKey) ≠ ⟨blockno', termid'⟩ := by
      simpa [BitblockKey.mk.injEq] using hkey
    simp only [if_neg hkey, storedBit, Function.update_of_ne hne]

theorem bitmapTermEntry_termid (idx : IdxListEntry) (recnum : ℕ) (word : Term) (n : ℤ) :
    (∃ old, idx.terms word = some old ∧
        (bitmapTermEntry idx recnum word n).1.termid = old.termid ∧
        (bitmapTermEntry idx recnum word n).2.recptr = idx.globalData.recptr) ∨
      (idx.terms word = none ∧
        (bitmapTermEntry idx recnum word n).1.termid = idx.globalData.recptr ∧
        (bitmapTermEntry idx recnum word n).2.recptr = idx.globalData.recptr + 1) := by
  cases hterm : idx.terms word with
  | some old => exact .inl ⟨old, rfl, by simp [bitmapTermEntry, hterm]⟩
  | none => exact .inr ⟨rfl, by simp [bitmapTermEntry, hterm]⟩

section Steps

variable {idx : IdxListEntry} {members : Term → RecordNumber → Prop}

theorem Stores.add (h : Stores idx members) (word : Term) (addition : Addition) :
    ∃ idx', stepBitmap idx (.add word addition) = .ok idx' ∧
      Stores idx' fun w r ↦ (w = word ∧ r ∈ addition.records) ∨ members w r := by
  obtain ⟨block, hblock, hbits⟩ := addition.bitmapNewBlock
    (idx.blocks ⟨toShort (bitblockId addition.recnum.1),
      (bitmapTermEntry idx addition.recnum.1 word addition.nNewEntries).1.termid⟩)
  have hentry := bitmapTermEntry_termid idx addition.recnum.1 word addition.nNewEntries
  revert hblock hbits hentry
  rcases hpair : bitmapTermEntry idx addition.recnum.1 word addition.nNewEntries with
    ⟨info, globalData⟩
  rw [toShort_bitblockId]
  intro hblock hbits hentry
  refine ⟨({ idx with globalData := globalData }.putTerm word info).putBlock
    ⟨(addition.recnum.1 / 65536 : ℕ), info.termid⟩ block, ?_, ?_⟩
  · simp only [stepBitmap, inAddBitmapEntry, hpair, toShort_bitblockId]
    rw [hblock]
    rfl
  have hptr : idx.globalData.recptr ≤ globalData.recptr := by
    rcases hentry with ⟨-, -, -, hrec⟩ | ⟨-, -, hrec⟩ <;> simp only at hrec <;> omega
  have hid : info.termid < globalData.recptr := by
    rcases hentry with ⟨old, hold, hterm, hrec⟩ | ⟨-, hterm, hrec⟩
    · have := h.termid_lt hold
      simp only at hterm hrec
      omega
    · simp only at hterm hrec
      omega
  -- no other term has the id of the entry
  have hother : ∀ {w infoW}, w ≠ word → idx.terms w = some infoW → infoW.termid ≠ info.termid := by
    intro w infoW hne hw heq
    rcases hentry with ⟨old, hold, hterm, -⟩ | ⟨-, hterm, -⟩
    · exact hne (h.termid_inj hw hold (heq.trans hterm))
    · have := h.termid_lt hw
      simp only at hterm
      omega
  have hterms : ∀ w, (({ idx with globalData := globalData }.putTerm word info).putBlock
      ⟨(addition.recnum.1 / 65536 : ℕ), info.termid⟩ block).terms w =
      if w = word then some info else idx.terms w := by
    intro w
    simp [IdxListEntry.putTerm, IdxListEntry.putBlock, Function.update_apply]
  refine ⟨?_, ?_, ?_, ?_, ?_⟩
  · intro w infoW hw
    rw [hterms] at hw
    split at hw
    · cases hw
      exact hid
    · exact lt_of_lt_of_le (h.termid_lt hw) hptr
  · intro w w' infoW infoW' hw hw' heq
    rw [hterms] at hw hw'
    split at hw <;> split at hw'
    · simp_all
    · cases hw
      exact absurd heq.symm (hother ‹_› hw')
    · cases hw'
      exact absurd heq (hother ‹_› hw)
    · exact h.termid_inj hw hw' heq
  · intro key stored hkey
    simp only [IdxListEntry.putTerm, IdxListEntry.putBlock, Function.update_apply] at hkey ⊢
    split at hkey
    · rename_i hk
      rw [hk]
      exact hid
    · exact lt_of_lt_of_le (h.block_lt hkey) hptr
  · intro w hw r
    rw [hterms] at hw
    split at hw
    · cases hw
    · rintro (⟨heq, -⟩ | hr)
      · exact ‹w ≠ word› heq
      · exact h.absent hw r hr
  · intro w infoW hw blockno position
    have hold : ∀ {termid}, storedBit ({ idx with globalData := globalData }.putTerm word info)
        blockno termid position ↔ storedBit idx blockno termid position := Iff.rfl
    rw [hterms] at hw
    rw [storedBit_putBlock, hold]
    by_cases hword : w = word
    · subst hword
      rw [if_pos rfl, Option.some.injEq] at hw
      subst hw
      -- the bits that were stored before belong to the members
      have hbefore : storedBit idx blockno info.termid position ↔
          ∃ r, members w r ∧ r.1 / 65536 = blockno ∧ bitblockBit r.1 = position := by
        rcases hentry with ⟨old, hterm, hid', -⟩ | ⟨hterm, hid', -⟩
        · simp only at hid'
          rw [hid']
          exact h.bits hterm blockno position
        · simp only at hid'
          constructor
          · rintro ⟨stored, hstored, -⟩
            have := h.block_lt hstored
            simp only at this
            omega
          · rintro ⟨r, hr, -⟩
            exact absurd hr (h.absent hterm r)
      by_cases hno : blockno = addition.recnum.1 / 65536
      · subst hno
        rw [if_pos ⟨rfl, rfl⟩, hbits]
        rw [storedBit] at hbefore
        rw [hbefore]
        constructor
        · rintro (⟨r, hr, hblockno, hbit⟩ | ⟨r, hr, hbit⟩)
          · exact ⟨r, .inr hr, hblockno, hbit⟩
          · refine ⟨r, .inl ⟨rfl, hr⟩, ?_, hbit⟩
            simpa only [bitblockId_eq] using Addition.bitblockId_of_mem hr
        · rintro ⟨r, ⟨-, hr⟩ | hr, hblockno, hbit⟩
          · exact .inr ⟨r, hr, hbit⟩
          · exact .inl ⟨r, hr, hblockno, hbit⟩
      · rw [if_neg fun hand ↦ hno hand.1, hbefore]
        refine exists_congr fun r ↦ and_congr_left fun hr ↦ ?_
        refine ⟨.inr, fun hor ↦ hor.resolve_left fun hadd ↦ hno ?_⟩
        rw [← hr.1]
        simpa only [bitblockId_eq] using Addition.bitblockId_of_mem hadd.2
    · rw [if_neg hword] at hw
      rw [if_neg fun hand ↦ hother hword hw hand.2, h.bits hw]
      simp only [hword, false_and, false_or]

theorem Stores.del (h : Stores idx members) (word : Term) (recnum : RecordNumber) :
    ∃ idx', stepBitmap idx (.del word recnum) = .ok idx' ∧
      Stores idx' fun w r ↦ ¬(w = word ∧ r = recnum) ∧ members w r := by
  rw [stepBitmap]
  cases hterm : idx.terms word with
  | none =>
    refine ⟨idx, rfl, h.termid_lt, h.termid_inj, h.block_lt,
      fun hw r hr ↦ h.absent hw r hr.2, fun {w info} hw blockno position ↦ ?_⟩
    rw [h.bits hw]
    have hne : w ≠ word := by
      rintro rfl
      rw [hterm] at hw
      cases hw
    simp only [hne, false_and, not_false_eq_true, true_and]
  | some newinfo =>
    simp only [inDelBitmapEntry, toShort_bitblockId]
    cases hblock : idx.blocks ⟨(recnum.1 / 65536 : ℕ), newinfo.termid⟩ with
    | none =>
      refine ⟨idx, rfl, h.termid_lt, h.termid_inj, h.block_lt,
        fun hw r hr ↦ h.absent hw r hr.2, fun {w info} hw blockno position ↦ ?_⟩
      rw [h.bits hw]
      -- the record is no member, because its block is missing
      have hnot : ¬members word recnum := by
        intro hmem
        obtain ⟨stored, hstored, -⟩ :=
          (h.bits hterm (recnum.1 / 65536) (bitblockBit recnum.1)).mpr ⟨recnum, hmem, rfl, rfl⟩
        rw [hblock] at hstored
        cases hstored
      refine exists_congr fun r ↦ and_congr_left fun _ ↦ ⟨fun hr ↦ ⟨?_, hr⟩, And.right⟩
      rintro ⟨rfl, rfl⟩
      exact hnot hr
    | some block =>
      refine ⟨idx.putBlock ⟨(recnum.1 / 65536 : ℕ), newinfo.termid⟩
        (bitblockClear block recnum.1), rfl, h.termid_lt, h.termid_inj, ?_,
        fun hw r hr ↦ h.absent hw r hr.2, fun {w info} hw blockno position ↦ ?_⟩
      · intro key stored hkey
        simp only [IdxListEntry.putBlock, Function.update_apply] at hkey ⊢
        split at hkey
        · rename_i hk
          rw [hk]
          exact h.termid_lt hterm
        · exact h.block_lt hkey
      have hw' : idx.terms w = some info := hw
      rw [storedBit_putBlock]
      by_cases hkey : blockno = recnum.1 / 65536 ∧ info.termid = newinfo.termid
      · obtain ⟨rfl, hid⟩ := hkey
        obtain rfl : w = word := h.termid_inj hw' hterm hid
        have hbefore := h.bits hw' (recnum.1 / 65536) position
        rw [hid, storedBit, hblock] at hbefore
        simp only [Option.some.injEq, exists_eq_left'] at hbefore
        rw [if_pos ⟨rfl, hid⟩, bit_bitblockClear, Bool.and_eq_true, hbefore]
        simp only [Bool.not_eq_true', decide_eq_false_iff_not]
        constructor
        · rintro ⟨hne, r, hr, hblockno, hbit⟩
          refine ⟨r, ⟨?_, hr⟩, hblockno, hbit⟩
          rintro ⟨-, rfl⟩
          exact hne hbit
        · rintro ⟨r, ⟨hne, hr⟩, hblockno, hbit⟩
          refine ⟨fun heq ↦ hne ⟨trivial, Subtype.ext ?_⟩, r, hr, hblockno, hbit⟩
          exact bitblock_injective r.2.1 recnum.2.1 hblockno (hbit.trans heq.symm)
      · rw [if_neg hkey, h.bits hw']
        refine exists_congr fun r ↦ and_congr_left fun hr ↦ ⟨fun hmem ↦ ⟨?_, hmem⟩, And.right⟩
        rintro ⟨rfl, rfl⟩
        rw [hw', Option.some.injEq] at hterm
        exact hkey ⟨hr.1.symm, by rw [hterm]⟩

/-- Every operation keeps the invariant, for the history extended by it. -/
theorem Stores.step {past : List BitmapOp} (h : Stores idx (lastAdded past)) (op : BitmapOp) :
    ∃ idx', stepBitmap idx op = .ok idx' ∧ Stores idx' (lastAdded (past ++ [op])) := by
  have hcongr : ∀ {idx' : IdxListEntry} {members'}, Stores idx' members' →
      (∀ w r, members' w r ↔ lastAdded (past ++ [op]) w r) →
      Stores idx' (lastAdded (past ++ [op])) := by
    intro idx' members' hstores heq
    rwa [show members' = lastAdded (past ++ [op]) from funext₂ fun w r ↦ propext (heq w r)]
      at hstores
  cases op with
  | add word addition =>
    obtain ⟨idx', hstep, hstores⟩ := h.add word addition
    refine ⟨idx', hstep, hcongr hstores fun w r ↦ ?_⟩
    rw [lastAdded_append]
    by_cases hop : word = w ∧ r ∈ addition.records
    · simp [BitmapOp.concerns, BitmapOp.word, BitmapOp.records, BitmapOp.isAdd, hop]
    · have hop' : ¬(w = word ∧ r ∈ addition.records) := fun hand ↦ hop ⟨hand.1.symm, hand.2⟩
      simp [BitmapOp.concerns, BitmapOp.word, BitmapOp.records, hop, hop']
  | del word recnum =>
    obtain ⟨idx', hstep, hstores⟩ := h.del word recnum
    refine ⟨idx', hstep, hcongr hstores fun w r ↦ ?_⟩
    rw [lastAdded_append]
    by_cases hop : word = w ∧ r = recnum
    · simp [BitmapOp.concerns, BitmapOp.word, BitmapOp.records, BitmapOp.isAdd, hop]
    · have hop' : ¬(w = word ∧ r = recnum) := fun hand ↦ hop ⟨hand.1.symm, hand.2⟩
      simp [BitmapOp.concerns, BitmapOp.word, BitmapOp.records, hop, hop']

end Steps

theorem stores_run (idxType : ℕ) (ops : List BitmapOp) :
    ∃ idx, Runs.run stepBitmap (IdxListEntry.created idxType) ops = .ok idx ∧
      Stores idx (lastAdded ops) := by
  refine Runs.run_history (fun past idx ↦ Stores idx (lastAdded past)) ?_
    (fun past idx op h ↦ h.step op) ops
  rw [show lastAdded [] = fun _ _ ↦ False from
    funext₂ fun w r ↦ propext (iff_false_intro (not_lastAdded_nil w r))]
  exact stores_created idxType

/-- Fetch the block of a record with the result of a search for the term, without a last block as
`se_bitmap_merge` does, and test the bit. -/
def fetchAndTest (idx : IdxListEntry) (wordList : Bool) (word : Term) (r : RecordNumber)
    (block : ℤ) : Bool :=
  match idx.terms word with
  | some _ =>
    bitblockTest (seFetchBitmapBlock idx (seBitmap idx wordList word) r.1 block none).1 r.1
  | none => false

theorem fetchAndTest_eq (idx : IdxListEntry) (wordList : Bool) (word : Term) (r : RecordNumber)
    (block : ℤ) : fetchAndTest idx wordList word r block = true ↔
      ∃ info, idx.terms word = some info ∧
        storedBit idx (r.1 / 65536) info.termid (bitblockBit r.1) := by
  rw [fetchAndTest]
  cases hterm : idx.terms word with
  | none => simp
  | some info =>
    have hid : termidAt (seBitmap idx wordList word) 0 = info.termid := by
      simp [termidAt, seBitmap, hterm]
    have hand : (seBitmap idx wordList word).termid.drop 1 = [] := by
      simp [seBitmap, hterm]
    simp only [Option.some.injEq, exists_eq_left', storedBit, seFetchBitmapBlock, hid, hand,
      toShort_bitblockId, andTerms, ite_self, bitblockTest_eq]
    cases idx.blocks ⟨(r.1 / 65536 : ℕ), info.termid⟩ <;> simp

theorem Stores.fetchAndTest {idx : IdxListEntry} {members : Term → RecordNumber → Prop}
    (h : Stores idx members) (wordList : Bool) (word : Term) (r : RecordNumber) (block : ℤ) :
    fetchAndTest idx wordList word r block = true ↔ members word r := by
  rw [fetchAndTest_eq]
  constructor
  · rintro ⟨info, hterm, hbit⟩
    obtain ⟨r', hr', hblockno, hposition⟩ := (h.bits hterm _ _).mp hbit
    rwa [Subtype.ext (bitblock_injective r.2.1 r'.2.1 hblockno.symm hposition.symm)]
  · intro hmem
    cases hterm : idx.terms word with
    | none => exact absurd hmem (h.absent hterm r)
    | some info => exact ⟨info, rfl, (h.bits hterm _ _).mpr ⟨r, hmem, rfl, rfl⟩⟩

/-- After every sequence of operations, the test of a record under a term succeeds exactly when the
last operation on both was an addition.  Two records never share block and position, and an
operation leaves the tests of every other term alone. -/
theorem bitmapStore_faithful (idxType : ℕ) (ops : List BitmapOp) :
    (∃ idx, Runs.run stepBitmap (IdxListEntry.created idxType) ops = .ok idx ∧
      (∀ wordList word r block,
        fetchAndTest idx wordList word r block = true ↔ lastAdded ops word r) ∧
      ∀ op, ∃ idx', stepBitmap idx op = .ok idx' ∧
        ∀ wordList word r block, op.word ≠ word →
          fetchAndTest idx' wordList word r block = fetchAndTest idx wordList word r block) ∧
    ∀ r r' : RecordNumber, bitblockId r.1 = bitblockId r'.1 → bitblockBit r.1 = bitblockBit r'.1 →
      r = r' := by
  refine ⟨?_, ?_⟩
  · obtain ⟨idx, hrun, hstores⟩ := stores_run idxType ops
    refine ⟨idx, hrun, hstores.fetchAndTest, fun op ↦ ?_⟩
    obtain ⟨idx', hstep, hstores'⟩ := hstores.step op
    refine ⟨idx', hstep, fun wordList word r block hne ↦ ?_⟩
    rw [Bool.eq_iff_iff, hstores.fetchAndTest, hstores'.fetchAndTest, lastAdded_append,
      BitmapOp.concerns, decide_eq_false fun hand ↦ hne hand.1]
    simp
  · intro r r' hblock hbit
    rw [bitblockId_eq, bitblockId_eq] at hblock
    exact Subtype.ext (bitblock_injective r.2.1 r'.2.1 hblock hbit)

end Cheshire.Search
