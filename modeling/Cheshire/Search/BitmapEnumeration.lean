import Cheshire.Lib.Window
import Cheshire.Search.BitmapMembership

/-!
# Enumerating a bitmap result

`se_bitmap_to_result` walks over the blocks of a term and decodes every bit into a record number.
The decoding takes the block number from the first record of the block, although the record at a
multiple of 65536 is stored in the block that its own number names: it comes out as the next
multiple.  The walk ends before the block whose first record is not below the last record that was
added.  So the walk meets the added records position by position, each as itself exactly when it
decodes.
-/

namespace Cheshire.Search

open Lib Index

def byteRecords (block : Block) (blockno : ℤ) (j : ℕ) : List ℤ :=
  ((List.range 8).filter fun bit ↦ block.byte j &&& (1#8 <<< bit) != 0#8).map
    fun bit : ℕ ↦ blockno * BITMAP_BLOCKSIZE_BITS + j * 8 + bit + 1

def blockRecords (block : Block) (blockno : ℤ) : List ℤ :=
  (List.range BITMAP_BLOCKSIZE_BYTES).flatMap (byteRecords block blockno)

/-- The loops have met the records `seen`: a window of them is stored over the allocated entries,
of which all behind the wanted ones are as they were. -/
structure Enumerated (nWanted nStart : ℕ) (allocated : List WeightedEntry) (seen : List ℤ)
    (s : Enumeration) : Prop where
  skip : s.numHits < nWanted → s.skip = min nStart seen.length
  numHits : s.numHits = (window nWanted nStart seen).length
  records : s.entries.map WeightedEntry.recordNum = window nWanted nStart seen ++
    (allocated.map WeightedEntry.recordNum).drop (window nWanted nStart seen).length
  untouched : s.entries.drop nWanted = allocated.drop nWanted

variable {blockno : ℤ}

section Loops

variable {nWanted nStart : ℕ} {allocated : List WeightedEntry} {seen : List ℤ} {s : Enumeration}

theorem enumerated_start (nWanted nStart : ℕ) (allocated : List WeightedEntry) :
    Enumerated nWanted nStart allocated [] ⟨allocated, 0, 0⟩ where
  skip _ := by simp
  numHits := by simp
  records := by simp
  untouched := rfl

theorem Enumerated.more (h : Enumerated nWanted nStart allocated seen s)
    (hfull : ¬s.numHits < nWanted) (rest : List ℤ) :
    Enumerated nWanted nStart allocated (seen ++ rest) s := by
  have hwindow : window nWanted nStart (seen ++ rest) = window nWanted nStart seen := by
    refine window_append_full ?_
    rw [← h.numHits]
    omega
  exact ⟨fun hopen ↦ absurd hopen hfull, by rw [hwindow, h.numHits],
    by rw [hwindow, h.records], h.untouched⟩

/-- The decoded number is an `int`. -/
def InRange (recordNum : ℤ) : Prop := 0 ≤ recordNum ∧ recordNum ≤ 2 ^ 31 - 1

theorem checkInt_of_inRange {value : ℤ} (hvalue : InRange value) : checkInt value = .ok value :=
  if_pos ⟨by have := hvalue.1; omega, hvalue.2⟩

theorem Enumerated.takeBit (h : Enumerated nWanted nStart allocated seen s)
    (hallocated : nWanted < allocated.length) {recordNum : ℤ} (hrange : InRange recordNum) :
    ∃ s', Search.takeBit nWanted nStart recordNum s = .ok s' ∧
      Enumerated nWanted nStart allocated (seen ++ [recordNum]) s' := by
  rw [Search.takeBit]
  by_cases hopen : s.numHits < nWanted
  · have hskip := h.skip hopen
    by_cases hstart : s.skip < nStart
    · -- the record is skipped
      have hseen : seen.length < nStart := by omega
      have hwindow := window_append_skip nWanted hseen recordNum
      refine ⟨_, if_pos hstart, fun _ ↦ ?_, by rw [hwindow, h.numHits], by rw [hwindow, h.records],
        h.untouched⟩
      simp only [List.length_append, List.length_singleton]
      omega
    · -- the record is stored in the first free entry
      have hseen : nStart ≤ seen.length := by omega
      have hwindow := window_append_keep hseen (h.numHits ▸ hopen) recordNum
      have hlength : s.entries.length = allocated.length := by
        have := congrArg List.length h.records
        simp only [List.length_map, List.length_append, List.length_drop] at this
        have := length_window_le nWanted nStart seen
        omega
      have hcell : s.numHits < s.entries.length := by omega
      rw [if_neg hstart, if_pos hopen, checkInt_of_inRange hrange, List.getElem?_eq_getElem hcell]
      refine ⟨_, rfl, fun _ ↦ ?_, ?_, ?_, ?_⟩
      · simp only [List.length_append, List.length_singleton]
        omega
      · simp only [hwindow, List.length_append, List.length_singleton, h.numHits]
      · simp only [List.map_set, h.records, hwindow]
        have hrest : ((allocated.map WeightedEntry.recordNum).drop
            (window nWanted nStart seen).length).set 0 recordNum = recordNum ::
              (allocated.map WeightedEntry.recordNum).drop
                ((window nWanted nStart seen).length + 1) := by
          rw [List.drop_eq_getElem_cons (by rw [List.length_map, ← h.numHits]; omega),
            List.set_cons_zero]
        rw [h.numHits, List.set_append_right _ _ le_rfl, Nat.sub_self, hrest]
        simp
      · simp only [List.drop_set_of_lt hopen]
        exact h.untouched
  · have hmore := h.more hopen [recordNum]
    by_cases hstart : s.skip < nStart
    · exact ⟨_, if_pos hstart, fun hlt ↦ absurd hlt hopen, hmore.numHits, hmore.records,
        hmore.untouched⟩
    · exact ⟨s, by rw [if_neg hstart, if_neg hopen], hmore⟩

theorem Enumerated.scanBits (h : Enumerated nWanted nStart allocated seen s)
    (hallocated : nWanted < allocated.length) (byte : BitVec 8) {base : ℤ} (bits : List ℕ)
    (hrange : ∀ bit ∈ bits, InRange (base + bit + 1)) :
    ∃ s', Search.scanBits nWanted nStart byte base bits s = .ok s' ∧
      Enumerated nWanted nStart allocated
        (seen ++ (bits.filter fun bit ↦ byte &&& (1#8 <<< bit) != 0#8).map
          fun bit : ℕ ↦ base + bit + 1) s' := by
  induction bits generalizing seen s with
  | nil => exact ⟨s, rfl, by simpa using h⟩
  | cons bit bits ih =>
    rw [Search.scanBits]
    have hrange' := fun b hb ↦ hrange b (List.mem_cons_of_mem _ hb)
    cases hbit : byte &&& (1#8 <<< bit) != 0#8 with
    | true =>
      obtain ⟨next, hnext, hmet⟩ := h.takeBit hallocated (hrange bit List.mem_cons_self)
      obtain ⟨s', hs', hmet'⟩ := ih hmet hrange'
      refine ⟨s', by rw [scanBit, if_pos hbit, hnext]; exact hs', ?_⟩
      rw [List.filter_cons, if_pos hbit]
      simpa using hmet'
    | false =>
      obtain ⟨s', hs', hmet'⟩ := ih h hrange'
      have hbit' := Bool.eq_false_iff.mp hbit
      refine ⟨s', by rw [scanBit, if_neg hbit']; exact hs', ?_⟩
      rwa [List.filter_cons, if_neg hbit']

theorem Enumerated.scanByte (h : Enumerated nWanted nStart allocated seen s)
    (hallocated : nWanted < allocated.length) (block : Block) (j : ℕ)
    (hrange : ∀ bit ∈ List.range 8, InRange (blockno * BITMAP_BLOCKSIZE_BITS + j * 8 + bit + 1)) :
    ∃ s', Search.scanByte nWanted nStart block blockno j s = .ok s' ∧
      Enumerated nWanted nStart allocated (seen ++ byteRecords block blockno j) s' := by
  rw [Search.scanByte]
  by_cases hzero : (block.byte j != 0#8) = true
  · rw [if_pos hzero]
    exact h.scanBits hallocated _ _ hrange
  · have hnil : byteRecords block blockno j = [] := by
      rw [bne_iff_ne, not_not] at hzero
      simp [byteRecords, hzero]
    exact ⟨s, if_neg hzero, by rwa [hnil, List.append_nil]⟩

theorem Enumerated.scanBytes (h : Enumerated nWanted nStart allocated seen s)
    (hallocated : nWanted < allocated.length) (block : Block) (js : List ℕ)
    (hrange : ∀ j ∈ js, ∀ bit ∈ List.range 8,
      InRange (blockno * BITMAP_BLOCKSIZE_BITS + j * 8 + bit + 1)) :
    ∃ s', Search.scanBytes nWanted nStart block blockno js s = .ok s' ∧
      Enumerated nWanted nStart allocated (seen ++ js.flatMap (byteRecords block blockno)) s' := by
  induction js generalizing seen s with
  | nil => exact ⟨s, rfl, by simpa using h⟩
  | cons j js ih =>
    rw [Search.scanBytes]
    by_cases hopen : s.numHits < nWanted
    · obtain ⟨next, hnext, hmet⟩ := h.scanByte hallocated block j (hrange j List.mem_cons_self)
      obtain ⟨s', hs', hmet'⟩ := ih hmet fun j' hj' ↦ hrange j' (List.mem_cons_of_mem _ hj')
      refine ⟨s', by rw [if_pos hopen, hnext]; exact hs', ?_⟩
      rwa [List.flatMap_cons, ← List.append_assoc]
    · exact ⟨s, if_neg hopen, h.more hopen _⟩

end Loops

theorem mem_blockRecords {block : Block} {x : ℤ} : x ∈ blockRecords block blockno ↔
      ∃ position : ℕ, position < 65536 ∧ block.bit position = true ∧
        x = blockno * 65536 + position + 1 := by
  simp only [blockRecords, byteRecords, List.mem_flatMap, List.mem_map, List.mem_filter,
    List.mem_range, BITMAP_BLOCKSIZE_BYTES, BITMAP_BLOCKSIZE_BITS]
  constructor
  · rintro ⟨j, hj, bit, ⟨hbit, hset⟩, rfl⟩
    rw [and_mask_bne_zero _ hbit] at hset
    refine ⟨j * 8 + bit, by omega, ?_, by push_cast; ring⟩
    rw [Block.bit, show (j * 8 + bit) / 8 = j by omega, show (j * 8 + bit) % 8 = bit by omega]
    exact hset
  · rintro ⟨position, hposition, hset, rfl⟩
    refine ⟨position / 8, by omega, position % 8, ⟨by omega, ?_⟩, by push_cast; omega⟩
    rwa [and_mask_bne_zero _ (by omega)]

theorem pairwise_blockRecords (block : Block) (blockno : ℤ) :
    (blockRecords block blockno).Pairwise (· < ·) := by
  rw [blockRecords, List.pairwise_flatMap]
  constructor
  · intro j _
    rw [byteRecords, List.pairwise_map]
    refine (List.pairwise_lt_range.filter _).imp ?_
    intro bit bit' hlt
    omega
  · refine List.pairwise_lt_range.imp ?_
    intro j j' hlt x hx y hy
    simp only [byteRecords, List.mem_map, List.mem_filter, List.mem_range] at hx hy
    obtain ⟨bit, ⟨hbit, -⟩, rfl⟩ := hx
    obtain ⟨bit', ⟨hbit', -⟩, rfl⟩ := hy
    omega

theorem seFetchBitmapBlock_fresh (idx : IdxListEntry) (inset : WeightedResult) (recordno : ℕ)
    {block : ℤ} {lastBlock : Option Block}
    (hfresh : lastBlock = none ∨ block ≠ bitblockId recordno) :
    seFetchBitmapBlock idx inset recordno block lastBlock =
      seFetchBitmapBlock idx inset recordno 0 none := by
  rcases hfresh with rfl | hne
  · rfl
  · cases lastBlock with
    | none => rfl
    | some last => simp only [seFetchBitmapBlock, decide_eq_false hne]

/-- The records that the walk meets in one block. -/
def visitRecords (idx : IdxListEntry) (inres : WeightedResult) (b : ℕ) : List ℤ :=
  let (block, blockno) := seFetchBitmapBlock idx inres (b * BITMAP_BLOCKSIZE_BITS + 1) 0 none
  blockRecords block blockno

/-- The records that the walk meets in `count` blocks from `b` on. -/
def visitBlocks (idx : IdxListEntry) (inres : WeightedResult) (b count : ℕ) : List ℤ :=
  (List.range' b count).flatMap (visitRecords idx inres)

theorem bitblockId_first (b : ℕ) : bitblockId (b * BITMAP_BLOCKSIZE_BITS + 1) = b := by
  rw [bitblockId_eq, BITMAP_BLOCKSIZE_BITS]
  omega

theorem seFetchBitmapBlock_snd (idx : IdxListEntry) (inset : WeightedResult) (b : ℕ) :
    (seFetchBitmapBlock idx inset (b * BITMAP_BLOCKSIZE_BITS + 1) 0 none).2 = b ∨
      (seFetchBitmapBlock idx inset (b * BITMAP_BLOCKSIZE_BITS + 1) 0 none).2 = 0 := by
  simp only [seFetchBitmapBlock, bitblockId_first]
  split
  · exact .inr rfl
  · exact .inl rfl

section Walk

variable (idx : IdxListEntry) (inres : WeightedResult) {nWanted nStart : ℕ}
  {allocated : List WeightedEntry} {seen : List ℤ} {s : Enumeration}

variable {b : ℕ}

theorem Enumerated.scanBlock (h : Enumerated nWanted nStart allocated seen s)
    (hallocated : nWanted < allocated.length) (hb : b < 32767) :
    ∃ s', Search.scanBytes nWanted nStart
        (seFetchBitmapBlock idx inres (b * BITMAP_BLOCKSIZE_BITS + 1) 0 none).1
        (seFetchBitmapBlock idx inres (b * BITMAP_BLOCKSIZE_BITS + 1) 0 none).2
        (List.range BITMAP_BLOCKSIZE_BYTES) s = .ok s' ∧
      Enumerated nWanted nStart allocated (seen ++ visitRecords idx inres b) s' := by
  refine h.scanBytes hallocated _ _ fun j hj bit hbit ↦ ?_
  rw [List.mem_range, BITMAP_BLOCKSIZE_BYTES] at hj
  rw [List.mem_range] at hbit
  rw [InRange, BITMAP_BLOCKSIZE_BITS]
  rcases seFetchBitmapBlock_snd idx inres b with hno | hno <;>
    rw [BITMAP_BLOCKSIZE_BITS] at hno <;> rw [hno] <;> omega

/-- The number of blocks whose first record is below the last added one. -/
def visitedBlocks (maxDocid : ℕ) : ℕ := (maxDocid + 65534) / 65536

variable {maxDocid : ℕ}

theorem lt_visitedBlocks :
    b < visitedBlocks maxDocid ↔ b * BITMAP_BLOCKSIZE_BITS + 1 < maxDocid := by
  rw [visitedBlocks, BITMAP_BLOCKSIZE_BITS]
  omega

theorem visitBlocks_succ (b count : ℕ) :
    visitBlocks idx inres b (count + 1) =
      visitRecords idx inres b ++ visitBlocks idx inres (b + 1) count := by
  rw [visitBlocks, List.range'_succ, List.flatMap_cons, visitBlocks]

theorem checkInt_next (hb : b < 32767) :
    checkInt ((b * BITMAP_BLOCKSIZE_BITS + 1 : ℕ) + BITMAP_BLOCKSIZE_BITS) =
      .ok ((b + 1) * BITMAP_BLOCKSIZE_BITS + 1 : ℕ) := by
  have hnext : ((b * BITMAP_BLOCKSIZE_BITS + 1 : ℕ) : ℤ) + BITMAP_BLOCKSIZE_BITS =
      ((b + 1) * BITMAP_BLOCKSIZE_BITS + 1 : ℕ) := by
    push_cast
    ring
  rw [hnext]
  refine checkInt_of_inRange ?_
  rw [InRange, BITMAP_BLOCKSIZE_BITS]
  omega

theorem checkInt_last :
    checkInt ((32767 * BITMAP_BLOCKSIZE_BITS + 1 : ℕ) + BITMAP_BLOCKSIZE_BITS) =
      .error .signedOverflow := by
  refine if_neg ?_
  rw [BITMAP_BLOCKSIZE_BITS]
  omega

/-- The walk meets the records of the visited blocks, when it ends before the last block of the
`short` numbers: either that block is not visited or enough records are found before. -/
theorem Enumerated.scanBlocks (hallocated : nWanted < allocated.length)
    (count : ℕ) : ∀ (b fuel : ℕ) {currentBlockno : ℤ} {resultBlock : Option Block} {seen : List ℤ}
    {s : Enumeration}, visitedBlocks maxDocid = b + count → count < fuel →
    (resultBlock = none ∨ currentBlockno ≠ b) → Enumerated nWanted nStart allocated seen s →
    (visitedBlocks maxDocid ≤ 32767 ∨
      nWanted ≤ (window nWanted nStart (seen ++ visitBlocks idx inres b (32767 - b))).length) →
    ∃ s', Search.scanBlocks idx inres maxDocid nWanted nStart fuel
        (b * BITMAP_BLOCKSIZE_BITS + 1) currentBlockno resultBlock s = .ok s' ∧
      Enumerated nWanted nStart allocated (seen ++ visitBlocks idx inres b count) s' := by
  induction count with
  | zero =>
    intro b fuel currentBlockno resultBlock seen s hvisited hfuel _ h _
    obtain ⟨fuel, rfl⟩ : ∃ rest, fuel = rest + 1 := ⟨fuel - 1, by omega⟩
    have hstop : ¬b * BITMAP_BLOCKSIZE_BITS + 1 < maxDocid := by
      rw [← lt_visitedBlocks, hvisited]
      omega
    refine ⟨s, ?_, by simpa [visitBlocks] using h⟩
    rw [Search.scanBlocks, if_neg fun hand ↦ hstop (by exact_mod_cast hand.1)]
  | succ count ih =>
    intro b fuel currentBlockno resultBlock seen s hvisited hfuel hfresh h hends
    obtain ⟨fuel, rfl⟩ : ∃ rest, fuel = rest + 1 := ⟨fuel - 1, by omega⟩
    have hvisit : b * BITMAP_BLOCKSIZE_BITS + 1 < maxDocid := by
      rw [← lt_visitedBlocks, hvisited]
      omega
    by_cases hopen : s.numHits < nWanted
    · have hb : b < 32767 := by
        by_contra hlast
        rcases hends with hle | hfull
        · omega
        · have hnil : visitBlocks idx inres b (32767 - b) = [] := by
            rw [Nat.sub_eq_zero_of_le (not_lt.mp hlast), visitBlocks]
            rfl
          rw [hnil, List.append_nil, ← h.numHits] at hfull
          omega
      obtain ⟨next, hnext, hmet⟩ := h.scanBlock idx inres hallocated hb
      have hfresh' : (seFetchBitmapBlock idx inres (b * BITMAP_BLOCKSIZE_BITS + 1) 0 none).2 ≠
          (b + 1 : ℕ) := by
        rcases seFetchBitmapBlock_snd idx inres b with hno | hno <;> rw [hno] <;> omega
      obtain ⟨s', hs', hmet'⟩ := ih (b + 1) fuel (by omega) (by omega)
        (.inr hfresh') hmet (by
          refine hends.imp_right fun hfull ↦ ?_
          rwa [List.append_assoc, ← visitBlocks_succ,
            show 32767 - (b + 1) + 1 = 32767 - b by omega])
      refine ⟨s', ?_, by rwa [visitBlocks_succ, ← List.append_assoc]⟩
      rw [Search.scanBlocks, if_pos ⟨by exact_mod_cast hvisit, hopen⟩,
        seFetchBitmapBlock_fresh _ _ _ (by rwa [bitblockId_first])]
      simp only [hnext, checkInt_next hb]
      exact hs'
    · refine ⟨s, ?_, h.more hopen _⟩
      rw [Search.scanBlocks, if_neg fun hand ↦ hopen hand.2]

theorem Enumerated.scanBlocks_overflow (hallocated : nWanted < allocated.length)
    (hvisited : 32767 < visitedBlocks maxDocid) (count : ℕ) :
    ∀ (b fuel : ℕ) {currentBlockno : ℤ} {resultBlock : Option Block} {seen : List ℤ}
    {s : Enumeration}, b + count = 32767 →
    (resultBlock = none ∨ currentBlockno ≠ b) → Enumerated nWanted nStart allocated seen s →
    (window nWanted nStart (seen ++ visitBlocks idx inres b count)).length < nWanted →
    ∀ s', Search.scanBlocks idx inres maxDocid nWanted nStart fuel
      (b * BITMAP_BLOCKSIZE_BITS + 1) currentBlockno resultBlock s ≠ .ok s' := by
  induction count with
  | zero =>
    intro b fuel currentBlockno resultBlock seen s hb hfresh h hopen s' hs'
    obtain rfl : b = 32767 := by omega
    cases fuel with
    | zero => cases hs'
    | succ fuel =>
      have hhits : s.numHits < nWanted := by
        rw [h.numHits]
        exact lt_of_le_of_lt (length_window_append_le _ _ _ _) hopen
      have hvisit := lt_visitedBlocks.mp hvisited
      rw [Search.scanBlocks, if_pos ⟨by exact_mod_cast hvisit, hhits⟩] at hs'
      simp only [checkInt_last] at hs'
      cases hscan : Search.scanBytes nWanted nStart
          (seFetchBitmapBlock idx inres (32767 * BITMAP_BLOCKSIZE_BITS + 1) currentBlockno
            resultBlock).1
          (seFetchBitmapBlock idx inres (32767 * BITMAP_BLOCKSIZE_BITS + 1) currentBlockno
            resultBlock).2 (List.range BITMAP_BLOCKSIZE_BYTES) s with
      | error fault => rw [hscan] at hs'; cases hs'
      | ok next => rw [hscan] at hs'; cases hs'
  | succ count ih =>
    intro b fuel currentBlockno resultBlock seen s hb hfresh h hopen s' hs'
    cases fuel with
    | zero => cases hs'
    | succ fuel =>
      have hhits : s.numHits < nWanted := by
        rw [h.numHits]
        exact lt_of_le_of_lt (length_window_append_le _ _ _ _) hopen
      have hvisit : b * BITMAP_BLOCKSIZE_BITS + 1 < maxDocid :=
        lt_visitedBlocks.mp (by omega)
      obtain ⟨next, hnext, hmet⟩ :=
        h.scanBlock idx inres hallocated (show b < 32767 by omega)
      have hfresh' : (seFetchBitmapBlock idx inres (b * BITMAP_BLOCKSIZE_BITS + 1) 0 none).2 ≠
          (b + 1 : ℕ) := by
        rcases seFetchBitmapBlock_snd idx inres b with hno | hno <;> rw [hno] <;> omega
      rw [Search.scanBlocks, if_pos ⟨by exact_mod_cast hvisit, hhits⟩,
        seFetchBitmapBlock_fresh _ _ _ (by rwa [bitblockId_first])] at hs'
      simp only [hnext, checkInt_next (show b < 32767 by omega)] at hs'
      refine ih (b + 1) fuel (by omega) (.inr hfresh') hmet ?_ s' hs'
      rwa [List.append_assoc, ← visitBlocks_succ]

end Walk

end Cheshire.Search
