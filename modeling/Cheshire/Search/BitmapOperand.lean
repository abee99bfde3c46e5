import Cheshire.Search.BitmapExact
import Cheshire.Search.BitmapMerge

/-!
# Bitmap results as operands

A bitmap result stands for the records whose bits are set in its blocks; its header carries a record
that is not below any of them and, for a single term, their number.  The conversion into an ordinary
result, which the merges ask for with one record to skip, loses the first record that it decodes.
-/

namespace Cheshire.Search

open Lib Index

/-- Record numbers in increasing order. -/
structure RecordList (records : List ℤ) : Prop where
  increasing : records.Pairwise (· < ·)
  inRange : ∀ x ∈ records, 0 < x ∧ x ≤ INT_MAX

theorem RecordList.zero_notMem {records : List ℤ} (h : RecordList records) : (0 : ℤ) ∉ records :=
  fun hmem ↦ absurd (h.inRange 0 hmem).1 (lt_irrefl 0)

/-- The number that a record is decoded to: itself, or the next multiple of 65536 for a multiple. -/
def decoded (x : ℤ) : ℤ := x / 65536 * 65536 + (x - 1) % 65536 + 1

variable {x : ℤ}

theorem decoded_of_not_dvd (h : ¬65536 ∣ x) : decoded x = x := by
  unfold decoded
  omega

theorem decoded_of_dvd (h : 65536 ∣ x) : decoded x = x + 65536 := by
  unfold decoded
  omega

theorem le_decoded (x : ℤ) : x ≤ decoded x := by
  unfold decoded
  omega

variable {y : ℤ}

theorem decoded_injective (h : decoded x = decoded y) : x = y := by
  unfold decoded at h
  omega

/-- A bitmap result with the index it belongs to, the records that its bits stand for and the record
in its header. -/
structure BitmapOperand (index : Option IdxListEntry) (set : WeightedResult) (records : List ℤ)
    (last : ℕ) : Prop extends RecordList records where
  flags : set.resultType = BITMAP_RESULT
  header : set.entryAt 0 = .ok ⟨last, 0, 0⟩
  last_le : last ≤ INT_MAX
  le_last : ∀ x ∈ records, x ≤ last
  unknown_le : -1 ≤ set.numHits
  hits : 0 < set.numHits → set.numHits = records.length ∧ (last : ℤ) ∈ records
  unindexed : index = none → records = [] ∧ last = 0
  stored : ∀ idx, index = some idx → ∀ b ≤ 32767, ∀ position,
    (seFetchBitmapBlock idx set (b * BITMAP_BLOCKSIZE_BITS + 1) 0 none).1.bit position = true ↔
      ∃ x ∈ records, x / 65536 = b ∧ (x - 1) % 65536 = position

variable {idx : IdxListEntry}

theorem Loaded.fetched_bit {word : Term} {additions : List Addition} (h : Loaded word additions idx)
    (wordList : Bool) (hne : additions ≠ []) {b : ℕ} (hb : b ≤ 32767) (position : ℕ) :
    (seFetchBitmapBlock idx (Search.seBitmap idx wordList word) (b * BITMAP_BLOCKSIZE_BITS + 1) 0
      none).1.bit position = true ↔
      ∃ r ∈ added additions, r.1 / 65536 = b ∧ bitblockBit r.1 = position := by
  obtain ⟨info, first, rest, hterm, -⟩ := h.entry hne
  have hid : termidAt (Search.seBitmap idx wordList word) 0 = info.termid := by
    simp [termidAt, Search.seBitmap, hterm]
  have hand : (Search.seBitmap idx wordList word).termid.drop 1 = [] := by
    simp [Search.seBitmap, hterm]
  have hshort : toShort (b : ℤ) = b := by
    rw [toShort, Int.bmod_eq_of_le] <;> omega
  have hbits := h.stores.bits hterm b position
  simp only [true_and, storedBit] at hbits
  rw [← hbits]
  simp only [seFetchBitmapBlock, bitblockId_first, hshort, hid, hand, andTerms, ite_self]
  cases idx.blocks ⟨b, info.termid⟩ with
  | none => simp
  | some block => simp

theorem Loaded.bitmapOperand {word : Term} {additions : List Addition}
    (h : Loaded word additions idx) (wordList : Bool) (hne : additions ≠ [])
    (hnodup : (added additions).Nodup)
    (hgreatest : ∀ r ∈ added additions, r.1 ≤ lastRecnum additions) :
    BitmapOperand (some idx) (Search.seBitmap idx wordList word) (ascending additions)
      (lastRecnum additions) := by
  obtain ⟨info, first, rest, hterm, -⟩ := h.entry hne
  obtain ⟨last, hlast⟩ : ∃ last, lastRecnum additions = last.recnum.1 ∧ last ∈ additions := by
    refine ⟨additions.getLast hne, ?_, List.getLast_mem hne⟩
    simp [lastRecnum, List.getLast?_eq_some_getLast hne]
  have hadded : last.recnum ∈ added additions :=
    List.mem_flatMap.mpr ⟨last, hlast.2, last.recnum_mem_records⟩
  have hlength : (ascending additions).length = (added additions).length := by
    have hinjective : Function.Injective fun r : RecordNumber ↦ (r.1 : ℤ) :=
      fun r r' heq ↦ Subtype.ext (Int.natCast_inj.mp heq)
    rw [ascending, Finset.length_sort, List.toFinset_card_of_nodup (hnodup.map hinjective),
      List.length_map]
  refine ⟨⟨pairwise_ascending additions, ?_⟩, ?_, h.entryAt wordList, ?_, ?_, ?_, ?_, ?_, ?_⟩
  · intro x hx
    exact pos_of_mem_ascending hx
  · simp [Search.seBitmap, hterm]
  · rw [hlast.1]
    exact last.recnum.2.2
  · intro x hx
    obtain ⟨r, hr, rfl⟩ := mem_ascending.mp hx
    exact_mod_cast hgreatest r hr
  · rw [(h.seBitmap wordList).1, hitCount, if_neg hne]
    split <;> omega
  · intro hpos
    rw [(h.seBitmap wordList).1] at hpos ⊢
    obtain ⟨rfl, -⟩ := (hitCount_pos_iff wordList additions).mp hpos
    refine ⟨by rw [hlength]; rfl, ?_⟩
    rw [hlast.1]
    exact mem_ascending.mpr ⟨last.recnum, hadded, rfl⟩
  · intro hnone
    cases hnone
  · rintro _ ⟨rfl⟩ b hb position
    rw [h.fetched_bit wordList hne hb position]
    simp only [bitblockBit_eq]
    constructor
    · rintro ⟨r, hr, hblock, hbit⟩
      have hpos := r.2.1
      exact ⟨r.1, mem_ascending.mpr ⟨r, hr, rfl⟩, by omega, by omega⟩
    · rintro ⟨x, hx, hblock, hbit⟩
      obtain ⟨r, hr, rfl⟩ := mem_ascending.mp hx
      have hpos := r.2.1
      exact ⟨r, hr, by omega, by omega⟩

section Operand

variable {index : Option IdxListEntry} {set : WeightedResult} {records : List ℤ} {last : ℕ}

theorem BitmapOperand.has (h : BitmapOperand index set records last) :
    set.has BITMAP_RESULT = true := by
  rw [WeightedResult.has, h.flags]
  rfl

theorem BitmapOperand.mem_visitRecords (h : BitmapOperand (some idx) set records last) {b : ℕ}
    (hb : b ≤ 32767) :
    y ∈ visitRecords idx set b ↔ ∃ x ∈ records, x / 65536 = b ∧ y = decoded x := by
  have hstored := h.stored idx rfl b hb
  have hmem : y ∈ blockRecords
      (seFetchBitmapBlock idx set (b * BITMAP_BLOCKSIZE_BITS + 1) 0 none).1 b ↔
      ∃ x ∈ records, x / 65536 = b ∧ y = decoded x := by
    rw [mem_blockRecords]
    constructor
    · rintro ⟨position, -, hbit, rfl⟩
      obtain ⟨x, hx, hblock, hposition⟩ := (hstored position).mp hbit
      refine ⟨x, hx, hblock, ?_⟩
      rw [decoded, hblock, hposition]
    · rintro ⟨x, hx, hblock, rfl⟩
      refine ⟨((x - 1) % 65536).toNat, by omega, ?_, by rw [decoded]; omega⟩
      exact (hstored _).mpr ⟨x, hx, hblock, by omega⟩
  rcases seFetchBitmapBlock_snd idx set b with hno | hno
  · simp only [visitRecords, hno]
    exact hmem
  · -- the block was not found and is empty
    by_cases hzero : b = 0
    · subst hzero
      simp only [visitRecords, hno]
      exact hmem
    · have hempty : (seFetchBitmapBlock idx set (b * BITMAP_BLOCKSIZE_BITS + 1) 0 none).1 =
          bitmapBlockAlloc := by
        simp only [seFetchBitmapBlock, bitblockId_first] at hno ⊢
        split at hno
        · rfl
        · have hno' : (b : ℤ) = 0 := hno
          omega
      rw [hempty] at hmem
      simp only [visitRecords, hempty, hno]
      rw [mem_blockRecords] at hmem ⊢
      simp only [bit_bitmapBlockAlloc, Bool.false_eq_true, false_and, and_false, exists_false]
        at hmem ⊢
      exact hmem

variable {count : ℕ}

theorem BitmapOperand.mem_visitBlocks (h : BitmapOperand (some idx) set records last)
    (hcount : count ≤ 32768) : y ∈ visitBlocks idx set 0 count ↔
      ∃ x ∈ records, x / 65536 < count ∧ y = decoded x := by
  rw [visitBlocks, List.mem_flatMap]
  constructor
  · rintro ⟨b, hb, hy⟩
    rw [List.mem_range'_1] at hb
    obtain ⟨x, hx, hblock, rfl⟩ := (h.mem_visitRecords (by omega)).mp hy
    exact ⟨x, hx, by omega, rfl⟩
  · rintro ⟨x, hx, hlt, rfl⟩
    have hpos := (h.inRange x hx).1
    refine ⟨(x / 65536).toNat, List.mem_range'_1.mpr (by omega), ?_⟩
    exact (h.mem_visitRecords (by omega)).mpr ⟨x, hx, by omega, rfl⟩

theorem BitmapOperand.pairwise_visitBlocks (h : BitmapOperand (some idx) set records last)
    (hcount : count ≤ 32768) : (visitBlocks idx set 0 count).Pairwise (· < ·) := by
  rw [visitBlocks, List.pairwise_flatMap]
  refine ⟨fun b _ ↦ pairwise_visitRecords idx set b, ?_⟩
  refine List.Pairwise.imp_of_mem ?_ (List.pairwise_lt_range' (s := 0) (n := count))
  intro b b' hb hb' hlt y hy y' hy'
  rw [List.mem_range'_1] at hb hb'
  obtain ⟨x, -, hblock, rfl⟩ := (h.mem_visitRecords (by omega)).mp hy
  obtain ⟨x', -, hblock', rfl⟩ := (h.mem_visitRecords (by omega)).mp hy'
  rw [decoded, decoded]
  omega

theorem BitmapOperand.length_visitBlocks_le (h : BitmapOperand (some idx) set records last)
    (hcount : count ≤ 32768) : (visitBlocks idx set 0 count).length ≤ records.length := by
  have hsub : (visitBlocks idx set 0 count).Subperm (records.map decoded) := by
    have hnodup : (visitBlocks idx set 0 count).Nodup :=
      (h.pairwise_visitBlocks hcount).imp fun hlt ↦ hlt.ne
    apply hnodup.subperm
    intro y hy
    obtain ⟨x, hx, -, rfl⟩ := (h.mem_visitBlocks hcount).mp hy
    exact List.mem_map_of_mem hx
  simpa using hsub.length_le

theorem BitmapOperand.length_le_last (h : BitmapOperand index set records last) :
    records.length ≤ last := by
  have hsub : records.Subperm ((List.range last).map fun i : ℕ ↦ (i : ℤ) + 1) := by
    have hnodup : records.Nodup := h.increasing.imp fun hlt ↦ hlt.ne
    apply hnodup.subperm
    intro x hx
    have hpos := (h.inRange x hx).1
    have hle := h.le_last x hx
    rw [List.mem_map]
    exact ⟨(x - 1).toNat, List.mem_range.mpr (by omega), by omega⟩
  simpa using hsub.length_le

/-- The numbers that the conversion meets: a record is decoded unless the first record of its block
is not below the one in the header. -/
def Decoded (records : List ℤ) (last : ℕ) (y : ℤ) : Prop :=
  ∃ x ∈ records, x / 65536 * 65536 + 1 < last ∧ y = decoded x

/-- The records of the walk with the first one skipped. -/
def afterFirst (index : Option IdxListEntry) (set : WeightedResult) (last : ℕ) : List ℤ :=
  (visitBlocks (index.getD (IdxListEntry.created BITMAPPED_TYPE)) set 0 (visitedBlocks last)).drop 1

theorem visitedBlocks_le_of {last : ℕ} (hlast : last ≤ INT_MAX) : visitedBlocks last ≤ 32768 := by
  have hle : last ≤ 2 ^ 31 - 1 := hlast
  rw [visitedBlocks]
  omega

theorem BitmapOperand.visited (h : BitmapOperand index set records last) :
    (visitBlocks (index.getD (IdxListEntry.created BITMAPPED_TYPE)) set 0
      (visitedBlocks last)).Pairwise (· < ·) ∧
    (visitBlocks (index.getD (IdxListEntry.created BITMAPPED_TYPE)) set 0
      (visitedBlocks last)).length ≤ records.length ∧
    ∀ y, y ∈ visitBlocks (index.getD (IdxListEntry.created BITMAPPED_TYPE)) set 0
      (visitedBlocks last) ↔ Decoded records last y := by
  have hcount := visitedBlocks_le_of h.last_le
  rcases index with _ | idx
  · obtain ⟨rfl, rfl⟩ := h.unindexed rfl
    have hnil : visitBlocks ((none : Option IdxListEntry).getD (IdxListEntry.created BITMAPPED_TYPE))
        set 0 (visitedBlocks 0) = [] := rfl
    rw [hnil]
    simp [Decoded]
  · refine ⟨h.pairwise_visitBlocks hcount, h.length_visitBlocks_le hcount, fun y ↦ ?_⟩
    rw [Option.getD_some, h.mem_visitBlocks hcount]
    refine exists_congr fun x ↦ and_congr_right fun hx ↦ and_congr_left fun _ ↦ ?_
    have hpos := (h.inRange x hx).1
    rw [visitedBlocks]
    omega

theorem BitmapOperand.mem_afterFirst (h : BitmapOperand index set records last) (y : ℤ) :
    y ∈ afterFirst index set last ↔
      Decoded records last y ∧ ¬IsLeast {z | Decoded records last z} y := by
  obtain ⟨hpairwise, -, hmem⟩ := h.visited
  unfold afterFirst
  simp only [← hmem]
  clear hmem
  generalize visitBlocks (index.getD (IdxListEntry.created BITMAPPED_TYPE)) set 0
    (visitedBlocks last) = met at hpairwise
  rcases met with _ | ⟨first, rest⟩
  · simp
  · rw [List.pairwise_cons] at hpairwise
    rw [List.drop_one, List.tail_cons, List.mem_cons]
    constructor
    · intro hy
      refine ⟨.inr hy, fun hleast ↦ ?_⟩
      have hle : y ≤ first := hleast.2 List.mem_cons_self
      exact absurd hle (not_le.mpr (hpairwise.1 y hy))
    · rintro ⟨rfl | hy, hleast⟩
      · refine absurd ⟨List.mem_cons_self, ?_⟩ hleast
        intro z hz
        rcases List.mem_cons.mp hz with rfl | hz
        · exact le_rfl
        · exact (hpairwise.1 z hz).le
      · exact hy

theorem BitmapOperand.bitmapToResult_eq (h : BitmapOperand index set records last) :
    bitmapToResult index set =
      seBitmapToResult (index.getD (IdxListEntry.created BITMAPPED_TYPE)) (some set) last 1 := by
  have hguard : ¬(index.isNone = true ∧ (last : ℤ) > 1) := by
    rintro ⟨hnone, hgt⟩
    have hzero := (h.unindexed (Option.isNone_iff_eq_none.mp hnone)).2
    omega
  rw [bitmapToResult, h.header]
  simp only [bind, Except.bind, if_neg hguard, Int.toNat_natCast]

theorem BitmapOperand.bitmapToResult_run (h : BitmapOperand index set records last)
    (hlast : last ≤ 2147418113) : ∃ res, bitmapToResult index set = .ok (some res) ∧
      res.resultType = 0 ∧
      res.numHits = (if set.numHits > 0 then set.numHits
        else (afterFirst index set last).length) ∧
      res.entries.map WeightedEntry.recordNum = afterFirst index set last ++
        ((last : ℤ) :: List.replicate (last + 1) 0).drop (afterFirst index set last).length := by
  obtain ⟨hpairwise, hlength, -⟩ := h.visited
  have hle := h.length_le_last
  have hwindow : window last 1 (visitBlocks (index.getD (IdxListEntry.created BITMAPPED_TYPE)) set 0
      (visitedBlocks last)) = afterFirst index set last := by
    rw [window, afterFirst, List.take_of_length_le]
    rw [List.length_drop]
    omega
  have hmax : last < INT_MAX := by
    rw [INT_MAX]
    omega
  obtain ⟨s, hrun, hmet⟩ := seBitmapToResult_ok
    (index.getD (IdxListEntry.created BITMAPPED_TYPE)) h.header hmax
    (.inl (by rw [visitedBlocks]; omega) : visitedBlocks last ≤ 32767 ∨
      last ≤ (window last 1 (visitBlocks (index.getD (IdxListEntry.created BITMAPPED_TYPE)) set 0
        32767)).length)
  refine ⟨enumeratedResult set s, ?_, ?_, ?_, ?_⟩
  · rw [h.bitmapToResult_eq, hrun]
  · simp only [enumeratedResult, h.flags]
    apply Nat.eq_of_testBit_eq
    intro i
    rw [Nat.testBit_ldiff, Bool.and_not_self, Nat.zero_testBit]
  · simp only [enumeratedResult, hmet.numHits, hwindow]
  · have hrecords := hmet.records
    rw [hwindow] at hrecords
    rw [enumeratedResult, hrecords]
    simp [allocatedEntries, Buffer.calloc, WeightedEntry.zero]

theorem BitmapOperand.bitmapToResult_fault (h : BitmapOperand index set records last)
    (hlast : ¬last ≤ 2147418113) (res : Option WeightedResult) :
    bitmapToResult index set ≠ .ok res := by
  obtain ⟨idx, rfl⟩ : ∃ idx, index = some idx := by
    rcases index with _ | idx
    · have hzero := (h.unindexed rfl).2
      omega
    · exact ⟨idx, rfl⟩
  have hle := h.length_le_last
  have hlength := h.length_visitBlocks_le (show 32767 ≤ 32768 by omega)
  have hnot : ¬(last < INT_MAX ∧ (visitedBlocks last ≤ 32767 ∨
      last ≤ (window last 1 (visitBlocks idx set 0 32767)).length)) := by
    rintro ⟨-, hvisited | hwindow⟩
    · rw [visitedBlocks] at hvisited
      omega
    · rw [length_window] at hwindow
      omega
  rw [h.bitmapToResult_eq]
  exact seBitmapToResult_fault idx h.header hnot res

structure Converted (set : WeightedResult) (records : List ℤ) (last : ℕ) (res : WeightedResult) :
    Prop extends res.Unflagged where
  uncounted : set.numHits ≤ 0 → res.recordNums.Pairwise (· < ·) ∧ ∀ y, y ∈ res.recordNums ↔
    Decoded records last y ∧ ¬IsLeast {z | Decoded records last z} y
  single : 0 < set.numHits → records.length = 1 → res.recordNums = records
  several : 0 < set.numHits → records.length ≠ 1 → 0 ∈ res.recordNums

theorem BitmapOperand.bitmapToResult_ok (h : BitmapOperand index set records last)
    (hlast : last ≤ 2147418113) : ∃ res, bitmapToResult index set = .ok (some res) ∧
      Converted set records last res := by
  obtain ⟨res, hrun, htype, hhits, hentries⟩ := h.bitmapToResult_run hlast
  obtain ⟨hpairwise, hvisited, -⟩ := h.visited
  have hle := h.length_le_last
  have hmet : (afterFirst index set last).length ≤ records.length - 1 := by
    rw [afterFirst, List.length_drop]
    omega
  have hlength : res.entries.length = last + 2 := by
    have hmap := congrArg List.length hentries
    simp only [List.length_map, List.length_append, List.length_drop, List.length_cons,
      List.length_replicate] at hmap
    omega
  have hnums : res.recordNums = (afterFirst index set last ++
      ((last : ℤ) :: List.replicate (last + 1) 0).drop (afterFirst index set last).length).take
        res.numHits.toNat := by
    rw [WeightedResult.recordNums, WeightedResult.hits, List.map_take, hentries]
  refine ⟨res, hrun, ⟨⟨?_, ?_⟩, by rw [htype, Nat.zero_and]⟩, ?_, ?_, ?_⟩
  · rw [hhits]
    split <;> omega
  · rw [hhits]
    split
    · rename_i hpos
      obtain ⟨hcount, -⟩ := h.hits hpos
      omega
    · omega
  · intro hneg
    rw [if_neg (by omega)] at hhits
    rw [hnums, hhits, Int.toNat_natCast, List.take_left']
    · refine ⟨hpairwise.sublist (List.drop_sublist _ _), h.mem_afterFirst⟩
    · rfl
  · intro hpos hone
    obtain ⟨hcount, hmem⟩ := h.hits hpos
    obtain ⟨x, rfl⟩ := List.length_eq_one_iff.mp hone
    have hx : (last : ℤ) = x := List.mem_singleton.mp hmem
    have hnil : afterFirst index set last = [] := by
      rw [← List.length_eq_zero_iff]
      simp only [List.length_singleton] at hmet
      omega
    rw [if_pos hpos, hcount] at hhits
    rw [hnums, hhits, hnil]
    simp [hx]
  · intro hpos hmany
    obtain ⟨hcount, hmem⟩ := h.hits hpos
    have hne : records.length ≠ 0 := by
      have hpositive := List.length_pos_of_mem hmem
      omega
    rw [if_pos hpos, hcount] at hhits
    rw [hnums, hhits, Int.toNat_natCast]
    -- behind the numbers met and the copied header entry the cells are zero
    let position := max (afterFirst index set last).length 1
    have hget : (afterFirst index set last ++ ((last : ℤ) :: List.replicate (last + 1) 0).drop
        (afterFirst index set last).length)[position]? = some 0 := by
      rw [List.getElem?_append_right (le_max_left _ _), List.getElem?_drop,
        Nat.add_sub_cancel' (le_max_left _ _)]
      obtain ⟨before, hbefore⟩ : ∃ before, position = before + 1 :=
        ⟨position - 1, by omega⟩
      rw [show max (afterFirst index set last).length 1 = position from rfl, hbefore,
        List.getElem?_cons_succ, List.getElem?_replicate, if_pos (by omega)]
    apply List.mem_of_getElem? (i := position)
    rw [List.getElem?_take_of_lt (by omega), hget]

end Operand

end Cheshire.Search
