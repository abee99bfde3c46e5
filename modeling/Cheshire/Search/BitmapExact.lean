import Cheshire.Search.BitmapEnumeration

/-!
# When the enumeration of a bitmap result is exact

The records added for one term, in ascending order, and the records that the walk over its blocks
meets are compared block by block.  A block whose number times 65536 was itself added is shifted:
that record is met last, as the first record of the next block, so no position of the block agrees.
In every other visited block all positions agree, and in a block that is not visited none do.
-/

namespace Cheshire.Search

open Lib Index

/-- One call for a given term. -/
def stepAddition (word : Term) (idx : IdxListEntry) (addition : Addition) : Exec IdxListEntry :=
  stepBitmap idx (.add word addition)

def added (additions : List Addition) : List RecordNumber := additions.flatMap Addition.records

/-- The record of the last call, zero before the first. -/
def lastRecnum (additions : List Addition) : ℕ :=
  (additions.getLast?.map fun addition ↦ addition.recnum.1).getD 0

def ascending (additions : List Addition) : List ℤ :=
  ((added additions).map fun r ↦ (r.1 : ℤ)).toFinset.sort (· ≤ ·)

variable {x : ℤ}

theorem mem_ascending {additions : List Addition} :
    x ∈ ascending additions ↔ ∃ r ∈ added additions, (r.1 : ℤ) = x := by
  simp [ascending]

theorem pairwise_ascending (additions : List Addition) :
    (ascending additions).Pairwise (· < ·) :=
  (Finset.sortedLT_sort _).pairwise

theorem pos_of_mem_ascending {additions : List Addition} (hx : x ∈ ascending additions) :
    0 < x ∧ x ≤ 2 ^ 31 - 1 := by
  obtain ⟨r, -, rfl⟩ := mem_ascending.mp hx
  have hpos := r.2.1
  have hmax : r.1 ≤ 2 ^ 31 - 1 := r.2.2
  omega

/-- The index after the additions: the stored records and the entry of the term. -/
structure Loaded (word : Term) (additions : List Addition) (idx : IdxListEntry) : Prop where
  stores : Stores idx fun w r ↦ w = word ∧ r ∈ added additions
  missing : additions = [] → idx.terms word = none
  entry : additions ≠ [] → ∃ info first rest, idx.terms word = some info ∧
    info.numEntries = (added additions).length ∧ info.entries = first :: rest ∧
    first.recordNo = lastRecnum additions

theorem terms_of_add {idx idx' : IdxListEntry} {word : Term} {addition : Addition}
    (hstep : stepBitmap idx (.add word addition) = .ok idx') : idx'.terms word =
      some (bitmapTermEntry idx addition.recnum.1 word addition.nNewEntries).1 := by
  simp only [stepBitmap, inAddBitmapEntry] at hstep
  obtain ⟨block, hblock, -⟩ := addition.bitmapNewBlock
    (idx.blocks ⟨toShort (bitblockId addition.recnum.1),
      (bitmapTermEntry idx addition.recnum.1 word addition.nNewEntries).1.termid⟩)
  rw [hblock] at hstep
  cases hstep
  simp [IdxListEntry.putBlock, IdxListEntry.putTerm]

theorem Loaded.step {word : Term} {additions : List Addition} {idx : IdxListEntry}
    (h : Loaded word additions idx) (addition : Addition) :
    ∃ idx', stepAddition word idx addition = .ok idx' ∧
      Loaded word (additions ++ [addition]) idx' := by
  obtain ⟨idx', hstep, hstores⟩ := h.stores.add word addition
  refine ⟨idx', hstep, ?_, fun hnil ↦ absurd hnil (by simp), fun _ ↦ ?_⟩
  · have hmembers : (fun w r ↦ w = word ∧ r ∈ added (additions ++ [addition])) =
        fun w r ↦ (w = word ∧ r ∈ addition.records) ∨ (w = word ∧ r ∈ added additions) := by
      funext w r
      simp only [added, List.flatMap_append, List.flatMap_singleton, List.mem_append, and_or_left,
        or_comm]
    rwa [hmembers]
  · have hterms := terms_of_add hstep
    have hlast : lastRecnum (additions ++ [addition]) = addition.recnum.1 := by
      simp [lastRecnum]
    rw [hlast]
    by_cases hnil : additions = []
    · rw [bitmapTermEntry, h.missing hnil] at hterms
      exact ⟨_, _, _, hterms, by simp [hnil, added, Addition.nNewEntries], rfl, rfl⟩
    · obtain ⟨info, first, rest, hinfo, hcount, hentries, -⟩ := h.entry hnil
      rw [bitmapTermEntry, hinfo] at hterms
      refine ⟨_, ⟨addition.recnum.1, first.termFreq + 1⟩, rest, hterms, ?_, by simp [hentries],
        rfl⟩
      simp [hcount, added, Addition.nNewEntries]

theorem loaded_run (idxType : ℕ) (word : Term) (additions : List Addition) :
    ∃ idx, Runs.run (stepAddition word) (IdxListEntry.created idxType) additions = .ok idx ∧
      Loaded word additions idx := by
  refine Runs.run_history (Loaded word) ⟨?_, fun _ ↦ rfl, fun hne ↦ absurd rfl hne⟩
    (fun past idx addition h ↦ h.step addition) additions
  simpa [added] using stores_created idxType

/-- The elements of a list that belong to one block. -/
def inBlock (records : List ℤ) (b : ℕ) : List ℤ := records.filter fun x : ℤ ↦ x / 65536 = b

/-- An added record is met as itself: the walk reaches its block, and the record that shifts the
block was not added. -/
def Decodes (additions : List Addition) (x : ℤ) : Prop :=
  x / 65536 * 65536 + 1 < lastRecnum additions ∧ x / 65536 * 65536 ∉ ascending additions

theorem flatMap_inBlock {records : List ℤ} (hrecords : records.Pairwise (· < ·))
    (hpos : ∀ x ∈ records, 0 ≤ x) (count : ℕ) :
    (List.range' 0 count).flatMap (inBlock records) =
      records.filter fun x : ℤ ↦ x < count * 65536 := by
  refine List.Pairwise.eq_of_mem_iff (r := (· < ·)) ?_ (hrecords.filter _) fun x ↦ ?_
  · rw [List.pairwise_flatMap]
    refine ⟨fun b _ ↦ hrecords.filter _, (List.pairwise_lt_range' (s := 0)).imp ?_⟩
    intro b b' hlt x hx y hy
    simp only [inBlock, List.mem_filter, decide_eq_true_eq] at hx hy
    omega
  · simp only [List.mem_flatMap, List.mem_range'_1, inBlock, List.mem_filter, decide_eq_true_eq]
    constructor
    · rintro ⟨b, hb, hx, hblock⟩
      exact ⟨hx, by omega⟩
    · rintro ⟨hx, hlt⟩
      have := hpos x hx
      exact ⟨(x / 65536).toNat, by omega, hx, by omega⟩

section Alignment

variable {idx : IdxListEntry} {word : Term} {additions : List Addition}

theorem Loaded.mem_visitRecords (h : Loaded word additions idx) (wordList : Bool)
    (hne : additions ≠ []) {b : ℕ}
    (hb : b ≤ 32767) : x ∈ visitRecords idx (seBitmap idx wordList word) b ↔
      ∃ r ∈ added additions, r.1 / 65536 = b ∧ x = b * 65536 + bitblockBit r.1 + 1 := by
  obtain ⟨info, first, rest, hterm, -⟩ := h.entry hne
  have hid : termidAt (seBitmap idx wordList word) 0 = info.termid := by
    simp [termidAt, seBitmap, hterm]
  have hand : (seBitmap idx wordList word).termid.drop 1 = [] := by
    simp [seBitmap, hterm]
  have hshort : toShort (b : ℤ) = b := by
    rw [toShort, Int.bmod_eq_of_le] <;> omega
  have hbits := h.stores.bits hterm b
  simp only [true_and, storedBit] at hbits
  simp only [visitRecords, seFetchBitmapBlock, bitblockId_first, hshort, hid, hand, andTerms,
    ite_self]
  cases hblock : idx.blocks ⟨b, info.termid⟩ with
  | none =>
    simp only [mem_blockRecords, bit_bitmapBlockAlloc, Bool.false_eq_true, false_and, and_false,
      exists_false, false_iff]
    rintro ⟨r, hr, hrb, -⟩
    obtain ⟨block, hsome, -⟩ := (hbits (bitblockBit r.1)).mpr ⟨r, hr, hrb, rfl⟩
    rw [hblock] at hsome
    cases hsome
  | some block =>
    simp only [hblock, Option.some.injEq, exists_eq_left'] at hbits
    rw [mem_blockRecords]
    constructor
    · rintro ⟨position, -, hset, rfl⟩
      obtain ⟨r, hr, hrb, rfl⟩ := (hbits position).mp hset
      exact ⟨r, hr, hrb, rfl⟩
    · rintro ⟨r, hr, hrb, rfl⟩
      exact ⟨bitblockBit r.1, bitblockBit_lt r.1, (hbits _).mpr ⟨r, hr, hrb, rfl⟩, rfl⟩

theorem pairwise_visitRecords (idx : IdxListEntry) (inres : WeightedResult) (b : ℕ) :
    (visitRecords idx inres b).Pairwise (· < ·) := pairwise_blockRecords _ _

theorem Loaded.aligned_block (h : Loaded word additions idx) (wordList : Bool)
    (hne : additions ≠ []) {b : ℕ} (hb : b ≤ 32767) (hvisit : b < visitedBlocks (lastRecnum additions)) :
    List.Forall₂ (fun x y ↦ x ≤ y ∧ (x = y ↔ Decodes additions x)) (inBlock (ascending additions) b)
      (visitRecords idx (seBitmap idx wordList word) b) := by
  rw [lt_visitedBlocks, BITMAP_BLOCKSIZE_BITS] at hvisit
  have hsorted := pairwise_ascending additions
  by_cases hshift : (b * 65536 : ℤ) ∈ ascending additions
  · -- the shifting record comes first in one list and last in the other
    let others := (ascending additions).filter fun x : ℤ ↦ x / 65536 = b ∧ x ≠ b * 65536
    have hothers : others.Pairwise (· < ·) := hsorted.filter _
    have hmem : ∀ x, x ∈ others ↔ x ∈ ascending additions ∧ x / 65536 = b ∧ x ≠ b * 65536 := by
      simp [others]
    have hchain : ((b : ℤ) * 65536 :: (others ++ [((b : ℤ) + 1) * 65536])).Pairwise (· < ·) := by
      rw [List.pairwise_cons, List.pairwise_append]
      refine ⟨fun x hx ↦ ?_, hothers, List.pairwise_singleton _ _, fun x hx y hy ↦ ?_⟩
      · rw [List.mem_append, hmem, List.mem_singleton] at hx
        omega
      · rw [List.mem_singleton] at hy
        rw [hmem] at hx
        omega
    have hadded : inBlock (ascending additions) b = (b : ℤ) * 65536 :: others := by
      refine List.Pairwise.eq_of_mem_iff (r := (· < ·)) (hsorted.filter _) ?_ fun x ↦ ?_
      · exact hchain.sublist ((List.sublist_append_left _ _).cons_cons _)
      · simp only [inBlock, List.mem_filter, decide_eq_true_eq, List.mem_cons, hmem]
        constructor
        · rintro ⟨hx, hblock⟩
          by_cases heq : x = b * 65536
          · exact .inl heq
          · exact .inr ⟨hx, hblock, heq⟩
        · rintro (rfl | ⟨hx, hblock, -⟩)
          · exact ⟨hshift, by omega⟩
          · exact ⟨hx, hblock⟩
    have hmet : visitRecords idx (seBitmap idx wordList word) b =
        others ++ [((b : ℤ) + 1) * 65536] := by
      refine List.Pairwise.eq_of_mem_iff (r := (· < ·)) (pairwise_visitRecords _ _ _) ?_
        fun x ↦ ?_
      · exact (List.pairwise_cons.mp hchain).2
      · rw [h.mem_visitRecords wordList hne hb, List.mem_append, hmem, List.mem_singleton]
        simp only [mem_ascending, bitblockBit_eq]
        constructor
        · rintro ⟨r, hr, hrb, rfl⟩
          have hpos := r.2.1
          by_cases heq : r.1 = b * 65536
          · exact .inr (by omega)
          · exact .inl ⟨⟨r, hr, by omega⟩, by omega, by omega⟩
        · rintro (⟨⟨r, hr, rfl⟩, hblock, hneq⟩ | rfl)
          · exact ⟨r, hr, by omega, by omega⟩
          · obtain ⟨r, hr, heq⟩ := mem_ascending.mp hshift
            have hpos := r.2.1
            exact ⟨r, hr, by omega, by omega⟩
    rw [hadded, hmet]
    have hblock : ∀ x ∈ (b : ℤ) * 65536 :: others, x / 65536 = b := by
      intro x hx
      rw [← hadded, inBlock, List.mem_filter, decide_eq_true_eq] at hx
      exact hx.2
    have hlt : List.Forall₂ (· < ·) ((b : ℤ) * 65536 :: others) (others ++ [((b : ℤ) + 1) * 65536]) :=
      List.isChain_cons_append_singleton_iff_forall₂.mp hchain.isChain
    refine ((List.forall₂_and_left _ _).mpr ⟨hblock, hlt⟩).imp fun x y hxy ↦ ?_
    refine ⟨hxy.2.le, iff_of_false hxy.2.ne fun hdecodes ↦ hdecodes.2 ?_⟩
    rwa [hxy.1]
  · -- every record of the block is met as itself
    have hsame : visitRecords idx (seBitmap idx wordList word) b =
        inBlock (ascending additions) b := by
      refine List.Pairwise.eq_of_mem_iff (r := (· < ·)) (pairwise_visitRecords _ _ _)
        (hsorted.filter _) fun x ↦ ?_
      rw [h.mem_visitRecords wordList hne hb]
      simp only [inBlock, List.mem_filter, decide_eq_true_eq, mem_ascending, bitblockBit_eq]
      constructor
      · rintro ⟨r, hr, hrb, rfl⟩
        have hpos := r.2.1
        have hneq : (r.1 : ℤ) ≠ b * 65536 := fun heq ↦ hshift (mem_ascending.mpr ⟨r, hr, heq⟩)
        exact ⟨⟨r, hr, by omega⟩, by omega⟩
      · rintro ⟨⟨r, hr, rfl⟩, hblock⟩
        have hneq : (r.1 : ℤ) ≠ b * 65536 := fun heq ↦ hshift (mem_ascending.mpr ⟨r, hr, heq⟩)
        exact ⟨r, hr, by omega, by omega⟩
    rw [hsame, List.forall₂_same]
    intro x hx
    rw [inBlock, List.mem_filter, decide_eq_true_eq] at hx
    refine ⟨le_rfl, iff_of_true rfl ⟨?_, ?_⟩⟩
    · rw [hx.2]
      exact_mod_cast hvisit
    · rwa [hx.2]

theorem Loaded.aligned (h : Loaded word additions idx) (wordList : Bool) {count : ℕ}
    (hcount : count ≤ 32768)
    (hvisited : count ≤ visitedBlocks (lastRecnum additions)) :
    List.Forall₂ (fun x y ↦ x ≤ y ∧ (x = y ↔ Decodes additions x))
      ((ascending additions).filter fun x : ℤ ↦ x < count * 65536)
      (visitBlocks idx (seBitmap idx wordList word) 0 count) := by
  rw [← flatMap_inBlock (pairwise_ascending additions)
    fun x hx ↦ (pos_of_mem_ascending hx).1.le, visitBlocks]
  have hsame : List.Forall₂ (fun b b' ↦ b = b' ∧ b < count) (List.range' 0 count)
      (List.range' 0 count) := by
    rw [List.forall₂_same]
    intro b hb
    rw [List.mem_range'_1] at hb
    exact ⟨rfl, by omega⟩
  refine List.rel_flatMap hsame ?_
  rintro b _ ⟨rfl, hb⟩
  have hne : additions ≠ [] := by
    rintro rfl
    simp [visitedBlocks, lastRecnum] at hvisited
    omega
  exact h.aligned_block wordList hne (by omega) (by omega)

theorem lastRecnum_le (additions : List Addition) : lastRecnum additions ≤ 2 ^ 31 - 1 := by
  rw [lastRecnum]
  cases additions.getLast? with
  | none => exact Nat.zero_le _
  | some addition => exact addition.recnum.2.2

theorem visitedBlocks_le (additions : List Addition) :
    visitedBlocks (lastRecnum additions) ≤ 32768 := by
  have := lastRecnum_le additions
  rw [visitedBlocks]
  omega

theorem ascending_split (additions : List Addition) (bound : ℤ) :
    ascending additions = ((ascending additions).filter fun x ↦ x < bound) ++
      (ascending additions).filter fun x ↦ bound ≤ x := by
  have hsorted := pairwise_ascending additions
  refine List.Pairwise.eq_of_mem_iff (r := (· < ·)) hsorted ?_ fun x ↦ ?_
  · rw [List.pairwise_append]
    refine ⟨hsorted.filter _, hsorted.filter _, fun x hx y hy ↦ ?_⟩
    rw [List.mem_filter, decide_eq_true_eq] at hx hy
    omega
  · simp only [List.mem_append, List.mem_filter, decide_eq_true_eq, ← and_or_left]
    exact (and_iff_left (lt_or_ge x bound)).symm

theorem Loaded.window_eq_iff (h : Loaded word additions idx) (wordList : Bool) (n k : ℕ) :
    window n k (visitBlocks idx (seBitmap idx wordList word) 0
        (visitedBlocks (lastRecnum additions))) = window n k (ascending additions) ↔
      ∀ x ∈ window n k (ascending additions), Decodes additions x := by
  let bound : ℤ := visitedBlocks (lastRecnum additions) * 65536
  have hsplit : ascending additions = ((ascending additions).filter fun x ↦ x < bound) ++
      (ascending additions).filter fun x ↦ bound ≤ x := ascending_split additions bound
  have hrest : ∀ x ∈ (ascending additions).filter fun x ↦ bound ≤ x, ¬Decodes additions x := by
    intro x hx hdecodes
    rw [List.mem_filter, decide_eq_true_eq] at hx
    have hfirst := hdecodes.1
    have hstop : ¬(x / 65536).toNat < visitedBlocks (lastRecnum additions) := by omega
    rw [lt_visitedBlocks, BITMAP_BLOCKSIZE_BITS] at hstop
    omega
  have hiff := Lib.window_eq_iff n k
    ((h.aligned wordList (visitedBlocks_le additions) le_rfl).imp fun _ _ hxy ↦ hxy.2) hrest
  rwa [← hsplit] at hiff

def hitCount (wordList : Bool) (additions : List Addition) : ℤ :=
  if wordList then if additions = [] then 0 else -1 else (added additions).length

theorem Loaded.seBitmap (h : Loaded word additions idx) (wordList : Bool) :
    (Search.seBitmap idx wordList word).numHits = hitCount wordList additions ∧
      (Search.seBitmap idx wordList word).entries = [⟨lastRecnum additions, 0, 0⟩] := by
  by_cases hnil : additions = []
  · subst hnil
    cases wordList <;>
      simp [Search.seBitmap, h.missing rfl, hitCount, added, lastRecnum, WeightedEntry.zero]
  · obtain ⟨info, first, rest, hterm, hcount, hentries, hlast⟩ := h.entry hnil
    cases wordList <;> simp [Search.seBitmap, hterm, hitCount, hnil, hcount, hentries, hlast]

/-- The walk ends before the last block of the `short` numbers. -/
def EndsInRange (additions : List Addition) (n k : ℕ) : Prop :=
  lastRecnum additions ≤ 2147418113 ∨
    n ≤ (window n k ((ascending additions).filter fun x ↦ x < 2147418112)).length

theorem Loaded.endsInRange_iff (h : Loaded word additions idx) (wordList : Bool) (n k : ℕ) :
    EndsInRange additions n k ↔ visitedBlocks (lastRecnum additions) ≤ 32767 ∨
      n ≤ (window n k (visitBlocks idx (Search.seBitmap idx wordList word) 0 32767)).length := by
  have hlast : lastRecnum additions ≤ 2147418113 ↔
      visitedBlocks (lastRecnum additions) ≤ 32767 := by
    rw [visitedBlocks]
    omega
  rw [EndsInRange, hlast]
  refine or_congr_right' fun hvisited ↦ ?_
  have hle : 32767 ≤ visitedBlocks (lastRecnum additions) := (not_le.mp hvisited).le
  have hlength := (h.aligned wordList (by decide) hle).length_eq
  norm_num at hlength
  rw [length_window, length_window, hlength]

/-- The block of entries before the walk: the copied one of the header and the zeroed others. -/
def allocatedEntries (lastRecord : ℕ) (n : ℕ) : List WeightedEntry :=
  ⟨lastRecord, 0, 0⟩ :: Buffer.calloc WeightedEntry.zero (n + 1)

theorem lt_length_allocatedEntries (lastRecord n : ℕ) :
    n < (allocatedEntries lastRecord n).length := by
  rw [allocatedEntries, List.length_cons, Buffer.calloc, List.length_replicate]
  omega

/-- The walk over the blocks from the first one on. -/
def walk (idx : IdxListEntry) (inres : WeightedResult) (lastRecord n k : ℕ) : Exec Enumeration :=
  scanBlocks idx inres lastRecord n k (bitblockId lastRecord + 2) (0 * BITMAP_BLOCKSIZE_BITS + 1) 0
    none ⟨allocatedEntries lastRecord n, 0, 0⟩

variable {k : ℕ}

section Conversion

variable (idx : IdxListEntry) {inset : WeightedResult} {last n : ℕ}

theorem seBitmapToResult_eq (hentry : inset.entryAt 0 = .ok ⟨last, 0, 0⟩) (hn : n < INT_MAX)
    (k : ℕ) : seBitmapToResult idx (some inset) n k =
      walk idx inset last n k >>= fun s ↦ .ok (some (enumeratedResult inset s)) := by
  have hsize : checkInt ((n : ℤ) + 1) = .ok ((n + 1 : ℕ) : ℤ) := by
    refine checkInt_of_inRange ?_
    have hn' : n < 2 ^ 31 - 1 := hn
    rw [InRange]
    omega
  rw [seBitmapToResult, hentry, walk, allocatedEntries, Nat.zero_mul, Nat.zero_add]
  -- the loop is opaque here
  generalize scanBlocks idx inset = scan
  rw [hsize]
  rfl

theorem seBitmapToResult_ok (hentry : inset.entryAt 0 = .ok ⟨last, 0, 0⟩) (hn : n < INT_MAX)
    (hends : visitedBlocks last ≤ 32767 ∨ n ≤ (window n k (visitBlocks idx inset 0 32767)).length) :
    ∃ s, seBitmapToResult idx (some inset) n k = .ok (some (enumeratedResult inset s)) ∧
      Enumerated n k (allocatedEntries last n) (visitBlocks idx inset 0 (visitedBlocks last)) s := by
  rw [← List.nil_append (visitBlocks _ _ 0 32767)] at hends
  obtain ⟨s, hwalk, hmet⟩ := Enumerated.scanBlocks idx inset (lt_length_allocatedEntries last n)
    (visitedBlocks last) 0 (bitblockId last + 2) (by omega)
    (by rw [visitedBlocks, bitblockId_eq]; omega) (.inl rfl) (enumerated_start n k _) hends
  rw [List.nil_append] at hmet
  refine ⟨s, ?_, hmet⟩
  rw [seBitmapToResult_eq idx hentry hn, walk, hwalk]
  rfl

theorem seBitmapToResult_fault (hentry : inset.entryAt 0 = .ok ⟨last, 0, 0⟩)
    (hnot : ¬(n < INT_MAX ∧ (visitedBlocks last ≤ 32767 ∨
      n ≤ (window n k (visitBlocks idx inset 0 32767)).length)))
    (res : Option WeightedResult) : seBitmapToResult idx (some inset) n k ≠ .ok res := by
  by_cases hn : n < INT_MAX
  · have hends : ¬(visitedBlocks last ≤ 32767 ∨
        n ≤ (window n k (visitBlocks idx inset 0 32767)).length) := fun hends ↦ hnot ⟨hn, hends⟩
    rw [not_or, not_le, not_le, ← List.nil_append (visitBlocks _ _ 0 32767)] at hends
    have hwalk (s : Enumeration) : walk idx inset last n k ≠ .ok s :=
      Enumerated.scanBlocks_overflow idx inset (lt_length_allocatedEntries last n) hends.1 32767 0
        (bitblockId last + 2) (Nat.zero_add _) (.inl rfl) (enumerated_start n k _) hends.2 s
    rw [seBitmapToResult_eq idx hentry hn]
    cases hrun : walk idx inset last n k with
    | error fault => simp [bind, Except.bind]
    | ok s => exact absurd hrun (hwalk s)
  · have hn' : ¬n < 2 ^ 31 - 1 := hn
    have hsize : checkInt ((n : ℤ) + 1) = .error .signedOverflow := if_neg (by omega)
    rw [seBitmapToResult, hentry]
    generalize scanBlocks idx inset = scan
    rw [hsize]
    exact fun heq ↦ by cases heq

end Conversion

theorem Loaded.entryAt (h : Loaded word additions idx) (wordList : Bool) :
    (Search.seBitmap idx wordList word).entryAt 0 = .ok ⟨lastRecnum additions, 0, 0⟩ := by
  rw [WeightedResult.entryAt, (h.seBitmap wordList).2, List.getElem?_cons_zero]

theorem Loaded.toResult_ok (h : Loaded word additions idx) (wordList : Bool) {n : ℕ}
    (hn : n < INT_MAX) (hends : EndsInRange additions n k) : ∃ res,
    seBitmapToResult idx (some (Search.seBitmap idx wordList word)) n k = .ok (some res) ∧
      (let met := window n k (visitBlocks idx (Search.seBitmap idx wordList word) 0
        (visitedBlocks (lastRecnum additions)))
      res.numHits = (if hitCount wordList additions > 0 then hitCount wordList additions
        else met.length) ∧
      res.entries.map WeightedEntry.recordNum =
        met ++ ((lastRecnum additions : ℤ) :: List.replicate (n + 1) 0).drop met.length ∧
      res.entries.drop (n + 1) = [WeightedEntry.zero]) := by
  obtain ⟨s, hrun, hmet⟩ := seBitmapToResult_ok idx (h.entryAt wordList) hn
    ((h.endsInRange_iff wordList n k).mp hends)
  refine ⟨_, hrun, ?_, hmet.records.trans ?_, ?_⟩
  · simp only [enumeratedResult, (h.seBitmap wordList).1, hmet.numHits]
  · simp [allocatedEntries, Buffer.calloc, WeightedEntry.zero]
  · have htail := congrArg (List.drop 1) hmet.untouched
    rw [List.drop_drop, List.drop_drop] at htail
    rw [enumeratedResult, htail]
    simp [allocatedEntries, Buffer.calloc]

theorem Loaded.toResult_fault (h : Loaded word additions idx) (wordList : Bool) {n : ℕ}
    (hnot : ¬(n < INT_MAX ∧ EndsInRange additions n k)) (res : Option WeightedResult) :
    seBitmapToResult idx (some (Search.seBitmap idx wordList word)) n k ≠ .ok res := by
  rw [h.endsInRange_iff wordList] at hnot
  exact seBitmapToResult_fault idx (h.entryAt wordList) hnot res

/-- The conversion succeeds with exactly the wanted records, counts them, and writes nothing past
the `n + 1` entries that it asks for. -/
def EnumeratesExactly (outcome : Exec (Option WeightedResult)) (n : ℕ) (wanted : List ℤ) : Prop :=
  ∃ res, outcome = .ok (some res) ∧ res.recordNums = wanted ∧ res.numHits = wanted.length ∧
    res.entries.drop (n + 1) = [WeightedEntry.zero]

/-- The only added record is the one wanted, and the walk does not reach its block: the copied
header entry stands in its place. -/
def HeaderStandsIn (additions : List Addition) (n k : ℕ) : Prop :=
  ∃ r, added additions = [r] ∧ window n k (ascending additions) = [(r.1 : ℤ)] ∧
    r.1 ≤ r.1 / 65536 * 65536 + 1

/-- When the enumeration is exact. -/
structure EnumerationCondition (additions : List Addition) (wordList : Bool) (n k : ℕ) :
    Prop where
  size_lt : n < INT_MAX
  ends : EndsInRange additions n k
  counted : wordList = true ∨
    (added additions).length = (window n k (ascending additions)).length
  decodes : (∀ x ∈ window n k (ascending additions), Decodes additions x) ∨
    (wordList = false ∧ HeaderStandsIn additions n k)

theorem lastRecnum_mem (hne : additions ≠ []) :
    ∃ r ∈ added additions, r.1 = lastRecnum additions := by
  rw [lastRecnum, List.getLast?_eq_some_getLast hne]
  exact ⟨_, List.mem_flatMap.mpr ⟨_, List.getLast_mem hne, Addition.recnum_mem_records _⟩, rfl⟩

variable {r : RecordNumber}

theorem lastRecnum_of_added (hadded : added additions = [r]) : lastRecnum additions = r.1 := by
  have hne : additions ≠ [] := by
    rintro rfl
    cases hadded
  obtain ⟨last, hlast, heq⟩ := lastRecnum_mem hne
  rw [hadded, List.mem_singleton] at hlast
  rw [← heq, hlast]

theorem ascending_of_added (hadded : added additions = [r]) :
    ascending additions = [(r.1 : ℤ)] := by
  rw [ascending, hadded]
  simp

theorem Loaded.length_met (h : Loaded word additions idx) (wordList : Bool) (n k : ℕ) :
    (window n k (visitBlocks idx (Search.seBitmap idx wordList word) 0
        (visitedBlocks (lastRecnum additions)))).length =
      (window n k ((ascending additions).filter fun x : ℤ ↦
        x < visitedBlocks (lastRecnum additions) * 65536)).length := by
  rw [length_window, length_window,
    (h.aligned wordList (visitedBlocks_le additions) le_rfl).length_eq]

theorem Loaded.length_met_le (h : Loaded word additions idx) (wordList : Bool) (n k : ℕ) :
    (window n k (visitBlocks idx (Search.seBitmap idx wordList word) 0
        (visitedBlocks (lastRecnum additions)))).length ≤
      (window n k (ascending additions)).length := by
  rw [h.length_met, length_window, length_window]
  have := List.length_filter_le (fun x : ℤ ↦ decide
    (x < visitedBlocks (lastRecnum additions) * 65536)) (ascending additions)
  omega

theorem Loaded.length_met_single (h : Loaded word additions idx) (wordList : Bool) (n k : ℕ)
    (hadded : added additions = [r]) (hwindow : window n k (ascending additions) = [(r.1 : ℤ)]) :
    (window n k (visitBlocks idx (Search.seBitmap idx wordList word) 0
        (visitedBlocks (lastRecnum additions)))).length =
      if r.1 ≤ r.1 / 65536 * 65536 + 1 then 0 else 1 := by
  have hvisit : (r.1 : ℤ) < visitedBlocks (lastRecnum additions) * 65536 ↔
      ¬r.1 ≤ r.1 / 65536 * 65536 + 1 := by
    have hiff : r.1 / 65536 < visitedBlocks r.1 ↔ _ := lt_visitedBlocks
    rw [BITMAP_BLOCKSIZE_BITS] at hiff
    rw [lastRecnum_of_added hadded, not_le, ← hiff]
    omega
  rw [h.length_met]
  rw [ascending_of_added hadded] at hwindow ⊢
  by_cases hheader : r.1 ≤ r.1 / 65536 * 65536 + 1
  · rw [List.filter_cons, if_neg (by simpa using (not_congr hvisit).mpr (not_not.mpr hheader)),
      if_pos hheader]
    simp
  · rw [List.filter_cons, if_pos (by simpa using hvisit.mpr hheader), if_neg hheader,
      List.filter_nil, hwindow, List.length_singleton]

theorem eq_singleton_of_take {met wanted : List ℤ} {lastRecord : ℤ} {n : ℕ}
    (hlt : met.length < wanted.length) (hpos : ∀ x ∈ wanted, 0 < x)
    (htake : (met ++ (lastRecord :: List.replicate (n + 1) 0).drop met.length).take wanted.length =
      wanted) : met = [] ∧ wanted = [lastRecord] := by
  have hzero : ∀ i, 0 < i → met.length ≤ i → i < wanted.length → False := by
    intro i hi hmet hlength
    have hget : wanted[i]? = some 0 := by
      have hlong : i < (met ++ (lastRecord :: List.replicate (n + 1) 0).drop met.length).length := by
        have := congrArg List.length htake
        rw [List.length_take] at this
        omega
      rw [← htake, List.getElem?_take_of_lt hlength, List.getElem?_append_right hmet,
        List.getElem?_drop, Nat.add_sub_cancel' hmet, List.getElem?_cons, if_neg (by omega),
        List.getElem?_replicate_of_lt]
      simp only [List.length_append, List.length_drop, List.length_cons, List.length_replicate]
        at hlong
      omega
    exact lt_irrefl _ (hpos 0 (List.mem_of_getElem? hget))
  have hnil : met = [] := by
    rw [← List.length_eq_zero_iff]
    by_contra hne
    exact hzero met.length (by omega) le_rfl hlt
  have hone : wanted.length = 1 := by
    by_contra hne
    exact hzero 1 one_pos (by rw [hnil]; simp) (by omega)
  refine ⟨hnil, ?_⟩
  rw [hone, hnil] at htake
  rw [← htake]
  simp

theorem WeightedResult.recordNums_eq_take (set : WeightedResult) :
    set.recordNums = (set.entries.map WeightedEntry.recordNum).take set.numHits.toNat := by
  rw [recordNums, hits, List.map_take]

theorem hitCount_pos_iff (wordList : Bool) (additions : List Addition) :
    0 < hitCount wordList additions ↔ wordList = false ∧ added additions ≠ [] := by
  cases wordList with
  | false => simp [hitCount, List.length_pos_iff]
  | true =>
    by_cases hnil : additions = [] <;> simp [hitCount, hnil]

theorem Loaded.enumeratesExactly_iff (h : Loaded word additions idx) (wordList : Bool)
    (n k : ℕ) : EnumeratesExactly
      (seBitmapToResult idx (some (Search.seBitmap idx wordList word)) n k) n
      (window n k (ascending additions)) ↔ EnumerationCondition additions wordList n k := by
  by_cases hruns : n < INT_MAX ∧ EndsInRange additions n k
  swap
  · refine iff_of_false ?_ fun hcond ↦ hruns ⟨hcond.size_lt, hcond.ends⟩
    rintro ⟨res, hok, -⟩
    exact h.toResult_fault wordList hruns _ hok
  obtain ⟨res, hres, hhits, hrecords, htail⟩ := h.toResult_ok wordList hruns.1 hruns.2
  have hle := h.length_met_le wordList n k
  have hwindow := h.window_eq_iff wordList n k
  have hsingle := fun r hadded ↦ h.length_met_single wordList n k (r := r) hadded
  revert hhits hrecords hle hwindow hsingle
  generalize window n k (visitBlocks idx (Search.seBitmap idx wordList word) 0
    (visitedBlocks (lastRecnum additions))) = met
  intro hhits hrecords hle hwindow hsingle
  have hpos : ∀ x ∈ window n k (ascending additions), 0 < x := fun x hx ↦
    (pos_of_mem_ascending (mem_of_mem_window hx)).1
  have hexact : EnumeratesExactly
      (seBitmapToResult idx (some (Search.seBitmap idx wordList word)) n k) n
      (window n k (ascending additions)) ↔
      res.recordNums = window n k (ascending additions) ∧
        res.numHits = (window n k (ascending additions)).length := by
    constructor
    · rintro ⟨res', hres', hnums, hcount, -⟩
      rw [hres, Except.ok.injEq, Option.some.injEq] at hres'
      exact hres' ▸ ⟨hnums, hcount⟩
    · exact fun hboth ↦ ⟨res, hres, hboth.1, hboth.2, htail⟩
  rw [hexact, WeightedResult.recordNums_eq_take, hhits, hrecords]
  by_cases hknown : 0 < hitCount wordList additions
  · -- the count is that of all the additions
    obtain ⟨rfl, hne⟩ := (hitCount_pos_iff _ _).mp hknown
    have hcount : hitCount false additions = (added additions).length := rfl
    rw [if_pos hknown, hcount, Int.toNat_natCast, Nat.cast_inj]
    constructor
    · rintro ⟨htake, hlength⟩
      refine ⟨hruns.1, hruns.2, .inr hlength, ?_⟩
      by_cases hdecodes : ∀ x ∈ window n k (ascending additions), Decodes additions x
      · exact .inl hdecodes
      · have hmet : met ≠ window n k (ascending additions) := fun heq ↦ hdecodes (hwindow.mp heq)
        rw [hlength] at htake
        have hlt : met.length < (window n k (ascending additions)).length := by
          refine lt_of_le_of_ne hle fun heq ↦ hmet ?_
          rwa [← heq, List.take_left] at htake
        obtain ⟨hnil, hwanted⟩ := eq_singleton_of_take hlt hpos htake
        rw [hwanted, List.length_singleton, List.length_eq_one_iff] at hlength
        obtain ⟨r, hadded⟩ := hlength
        rw [lastRecnum_of_added hadded] at hwanted
        refine .inr ⟨rfl, r, hadded, hwanted, ?_⟩
        by_contra hnot
        have hone := hsingle r hadded hwanted
        rw [if_neg hnot, hnil] at hone
        cases hone
    · intro hcond
      have hlength := hcond.counted.resolve_left Bool.false_ne_true
      refine ⟨?_, hlength⟩
      rw [hlength]
      rcases hcond.decodes with hdecodes | ⟨-, r, hadded, hwanted, hheader⟩
      · rw [hwindow.mpr hdecodes, List.take_left]
      · have hzero := hsingle r hadded hwanted
        rw [if_pos hheader, List.length_eq_zero_iff] at hzero
        rw [hzero, hwanted, lastRecnum_of_added hadded]
        simp
  · -- the count is that of the filled entries
    rw [if_neg hknown, Int.toNat_natCast, List.take_left, Nat.cast_inj]
    have hunknown : wordList = true ∨ added additions = [] := by
      rw [hitCount_pos_iff, not_and_or, not_not] at hknown
      simpa using hknown
    constructor
    · rintro ⟨heq, -⟩
      refine ⟨hruns.1, hruns.2, hunknown.imp_right fun hnil ↦ ?_, .inl (hwindow.mp heq)⟩
      have hempty : ascending additions = [] := by simp [ascending, hnil]
      rw [hnil, hempty, window_nil, List.length_nil, List.length_nil]
    · intro hcond
      have hdecodes : ∀ x ∈ window n k (ascending additions), Decodes additions x := by
        refine hcond.decodes.resolve_right ?_
        rintro ⟨rfl, r, hadded, -⟩
        rcases hunknown with hword | hnil
        · cases hword
        · rw [hadded] at hnil
          cases hnil
      rw [hwindow.mpr hdecodes]
      exact ⟨rfl, rfl⟩

end Alignment

/-- After any additions for one term, the conversion of a search result lists exactly the wanted
records if and only if the condition holds. -/
theorem bitmapEnumeration_iff (idxType : ℕ) (word : Term) (additions : List Addition)
    (wordList : Bool) (n k : ℕ) :
    ∃ idx, Runs.run (stepAddition word) (IdxListEntry.created idxType) additions = .ok idx ∧
      (EnumeratesExactly (seBitmapToResult idx (some (seBitmap idx wordList word)) n k) n
        (window n k (ascending additions)) ↔ EnumerationCondition additions wordList n k) := by
  obtain ⟨idx, hrun, hloaded⟩ := loaded_run idxType word additions
  exact ⟨idx, hrun, hloaded.enumeratesExactly_iff wordList n k⟩

/-- Of the records 65536 and 65600 the first is listed as 131072. -/
theorem bitmapEnumeration_shifted : ¬∀ (idxType : ℕ) (word : Term) (additions : List Addition)
    (wordList : Bool) (n k : ℕ) (idx : IdxListEntry),
    Runs.run (stepAddition word) (IdxListEntry.created idxType) additions = .ok idx →
      EnumeratesExactly (seBitmapToResult idx (some (seBitmap idx wordList word)) n k) n
        (window n k (ascending additions)) := by
  intro hall
  let additions : List Addition :=
    [.single ⟨65536, by decide, by decide⟩, .single ⟨65600, by decide, by decide⟩]
  obtain ⟨idx, hrun, hloaded⟩ := loaded_run BITMAPPED_TYPE [97] additions
  have hcond := (hloaded.enumeratesExactly_iff true 2 0).mp
    (hall BITMAPPED_TYPE [97] additions true 2 0 idx hrun)
  have hlength : (ascending additions).length ≤ 2 := by
    rw [ascending, Finset.length_sort]
    exact List.toFinset_card_le _
  have hwindow : window 2 0 (ascending additions) = ascending additions := by
    rw [window, List.drop_zero, List.take_of_length_le hlength]
  have hmem : (65536 : ℤ) ∈ ascending additions :=
    mem_ascending.mpr ⟨⟨65536, by decide, by decide⟩, by simp [additions, added, Addition.records],
      rfl⟩
  rcases hcond.decodes with hdecodes | ⟨hfalse, -⟩
  · exact (hdecodes 65536 (by rwa [hwindow])).2 (by simpa using hmem)
  · cases hfalse

end Cheshire.Search
