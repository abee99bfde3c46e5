import Cheshire.Search.BitmapOperand
import Cheshire.Search.BooleanMergeSets

/-!
# Combining two bitmap results

`se_bitmaps_and` goes through the blocks that both headers announce, combines them byte by byte and
stores a decoded number for every bit.  For NOT the blocks of the first operand behind the last
block of the second are left out, and the space is measured by the smaller hit count.
-/

namespace Cheshire.Search

open Lib Index

/-- Numbers stored one behind the other. -/
def storeAll : List ℤ → NewSet → Exec NewSet
  | [], wtRes => .ok wtRes
  | x :: xs, wtRes => do
    let recordNum ← checkInt x
    let wtRes ← wtRes.put { recordNum := recordNum, xtra := 0, weight := 1 }
    storeAll xs wtRes

theorem storeAll_append (xs ys : List ℤ) (wtRes : NewSet) :
    storeAll (xs ++ ys) wtRes = storeAll xs wtRes >>= storeAll ys := by
  induction xs generalizing wtRes with
  | nil => rfl
  | cons x xs ih =>
    rw [List.cons_append, storeAll, storeAll]
    cases checkInt x with
    | error fault => rfl
    | ok recordNum =>
      simp only [bind, Except.bind]
      cases wtRes.put { recordNum := recordNum, xtra := 0, weight := 1 } with
      | error fault => rfl
      | ok wtRes => exact ih wtRes

theorem storeBits_eq (byte : BitVec 8) (base : ℤ) (bits : List ℕ) (wtRes : NewSet) :
    storeBits byte base bits wtRes = storeAll ((bits.filter fun bit ↦
      byte &&& (1#8 <<< bit) != 0#8).map fun bit : ℕ ↦ base + bit + 1) wtRes := by
  induction bits generalizing wtRes with
  | nil => rfl
  | cons bit bits ih =>
    rw [storeBits, storeBit]
    by_cases hbit : (byte &&& (1#8 <<< bit) != 0#8) = true
    · rw [if_pos hbit, List.filter_cons, if_pos hbit, List.map_cons, storeAll]
      cases checkInt (base + bit + 1) with
      | error fault => rfl
      | ok recordNum =>
        simp only [bind, Except.bind]
        cases wtRes.put { recordNum := recordNum, xtra := 0, weight := 1 } with
        | error fault => rfl
        | ok wtRes => exact ih wtRes
    · rw [if_neg hbit, List.filter_cons, if_neg hbit]
      exact ih wtRes

def combineBlock (oper : ℕ) (resultBlock1 resultBlock2 : Block) : Block :=
  Vector.zipWith (combineByte oper) resultBlock1 resultBlock2

theorem byte_combineBlock (oper : ℕ) (resultBlock1 resultBlock2 : Block) {j : ℕ}
    (hj : j < BITMAP_BLOCKSIZE_BYTES) : (combineBlock oper resultBlock1 resultBlock2).byte j =
      combineByte oper (resultBlock1.byte j) (resultBlock2.byte j) := by
  simp [Block.byte, combineBlock, hj]

theorem bit_combineBlock (oper : ℕ) (resultBlock1 resultBlock2 : Block) {position : ℕ}
    (hposition : position < 65536) :
    (combineBlock oper resultBlock1 resultBlock2).bit position = (resultBlock1.bit position &&
      if oper = BOOLEAN_AND then resultBlock2.bit position else !resultBlock2.bit position) := by
  have hbyte : position / 8 < BITMAP_BLOCKSIZE_BYTES := by
    rw [BITMAP_BLOCKSIZE_BYTES]
    omega
  have hbit : position % 8 < 8 := by omega
  rw [Block.bit, byte_combineBlock oper resultBlock1 resultBlock2 hbyte, combineByte]
  split
  · rw [BitVec.getLsbD_and, Block.bit, Block.bit]
  · rw [BitVec.getLsbD_and, BitVec.getLsbD_not, decide_eq_true hbit, Bool.true_and, Block.bit,
      Block.bit]

theorem storeBytes_eq (oper : ℕ) (resultBlock1 resultBlock2 : Block) (block : ℕ) (js : List ℕ)
    (hjs : ∀ j ∈ js, j < BITMAP_BLOCKSIZE_BYTES) (wtRes : NewSet) :
    storeBytes oper resultBlock1 resultBlock2 block js wtRes =
      storeAll (js.flatMap (byteRecords (combineBlock oper resultBlock1 resultBlock2) block))
        wtRes := by
  induction js generalizing wtRes with
  | nil => rfl
  | cons j js ih =>
    have hbyte := byte_combineBlock oper resultBlock1 resultBlock2 (hjs j List.mem_cons_self)
    have hrest := ih fun j' hj' ↦ hjs j' (List.mem_cons_of_mem _ hj')
    rw [storeBytes, List.flatMap_cons, storeAll_append, ← hbyte]
    by_cases hzero :
        ((combineBlock oper resultBlock1 resultBlock2).byte j != 0#8) = true
    · rw [if_pos hzero, storeBits_eq]
      simp only [hrest]
      rfl
    · rw [if_neg hzero]
      have hnil : byteRecords (combineBlock oper resultBlock1 resultBlock2) block j = [] := by
        rw [bne_iff_ne, not_not] at hzero
        simp [byteRecords, hzero]
      rw [hnil]
      exact hrest wtRes

def operandBlock (idx : IdxListEntry) (set : WeightedResult) (b : ℕ) : Block :=
  (seFetchBitmapBlock idx set (b * BITMAP_BLOCKSIZE_BITS + 1) 0 none).1

/-- The block fetched last is not the one with this number. -/
def Fetched.Fresh (s : Fetched) (b : ℕ) : Prop := s.resultBlock = none ∨ s.maxBlockno ≠ b

theorem Fetched.Fresh.next {s : Fetched} {b : ℕ} (h : s.Fresh b) (idx : IdxListEntry)
    (set : WeightedResult) :
    ∃ s', s.next (some idx) set b = .ok (operandBlock idx set b, s') ∧ s'.Fresh (b + 1) := by
  have hfetch := seFetchBitmapBlock_fresh idx set (b * BITMAP_BLOCKSIZE_BITS + 1) (by rwa [bitblockId_first])
  refine ⟨_, by simp only [Fetched.next, deref, bind, Except.bind, hfetch]; rfl, .inr ?_⟩
  rcases seFetchBitmapBlock_snd idx set b with hno | hno
  · simp only [hno]
    omega
  · simp only [hno]
    omega

/-- The numbers stored for a block. -/
def combinedRecords (idx1 idx2 : IdxListEntry) (set1 set2 : WeightedResult) (oper b : ℕ) :
    List ℤ :=
  blockRecords (combineBlock oper (operandBlock idx1 set1 b) (operandBlock idx2 set2 b)) b

theorem storeBlocks_eq (idx1 idx2 : IdxListEntry) (set1 set2 : WeightedResult) (oper count : ℕ) :
    ∀ (b : ℕ) {s1 s2 : Fetched} (_ : s1.Fresh b) (_ : s2.Fresh b) (wtRes : NewSet),
      storeBlocks (some idx1) (some idx2) set1 set2 oper (List.range' b count) s1 s2 wtRes =
        storeAll ((List.range' b count).flatMap
          (combinedRecords idx1 idx2 set1 set2 oper)) wtRes := by
  induction count with
  | zero =>
    intro b s1 s2 _ _ wtRes
    rfl
  | succ count ih =>
    intro b s1 s2 h1 h2 wtRes
    obtain ⟨s1', hrun1, h1'⟩ := h1.next idx1 set1
    obtain ⟨s2', hrun2, h2'⟩ := h2.next idx2 set2
    rw [List.range'_succ, List.flatMap_cons, storeAll_append, storeBlocks, hrun1, hrun2]
    simp only [bind, Except.bind]
    rw [storeBytes_eq _ _ _ _ _ fun j hj ↦ List.mem_range.mp hj]
    have hblock : storeAll ((List.range BITMAP_BLOCKSIZE_BYTES).flatMap (byteRecords
        (combineBlock oper (operandBlock idx1 set1 b) (operandBlock idx2 set2 b)) b)) wtRes =
        storeAll (combinedRecords idx1 idx2 set1 set2 oper b) wtRes := rfl
    rw [hblock]
    cases storeAll (combinedRecords idx1 idx2 set1 set2 oper b) wtRes with
    | error fault => rfl
    | ok wtRes => exact ih (b + 1) h1' h2' wtRes

/-- What the operator keeps of two record lists. -/
def kept (oper : ℕ) (records1 records2 : List ℤ) (x : ℤ) : Prop :=
  x ∈ records1 ∧ if oper = BOOLEAN_AND then x ∈ records2 else x ∉ records2

section Stored

variable {idx1 idx2 : IdxListEntry} {set1 set2 : WeightedResult} {records1 records2 : List ℤ}
  {last1 last2 : ℕ}

theorem BitmapOperand.bit_operandBlock (h : BitmapOperand (some idx1) set1 records1 last1) {x : ℤ}
    (hpos : 0 < x) (hmax : x ≤ INT_MAX) {b : ℕ} (hb : x / 65536 = b) :
    (operandBlock idx1 set1 b).bit ((x - 1) % 65536).toNat = true ↔ x ∈ records1 := by
  have hle : x ≤ 2 ^ 31 - 1 := by
    rw [INT_MAX] at hmax
    omega
  rw [operandBlock, h.stored idx1 rfl b (by omega)]
  constructor
  · rintro ⟨y, hy, hblock, hposition⟩
    have hpos' := (h.inRange y hy).1
    have hsame : x = y := by omega
    rwa [hsame]
  · intro hx
    exact ⟨x, hx, hb, by omega⟩

theorem mem_combinedRecords (h1 : BitmapOperand (some idx1) set1 records1 last1)
    (h2 : BitmapOperand (some idx2) set2 records2 last2) (oper : ℕ) {b : ℕ} (hb : b ≤ 32767)
    {y : ℤ} : y ∈ combinedRecords idx1 idx2 set1 set2 oper b ↔
      ∃ x, kept oper records1 records2 x ∧ x / 65536 = b ∧ y = decoded x := by
  rw [combinedRecords, mem_blockRecords]
  constructor
  · rintro ⟨position, hposition, hbit, rfl⟩
    rw [bit_combineBlock oper _ _ hposition, Bool.and_eq_true] at hbit
    obtain ⟨hbit1, hbit2⟩ := hbit
    obtain ⟨x, hx, hblock, hx'⟩ := (h1.stored idx1 rfl b hb position).mp hbit1
    obtain ⟨hpos, hmax⟩ := h1.inRange x hx
    have hat : ((x - 1) % 65536).toNat = position := by omega
    have hmem := h2.bit_operandBlock hpos hmax hblock
    rw [hat] at hmem
    refine ⟨x, ⟨hx, ?_⟩, hblock, by rw [decoded, hblock, hx']⟩
    by_cases hoper : oper = BOOLEAN_AND
    · rw [if_pos hoper] at hbit2 ⊢
      exact hmem.mp hbit2
    · rw [if_neg hoper, Bool.not_eq_true'] at hbit2
      rw [if_neg hoper, ← hmem, hbit2]
      exact Bool.false_ne_true
  · rintro ⟨x, ⟨hx, hother⟩, hblock, rfl⟩
    obtain ⟨hpos, hmax⟩ := h1.inRange x hx
    have hmem1 := h1.bit_operandBlock hpos hmax hblock
    have hmem2 := h2.bit_operandBlock hpos hmax hblock
    have hposition : ((x - 1) % 65536).toNat < 65536 := by omega
    refine ⟨((x - 1) % 65536).toNat, hposition, ?_, by rw [decoded]; omega⟩
    rw [bit_combineBlock oper _ _ hposition, Bool.and_eq_true]
    refine ⟨hmem1.mpr hx, ?_⟩
    by_cases hoper : oper = BOOLEAN_AND
    · rw [if_pos hoper] at hother ⊢
      exact hmem2.mpr hother
    · rw [if_neg hoper] at hother ⊢
      rw [Bool.not_eq_true', ← Bool.not_eq_true, hmem2]
      exact hother

/-- The numbers stored for the first blocks. -/
def storedRecords (idx1 idx2 : IdxListEntry) (set1 set2 : WeightedResult) (oper count : ℕ) :
    List ℤ := (List.range' 0 count).flatMap (combinedRecords idx1 idx2 set1 set2 oper)

theorem mem_storedRecords (h1 : BitmapOperand (some idx1) set1 records1 last1)
    (h2 : BitmapOperand (some idx2) set2 records2 last2) (oper : ℕ) {count : ℕ}
    (hcount : count ≤ 32768) {y : ℤ} : y ∈ storedRecords idx1 idx2 set1 set2 oper count ↔
      ∃ x, kept oper records1 records2 x ∧ x / 65536 < count ∧ y = decoded x := by
  rw [storedRecords, List.mem_flatMap]
  constructor
  · rintro ⟨b, hb, hy⟩
    rw [List.mem_range'_1] at hb
    obtain ⟨x, hx, hblock, rfl⟩ := (mem_combinedRecords h1 h2 oper (by omega)).mp hy
    exact ⟨x, hx, by omega, rfl⟩
  · rintro ⟨x, hx, hlt, rfl⟩
    have hpos := (h1.inRange x hx.1).1
    refine ⟨(x / 65536).toNat, List.mem_range'_1.mpr (by omega), ?_⟩
    exact (mem_combinedRecords h1 h2 oper (by omega)).mpr ⟨x, hx, by omega, rfl⟩

theorem pairwise_storedRecords (idx1 idx2 : IdxListEntry) (set1 set2 : WeightedResult)
    (oper count : ℕ) : (storedRecords idx1 idx2 set1 set2 oper count).Pairwise (· < ·) := by
  rw [storedRecords, List.pairwise_flatMap]
  refine ⟨fun b _ ↦ pairwise_blockRecords _ _, ?_⟩
  refine (List.pairwise_lt_range' (s := 0) (n := count)).imp ?_
  intro b b' hlt y hy y' hy'
  obtain ⟨position, hposition, -, rfl⟩ := mem_blockRecords.mp hy
  obtain ⟨position', -, -, rfl⟩ := mem_blockRecords.mp hy'
  omega

end Stored

theorem storeAll_ok (xs : List ℤ) : ∀ {wtRes : NewSet} {total : ℕ} {out : List WeightedEntry},
    wtRes.Filled total out → (∀ x ∈ xs, InRange x) → out.length + xs.length ≤ total + 1 →
    ∃ wtRes' out', storeAll xs wtRes = .ok wtRes' ∧ wtRes'.Filled total out' ∧
      out'.map WeightedEntry.recordNum = out.map WeightedEntry.recordNum ++ xs := by
  induction xs with
  | nil =>
    intro wtRes total out hfilled _ _
    exact ⟨wtRes, out, rfl, hfilled, by simp⟩
  | cons x xs ih =>
    intro wtRes total out hfilled hrange hlength
    rw [List.length_cons] at hlength
    obtain ⟨cells, hcells, hholds⟩ := hfilled.holds.store (show out.length < total + 1 by omega)
      { recordNum := x, xtra := 0, weight := 1 }
    have hput : wtRes.put { recordNum := x, xtra := 0, weight := 1 } =
        .ok { wtRes with cells := cells, index := wtRes.index + 1 } := by
      rw [NewSet.put, hfilled.index_eq, hcells]
    have hnext : NewSet.Filled { wtRes with cells := cells, index := wtRes.index + 1 } total
        (out ++ [{ recordNum := x, xtra := 0, weight := 1 }]) :=
      ⟨hholds, by simp [hfilled.index_eq]⟩
    obtain ⟨wtRes', out', hrun, hfilled', hout⟩ := ih hnext
      (fun y hy ↦ hrange y (List.mem_cons_of_mem _ hy))
      (by rw [List.length_append, List.length_singleton]; omega)
    refine ⟨wtRes', out', ?_, hfilled', by simpa using hout⟩
    rw [storeAll, checkInt_of_inRange (hrange x List.mem_cons_self)]
    simp only [bind, Except.bind, hput]
    exact hrun

theorem NewSet.Filled.recordNums_finish {newset : NewSet} {total : ℕ} {out : List WeightedEntry}
    (h : newset.Filled total out) (filename : String) (component : Option ℕ) (resultType : ℕ)
    (resultWeight : ℚ) : (newset.finish filename component resultType resultWeight).recordNums =
      out.map WeightedEntry.recordNum := by
  simp only [WeightedResult.recordNums, WeightedResult.hits, NewSet.finish, h.index_eq,
    Int.toNat_natCast, h.holds.take]

theorem storeAll_sound (xs : List ℤ) : ∀ {wtRes wtRes' : NewSet} {total : ℕ}
    {out : List WeightedEntry}, wtRes.Filled total out → storeAll xs wtRes = .ok wtRes' →
    ∃ out', wtRes'.Filled total out' ∧
      out'.map WeightedEntry.recordNum = out.map WeightedEntry.recordNum ++ xs := by
  induction xs with
  | nil =>
    intro wtRes wtRes' total out hfilled hrun
    obtain rfl : wtRes = wtRes' := Except.ok.inj hrun
    exact ⟨out, hfilled, by simp⟩
  | cons x xs ih =>
    intro wtRes wtRes' total out hfilled hrun
    rw [storeAll] at hrun
    obtain ⟨recordNum, hcheck, hput⟩ := bind_eq_ok.mp hrun
    obtain rfl := checkInt_eq_ok hcheck
    simp only [bind, Except.bind] at hput
    by_cases hlt : out.length < total + 1
    · obtain ⟨cells, hcells, hholds⟩ := hfilled.holds.store hlt
        { recordNum := recordNum, xtra := 0, weight := 1 }
      have hnext : NewSet.Filled { wtRes with cells := cells, index := wtRes.index + 1 } total
          (out ++ [{ recordNum := recordNum, xtra := 0, weight := 1 }]) :=
        ⟨hholds, by simp [hfilled.index_eq]⟩
      rw [NewSet.put, hfilled.index_eq, hcells] at hput
      simp only at hput
      rw [← hfilled.index_eq] at hput
      obtain ⟨out', hfilled', hout⟩ := ih hnext hput
      exact ⟨out', hfilled', by simpa using hout⟩
    · have hfull : Buffer.store? wtRes.cells wtRes.index
          { recordNum := recordNum, xtra := 0, weight := 1 } = none := by
        rw [Buffer.store?, if_neg]
        rw [hfilled.holds.length_cells, hfilled.index_eq]
        exact hlt
      rw [NewSet.put, hfull] at hput
      cases hput

theorem storeAll_full (xs : List ℤ) {wtRes : NewSet} {total : ℕ} {out : List WeightedEntry}
    (hfilled : wtRes.Filled total out) (hlength : total + 1 < out.length + xs.length) (wtRes' : NewSet) :
    storeAll xs wtRes ≠ .ok wtRes' := by
  intro hrun
  obtain ⟨out', hfilled', hout⟩ := storeAll_sound xs hfilled hrun
  have hnumbers := congrArg List.length hout
  have hle := hfilled'.holds.length_le
  rw [List.length_append, List.length_map, List.length_map] at hnumbers
  omega

theorem eq_self_of_image_eq {whole part : Finset ℤ} {f : ℤ → ℤ} (hsub : part ⊆ whole)
    (hinjective : Function.Injective f) (hle : ∀ x, x ≤ f x) (himage : part.image f = whole) :
    part = whole ∧ ∀ x ∈ whole, f x = x := by
  have hcard : part.card = whole.card := by
    rw [← himage, Finset.card_image_of_injective part hinjective]
  have hpart : part = whole := Finset.eq_of_subset_of_card_le hsub hcard.ge
  subst hpart
  have hsum : ∑ x ∈ part, x = ∑ x ∈ part, f x := by
    calc ∑ x ∈ part, x = ∑ x ∈ part.image f, x := by rw [himage]
      _ = ∑ x ∈ part, f x := Finset.sum_image fun x _ y _ heq ↦ hinjective heq
  have hpointwise := (Finset.sum_eq_sum_iff_of_le fun x _ ↦ hle x).mp hsum
  exact ⟨rfl, fun x hx ↦ (hpointwise x hx).symm⟩

theorem decoded_exactly {records : List ℤ} {reached : ℤ → Prop}
    (h : ∀ y, y ∈ records ↔ ∃ x ∈ records, reached x ∧ y = decoded x) :
    ∀ x ∈ records, reached x ∧ ¬65536 ∣ x := by
  classical
  have himage : (records.toFinset.filter reached).image decoded = records.toFinset := by
    ext y
    rw [Finset.mem_image, List.mem_toFinset, h y]
    constructor
    · rintro ⟨x, hx, rfl⟩
      rw [Finset.mem_filter, List.mem_toFinset] at hx
      exact ⟨x, hx.1, hx.2, rfl⟩
    · rintro ⟨x, hx, hreached, rfl⟩
      exact ⟨x, Finset.mem_filter.mpr ⟨List.mem_toFinset.mpr hx, hreached⟩, rfl⟩
  obtain ⟨hpart, hself⟩ := eq_self_of_image_eq (Finset.filter_subset _ _)
    (fun x y heq ↦ decoded_injective heq) le_decoded himage
  intro x hx
  have hwhole := List.mem_toFinset.mpr hx
  refine ⟨?_, ?_⟩
  · rw [← hpart] at hwhole
    exact (Finset.mem_filter.mp hwhole).2
  · intro hdvd
    have heq := hself x hwhole
    rw [decoded_of_dvd hdvd] at heq
    omega

/-- The records kept of two lists. -/
def keptRecords (oper : ℕ) (records1 records2 : List ℤ) : List ℤ :=
  records1.filter fun x ↦ if oper = BOOLEAN_AND then x ∈ records2 else x ∉ records2

theorem mem_keptRecords {oper : ℕ} {records1 records2 : List ℤ} {x : ℤ} :
    x ∈ keptRecords oper records1 records2 ↔ kept oper records1 records2 x := by
  rw [keptRecords, List.mem_filter, kept]
  split <;> rw [decide_eq_true_eq]

/-- The block that `se_bitmaps_and` allocates has a size and holds `count` numbers. -/
def RoomFor (oper : ℕ) (numHits1 numHits2 last1 : ℤ) (count : ℕ) : Prop :=
  if oper = BOOLEAN_AND then
    (if 0 < numHits1 then numHits1 else last1) < INT_MAX ∨ 0 < numHits2 ∧ numHits2 < INT_MAX
  else
    (0 < numHits2 → numHits2 < (if 0 < numHits1 then numHits1 else last1) →
      (count : ℤ) ≤ numHits2 + 2) ∧
    (numHits1 ≤ 0 → last1 < numHits2 → (count : ℤ) ≤ numHits1 + 2) ∧
    (numHits2 ≤ 0 ∨ numHits2 = (if 0 < numHits1 then numHits1 else last1) →
      (if 0 < numHits1 then numHits1 else last1) < INT_MAX)

section Exact

variable {idx1 idx2 : IdxListEntry} {set1 set2 : WeightedResult} {records1 records2 : List ℤ}
  {last1 last2 : ℕ}

/-- The space is sufficient exactly when the computed size is an `int` and covers the numbers. -/
theorem roomFor_iff (h1 : BitmapOperand (some idx1) set1 records1 last1)
    (h2 : BitmapOperand (some idx2) set2 records2 last2) {oper : ℕ}
    (hoper : oper = BOOLEAN_AND ∨ oper = BOOLEAN_NOT) :
    (maxResult oper set1.numHits set2.numHits last1 + 1 ≤ 2 ^ 31 - 1 ∧
      (keptRecords oper records1 records2).length ≤
        (maxResult oper set1.numHits set2.numHits last1 + 1).toNat + 1) ↔
      RoomFor oper set1.numHits set2.numHits last1
        (keptRecords oper records1 records2).length := by
  have hn1 := h1.unknown_le
  have hn2 := h2.unknown_le
  have hlast := h1.last_le
  have hle := h1.length_le_last
  have hkept : (keptRecords oper records1 records2).length ≤ records1.length :=
    List.length_filter_le _ _
  have hhits1 := h1.hits
  have hhits2 := h2.hits
  have hle2 := h2.length_le_last
  have hlast2 := h2.last_le
  rw [INT_MAX] at hlast hlast2
  rcases hoper with rfl | rfl
  · have hboth : (keptRecords BOOLEAN_AND records1 records2).length ≤ records2.length := by
      have hnodup : (keptRecords BOOLEAN_AND records1 records2).Nodup :=
        (h1.increasing.filter _).imp fun hlt ↦ hlt.ne
      apply (hnodup.subperm _).length_le
      intro x hx
      have hboth := (mem_keptRecords.mp hx).2
      rwa [if_pos rfl] at hboth
    have hne : ¬BOOLEAN_AND = BOOLEAN_NOT := by decide
    simp only [RoomFor, maxResult, if_true, hne, false_and, if_false, INT_MAX]
    split_ifs <;> omega
  · have hne : ¬BOOLEAN_NOT = BOOLEAN_AND := by decide
    simp only [RoomFor, maxResult, hne, if_false, true_and, INT_MAX]
    split_ifs <;> omega

theorem seBitmapsAnd_iff (h1 : BitmapOperand (some idx1) set1 records1 last1)
    (h2 : BitmapOperand (some idx2) set2 records2 last2) {oper : ℕ}
    (hoper : oper = BOOLEAN_AND ∨ oper = BOOLEAN_NOT) :
    (∃ res, seBitmapsAnd (some idx1) (some idx2) set1 set2 oper = .ok res ∧
      ∀ y, y ∈ res.recordNums ↔ kept oper records1 records2 y) ↔
    RoomFor oper set1.numHits set2.numHits last1 (keptRecords oper records1 records2).length ∧
      ∀ x, kept oper records1 records2 x → ¬65536 ∣ x ∧ x / 65536 ≤ (last2 : ℤ) / 65536 := by
  have hlast1 := h1.last_le
  have hlast2 := h2.last_le
  rw [INT_MAX] at hlast1 hlast2
  have hn1 := h1.unknown_le
  have hn2 := h2.unknown_le
  let count := min (bitblockId last1 + 1) (bitblockId last2 + 1)
  have hcount : count ≤ 32768 := by
    simp only [count, bitblockId_eq]
    omega
  have hmem (y : ℤ) := mem_storedRecords h1 h2 oper hcount (y := y)
  have hblocks (size : ℕ) : storeBlocks (some idx1) (some idx2) set1 set2 oper (List.range count)
      ⟨0, none⟩ ⟨0, none⟩ (NewSet.alloc size) =
      storeAll (storedRecords idx1 idx2 set1 set2 oper count) (NewSet.alloc size) := by
    rw [List.range_eq_range']
    exact storeBlocks_eq idx1 idx2 set1 set2 oper count 0 (.inl rfl) (.inl rfl) _
  have hrun : seBitmapsAnd (some idx1) (some idx2) set1 set2 oper = (do
      let size ← checkInt (maxResult oper set1.numHits set2.numHits last1 + 1)
      let wtRes ← storeAll (storedRecords idx1 idx2 set1 set2 oper count)
        (NewSet.alloc size.toNat)
      .ok (wtRes.finish set1.filename none 0 0)) := by
    rw [seBitmapsAnd, h1.header, h2.header]
    simp only [bind, Except.bind, Int.toNat_natCast]
    cases checkInt (maxResult oper set1.numHits set2.numHits last1 + 1) with
    | error fault => rfl
    | ok size => simp only [← hblocks, count]
  have hlength (hsame : ∀ y, y ∈ storedRecords idx1 idx2 set1 set2 oper count ↔
      kept oper records1 records2 y) : (storedRecords idx1 idx2 set1 set2 oper count).length =
      (keptRecords oper records1 records2).length := by
    have heq : storedRecords idx1 idx2 set1 set2 oper count =
        keptRecords oper records1 records2 := by
      refine List.Pairwise.eq_of_mem_iff (r := (· < ·)) (pairwise_storedRecords _ _ _ _ _ _)
        (h1.increasing.filter _) fun y ↦ ?_
      rw [hsame, mem_keptRecords]
    rw [heq]
  rw [← roomFor_iff h1 h2 hoper, hrun]
  constructor
  · rintro ⟨res, hres, hexact⟩
    obtain ⟨size, hsize, hres⟩ := bind_eq_ok.mp hres
    obtain rfl := checkInt_eq_ok hsize
    obtain ⟨wtRes, hstore, hres⟩ := bind_eq_ok.mp hres
    obtain rfl := Except.ok.inj hres
    obtain ⟨out, hfilled, hout⟩ := storeAll_sound _ (NewSet.filled_alloc _) hstore
    rw [List.map_nil, List.nil_append] at hout
    simp only [hfilled.recordNums_finish, hout] at hexact
    have hfits : (storedRecords idx1 idx2 set1 set2 oper count).length ≤
        (maxResult oper set1.numHits set2.numHits last1 + 1).toNat + 1 := by
      by_contra hlt
      exact storeAll_full _ (NewSet.filled_alloc _) (by simpa using not_le.mp hlt) _ hstore
    have hself := @decoded_exactly _
      (fun x ↦ x / 65536 < count) (by
        intro y
        rw [mem_keptRecords, ← hexact, hmem]
        simp only [mem_keptRecords])
    refine ⟨⟨?_, by rwa [← hlength hexact]⟩, fun x hx ↦ ?_⟩
    · unfold checkInt at hsize
      split at hsize
      · omega
      · cases hsize
    · obtain ⟨hreached, hdvd⟩ := hself x (mem_keptRecords.mpr hx)
      refine ⟨hdvd, ?_⟩
      simp only [count, bitblockId_eq] at hreached
      omega
  · rintro ⟨⟨hsize, hfits⟩, hself⟩
    have hexact (y : ℤ) : y ∈ storedRecords idx1 idx2 set1 set2 oper count ↔
        kept oper records1 records2 y := by
      rw [hmem]
      constructor
      · rintro ⟨x, hx, -, rfl⟩
        rwa [decoded_of_not_dvd (hself x hx).1]
      · intro hy
        obtain ⟨hdvd, hblock⟩ := hself y hy
        refine ⟨y, hy, ?_, (decoded_of_not_dvd hdvd).symm⟩
        have hle := h1.le_last y hy.1
        simp only [count, bitblockId_eq]
        omega
    have hcheck : checkInt (maxResult oper set1.numHits set2.numHits last1 + 1) =
        .ok (maxResult oper set1.numHits set2.numHits last1 + 1) := by
      apply if_pos
      refine ⟨?_, hsize⟩
      simp only [maxResult]
      split_ifs <;> omega
    obtain ⟨wtRes, out, hstore, hfilled, hout⟩ := storeAll_ok
      (storedRecords idx1 idx2 set1 set2 oper count)
      (NewSet.filled_alloc (maxResult oper set1.numHits set2.numHits last1 + 1).toNat) (by
        intro y hy
        have hrange := h1.inRange y ((hexact y).mp hy).1
        rw [INT_MAX] at hrange
        exact ⟨hrange.1.le, by omega⟩) (by simpa [hlength hexact] using hfits)
    refine ⟨wtRes.finish set1.filename none 0 0, ?_, fun y ↦ ?_⟩
    · rw [hcheck]
      simp only [bind, Except.bind, hstore]
    · rw [hfilled.recordNums_finish, hout, List.map_nil, List.nil_append, hexact]

end Exact

end Cheshire.Search
