import Cheshire.Index.BatchLoad
import Cheshire.Search.BitmapMembership

/-!
# The content of a bitmap index

What a sequence of additions leaves in a bitmap index is determined by the records that were added
for each term: the entry of the term counts them, and its blocks are the bitmaps of the records that
fall into them.  A call without records leaves an empty block behind; these blocks are kept apart.
-/

namespace Cheshire.Index

open Function

open Search.Addition (bitmapOf bit_bitmapOf)

theorem Block.ext_bit {block other : Block}
    (h : ∀ position < BITMAP_BLOCKSIZE_BITS, block.bit position = other.bit position) :
    block = other := by
  apply Vector.ext
  intro byte hbyte
  apply BitVec.eq_of_getLsbD_eq
  intro k hk
  have hposition : 8 * byte + k < BITMAP_BLOCKSIZE_BITS := by
    rw [BITMAP_BLOCKSIZE_BITS]
    rw [BITMAP_BLOCKSIZE_BYTES] at hbyte
    omega
  have hbit := h (8 * byte + k) hposition
  have hdiv : (8 * byte + k) / 8 = byte := by omega
  have hmod : (8 * byte + k) % 8 = k := by omega
  rw [Block.bit, Block.bit, hdiv, hmod, Block.byte, Block.byte,
    Vector.getElem?_eq_getElem hbyte, Vector.getElem?_eq_getElem hbyte] at hbit
  exact hbit

variable {records : List RecordNumber}

theorem bitmapOf_congr {others : List RecordNumber}
    (h : ∀ r, r ∈ records ↔ r ∈ others) : bitmapOf records = bitmapOf others := by
  apply Block.ext_bit
  intro position _
  apply Bool.eq_iff_iff.mpr
  simp only [bit_bitmapOf, h]

theorem bitmapOf_concat (records : List RecordNumber) (r : RecordNumber) :
    bitmapOf (records ++ [r]) = bitblockSet (bitmapOf records) r.1 := by
  apply Block.ext_bit
  intro position _
  apply Bool.eq_iff_iff.mpr
  rw [bit_bitmapOf, bit_bitblockSet, Bool.or_eq_true, decide_eq_true_eq, bit_bitmapOf]
  simp only [List.mem_append, List.mem_singleton]
  grind

/-- The records of a term among additions, in order. -/
def recordsOf (pairs : List (Term × RecordNumber)) (word : Term) : List RecordNumber :=
  (pairs.filter fun pair ↦ pair.1 = word).map Prod.snd

/-- The records of a term that fall into a block. -/
def recordsIn (pairs : List (Term × RecordNumber)) (word : Term) (blockno : ℕ) :
    List RecordNumber :=
  (recordsOf pairs word).filter fun r ↦ bitblockId r.1 = blockno

/-- The index holds these records, and for `extra` also blocks without records. -/
structure BitmapContent (idx : IdxListEntry) (pairs : List (Term × RecordNumber))
    (extra : Term → ℕ → Prop) : Prop where
  termid_lt : ∀ word info, idx.terms word = some info → info.termid < idx.globalData.recptr
  termid_inj : ∀ word word' info info', idx.terms word = some info →
    idx.terms word' = some info' → info.termid = info'.termid → word = word'
  block_lt : ∀ key block, idx.blocks key = some block →
    key.termid < idx.globalData.recptr ∧ ∃ blockno : ℕ, key.blockid = blockno
  absent_iff : ∀ word, idx.terms word = none ↔
    recordsOf pairs word = [] ∧ ∀ blockno, ¬ extra word blockno
  count : ∀ word info, idx.terms word = some info →
    info.numEntries = (recordsOf pairs word).length
  present : ∀ word info (blockno : ℕ), idx.terms word = some info →
    (recordsIn pairs word blockno ≠ [] ∨ extra word blockno) →
    idx.blocks ⟨blockno, info.termid⟩ = some (bitmapOf (recordsIn pairs word blockno))
  missing : ∀ word info (blockno : ℕ), idx.terms word = some info →
    recordsIn pairs word blockno = [] → ¬ extra word blockno →
    idx.blocks ⟨blockno, info.termid⟩ = none

theorem bitmapContent_created (idxType : ℕ) :
    BitmapContent (IdxListEntry.created idxType) [] fun _ _ ↦ False where
  termid_lt := by simp [IdxListEntry.created]
  termid_inj := by simp [IdxListEntry.created]
  block_lt := by simp [IdxListEntry.created]
  absent_iff := by simp [IdxListEntry.created, recordsOf]
  count := by simp [IdxListEntry.created]
  present := by simp [IdxListEntry.created]
  missing := by simp [IdxListEntry.created]

section Step

variable {idx : IdxListEntry} {pairs : List (Term × RecordNumber)} {extra : Term → ℕ → Prop}

theorem recordsOf_append (pairs others : List (Term × RecordNumber)) (word : Term) :
    recordsOf (pairs ++ others) word = recordsOf pairs word ++ recordsOf others word := by
  rw [recordsOf, List.filter_append, List.map_append]
  rfl

theorem recordsOf_map_self (records : List RecordNumber) (word : Term) :
    recordsOf (records.map fun r ↦ (word, r)) word = records := by
  rw [recordsOf, List.filter_map, List.map_map]
  simp [comp_def]

variable {word : Term}

theorem recordsOf_map_ne (records : List RecordNumber) {other : Term} (hne : word ≠ other) :
    recordsOf (records.map fun r ↦ (word, r)) other = [] := by
  rw [recordsOf, List.filter_map, List.map_eq_nil_iff, List.map_eq_nil_iff]
  simp [comp_def, hne]

variable {inBitmap : Option Block}

theorem newBlock_spec (found : Option Block) (recnum : ℕ) (records : List RecordNumber)
    (hbitmap : inBitmap = some (bitmapOf records) ∨
      inBitmap = none ∧ ∃ r, records = [r] ∧ r.1 = recnum) :
    ∃ block, bitmapNewBlock found recnum inBitmap records.length = .ok block ∧
      ∀ position, block.bit position = true ↔
        (∃ old, found = some old ∧ old.bit position = true) ∨
          ∃ r ∈ records, bitblockBit r.1 = position := by
  rcases hbitmap with rfl | ⟨rfl, r, rfl, rfl⟩
  · rcases found with _ | old
    · refine ⟨bitmapOf records, by simp [bitmapNewBlock, deref]; rfl, ?_⟩
      intro position
      simp only [bit_bitmapOf, reduceCtorEq, false_and, exists_false, false_or]
    · refine ⟨old.or (bitmapOf records), by simp [bitmapNewBlock, deref]; rfl, ?_⟩
      intro position
      simp only [Block.bit_or, Bool.or_eq_true, bit_bitmapOf, Option.some.injEq, exists_eq_left']
  · refine ⟨_, if_pos ⟨rfl, rfl⟩, ?_⟩
    intro position
    rcases found with _ | old
    · simp [bit_bitblockSet]
    · simp [bit_bitblockSet, or_comm]

theorem inAddBitmapEntry_maps (idx : IdxListEntry) (recnum : ℕ) (word : Term)
    (inBitmap : Option Block) (n : ℤ) (blockno : ℕ) (hblockno : toShort (bitblockId recnum) = blockno)
    {block : Block} (hblock : bitmapNewBlock (idx.blocks ⟨blockno,
      (bitmapTermEntry idx recnum word n).1.termid⟩) recnum inBitmap n = .ok block) :
    ∃ idx', inAddBitmapEntry idx recnum word inBitmap n = .ok idx' ∧
      idx'.idxType = idx.idxType ∧
      idx'.globalData = (bitmapTermEntry idx recnum word n).2 ∧
      idx'.terms = update idx.terms word (some (bitmapTermEntry idx recnum word n).1) ∧
      idx'.blocks = update idx.blocks
        ⟨blockno, (bitmapTermEntry idx recnum word n).1.termid⟩ (some block) := by
  refine ⟨({ idx with globalData := (bitmapTermEntry idx recnum word n).2 }.putTerm word
    (bitmapTermEntry idx recnum word n).1).putBlock
    ⟨blockno, (bitmapTermEntry idx recnum word n).1.termid⟩ block, ?_, rfl, rfl, rfl, rfl⟩
  simp only [inAddBitmapEntry, hblockno, hblock, bind, Except.bind]

/-- The entry that a call writes: it counts the records, under the id of the term or a new one. -/
theorem BitmapContent.entry (h : BitmapContent idx pairs extra) (recnum : ℕ) (word : Term)
    (records : List RecordNumber) :
    (bitmapTermEntry idx recnum word records.length).1.numEntries =
        ((recordsOf pairs word).length + records.length : ℕ) ∧
      idx.globalData.recptr ≤ (bitmapTermEntry idx recnum word records.length).2.recptr ∧
      (bitmapTermEntry idx recnum word records.length).1.termid <
        (bitmapTermEntry idx recnum word records.length).2.recptr ∧
      (∀ other info, other ≠ word → idx.terms other = some info →
        info.termid ≠ (bitmapTermEntry idx recnum word records.length).1.termid) ∧
      ∀ blockno : ℕ, (idx.blocks ⟨blockno,
          (bitmapTermEntry idx recnum word records.length).1.termid⟩).getD bitmapBlockAlloc =
        bitmapOf (recordsIn pairs word blockno) ∧
        (idx.blocks ⟨blockno, (bitmapTermEntry idx recnum word records.length).1.termid⟩ = none ↔
          recordsIn pairs word blockno = [] ∧ ¬ extra word blockno) := by
  rcases hterm : idx.terms word with _ | info
  · obtain ⟨hnil, hextra⟩ := (h.absent_iff word).mp hterm
    have hin (blockno : ℕ) : recordsIn pairs word blockno = [] := by
      rw [recordsIn, hnil]
      rfl
    have hnone (blockno : ℕ) : idx.blocks ⟨blockno, idx.globalData.recptr⟩ = none := by
      rcases hblock : idx.blocks ⟨blockno, idx.globalData.recptr⟩ with _ | block
      · rfl
      · exact absurd (h.block_lt _ _ hblock).1 (lt_irrefl _)
    simp only [bitmapTermEntry, hterm]
    refine ⟨by rw [hnil]; simp, by omega, by omega, ?_, ?_⟩
    · intro other info _ hother heq
      have := h.termid_lt other info hother
      omega
    · intro blockno
      rw [hnone, hin]
      exact ⟨rfl, by simp [hextra]⟩
  · have hcount := h.count word info hterm
    have hlt := h.termid_lt word info hterm
    simp only [bitmapTermEntry, hterm]
    refine ⟨by rw [hcount]; push_cast; rfl, le_rfl, hlt, ?_, ?_⟩
    · intro other info' hne hother heq
      exact hne (h.termid_inj other word info' info hother hterm heq)
    · intro blockno
      by_cases hblank : recordsIn pairs word blockno = [] ∧ ¬ extra word blockno
      · rw [h.missing word info blockno hterm hblank.1 hblank.2, hblank.1]
        exact ⟨rfl, by simp [hblank.2]⟩
      · have hsome : recordsIn pairs word blockno ≠ [] ∨ extra word blockno := by tauto
        rw [h.present word info blockno hterm hsome]
        exact ⟨rfl, by simp only [reduceCtorEq, false_iff]; exact hblank⟩

theorem recordsIn_add_self (pairs : List (Term × RecordNumber)) {blockno : ℕ}
    (hrecords : ∀ r ∈ records, bitblockId r.1 = blockno) :
    recordsIn (pairs ++ records.map fun r ↦ (word, r)) word blockno =
      recordsIn pairs word blockno ++ records := by
  rw [recordsIn, recordsOf_append, recordsOf_map_self, List.filter_append, recordsIn]
  congr 1
  exact List.filter_eq_self.mpr fun r hr ↦ decide_eq_true (hrecords r hr)

theorem recordsIn_add_ne (pairs : List (Term × RecordNumber)) {other : Term} {blockno b : ℕ}
    (hrecords : ∀ r ∈ records, bitblockId r.1 = blockno) (hne : other ≠ word ∨ b ≠ blockno) :
    recordsIn (pairs ++ records.map fun r ↦ (word, r)) other b = recordsIn pairs other b := by
  by_cases hother : word = other
  · subst hother
    have hb : b ≠ blockno := by tauto
    rw [recordsIn, recordsOf_append, recordsOf_map_self, List.filter_append, recordsIn]
    have hnone : (records.filter fun r ↦ bitblockId r.1 = b) = [] := by
      rw [List.filter_eq_nil_iff]
      intro r hr
      simp [hrecords r hr, Ne.symm hb]
    rw [hnone, List.append_nil]
  · rw [recordsIn, recordsOf_append, recordsOf_map_ne records hother, List.append_nil, recordsIn]

theorem BitmapContent.newBlock (h : BitmapContent idx pairs extra) (recnum : ℕ) (word : Term)
    (records : List RecordNumber) (blockno : ℕ) (hrecords : ∀ r ∈ records, bitblockId r.1 = blockno)
    (hbitmap : inBitmap = some (bitmapOf records) ∨
      inBitmap = none ∧ ∃ r, records = [r] ∧ r.1 = recnum) :
    bitmapNewBlock (idx.blocks ⟨blockno, (bitmapTermEntry idx recnum word records.length).1.termid⟩)
        recnum inBitmap records.length =
      .ok (bitmapOf (recordsIn (pairs ++ records.map fun r ↦ (word, r)) word blockno)) := by
  obtain ⟨-, -, -, -, hfound⟩ := h.entry recnum word records
  obtain ⟨hold, -⟩ := hfound blockno
  obtain ⟨block, hrun, hbits⟩ := newBlock_spec
    (idx.blocks ⟨blockno, (bitmapTermEntry idx recnum word records.length).1.termid⟩)
    recnum records hbitmap
  have hblock : block =
      bitmapOf (recordsIn (pairs ++ records.map fun r ↦ (word, r)) word blockno) := by
    apply Block.ext_bit
    intro position _
    apply Bool.eq_iff_iff.mpr
    rw [hbits, recordsIn_add_self pairs hrecords, bit_bitmapOf]
    have hbefore : (∃ old, idx.blocks ⟨blockno,
          (bitmapTermEntry idx recnum word records.length).1.termid⟩ = some old ∧
          old.bit position = true) ↔
        ∃ r ∈ recordsIn pairs word blockno, bitblockBit r.1 = position := by
      rw [← bit_bitmapOf, ← hold]
      rcases idx.blocks ⟨blockno, (bitmapTermEntry idx recnum word records.length).1.termid⟩
        with _ | old
      · simp
      · simp
    rw [hbefore]
    simp only [List.mem_append]
    grind
  rw [hrun, hblock]

theorem BitmapContent.add (h : BitmapContent idx pairs extra) (recnum : ℕ) (word : Term)
    (records : List RecordNumber) (blockno : ℕ) (hblockno : toShort (bitblockId recnum) = blockno)
    (hrecords : ∀ r ∈ records, bitblockId r.1 = blockno)
    (hbitmap : inBitmap = some (bitmapOf records) ∨
      inBitmap = none ∧ ∃ r, records = [r] ∧ r.1 = recnum) :
    ∃ idx', inAddBitmapEntry idx recnum word inBitmap records.length = .ok idx' ∧
      idx'.idxType = idx.idxType ∧
      BitmapContent idx' (pairs ++ records.map fun r ↦ (word, r)) fun other b ↦
        extra other b ∨ records = [] ∧ other = word ∧ b = blockno := by
  obtain ⟨hcount, hrecptr, htermid, hothers, hfound⟩ := h.entry recnum word records
  obtain ⟨idx', hrun, htype, hglobal, hterms, hblocks⟩ := inAddBitmapEntry_maps idx recnum word
    inBitmap records.length blockno hblockno
    (h.newBlock recnum word records blockno hrecords hbitmap)
  refine ⟨idx', hrun, htype, ?_⟩
  generalize hE : bitmapTermEntry idx recnum word records.length = E at *
  have hterm_self : idx'.terms word = some E.1 := by
    rw [hterms, update_self]
  have hterm_ne (other : Term) (hne : other ≠ word) : idx'.terms other = idx.terms other := by
    rw [hterms, update_of_ne hne]
  have hof_ne (other : Term) (hne : other ≠ word) :
      recordsOf (pairs ++ records.map fun r ↦ (word, r)) other = recordsOf pairs other := by
    rw [recordsOf_append, recordsOf_map_ne records hne.symm, List.append_nil]
  have hkey (b : ℕ) (termid : ℤ) (hne : termid ≠ E.1.termid ∨ b ≠ blockno) :
      idx'.blocks ⟨b, termid⟩ = idx.blocks ⟨b, termid⟩ := by
    rw [hblocks, update_of_ne]
    intro heq
    simp only [BitblockKey.mk.injEq, Nat.cast_inj] at heq
    exact hne.elim (fun hne ↦ hne heq.2) fun hne ↦ hne heq.1
  constructor
  · intro other info hother
    by_cases hword : other = word
    · subst hword
      obtain rfl : E.1 = info := by simpa [hterm_self] using hother
      rwa [hglobal]
    · rw [hterm_ne other hword] at hother
      have := h.termid_lt other info hother
      rw [hglobal]
      omega
  · intro w w' info info' hw hw' heq
    by_cases hword : w = word <;> by_cases hword' : w' = word
    · rw [hword, hword']
    · subst hword
      obtain rfl : E.1 = info := by simpa [hterm_self] using hw
      rw [hterm_ne w' hword'] at hw'
      exact absurd heq.symm (hothers w' info' hword' hw')
    · subst hword'
      obtain rfl : E.1 = info' := by simpa [hterm_self] using hw'
      rw [hterm_ne w hword] at hw
      exact absurd heq (hothers w info hword hw)
    · rw [hterm_ne w hword] at hw
      rw [hterm_ne w' hword'] at hw'
      exact h.termid_inj w w' info info' hw hw' heq
  · intro key block hblock
    by_cases hself : key = ⟨blockno, E.1.termid⟩
    · subst hself
      rw [hglobal]
      exact ⟨htermid, blockno, rfl⟩
    · rw [hblocks, update_of_ne hself] at hblock
      obtain ⟨hlt, hnat⟩ := h.block_lt key block hblock
      rw [hglobal]
      exact ⟨by omega, hnat⟩
  · intro other
    by_cases hword : other = word
    · subst hword
      rw [hterm_self, recordsOf_append, recordsOf_map_self]
      simp only [reduceCtorEq, List.append_eq_nil_iff, false_iff]
      rintro ⟨⟨-, hnil⟩, hextra⟩
      exact hextra blockno (.inr ⟨hnil, trivial, rfl⟩)
    · rw [hterm_ne other hword, hof_ne other hword, h.absent_iff]
      simp [hword]
  · intro other info hother
    by_cases hword : other = word
    · subst hword
      obtain rfl : E.1 = info := by simpa [hterm_self] using hother
      rw [hcount, recordsOf_append, recordsOf_map_self, List.length_append]
    · rw [hterm_ne other hword] at hother
      rw [hof_ne other hword]
      exact h.count other info hother
  · intro other info b hother hsome
    by_cases hword : other = word
    · subst hword
      obtain rfl : E.1 = info := by simpa [hterm_self] using hother
      by_cases hb : b = blockno
      · subst hb
        rw [hblocks, update_self]
      · rw [recordsIn_add_ne pairs hrecords (.inr hb)] at hsome ⊢
        rw [hkey b _ (.inr hb)]
        obtain ⟨hold, hnone⟩ := hfound b
        have hne : idx.blocks ⟨b, E.1.termid⟩ ≠ none := by
          rw [Ne, hnone]
          rintro ⟨hnil, hextra⟩
          rcases hsome with hsome | hsome | ⟨-, -, rfl⟩
          · exact hsome hnil
          · exact hextra hsome
          · exact hb rfl
        obtain ⟨old, hold'⟩ := Option.ne_none_iff_exists'.mp hne
        rw [hold'] at hold ⊢
        rw [← hold]
        rfl
    · rw [hterm_ne other hword] at hother
      rw [recordsIn_add_ne pairs hrecords (.inl hword)] at hsome ⊢
      rw [hkey b _ (.inl (hothers other info hword hother))]
      exact h.present other info b hother
        (hsome.imp_right fun h ↦ h.resolve_right fun h ↦ hword h.2.1)
  · intro other info b hother hnil hextra
    by_cases hword : other = word
    · subst hword
      obtain rfl : E.1 = info := by simpa [hterm_self] using hother
      have hb : b ≠ blockno := by
        rintro rfl
        rw [recordsIn_add_self pairs hrecords, List.append_eq_nil_iff] at hnil
        exact hextra (.inr ⟨hnil.2, rfl, rfl⟩)
      rw [recordsIn_add_ne pairs hrecords (.inr hb)] at hnil
      rw [hkey b _ (.inr hb), (hfound b).2]
      exact ⟨hnil, fun h ↦ hextra (.inl h)⟩
    · rw [hterm_ne other hword] at hother
      rw [recordsIn_add_ne pairs hrecords (.inl hword)] at hnil
      rw [hkey b _ (.inl (hothers other info hword hother))]
      exact h.missing other info b hother hnil fun h ↦ hextra (.inl h)

end Step

end Cheshire.Index
