import Cheshire.Index.BitmapLoaders

/-!
# Agreement of the bitmap loaders

For a term with the same records, the three loaders store the same blocks and the same count unless
a line of the batch is passed over or the converter meets the term first and finds its records
beyond block 0.
-/

namespace Cheshire.Index

open Search.Addition (bitmapOf)

def blockOf (idx : IdxListEntry) (word : Term) (blockid : ℤ) : Option Block :=
  match idx.terms word with
  | some info => idx.blocks ⟨blockid, info.termid⟩
  | none => none

/-- Two indexes count the same for a term and have the same blocks for it. -/
structure SameTerm (idx other : IdxListEntry) (word : Term) : Prop where
  numEntries : (idx.terms word).map IdxResult.numEntries =
    (other.terms word).map IdxResult.numEntries
  blocks : ∀ blockid, blockOf idx word blockid = blockOf other word blockid

variable {word : Term}

section Content

variable {idx : IdxListEntry} {pairs : List (Term × RecordNumber)} {extra : Term → ℕ → Prop}

theorem BitmapContent.blockOf_some (h : BitmapContent idx pairs extra) {b : ℕ}
    (hsome : recordsIn pairs word b ≠ [] ∨ extra word b) :
    blockOf idx word b = some (bitmapOf (recordsIn pairs word b)) := by
  rcases hterm : idx.terms word with _ | info
  · obtain ⟨hnil, hextra⟩ := (h.absent_iff word).mp hterm
    rcases hsome with hrecords | hsome
    · rw [recordsIn, hnil] at hrecords
      exact absurd rfl hrecords
    · exact absurd hsome (hextra b)
  · rw [blockOf, hterm]
    exact h.present word info b hterm hsome

theorem BitmapContent.blockOf_none (h : BitmapContent idx pairs extra) {b : ℕ}
    (hnil : recordsIn pairs word b = []) (hextra : ¬extra word b) : blockOf idx word b = none := by
  rcases hterm : idx.terms word with _ | info
  · rw [blockOf, hterm]
  · rw [blockOf, hterm]
    exact h.missing word info b hterm hnil hextra

theorem BitmapContent.blockOf_negative (h : BitmapContent idx pairs extra) (word : Term)
    {blockid : ℤ} (hblockid : blockid < 0) : blockOf idx word blockid = none := by
  rcases hterm : idx.terms word with _ | info
  · rw [blockOf, hterm]
  · rw [blockOf, hterm]
    rcases hblock : idx.blocks ⟨blockid, info.termid⟩ with _ | block
    · exact hblock
    · obtain ⟨-, b, hb⟩ := h.block_lt _ _ hblock
      simp only at hb
      omega

theorem BitmapContent.numEntries (h : BitmapContent idx pairs extra)
    (hsome : recordsOf pairs word ≠ []) :
    (idx.terms word).map IdxResult.numEntries = some ((recordsOf pairs word).length : ℤ) := by
  rcases hterm : idx.terms word with _ | info
  · exact absurd ((h.absent_iff word).mp hterm).1 hsome
  · rw [Option.map_some, h.count word info hterm]

theorem sameTerm_iff {other : IdxListEntry} {pairs' : List (Term × RecordNumber)}
    (h : BitmapContent idx pairs fun _ _ ↦ False) (h' : BitmapContent other pairs' extra)
    (hperm : (recordsOf pairs' word).Perm (recordsOf pairs word)) :
    SameTerm idx other word ↔ ∀ b, extra word b → recordsIn pairs word b ≠ [] := by
  have hperm_in (b : ℕ) : (recordsIn pairs' word b).Perm (recordsIn pairs word b) :=
    hperm.filter _
  constructor
  · intro hsame b hextra hnil
    have hnone := h.blockOf_none (b := b) hnil fun hfalse ↦ hfalse
    rw [hsame.blocks, h'.blockOf_some (.inr hextra)] at hnone
    cases hnone
  · intro hcover
    constructor
    · by_cases hnil : recordsOf pairs word = []
      · have hnil' : recordsOf pairs' word = [] := by
          rw [hnil] at hperm
          exact hperm.eq_nil
        have hextra (b : ℕ) : ¬extra word b := by
          intro hb
          apply hcover b hb
          rw [recordsIn, hnil]
          rfl
        rw [(h.absent_iff word).mpr ⟨hnil, fun _ hfalse ↦ hfalse⟩,
          (h'.absent_iff word).mpr ⟨hnil', hextra⟩]
      · have hsome : recordsOf pairs' word ≠ [] := by
          intro hnil'
          rw [hnil'] at hperm
          exact hnil hperm.symm.eq_nil
        rw [h.numEntries hnil, h'.numEntries hsome, hperm.length_eq]
    · intro blockid
      rcases lt_or_ge blockid 0 with hneg | hnonneg
      · rw [h.blockOf_negative word hneg, h'.blockOf_negative word hneg]
      obtain ⟨b, rfl⟩ := Int.eq_ofNat_of_zero_le hnonneg
      by_cases hnil : recordsIn pairs word b = []
      · have hnil' : recordsIn pairs' word b = [] := by
          have hperm_b := hperm_in b
          rw [hnil] at hperm_b
          exact hperm_b.eq_nil
        rw [h.blockOf_none hnil fun hfalse ↦ hfalse,
          h'.blockOf_none hnil' fun hextra ↦ hcover b hextra hnil]
      · have hsome : recordsIn pairs' word b ≠ [] := by
          intro hnil'
          have hperm_b := hperm_in b
          rw [hnil'] at hperm_b
          exact hnil hperm_b.symm.eq_nil
        rw [h.blockOf_some (.inl hnil), h'.blockOf_some (.inl hsome)]
        exact congrArg some (bitmapOf_congr fun r ↦ (hperm_in b).mem_iff.symm)

theorem SameTerm.length_eq {other : IdxListEntry} {pairs' : List (Term × RecordNumber)}
    (hsame : SameTerm idx other word) (h : BitmapContent idx pairs fun _ _ ↦ False)
    (h' : BitmapContent other pairs' fun _ _ ↦ False) :
    (recordsOf pairs' word).length = (recordsOf pairs word).length := by
  have hcount {index : IdxListEntry} {ps : List (Term × RecordNumber)}
      (hindex : BitmapContent index ps fun _ _ ↦ False) :
      ((index.terms word).map IdxResult.numEntries).getD 0 = ((recordsOf ps word).length : ℤ) := by
    by_cases hnil : recordsOf ps word = []
    · rw [(hindex.absent_iff word).mpr ⟨hnil, fun _ hfalse ↦ hfalse⟩, hnil]
      rfl
    · rw [hindex.numEntries hnil]
      rfl
  have hleft := hcount h
  rw [hsame.numEntries, hcount h'] at hleft
  exact_mod_cast hleft

end Content

theorem recordsOf_lineAdditions (lines : List BatchItem) (word : Term) :
    recordsOf (lineAdditions lines) word =
      (lines.filter fun line ↦ line.key = word).map BatchItem.recnum := by
  rw [recordsOf, lineAdditions, List.filter_map, List.map_map]
  rfl

theorem perm_readLines (lines : List BatchItem) (word : Term) (fits : BatchItem → Bool) :
    (recordsOf (lineAdditions ((sortItems lines).filter fits)) word).Perm
      (((lines.filter fun line ↦ line.key = word).filter fits).map BatchItem.recnum) := by
  rw [recordsOf_lineAdditions, List.filter_filter, List.filter_filter]
  apply List.Perm.map
  have hperm := (perm_sortItems lines).filter fun line ↦ fits line && decide (line.key = word)
  simpa only [Bool.and_comm] using hperm

theorem length_readLines_iff (lines : List BatchItem) (word : Term) (fits : BatchItem → Bool) :
    (recordsOf (lineAdditions ((sortItems lines).filter fits)) word).length =
        (recordsOf (lineAdditions lines) word).length ↔
      ∀ line ∈ lines, line.key = word → fits line = true := by
  rw [(perm_readLines lines word fits).length_eq, recordsOf_lineAdditions, List.length_map,
    List.length_map, List.length_filter_eq_length_iff]
  simp only [List.mem_filter, decide_eq_true_eq, and_imp]

theorem recordsIn_zero_of_head {pairs : List (Term × RecordNumber)} {r : RecordNumber}
    {records : List RecordNumber} (hpairs : recordsOf pairs word = r :: records)
    (hascending : (r :: records).Pairwise fun a b ↦ a.1 < b.1) (hid : bitblockId r.1 ≠ 0) :
    recordsIn pairs word 0 = [] := by
  rw [recordsIn, hpairs, List.filter_eq_nil_iff]
  intro other hother
  rw [bitblockId_eq] at hid
  rw [decide_eq_true_eq, bitblockId_eq]
  rcases List.mem_cons.mp hother with rfl | hother
  · exact hid
  · have hlt := List.rel_of_pairwise_cons hascending hother
    omega

theorem spurious_covered_iff {terms : List (Term × List RecordNumber)}
    {pairs : List (Term × RecordNumber)} {records : List RecordNumber}
    (hpairs : recordsOf pairs word = records)
    (hterms : recordsOf (termAdditions terms) word = records)
    (hascending : records.Pairwise fun a b ↦ a.1 < b.1) :
    (∀ b, Spurious terms word b → recordsIn pairs word b ≠ []) ↔
      ∀ r rest, terms.head? = some (word, r :: rest) → r.1 < 65536 := by
  constructor
  · intro hcover r rest hhead
    by_contra hge
    have hid : bitblockId r.1 ≠ 0 := by
      rw [bitblockId_eq]
      omega
    apply hcover 0 ⟨r, rest, hhead, hid, rfl⟩
    obtain ⟨terms, rfl⟩ : ∃ terms', terms = (word, r :: rest) :: terms' := by
      rcases terms with _ | ⟨term, terms⟩
      · cases hhead
      · exact ⟨terms, by rw [Option.some.inj hhead]⟩
    rw [termAdditions, List.flatMap_cons, recordsOf_append, recordsOf_map_self,
      List.cons_append] at hterms
    rw [← hterms] at hpairs hascending
    exact recordsIn_zero_of_head hpairs hascending hid
  · rintro hfirst b ⟨r, rest, hhead, hid, rfl⟩
    have hlt := hfirst r rest hhead
    rw [bitblockId_eq] at hid
    omega

/-- The three loaders return, and what they store for the term is the same. -/
def LoadersAgree (idxType : ℕ) (word : Term) (additions : List (Term × RecordNumber))
    (lines : List BatchItem) (cursor : List (Term × CursorData)) : Prop :=
  ∃ direct batch converted,
    addOneByOne additions (IdxListEntry.created idxType) = .ok direct ∧
    inBatchLoad (IdxListEntry.created idxType) lines = .ok batch ∧
    convert2bitmap cursor = .ok converted ∧
    SameTerm direct batch word ∧ SameTerm direct converted word

/-- The loaders agree on a term with the given records exactly when every line of the term fits
into the buffer of the batch loader and the term, if the converter meets it first, begins in
block 0. -/
theorem loadersAgree_iff (idxType : ℕ)
    (hbitmap : (IdxListEntry.created idxType).has BITMAPPED_TYPE = true) (word : Term)
    (records : List RecordNumber) (hascending : records.Pairwise fun a b ↦ a.1 < b.1)
    (additions : List (Term × RecordNumber)) (hadditions : recordsOf additions word = records)
    (lines : List BatchItem) (hlines : recordsOf (lineAdditions lines) word = records)
    (cursor : List (Term × CursorData)) (terms : List (Term × List RecordNumber))
    (hwalks : Walks cursor terms) (hterms : recordsOf (termAdditions terms) word = records) :
    LoadersAgree idxType word additions lines cursor ↔
      (∀ line ∈ lines, line.key = word → Fits (IdxListEntry.created idxType) line) ∧
        ∀ r rest, terms.head? = some (word, r :: rest) → r.1 < 65536 := by
  obtain ⟨direct, hdirect, hdirectContent⟩ := addOneByOne_content additions
    (bitmapContent_created idxType)
  rw [List.nil_append] at hdirectContent
  obtain ⟨batch, hbatch, hbatchContent⟩ := inBatchLoad_content hbitmap lines
  obtain ⟨converted, hconverted, hconvertedContent⟩ := convert2bitmap_content hwalks
  have hfits : SameTerm direct batch word ↔
      ∀ line ∈ lines, line.key = word → Fits (IdxListEntry.created idxType) line := by
    have hlength := length_readLines_iff lines word fun line ↦
      decide (Fits (IdxListEntry.created idxType) line)
    rw [hlines] at hlength
    simp only [decide_eq_true_eq] at hlength
    rw [← hlength]
    constructor
    · intro hsame
      rw [hsame.length_eq hdirectContent hbatchContent, hadditions]
    · intro hall
      rw [sameTerm_iff hdirectContent hbatchContent]
      · exact fun _ hfalse ↦ hfalse.elim
      · have hkept := hlength.mp hall
        refine (perm_readLines lines word _).trans ?_
        rw [List.filter_eq_self.mpr, ← recordsOf_lineAdditions, hlines, hadditions]
        intro line hline
        rw [List.mem_filter, decide_eq_true_eq] at hline
        exact decide_eq_true (hkept line hline.1 hline.2)
  have hfirst : SameTerm direct converted word ↔
      ∀ r rest, terms.head? = some (word, r :: rest) → r.1 < 65536 := by
    rw [sameTerm_iff hdirectContent hconvertedContent (by rw [hterms, hadditions]),
      spurious_covered_iff hadditions hterms hascending]
  constructor
  · rintro ⟨direct', batch', converted', hdirect', hbatch', hconverted', hsame, hsame'⟩
    obtain rfl : direct = direct' := Except.ok.inj (hdirect.symm.trans hdirect')
    obtain rfl : batch = batch' := Except.ok.inj (hbatch.symm.trans hbatch')
    obtain rfl : converted = converted' := Except.ok.inj (hconverted.symm.trans hconverted')
    exact ⟨hfits.mp hsame, hfirst.mp hsame'⟩
  · rintro ⟨hall, hbegins⟩
    exact ⟨direct, batch, converted, hdirect, hbatch, hconverted, hfits.mpr hall,
      hfirst.mpr hbegins⟩

theorem walks_single (word : Term) (r : RecordNumber) :
    Walks [(word, .postings ⟨1, 1, 1, [⟨r.1, 1⟩]⟩)] [(word, [r])] :=
  .postings word _ [r] ⟨Int.one_nonneg, le_rfl⟩ (by simp) rfl .nil

theorem loadersAgree_twoBlocks : LoadersAgree BITMAPPED_TYPE [98]
    [([98], ⟨5, by decide⟩), ([98], ⟨70000, by decide⟩)]
    [⟨[98], ⟨5, by decide⟩, 1, []⟩, ⟨[98], ⟨70000, by decide⟩, 1, []⟩]
    [([97], .postings ⟨1, 1, 1, [⟨80000, 1⟩]⟩),
      ([98], .postings ⟨2, 2, 2, [⟨5, 1⟩, ⟨70000, 1⟩]⟩)] :=
  (loadersAgree_iff BITMAPPED_TYPE (by decide) [98] [⟨5, by decide⟩, ⟨70000, by decide⟩]
    (by decide) _ rfl _ rfl _ [([97], [⟨80000, by decide⟩]),
      ([98], [⟨5, by decide⟩, ⟨70000, by decide⟩])]
    (.postings [97] _ _ ⟨by decide, by decide⟩ (by simp) rfl
      (.postings [98] _ _ ⟨by decide, by decide⟩ (by simp) rfl .nil)) (by decide)).mpr
    ⟨by decide +kernel, by
      intro r rest h
      simp at h⟩

/-- The only record of the first term is 70000, which is in block 1. -/
theorem loadersAgree_firstTerm : ¬∀ (idxType : ℕ)
    (_ : (IdxListEntry.created idxType).has BITMAPPED_TYPE = true) (word : Term)
    (records : List RecordNumber) (_ : records.Pairwise fun a b ↦ a.1 < b.1)
    (additions : List (Term × RecordNumber)) (_ : recordsOf additions word = records)
    (lines : List BatchItem) (_ : recordsOf (lineAdditions lines) word = records)
    (cursor : List (Term × CursorData)) (terms : List (Term × List RecordNumber))
    (_ : Walks cursor terms) (_ : recordsOf (termAdditions terms) word = records),
    LoadersAgree idxType word additions lines cursor := by
  intro hall
  let r : RecordNumber := ⟨70000, by decide⟩
  obtain ⟨direct, batch, converted, hdirect, -, hconverted, -, hsame⟩ :=
    hall BITMAPPED_TYPE (by decide) [97] [r] (by simp) [([97], r)] rfl [⟨[97], r, 1, []⟩] rfl _ _
      (walks_single [97] r) rfl
  obtain ⟨idx, hrun, hcontent⟩ := addOneByOne_content [([97], r)]
    (bitmapContent_created BITMAPPED_TYPE)
  obtain rfl : idx = direct := Except.ok.inj (hrun.symm.trans hdirect)
  obtain ⟨idx', hrun', hcontent'⟩ := convert2bitmap_content (walks_single [97] r)
  obtain rfl : idx' = converted := Except.ok.inj (hrun'.symm.trans hconverted)
  have hcover := (sameTerm_iff hcontent hcontent' (List.Perm.refl _)).mp hsame
  exact hcover 0 ⟨r, [], rfl, by decide, rfl⟩ (by decide)

end Cheshire.Index
