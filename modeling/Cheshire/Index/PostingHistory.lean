import Cheshire.Index.KwDel
import Cheshire.Lib.Runs

/-!
# Posting lists along a history

Records are added to an inverted index and removed from it.  The specification keeps the live
records with their hashes in the order in which they were added.  An index is exact for them when
every term stores exactly the postings of its live records, in a block of exactly that size.  A
removal keeps this if and only if, under every term of the hash, it either deletes a single posting
of the record itself or finds several postings of other records.
-/

namespace Cheshire.Index

open Lib

inductive KwOp where
  | add (recnum : RecordNumber) (hash : TermHash)
  | del (recnum : RecordNumber) (hash : TermHash)

def stepKw (idx : IdxListEntry) : KwOp → Exec IdxListEntry
  | .add recnum hash => inKwadd idx recnum hash
  | .del recnum hash => inKwdel idx recnum hash

/-- The live records with the hashes they were added with, in the order added. -/
abbrev Live := List (RecordNumber × TermHash)

def specKw (live : Live) : KwOp → Live
  | .add recnum hash => live ++ [(recnum, hash)]
  | .del recnum _ => live.filter fun entry ↦ entry.1 ≠ recnum

/-- A record is added only while it is not live, and the terms of a live record are the ones it was
added with. -/
def ValidKw (live : Live) : KwOp → Prop
  | .add recnum _ => ∀ entry ∈ live, entry.1 ≠ recnum
  | .del recnum hash => ∀ entry ∈ live, entry.1 = recnum → entry.2 = hash

/-- The postings that a term should have. -/
def livePostings (live : Live) (word : Term) : List IdxPostingEntry :=
  live.filterMap fun entry ↦
    (entry.2.find? word).map fun htData ↦ ⟨entry.1.1, htData.termfreq⟩

theorem livePostings_append (live : Live) (recnum : RecordNumber) (hash : TermHash) (word : Term) :
    livePostings (live ++ [(recnum, hash)]) word = livePostings live word ++
      ((hash.find? word).map fun htData ↦ ⟨recnum.1, (htData.termfreq : ℤ)⟩).toList := by
  rw [livePostings, List.filterMap_append, ← livePostings]
  congr 1

theorem livePostings_filter (live : Live) (recnum : RecordNumber) (word : Term) :
    livePostings (live.filter fun entry ↦ entry.1 ≠ recnum) word =
      (livePostings live word).filter fun posting ↦ !isOf recnum posting := by
  induction live with
  | nil => rfl
  | cons entry live ih =>
    have hof (freq : ℤ) : isOf recnum ⟨entry.1.1, freq⟩ = decide (entry.1 = recnum) := by
      rw [isOf]
      simp [Subtype.ext_iff]
    by_cases hentry : entry.1 = recnum
    · subst hentry
      rw [List.filter_cons, if_neg (by simp), ih]
      cases hfind : entry.2.find? word with
      | none => simp [livePostings, hfind]
      | some htData => simp [livePostings, hfind, hof]
    · rw [List.filter_cons, if_pos (by simp [hentry])]
      cases hfind : entry.2.find? word with
      | none => simpa [livePostings, hfind] using ih
      | some htData => simpa [livePostings, hfind, hof, hentry] using ih

variable {live : Live}

theorem mem_livePostings {word : Term} {posting : IdxPostingEntry} :
    posting ∈ livePostings live word ↔ ∃ entry ∈ live, ∃ htData, entry.2.find? word = some htData ∧
      ⟨entry.1.1, htData.termfreq⟩ = posting := by
  simp only [livePostings, List.mem_filterMap, Option.map_eq_some_iff]

/-- Every term of the index stores exactly the postings of its live records. -/
structure Exact (idx : IdxListEntry) (live : Live) : Prop where
  inverted : Inverted idx
  terms : ∀ word, StoresExactly (livePostings live word) (idx.terms word)

/-- The postings of one record under a term. -/
def postingsOf (recordNo : ℤ) (stored : Option IdxResult) : List IdxPostingEntry :=
  (stored.elim [] IdxResult.postings).filter fun posting ↦ posting.recordNo = recordNo

/-- A removal leaves every posting of every other record. -/
def LeavesOthers (idx : IdxListEntry) (op : KwOp) (idx' : IdxListEntry) : Prop :=
  match op with
  | .add _ _ => True
  | .del recnum _ => ∀ word, ∀ recordNo ≠ (recnum.1 : ℤ),
      postingsOf recordNo (idx'.terms word) = postingsOf recordNo (idx.terms word)

/-- Under every term of the hash a removal deletes a single posting of the record itself, or finds
several postings of other records. -/
def CleanRemoval (idx : IdxListEntry) (op : KwOp) : Prop :=
  match op with
  | .add _ _ => True
  | .del recnum hash => ∀ word htData block, hash.find? word = some htData →
      idx.terms word = some block →
      if block.numEntries = 1 then ∀ posting ∈ block.postings, isOf recnum posting = true
      else ∀ posting ∈ block.postings, ¬isOf recnum posting = true

variable {idx : IdxListEntry}

theorem Exact.sound (h : Exact idx live) (word : Term) (block : IdxResult)
    (hblock : idx.terms word = some block) : block.Sound :=
  (hblock ▸ h.terms word : StoresExactly _ (some block)).sound

theorem exact_created (idxType : ℕ) (h : Inverted (IdxListEntry.created idxType)) :
    Exact (IdxListEntry.created idxType) [] := ⟨h, fun _ ↦ rfl⟩

theorem Exact.add (h : Exact idx live) (recnum : RecordNumber)
    (hash : TermHash) : ∃ idx', inKwadd idx recnum hash = .ok idx' ∧
      Exact idx' (live ++ [(recnum, hash)]) := by
  obtain ⟨idx', hadd, htype, hterms⟩ := inKwadd_spec h.inverted h.sound recnum hash
  refine ⟨idx', hadd, h.inverted.of_idxType htype, fun word ↦ ?_⟩
  have hword := hterms word
  rw [livePostings_append]
  cases hfind : hash.find? word with
  | none =>
    rw [hfind] at hword
    simpa [hword] using h.terms word
  | some htData =>
    rw [hfind] at hword
    obtain ⟨block, hblock, happended⟩ := hword
    rw [hblock]
    simpa using (h.terms word).append happended

variable {recnum : RecordNumber} {postings : List IdxPostingEntry}

theorem filter_eq_self_of_none (hnone : ∀ posting ∈ postings, ¬isOf recnum posting = true) :
    postings.filter (fun posting ↦ !isOf recnum posting) = postings := by
  rw [List.filter_eq_self]
  intro posting hmem
  simpa using hnone posting hmem

/-- A term whose removal is clean stays exact, without the record, and loses no other posting. -/
theorem Removed.exact_of_clean {termfreq : ℕ} {old new : Option IdxResult}
    (h : Removed recnum termfreq old new) (hold : StoresExactly postings old)
    (hclean : ∀ block, old = some block → if block.numEntries = 1 then
      ∀ posting ∈ block.postings, isOf recnum posting = true
      else ∀ posting ∈ block.postings, ¬isOf recnum posting = true) :
    StoresExactly (postings.filter fun posting ↦ !isOf recnum posting) new ∧
      ∀ recordNo ≠ (recnum.1 : ℤ), postingsOf recordNo new = postingsOf recordNo old := by
  cases h with
  | missing =>
    rw [show postings = [] from hold]
    exact ⟨rfl, fun _ _ ↦ rfl⟩
  | @deleted info hsingle =>
    have hall := hclean info rfl
    rw [if_pos hsingle, hold.2.2.1] at hall
    constructor
    · rw [StoresExactly, List.filter_eq_nil_iff]
      intro posting hmem
      simp [hall posting hmem]
    · intro recordNo hne
      rw [postingsOf, postingsOf, Option.elim_none, List.filter_nil, Option.elim_some, eq_comm,
        List.filter_eq_nil_iff, hold.2.2.1]
      intro posting hmem
      have hof := isOf_iff.mp (hall posting hmem)
      simp only [decide_eq_true_eq]
      exact fun heq ↦ hne (heq.symm.trans hof)
  | @absent info hmany hnone =>
    rw [hold.2.2.1] at hnone
    rw [filter_eq_self_of_none hnone]
    exact ⟨hold, fun _ _ ↦ rfl⟩
  | @taken info block hmany hsome =>
    have hall := hclean info rfl
    rw [if_neg hmany] at hall
    obtain ⟨posting, hmem, hof⟩ := hsome
    exact absurd hof (hall posting hmem)

theorem Removed.clean_of_exact {termfreq : ℕ} {info : IdxResult} {new : Option IdxResult}
    (h : Removed recnum termfreq (some info) new) (hold : StoresExactly postings (some info))
    (hnew : StoresExactly (postings.filter fun posting ↦ !isOf recnum posting) new)
    (hothers : ∀ recordNo ≠ (recnum.1 : ℤ),
      postingsOf recordNo new = postingsOf recordNo (some info)) :
    if info.numEntries = 1 then ∀ posting ∈ info.postings, isOf recnum posting = true
      else ∀ posting ∈ info.postings, ¬isOf recnum posting = true := by
  cases h with
  | deleted hsingle =>
    rw [if_pos hsingle]
    intro posting hmem
    rw [isOf_iff]
    by_contra hne
    have hlost := hothers posting.recordNo hne
    have hin : posting ∈ postingsOf posting.recordNo (some info) := by
      simp [postingsOf, hmem]
    rw [← hlost] at hin
    simp [postingsOf] at hin
  | absent hmany hnone =>
    rw [if_neg hmany]
    exact hnone
  | @taken _ block hmany hsome _ _ _ hsize =>
    -- the block keeps its size, although it has a posting less
    obtain ⟨posting, hmem, hof⟩ := hsome
    rw [hold.2.2.1] at hmem
    have hshorter : (postings.filter fun posting ↦ !isOf recnum posting).length <
        postings.length := by
      rw [List.length_filter_lt_length_iff_exists]
      exact ⟨posting, hmem, by simp [hof]⟩
    rw [← hnew.length_entries, hsize, hold.length_entries] at hshorter
    exact absurd hshorter (lt_irrefl _)

theorem Exact.del_iff (h : Exact idx live) {hash : TermHash}
    (hvalid : ValidKw live (.del recnum hash)) :
    CleanRemoval idx (.del recnum hash) ↔ ∃ idx', inKwdel idx recnum hash = .ok idx' ∧
      LeavesOthers idx (.del recnum hash) idx' ∧
      Exact idx' (live.filter fun entry ↦ entry.1 ≠ recnum) := by
  obtain ⟨idx', hdel, htype, hterms⟩ := inKwdel_spec h.inverted h.sound recnum hash
  constructor
  · intro hclean
    have hword (word : Term) : StoresExactly
        ((livePostings live word).filter fun posting ↦ !isOf recnum posting) (idx'.terms word) ∧
        ∀ recordNo ≠ (recnum.1 : ℤ),
          postingsOf recordNo (idx'.terms word) = postingsOf recordNo (idx.terms word) := by
      have hterm := hterms word
      cases hfind : hash.find? word with
      | none =>
        -- the record has no posting under a term that its hash does not have
        rw [hfind] at hterm
        simp only at hterm
        have hnone : ∀ posting ∈ livePostings live word, ¬isOf recnum posting = true := by
          intro posting hmem hof
          obtain ⟨entry, hentry, htData, hlookup, rfl⟩ := mem_livePostings.mp hmem
          have hrecnum : entry.1 = recnum := Subtype.ext (by simpa [isOf_iff] using hof)
          rw [hvalid entry hentry hrecnum, hfind] at hlookup
          cases hlookup
        rw [hterm, filter_eq_self_of_none hnone]
        exact ⟨h.terms word, fun _ _ ↦ rfl⟩
      | some htData =>
        rw [hfind] at hterm
        exact hterm.exact_of_clean (h.terms word) fun block hblock ↦
          hclean word htData block hfind hblock
    refine ⟨idx', hdel, fun word ↦ (hword word).2, h.inverted.of_idxType htype, fun word ↦ ?_⟩
    rw [livePostings_filter]
    exact (hword word).1
  · rintro ⟨next, hnext, hothers, hexact⟩ word htData block hfind hblock
    rw [hdel, Except.ok.injEq] at hnext
    subst hnext
    have hterm := hterms word
    have hnew := hexact.terms word
    have hold := h.terms word
    have hother := hothers word
    rw [livePostings_filter] at hnew
    rw [hfind] at hterm
    rw [hblock] at hterm hold hother
    exact hterm.clean_of_exact hold hnew hother

theorem stepKw_iff (idx : IdxListEntry) (live : Live) (op : KwOp) (h : Exact idx live)
    (hvalid : ValidKw live op) :
    CleanRemoval idx op ↔
      ∃ idx', stepKw idx op = .ok idx' ∧ LeavesOthers idx op idx' ∧ Exact idx' (specKw live op) := by
  cases op with
  | add recnum hash =>
    obtain ⟨idx', hadd, hexact⟩ := h.add recnum hash
    exact iff_of_true trivial ⟨idx', hadd, trivial, hexact⟩
  | del recnum hash => exact h.del_iff hvalid

/-- Every operation of a history is valid for the live records before it. -/
def ValidHistory (idx : IdxListEntry) (ops : List KwOp) : Prop :=
  Runs.Along stepKw (fun _ ↦ specKw) (fun _ ↦ ValidKw) idx [] ops

/-- Every state of a history is exact and no removal touches the postings of other records. -/
def ExactHistory (idx : IdxListEntry) (ops : List KwOp) : Prop :=
  Runs.Throughout stepKw (fun _ ↦ specKw) Exact LeavesOthers idx [] ops

/-- Along every valid history of an inverted index, all the states are exact and no removal touches
the postings of other records, if and only if every removal of the history is clean. -/
theorem postingHistory_iff (idxType : ℕ) (hinverted : Inverted (IdxListEntry.created idxType))
    (ops : List KwOp) (hvalid : ValidHistory (IdxListEntry.created idxType) ops) :
    ExactHistory (IdxListEntry.created idxType) ops ↔
      Runs.Along stepKw (fun _ ↦ specKw) (fun idx _ op ↦ CleanRemoval idx op)
        (IdxListEntry.created idxType) [] ops :=
  Runs.throughout_iff_along (fun _ ↦ True) (fun _ _ _ _ _ _ _ _ _ ↦ trivial)
    (fun idx live op _ ↦ stepKw_iff idx live op) trivial (exact_created idxType hinverted) hvalid

/-- The hash of a record with a single occurrence of one term. -/
def singleHash (word : Term) : TermHash := ⟨[(word, ⟨1, []⟩)], by simp⟩

theorem find?_singleHash (word other : Term) :
    (singleHash word).find? other = if other = word then some ⟨1, []⟩ else none := by
  by_cases heq : other = word
  · simp [TermHash.find?, singleHash, heq]
  · rw [TermHash.find?, singleHash, List.lookup_cons, beq_eq_false_iff_ne.mpr heq, if_neg heq]
    rfl

theorem inverted_created_zero : Inverted (IdxListEntry.created 0) := ⟨rfl, rfl, rfl⟩

/-- A record that is added and removed again. -/
theorem postingHistory_addRemove :
    ExactHistory (IdxListEntry.created 0)
      [.add ⟨1, by decide, by decide⟩ (singleHash [97]),
        .del ⟨1, by decide, by decide⟩ (singleHash [97])] := by
  refine (postingHistory_iff 0 inverted_created_zero _ ?_).mpr ⟨trivial, ?_⟩
  · refine ⟨by simp [ValidKw], fun _ _ ↦ ⟨?_, fun _ _ ↦ trivial⟩⟩
    simp [ValidKw, specKw]
  · intro idx hadd
    cases hadd
    refine ⟨?_, fun _ _ ↦ trivial⟩
    intro word htData block hfind hblock
    by_cases hword : word = [97]
    · subst hword
      cases hblock
      decide
    · rw [find?_singleHash, if_neg hword] at hfind
      cases hfind

/-- When one of two records of a term is removed, the block keeps its size. -/
theorem postingHistory_staleSize : ¬∀ (idxType : ℕ) (ops : List KwOp),
    Inverted (IdxListEntry.created idxType) → ValidHistory (IdxListEntry.created idxType) ops →
      ExactHistory (IdxListEntry.created idxType) ops := by
  intro hall
  let ops : List KwOp :=
    [.add ⟨1, by decide, by decide⟩ (singleHash [97]),
      .add ⟨2, by decide, by decide⟩ (singleHash [97]),
      .del ⟨1, by decide, by decide⟩ (singleHash [97])]
  have hvalid : ValidHistory (IdxListEntry.created 0) ops := by
    refine ⟨?_, fun _ _ ↦ ⟨?_, fun _ _ ↦ ⟨?_, fun _ _ ↦ trivial⟩⟩⟩ <;> simp [ValidKw, specKw]
  have halong := (Runs.throughout_iff_along (fun _ ↦ True) (fun _ _ _ _ _ _ _ _ _ ↦ trivial)
    (fun idx live op _ ↦ stepKw_iff idx live op) trivial (exact_created 0 inverted_created_zero)
    hvalid).mp (hall 0 ops inverted_created_zero hvalid)
  have hclean := ((halong.2 _ rfl).2 _ rfl).1 [97] ⟨1, []⟩ _ rfl rfl
  revert hclean
  decide

end Cheshire.Index
