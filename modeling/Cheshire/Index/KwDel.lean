import Cheshire.Index.KwAdd

/-!
# Removing the terms of a record

`in_kwdel` collects the terms of a record again and takes its posting out of every one of them.  A
term with a single posting is deleted as a whole, without a look at the posting.  Otherwise the
postings behind that of the record move one place to the front, and the block is written back.
-/

namespace Cheshire.Index

/-- `newinfo->entries[i]` -/
def postingAt (entries : List IdxPostingEntry) (i : ℕ) : Exec IdxPostingEntry :=
  match entries[i]? with
  | some entry => .ok entry
  | none => .error .outOfBounds

/-- The loop over the postings in use, from place `i` on: once the record is found every posting
moves one place to the front. -/
def migrateEntries (recnum : RecordNumber) :
    ℕ → ℕ → Bool → List IdxPostingEntry → Exec (Bool × List IdxPostingEntry)
  | 0, _, foundflag, entries => .ok (foundflag, entries)
  | left + 1, i, foundflag, entries => do
    let entry ← postingAt entries i
    migrateEntries recnum left (i + 1) (foundflag || decide (entry.recordNo = recnum.1))
      (if foundflag then entries.set (i - 1) entry else entries)

/-- What the removal from one block leaves: the index, whether there was something to remove, the
occurrences to subtract and the postings. -/
structure Removal where
  idx : IdxListEntry
  foundflag : Bool
  termfreq : ℕ
  entries : List IdxPostingEntry

/-- The removal of the record from a block with several postings. -/
def removeRecord (idx : IdxListEntry) (recnum : RecordNumber) (newinfo : IdxResult)
    (htData : HtData) : Exec Removal :=
  if idx.has BITMAPPED_TYPE then
    .ok ⟨inDelBitmapEntry idx recnum.1 newinfo.termid, true, 1, newinfo.entries⟩
  else do
    let (foundflag, entries) ←
      migrateEntries recnum newinfo.numEntries.toNat 0 false newinfo.entries
    .ok ⟨idx, foundflag, htData.termfreq, entries⟩

/-- The postings that are written back.  The test `idx->type & BITMAPPED_TYPE != BITMAPPED_TYPE`
compares the constant with itself first, so the size is never reduced. -/
def sizedEntries (idx : IdxListEntry) (entries : List IdxPostingEntry) : List IdxPostingEntry :=
  if idx.idxType &&& (BITMAPPED_TYPE != BITMAPPED_TYPE).toNat ≠ 0 then entries.dropLast
  else entries

/-- One term of the hash; the flag is `reduce_rec_count`. -/
def kwdelTerm (recnum : RecordNumber) (idx : IdxListEntry) (reduceRecCount : Bool)
    (item : Term × HtData) : Exec (IdxListEntry × Bool) :=
  match idx.terms item.1 with
  | none => .ok (idx, reduceRecCount)
  | some newinfo =>
    if newinfo.numEntries = 1 then .ok (idx.delTerm item.1, reduceRecCount)
    else do
      let removal ← removeRecord idx recnum newinfo item.2
      .ok (if removal.foundflag then
        ((removal.idx.addOccur (-removal.termfreq)).putTerm item.1
          { newinfo with
            totFreq := newinfo.totFreq - removal.termfreq
            numEntries := newinfo.numEntries - 1
            entries := sizedEntries idx removal.entries }, true)
      else (removal.idx, reduceRecCount))

def kwdelTerms (recnum : RecordNumber) :
    List (Term × HtData) → IdxListEntry → Bool → Exec (IdxListEntry × Bool)
  | [], idx, reduceRecCount => .ok (idx, reduceRecCount)
  | item :: items, idx, reduceRecCount => do
    let (idx, reduceRecCount) ← kwdelTerm recnum idx reduceRecCount item
    kwdelTerms recnum items idx reduceRecCount

/-- `in_kwdel` for one index. -/
def inKwdel (idx : IdxListEntry) (recnum : RecordNumber) (hash : TermHash) :
    Exec IdxListEntry := do
  let (next, reduceRecCount) ← kwdelTerms recnum hash.entries idx false
  .ok (if reduceRecCount then
    { next with globalData :=
      { next.globalData with totNumrecs := next.globalData.totNumrecs - 1 } }
    else next)

def isOf (recnum : RecordNumber) (posting : IdxPostingEntry) : Bool :=
  decide (posting.recordNo = recnum.1)

variable {recnum : RecordNumber}

theorem isOf_iff {posting : IdxPostingEntry} :
    isOf recnum posting = true ↔ posting.recordNo = recnum.1 := decide_eq_true_iff

/-- The loop has passed the first `i` places of `old`: nothing has changed while the record is not
found, and after that the places before the last one passed hold the others. -/
structure Migrated (recnum : RecordNumber) (old : List IdxPostingEntry) (i : ℕ)
    (foundflag : Bool) (entries : List IdxPostingEntry) : Prop where
  found_iff : foundflag = true ↔ ∃ posting ∈ old.take i, isOf recnum posting = true
  unchanged : foundflag = false → entries = old
  passed : foundflag = true → entries.take (i - 1) = (old.take i).eraseP (isOf recnum)
  ahead : entries.drop (i - 1) = old.drop (i - 1)
  length_eq : entries.length = old.length

theorem migrated_start (recnum : RecordNumber) (old : List IdxPostingEntry) :
    Migrated recnum old 0 false old where
  found_iff := by simp
  unchanged _ := rfl
  passed h := by cases h
  ahead := rfl
  length_eq := rfl

theorem Migrated.step {old entries : List IdxPostingEntry} {i : ℕ} {foundflag : Bool}
    (h : Migrated recnum old i foundflag entries) (hi : i < old.length) :
    ∃ entry, postingAt entries i = .ok entry ∧
      Migrated recnum old (i + 1) (foundflag || decide (entry.recordNo = recnum.1))
        (if foundflag then entries.set (i - 1) entry else entries) := by
  have hentry : entries[i]? = some old[i] := by
    have hget := congrArg (fun xs : List IdxPostingEntry ↦ xs[i - (i - 1)]?) h.ahead
    simp only [List.getElem?_drop] at hget
    rw [show i - 1 + (i - (i - 1)) = i by omega, List.getElem?_eq_getElem hi] at hget
    exact hget
  have htake : old.take (i + 1) = old.take i ++ [old[i]] := List.take_succ_eq_append_getElem hi
  refine ⟨old[i], by rw [postingAt, hentry], ?_⟩
  cases foundflag with
  | false =>
    obtain rfl := h.unchanged rfl
    have hnone : ∀ posting ∈ entries.take i, ¬isOf recnum posting = true := fun posting hmem hof ↦
      Bool.false_ne_true (h.found_iff.mpr ⟨posting, hmem, hof⟩)
    constructor
    · rw [htake, Bool.false_or, decide_eq_true_iff]
      constructor
      · intro heq
        exact ⟨_, List.mem_append_right _ (List.mem_singleton_self _), isOf_iff.mpr heq⟩
      · rintro ⟨posting, hmem, hof⟩
        rcases List.mem_append.mp hmem with hmem | hmem
        · exact absurd hof (hnone posting hmem)
        · rw [List.mem_singleton] at hmem
          exact hmem ▸ isOf_iff.mp hof
    · intro _
      rfl
    · intro hfound
      have hof : isOf recnum entries[i] = true := by simpa [isOf] using hfound
      rw [htake, List.eraseP_append_right _ hnone, List.eraseP_cons_of_pos hof,
        Nat.add_sub_cancel, List.append_nil]
      rfl
    · rfl
    · rfl
  | true =>
    obtain ⟨posting, hmem, hof⟩ := h.found_iff.mp rfl
    have hpos : 0 < i := by
      rcases Nat.eq_zero_or_pos i with rfl | hpos
      · simp at hmem
      · exact hpos
    have hlt : i - 1 < entries.length := by
      rw [h.length_eq]
      omega
    constructor
    · rw [Bool.true_or, eq_self_iff_true, true_iff, htake]
      exact ⟨posting, List.mem_append_left _ hmem, hof⟩
    · intro hfalse
      cases hfalse
    · intro _
      have hset (entry : IdxPostingEntry) :
          (entries.set (i - 1) entry).take i = entries.take (i - 1) ++ [entry] := by
        obtain ⟨k, rfl⟩ : ∃ k, i = k + 1 := ⟨i - 1, by omega⟩
        rw [Nat.add_sub_cancel] at hlt ⊢
        rw [List.take_succ_eq_append_getElem (by simpa using hlt), List.getElem_set_self,
          List.take_set_of_le le_rfl]
      rw [htake, List.eraseP_append_left hof _ hmem, ← h.passed rfl, Nat.add_sub_cancel]
      exact hset _
    · have hahead := congrArg (List.drop 1) h.ahead
      rw [List.drop_drop, List.drop_drop, show i - 1 + 1 = i by omega] at hahead
      rw [Nat.add_sub_cancel, if_pos rfl, List.drop_set_of_lt (by omega), hahead]
    · rw [if_pos rfl, List.length_set, h.length_eq]

theorem Migrated.run {old : List IdxPostingEntry} (left : ℕ) :
    ∀ {i : ℕ} {foundflag : Bool} {entries : List IdxPostingEntry}, i + left ≤ old.length →
    Migrated recnum old i foundflag entries →
    ∃ foundflag' entries', migrateEntries recnum left i foundflag entries =
        .ok (foundflag', entries') ∧ Migrated recnum old (i + left) foundflag' entries' := by
  induction left with
  | zero => exact fun _ h ↦ ⟨_, _, rfl, h⟩
  | succ left ih =>
    intro i foundflag entries hle h
    obtain ⟨entry, hentry, hstep⟩ := h.step (by omega)
    obtain ⟨foundflag', entries', hrun, hdone⟩ := ih (by omega) hstep
    refine ⟨foundflag', entries', by rw [migrateEntries, hentry]; exact hrun, ?_⟩
    rwa [show i + (left + 1) = i + 1 + left by omega]

/-- What `in_kwdel` makes of the stored block of a term of the hash. -/
inductive Removed (recnum : RecordNumber) (termfreq : ℕ) :
    Option IdxResult → Option IdxResult → Prop
  | missing : Removed recnum termfreq none none
  | deleted {info : IdxResult} (hsingle : info.numEntries = 1) :
      Removed recnum termfreq (some info) none
  | absent {info : IdxResult} (hmany : info.numEntries ≠ 1)
      (hnone : ∀ posting ∈ info.postings, ¬isOf recnum posting = true) :
      Removed recnum termfreq (some info) (some info)
  | taken {info block : IdxResult} (hmany : info.numEntries ≠ 1)
      (hsome : ∃ posting ∈ info.postings, isOf recnum posting = true) (hsound : block.Sound)
      (hpostings : block.postings = info.postings.eraseP (isOf recnum))
      (htotFreq : block.totFreq = info.totFreq - termfreq)
      (hsize : block.entries.length = info.entries.length) :
      Removed recnum termfreq (some info) (some block)

theorem sizedEntries_eq (idx : IdxListEntry) (entries : List IdxPostingEntry) :
    sizedEntries idx entries = entries := by
  simp [sizedEntries]

theorem terms_delTerm (idx : IdxListEntry) (word other : Term) :
    (idx.delTerm word).terms other = if other = word then none else idx.terms other :=
  Function.update_apply _ _ _ _

variable {idx : IdxListEntry}

theorem removeRecord_spec (hidx : Inverted idx) (recnum : RecordNumber) {info : IdxResult}
    (hinfo : info.Sound) (htData : HtData) :
    ∃ foundflag entries, removeRecord idx recnum info htData =
        .ok ⟨idx, foundflag, htData.termfreq, entries⟩ ∧
      Migrated recnum info.entries info.numEntries.toNat foundflag entries := by
  obtain ⟨foundflag, entries, hrun, hdone⟩ := Migrated.run info.numEntries.toNat
    (by rw [Nat.zero_add]; exact hinfo.stored) (migrated_start recnum info.entries)
  rw [Nat.zero_add] at hdone
  refine ⟨foundflag, entries, ?_, hdone⟩
  rw [removeRecord, if_neg (by simp [hidx.not_bitmapped]), hrun]
  rfl

theorem kwdelTerm_spec (hidx : Inverted idx)
    (hsound : ∀ word block, idx.terms word = some block → block.Sound) (recnum : RecordNumber)
    (reduceRecCount : Bool) (item : Term × HtData) :
    ∃ idx' reduced, kwdelTerm recnum idx reduceRecCount item = .ok (idx', reduced) ∧
      idx'.idxType = idx.idxType ∧
      Removed recnum item.2.termfreq (idx.terms item.1) (idx'.terms item.1) ∧
      ∀ word ≠ item.1, idx'.terms word = idx.terms word := by
  rw [kwdelTerm]
  cases hterm : idx.terms item.1 with
  | none => exact ⟨idx, _, rfl, rfl, by rw [hterm]; exact .missing, fun _ _ ↦ rfl⟩
  | some newinfo =>
    by_cases hsingle : newinfo.numEntries = 1
    · simp only [if_pos hsingle]
      refine ⟨_, _, rfl, rfl, ?_, fun word hne ↦ ?_⟩
      · rw [terms_delTerm, if_pos rfl]
        exact .deleted hsingle
      · rw [terms_delTerm, if_neg hne]
    · have hinfo := hsound _ _ hterm
      have hnonneg := hinfo.nonneg
      obtain ⟨foundflag, entries, hremoval, hdone⟩ := removeRecord_spec hidx recnum hinfo item.2
      simp only [if_neg hsingle, hremoval, sizedEntries_eq]
      cases foundflag with
      | false =>
        refine ⟨idx, _, rfl, rfl, ?_, fun _ _ ↦ rfl⟩
        rw [hterm]
        exact .absent hsingle fun posting hmem hof ↦
          Bool.false_ne_true (hdone.found_iff.mpr ⟨posting, hmem, hof⟩)
      | true =>
        refine ⟨_, _, rfl, rfl, ?_, fun word hne ↦ ?_⟩
        · simp only [terms_putTerm, if_pos]
          obtain ⟨posting, hmem, hof⟩ := hdone.found_iff.mp rfl
          have hpos : 0 < newinfo.numEntries.toNat := by
            rcases Nat.eq_zero_or_pos newinfo.numEntries.toNat with hzero | hpos
            · rw [hzero] at hmem
              simp at hmem
            · exact hpos
          have hpred : (newinfo.numEntries - 1).toNat = newinfo.numEntries.toNat - 1 := by omega
          have hlength := hdone.length_eq
          have hstored := hinfo.stored
          refine .taken hsingle ⟨posting, hmem, hof⟩ ⟨by simp only; omega, ?_⟩ ?_ rfl
            hlength
          · simp only [hpred, hlength]
            omega
          · simp only [IdxResult.postings, hpred]
            exact hdone.passed rfl
        · simp only [terms_putTerm, if_neg hne, terms_addOccur]

theorem Removed.sound {termfreq : ℕ} {old new : Option IdxResult}
    (h : Removed recnum termfreq old new) (hold : ∀ block, old = some block → block.Sound) :
    ∀ block, new = some block → block.Sound := by
  cases h with
  | missing => exact hold
  | deleted => exact fun _ h ↦ by cases h
  | absent => exact hold
  | taken _ _ hsound =>
    rintro block h
    cases h
    exact hsound

/-- All the terms of a hash: each loses the record as one removal does it, every other term is
left. -/
theorem kwdelTerms_spec (recnum : RecordNumber) (items : List (Term × HtData))
    (hnodup : (items.map Prod.fst).Nodup) : ∀ {idx : IdxListEntry} (reduceRecCount : Bool),
    Inverted idx → (∀ word block, idx.terms word = some block → block.Sound) →
    ∃ idx' reduced, kwdelTerms recnum items idx reduceRecCount = .ok (idx', reduced) ∧
      idx'.idxType = idx.idxType ∧
      ∀ word, match items.lookup word with
        | some htData => Removed recnum htData.termfreq (idx.terms word) (idx'.terms word)
        | none => idx'.terms word = idx.terms word := by
  induction items with
  | nil => exact fun _ _ _ ↦ ⟨_, _, rfl, rfl, fun word ↦ rfl⟩
  | cons item items ih =>
    intro idx reduceRecCount hidx hsound
    rw [List.map_cons, List.nodup_cons] at hnodup
    obtain ⟨next, reduced, hnext, htype, hremoved, hother⟩ :=
      kwdelTerm_spec hidx hsound recnum reduceRecCount item
    have hsound' : ∀ word block, next.terms word = some block → block.Sound := by
      intro word block hblock
      by_cases hword : word = item.1
      · exact hremoved.sound (hsound item.1) block (hword ▸ hblock)
      · exact hsound word block (hother word hword ▸ hblock)
    obtain ⟨idx', reduced', hrest, htype', hterms⟩ :=
      ih hnodup.2 reduced (hidx.of_idxType htype) hsound'
    refine ⟨idx', reduced', by rw [kwdelTerms, hnext]; exact hrest, htype'.trans htype,
      fun word ↦ ?_⟩
    have hword := hterms word
    rw [List.lookup_cons]
    by_cases heq : word = item.1
    · -- the rest of the hash does not have the word again
      have hnone : items.lookup item.1 = none := lookup_eq_none hnodup.1
      subst heq
      rw [hnone] at hword
      simp only [beq_self_eq_true]
      rwa [hword]
    · have hbeq : (word == item.1) = false := beq_eq_false_iff_ne.mpr heq
      rw [hbeq]
      rwa [hother word heq] at hword

theorem inKwdel_spec (hidx : Inverted idx)
    (hsound : ∀ word block, idx.terms word = some block → block.Sound) (recnum : RecordNumber)
    (hash : TermHash) : ∃ idx', inKwdel idx recnum hash = .ok idx' ∧ idx'.idxType = idx.idxType ∧
      ∀ word, match hash.find? word with
        | some htData => Removed recnum htData.termfreq (idx.terms word) (idx'.terms word)
        | none => idx'.terms word = idx.terms word := by
  obtain ⟨next, reduced, hnext, htype, hterms⟩ :=
    kwdelTerms_spec recnum hash.entries hash.nodup false hidx hsound
  rw [inKwdel, hnext]
  refine ⟨_, rfl, ?_, ?_⟩
  · split <;> exact htype
  · split <;> exact hterms

end Cheshire.Index
