import Cheshire.Index.PostingHistory

/-!
# The global counters of an index

`tot_occur` counts the occurrences that the postings of an index stand for, and `tot_numrecs` the
records with a posting.  `in_kwadd` and `in_kwdel` keep both up to date next to the postings.  An
addition counts the record again when it is in the index already.  A removal deletes a term with a
single posting without a look at the counters; it counts only the postings that it finds among
several, with the frequency of the hash, and then takes off one record.
-/

namespace Cheshire.Index

open Lib Function

/-- The postings in use of a stored block; a missing term has none. -/
def termPostings (stored : Option IdxResult) : List IdxPostingEntry :=
  stored.elim [] IdxResult.postings

/-- The occurrences that the postings of a term stand for. -/
def termOccur (stored : Option IdxResult) : ℤ :=
  ((termPostings stored).map IdxPostingEntry.termFreq).sum

/-- The occurrences that all the postings of the index stand for. -/
noncomputable def liveOccur (idx : IdxListEntry) : ℤ := ∑ᶠ word, termOccur (idx.terms word)

/-- The records with a posting. -/
def liveRecords (idx : IdxListEntry) : Set ℤ :=
  {recordNo | ∃ word, recordNo ∈ (termPostings (idx.terms word)).map IdxPostingEntry.recordNo}

/-- The global data agree with the postings. -/
structure CountersTrack (idx : IdxListEntry) : Prop where
  totOccur : idx.globalData.totOccur = liveOccur idx
  totNumrecs : idx.globalData.totNumrecs = (liveRecords idx).ncard

/-- An index in which every record has at most one posting under a term. -/
structure Tidy (idx : IdxListEntry) : Prop where
  inverted : Inverted idx
  sound : ∀ word block, idx.terms word = some block → block.Sound
  finite : {word | idx.terms word ≠ none}.Finite
  distinct : ∀ word, ((termPostings (idx.terms word)).map IdxPostingEntry.recordNo).Nodup

theorem tidy_created (idxType : ℕ) (h : Inverted (IdxListEntry.created idxType)) :
    Tidy (IdxListEntry.created idxType) where
  inverted := h
  sound _ _ hblock := by cases hblock
  finite := by simp [IdxListEntry.created]
  distinct _ := by simp [IdxListEntry.created, termPostings]

theorem liveRecords_created (idxType : ℕ) : liveRecords (IdxListEntry.created idxType) = ∅ := by
  simp [liveRecords, IdxListEntry.created, termPostings]

theorem countersTrack_created (idxType : ℕ) : CountersTrack (IdxListEntry.created idxType) where
  totOccur := by simp [liveOccur, IdxListEntry.created, termOccur, termPostings]
  totNumrecs := by
    rw [liveRecords_created]
    simp [IdxListEntry.created]

theorem finsum_update {ι : Type*} [DecidableEq ι] {f : ι → ℤ} (hf : f.support.Finite) (i : ι)
    (x : ℤ) : ∑ᶠ j, update f i x j = ∑ᶠ j, f j + (x - f i) := by
  have hsubset : f.support ⊆ ↑(insert i hf.toFinset) := by
    intro j hj
    simp [mem_support.mp hj]
  have hsubset' : (update f i x).support ⊆ ↑(insert i hf.toFinset) := by
    intro j hj
    by_cases hji : j = i
    · simp [hji]
    · rw [mem_support, update_of_ne hji] at hj
      simp [hj]
  rw [finsum_eq_sum_of_support_subset _ hsubset', finsum_eq_sum_of_support_subset _ hsubset,
    Finset.sum_update_of_mem (Finset.mem_insert_self _ _),
    ← Finset.add_sum_erase _ f (Finset.mem_insert_self i _), Finset.sdiff_singleton_eq_erase]
  omega

section OneTerm

variable {idx idx' : IdxListEntry} {word : Term}

theorem liveOccur_of_forall_ne (hfinite : {word | idx.terms word ≠ none}.Finite)
    (hother : ∀ other ≠ word, idx'.terms other = idx.terms other) :
    liveOccur idx' = liveOccur idx +
      (termOccur (idx'.terms word) - termOccur (idx.terms word)) := by
  have hsupport : (fun other ↦ termOccur (idx.terms other)).support.Finite := by
    apply hfinite.subset
    intro other hmem hnone
    rw [mem_support, hnone] at hmem
    exact hmem rfl
  rw [liveOccur, liveOccur, ← finsum_update hsupport]
  congr 1
  funext other
  by_cases heq : other = word
  · rw [heq, update_self]
  · rw [update_of_ne heq, hother other heq]

theorem finite_of_forall_ne (hfinite : {word | idx.terms word ≠ none}.Finite)
    (hother : ∀ other ≠ word, idx'.terms other = idx.terms other) :
    {word | idx'.terms word ≠ none}.Finite := by
  apply (hfinite.insert word).subset
  intro other hmem
  by_cases heq : other = word
  · exact .inl heq
  · exact .inr (by rwa [Set.mem_ofPred_eq, hother other heq] at hmem)

end OneTerm

theorem Appended.termOccur {recnum : RecordNumber} {termfreq : ℕ} {old : Option IdxResult}
    {block : IdxResult} (h : Appended recnum termfreq old block) :
    Index.termOccur (some block) = Index.termOccur old + termfreq := by
  rw [Index.termOccur, termPostings, Option.elim_some, h.postings]
  simp [Index.termOccur, termPostings]

theorem kwaddTerms_totals (recnum : RecordNumber) (items : List (Term × HtData)) :
    ∀ {idx idx' : IdxListEntry}, Inverted idx →
    (∀ word block, idx.terms word = some block → block.Sound) →
    {word | idx.terms word ≠ none}.Finite → kwaddTerms recnum items idx = .ok idx' →
    idx'.globalData.totOccur - liveOccur idx' = idx.globalData.totOccur - liveOccur idx ∧
      idx'.globalData.totNumrecs = idx.globalData.totNumrecs ∧
      {word | idx'.terms word ≠ none}.Finite := by
  induction items with
  | nil =>
    intro idx idx' _ _ hfinite hrun
    cases hrun
    exact ⟨rfl, rfl, hfinite⟩
  | cons item items ih =>
    intro idx idx' hidx hsound hfinite hrun
    obtain ⟨next, block, hnext, hadded⟩ := kwaddTerm_spec hidx hsound recnum item
    rw [kwaddTerms, hnext] at hrun
    have hother : ∀ other ≠ item.1, next.terms other = idx.terms other := by
      intro other hne
      rw [hadded.terms, if_neg hne]
    obtain ⟨hoccur, hnumrecs, hfinite'⟩ := ih (hidx.of_idxType hadded.idxType)
      (hadded.sound hsound) (finite_of_forall_ne hfinite hother) hrun
    have hlive := liveOccur_of_forall_ne hfinite hother
    rw [hadded.terms, if_pos rfl, hadded.appended.termOccur] at hlive
    have htotOccur := hadded.totOccur
    refine ⟨?_, hnumrecs.trans hadded.totNumrecs, hfinite'⟩
    omega

theorem liveRecords_add {idx idx' : IdxListEntry} {recnum : RecordNumber} {hash : TermHash}
    (hterms : ∀ word, match hash.find? word with
      | some htData => ∃ block, idx'.terms word = some block ∧
          Appended recnum htData.termfreq (idx.terms word) block
      | none => idx'.terms word = idx.terms word) :
    liveRecords idx' =
      if hash.entries = [] then liveRecords idx else insert (recnum.1 : ℤ) (liveRecords idx) := by
  have hword (word : Term) : (termPostings (idx'.terms word)).map IdxPostingEntry.recordNo =
      (termPostings (idx.terms word)).map IdxPostingEntry.recordNo ++
        ((hash.find? word).map fun _ ↦ (recnum.1 : ℤ)).toList := by
    have hterm := hterms word
    cases hfind : hash.find? word with
    | none =>
      rw [hfind] at hterm
      simp [show idx'.terms word = idx.terms word from hterm]
    | some htData =>
      rw [hfind] at hterm
      obtain ⟨block, hblock, happended⟩ := hterm
      rw [hblock, termPostings, Option.elim_some, happended.postings]
      simp [termPostings]
  ext recordNo
  simp only [liveRecords, Set.mem_ofPred_eq, hword, List.mem_append]
  cases hentries : hash.entries with
  | nil => simp [TermHash.find?, hentries]
  | cons item items =>
    have hfind : hash.find? item.1 = some item.2 := by
      rw [TermHash.find?, hentries, List.lookup_cons, beq_self_eq_true]
    rw [if_neg (List.cons_ne_nil _ _), Set.mem_insert_iff, Set.mem_ofPred_eq]
    constructor
    · intro h
      rcases h with ⟨word, hold | hnew⟩
      · exact .inr ⟨word, hold⟩
      · rw [Option.mem_toList, Option.map_eq_some_iff] at hnew
        obtain ⟨_, -, rfl⟩ := hnew
        exact .inl rfl
    · intro h
      rcases h with rfl | ⟨word, hold⟩
      · exact ⟨item.1, .inr (by simp [hfind])⟩
      · exact ⟨word, .inl hold⟩

theorem Tidy.finite_liveRecords {idx : IdxListEntry} (h : Tidy idx) : (liveRecords idx).Finite := by
  apply (h.finite.biUnion fun word _ ↦
    ((termPostings (idx.terms word)).map IdxPostingEntry.recordNo).finite_toSet).subset
  intro recordNo hmem
  obtain ⟨word, hword⟩ := hmem
  rw [Set.mem_iUnion₂]
  refine ⟨word, ?_, hword⟩
  intro hnone
  simp [hnone, termPostings] at hword

/-- An index stays tidy when a record without a posting gets one under every term of its hash. -/
theorem Tidy.of_appended {idx idx' : IdxListEntry} (h : Tidy idx) {recnum : RecordNumber}
    {hash : TermHash} (hnew : hash.entries ≠ [] → (recnum.1 : ℤ) ∉ liveRecords idx)
    (htype : idx'.idxType = idx.idxType) (hfinite : {word | idx'.terms word ≠ none}.Finite)
    (hterms : ∀ word, match hash.find? word with
      | some htData => ∃ block, idx'.terms word = some block ∧
          Appended recnum htData.termfreq (idx.terms word) block
      | none => idx'.terms word = idx.terms word) : Tidy idx' where
  inverted := h.inverted.of_idxType htype
  finite := hfinite
  sound word block hblock := by
    have hterm := hterms word
    cases hfind : hash.find? word with
    | none =>
      rw [hfind] at hterm
      exact h.sound word block (hterm ▸ hblock)
    | some htData =>
      rw [hfind] at hterm
      obtain ⟨stored, hstored, happended⟩ := hterm
      rw [hstored, Option.some.injEq] at hblock
      exact hblock ▸ happended.sound
  distinct word := by
    have hterm := hterms word
    cases hfind : hash.find? word with
    | none =>
      rw [hfind] at hterm
      rw [show idx'.terms word = idx.terms word from hterm]
      exact h.distinct word
    | some htData =>
      rw [hfind] at hterm
      obtain ⟨stored, hstored, happended⟩ := hterm
      have hentries : hash.entries ≠ [] := by
        intro hnil
        rw [TermHash.find?, hnil] at hfind
        cases hfind
      rw [hstored, termPostings, Option.elim_some, happended.postings, List.map_append,
        List.map_singleton, List.nodup_append]
      refine ⟨h.distinct word, List.nodup_singleton _, ?_⟩
      intro recordNo hmem other hother heq
      rw [List.mem_singleton] at hother
      rw [heq, hother] at hmem
      exact hnew hentries ⟨word, hmem⟩

theorem Tidy.add {idx : IdxListEntry} (h : Tidy idx) (htrack : CountersTrack idx)
    {recnum : RecordNumber} {hash : TermHash}
    (hnew : hash.entries ≠ [] → (recnum.1 : ℤ) ∉ liveRecords idx) :
    ∃ idx', inKwadd idx recnum hash = .ok idx' ∧ Tidy idx' ∧ CountersTrack idx' := by
  obtain ⟨next, hnext, htype, hterms⟩ :=
    kwaddTerms_spec recnum hash.entries hash.nodup h.inverted h.sound
  obtain ⟨hoccur, hnumrecs, hfinite⟩ :=
    kwaddTerms_totals recnum hash.entries h.inverted h.sound h.finite hnext
  have hrecords := @liveRecords_add _ _ recnum hash hterms
  have htidy := h.of_appended hnew htype hfinite hterms
  have htotOccur : next.globalData.totOccur = liveOccur next := by
    have := htrack.totOccur
    omega
  have hadd : inKwadd idx recnum hash = .ok (if itemsOutput idx hash ≠ 0 then
      { next with globalData :=
        { next.globalData with totNumrecs := next.globalData.totNumrecs + 1 } }
      else next) := by
    rw [inKwadd, if_neg (by simp [h.inverted.not_paged, h.inverted.not_freq]), hnext]
    rfl
  by_cases hentries : hash.entries = []
  · have hitems : ¬itemsOutput idx hash ≠ 0 := by
      simp [itemsOutput, h.inverted.not_bitmapped, hentries]
    rw [if_pos hentries] at hrecords
    refine ⟨next, by rw [hadd, if_neg hitems], htidy, htotOccur, ?_⟩
    rw [hnumrecs, hrecords, htrack.totNumrecs]
  · have hitems : itemsOutput idx hash ≠ 0 := by
      simp [itemsOutput, h.inverted.not_bitmapped, hentries]
    rw [if_neg hentries] at hrecords
    refine ⟨{ next with globalData :=
      { next.globalData with totNumrecs := next.globalData.totNumrecs + 1 } },
      by rw [hadd, if_pos hitems], ⟨htidy.inverted.of_idxType rfl, htidy.sound, htidy.finite,
      htidy.distinct⟩, htotOccur, ?_⟩
    change next.globalData.totNumrecs + 1 = (liveRecords next).ncard
    rw [hrecords, Set.ncard_insert_of_notMem (hnew hentries) h.finite_liveRecords, hnumrecs,
      htrack.totNumrecs, Nat.cast_succ]

/-- The block has not a single posting, and one of the record. -/
def FoundAmongSeveral (recnum : RecordNumber) (stored : Option IdxResult) : Prop :=
  ∃ info, stored = some info ∧ info.numEntries ≠ 1 ∧
    ∃ posting ∈ info.postings, isOf recnum posting = true

theorem kwdelTerm_counts {idx idx' : IdxListEntry} (hidx : Inverted idx)
    (hsound : ∀ word block, idx.terms word = some block → block.Sound) {recnum : RecordNumber}
    {reduceRecCount reduced : Bool} {item : Term × HtData}
    (hrun : kwdelTerm recnum idx reduceRecCount item = .ok (idx', reduced)) :
    idx'.globalData.totNumrecs = idx.globalData.totNumrecs ∧
      (FoundAmongSeveral recnum (idx.terms item.1) → reduced = true ∧
        idx'.globalData.totOccur = idx.globalData.totOccur - item.2.termfreq) ∧
      (¬FoundAmongSeveral recnum (idx.terms item.1) → reduced = reduceRecCount ∧
        idx'.globalData.totOccur = idx.globalData.totOccur) := by
  rw [kwdelTerm] at hrun
  cases hterm : idx.terms item.1 with
  | none =>
    rw [hterm] at hrun
    cases hrun
    refine ⟨rfl, ?_, fun _ ↦ ⟨rfl, rfl⟩⟩
    intro hfound
    obtain ⟨_, hinfo, -⟩ := hfound
    cases hinfo
  | some info =>
    rw [hterm] at hrun
    by_cases hsingle : info.numEntries = 1
    · simp only [if_pos hsingle] at hrun
      cases hrun
      refine ⟨rfl, ?_, fun _ ↦ ⟨rfl, rfl⟩⟩
      intro hfound
      obtain ⟨_, hinfo, hmany, -⟩ := hfound
      cases hinfo
      exact absurd hsingle hmany
    · obtain ⟨foundflag, entries, hremoval, hdone⟩ :=
        removeRecord_spec hidx recnum (hsound _ _ hterm) item.2
      simp only [if_neg hsingle, hremoval] at hrun
      have hfound_iff : foundflag = true ↔ FoundAmongSeveral recnum (some info) := by
        rw [hdone.found_iff]
        constructor
        · intro hmem
          exact ⟨info, rfl, hsingle, hmem⟩
        · intro hfound
          obtain ⟨_, hinfo, -, hmem⟩ := hfound
          cases hinfo
          exact hmem
      cases foundflag with
      | false =>
        cases hrun
        exact ⟨rfl, fun hfound ↦ absurd (hfound_iff.mpr hfound) Bool.false_ne_true,
          fun _ ↦ ⟨rfl, rfl⟩⟩
      | true =>
        cases hrun
        exact ⟨rfl, fun _ ↦ ⟨rfl, rfl⟩, fun hnot ↦ absurd (hfound_iff.mp rfl) hnot⟩

theorem sum_eraseP {recnum : RecordNumber} {postings : List IdxPostingEntry} {termfreq : ℤ}
    (hsome : ∃ posting ∈ postings, isOf recnum posting = true)
    (hfreq : ∀ posting ∈ postings, isOf recnum posting = true → posting.termFreq = termfreq) :
    ((postings.eraseP (isOf recnum)).map IdxPostingEntry.termFreq).sum =
      (postings.map IdxPostingEntry.termFreq).sum - termfreq := by
  obtain ⟨posting, hmem, hof⟩ := hsome
  obtain ⟨taken, front, back, -, htaken, hpostings, herase⟩ := List.exists_of_eraseP hmem hof
  have hterm := hfreq taken (by simp [hpostings]) htaken
  rw [herase, hpostings]
  simp only [List.map_append, List.map_cons, List.sum_append, List.sum_cons, hterm]
  omega

/-- What a hash needs for the counters to follow its removal from one term: the term is not stored
with a single posting, and a posting of the record has the frequency of the hash. -/
def CountedTerm (recnum : RecordNumber) (htData : HtData) (stored : Option IdxResult) : Prop :=
  ∀ info, stored = some info → info.numEntries ≠ 1 ∧
    ∀ posting ∈ info.postings, isOf recnum posting = true → posting.termFreq = htData.termfreq

theorem kwdelTerm_totals {idx : IdxListEntry} (hidx : Inverted idx)
    (hsound : ∀ word block, idx.terms word = some block → block.Sound)
    (hfinite : {word | idx.terms word ≠ none}.Finite) {recnum : RecordNumber}
    {reduceRecCount : Bool} {item : Term × HtData}
    (hcounted : CountedTerm recnum item.2 (idx.terms item.1)) {idx' : IdxListEntry} {reduced : Bool}
    (hrun : kwdelTerm recnum idx reduceRecCount item = .ok (idx', reduced))
    (hremoved : Removed recnum item.2.termfreq (idx.terms item.1) (idx'.terms item.1))
    (hother : ∀ word ≠ item.1, idx'.terms word = idx.terms word) :
    idx'.globalData.totOccur - liveOccur idx' = idx.globalData.totOccur - liveOccur idx := by
  obtain ⟨-, hfound, hnotFound⟩ := kwdelTerm_counts hidx hsound hrun
  have hlive := liveOccur_of_forall_ne hfinite hother
  generalize idx.terms item.1 = old at hcounted hremoved hfound hnotFound hlive
  generalize idx'.terms item.1 = new at hremoved hlive
  cases hremoved with
  | missing =>
    have htotOccur := (hnotFound (by simp [FoundAmongSeveral])).2
    omega
  | deleted hsingle => exact absurd hsingle (hcounted _ rfl).1
  | absent hmany hnone =>
    have htotOccur := (hnotFound (by simpa [FoundAmongSeveral, hmany] using hnone)).2
    omega
  | taken hmany hsome hsound hpostings =>
    have htotOccur := (hfound ⟨_, rfl, hmany, hsome⟩).2
    have hsum := sum_eraseP hsome (hcounted _ rfl).2
    rw [termOccur, termOccur, termPostings, termPostings, Option.elim_some, Option.elim_some,
      hpostings, hsum] at hlive
    omega

/-- All the terms of a hash are counted as their postings change, and the flag says whether one was
found among several. -/
theorem kwdelTerms_totals (recnum : RecordNumber) (items : List (Term × HtData))
    (hnodup : (items.map Prod.fst).Nodup) : ∀ {idx idx' : IdxListEntry}
    {reduceRecCount reduced : Bool}, Inverted idx →
    (∀ word block, idx.terms word = some block → block.Sound) →
    {word | idx.terms word ≠ none}.Finite →
    (∀ item ∈ items, CountedTerm recnum item.2 (idx.terms item.1)) →
    kwdelTerms recnum items idx reduceRecCount = .ok (idx', reduced) →
    idx'.globalData.totOccur - liveOccur idx' = idx.globalData.totOccur - liveOccur idx ∧
      idx'.globalData.totNumrecs = idx.globalData.totNumrecs ∧
      {word | idx'.terms word ≠ none}.Finite ∧
      (reduced = true ↔ reduceRecCount = true ∨
        ∃ item ∈ items, FoundAmongSeveral recnum (idx.terms item.1)) := by
  induction items with
  | nil =>
    intro idx idx' reduceRecCount reduced _ _ hfinite _ hrun
    cases hrun
    exact ⟨rfl, rfl, hfinite, by simp⟩
  | cons item items ih =>
    intro idx idx' reduceRecCount reduced hidx hsound hfinite hcounted hrun
    rw [List.map_cons, List.nodup_cons] at hnodup
    obtain ⟨next, flag, hnext, htype, hremoved, hother⟩ :=
      kwdelTerm_spec hidx hsound recnum reduceRecCount item
    rw [kwdelTerms, hnext] at hrun
    have hsound' : ∀ word block, next.terms word = some block → block.Sound := by
      intro word block hblock
      by_cases hword : word = item.1
      · exact hremoved.sound (hsound item.1) block (hword ▸ hblock)
      · exact hsound word block (hother word hword ▸ hblock)
    -- the other terms of the hash are still as they were
    have hlater : ∀ later ∈ items, next.terms later.1 = idx.terms later.1 := by
      intro later hmem
      apply hother
      intro heq
      exact hnodup.1 (heq ▸ List.mem_map_of_mem hmem)
    have hcounted' : ∀ later ∈ items, CountedTerm recnum later.2 (next.terms later.1) := by
      intro later hmem
      rw [hlater later hmem]
      exact hcounted later (List.mem_cons_of_mem _ hmem)
    obtain ⟨hoccur, hnumrecs, hfinite', hreduced⟩ := ih hnodup.2 (hidx.of_idxType htype) hsound'
      (finite_of_forall_ne hfinite hother) hcounted' hrun
    have hfirst := kwdelTerm_totals hidx hsound hfinite (hcounted item List.mem_cons_self) hnext
      hremoved hother
    obtain ⟨hnumrecs', hfound, hnotFound⟩ := kwdelTerm_counts hidx hsound hnext
    refine ⟨hoccur.trans hfirst, hnumrecs.trans hnumrecs', hfinite', ?_⟩
    have hrest : (∃ later ∈ items, FoundAmongSeveral recnum (next.terms later.1)) ↔
        ∃ later ∈ items, FoundAmongSeveral recnum (idx.terms later.1) := by
      constructor
      · intro h
        obtain ⟨later, hmem, hlaterFound⟩ := h
        exact ⟨later, hmem, hlater later hmem ▸ hlaterFound⟩
      · intro h
        obtain ⟨later, hmem, hlaterFound⟩ := h
        exact ⟨later, hmem, (hlater later hmem).symm ▸ hlaterFound⟩
    rw [hreduced, hrest, List.exists_mem_cons_iff]
    by_cases hitem : FoundAmongSeveral recnum (idx.terms item.1)
    · simp [(hfound hitem).1, hitem]
    · simp [(hnotFound hitem).1, hitem]

theorem mem_eraseP_iff {recnum : RecordNumber} {postings : List IdxPostingEntry}
    (hdistinct : (postings.map IdxPostingEntry.recordNo).Nodup) (recordNo : ℤ) :
    recordNo ∈ (postings.eraseP (isOf recnum)).map IdxPostingEntry.recordNo ↔
      recordNo ∈ postings.map IdxPostingEntry.recordNo ∧ recordNo ≠ recnum.1 := by
  have herase : (postings.eraseP (isOf recnum)).map IdxPostingEntry.recordNo =
      (postings.map IdxPostingEntry.recordNo).erase recnum.1 := by
    rw [List.erase_eq_eraseP', List.eraseP_map]
    rfl
  rw [herase, hdistinct.mem_erase_iff, and_comm]

theorem Removed.distinct {recnum : RecordNumber} {termfreq : ℕ} {old new : Option IdxResult}
    (h : Removed recnum termfreq old new)
    (hdistinct : ((termPostings old).map IdxPostingEntry.recordNo).Nodup) :
    ((termPostings new).map IdxPostingEntry.recordNo).Nodup := by
  cases h with
  | missing => exact hdistinct
  | deleted => simp [termPostings]
  | absent => exact hdistinct
  | taken _ _ _ hpostings =>
    rw [termPostings, Option.elim_some, hpostings]
    exact hdistinct.sublist (List.eraseP_sublist.map _)

theorem Removed.mem_iff {recnum : RecordNumber} {htData : HtData} {old new : Option IdxResult}
    (h : Removed recnum htData.termfreq old new) (hcounted : CountedTerm recnum htData old)
    (hdistinct : ((termPostings old).map IdxPostingEntry.recordNo).Nodup) (recordNo : ℤ) :
    recordNo ∈ (termPostings new).map IdxPostingEntry.recordNo ↔
      recordNo ∈ (termPostings old).map IdxPostingEntry.recordNo ∧ recordNo ≠ recnum.1 := by
  cases h with
  | missing => simp [termPostings]
  | deleted hsingle => exact absurd hsingle (hcounted _ rfl).1
  | absent hmany hnone =>
    rw [iff_self_and]
    intro hmem heq
    obtain ⟨posting, hposting, hrecordNo⟩ := List.mem_map.mp hmem
    exact hnone posting hposting (isOf_iff.mpr (hrecordNo.trans heq))
  | taken _ _ _ hpostings =>
    rw [termPostings, Option.elim_some, hpostings]
    exact mem_eraseP_iff hdistinct recordNo

/-- An addition is of a record without a posting, or of no terms.  A removal meets no single posting
and the frequencies of the hash, and if it finds a posting of the record then the hash has all the
terms of the record. -/
def CountersFollow (idx : IdxListEntry) (op : KwOp) : Prop :=
  match op with
  | .add recnum hash => hash.entries ≠ [] → (recnum.1 : ℤ) ∉ liveRecords idx
  | .del recnum hash =>
    (∀ item ∈ hash.entries, CountedTerm recnum item.2 (idx.terms item.1)) ∧
    ((∃ item ∈ hash.entries, FoundAmongSeveral recnum (idx.terms item.1)) →
      ∀ word, (recnum.1 : ℤ) ∈ (termPostings (idx.terms word)).map IdxPostingEntry.recordNo →
        ∃ item ∈ hash.entries, item.1 = word)

theorem CountedTerm.notMem {recnum : RecordNumber} {htData : HtData} {stored : Option IdxResult}
    (h : CountedTerm recnum htData stored) (hnot : ¬FoundAmongSeveral recnum stored) :
    (recnum.1 : ℤ) ∉ (termPostings stored).map IdxPostingEntry.recordNo := by
  intro hmem
  cases stored with
  | none => simp [termPostings] at hmem
  | some info =>
    obtain ⟨posting, hposting, hrecordNo⟩ := List.mem_map.mp hmem
    exact hnot ⟨info, rfl, (h info rfl).1, posting, hposting, isOf_iff.mpr hrecordNo⟩

section Del

variable {idx idx' : IdxListEntry} {recnum : RecordNumber} {hash : TermHash}

theorem same_or_removed (hterms : ∀ word, match hash.find? word with
      | some htData => Removed recnum htData.termfreq (idx.terms word) (idx'.terms word)
      | none => idx'.terms word = idx.terms word) (word : Term) :
    (idx'.terms word = idx.terms word ∧ ∀ item ∈ hash.entries, item.1 ≠ word) ∨
      ∃ item ∈ hash.entries, item.1 = word ∧
        Removed recnum item.2.termfreq (idx.terms word) (idx'.terms word) := by
  have hterm := hterms word
  cases hfind : hash.find? word with
  | none =>
    rw [hfind] at hterm
    rw [TermHash.find?, List.lookup_eq_none_iff] at hfind
    refine .inl ⟨hterm, ?_⟩
    intro item hmem heq
    simpa [heq] using hfind item hmem
  | some htData =>
    rw [hfind] at hterm
    obtain ⟨front, back, hentries, -⟩ := List.lookup_eq_some_iff.mp hfind
    exact .inr ⟨(word, htData), by simp [hentries], rfl, hterm⟩

variable (h : Tidy idx)
  (hword : ∀ word, (idx'.terms word = idx.terms word ∧ ∀ item ∈ hash.entries, item.1 ≠ word) ∨
    ∃ item ∈ hash.entries, item.1 = word ∧
      Removed recnum item.2.termfreq (idx.terms word) (idx'.terms word))

include h hword

theorem Tidy.of_removed (htype : idx'.idxType = idx.idxType)
    (hfinite : {word | idx'.terms word ≠ none}.Finite) : Tidy idx' where
  inverted := h.inverted.of_idxType htype
  finite := hfinite
  sound word block hblock := by
    rcases hword word with ⟨hsame, -⟩ | ⟨item, -, -, hremoved⟩
    · exact h.sound word block (hsame ▸ hblock)
    · exact hremoved.sound (h.sound word) block hblock
  distinct word := by
    rcases hword word with ⟨hsame, -⟩ | ⟨item, -, -, hremoved⟩
    · rw [hsame]
      exact h.distinct word
    · exact hremoved.distinct (h.distinct word)

theorem liveRecords_of_found (hfollow : CountersFollow idx (.del recnum hash))
    (hfound : ∃ item ∈ hash.entries, FoundAmongSeveral recnum (idx.terms item.1)) :
    liveRecords idx' = liveRecords idx \ {(recnum.1 : ℤ)} := by
  obtain ⟨hcounted, hcomplete⟩ := hfollow
  ext recordNo
  rw [Set.mem_sdiff_singleton, liveRecords, liveRecords, Set.mem_ofPred_eq, Set.mem_ofPred_eq,
    ← exists_and_right]
  refine exists_congr fun word ↦ ?_
  rcases hword word with ⟨hsame, hnone⟩ | ⟨item, hmem, rfl, hremoved⟩
  · rw [hsame, iff_self_and]
    intro hrecordNo heq
    obtain ⟨item, hmem, hitem⟩ := hcomplete hfound word (heq ▸ hrecordNo)
    exact hnone item hmem hitem
  · exact hremoved.mem_iff (hcounted item hmem) (h.distinct _) recordNo

theorem liveRecords_of_notFound (hfollow : CountersFollow idx (.del recnum hash))
    (hnot : ¬∃ item ∈ hash.entries, FoundAmongSeveral recnum (idx.terms item.1)) :
    liveRecords idx' = liveRecords idx := by
  ext recordNo
  refine exists_congr fun word ↦ ?_
  rcases hword word with ⟨hsame, -⟩ | ⟨item, hmem, rfl, hremoved⟩
  · rw [hsame]
  · have hcounted := hfollow.1 item hmem
    rw [hremoved.mem_iff hcounted (h.distinct _), and_iff_left_iff_imp]
    intro hrecordNo heq
    refine hcounted.notMem ?_ (heq ▸ hrecordNo)
    intro hitem
    exact hnot ⟨item, hmem, hitem⟩

end Del

theorem mem_liveRecords_of_found {idx : IdxListEntry} {recnum : RecordNumber} {word : Term}
    (h : FoundAmongSeveral recnum (idx.terms word)) : (recnum.1 : ℤ) ∈ liveRecords idx := by
  obtain ⟨info, hinfo, -, posting, hposting, hof⟩ := h
  refine ⟨word, List.mem_map.mpr ⟨posting, ?_, isOf_iff.mp hof⟩⟩
  rwa [hinfo]

theorem Tidy.del {idx : IdxListEntry} (h : Tidy idx) (htrack : CountersTrack idx)
    {recnum : RecordNumber} {hash : TermHash} (hfollow : CountersFollow idx (.del recnum hash)) :
    ∃ idx', inKwdel idx recnum hash = .ok idx' ∧ Tidy idx' ∧ CountersTrack idx' := by
  obtain ⟨next, reduced, hnext, htype, hterms⟩ :=
    kwdelTerms_spec recnum hash.entries hash.nodup false h.inverted h.sound
  obtain ⟨hoccur, hnumrecs, hfinite, hreduced⟩ := kwdelTerms_totals recnum hash.entries hash.nodup
    h.inverted h.sound h.finite hfollow.1 hnext
  have hword := same_or_removed hterms
  have htidy := h.of_removed hword htype hfinite
  have htotOccur : next.globalData.totOccur = liveOccur next := by
    have := htrack.totOccur
    omega
  have hdel : inKwdel idx recnum hash = .ok (if reduced then
      { next with globalData :=
        { next.globalData with totNumrecs := next.globalData.totNumrecs - 1 } }
      else next) := by
    rw [inKwdel, hnext]
    rfl
  by_cases hfound : ∃ item ∈ hash.entries, FoundAmongSeveral recnum (idx.terms item.1)
  · obtain ⟨item, -, hitem⟩ := id hfound
    have hcard :=
      Set.ncard_sdiff_singleton_add_one (mem_liveRecords_of_found hitem) h.finite_liveRecords
    rw [if_pos (hreduced.mpr (.inr hfound))] at hdel
    refine ⟨_, hdel, ⟨htidy.inverted.of_idxType rfl, htidy.sound, htidy.finite, htidy.distinct⟩,
      htotOccur, ?_⟩
    change next.globalData.totNumrecs - 1 = (liveRecords next).ncard
    rw [liveRecords_of_found h hword hfollow hfound, hnumrecs, htrack.totNumrecs, ← hcard]
    simp
  · have hkept : ¬reduced = true := by
      rw [hreduced]
      simpa using hfound
    rw [if_neg hkept] at hdel
    refine ⟨next, hdel, htidy, htotOccur, ?_⟩
    rw [liveRecords_of_notFound h hword hfollow hfound, hnumrecs, htrack.totNumrecs]

/-- Every state of a history has counters that agree with its postings. -/
def CountersHistory (idx : IdxListEntry) (ops : List KwOp) : Prop :=
  Runs.Throughout stepKw (fun _ _ _ ↦ ()) (fun idx _ ↦ CountersTrack idx) (fun _ _ _ ↦ True)
    idx () ops

/-- Along every history of an inverted index whose operations the counters follow, they agree with
the postings in every state. -/
theorem countersHistory_of_follow (idxType : ℕ)
    (hinverted : Inverted (IdxListEntry.created idxType)) (ops : List KwOp)
    (hfollow : Runs.Along stepKw (fun _ _ _ ↦ ()) (fun idx _ op ↦ CountersFollow idx op)
      (IdxListEntry.created idxType) () ops) :
    CountersHistory (IdxListEntry.created idxType) ops := by
  apply Runs.throughout_of_along Tidy _ (tidy_created idxType hinverted)
    (countersTrack_created idxType) hfollow
  intro idx _ op htidy htrack hcond
  cases op with
  | add recnum hash =>
    obtain ⟨idx', hadd, htidy', htrack'⟩ := htidy.add htrack hcond
    exact ⟨idx', hadd, htidy', trivial, htrack'⟩
  | del recnum hash =>
    obtain ⟨idx', hdel, htidy', htrack'⟩ := htidy.del htrack hcond
    exact ⟨idx', hdel, htidy', trivial, htrack'⟩

/-- One of two records of a term is removed. -/
theorem countersHistory_shared : CountersHistory (IdxListEntry.created 0)
    [.add ⟨1, by decide, by decide⟩ (singleHash [97]),
      .add ⟨2, by decide, by decide⟩ (singleHash [97]),
      .del ⟨1, by decide, by decide⟩ (singleHash [97])] := by
  apply countersHistory_of_follow 0 inverted_created_zero
  refine ⟨?_, fun first hfirst ↦ ⟨?_, fun second hsecond ↦ ⟨⟨?_, ?_⟩, fun _ _ ↦ trivial⟩⟩⟩
  · intro _
    rw [liveRecords_created]
    exact Set.notMem_empty _
  · intro _ hmem
    obtain ⟨word, hword⟩ := hmem
    by_cases heq : word = [97]
    · subst heq
      cases hfirst
      revert hword
      decide
    · have hnone : first.terms word = none := by
        cases hfirst
        exact update_of_ne heq _ _
      rw [termPostings, hnone] at hword
      cases hword
  · intro item hmem info hinfo
    cases hfirst
    cases hsecond
    rw [singleHash, List.mem_singleton] at hmem
    subst hmem
    cases hinfo
    decide
  · intro _ word hword
    by_cases heq : word = [97]
    · exact ⟨_, List.mem_singleton_self _, heq.symm⟩
    · have hnone : second.terms word = none := by
        cases hfirst
        cases hsecond
        exact (update_of_ne heq _ _).trans (update_of_ne heq _ _)
      rw [termPostings, hnone] at hword
      cases hword

/-- A record is added and removed again: its occurrence and the record stay counted. -/
theorem countersHistory_drift : ¬∀ (idxType : ℕ) (ops : List KwOp),
    Inverted (IdxListEntry.created idxType) →
      CountersHistory (IdxListEntry.created idxType) ops := by
  intro hall
  have hhistory := hall 0 [.add ⟨1, by decide, by decide⟩ (singleHash [97]),
    .del ⟨1, by decide, by decide⟩ (singleHash [97])] inverted_created_zero
  obtain ⟨-, first, hfirst, -, -, second, hsecond, -, htrack⟩ := hhistory
  have hnone (word : Term) : second.terms word = none := by
    cases hfirst
    cases hsecond
    by_cases heq : word = [97]
    · subst heq
      rfl
    · exact (update_of_ne heq _ _).trans (update_of_ne heq _ _)
  have hcounted : second.globalData.totOccur = 1 := by
    cases hfirst
    cases hsecond
    rfl
  have htotOccur := htrack.totOccur
  rw [hcounted, liveOccur] at htotOccur
  simp [hnone, termOccur, termPostings] at htotOccur

end Cheshire.Index
