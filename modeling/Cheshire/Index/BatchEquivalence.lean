import Cheshire.Index.BatchLoad

/-!
# Batch loading against direct indexing

Read back line by line, the batch file does to an index, with the pending block put into it, what
the direct path does for the same term and record.  So both paths insert the same items, one in the
order of the records and the other in the order of the keys, and items of different terms do not
interfere.  Everything agrees except the number of indexed records, which only the direct path
counts.
-/

namespace Cheshire.Index

def insertItem (idx : IdxListEntry) (item : BatchItem) : Exec IdxListEntry :=
  kwaddTerm item.recnum idx (item.key, ⟨item.termfreq, item.pos⟩)

def insertItems : List BatchItem → IdxListEntry → Exec IdxListEntry
  | [], idx => .ok idx
  | item :: items, idx => do
    let idx ← insertItem idx item
    insertItems items idx

/-- The postings of a term among the items. -/
def itemPostings (items : List BatchItem) (word : Term) : List IdxPostingEntry :=
  (items.filter fun item ↦ item.key = word).map fun item ↦ ⟨item.recnum.1, item.termfreq⟩

def itemOf (items : List BatchItem) (word : Term) (recnum : RecordNumber) : Option BatchItem :=
  (items.filter fun item ↦ item.key = word).find? fun item ↦ item.recnum = recnum

/-- The index holds exactly the items: the postings of every term, the positions of every term and
record, and totals that count terms and occurrences. -/
structure Filled (items : List BatchItem) (idx : IdxListEntry) : Prop where
  inverted : Inverted idx
  terms : ∀ word, StoresExactly (itemPostings items word) (idx.terms word)
  termid_lt : ∀ {word info}, idx.terms word = some info → info.termid < idx.globalData.recptr
  termid_inj : ∀ {word word' info info'}, idx.terms word = some info →
    idx.terms word' = some info' → info.termid = info'.termid → word = word'
  prox : ∀ {word info}, idx.terms word = some info → ∀ recnum : RecordNumber,
    idx.prox ⟨info.termid, recnum.1⟩ =
      if idx.has PROXIMITY then (itemOf items word recnum).map BatchItem.pos else none
  prox_fresh : ∀ key : ProxIdxPosKey, idx.globalData.recptr ≤ key.termid → idx.prox key = none
  recptr : idx.globalData.recptr = (items.map BatchItem.key).toFinset.card
  totOccur : idx.globalData.totOccur = (items.map fun item ↦ (item.termfreq : ℤ)).sum

theorem filled_created {idxType : ℕ} (h : Inverted (IdxListEntry.created idxType)) :
    Filled [] (IdxListEntry.created idxType) where
  inverted := h
  terms _ := rfl
  termid_lt h := by cases h
  termid_inj h := by cases h
  prox h := by cases h
  prox_fresh _ _ := rfl
  recptr := rfl
  totOccur := rfl

section Insert

variable {items : List BatchItem} {idx : IdxListEntry} {item : BatchItem}

theorem itemPostings_append (items : List BatchItem) (item : BatchItem) (word : Term) :
    itemPostings (items ++ [item]) word = itemPostings items word ++
      if item.key = word then [⟨item.recnum.1, (item.termfreq : ℤ)⟩] else [] := by
  rw [itemPostings, List.filter_append, List.map_append, ← itemPostings]
  by_cases hkey : item.key = word <;> simp [hkey]

theorem itemOf_append (items : List BatchItem) (item : BatchItem) (word : Term)
    (recnum : RecordNumber) : itemOf (items ++ [item]) word recnum =
      (itemOf items word recnum).or
        (if item.key = word ∧ item.recnum = recnum then some item else none) := by
  rw [itemOf, List.filter_append, List.find?_append, ← itemOf]
  by_cases hkey : item.key = word <;> by_cases hrec : item.recnum = recnum <;> simp [hkey, hrec]

theorem itemOf_append_of_ne (items : List BatchItem) {item : BatchItem} {word : Term}
    {recnum : RecordNumber} (hne : ¬(item.key = word ∧ item.recnum = recnum)) :
    itemOf (items ++ [item]) word recnum = itemOf items word recnum := by
  rw [itemOf_append, if_neg hne, Option.or_none]

theorem itemOf_eq_none {word : Term} {recnum : RecordNumber}
    (h : ∀ item ∈ items, ¬(item.key = word ∧ item.recnum = recnum)) :
    itemOf items word recnum = none := by
  rw [itemOf, List.find?_eq_none]
  intro item hitem
  rw [List.mem_filter, decide_eq_true_eq] at hitem
  rw [decide_eq_true_eq]
  exact fun hrec ↦ h item hitem.1 ⟨hitem.2, hrec⟩

theorem Filled.terms_eq_none_iff (h : Filled items idx) (word : Term) :
    idx.terms word = none ↔ word ∉ items.map BatchItem.key := by
  have hterm := h.terms word
  have hnil : itemPostings items word = [] ↔ word ∉ items.map BatchItem.key := by
    simp [itemPostings, List.filter_eq_nil_iff]
  rw [← hnil]
  cases hstored : idx.terms word with
  | none =>
    rw [hstored] at hterm
    exact iff_of_true rfl hterm
  | some info =>
    rw [hstored] at hterm
    exact iff_of_false (by simp) hterm.1

theorem Filled.sound (h : Filled items idx) (word : Term) (block : IdxResult)
    (hblock : idx.terms word = some block) : block.Sound :=
  (hblock ▸ h.terms word : StoresExactly _ (some block)).sound

theorem Filled.added (h : Filled items idx)
    (hfresh : ∀ other ∈ items, ¬(other.key = item.key ∧ other.recnum = item.recnum))
    {idx' : IdxListEntry} {block : IdxResult} (hadded : TermAdded item.recnum
      (item.key, ⟨item.termfreq, item.pos⟩) idx idx' block) : Filled (items ++ [item]) idx' := by
  have hnone : idx.terms item.key = none ↔ item.key ∉ items.map BatchItem.key :=
    h.terms_eq_none_iff item.key
  have hid : block.termid < idx'.globalData.recptr ∧
      idx.globalData.recptr ≤ idx'.globalData.recptr ∧
      ∀ word info, word ≠ item.key → idx.terms word = some info → info.termid ≠ block.termid := by
    rcases hadded.termid with ⟨-, hnew, hptr⟩ | ⟨hold, hptr⟩
    · refine ⟨by omega, by omega, fun word info _ hinfo heq ↦ ?_⟩
      have := h.termid_lt hinfo
      omega
    · obtain ⟨info, hinfo⟩ := Option.ne_none_iff_exists'.mp hold
      have hsame := hadded.appended.termid info hinfo
      have hlt := h.termid_lt hinfo
      refine ⟨by omega, by omega, fun word info' hne hinfo' heq ↦ hne ?_⟩
      exact h.termid_inj hinfo' hinfo (heq.trans hsame)
  constructor
  · exact h.inverted.of_idxType hadded.idxType
  · intro word
    rw [itemPostings_append, hadded.terms]
    by_cases hword : word = item.key
    · subst hword
      rw [if_pos rfl, if_pos rfl]
      exact (h.terms item.key).append hadded.appended
    · rw [if_neg hword, if_neg (Ne.symm hword), List.append_nil]
      exact h.terms word
  · intro word info hinfo
    rw [hadded.terms] at hinfo
    split at hinfo
    · cases hinfo
      exact hid.1
    · exact lt_of_lt_of_le (h.termid_lt hinfo) hid.2.1
  · intro word word' info info' hinfo hinfo' heq
    rw [hadded.terms] at hinfo hinfo'
    split at hinfo <;> split at hinfo'
    · simp_all
    · cases hinfo
      exact absurd heq.symm (hid.2.2 _ _ ‹_› hinfo')
    · cases hinfo'
      exact absurd heq (hid.2.2 _ _ ‹_› hinfo)
    · exact h.termid_inj hinfo hinfo' heq
  · intro word info hinfo recnum
    have hhas : idx'.has PROXIMITY = idx.has PROXIMITY := by
      rw [IdxListEntry.has, IdxListEntry.has, hadded.idxType]
    rw [hadded.terms] at hinfo
    rw [hadded.prox, hhas]
    by_cases hword : word = item.key
    · subst hword
      rw [if_pos rfl, Option.some.injEq] at hinfo
      subst hinfo
      -- the positions that were stored before
      have hbefore (recnum : RecordNumber) : idx.prox ⟨block.termid, recnum.1⟩ =
          if idx.has PROXIMITY then (itemOf items item.key recnum).map BatchItem.pos else none := by
        rcases hadded.termid with ⟨hmissing, hnew, -⟩ | ⟨hold, -⟩
        · have hno : itemOf items item.key recnum = none :=
            itemOf_eq_none fun other hother hand ↦
              hnone.mp hmissing (List.mem_map.mpr ⟨other, hother, hand.1⟩)
          rw [h.prox_fresh _ hnew.ge, hno, Option.map_none, ite_self]
        · obtain ⟨info, hinfo⟩ := Option.ne_none_iff_exists'.mp hold
          rw [hadded.appended.termid info hinfo]
          exact h.prox hinfo recnum
      by_cases hrec : recnum = item.recnum
      · subst hrec
        have hno : itemOf items item.key item.recnum = none := itemOf_eq_none hfresh
        rw [hbefore, itemOf_append, hno]
        cases idx.has PROXIMITY <;> simp
      · have hne : ¬(idx.has PROXIMITY = true ∧
            (⟨block.termid, recnum.1⟩ : ProxIdxPosKey) = ⟨block.termid, item.recnum.1⟩) := by
          rintro ⟨-, heq⟩
          rw [ProxIdxPosKey.mk.injEq, Nat.cast_inj] at heq
          exact hrec (Subtype.ext heq.2)
        rw [if_neg hne, hbefore, itemOf_append_of_ne _ fun hand ↦ hrec hand.2.symm]
    · rw [if_neg hword] at hinfo
      have hne : ¬(idx.has PROXIMITY = true ∧
          (⟨info.termid, recnum.1⟩ : ProxIdxPosKey) = ⟨block.termid, item.recnum.1⟩) := by
        rintro ⟨-, heq⟩
        rw [ProxIdxPosKey.mk.injEq] at heq
        exact hid.2.2 _ _ hword hinfo heq.1
      rw [if_neg hne, h.prox hinfo, itemOf_append_of_ne _ fun hand ↦ hword hand.1.symm]
  · intro key hkey
    have hne : ¬(idx.has PROXIMITY = true ∧ key = ⟨block.termid, item.recnum.1⟩) := by
      rintro ⟨-, rfl⟩
      exact absurd hkey (not_le.mpr hid.1)
    rw [hadded.prox, if_neg hne, h.prox_fresh key (hid.2.1.trans hkey)]
  · rw [List.map_append, List.map_singleton, List.toFinset_append, List.toFinset_cons,
      List.toFinset_nil, insert_empty_eq]
    rcases hadded.termid with ⟨hmissing, -, hptr⟩ | ⟨hold, hptr⟩
    · rw [hptr, h.recptr, Finset.card_union_of_disjoint]
      · simp
      · rw [Finset.disjoint_singleton_right, List.mem_toFinset]
        exact hnone.mp hmissing
    · rw [hptr, h.recptr, Finset.union_eq_left.mpr]
      rw [Finset.singleton_subset_iff, List.mem_toFinset]
      exact not_not.mp ((not_congr hnone).mp hold)
  · rw [hadded.totOccur, h.totOccur]
    simp

end Insert

/-- No two items are for the same record of the same term. -/
def Distinct (items : List BatchItem) : Prop :=
  items.Pairwise fun a b ↦ ¬(a.key = b.key ∧ a.recnum = b.recnum)

theorem Filled.insertItems (more : List BatchItem) : ∀ {items : List BatchItem}
    {idx : IdxListEntry}, Filled items idx → Distinct (items ++ more) →
    ∃ idx', Index.insertItems more idx = .ok idx' ∧ Filled (items ++ more) idx' ∧
      idx'.globalData.totNumrecs = idx.globalData.totNumrecs := by
  induction more with
  | nil => exact fun h _ ↦ ⟨_, rfl, by rwa [List.append_nil], rfl⟩
  | cons item more ih =>
    intro items idx h hdistinct
    obtain ⟨next, block, hnext, hadded⟩ := kwaddTerm_spec h.inverted h.sound item.recnum
      (item.key, ⟨item.termfreq, item.pos⟩)
    have hfresh : ∀ other ∈ items, ¬(other.key = item.key ∧ other.recnum = item.recnum) :=
      fun other hother ↦ (List.pairwise_append.mp hdistinct).2.2 other hother item
        List.mem_cons_self
    have hsplit : items ++ item :: more = items ++ [item] ++ more := by simp
    rw [hsplit] at hdistinct ⊢
    obtain ⟨idx', hrest, hfilled, htotal⟩ := ih (h.added hfresh hadded) hdistinct
    exact ⟨idx', by rw [Index.insertItems, insertItem, hnext]; exact hrest, hfilled,
      htotal.trans hadded.totNumrecs⟩

/-- A line that fits the buffer and, in a proximity index, has a position for every occurrence. -/
structure Readable (idx : IdxListEntry) (item : BatchItem) : Prop where
  fits : lineLength idx item ≤ TEMP_BUFFER_SIZE
  positions : idx.has PROXIMITY = true → item.pos.length = item.termfreq

theorem Readable.of_idxType {idx idx' : IdxListEntry} {item : BatchItem} (h : Readable idx item)
    (htype : idx'.idxType = idx.idxType) : Readable idx' item := by
  have hhas : idx'.has PROXIMITY = idx.has PROXIMITY := by
    rw [IdxListEntry.has, IdxListEntry.has, htype]
  refine ⟨?_, by rw [hhas]; exact h.positions⟩
  have hfits := h.fits
  rwa [lineLength, ← hhas, ← lineLength] at hfits

theorem proxdata_eq {item : BatchItem} (h : item.pos.length = item.termfreq) :
    proxdata item = item.pos := by
  refine List.ext_getElem (by simp [proxdata, h]) fun i hi hi' ↦ ?_
  simp [proxdata, hi']

theorem putProximityArray_eq {idx : IdxListEntry} {item : BatchItem}
    (h : idx.has PROXIMITY = true → item.pos.length = item.termfreq) (termid : ℤ) :
    putProximityArray idx item termid =
      putProximity idx item.recnum termid ⟨item.termfreq, item.pos⟩ := by
  rw [putProximityArray, putProximity]
  split
  · rw [proxdata_eq (h ‹_›)]
  · rfl

theorem putProximity_putTerm (idx : IdxListEntry) (word : Term) (block : IdxResult)
    (recnum : RecordNumber) (termid : ℤ) (htData : HtData) :
    putProximity (idx.putTerm word block) recnum termid htData =
      (putProximity idx recnum termid htData).putTerm word block := by
  have hhas : (idx.putTerm word block).has PROXIMITY = idx.has PROXIMITY := rfl
  rw [putProximity, putProximity, hhas]
  split <;> rfl

theorem putTerm_putTerm (idx : IdxListEntry) (word : Term) (block block' : IdxResult) :
    (idx.putTerm word block).putTerm word block' = idx.putTerm word block' := by
  simp [IdxListEntry.putTerm]

theorem flush_accumulated {idx : IdxListEntry} {item : BatchItem} (h : Readable idx item)
    (block : IdxResult) :
    BatchState.flush ⟨putProximityArray idx item block.termid, some (item.key, block)⟩ =
      putProximity (idx.putTerm item.key block) item.recnum block.termid
        ⟨item.termfreq, item.pos⟩ := by
  rw [putProximityArray_eq h.positions, putProximity_putTerm]
  rfl

theorem batchLoadItem_flush {s : BatchState} {item : BatchItem} (hidx : Inverted s.flush)
    (hread : Readable s.flush item) {idx' : IdxListEntry}
    (hinsert : insertItem s.flush item = .ok idx') :
    ∃ s', batchLoadItem s item = .ok s' ∧ s'.flush = idx' := by
  have htype : s.idx.idxType = s.flush.idxType := by
    rw [BatchState.flush]
    split <;> rfl
  have hfits : ¬lineLength s.idx item > TEMP_BUFFER_SIZE :=
    not_lt.mpr (hread.of_idxType htype).fits
  -- a line with another key, or the first one
  have hnew : ∃ s', newKey s item = .ok s' ∧ s'.flush = idx' := by
    rw [insertItem, kwaddTerm, if_neg (by simp [hidx.not_bitmapped])] at hinsert
    rw [newKey]
    cases hterm : s.flush.terms item.key with
    | none =>
      simp only [hterm] at hinsert ⊢
      cases hinsert
      have hread' : Readable (s.flush.takeTermid.addOccur item.termfreq) item :=
        hread.of_idxType rfl
      exact ⟨_, rfl, flush_accumulated hread' (newBlock s.flush.globalData.recptr _ _)⟩
    | some info =>
      simp only [hterm] at hinsert ⊢
      cases hadd : addPosting info item.recnum item.termfreq with
      | error fault => rw [hadd] at hinsert; cases hinsert
      | ok newinfo =>
        rw [hadd] at hinsert
        cases hinsert
        have hread' : Readable (s.flush.addOccur item.termfreq) item := hread.of_idxType rfl
        exact ⟨_, rfl, flush_accumulated hread' newinfo⟩
  rw [batchLoadItem, if_neg hfits]
  rcases s with ⟨idx, _ | ⟨lastKey, newinfo⟩⟩
  · exact hnew
  · by_cases hkey : lastKey = item.key
    · -- the pending block is the one that the insertion finds
      subst hkey
      have hflush : BatchState.flush ⟨idx, some (item.key, newinfo)⟩ =
          idx.putTerm item.key newinfo := rfl
      have hterm : (idx.putTerm item.key newinfo).terms item.key = some newinfo := by
        rw [terms_putTerm, if_pos rfl]
      rw [insertItem, kwaddTerm, if_neg (by simp [hidx.not_bitmapped]), hflush] at hinsert
      simp only [hterm] at hinsert
      simp only [if_pos, sameKey]
      cases hadd : addPosting newinfo item.recnum item.termfreq with
      | error fault => rw [hadd] at hinsert; cases hinsert
      | ok block =>
        rw [hadd] at hinsert
        cases hinsert
        have hread' : Readable (idx.addOccur item.termfreq) item := hread.of_idxType rfl
        refine ⟨_, rfl, (flush_accumulated hread' block).trans ?_⟩
        have hcomm : ((idx.putTerm item.key newinfo).addOccur item.termfreq).putTerm item.key
            block = (idx.addOccur item.termfreq).putTerm item.key block :=
          putTerm_putTerm (idx.addOccur item.termfreq) item.key newinfo block
        rw [hcomm]
    · simpa only [if_neg hkey] using hnew

theorem batchLoadItems_flush (items : List BatchItem) : ∀ {s : BatchState} {loaded},
    Filled loaded s.flush → (∀ item ∈ items, Readable s.flush item) →
    Distinct (loaded ++ items) →
    ∃ s', batchLoadItems items s = .ok s' ∧ s'.flush.idxType = s.flush.idxType ∧
      Filled (loaded ++ items) s'.flush := by
  induction items with
  | nil => exact fun h _ _ ↦ ⟨_, rfl, rfl, by rwa [List.append_nil]⟩
  | cons item items ih =>
    intro s loaded h hread hdistinct
    have hsplit : loaded ++ item :: items = loaded ++ [item] ++ items := by simp
    rw [hsplit] at hdistinct ⊢
    obtain ⟨next, hnext, hfilled, -⟩ := h.insertItems [item] (List.pairwise_append.mp hdistinct).1
    have hinsert : insertItem s.flush item = .ok next := by
      rw [insertItems] at hnext
      cases hone : insertItem s.flush item with
      | error fault => rw [hone] at hnext; cases hnext
      | ok idx' => rw [hone] at hnext; exact hnext
    obtain ⟨s', hs', hflush⟩ :=
      batchLoadItem_flush h.inverted (hread item List.mem_cons_self) hinsert
    subst hflush
    have htype : s'.flush.idxType = s.flush.idxType := by
      obtain ⟨_, _, hadd, hadded⟩ := kwaddTerm_spec h.inverted h.sound item.recnum
        (item.key, ⟨item.termfreq, item.pos⟩)
      rw [← insertItem, hinsert, Except.ok.injEq] at hadd
      rw [hadd, hadded.idxType]
    obtain ⟨s'', hrest, htype', hdone⟩ := ih hfilled
      (fun i hi ↦ (hread i (List.mem_cons_of_mem _ hi)).of_idxType htype) hdistinct
    exact ⟨s'', by rw [batchLoadItems, hs']; exact hrest, htype'.trans htype, hdone⟩

end Cheshire.Index
