import Cheshire.Index.BatchEquivalence

/-!
# What the direct and the batch path leave

A list of records is indexed one at a time through the direct path, or written to the batch file,
sorted and loaded.  The terms, their postings and positions, the number of terms and the total
occurrences agree.  The number of indexed records is counted by the direct path only, so the totals
agree just when there is nothing to index.
-/

namespace Cheshire.Index

abbrev Records := List (RecordNumber × TermHash)

/-- The direct path, one record at a time. -/
def indexDirect : Records → IdxListEntry → Exec IdxListEntry
  | [], idx => .ok idx
  | record :: records, idx => do
    let idx ← inKwadd idx record.1 record.2
    indexDirect records idx

def batchLines (idx : IdxListEntry) (records : Records) : List BatchItem :=
  records.flatMap fun record ↦ inKwaddBatch idx record.1 record.2

def indexBatch (records : Records) (idx : IdxListEntry) : Exec IdxListEntry :=
  inBatchLoad idx (batchLines idx records)

/-- The record numbers are strictly increasing. -/
def Increasing (records : Records) : Prop := records.Pairwise fun a b ↦ a.1.1 < b.1.1

/-- Two indexes have the same terms with the same postings and positions, up to the term ids, and
the same numbers of terms and of occurrences. -/
structure SameContents (direct batch : IdxListEntry) : Prop where
  terms : ∀ word, (direct.terms word).isSome = (batch.terms word).isSome
  postings : ∀ {word info info'}, direct.terms word = some info → batch.terms word = some info' →
    info.numEntries = info'.numEntries ∧ info.totFreq = info'.totFreq ∧
      info.postings = info'.postings
  positions : ∀ {word info info'}, direct.terms word = some info → batch.terms word = some info' →
    ∀ recnum : RecordNumber,
      direct.prox ⟨info.termid, recnum.1⟩ = batch.prox ⟨info'.termid, recnum.1⟩
  sameTermid : ∀ {word word' info info' other other'}, direct.terms word = some info →
    batch.terms word = some info' → direct.terms word' = some other →
    batch.terms word' = some other' → (info.termid = other.termid ↔ info'.termid = other'.termid)
  numTerms : direct.globalData.recptr = batch.globalData.recptr
  totOccur : direct.globalData.totOccur = batch.globalData.totOccur

/-- Both paths succeed with the same contents and the same number of indexed records. -/
def SameOutcome (direct batch : Exec IdxListEntry) : Prop :=
  ∃ d b, direct = .ok d ∧ batch = .ok b ∧ SameContents d b ∧
    d.globalData.totNumrecs = b.globalData.totNumrecs

/-- The item that the direct path inserts for a term of a hash. -/
def directItem (idxType : ℕ) (recnum : RecordNumber) (item : Term × HtData) : BatchItem where
  key := item.1
  recnum := recnum
  termfreq := item.2.termfreq
  pos := if idxType &&& PROXIMITY != 0 then item.2.pos else []

/-- The items of all the records, in their order. -/
def directItems (idxType : ℕ) (records : Records) : List BatchItem :=
  records.flatMap fun record ↦ record.2.entries.map (directItem idxType record.1)

theorem kwaddTerm_directItem (idx : IdxListEntry) (recnum : RecordNumber) (item : Term × HtData) :
    kwaddTerm recnum idx item = insertItem idx (directItem idx.idxType recnum item) := by
  have hput (idx' : IdxListEntry) (htype : idx'.idxType = idx.idxType) (termid : ℤ) :
      putProximity idx' recnum termid item.2 = putProximity idx' recnum termid
        ⟨item.2.termfreq, if idx.idxType &&& PROXIMITY != 0 then item.2.pos else []⟩ := by
    rw [putProximity, putProximity, IdxListEntry.has, htype]
    split <;> rfl
  rw [insertItem, directItem, kwaddTerm, kwaddTerm]
  split
  · rfl
  · cases idx.terms item.1 with
    | none => exact congrArg Except.ok (hput _ (by rfl) _)
    | some info =>
      simp only
      cases addPosting info recnum item.2.termfreq with
      | error fault => rfl
      | ok newinfo => exact congrArg Except.ok (hput _ (by rfl) _)

theorem kwaddTerms_directItems (recnum : RecordNumber) (items : List (Term × HtData)) :
    ∀ {idx : IdxListEntry} {loaded}, Filled loaded idx →
    Distinct (loaded ++ items.map (directItem idx.idxType recnum)) →
    ∃ idx', kwaddTerms recnum items idx = .ok idx' ∧ idx'.idxType = idx.idxType ∧
      Filled (loaded ++ items.map (directItem idx.idxType recnum)) idx' ∧
      idx'.globalData.totNumrecs = idx.globalData.totNumrecs := by
  induction items with
  | nil => exact fun h _ ↦ ⟨_, rfl, rfl, by simpa using h, rfl⟩
  | cons item items ih =>
    intro idx loaded h hdistinct
    have hsplit : loaded ++ (item :: items).map (directItem idx.idxType recnum) =
        loaded ++ [directItem idx.idxType recnum item] ++
          items.map (directItem idx.idxType recnum) := by simp
    rw [hsplit] at hdistinct ⊢
    obtain ⟨next, block, hnext, hadded⟩ := kwaddTerm_spec h.inverted h.sound recnum
      ((directItem idx.idxType recnum item).key, ⟨(directItem idx.idxType recnum item).termfreq,
        (directItem idx.idxType recnum item).pos⟩)
    have hfresh := (List.pairwise_append.mp (List.pairwise_append.mp hdistinct).1).2.2
    have hfilled : Filled (loaded ++ [directItem idx.idxType recnum item]) next :=
      h.added (fun other hother ↦ hfresh other hother _ (List.mem_singleton_self _)) hadded
    rw [← hadded.idxType] at hfilled hdistinct
    obtain ⟨idx', hrest, htype, hdone, htotal⟩ := ih hfilled hdistinct
    refine ⟨idx', ?_, htype.trans hadded.idxType, by rwa [hadded.idxType] at hdone,
      htotal.trans hadded.totNumrecs⟩
    rw [kwaddTerms, kwaddTerm_directItem]
    exact (congrArg (· >>= kwaddTerms recnum items) hnext).trans hrest

variable {items : List BatchItem}

theorem Filled.countRecords {idx : IdxListEntry} (h : Filled items idx) (count : ℤ) : Filled items
      { idx with globalData := { idx.globalData with totNumrecs := count } } where
  inverted := h.inverted.of_idxType rfl
  terms := h.terms
  termid_lt := h.termid_lt
  termid_inj := h.termid_inj
  prox := h.prox
  prox_fresh := h.prox_fresh
  recptr := h.recptr
  totOccur := h.totOccur

/-- The records that have a term. -/
def indexedRecords (records : Records) : Records :=
  records.filter fun record ↦ record.2.entries ≠ []

theorem length_indexedRecords_cons (record : RecordNumber × TermHash) (records : Records) :
    ((indexedRecords (record :: records)).length : ℤ) =
      (if record.2.entries ≠ [] then 1 else 0) + (indexedRecords records).length := by
  by_cases hnil : record.2.entries = []
  · simp [indexedRecords, hnil]
  · simp [indexedRecords, hnil]
    ring

theorem indexDirect_spec (records : Records) : ∀ {idx : IdxListEntry} {loaded},
    Filled loaded idx → Distinct (loaded ++ directItems idx.idxType records) →
    ∃ d, indexDirect records idx = .ok d ∧ d.idxType = idx.idxType ∧
      Filled (loaded ++ directItems idx.idxType records) d ∧
      d.globalData.totNumrecs = idx.globalData.totNumrecs + (indexedRecords records).length := by
  induction records with
  | nil => exact fun h _ ↦ ⟨_, rfl, rfl, by simpa [directItems] using h, by simp [indexedRecords]⟩
  | cons record records ih =>
    intro idx loaded h hdistinct
    have hsplit : loaded ++ directItems idx.idxType (record :: records) =
        loaded ++ record.2.entries.map (directItem idx.idxType record.1) ++
          directItems idx.idxType records := by
      simp [directItems]
    rw [hsplit] at hdistinct ⊢
    obtain ⟨next, hnext, htype, hfilled, htotal⟩ :=
      kwaddTerms_directItems record.1 record.2.entries h (List.pairwise_append.mp hdistinct).1
    have hcount : ∃ next', inKwadd idx record.1 record.2 = .ok next' ∧
        next'.idxType = idx.idxType ∧
        Filled (loaded ++ record.2.entries.map (directItem idx.idxType record.1)) next' ∧
        next'.globalData.totNumrecs = idx.globalData.totNumrecs +
          if record.2.entries ≠ [] then 1 else 0 := by
      rw [inKwadd, if_neg (by simp [h.inverted.not_paged, h.inverted.not_freq]), hnext]
      have houtput : itemsOutput idx record.2 = record.2.entries.length := by
        simp [itemsOutput, h.inverted.not_bitmapped]
      by_cases hnil : record.2.entries = []
      · refine ⟨next, ?_, htype, hfilled, by simp [hnil, htotal]⟩
        rw [houtput, hnil]
        rfl
      · refine ⟨_, rfl, ?_, ?_, ?_⟩ <;> rw [if_pos (by simpa [houtput] using hnil)]
        · exact htype
        · exact hfilled.countRecords _
        · simp [hnil, htotal]
    obtain ⟨next', hadd, htype', hfilled', htotal'⟩ := hcount
    rw [← htype'] at hfilled' hdistinct
    obtain ⟨d, hrest, htype'', hdone, hsum⟩ := ih hfilled' hdistinct
    refine ⟨d, by rw [indexDirect, hadd]; exact hrest, htype''.trans htype',
      by rwa [htype'] at hdone, ?_⟩
    rw [hsum, htotal', length_indexedRecords_cons, add_assoc]

/-- The items of one term are in strictly increasing order of their records. -/
def OrderedByRecord (items : List BatchItem) : Prop :=
  items.Pairwise fun a b ↦ a.key = b.key → a.recnum.1 < b.recnum.1

theorem OrderedByRecord.distinct (h : OrderedByRecord items) : Distinct items := by
  refine h.imp ?_
  rintro a b hlt ⟨hkey, hrec⟩
  exact absurd (hlt hkey) (by rw [hrec]; exact lt_irrefl _)

variable {records : Records}

theorem orderedByRecord_directItems (idxType : ℕ)
    (hrecords : Increasing records) : OrderedByRecord (directItems idxType records) := by
  rw [OrderedByRecord, directItems, List.pairwise_flatMap]
  constructor
  · -- the terms of one record are different
    intro record _
    rw [List.pairwise_map]
    refine (List.pairwise_map.mp record.2.nodup).imp ?_
    intro a b hne hkey
    exact absurd hkey hne
  · refine hrecords.imp ?_
    intro a b hlt x hx y hy _
    rw [List.mem_map] at hx hy
    obtain ⟨_, _, rfl⟩ := hx
    obtain ⟨_, _, rfl⟩ := hy
    exact hlt

theorem perm_sortItems (items : List BatchItem) : (sortItems items).Perm items :=
  List.perm_insertionSort _ _

theorem distinct_sortItems (h : Distinct items) : Distinct (sortItems items) := by
  refine ((perm_sortItems items).pairwise_iff ?_).mpr h
  rintro a b hne ⟨hkey, hrec⟩
  exact hne ⟨hkey.symm, hrec.symm⟩

theorem filter_sortItems (h : OrderedByRecord items) (word : Term) :
    (sortItems items).filter (fun item ↦ item.key = word) =
      items.filter fun item ↦ item.key = word := by
  let before (a b : BatchItem) : Prop := a.recnum.1 < b.recnum.1
  have hantisymm : Std.Antisymm before := ⟨fun a b hab hba ↦ absurd hab (lt_asymm hba)⟩
  have hirrefl : Std.Irrefl before := ⟨fun a ↦ lt_irrefl a.recnum.1⟩
  have hkey : ∀ {xs : List BatchItem} {a b : BatchItem},
      a ∈ xs.filter (fun item ↦ item.key = word) → b ∈ xs.filter (fun item ↦ item.key = word) →
      a.key = b.key := by
    intro xs a b ha hb
    rw [List.mem_filter, decide_eq_true_eq] at ha hb
    rw [ha.2, hb.2]
  have hsorted : (sortItems items).Pairwise fun a b ↦ sortKey a ≤ sortKey b :=
    List.pairwise_insertionSort _ _
  refine List.Pairwise.eq_of_mem_iff (r := before) ?_ ?_ fun item ↦ ?_
  · have hboth := (hsorted.and (distinct_sortItems h.distinct)).filter fun item ↦ item.key = word
    refine List.Pairwise.imp_of_mem ?_ hboth
    rintro a b ha hb ⟨hle, hne⟩
    have hsame := hkey ha hb
    rw [sortKey, sortKey, Prod.Lex.toLex_le_toLex, hsame] at hle
    rcases hle with hlt | ⟨-, hrec⟩
    · exact absurd hlt (lt_irrefl _)
    · exact lt_of_le_of_ne hrec fun heq ↦ hne ⟨hsame, Subtype.ext heq⟩
  · exact List.Pairwise.imp_of_mem (fun ha hb hlt ↦ hlt (hkey ha hb)) (h.filter _)
  · rw [List.mem_filter, List.mem_filter, (perm_sortItems items).mem_iff]

theorem sameContents_of_filled {items' : List BatchItem} {d b : IdxListEntry} (hd : Filled items d)
    (hb : Filled items' b) (htype : d.idxType = b.idxType) (hperm : items'.Perm items)
    (hfilter : ∀ word, items'.filter (fun item ↦ item.key = word) =
      items.filter fun item ↦ item.key = word) :
    SameContents d b := by
  have hpostings (word : Term) : itemPostings items' word = itemPostings items word := by
    rw [itemPostings, hfilter, itemPostings]
  constructor
  · intro word
    rw [Bool.eq_iff_iff, Option.isSome_iff_ne_none, Option.isSome_iff_ne_none, ne_eq, ne_eq,
      hd.terms_eq_none_iff, hb.terms_eq_none_iff, (hperm.map BatchItem.key).mem_iff]
  · intro word info info' hinfo hinfo'
    have hterm := hd.terms word
    have hterm' := hb.terms word
    rw [hinfo] at hterm
    rw [hinfo', hpostings] at hterm'
    obtain ⟨-, hcount, hlist, htot, -⟩ := hterm
    obtain ⟨-, hcount', hlist', htot', -⟩ := hterm'
    exact ⟨hcount.trans hcount'.symm, htot.trans htot'.symm, hlist.trans hlist'.symm⟩
  · intro word info info' hinfo hinfo' recnum
    have hhas : d.has PROXIMITY = b.has PROXIMITY := by
      rw [IdxListEntry.has, IdxListEntry.has, htype]
    rw [hd.prox hinfo, hb.prox hinfo', hhas, itemOf, itemOf, hfilter]
  · intro word word' info info' other other' hinfo hinfo' hother hother'
    constructor
    · intro heq
      obtain rfl := hd.termid_inj hinfo hother heq
      rw [hinfo', Option.some.injEq] at hother'
      rw [hother']
    · intro heq
      obtain rfl := hb.termid_inj hinfo' hother' heq
      rw [hinfo, Option.some.injEq] at hother
      rw [hother]
  · rw [hd.recptr, hb.recptr, List.toFinset_eq_of_perm _ _ (hperm.map BatchItem.key)]
  · rw [hd.totOccur, hb.totOccur, (hperm.map fun item ↦ (item.termfreq : ℤ)).sum_eq]

/-- The records can be written and read back: no key holds the separator, and every line is
readable. -/
structure Batchable (idxType : ℕ) (records : Records) : Prop where
  keys : ∀ record ∈ records, ∀ item ∈ record.2.entries, 1 ∉ item.1
  readable : ∀ item ∈ directItems idxType records, Readable (IdxListEntry.created idxType) item

theorem replaceSeparator_eq {word : Term} (hword : 1 ∉ word) : replaceSeparator word = word := by
  rw [replaceSeparator]
  conv_rhs => rw [← List.map_id word]
  refine List.map_congr_left fun c hc ↦ if_neg ?_
  rintro rfl
  exact hword hc

variable {idxType : ℕ}

theorem batchLines_eq (hidx : Inverted (IdxListEntry.created idxType))
    (hrecords : Batchable idxType records) :
    batchLines (IdxListEntry.created idxType) records = directItems idxType records := by
  rw [batchLines, directItems]
  refine List.flatMap_congr fun record hrecord ↦ ?_
  rw [inKwaddBatch, if_neg (by simp [hidx.not_paged, hidx.not_freq])]
  refine List.map_congr_left fun item hitem ↦ ?_
  rw [batchItem, replaceSeparator_eq (hrecords.keys record hrecord item hitem)]
  rfl

theorem indexBatch_spec (hidx : Inverted (IdxListEntry.created idxType))
    (hincreasing : Increasing records) (hrecords : Batchable idxType records) :
    ∃ b, indexBatch records (IdxListEntry.created idxType) = .ok b ∧ b.idxType = idxType ∧
      Filled (sortItems (directItems idxType records)) b := by
  have hdistinct := distinct_sortItems
    (orderedByRecord_directItems idxType hincreasing).distinct
  have hread : ∀ item ∈ sortItems (directItems idxType records),
      Readable (IdxListEntry.created idxType) item := fun item hitem ↦
    hrecords.readable item ((perm_sortItems _).mem_iff.mp hitem)
  obtain ⟨s, hload, htype, hfilled⟩ := batchLoadItems_flush (sortItems (directItems idxType records))
    (s := ⟨IdxListEntry.created idxType, none⟩) (filled_created hidx) hread hdistinct
  rw [indexBatch, batchLines_eq hidx hrecords, inBatchLoad, if_neg (by simp [hidx.not_bitmapped]),
    hload]
  exact ⟨_, rfl, htype, hfilled⟩

theorem batch_sameContents (hidx : Inverted (IdxListEntry.created idxType))
    (hincreasing : Increasing records) (hrecords : Batchable idxType records) :
    ∃ d b, indexDirect records (IdxListEntry.created idxType) = .ok d ∧
      indexBatch records (IdxListEntry.created idxType) = .ok b ∧ SameContents d b := by
  have hordered := orderedByRecord_directItems idxType hincreasing
  obtain ⟨d, hdirect, htype, hd, -⟩ := indexDirect_spec records (filled_created hidx)
    hordered.distinct
  obtain ⟨b, hbatch, htype', hb⟩ := indexBatch_spec hidx hincreasing hrecords
  exact ⟨d, b, hdirect, hbatch, sameContents_of_filled hd hb (htype.trans htype'.symm)
    (perm_sortItems _) (filter_sortItems hordered)⟩

theorem globalData_putProximityArray (idx : IdxListEntry) (item : BatchItem) (termid : ℤ) :
    (putProximityArray idx item termid).globalData = idx.globalData := by
  rw [putProximityArray]
  split <;> rfl

theorem globalData_flush (s : BatchState) : s.flush.globalData = s.idx.globalData := by
  rw [BatchState.flush]
  split <;> rfl

variable {s s' : BatchState} {item : BatchItem}

theorem totNumrecs_sameKey {newinfo : IdxResult} (h : sameKey s newinfo item = .ok s') :
    s'.idx.globalData.totNumrecs = s.idx.globalData.totNumrecs := by
  rw [sameKey] at h
  cases hadd : addPosting newinfo item.recnum item.termfreq with
  | error fault => rw [hadd] at h; cases h
  | ok block =>
    rw [hadd] at h
    cases h
    simp only [globalData_putProximityArray]
    rfl

theorem totNumrecs_newKey (h : newKey s item = .ok s') :
    s'.idx.globalData.totNumrecs = s.idx.globalData.totNumrecs := by
  rw [← globalData_flush s]
  rw [newKey] at h
  cases hterm : s.flush.terms item.key with
  | none =>
    simp only [hterm] at h
    cases h
    simp only [globalData_putProximityArray]
    rfl
  | some info =>
    simp only [hterm] at h
    cases hadd : addPosting info item.recnum item.termfreq with
    | error fault => rw [hadd] at h; cases h
    | ok block =>
      rw [hadd] at h
      cases h
      simp only [globalData_putProximityArray]
      rfl

theorem totNumrecs_batchLoadItem (h : batchLoadItem s item = .ok s') :
    s'.idx.globalData.totNumrecs = s.idx.globalData.totNumrecs := by
  rw [batchLoadItem] at h
  split at h
  · cases h
    rfl
  · split at h
    · split at h
      · exact totNumrecs_sameKey h
      · exact totNumrecs_newKey h
    · exact totNumrecs_newKey h

theorem totNumrecs_batchLoadItems (items : List BatchItem) : ∀ {s s' : BatchState},
    batchLoadItems items s = .ok s' →
    s'.idx.globalData.totNumrecs = s.idx.globalData.totNumrecs := by
  induction items with
  | nil =>
    intro s s' h
    cases h
    rfl
  | cons item items ih =>
    intro s s' h
    rw [batchLoadItems] at h
    cases hitem : batchLoadItem s item with
    | error fault => rw [hitem] at h; cases h
    | ok next =>
      rw [hitem] at h
      rw [ih h, totNumrecs_batchLoadItem hitem]

theorem totNumrecs_indexBatch (hidx : Inverted (IdxListEntry.created idxType)) {b : IdxListEntry}
    (h : indexBatch records (IdxListEntry.created idxType) = .ok b) :
    b.globalData.totNumrecs = 0 := by
  rw [indexBatch, inBatchLoad, if_neg (by simp [hidx.not_bitmapped])] at h
  cases hload : batchLoadItems (sortItems (batchLines (IdxListEntry.created idxType) records))
      ⟨IdxListEntry.created idxType, none⟩ with
  | error fault => rw [hload] at h; cases h
  | ok s =>
    rw [hload] at h
    cases h
    rw [globalData_flush, totNumrecs_batchLoadItems _ hload]
    rfl

theorem sameOutcome_iff (hidx : Inverted (IdxListEntry.created idxType))
    (hincreasing : Increasing records) :
    SameOutcome (indexDirect records (IdxListEntry.created idxType))
        (indexBatch records (IdxListEntry.created idxType)) ↔
      ∀ record ∈ records, record.2.entries = [] := by
  obtain ⟨d, hdirect, htype, hd, htotal⟩ := indexDirect_spec records (filled_created hidx)
    (orderedByRecord_directItems idxType hincreasing).distinct
  have hcount : (IdxListEntry.created idxType).globalData.totNumrecs = 0 := rfl
  rw [hcount, zero_add] at htotal
  constructor
  · rintro ⟨d', b, hdirect', hbatch, -, hsame⟩ record hrecord
    rw [hdirect, Except.ok.injEq] at hdirect'
    subst hdirect'
    rw [htotal, totNumrecs_indexBatch hidx hbatch, Nat.cast_eq_zero, List.length_eq_zero_iff,
      indexedRecords, List.filter_eq_nil_iff] at hsame
    simpa using hsame record hrecord
  · intro hempty
    have hitems : directItems idxType records = [] := by
      rw [directItems, List.flatMap_eq_nil_iff]
      intro record hrecord
      rw [hempty record hrecord, List.map_nil]
    have hbatchable : Batchable idxType records := by
      refine ⟨fun record hrecord item hitem ↦ ?_, by simp [hitems]⟩
      rw [hempty record hrecord] at hitem
      cases hitem
    obtain ⟨d', b, hdirect', hbatch, hsame⟩ := batch_sameContents hidx hincreasing hbatchable
    refine ⟨d', b, hdirect', hbatch, hsame, ?_⟩
    rw [hdirect, Except.ok.injEq] at hdirect'
    subst hdirect'
    rw [htotal, totNumrecs_indexBatch hidx hbatch, Nat.cast_eq_zero, List.length_eq_zero_iff,
      indexedRecords, List.filter_eq_nil_iff]
    intro record hrecord
    simp [hempty record hrecord]

/-- Indexing records directly and through a batch leaves the same indexes and totals if and only if
no record has a term: the batch path does not count the indexed records. -/
theorem batchLoad_agrees_iff (idxType : ℕ) (hidx : Inverted (IdxListEntry.created idxType))
    (records : Records) (hincreasing : Increasing records) :
    SameOutcome (indexDirect records (IdxListEntry.created idxType))
        (indexBatch records (IdxListEntry.created idxType)) ↔
      ∀ record ∈ records, record.2.entries = [] :=
  sameOutcome_iff hidx hincreasing

theorem inRange_twoRecords : (0 < 3 ∧ 3 ≤ INT_MAX) ∧ 0 < 4 ∧ 4 ≤ INT_MAX := by decide

theorem nodup_twoTerms : ([([97], ⟨2, []⟩), ([98], ⟨1, []⟩)].map
    (Prod.fst : Term × HtData → Term)).Nodup := by decide

def twoTerms : TermHash := ⟨[([97], ⟨2, []⟩), ([98], ⟨1, []⟩)], nodup_twoTerms⟩

def twoRecords : Records :=
  [(⟨3, inRange_twoRecords.1⟩, twoTerms), (⟨4, inRange_twoRecords.2⟩, twoTerms)]

theorem batchLoad_agrees_twoRecords :
    SameOutcome (indexDirect twoRecords (IdxListEntry.created 0))
        (indexBatch twoRecords (IdxListEntry.created 0)) ↔
      ∀ record ∈ twoRecords, record.2.entries = [] :=
  batchLoad_agrees_iff 0 ⟨rfl, rfl, rfl⟩ twoRecords
    (List.pairwise_pair.mpr (by decide))

/-- One record with one term: the direct path counts it and the batch path does not. -/
theorem batchLoad_uncounted : ¬∀ (idxType : ℕ) (records : Records),
    Inverted (IdxListEntry.created idxType) → Increasing records →
      SameOutcome (indexDirect records (IdxListEntry.created idxType))
        (indexBatch records (IdxListEntry.created idxType)) := by
  intro hall
  let records : Records := [(⟨1, by decide, by decide⟩, ⟨[([97], ⟨1, []⟩)], by simp⟩)]
  have hidx : Inverted (IdxListEntry.created 0) := ⟨rfl, rfl, rfl⟩
  have hincreasing : Increasing records := List.pairwise_singleton _ _
  have hempty := (sameOutcome_iff hidx hincreasing).mp (hall 0 records hidx hincreasing)
  simp [records] at hempty

end Cheshire.Index
