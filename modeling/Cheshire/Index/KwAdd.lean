import Cheshire.Index.Bitmaps

/-!
# Adding the terms of a record

`in_kwadd` collects the terms of a new record in a hash table, one for each index of the file, and
adds every term to its index: the posting goes behind the ones in use, or a new term gets the next
term id.  Paged and frequency indexes are filled during the extraction, so nothing is left to add.
-/

namespace Cheshire.Index

def PAGEDINDEX : ℕ := 1 <<< 10
def NORM_WITH_FREQ : ℕ := 1 <<< 26

/-- `hash_term_data`: how often a term occurs in the record, and where.  Positions are collected for
a proximity index only. -/
structure HtData where
  termfreq : ℕ
  pos : List ℤ
deriving DecidableEq, Repr

/-- The hash table of one record: its terms in the order in which the table is walked. -/
structure TermHash where
  entries : List (Term × HtData)
  nodup : (entries.map Prod.fst).Nodup

/-- `Tcl_FindHashEntry` -/
def TermHash.find? (hash : TermHash) (word : Term) : Option HtData := hash.entries.lookup word

/-- A store into the posting array of a block. -/
def storePosting (entries : List IdxPostingEntry) (index : ℤ) (posting : IdxPostingEntry) :
    Exec (List IdxPostingEntry) :=
  if 0 ≤ index ∧ index < entries.length then .ok (entries.set index.toNat posting)
  else .error .outOfBounds

/-- `PutPositionInfo`: positions are appended over the last stored one. -/
def putPositionInfo (idx : IdxListEntry) (recnum : RecordNumber) (termid : ℤ) (pos : List ℤ) :
    IdxListEntry :=
  let key : ProxIdxPosKey := ⟨termid, recnum.1⟩
  let outdata := match idx.prox key with
    | some old => old.dropLast ++ pos
    | none => pos
  { idx with prox := Function.update idx.prox key (some outdata) }

/-- The positions of a term are stored in a proximity index only. -/
def putProximity (idx : IdxListEntry) (recnum : RecordNumber) (termid : ℤ) (htData : HtData) :
    IdxListEntry :=
  if idx.has PROXIMITY then putPositionInfo idx recnum termid htData.pos else idx

/-- Count more occurrences in the global data. -/
def IdxListEntry.addOccur (idx : IdxListEntry) (count : ℤ) : IdxListEntry :=
  { idx with globalData :=
    { idx.globalData with totOccur := idx.globalData.totOccur + count } }

/-- The stored block with one more posting behind the ones in use; the block is allocated one
posting larger than it was stored. -/
def addPosting (info : IdxResult) (recnum : RecordNumber) (termfreq : ℕ) : Exec IdxResult := do
  let entries ← storePosting (info.entries ++ [IdxPostingEntry.zero]) info.numEntries
    ⟨recnum.1, termfreq⟩
  .ok { info with
    totFreq := info.totFreq + termfreq
    numEntries := info.numEntries + 1
    entries := entries }

def newBlock (termid : ℤ) (recnum : RecordNumber) (termfreq : ℕ) : IdxResult where
  termid := termid
  numEntries := 1
  totFreq := termfreq
  entries := [⟨recnum.1, termfreq⟩]

def IdxListEntry.takeTermid (idx : IdxListEntry) : IdxListEntry :=
  { idx with globalData := { idx.globalData with recptr := idx.globalData.recptr + 1 } }

/-- One term of the hash, added directly to the index. -/
def kwaddTerm (recnum : RecordNumber) (idx : IdxListEntry) (item : Term × HtData) :
    Exec IdxListEntry :=
  if idx.has BITMAPPED_TYPE then inAddBitmapEntry idx recnum.1 item.1 none 1
  else
    match idx.terms item.1 with
    | some info => do
      let newinfo ← addPosting info recnum item.2.termfreq
      .ok (putProximity ((idx.addOccur item.2.termfreq).putTerm item.1 newinfo) recnum
        newinfo.termid item.2)
    | none =>
      let termid := idx.globalData.recptr
      .ok (putProximity ((idx.takeTermid.addOccur item.2.termfreq).putTerm item.1
        (newBlock termid recnum item.2.termfreq)) recnum termid item.2)

def kwaddTerms (recnum : RecordNumber) : List (Term × HtData) → IdxListEntry → Exec IdxListEntry
  | [], idx => .ok idx
  | item :: items, idx => do
    let idx ← kwaddTerm recnum idx item
    kwaddTerms recnum items idx

/-- `items_output`: the puts of the direct path; a bitmap entry is not counted here. -/
def itemsOutput (idx : IdxListEntry) (hash : TermHash) : ℕ :=
  if idx.has BITMAPPED_TYPE then 0 else hash.entries.length

/-- The direct path of `in_kwadd` for one index. -/
def inKwadd (idx : IdxListEntry) (recnum : RecordNumber) (hash : TermHash) : Exec IdxListEntry :=
  if idx.has PAGEDINDEX || idx.has NORM_WITH_FREQ then .ok idx
  else do
    let next ← kwaddTerms recnum hash.entries idx
    .ok (if itemsOutput idx hash ≠ 0 then
      { next with globalData :=
        { next.globalData with totNumrecs := next.globalData.totNumrecs + 1 } }
      else next)

/-- An inverted index proper: neither bitmaps nor filled during the extraction. -/
structure Inverted (idx : IdxListEntry) : Prop where
  not_bitmapped : idx.has BITMAPPED_TYPE = false
  not_paged : idx.has PAGEDINDEX = false
  not_freq : idx.has NORM_WITH_FREQ = false

theorem Inverted.of_idxType {idx idx' : IdxListEntry} (h : Inverted idx)
    (htype : idx'.idxType = idx.idxType) : Inverted idx' := by
  obtain ⟨h1, h2, h3⟩ := h
  rw [IdxListEntry.has] at h1 h2 h3
  exact ⟨by rw [IdxListEntry.has, htype, h1], by rw [IdxListEntry.has, htype, h2],
    by rw [IdxListEntry.has, htype, h3]⟩

section Updates

variable (idx : IdxListEntry) (recnum : RecordNumber) (termid count : ℤ) (htData : HtData)
  (word : Term) (block : IdxResult)

@[simp] theorem terms_putProximity : (putProximity idx recnum termid htData).terms = idx.terms := by
  rw [putProximity]
  split <;> rfl

@[simp] theorem idxType_putProximity :
    (putProximity idx recnum termid htData).idxType = idx.idxType := by
  rw [putProximity]
  split <;> rfl

@[simp] theorem globalData_putProximity :
    (putProximity idx recnum termid htData).globalData = idx.globalData := by
  rw [putProximity]
  split <;> rfl

@[simp] theorem globalData_putTerm : (idx.putTerm word block).globalData = idx.globalData := rfl

@[simp] theorem terms_addOccur : (idx.addOccur count).terms = idx.terms := rfl

@[simp] theorem idxType_addOccur : (idx.addOccur count).idxType = idx.idxType := rfl

@[simp] theorem terms_takeTermid : idx.takeTermid.terms = idx.terms := rfl

@[simp] theorem idxType_takeTermid : idx.takeTermid.idxType = idx.idxType := rfl

@[simp] theorem idxType_putTerm : (idx.putTerm word block).idxType = idx.idxType := rfl

theorem terms_putTerm (other : Term) :
    (idx.putTerm word block).terms other = if other = word then some block else idx.terms other :=
  Function.update_apply _ _ _ _

end Updates

/-- The postings of a block that are in use. -/
def IdxResult.postings (block : IdxResult) : List IdxPostingEntry :=
  block.entries.take block.numEntries.toNat

structure IdxResult.Sound (block : IdxResult) : Prop where
  nonneg : 0 ≤ block.numEntries
  stored : block.numEntries.toNat ≤ block.entries.length

theorem IdxResult.Sound.length_postings {block : IdxResult} (h : block.Sound) :
    block.postings.length = block.numEntries.toNat := by
  rw [IdxResult.postings, List.length_take, min_eq_left h.stored]

/-- What an addition makes of the block that a term had before. -/
structure Appended (recnum : RecordNumber) (termfreq : ℕ) (old : Option IdxResult)
    (block : IdxResult) : Prop where
  sound : block.Sound
  postings : block.postings = (old.elim [] IdxResult.postings) ++ [⟨recnum.1, termfreq⟩]
  totFreq : block.totFreq = old.elim 0 IdxResult.totFreq + termfreq
  size : block.entries.length = old.elim 0 (fun info ↦ info.entries.length) + 1
  termid : ∀ info, old = some info → block.termid = info.termid

theorem appended_newBlock (termid : ℤ) (recnum : RecordNumber) (termfreq : ℕ) :
    Appended recnum termfreq none (newBlock termid recnum termfreq) where
  sound := ⟨by simp [newBlock], by simp [newBlock]⟩
  postings := by simp [newBlock, IdxResult.postings]
  totFreq := by simp [newBlock]
  size := by simp [newBlock]
  termid _ h := by cases h

theorem IdxResult.Sound.addPosting {info : IdxResult} (h : info.Sound) (recnum : RecordNumber)
    (termfreq : ℕ) : ∃ newinfo, Index.addPosting info recnum termfreq = .ok newinfo ∧
      Appended recnum termfreq (some info) newinfo := by
  have hnonneg := h.nonneg
  have hstored := h.stored
  have hbounds : 0 ≤ info.numEntries ∧
      info.numEntries < (info.entries ++ [IdxPostingEntry.zero]).length := by
    rw [List.length_append, List.length_singleton]
    omega
  refine ⟨_, by rw [Index.addPosting, storePosting, if_pos hbounds]; rfl, ?_⟩
  have hsucc : (info.numEntries + 1).toNat = info.numEntries.toNat + 1 := by omega
  constructor
  · exact ⟨by simp only; omega, by simp [hsucc, hstored]⟩
  · simp only [Option.elim_some, IdxResult.postings, hsucc]
    rw [List.take_add_one, List.take_set_of_le le_rfl, List.take_append_of_le_length hstored]
    congr 1
    rw [List.getElem?_set_self (by simp; omega)]
    rfl
  · rfl
  · simp
  · rintro info' h
    cases h
    rfl

/-- A term stores exactly the given postings; without postings it is not stored at all. -/
def StoresExactly (postings : List IdxPostingEntry) : Option IdxResult → Prop
  | none => postings = []
  | some block => postings ≠ [] ∧ block.numEntries = postings.length ∧
      block.postings = postings ∧
      block.totFreq = (postings.map IdxPostingEntry.termFreq).sum ∧
      block.size = HEADER_SIZE + POSTING_SIZE * postings.length

variable {postings : List IdxPostingEntry}

theorem StoresExactly.sound {block : IdxResult}
    (h : StoresExactly postings (some block)) : block.Sound := by
  obtain ⟨-, hcount, -, -, hsize⟩ := h
  rw [IdxResult.size, POSTING_SIZE] at hsize
  exact ⟨by omega, by omega⟩

theorem StoresExactly.length_entries {block : IdxResult}
    (h : StoresExactly postings (some block)) : block.entries.length = postings.length := by
  obtain ⟨-, -, -, -, hsize⟩ := h
  rw [IdxResult.size, POSTING_SIZE] at hsize
  omega

theorem StoresExactly.append {old : Option IdxResult} (h : StoresExactly postings old)
    {recnum : RecordNumber} {termfreq : ℕ} {block : IdxResult}
    (happended : Appended recnum termfreq old block) :
    StoresExactly (postings ++ [⟨recnum.1, termfreq⟩]) (some block) := by
  have hold : old.elim [] IdxResult.postings = postings ∧
      old.elim 0 IdxResult.totFreq = (postings.map IdxPostingEntry.termFreq).sum ∧
      old.elim 0 (fun info ↦ info.entries.length) = postings.length := by
    cases old with
    | none =>
      rw [show postings = [] from h]
      simp
    | some info => exact ⟨h.2.2.1, h.2.2.2.1, h.length_entries⟩
  have hpostings := happended.postings
  have hcount := happended.sound.length_postings
  have hnonneg := happended.sound.nonneg
  rw [hold.1] at hpostings
  rw [hpostings, List.length_append, List.length_singleton] at hcount
  refine ⟨by simp, ?_, hpostings, ?_, ?_⟩
  · rw [List.length_append, List.length_singleton]
    omega
  · rw [happended.totFreq, hold.2.1]
    simp
  · rw [IdxResult.size, happended.size, hold.2.2, List.length_append, List.length_singleton]

/-- What the addition of one term of a hash does to the index, with the block that it stores. -/
structure TermAdded (recnum : RecordNumber) (item : Term × HtData) (idx idx' : IdxListEntry)
    (block : IdxResult) : Prop where
  idxType : idx'.idxType = idx.idxType
  appended : Appended recnum item.2.termfreq (idx.terms item.1) block
  terms : ∀ word, idx'.terms word = if word = item.1 then some block else idx.terms word
  termid : (idx.terms item.1 = none ∧ block.termid = idx.globalData.recptr ∧
      idx'.globalData.recptr = idx.globalData.recptr + 1) ∨
    (idx.terms item.1 ≠ none ∧ idx'.globalData.recptr = idx.globalData.recptr)
  totOccur : idx'.globalData.totOccur = idx.globalData.totOccur + item.2.termfreq
  totNumrecs : idx'.globalData.totNumrecs = idx.globalData.totNumrecs
  prox : ∀ key, idx'.prox key =
    if idx.has PROXIMITY = true ∧ key = ⟨block.termid, recnum.1⟩ then
      some ((idx.prox key).elim item.2.pos fun old ↦ old.dropLast ++ item.2.pos)
    else idx.prox key

theorem prox_putProximity (idx : IdxListEntry) (recnum : RecordNumber) (termid : ℤ)
    (htData : HtData) (key : ProxIdxPosKey) : (putProximity idx recnum termid htData).prox key =
      if idx.has PROXIMITY = true ∧ key = ⟨termid, recnum.1⟩ then
        some ((idx.prox key).elim htData.pos fun old ↦ old.dropLast ++ htData.pos)
      else idx.prox key := by
  rw [putProximity]
  cases hprox : idx.has PROXIMITY with
  | false => simp
  | true =>
    by_cases hkey : key = ⟨termid, recnum.1⟩
    · subst hkey
      simp only [putPositionInfo, Function.update_self, if_true, and_self]
      cases idx.prox ⟨termid, recnum.1⟩ <;> rfl
    · simp [putPositionInfo, hkey]

theorem kwaddTerm_spec {idx : IdxListEntry} (hidx : Inverted idx)
    (hsound : ∀ word block, idx.terms word = some block → block.Sound) (recnum : RecordNumber)
    (item : Term × HtData) :
    ∃ idx' block, kwaddTerm recnum idx item = .ok idx' ∧ TermAdded recnum item idx idx' block := by
  rw [kwaddTerm, if_neg (by simp [hidx.not_bitmapped])]
  cases hterm : idx.terms item.1 with
  | none =>
    refine ⟨_, newBlock idx.globalData.recptr recnum item.2.termfreq, rfl, ?_⟩
    constructor
    · simp
    · rw [hterm]
      exact appended_newBlock _ _ _
    · simp [terms_putTerm]
    · exact .inl ⟨hterm, rfl, by simp; rfl⟩
    · simp; rfl
    · simp; rfl
    · exact prox_putProximity _ _ _ _
  | some info =>
    obtain ⟨newinfo, hnew, happended⟩ := (hsound _ _ hterm).addPosting recnum item.2.termfreq
    simp only [hnew]
    refine ⟨_, newinfo, rfl, ?_⟩
    constructor
    · simp
    · rwa [hterm]
    · simp [terms_putTerm]
    · exact .inr ⟨by simp [hterm], by simp; rfl⟩
    · simp; rfl
    · simp; rfl
    · exact prox_putProximity _ _ _ _

theorem TermAdded.sound {recnum : RecordNumber} {item : Term × HtData} {idx idx' : IdxListEntry}
    {block : IdxResult} (h : TermAdded recnum item idx idx' block)
    (hsound : ∀ word block, idx.terms word = some block → block.Sound) (word : Term)
    (stored : IdxResult) (hstored : idx'.terms word = some stored) : stored.Sound := by
  rw [h.terms] at hstored
  split at hstored
  · cases hstored
    exact h.appended.sound
  · exact hsound word stored hstored

theorem lookup_eq_none {items : List (Term × HtData)} {word : Term} (h : word ∉ items.map Prod.fst) :
    items.lookup word = none := by
  rw [List.lookup_eq_none_iff]
  intro pair hpair
  rw [bne_iff_ne]
  exact fun heq ↦ h (heq ▸ List.mem_map_of_mem hpair)

/-- All the terms of a hash: each changes as one addition does it, every other term is left. -/
theorem kwaddTerms_spec (recnum : RecordNumber) (items : List (Term × HtData))
    (hnodup : (items.map Prod.fst).Nodup) : ∀ {idx : IdxListEntry}, Inverted idx →
    (∀ word block, idx.terms word = some block → block.Sound) →
    ∃ idx', kwaddTerms recnum items idx = .ok idx' ∧ idx'.idxType = idx.idxType ∧
      ∀ word, match items.lookup word with
        | some htData => ∃ block, idx'.terms word = some block ∧
            Appended recnum htData.termfreq (idx.terms word) block
        | none => idx'.terms word = idx.terms word := by
  induction items with
  | nil => exact fun _ _ ↦ ⟨_, rfl, rfl, fun word ↦ rfl⟩
  | cons item items ih =>
    intro idx hidx hsound
    rw [List.map_cons, List.nodup_cons] at hnodup
    obtain ⟨next, block, hnext, hadded⟩ := kwaddTerm_spec hidx hsound recnum item
    obtain ⟨idx', hrest, htype', hterms⟩ :=
      ih hnodup.2 (hidx.of_idxType hadded.idxType) (hadded.sound hsound)
    refine ⟨idx', by rw [kwaddTerms, hnext]; exact hrest, htype'.trans hadded.idxType,
      fun word ↦ ?_⟩
    have hword := hterms word
    rw [List.lookup_cons]
    by_cases heq : word = item.1
    · -- the rest of the hash does not have the word again
      have hnone : items.lookup item.1 = none := lookup_eq_none hnodup.1
      subst heq
      rw [hnone] at hword
      simp only [beq_self_eq_true]
      exact ⟨block, by rw [hword, hadded.terms, if_pos rfl], hadded.appended⟩
    · have hbeq : (word == item.1) = false := beq_eq_false_iff_ne.mpr heq
      rw [hbeq]
      rwa [hadded.terms, if_neg heq] at hword

theorem inKwadd_spec {idx : IdxListEntry} (hidx : Inverted idx)
    (hsound : ∀ word block, idx.terms word = some block → block.Sound) (recnum : RecordNumber)
    (hash : TermHash) :
    ∃ idx', inKwadd idx recnum hash = .ok idx' ∧ idx'.idxType = idx.idxType ∧
      ∀ word, match hash.find? word with
        | some htData => ∃ block, idx'.terms word = some block ∧
            Appended recnum htData.termfreq (idx.terms word) block
        | none => idx'.terms word = idx.terms word := by
  obtain ⟨next, hnext, htype, hterms⟩ := kwaddTerms_spec recnum hash.entries hash.nodup hidx hsound
  rw [inKwadd, if_neg (by simp [hidx.not_paged, hidx.not_freq]), hnext]
  refine ⟨_, rfl, ?_, ?_⟩
  · split <;> exact htype
  · split <;> exact hterms

end Cheshire.Index
