import Cheshire.Search.RangeWalk
import Cheshire.Search.TruncatedPostings
import Cheshire.Search.WordSearch

/-!
# What a list of words finds

While the words are looked up, the hash table has the records of the first postings, each with the number
of postings it is in.  At the end a record is counted as often as there are words that are no stop words
exactly if all these words are found and it is in all their postings.
-/

namespace Cheshire.Search

open Lib Index

/-- The records of postings that are not deleted. -/
def liveRecords (postings : List IdxPostingEntry) : List ℤ :=
  (postings.map IdxPostingEntry.recordNo).filter (0 < ·)

def HasRecord (block : IdxResult) (record : ℤ) : Prop := record ∈ liveRecords block.postings

instance decidableHasRecord (block : IdxResult) (record : ℤ) : Decidable (HasRecord block record) :=
  inferInstanceAs (Decidable (_ ∈ _))

/-- The records are stored, and each of them once. -/
structure OncePosted (block : IdxResult) : Prop where
  sound : block.Sound
  once : (liveRecords block.postings).Nodup

theorem length_le_of_hasRecord {block : IdxResult} {records : List ℤ} (hnodup : records.Nodup)
    (h : ∀ record ∈ records, HasRecord block record) : records.length ≤ block.postings.length := by
  have hsubset : records ⊆ block.postings.map IdxPostingEntry.recordNo := fun record hmem ↦
    List.mem_of_mem_filter (h record hmem)
  have hlength := (hnodup.subperm hsubset).length_le
  rwa [List.length_map] at hlength

/-- The count of a record after a word that has it. -/
def raised (firstTerm : Bool) (numSearchWords : ℤ) : Option ℤ → Option ℤ
  | none => if firstTerm then some 1 else none
  | some weight => some (if weight < numSearchWords then weight + 1 else weight)

theorem find?_gatherWord (firstTerm : Bool) (numSearchWords : ℤ) (table : Table ℤ TempResults)
    (entry : IdxPostingEntry) (record : ℤ) :
    ((gatherWord firstTerm numSearchWords table entry).find? record).map TempResults.weight =
      if entry.recordNo > 0 ∧ record = entry.recordNo then
        raised firstTerm numSearchWords ((table.find? record).map TempResults.weight)
      else (table.find? record).map TempResults.weight := by
  rw [gatherWord]
  by_cases hlive : entry.recordNo > 0
  · rw [if_pos hlive]
    by_cases heq : record = entry.recordNo
    · have hboth : entry.recordNo > 0 ∧ record = entry.recordNo := ⟨hlive, heq⟩
      rw [if_pos hboth, heq]
      cases hfind : table.find? entry.recordNo with
      | none =>
        cases firstTerm with
        | true => exact congrArg _ (Table.find?_enter_self table _ _)
        | false => exact congrArg _ hfind
      | some storage => exact congrArg _ (Table.find?_enter_self table _ _)
    · have hnot : ¬(entry.recordNo > 0 ∧ record = entry.recordNo) := fun hboth ↦ heq hboth.2
      rw [if_neg hnot]
      cases table.find? entry.recordNo with
      | none =>
        cases firstTerm with
        | true => exact congrArg _ (Table.find?_enter_of_ne table heq _)
        | false => rfl
      | some storage => exact congrArg _ (Table.find?_enter_of_ne table heq _)
  · rw [if_neg hlive, if_neg fun h ↦ hlive h.1]

theorem find?_foldl_gatherWord (firstTerm : Bool) (numSearchWords : ℤ)
    (entries : List IdxPostingEntry) (honce : (liveRecords entries).Nodup)
    (table : Table ℤ TempResults) (record : ℤ) :
    ((entries.foldl (gatherWord firstTerm numSearchWords) table).find? record).map
        TempResults.weight =
      if record ∈ liveRecords entries then
        raised firstTerm numSearchWords ((table.find? record).map TempResults.weight)
      else (table.find? record).map TempResults.weight := by
  induction entries generalizing table with
  | nil => rfl
  | cons entry entries ih =>
    have hcons : liveRecords (entry :: entries) =
        if 0 < entry.recordNo then entry.recordNo :: liveRecords entries
        else liveRecords entries := by
      rw [liveRecords, List.map_cons, List.filter_cons]
      simp only [decide_eq_true_eq]
      rfl
    rw [hcons] at honce ⊢
    rw [List.foldl_cons]
    by_cases hlive : 0 < entry.recordNo
    · rw [if_pos hlive] at honce ⊢
      obtain ⟨hnew, hrest⟩ := List.nodup_cons.mp honce
      rw [ih hrest, find?_gatherWord]
      by_cases heq : record = entry.recordNo
      · rw [if_neg (heq ▸ hnew), if_pos ⟨hlive, heq⟩, if_pos (heq ▸ List.mem_cons_self)]
      · simp only [List.mem_cons, heq, and_false, if_false, false_or]
    · rw [if_neg hlive] at honce ⊢
      have hsame : gatherWord firstTerm numSearchWords table entry = table := if_neg hlive
      rw [hsame, ih honce]

/-- The postings of the words that were found. -/
def blocks (done : List (Option IdxResult × ℤ)) : List IdxResult := done.filterMap Prod.fst

/-- In how many postings a record is, if it is in the first ones. -/
def weightIn (found : List IdxResult) (record : ℤ) : Option ℤ :=
  match found with
  | [] => none
  | first :: _ =>
    if HasRecord first record then some (found.countP fun block ↦ HasRecord block record) else none

/-- What the variables of the loop say after these answers. -/
structure Intersected (done : List (Option IdxResult × ℤ)) (s : WordSearch) : Prop where
  words : s.numSearchWords = done.length
  stops : s.stopwordCount = (done.map Prod.snd).sum
  phrase : s.phrase = PhraseMarks.zero
  firstTerm : s.firstTerm = (blocks done).isEmpty
  weights : ∀ record, (s.table.find? record).map TempResults.weight = weightIn (blocks done) record
  nonneg : 0 ≤ s.maxHits
  least : ∀ block ∈ blocks done, 0 < block.numEntries → 0 < s.maxHits ∧ s.maxHits ≤ block.numEntries
  attained : 0 < s.maxHits → ∃ block ∈ blocks done, block.numEntries = s.maxHits

theorem intersected_nil : Intersected [] WordSearch.zero where
  words := rfl
  stops := rfl
  phrase := rfl
  firstTerm := rfl
  weights record := rfl
  nonneg := le_rfl
  least block hmem := by cases hmem
  attained hpos := by cases hpos

theorem blocks_append (done : List (Option IdxResult × ℤ)) (found : Option IdxResult × ℤ) :
    blocks (done ++ [found]) = blocks done ++ found.1.toList := by
  rw [blocks, List.filterMap_append]
  cases hfirst : found.1 <;> simp [blocks, hfirst]

theorem weightIn_append (found : List IdxResult) (block : IdxResult) (record : ℤ) {count : ℤ}
    (hcount : found.length < count) :
    weightIn (found ++ [block]) record =
      if HasRecord block record then raised found.isEmpty count (weightIn found record)
      else weightIn found record := by
  cases found with
  | nil =>
    by_cases hblock : HasRecord block record
    · simp [weightIn, raised, hblock]
    · simp [weightIn, hblock]
  | cons first rest =>
    have hle : ((first :: rest).countP fun block ↦ HasRecord block record) ≤ (first :: rest).length :=
      List.countP_le_length
    have hlt : (((first :: rest).countP fun block ↦ HasRecord block record : ℕ) : ℤ) < count := by
      omega
    rw [List.cons_append, weightIn, weightIn, ← List.cons_append, List.countP_append,
      List.countP_singleton]
    by_cases hfirst : HasRecord first record
    · rw [if_pos hfirst, if_pos hfirst]
      by_cases hblock : HasRecord block record
      · simp [hblock, raised, hlt]
      · simp [hblock]
    · rw [if_neg hfirst, if_neg hfirst]
      simp [raised]

/-- The answer to one word, and that there is none for a stop word. -/
structure Answer (found : Option IdxResult × ℤ) : Prop where
  counted : found.2 = 0 ∨ found = (none, 1)
  once : ∀ block ∈ found.1, OncePosted block

theorem leastHits_of_pos {maxHits numEntries : ℤ} (hnonneg : 0 ≤ maxHits) (hpos : 0 < numEntries) :
    0 < leastHits maxHits numEntries ∧ leastHits maxHits numEntries ≤ numEntries ∧
      (0 < maxHits → leastHits maxHits numEntries ≤ maxHits) := by
  rw [leastHits]
  split_ifs <;> omega

theorem leastHits_eq (maxHits numEntries : ℤ) :
    leastHits maxHits numEntries = maxHits ∨ leastHits maxHits numEntries = numEntries := by
  rw [leastHits]
  split_ifs
  · exact Or.inr rfl
  · exact Or.inl rfl

section Loop

variable {fuel : ℕ} {idx : RangeIndex} {truncation : ℤ}

theorem searchWord_of_lookUpWord {s : WordSearch} (hphrase : s.phrase = PhraseMarks.zero)
    {word : List Char} (hmarks : '$' ∉ word) {found : Option IdxResult × ℤ}
    (hlookup : lookUpWord fuel idx truncation word = .ok found)
    (honce : ∀ block ∈ found.1, OncePosted block) :
    ∃ next, searchWord fuel idx truncation s word = .ok next ∧
      next.numSearchWords = s.numSearchWords + 1 ∧
      next.stopwordCount = s.stopwordCount + found.2 ∧ next.phrase = PhraseMarks.zero ∧
      match found.1 with
      | none => next.table = s.table ∧ next.firstTerm = s.firstTerm ∧ next.maxHits = s.maxHits
      | some block =>
        next.table = block.postings.foldl (gatherWord s.firstTerm (s.numSearchWords + 1)) s.table ∧
          next.firstTerm = false ∧ next.maxHits = leastHits s.maxHits block.numEntries := by
  have hread : readMarks s.phrase word = (PhraseMarks.zero, word) := by
    simp [readMarks, hphrase, hmarks, PhraseMarks.zero]
  rw [searchWord, hread]
  simp only [hlookup, bind, Except.bind]
  cases hfirst : found.1 with
  | none => exact ⟨_, rfl, rfl, rfl, rfl, rfl, rfl, rfl⟩
  | some block =>
    have hentries := readEntries_of_sound (honce block hfirst).sound
    simp only [gatherResult, hentries, bind, Except.bind]
    exact ⟨_, rfl, rfl, rfl, rfl, rfl, rfl, rfl⟩

theorem Intersected.word {done : List (Option IdxResult × ℤ)} {s : WordSearch}
    (h : Intersected done s) {word : List Char} (hmarks : '$' ∉ word)
    {found : Option IdxResult × ℤ} (hlookup : lookUpWord fuel idx truncation word = .ok found)
    (hanswer : Answer found) :
    ∃ next, searchWord fuel idx truncation s word = .ok next ∧ Intersected (done ++ [found]) next := by
  obtain ⟨next, hnext, hwords, hstops, hphrase, hfound⟩ :=
    searchWord_of_lookUpWord h.phrase hmarks hlookup hanswer.once
  refine ⟨next, hnext, ?_⟩
  have hcount : next.numSearchWords = (done ++ [found]).length := by
    rw [hwords, h.words, List.length_append]
    rfl
  have hsum : next.stopwordCount = ((done ++ [found]).map Prod.snd).sum := by
    rw [hstops, h.stops, List.map_append, List.sum_append]
    simp
  cases hfirst : found.1 with
  | none =>
    rw [hfirst] at hfound
    obtain ⟨htable, hterm, hmax⟩ := hfound
    have hblocks : blocks (done ++ [found]) = blocks done := by
      rw [blocks_append, hfirst]
      exact List.append_nil _
    constructor
    · exact hcount
    · exact hsum
    · exact hphrase
    · rw [hterm, hblocks, h.firstTerm]
    · rw [htable, hblocks]
      exact h.weights
    · rw [hmax]
      exact h.nonneg
    · rw [hmax, hblocks]
      exact h.least
    · rw [hmax, hblocks]
      exact h.attained
  | some block =>
    rw [hfirst] at hfound
    obtain ⟨htable, hterm, hmax⟩ := hfound
    have hblocks : blocks (done ++ [found]) = blocks done ++ [block] := by
      rw [blocks_append, hfirst]
      rfl
    have honce := hanswer.once block hfirst
    have hlength : ((blocks done).length : ℤ) < s.numSearchWords + 1 := by
      have hle : (blocks done).length ≤ done.length := List.length_filterMap_le _ _
      rw [h.words]
      omega
    constructor
    · exact hcount
    · exact hsum
    · exact hphrase
    · rw [hterm, hblocks]
      simp
    · intro record
      rw [htable, hblocks, find?_foldl_gatherWord _ _ _ honce.once, h.weights, h.firstTerm,
        weightIn_append _ _ _ hlength]
      rfl
    · rw [hmax]
      by_cases hpos : 0 < block.numEntries
      · exact (leastHits_of_pos h.nonneg hpos).1.le
      · rw [leastHits, if_neg fun hcond ↦ hpos hcond.1]
        exact h.nonneg
    · rw [hmax, hblocks]
      intro other hother hpos
      rcases List.mem_append.mp hother with hold | hnew
      · obtain ⟨hmaxPos, hle⟩ := h.least other hold hpos
        by_cases hblock : 0 < block.numEntries
        · obtain ⟨hleast, -, hless⟩ := leastHits_of_pos h.nonneg hblock
          exact ⟨hleast, (hless hmaxPos).trans hle⟩
        · rw [leastHits, if_neg fun hcond ↦ hblock hcond.1]
          exact ⟨hmaxPos, hle⟩
      · obtain rfl := List.mem_singleton.mp hnew
        obtain ⟨hleast, hle, -⟩ := leastHits_of_pos h.nonneg hpos
        exact ⟨hleast, hle⟩
    · rw [hmax, hblocks]
      intro hpos
      rcases leastHits_eq s.maxHits block.numEntries with heq | heq
      · rw [heq] at hpos ⊢
        obtain ⟨other, hother, hentries⟩ := h.attained hpos
        exact ⟨other, List.mem_append_left _ hother, hentries⟩
      · exact ⟨block, List.mem_append_right _ (List.mem_singleton_self _), heq.symm⟩

theorem Intersected.words_loop (words : List (List Char)) (hmarks : ∀ word ∈ words, '$' ∉ word)
    {answer : List Char → Option IdxResult × ℤ}
    (hlookup : ∀ word ∈ words, lookUpWord fuel idx truncation word = .ok (answer word))
    (hanswer : ∀ word ∈ words, Answer (answer word)) {done : List (Option IdxResult × ℤ)}
    {s : WordSearch} (h : Intersected done s) :
    ∃ next, words.foldlM (searchWord fuel idx truncation) s = .ok next ∧
      Intersected (done ++ words.map answer) next := by
  induction words generalizing done s with
  | nil =>
    refine ⟨s, rfl, ?_⟩
    rw [List.map_nil, List.append_nil]
    exact h
  | cons word words ih =>
    obtain ⟨hmark, hmarks⟩ := List.forall_mem_cons.mp hmarks
    obtain ⟨hlook, hlookup⟩ := List.forall_mem_cons.mp hlookup
    obtain ⟨hfirst, hanswer⟩ := List.forall_mem_cons.mp hanswer
    obtain ⟨next, hnext, hdone⟩ := h.word hmark hlook hfirst
    obtain ⟨last, hlast, hall⟩ := ih hmarks hlookup hanswer hdone
    refine ⟨last, ?_, ?_⟩
    · rw [List.foldlM_cons, hnext]
      exact hlast
    · rw [List.map_cons, List.append_cons]
      exact hall

end Loop

/-- The record is in the postings of every word that is not a stop word. -/
def InAll (done : List (Option IdxResult × ℤ)) (record : ℤ) : Prop :=
  ∀ found ∈ done, found ≠ (none, 1) → ∃ block, found.1 = some block ∧ HasRecord block record

/-- The words that are neither stop words nor found. -/
def missing (done : List (Option IdxResult × ℤ)) : ℕ := done.countP fun found ↦ found = (none, 0)

theorem length_sub_sum {done : List (Option IdxResult × ℤ)} (hanswers : ∀ found ∈ done, Answer found) :
    (done.length : ℤ) - (done.map Prod.snd).sum = (blocks done).length + missing done := by
  induction done with
  | nil => rfl
  | cons found done ih =>
    obtain ⟨hfound, hrest⟩ := List.forall_mem_cons.mp hanswers
    have hrest := ih hrest
    rw [missing] at hrest
    rw [List.length_cons, List.map_cons, List.sum_cons, missing, List.countP_cons, blocks,
      List.filterMap_cons, ← blocks]
    rcases found with ⟨block, stops⟩
    rcases hfound.counted with hstops | hstops
    · change stops = 0 at hstops
      subst hstops
      cases block with
      | none =>
        simp only [decide_true, if_true]
        push_cast
        omega
      | some block =>
        simp only [List.length_cons, Prod.mk.injEq, reduceCtorEq, false_and, decide_false]
        push_cast
        omega
    · rw [Prod.mk.injEq] at hstops
      obtain ⟨rfl, rfl⟩ := hstops
      simp only [Prod.mk.injEq, one_ne_zero, and_false, decide_false]
      push_cast
      omega

theorem inAll_iff {done : List (Option IdxResult × ℤ)} (hanswers : ∀ found ∈ done, Answer found)
    (record : ℤ) :
    InAll done record ↔ missing done = 0 ∧ ∀ block ∈ blocks done, HasRecord block record := by
  rw [missing, List.countP_eq_zero]
  constructor
  · intro h
    constructor
    · intro found hmem heq
      obtain rfl := of_decide_eq_true heq
      obtain ⟨block, hblock, -⟩ := h _ hmem (by simp)
      cases hblock
    · intro block hmem
      obtain ⟨found, hfound, hfirst⟩ := List.mem_filterMap.mp hmem
      obtain ⟨other, hother, hrecord⟩ := h found hfound (by
        rintro rfl
        cases hfirst)
      cases hfirst.symm.trans hother
      exact hrecord
  · rintro ⟨hmissing, hblocks⟩ found hmem hne
    cases hfirst : found.1 with
    | some block => exact ⟨block, rfl, hblocks block (List.mem_filterMap.mpr ⟨found, hmem, hfirst⟩)⟩
    | none =>
      rcases (hanswers found hmem).counted with hstops | hstops
      · exact absurd (decide_eq_true (Prod.ext hfirst hstops)) (hmissing found hmem)
      · exact absurd hstops hne

/-- A record that is counted often enough. -/
def isKept (s : WordSearch) (record : ℤ × TempResults) : Bool :=
  s.numSearchWords - s.stopwordCount ≤ record.2.weight

def keptEntries (s : WordSearch) : List (ℤ × TempResults) := s.table.entries.filter (isKept s)

theorem nodup_keptEntries (s : WordSearch) : ((keptEntries s).map Prod.fst).Nodup :=
  s.table.nodup.sublist (List.filter_sublist.map _)

section Kept

variable {done : List (Option IdxResult × ℤ)} {s : WordSearch} (h : Intersected done s)
  (hanswers : ∀ found ∈ done, Answer found) (hpos : 0 < s.numSearchWords - s.stopwordCount)

include h hanswers hpos

theorem mem_keptEntries_iff (record : ℤ) :
    record ∈ (keptEntries s).map Prod.fst ↔ InAll done record := by
  have hneeded : s.numSearchWords - s.stopwordCount = (blocks done).length + missing done := by
    rw [h.words, h.stops]
    exact length_sub_sum hanswers
  have hkept : record ∈ (keptEntries s).map Prod.fst ↔
      ∃ weight ∈ weightIn (blocks done) record, s.numSearchWords - s.stopwordCount ≤ weight := by
    rw [← h.weights, List.mem_map]
    constructor
    · rintro ⟨entry, hentry, rfl⟩
      obtain ⟨hmem, hweight⟩ := List.mem_filter.mp hentry
      refine ⟨entry.2.weight, ?_, of_decide_eq_true hweight⟩
      rw [s.table.find?_of_mem hmem]
      rfl
    · rintro ⟨weight, hfind, hweight⟩
      obtain ⟨storage, hstorage, rfl⟩ := Option.map_eq_some_iff.mp hfind
      exact ⟨(record, storage), List.mem_filter.mpr
        ⟨(s.table.mem_entries_iff record storage).mpr hstorage, decide_eq_true hweight⟩, rfl⟩
  rw [hkept, inAll_iff hanswers, hneeded]
  rw [hneeded] at hpos
  cases hblocks : blocks done with
  | nil =>
    rw [hblocks] at hpos
    refine iff_of_false ?_ ?_
    · rintro ⟨weight, hnone, -⟩
      cases hnone
    · rintro ⟨hzero, -⟩
      rw [hzero] at hpos
      exact absurd hpos (lt_irrefl _)
  | cons first rest =>
    have hle : ((first :: rest).countP fun block ↦ HasRecord block record) ≤ (first :: rest).length :=
      List.countP_le_length
    have hall : ((first :: rest).countP fun block ↦ HasRecord block record) = (first :: rest).length ↔
        ∀ block ∈ first :: rest, HasRecord block record := by
      rw [List.countP_eq_length]
      simp only [decide_eq_true_eq]
    rw [weightIn]
    constructor
    · rintro ⟨weight, hsome, hweight⟩
      split_ifs at hsome with hfirst
      · obtain rfl := Option.some.inj hsome
        exact ⟨by omega, hall.mp (by omega)⟩
      · cases hsome
    · rintro ⟨hmissing, hrecords⟩
      have hcount := hall.mpr hrecords
      refine ⟨_, if_pos (hrecords first List.mem_cons_self), ?_⟩
      rw [hcount, hmissing]
      simp

theorem length_keptEntries_le {block : IdxResult} (hblock : block ∈ blocks done) :
    ((keptEntries s).length : ℤ) ≤ block.numEntries := by
  obtain ⟨found, hfound, hfirst⟩ := List.mem_filterMap.mp hblock
  have hsound := ((hanswers found hfound).once block hfirst).sound
  have hle : ((keptEntries s).map Prod.fst).length ≤ block.postings.length := by
    apply length_le_of_hasRecord (nodup_keptEntries s)
    intro record hmem
    have hall := (mem_keptEntries_iff h hanswers hpos record).mp hmem
    exact ((inAll_iff hanswers record).mp hall).2 block hblock
  have hnonneg := hsound.nonneg
  rw [List.length_map, hsound.length_postings] at hle
  omega

theorem length_keptEntries_le_maxHits : (keptEntries s).length ≤ s.maxHits.toNat := by
  by_cases hroom : 0 < s.maxHits
  · obtain ⟨block, hblock, hentries⟩ := h.attained hroom
    have hle := length_keptEntries_le h hanswers hpos hblock
    omega
  · cases hkept : keptEntries s with
    | nil => exact Nat.zero_le _
    | cons record records =>
      -- a record that is kept is in the first postings, which are not empty
      have hmem : record.1 ∈ (keptEntries s).map Prod.fst := by
        rw [hkept]
        exact List.mem_cons_self
      have hall := (mem_keptEntries_iff h hanswers hpos record.1).mp hmem
      obtain ⟨hmissing, hrecords⟩ := (inAll_iff hanswers record.1).mp hall
      have hneeded : s.numSearchWords - s.stopwordCount = (blocks done).length + missing done := by
        rw [h.words, h.stops]
        exact length_sub_sum hanswers
      obtain ⟨block, hblock⟩ := List.exists_mem_of_length_pos
        (by omega : 0 < (blocks done).length)
      have hle := length_keptEntries_le h hanswers hpos hblock
      rw [hkept, List.length_cons] at hle
      exact absurd (h.least block hblock (by omega)).1 hroom

end Kept

def wordHits (records : List (ℤ × TempResults)) : List WeightedEntry :=
  records.map fun record ↦ ⟨record.1, 0, 1⟩

theorem foldlM_storeWord {proxPhrase : List (ℤ × ℤ) → ℤ → ℤ → Exec Bool} {s : WordSearch}
    (hphrase : s.phrase = PhraseMarks.zero) {size : ℕ} (records : List (ℤ × TempResults))
    {wtRes : WeightedResult} {out : List WeightedEntry}
    (hholds : Buffer.Holds WeightedEntry.zero size wtRes.entries out)
    (hhits : wtRes.numHits = out.length)
    (hroom : out.length + (records.filter (isKept s)).length ≤ size) :
    ∃ next, records.foldlM (storeWord proxPhrase s) wtRes = .ok next ∧
      Buffer.Holds WeightedEntry.zero size next.entries (out ++ wordHits (records.filter (isKept s))) ∧
      next.numHits = (out ++ wordHits (records.filter (isKept s))).length := by
  induction records generalizing wtRes out with
  | nil => exact ⟨wtRes, rfl, by simpa [wordHits] using hholds, by simpa [wordHits] using hhits⟩
  | cons record records ih =>
    rw [List.foldlM_cons]
    by_cases hkeep : s.numSearchWords - s.stopwordCount ≤ record.2.weight
    · have hkept : isKept s record = true := decide_eq_true hkeep
      rw [List.filter_cons_of_pos hkept] at hroom ⊢
      rw [List.length_cons] at hroom
      obtain ⟨cells, hcells, hnext⟩ := hholds.store (by omega) ⟨record.1, 0, 1⟩
      have hindex : wtRes.numHits.toNat = out.length := by rw [hhits, Int.toNat_natCast]
      have hstored (kept : List (ℤ × TempResults)) :
          wordHits (record :: kept) = ⟨record.1, 0, 1⟩ :: wordHits kept := rfl
      have hterms : s.phrase.terms = [] := by
        rw [hphrase]
        rfl
      have hstep : storeWord proxPhrase s wtRes record =
          .ok { wtRes with entries := cells, numHits := wtRes.numHits + 1 } := by
        rw [storeWord, if_pos hkeep, if_pos hterms]
        simp only [bind, Except.bind, if_true, hindex, hcells]
      rw [hstep, hstored, List.append_cons]
      exact ih hnext (by simp [hhits]) (by rw [List.length_append, List.length_singleton]; omega)
    · have hkept : ¬isKept s record = true := fun hkept ↦ hkeep (of_decide_eq_true hkept)
      rw [List.filter_cons_of_neg hkept] at hroom ⊢
      have hstep : storeWord proxPhrase s wtRes record = .ok wtRes := if_neg hkeep
      rw [hstep]
      exact ih hholds hhits hroom

theorem storeWords_spec {proxPhrase : List (ℤ × ℤ) → ℤ → ℤ → Exec Bool} (idx : RangeIndex)
    {done : List (Option IdxResult × ℤ)} {s : WordSearch} (h : Intersected done s)
    (hanswers : ∀ found ∈ done, Answer found) (hpos : 0 < s.numSearchWords - s.stopwordCount) :
    ∃ wtRes, s.table.entries.foldlM (storeWord proxPhrase s) (newWordResult idx s) = .ok wtRes ∧
      (seSortwtset wtRes).Allocated ∧ (seSortwtset wtRes).recordNums.Pairwise (· < ·) ∧
      (∀ record, record ∈ (seSortwtset wtRes).recordNums ↔ InAll done record) ∧
      ∀ block ∈ blocks done, (seSortwtset wtRes).numHits ≤ block.numEntries := by
  have hnew : Buffer.Holds WeightedEntry.zero (s.maxHits.toNat + 2) (newWordResult idx s).entries [] :=
    Buffer.holds_calloc _ _
  have hroom := length_keptEntries_le_maxHits h hanswers hpos
  have hfits : ([] : List WeightedEntry).length + (s.table.entries.filter (isKept s)).length ≤
      s.maxHits.toNat + 2 := by
    rw [List.length_nil]
    change 0 + (keptEntries s).length ≤ _
    omega
  obtain ⟨wtRes, hwtRes, hholds, hhits⟩ :=
    @foldlM_storeWord proxPhrase s h.phrase _ s.table.entries _ _ hnew rfl hfits
  rw [List.nil_append] at hholds hhits
  change Buffer.Holds _ _ _ (wordHits (keptEntries s)) at hholds
  change wtRes.numHits = (wordHits (keptEntries s)).length at hhits
  have hlength : wtRes.numHits.toNat = (wordHits (keptEntries s)).length := by
    rw [hhits, Int.toNat_natCast]
  have hrecords : wtRes.recordNums = (keptEntries s).map Prod.fst := by
    rw [WeightedResult.recordNums, WeightedResult.hits, hlength, hholds.take, wordHits, List.map_map]
    rfl
  have hallocated : wtRes.Allocated := by
    constructor
    · rw [hhits]
      exact Int.natCast_nonneg _
    · rw [hlength, hholds.length_cells]
      exact hholds.length_le
  have hperm := hallocated.perm_recordNums_qsort compareWtEntries
  refine ⟨wtRes, hwtRes, hallocated.qsort compareWtEntries, ?_, ?_, ?_⟩
  · have hnodup : (seSortwtset wtRes).recordNums.Nodup := by
      rw [seSortwtset, hperm.nodup_iff, hrecords]
      exact nodup_keptEntries s
    exact hallocated.sorted_seSortwtset.imp₂ (fun _ _ hle hne ↦ lt_of_le_of_ne hle hne) hnodup
  · intro record
    rw [seSortwtset, hperm.mem_iff, hrecords]
    exact mem_keptEntries_iff h hanswers hpos record
  · intro block hblock
    change wtRes.numHits ≤ _
    rw [hhits, wordHits, List.length_map]
    exact length_keptEntries_le h hanswers hpos hblock

/-- An index of words: each key that is not passed over has postings with every record once. -/
def WordFile (pairs : List (List Char × IndexDatum)) : Prop :=
  ∀ pair ∈ pairs, pair.1.head? ≠ some '>' → ∃ block, pair.2 = .postings block ∧ OncePosted block

/-- A truncated search returns; any other word is normalised, and not to the key of the global data. -/
def Answered (fuel : ℕ) (idx : RangeIndex) (truncation : ℤ) (word : List Char) : Prop :=
  if isTruncated truncation word then ∃ found, seGettruncIdx fuel (some idx) word = .ok found
  else ∃ key, normalizeKey idx.routines idx.idxType word = .ok key ∧
    ∀ text ∈ key, text.head? ≠ some '>'

/-- A word of which normalisation leaves nothing. -/
def IsStopWord (idx : RangeIndex) (truncation : ℤ) (word : List Char) : Prop :=
  isTruncated truncation word = false ∧ normalizeKey idx.routines idx.idxType word = .ok none

def Finds (fuel : ℕ) (idx : RangeIndex) (truncation : ℤ) (word : List Char) (block : IdxResult) :
    Prop :=
  ∃ stops, lookUpWord fuel idx truncation word = .ok (some block, stops)

theorem oncePosted_of_truncResult {sums : TruncSums} {found : Option IdxResult}
    (h : truncResult sums = .ok found) : ∀ block ∈ found, OncePosted block := by
  rw [truncResult] at h
  split at h
  · have hnew : Buffer.Holds IdxPostingEntry.zero (sums.table.entries.length + 1)
        (Buffer.calloc IdxPostingEntry.zero (sums.table.entries.length + 1)) [] :=
      Buffer.holds_calloc _ _
    have hstore := foldlM_storeSum sums.table.entries hnew (by simp)
    rw [List.length_nil, List.nil_append] at hstore
    obtain ⟨results, hresults, h⟩ := bind_eq_ok.mp h
    cases h
    rintro block ⟨⟩
    rcases hstore with ⟨-, cells, hcells, hholds⟩ | ⟨-, fault, hfault⟩
    · cases hresults.symm.trans hcells
      have htake := hholds.take
      rw [List.length_map] at htake
      refine ⟨⟨Int.natCast_nonneg _, ?_⟩, ?_⟩
      · rw [Int.toNat_natCast, hholds.length_cells]
        exact Nat.le_succ _
      · rw [IdxResult.postings, Int.toNat_natCast, htake, liveRecords, List.map_map]
        exact sums.table.nodup.filter _
    · cases hresults.symm.trans hfault
  · cases h
    rintro block ⟨⟩

theorem oncePosted_of_seGettruncIdx {fuel : ℕ} {idx : RangeIndex} {word : List Char}
    {found : Option IdxResult} (h : seGettruncIdx fuel (some idx) word = .ok found) :
    ∀ block ∈ found, OncePosted block := by
  have hnone : ∀ block ∈ (none : Option IdxResult), OncePosted block := by
    rintro block ⟨⟩
  rw [seGettruncIdx] at h
  cases hdb : idx.db with
  | none =>
    rw [hdb] at h
    cases h
    exact hnone
  | some pairs =>
    rw [hdb] at h
    simp only at h
    split_ifs at h
    · cases h
      exact hnone
    · obtain ⟨key, -, h⟩ := bind_eq_ok.mp h
      obtain ⟨text, -, h⟩ := bind_eq_ok.mp h
      split_ifs at h
      · cases h
        exact hnone
      · cases hset : Lib.Cursor.setRange pairs (beforeLastPound text) with
        | none =>
          rw [hset] at h
          cases h
          exact hnone
        | some position =>
          rw [hset] at h
          obtain ⟨sums, -, h⟩ := bind_eq_ok.mp h
          exact oncePosted_of_truncResult h

section Answers

variable {fuel : ℕ} {idx : RangeIndex} {pairs : List (List Char × IndexDatum)}
  (hdb : idx.db = some pairs) {truncation : ℤ} {word : List Char}

include hdb

theorem Answered.answer (hfile : WordFile pairs) (h : Answered fuel idx truncation word) :
    ∃ found, lookUpWord fuel idx truncation word = .ok found ∧ Answer found ∧
      (found = (none, 1) ↔ IsStopWord idx truncation word) := by
  rw [Answered] at h
  rw [lookUpWord]
  by_cases htruncated : isTruncated truncation word = true
  · rw [if_pos htruncated] at h ⊢
    obtain ⟨indexResult, hresult⟩ := h
    rw [hresult]
    refine ⟨(indexResult, 0), rfl, ⟨Or.inl rfl, oncePosted_of_seGettruncIdx hresult⟩, ?_⟩
    refine iff_of_false (by simp) ?_
    rintro ⟨hnot, -⟩
    rw [htruncated] at hnot
    cases hnot
  · rw [if_neg htruncated] at h ⊢
    obtain ⟨key, hkey, hhead⟩ := h
    rw [Bool.not_eq_true] at htruncated
    simp only [seGettermIdx, hdb, hkey, bind, Except.bind]
    cases key with
    | none =>
      refine ⟨(none, 1), rfl, ⟨Or.inr rfl, ?_⟩, iff_of_true rfl ⟨htruncated, hkey⟩⟩
      rintro block ⟨⟩
    | some text =>
      have hnot (found : Option IdxResult) : (found, 0) = ((none : Option IdxResult), (1 : ℤ)) ↔
          IsStopWord idx truncation word := by
        refine iff_of_false (by simp) ?_
        rintro ⟨-, hnone⟩
        rw [hkey] at hnone
        cases hnone
      simp only
      cases hlookup : pairs.lookup text with
      | none =>
        refine ⟨(none, 0), rfl, ⟨Or.inl rfl, ?_⟩, hnot none⟩
        rintro block ⟨⟩
      | some datum =>
        have hmem : (text, datum) ∈ pairs := by
          obtain ⟨before, after, rfl, -⟩ := List.lookup_eq_some_iff.mp hlookup
          exact List.mem_append_right _ List.mem_cons_self
        obtain ⟨block, hblock, honce⟩ := hfile _ hmem (hhead text rfl)
        change datum = .postings block at hblock
        subst hblock
        refine ⟨(some block, 0), rfl, ⟨Or.inl rfl, ?_⟩, hnot (some block)⟩
        rintro other ⟨⟩
        exact honce

end Answers

/-- The record is in the postings of every word that is not a stop word. -/
def InEveryWord (fuel : ℕ) (idx : RangeIndex) (truncation : ℤ) (words : List (List Char))
    (record : ℤ) : Prop :=
  ∀ word ∈ words, ¬IsStopWord idx truncation word →
    ∃ block, Finds fuel idx truncation word block ∧ HasRecord block record

/-- What the words find: their common records in order, and no more than any of them has postings. -/
structure CommonRecords (fuel : ℕ) (idx : RangeIndex) (truncation : ℤ) (words : List (List Char))
    (set : WeightedResult) : Prop where
  increasing : set.recordNums.Pairwise (· < ·)
  mem_iff : ∀ record, record ∈ set.recordNums ↔ InEveryWord fuel idx truncation words record
  missing : (∃ word ∈ words, ¬IsStopWord idx truncation word ∧
    ∀ block, ¬Finds fuel idx truncation word block) → set.recordNums = []
  allocated : set.Allocated
  room : ∀ word ∈ words, ∀ block, Finds fuel idx truncation word block → set.numHits ≤ block.numEntries

/-- A search for a list of words returns their common records; without a word, and where all words are
stop words, there is no result. -/
theorem seBoolElement_words (routines : ElementRoutines) (fuel : ℕ) {idx : RangeIndex}
    {pairs : List (List Char × IndexDatum)} (hdb : idx.db = some pairs) (hfile : WordFile pairs)
    {relation structureAttr truncation : ℤ} (hrelation : relation = 0 ∨ relation = 3)
    (hlist : isWordList idx.idxType structureAttr = true) {letters : List Char}
    (hletters : breakletters idx.idxType = some letters) {searchstring : List Char}
    (hmarks : ∀ word ∈ tokens letters searchstring, '$' ∉ word)
    (hanswered : ∀ word ∈ tokens letters searchstring, Answered fuel idx truncation word) :
    ∃ result, seBoolElement routines fuel idx (some searchstring) relation structureAttr truncation =
        .ok result ∧
      match result with
      | none => ∀ word ∈ tokens letters searchstring, IsStopWord idx truncation word
      | some set =>
        (∃ word ∈ tokens letters searchstring, ¬IsStopWord idx truncation word) ∧
          CommonRecords fuel idx truncation (tokens letters searchstring) set := by
  have hequal : ¬(relation ≠ 0 ∧ relation ≠ 3 ∧ relation ≠ 6) := by omega
  have hnotSix : relation ≠ 6 := by omega
  rw [seBoolElement, if_neg hequal, if_pos hlist, boolWords, hletters]
  simp only
  generalize hwords : tokens letters searchstring = words at hmarks hanswered ⊢
  by_cases hempty : words = []
  · rw [if_pos hempty]
    refine ⟨none, rfl, ?_⟩
    rw [hempty]
    exact List.forall_mem_nil _
  · rw [if_neg hempty]
    have hanswer (word : List Char) : ∃ found, word ∈ words →
        lookUpWord fuel idx truncation word = .ok found ∧ Answer found ∧
          (found = (none, 1) ↔ IsStopWord idx truncation word) := by
      by_cases hmem : word ∈ words
      · obtain ⟨found, hfound⟩ := (hanswered word hmem).answer hdb hfile
        exact ⟨found, fun _ ↦ hfound⟩
      · exact ⟨(none, 0), fun hword ↦ absurd hword hmem⟩
    choose answer hanswer using hanswer
    obtain ⟨s, hs, hinv⟩ := intersected_nil.words_loop words hmarks
      (fun word hmem ↦ (hanswer word hmem).1) (fun word hmem ↦ (hanswer word hmem).2.1)
    rw [List.nil_append] at hinv
    have hanswers : ∀ found ∈ words.map answer, Answer found := by
      intro found hmem
      obtain ⟨word, hword, rfl⟩ := List.mem_map.mp hmem
      exact (hanswer word hword).2.1
    have hfinds {word : List Char} (hword : word ∈ words) {block : IdxResult} :
        Finds fuel idx truncation word block ↔ (answer word).1 = some block := by
      rw [Finds, (hanswer word hword).1]
      constructor
      · rintro ⟨stops, heq⟩
        rw [Except.ok.inj heq]
      · intro hfirst
        exact ⟨(answer word).2, congrArg Except.ok (Prod.ext hfirst rfl)⟩
    rw [hs]
    simp only [bind, Except.bind]
    have hneeded : s.numSearchWords - s.stopwordCount =
        (blocks (words.map answer)).length + missing (words.map answer) := by
      rw [hinv.words, hinv.stops]
      exact length_sub_sum hanswers
    by_cases hstopped : s.numSearchWords - s.stopwordCount ≤ 0
    · rw [if_pos hstopped]
      refine ⟨none, rfl, ?_⟩
      intro word hword
      rw [← (hanswer word hword).2.2]
      have hblocks : blocks (words.map answer) = [] := List.eq_nil_of_length_eq_zero (by omega)
      have hmissing : missing (words.map answer) = 0 := by omega
      have hmem : answer word ∈ words.map answer := List.mem_map_of_mem hword
      rcases (hanswer word hword).2.1.counted with hzero | hstop
      · cases hfirst : (answer word).1 with
        | none =>
          rw [missing, List.countP_eq_zero] at hmissing
          exact absurd (decide_eq_true (Prod.ext hfirst hzero)) (hmissing _ hmem)
        | some block =>
          have hblock : block ∈ blocks (words.map answer) :=
            List.mem_filterMap.mpr ⟨answer word, hmem, hfirst⟩
          rw [hblocks] at hblock
          cases hblock
      · exact hstop
    · rw [if_neg hstopped]
      obtain ⟨wtRes, hwtRes, hallocated, hsorted, hmemIff, hroom⟩ :=
        @storeWords_spec routines.proxPhrase idx _ s hinv hanswers (not_le.mp hstopped)
      rw [hwtRes]
      simp only [orderedHits, if_neg hnotSix]
      have hinEvery (record : ℤ) : InAll (words.map answer) record ↔
          InEveryWord fuel idx truncation words record := by
        rw [InAll, List.forall_mem_map]
        apply forall_congr'
        intro word
        apply forall_congr'
        intro hword
        simp only [ne_eq, (hanswer word hword).2.2, hfinds hword]
      have hmem (record : ℤ) := (hmemIff record).trans (hinEvery record)
      refine ⟨some (seSortwtset wtRes), rfl, ?_, hsorted, hmem, ?_, hallocated, ?_⟩
      · by_contra hall
        simp only [not_exists, not_and, not_not] at hall
        have hstops : ∀ found ∈ words.map answer, found = (none, 1) := by
          intro found hfound
          obtain ⟨word, hword, rfl⟩ := List.mem_map.mp hfound
          exact (hanswer word hword).2.2.mpr (hall word hword)
        have hblocks : blocks (words.map answer) = [] := by
          rw [blocks, List.filterMap_eq_nil_iff]
          intro found hfound
          rw [hstops found hfound]
        have hmissing : missing (words.map answer) = 0 := by
          rw [missing, List.countP_eq_zero]
          intro found hfound
          rw [hstops found hfound]
          decide
        rw [hneeded, hblocks, hmissing] at hstopped
        exact hstopped le_rfl
      · rintro ⟨word, hword, hnot, hnone⟩
        apply List.eq_nil_iff_forall_not_mem.mpr
        intro record hrecord
        obtain ⟨block, hblock, -⟩ := (hmem record).mp hrecord word hword hnot
        exact hnone block hblock
      · intro word hword block hblock
        apply hroom
        exact List.mem_filterMap.mpr
          ⟨answer word, List.mem_map_of_mem hword, (hfinds hword).mp hblock⟩

/-- A keyword index with the stop word `the`. -/
def wordIndex (pairs : List (List Char × IndexDatum)) : RangeIndex where
  idxType := KEYWORD
  routines := ⟨fun _ ↦ .ok none, fun text ↦ if text = ['t', 'h', 'e'] then none else some text⟩
  unstopped := ⟨fun _ ↦ .ok none, fun text ↦ some text⟩
  stopwordsFile := true
  compParent := none
  db := some pairs

/-- The document 2 has both words. -/
def catAndDog : List (List Char × IndexDatum) :=
  [(['c', 'a', 't'], blockOf 1 [⟨1, 2⟩, ⟨2, 1⟩]), (['d', 'o', 'g'], blockOf 2 [⟨2, 1⟩, ⟨3, 1⟩])]

theorem oncePosted_blockOf {termid : ℤ} {postings : List IdxPostingEntry}
    (h : (liveRecords postings).Nodup) :
    ∃ block, blockOf termid postings = .postings block ∧ OncePosted block := by
  refine ⟨_, rfl, sound_blockOf rfl, ?_⟩
  rw [IdxResult.postings, Int.toNat_natCast, List.take_length]
  exact h

theorem wordFile_catAndDog : WordFile catAndDog := by
  simp only [WordFile, catAndDog, List.mem_cons, List.not_mem_nil, or_false, forall_eq_or_imp,
    forall_eq]
  exact ⟨fun _ ↦ oncePosted_blockOf (by decide), fun _ ↦ oncePosted_blockOf (by decide)⟩

def noPhrases : ElementRoutines := ⟨.ok none, fun _ _ _ ↦ .ok false, .ok none, none, .dbms⟩

theorem tokens_theCatDog :
    tokens keywordletters ['t', 'h', 'e', ' ', 'c', 'a', 't', ',', ' ', 'd', 'o', 'g'] =
      [['t', 'h', 'e'], ['c', 'a', 't'], ['d', 'o', 'g']] := by
  decide +kernel

/-- The search for `the cat, dog`. -/
theorem seBoolElement_theCatDog :
    ∃ result, seBoolElement noPhrases 0 (wordIndex catAndDog)
        (some ['t', 'h', 'e', ' ', 'c', 'a', 't', ',', ' ', 'd', 'o', 'g']) 3 WORD_LIST 0 =
        .ok result ∧
      match result with
      | none => ∀ word ∈ tokens keywordletters
          ['t', 'h', 'e', ' ', 'c', 'a', 't', ',', ' ', 'd', 'o', 'g'],
          IsStopWord (wordIndex catAndDog) 0 word
      | some set =>
        (∃ word ∈ tokens keywordletters ['t', 'h', 'e', ' ', 'c', 'a', 't', ',', ' ', 'd', 'o', 'g'],
          ¬IsStopWord (wordIndex catAndDog) 0 word) ∧
          CommonRecords 0 (wordIndex catAndDog) 0 (tokens keywordletters
            ['t', 'h', 'e', ' ', 'c', 'a', 't', ',', ' ', 'd', 'o', 'g']) set := by
  apply seBoolElement_words noPhrases 0 rfl wordFile_catAndDog (Or.inr rfl)
  · decide +kernel
  · decide +kernel
  · rw [tokens_theCatDog]
    decide
  · rw [tokens_theCatDog]
    simp only [List.mem_cons, List.not_mem_nil, or_false, forall_eq_or_imp, forall_eq]
    exact ⟨⟨none, rfl, by simp⟩, ⟨some ['c', 'a', 't'], rfl, by simp⟩,
      ⟨some ['d', 'o', 'g'], rfl, by simp⟩⟩

/-- A search for `the` alone has no result, although no record lacks a word that is not a stop word. -/
theorem seBoolElement_the :
    ¬∃ result, seBoolElement noPhrases 0 (wordIndex catAndDog) (some ['t', 'h', 'e']) 3 WORD_LIST 0 =
        .ok result ∧
      ∀ record, record ∈ result.elim [] WeightedResult.recordNums ↔
        InEveryWord 0 (wordIndex catAndDog) 0 (tokens keywordletters ['t', 'h', 'e']) record := by
  have hrun : (seBoolElement noPhrases 0 (wordIndex catAndDog) (some ['t', 'h', 'e']) 3 WORD_LIST
      0).map (Option.map WeightedResult.recordNums) = .ok none := by
    decide +kernel
  have htokens : tokens keywordletters ['t', 'h', 'e'] = [['t', 'h', 'e']] := by decide +kernel
  rintro ⟨result, hresult, hmem⟩
  rw [hresult] at hrun
  obtain rfl : result = none := Option.map_eq_none_iff.mp (Except.ok.inj hrun)
  refine List.not_mem_nil ((hmem 1).mpr ?_)
  rw [htokens]
  intro word hword hnot
  obtain rfl := List.mem_singleton.mp hword
  exact absurd ⟨rfl, rfl⟩ hnot

end Cheshire.Search
