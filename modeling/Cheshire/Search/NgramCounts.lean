import Cheshire.Search.BoolNgrams

/-!
# What a search of an n-gram index counts

A search goes through the n-grams of its words in order; each comes with the state of the pool.  The
count of a record begins with the first n-gram of an open pool that lists the record, and goes on with
every later n-gram that does.
-/

namespace Cheshire.Search

open Lib Index FileIo

/-- The n-grams of a word that are looked up. -/
def queryNgrams (size : ℕ) (word : FileIo.CString) : List Term :=
  (wordNgrams size word).filter (· ∉ FILTER_NGRAMS)

/-- The n-grams of a word, each with whether the pool is open; an n-gram that is found takes one from
the pool. -/
def pooled (found : Term → Bool) : ℤ → List Term → List (Term × Bool)
  | _, [] => []
  | pool, ngram :: ngrams =>
    (ngram, decide (0 < pool)) :: pooled found (if found ngram then pool - 1 else pool) ngrams

theorem pooled_append (found : Term → Bool) (pool : ℤ) (first second : List Term) :
    pooled found pool (first ++ second) =
      pooled found pool first ++ pooled found (pool - first.countP found) second := by
  induction first generalizing pool with
  | nil => simp [pooled]
  | cons ngram first ih =>
    rw [List.cons_append, pooled, pooled, ih, List.cons_append, List.countP_cons]
    cases found ngram with
    | false => simp
    | true =>
      simp only [if_true, Nat.cast_add, Nat.cast_one]
      rw [sub_sub, add_comm (1 : ℤ)]

theorem map_fst_pooled (found : Term → Bool) (pool : ℤ) (ngrams : List Term) :
    (pooled found pool ngrams).map Prod.fst = ngrams := by
  induction ngrams generalizing pool with
  | nil => rfl
  | cons ngram ngrams ih => rw [pooled, List.map_cons, ih]

section Counts

variable (idx : IdxListEntry)

/-- Whether the index has an n-gram. -/
def isFound (ngram : Term) : Bool := (idx.terms ngram).isSome

/-- Whether a record is in the postings of an n-gram. -/
def lists (record : ℤ) (ngram : Term) : Bool :=
  (idx.terms ngram).any fun block ↦ block.postings.any fun posting ↦ posting.recordNo = record

/-- The n-grams of a word as they are looked up; the pool of a word of one character is closed. -/
def wordSteps (size : ℕ) (basePoolNum : ℤ) (word : FileIo.CString) : List (Term × Bool) :=
  pooled (isFound idx) (if word.bytes.length = 1 then 0 else basePoolNum) (queryNgrams size word)

/-- The number of n-grams with the record, from the first in an open pool on. -/
def weightOf (steps : List (Term × Bool)) (record : ℤ) : ℕ :=
  (steps.dropWhile fun step ↦ !(step.2 && lists idx record step.1)).countP
    fun step ↦ lists idx record step.1

variable {idx}

theorem weightOf_cons_of_not {step : Term × Bool} {record : ℤ}
    (hstep : ¬(step.2 = true ∧ lists idx record step.1 = true)) (steps : List (Term × Bool)) :
    weightOf idx (step :: steps) record = weightOf idx steps record := by
  have hskip : (!(step.2 && lists idx record step.1)) = true := by
    rw [Bool.not_eq_true', ← Bool.not_eq_true, Bool.and_eq_true]
    exact hstep
  rw [weightOf, List.dropWhile_cons, if_pos hskip]
  rfl

theorem weightOf_cons_of_and {step : Term × Bool} {record : ℤ}
    (hstep : step.2 = true ∧ lists idx record step.1 = true) (steps : List (Term × Bool)) :
    weightOf idx (step :: steps) record =
      (step :: steps).countP fun step ↦ lists idx record step.1 := by
  rw [weightOf, List.dropWhile_cons_of_neg (by simp [hstep])]

theorem weightOf_pos_iff (steps : List (Term × Bool)) (record : ℤ) :
    0 < weightOf idx steps record ↔ ∃ step ∈ steps, step.2 = true ∧ lists idx record step.1 = true := by
  induction steps with
  | nil => simp [weightOf]
  | cons step steps ih =>
    by_cases hstep : step.2 = true ∧ lists idx record step.1 = true
    · rw [weightOf_cons_of_and hstep]
      simp [hstep]
    · rw [weightOf_cons_of_not hstep, ih]
      simp [hstep]

theorem weightOf_append (steps : List (Term × Bool)) (step : Term × Bool) (record : ℤ) :
    weightOf idx (steps ++ [step]) record = weightOf idx steps record +
      if lists idx record step.1 = true ∧ (0 < weightOf idx steps record ∨ step.2 = true) then 1
      else 0 := by
  induction steps with
  | nil =>
    by_cases hstep : step.2 = true ∧ lists idx record step.1 = true
    · rw [List.nil_append, weightOf_cons_of_and hstep]
      simp [weightOf, hstep]
    · rw [List.nil_append, weightOf_cons_of_not hstep]
      have hclosed : ¬(lists idx record step.1 = true ∧
          (0 < weightOf idx [] record ∨ step.2 = true)) := by
        intro h
        rcases h.2 with hpos | hopen
        · exact Nat.lt_irrefl 0 hpos
        · exact hstep ⟨hopen, h.1⟩
      rw [if_neg hclosed, Nat.add_zero]
  | cons first steps ih =>
    by_cases hfirst : first.2 = true ∧ lists idx record first.1 = true
    · have hpos : 0 < weightOf idx (first :: steps) record :=
        (weightOf_pos_iff _ _).mpr ⟨first, List.mem_cons_self, hfirst⟩
      rw [List.cons_append, weightOf_cons_of_and hfirst, ← List.cons_append, List.countP_append,
        ← weightOf_cons_of_and hfirst]
      simp [hpos, List.countP_cons]
    · rw [List.cons_append, weightOf_cons_of_not hfirst, weightOf_cons_of_not hfirst, ih]

theorem get_countRecords {basePool : ℤ} {entries : List IdxPostingEntry}
    (hnodup : (entries.map IdxPostingEntry.recordNo).Nodup) (hash : Tally ℤ) (record : ℤ) :
    (entries.foldl (countRecord basePool) hash).get record = hash.get record +
      if 0 < record ∧ record ∈ entries.map IdxPostingEntry.recordNo ∧
        (0 < hash.get record ∨ 0 < basePool) then 1 else 0 := by
  induction entries generalizing hash with
  | nil => simp
  | cons entry entries ih =>
    rw [List.map_cons, List.nodup_cons] at hnodup
    have hfirst : (countRecord basePool hash entry).get record = hash.get record +
        if 0 < record ∧ record = entry.recordNo ∧ (0 < hash.get record ∨ 0 < basePool) then 1
        else 0 := by
      rw [countRecord]
      by_cases heq : record = entry.recordNo
      · subst heq
        simp only [Tally.mem_keys_iff]
        split
        · next hcount => rw [Tally.get_bump, if_pos rfl, if_pos ⟨hcount.1, trivial, hcount.2⟩]
        · next hcount => rw [if_neg fun h ↦ hcount ⟨h.1, h.2.2⟩, Nat.add_zero]
      · split
        · simp [Tally.get_bump, heq]
        · simp [heq]
    rw [List.foldl_cons, ih hnodup.2, hfirst]
    by_cases heq : record = entry.recordNo
    · subst heq
      simp [hnodup.1]
    · simp [heq]

/-- Each term lists its records once, in a block that holds all its postings. -/
structure Distinct (idx : IdxListEntry) : Prop where
  sound : ∀ ngram block, idx.terms ngram = some block → block.Sound
  nodup : ∀ ngram block, idx.terms ngram = some block →
    (block.postings.map IdxPostingEntry.recordNo).Nodup

theorem readEntries_of_sound {block : IdxResult} (h : block.Sound) :
    readEntries block = .ok block.postings := by
  have hstored := h.stored
  have hitems : ∀ i ∈ List.range block.numEntries.toNat,
      postingAt (block.entries ++ [IdxPostingEntry.zero]) i =
        .ok (block.entries.getD i IdxPostingEntry.zero) := by
    intro i hi
    have hlt : i < block.entries.length := lt_of_lt_of_le (List.mem_range.mp hi) hstored
    rw [postingAt, List.getElem?_append_left hlt, List.getElem?_eq_getElem hlt]
    simp [hlt]
  rw [readEntries, mapM_ok _ hitems]
  congr 1
  apply List.ext_getElem?
  intro i
  rw [IdxResult.postings, List.getElem?_map, List.getElem?_take]
  by_cases hi : i < block.numEntries.toNat
  · have hlt : i < block.entries.length := lt_of_lt_of_le hi hstored
    rw [if_pos hi, List.getElem?_range hi, Option.map_some, List.getElem?_eq_getElem hlt]
    simp [hlt]
  · rw [if_neg hi, List.getElem?_eq_none (by simpa using hi), Option.map_none]

theorem lists_iff {ngram : Term} {block : IdxResult} (hblock : idx.terms ngram = some block)
    (record : ℤ) :
    lists idx record ngram = true ↔ record ∈ block.postings.map IdxPostingEntry.recordNo := by
  rw [lists, hblock, Option.any_some, List.any_eq_true, List.mem_map]
  simp

/-- The search has looked up these n-grams and counted the records for them. -/
structure Counted (idx : IdxListEntry) (steps : List (Term × Bool)) (s : NgramSearch) : Prop where
  lookedUp : s.lookedUp = steps.map Prod.fst
  hash : ∀ record, s.hash.get record = if 0 < record then weightOf idx steps record else 0

theorem counted_empty : Counted idx [] NgramSearch.empty where
  lookedUp := rfl
  hash record := by simp [NgramSearch.empty, weightOf]

variable {steps : List (Term × Bool)} {s : NgramSearch}

theorem Counted.congr {s' : NgramSearch} (h : Counted idx steps s) (hhash : s'.hash = s.hash)
    (hlookedUp : s'.lookedUp = s.lookedUp) : Counted idx steps s' where
  lookedUp := hlookedUp.trans h.lookedUp
  hash record := by rw [hhash, h.hash]

theorem lookUpNgram_spec (hidx : Distinct idx) (h : Counted idx steps s) (ngram : Term) :
    ∃ next, lookUpNgram idx s ngram = .ok next ∧
      Counted idx (steps ++ [(ngram, decide (0 < s.basePool))]) next ∧
      next.basePool = if isFound idx ngram then s.basePool - 1 else s.basePool := by
  unfold lookUpNgram
  cases hblock : idx.terms ngram with
  | none =>
    refine ⟨_, rfl, ⟨?_, ?_⟩, ?_⟩
    · simp [h.lookedUp]
    · intro record
      have hlists : ¬lists idx record ngram = true := by simp [lists, hblock]
      simpa [weightOf_append, hlists] using h.hash record
    · simp [isFound, hblock]
  | some block =>
    simp only [readEntries_of_sound (hidx.sound ngram block hblock)]
    refine ⟨_, rfl, ⟨?_, ?_⟩, ?_⟩
    · simp [h.lookedUp]
    · intro record
      simp only [get_countRecords (hidx.nodup ngram block hblock), h.hash record, weightOf_append,
        ← lists_iff hblock record, decide_eq_true_eq]
      by_cases hpos : 0 < record
      · simp only [hpos, if_true, true_and]
      · simp [hpos]
    · simp [isFound, hblock]

/-- A pool after it has been closed where it has to be. -/
def closedPool (basePoolNum : ℤ) (word : FileIo.CString) (pool : ℤ) : ℤ :=
  if pool = basePoolNum ∧ word.bytes.length = 1 then 0 else pool

variable {size : ℕ} {basePoolNum pool : ℤ} {word : FileIo.CString}

theorem basePool_closePool :
    (closePool basePoolNum word s).basePool = closedPool basePoolNum word s.basePool := by
  rw [closePool, closedPool]
  split <;> rfl

theorem Counted.closePool (h : Counted idx steps s) :
    Counted idx steps (closePool basePoolNum word s) := by
  unfold Search.closePool
  split
  · exact h.congr rfl rfl
  · exact h

theorem closedPool_of_lt (h : pool < basePoolNum) : closedPool basePoolNum word pool = pool := by
  rw [closedPool, if_neg fun hfull ↦ h.ne hfull.1]

theorem closedPool_closedPool (hpos : 0 < basePoolNum) :
    closedPool basePoolNum word (closedPool basePoolNum word pool) =
      closedPool basePoolNum word pool := by
  by_cases hfull : pool = basePoolNum ∧ word.bytes.length = 1
  · have hclosed : closedPool basePoolNum word pool = 0 := by rw [closedPool, if_pos hfull]
    rw [hclosed, closedPool_of_lt hpos]
  · have hopen : closedPool basePoolNum word pool = pool := by rw [closedPool, if_neg hfull]
    rw [hopen, hopen]

theorem closedPool_le (hle : pool ≤ basePoolNum) (hpos : 0 < basePoolNum) :
    closedPool basePoolNum word pool ≤ basePoolNum := by
  rw [closedPool]
  split
  · exact hpos.le
  · exact hle

theorem map_queryChar {start : ℕ} (hfits : start + size ≤ word.bytes.length + 2)
    (beyond : ℕ → UInt8) :
    (List.range size).map (queryChar word beyond start) = window size start (padded word) := by
  apply map_range_eq_window
  intro j hj
  rw [getElem?_padded, queryChar, Nat.add_comm j start]
  by_cases hfirst : start = 0 ∧ j = 0
  · rw [if_pos hfirst, if_pos (by omega)]
  · rw [if_neg hfirst, if_neg (by omega)]
    cases hchar : word.bytes[start + j - 1]? with
    | some char => rfl
    | none =>
      rw [List.getElem?_eq_none_iff] at hchar
      have hlast : start + j - 1 = word.bytes.length := by omega
      simp only [hlast, if_true, true_or]

/-- The n-grams of some windows that are looked up. -/
def windowNgrams (size : ℕ) (word : FileIo.CString) (starts : List ℕ) : List Term :=
  ((starts.filter fun start ↦ start + size ≤ word.bytes.length + 2).map fun start ↦
    window size start (padded word)).filter (· ∉ FILTER_NGRAMS)

/-- The search has counted these n-grams, and the pool of the present word has this state. -/
structure InWord (idx : IdxListEntry) (basePoolNum : ℤ) (word : FileIo.CString)
    (steps : List (Term × Bool)) (pool : ℤ) (s : NgramSearch) : Prop where
  counted : Counted idx steps s
  basePool_le : s.basePool ≤ basePoolNum
  pool_eq : closedPool basePoolNum word s.basePool = pool

theorem InWord.closePool (hpos : 0 < basePoolNum) (h : InWord idx basePoolNum word steps pool s) :
    InWord idx basePoolNum word steps pool (closePool basePoolNum word s) where
  counted := h.counted.closePool
  basePool_le := by
    rw [basePool_closePool]
    exact closedPool_le h.basePool_le hpos
  pool_eq := by rw [basePool_closePool, closedPool_closedPool hpos, h.pool_eq]

theorem InWord.lookUpNgram (hidx : Distinct idx) (hpos : 0 < basePoolNum)
    (h : InWord idx basePoolNum word steps pool s) (ngram : Term) :
    ∃ next, lookUpNgram idx (Search.closePool basePoolNum word s) ngram = .ok next ∧
      InWord idx basePoolNum word (steps ++ pooled (isFound idx) pool [ngram])
        (pool - [ngram].countP (isFound idx)) next := by
  have hclosed := h.closePool hpos
  have hpool : (Search.closePool basePoolNum word s).basePool = pool := by
    rw [basePool_closePool, h.pool_eq]
  have hle := hclosed.basePool_le
  obtain ⟨next, hnext, hcounted, hbase⟩ := lookUpNgram_spec hidx hclosed.counted ngram
  rw [hpool] at hcounted hbase hle
  refine ⟨next, hnext, hcounted, ?_, ?_⟩
  · rw [hbase]
    split <;> omega
  · cases hfound : isFound idx ngram with
    | true =>
      rw [hbase, hfound, if_pos rfl, closedPool_of_lt (by omega)]
      simp [hfound]
    | false =>
      rw [hbase, hfound, if_neg Bool.false_ne_true, ← hpool, hclosed.pool_eq]
      simp [hfound, hpool]

theorem queryWindow_spec (size : ℕ) (hidx : Distinct idx) (hpos : 0 < basePoolNum)
    (h : InWord idx basePoolNum word steps pool s) (beyond : ℕ → UInt8) (start : ℕ) :
    ∃ next, queryWindow idx size basePoolNum word beyond s start = .ok next ∧
      InWord idx basePoolNum word
        (steps ++ pooled (isFound idx) pool (windowNgrams size word [start]))
        (pool - (windowNgrams size word [start]).countP (isFound idx)) next := by
  by_cases hfits : start + size ≤ word.bytes.length + 2
  · rw [queryWindow, map_queryChar hfits]
    by_cases hfilter : window size start (padded word) ∈ FILTER_NGRAMS
    · refine ⟨s, by simp only [hfilter, if_true], ?_⟩
      simpa [windowNgrams, hfits, hfilter, pooled] using h
    · obtain ⟨next, hnext, hdone⟩ :=
        h.lookUpNgram hidx hpos (window size start (padded word))
      refine ⟨next, by simp only [hfilter, hfits, if_true, if_false, hnext], ?_⟩
      have hngrams : windowNgrams size word [start] = [window size start (padded word)] := by
        simp [windowNgrams, hfits, hfilter]
      rwa [hngrams]
  · have hngrams : windowNgrams size word [start] = [] := by simp [windowNgrams, hfits]
    rw [hngrams, queryWindow]
    by_cases hfilter : (List.range size).map (queryChar word beyond start) ∈ FILTER_NGRAMS
    · refine ⟨s, by simp only [hfilter, if_true], ?_⟩
      simpa [pooled] using h
    · refine ⟨Search.closePool basePoolNum word s, by simp only [hfilter, hfits, if_false], ?_⟩
      simpa [pooled] using h.closePool hpos

theorem queryWindows_spec (size : ℕ) (hidx : Distinct idx) (hpos : 0 < basePoolNum) (beyond : ℕ → UInt8)
    (starts : List ℕ) (h : InWord idx basePoolNum word steps pool s) :
    ∃ next, starts.foldlM (queryWindow idx size basePoolNum word beyond) s = .ok next ∧
      Counted idx (steps ++ pooled (isFound idx) pool (windowNgrams size word starts)) next := by
  induction starts generalizing s steps pool with
  | nil => exact ⟨s, rfl, by simpa [windowNgrams, pooled] using h.counted⟩
  | cons start starts ih =>
    obtain ⟨first, hfirst, hdone⟩ := queryWindow_spec size hidx hpos h beyond start
    obtain ⟨next, hnext, hcounted⟩ := ih hdone
    have happend : windowNgrams size word (start :: starts) =
        windowNgrams size word [start] ++ windowNgrams size word starts := by
      rw [windowNgrams, windowNgrams, windowNgrams, ← List.filter_append, ← List.map_append,
        ← List.filter_append, List.singleton_append]
    refine ⟨next, ?_, ?_⟩
    · rw [List.foldlM_cons, hfirst]
      exact hnext
    · rwa [happend, pooled_append, ← List.append_assoc]

theorem queryWord_spec (hidx : Distinct idx) (hpos : 0 < basePoolNum) (hsize : 2 ≤ size)
    (hbuffer : size < NGRAM_BUFFER) (beyond : ℕ → UInt8) (word : FileIo.CString)
    (h : Counted idx steps s) :
    ∃ next, queryWord idx size basePoolNum word beyond s = .ok next ∧
      Counted idx (steps ++ wordSteps idx size basePoolNum word) next := by
  have hstart : InWord idx basePoolNum word steps
      (if word.bytes.length = 1 then 0 else basePoolNum) { s with basePool := basePoolNum } :=
    ⟨h.congr rfl rfl, le_rfl, by simp [closedPool]⟩
  rw [queryWord, if_pos hbuffer]
  obtain ⟨next, hnext, hcounted⟩ :=
    queryWindows_spec size hidx hpos beyond (List.range (word.bytes.length + 1)) hstart
  refine ⟨next, hnext, ?_⟩
  rwa [windowNgrams, filter_range_fits hsize] at hcounted

section Queries

variable (normalizeKey : Term → Option FileIo.CString)

/-- The n-grams of a list of words as they are looked up. -/
def wordsSteps (idx : IdxListEntry) (size : ℕ) (basePoolNum : ℤ) (words : List Term) :
    List (Term × Bool) :=
  (words.filterMap normalizeKey).flatMap (wordSteps idx size basePoolNum)

theorem queryWords_spec (hidx : Distinct idx) (hpos : 0 < basePoolNum) (hsize : 2 ≤ size)
    (hbuffer : size < NGRAM_BUFFER) (beyond : ℕ → ℕ → UInt8) (words : List Term) (number : ℕ)
    (h : Counted idx steps s) :
    ∃ next, queryWords idx size basePoolNum normalizeKey beyond number words s = .ok next ∧
      Counted idx (steps ++ wordsSteps normalizeKey idx size basePoolNum words) next := by
  induction words generalizing s steps number with
  | nil => exact ⟨s, rfl, by simpa [wordsSteps] using h⟩
  | cons word words ih =>
    cases hword : normalizeKey word with
    | none =>
      obtain ⟨next, hnext, hcounted⟩ := ih (number + 1) h
      refine ⟨next, ?_, ?_⟩
      · simp only [queryWords, hword]
        exact hnext
      · simpa [wordsSteps, hword] using hcounted
    | some resultWord =>
      obtain ⟨first, hfirst, hcounted⟩ :=
        queryWord_spec hidx hpos hsize hbuffer (beyond number) resultWord h
      obtain ⟨next, hnext, hrest⟩ := ih (number + 1) hcounted
      refine ⟨next, ?_, ?_⟩
      · simp only [queryWords, hword, hfirst]
        exact hnext
      · simpa [wordsSteps, hword, List.append_assoc] using hrest

end Queries

end Counts

end Cheshire.Search
