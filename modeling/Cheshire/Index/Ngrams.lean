import Cheshire.FileIo.RecordStore
import Cheshire.Index.PostingHistory
import Cheshire.Lib.Tally
import Cheshire.Lib.Window

/-!
# The n-grams of a record

An n-gram index stores, instead of the words of a record, the strings of `ngram_size` characters in
them, where the character before and the one behind a word is an underscore.  The words are cut and
normalized as for any other index; the normalization of the index is a parameter.

The windows of a word are numbered from its beginning: window `start` is the pass with `i = start - 1`.
-/

namespace Cheshire.Index

open Lib FileIo

/-- `keywordletters`: white space, and the printable characters from the grave accent to the slash in
the order of the source. -/
def KEYWORD_LETTERS : Term :=
  [32, 9, 10, 13, 7, 8, 11, 12, 96, 126, 33, 64, 35, 36, 37, 94, 38, 42, 40, 41, 95, 61, 124, 92, 123,
    91, 93, 125, 59, 58, 39, 34, 44, 60, 62, 63, 47]

/-- All the results of `strtok_r`. -/
def strtok (breakletters text : Term) : List Term :=
  (text.splitOnP (· ∈ breakletters)).filter (· ≠ [])

/-- Two hyphens become two blanks. -/
def blankDashes : Term → Term
  | 45 :: 45 :: rest => 32 :: 32 :: blankDashes rest
  | c :: rest => c :: blankDashes rest
  | [] => []

/-- `ngram_size`; the configuration gives 3, 4 or 5. -/
def ngramSize (snowballStemType : ℤ) : ℕ :=
  if snowballStemType > 1 then snowballStemType.toNat else 3

/-- `sizeof(ngram)` -/
def NGRAM_BUFFER : ℕ := 10

def underscore : UInt8 := 95

/-- What a pass of `idxngram` leaves in place `j` of `ngram`: behind the NUL of the word it keeps what
was there. -/
def indexChar (word : FileIo.CString) (ngram : Term) (start j : ℕ) : UInt8 :=
  if start = 0 ∧ j = 0 then underscore
  else
    match word.bytes[j + start - 1]? with
    | some char => char
    | none => if j + start - 1 = word.bytes.length then underscore else ngram.getD j 0

/-- The hash table and the buffer `ngram`, which is that of all words. -/
structure NgramTable where
  hash : Tally Term
  ngram : Term

def NgramTable.empty : NgramTable := ⟨Tally.empty, List.replicate NGRAM_BUFFER 0⟩

def indexWindow (size : ℕ) (word : FileIo.CString) (table : NgramTable) (start : ℕ) : NgramTable :=
  let ngram := (List.range size).map (indexChar word table.ngram start)
  ⟨if start + size ≤ word.bytes.length + 2 then table.hash.bump ngram else table.hash, ngram⟩

/-- The loop over the windows of a word.  The buffer must have room for the NUL behind an n-gram. -/
def indexWord (size : ℕ) (table : NgramTable) (word : FileIo.CString) : Exec NgramTable :=
  if size < NGRAM_BUFFER then
    .ok ((List.range (word.bytes.length + 1)).foldl (indexWindow size word) table)
  else .error .outOfBounds

/-- `idxngram`, of the text without tags. -/
def idxngram (normalizeKey : Term → Option FileIo.CString) (size : ℕ) (hash : Tally Term)
    (databuf : Term) : Exec (Tally Term) := do
  let words := (strtok KEYWORD_LETTERS (blankDashes databuf)).filterMap normalizeKey
  let table ← words.foldlM (indexWord size) ⟨hash, NgramTable.empty.ngram⟩
  .ok table.hash

/-- A word between underscores. -/
def padded (word : FileIo.CString) : Term := underscore :: word.bytes ++ [underscore]

/-- The windows of a word between underscores. -/
def wordNgrams (size : ℕ) (word : FileIo.CString) : List Term :=
  (List.range (word.bytes.length + 3 - size)).map fun start ↦ window size start (padded word)

theorem getElem?_padded (word : FileIo.CString) (place : ℕ) : (padded word)[place]? =
    if place = 0 then some underscore
    else
      match word.bytes[place - 1]? with
      | some char => some char
      | none => if place - 1 = word.bytes.length then some underscore else none := by
  cases place with
  | zero => rfl
  | succ place =>
    rw [padded, List.cons_append, List.getElem?_cons_succ, if_neg (Nat.succ_ne_zero place),
      Nat.add_sub_cancel, List.getElem?_append]
    split
    · next hlt => rw [List.getElem?_eq_getElem hlt]
    · next hge =>
      rw [List.getElem?_eq_none (not_lt.mp hge)]
      by_cases hlast : place = word.bytes.length
      · simp [hlast]
      · rw [if_neg hlast]
        apply List.getElem?_eq_none
        rw [List.length_singleton]
        omega

theorem map_range_eq_window {size start : ℕ} {text : Term} {char : ℕ → UInt8}
    (hchar : ∀ j < size, text[start + j]? = some (char j)) :
    (List.range size).map char = window size start text := by
  apply List.ext_getElem?
  intro j
  rw [window, List.getElem?_map, List.getElem?_take, List.getElem?_drop]
  by_cases hj : j < size
  · rw [if_pos hj, hchar j hj, List.getElem?_range hj, Option.map_some]
  · rw [if_neg hj, List.getElem?_eq_none (by simpa using hj), Option.map_none]

theorem map_indexChar {size start : ℕ} {word : FileIo.CString}
    (hfits : start + size ≤ word.bytes.length + 2) (ngram : Term) :
    (List.range size).map (indexChar word ngram start) = window size start (padded word) := by
  apply map_range_eq_window
  intro j hj
  rw [getElem?_padded, indexChar, Nat.add_comm j start]
  by_cases hfirst : start = 0 ∧ j = 0
  · rw [if_pos hfirst, if_pos (by omega)]
  · rw [if_neg hfirst, if_neg (by omega)]
    cases hchar : word.bytes[start + j - 1]? with
    | some char => rfl
    | none =>
      rw [List.getElem?_eq_none_iff] at hchar
      have hlast : start + j - 1 = word.bytes.length := by omega
      simp only [hlast, if_true]

theorem filter_range_fits {size : ℕ} (hsize : 2 ≤ size) (length : ℕ) :
    (List.range (length + 1)).filter (fun start ↦ start + size ≤ length + 2) =
      List.range (length + 3 - size) := by
  obtain ⟨rest, hrest⟩ : ∃ rest, length + 1 = (length + 3 - size) + rest :=
    ⟨length + 1 - (length + 3 - size), by omega⟩
  rw [hrest, List.range_add, List.filter_append]
  have hfirst : (List.range (length + 3 - size)).filter
      (fun start ↦ start + size ≤ length + 2) = List.range (length + 3 - size) := by
    rw [List.filter_eq_self]
    intro start hstart
    rw [List.mem_range] at hstart
    simp only [decide_eq_true_eq]
    omega
  have hlast : ((List.range rest).map (length + 3 - size + ·)).filter
      (fun start ↦ start + size ≤ length + 2) = [] := by
    rw [List.filter_eq_nil_iff]
    intro start hstart
    obtain ⟨place, -, rfl⟩ := List.mem_map.mp hstart
    simp only [decide_eq_true_eq]
    omega
  rw [hfirst, hlast, List.append_nil]

theorem indexWord_spec {size : ℕ} (hsize : 2 ≤ size) (hbuffer : size < NGRAM_BUFFER)
    (table : NgramTable) (word : FileIo.CString) : ∃ next, indexWord size table word = .ok next ∧
      next.hash = (wordNgrams size word).foldl Tally.bump table.hash := by
  refine ⟨_, if_pos hbuffer, ?_⟩
  rw [wordNgrams, List.foldl_map, ← filter_range_fits hsize, List.foldl_filter]
  generalize List.range (word.bytes.length + 1) = starts
  induction starts generalizing table with
  | nil => rfl
  | cons start starts ih =>
    rw [List.foldl_cons, List.foldl_cons, ih]
    congr 1
    by_cases hfits : start + size ≤ word.bytes.length + 2
    · simp only [indexWindow, hfits, if_true, decide_true, map_indexChar hfits]
    · simp only [indexWindow, hfits, if_false, decide_false, Bool.false_eq_true]

theorem nodup_ngramTerms (hash : Tally Term) :
    ((hash.entries.map fun entry ↦ (entry.1, (⟨entry.2, []⟩ : HtData))).map Prod.fst).Nodup := by
  rw [List.map_map]
  exact hash.nodup

/-- The terms of a hash table as they are added to the index. -/
def ngramHash (hash : Tally Term) : TermHash where
  entries := hash.entries.map fun entry ↦ (entry.1, ⟨entry.2, []⟩)
  nodup := nodup_ngramTerms hash

section Records

variable (normalizeKey : Term → Option FileIo.CString) (size : ℕ)

/-- A record with the texts that its index entry is made from. -/
abbrev NgramDoc := RecordNumber × List Term

/-- The extraction and the addition of one record. -/
def addNgrams (idx : IdxListEntry) (doc : NgramDoc) : Exec IdxListEntry := do
  let hash ← doc.2.foldlM (idxngram normalizeKey size) Tally.empty
  inKwadd idx doc.1 (ngramHash hash)

/-- An n-gram index that is built from nothing. -/
def buildNgrams (idxType : ℕ) (docs : List NgramDoc) : Exec IdxListEntry :=
  docs.foldlM (addNgrams normalizeKey size) (IdxListEntry.created idxType)

def textNgrams (databuf : Term) : List Term :=
  ((strtok KEYWORD_LETTERS (blankDashes databuf)).filterMap normalizeKey).flatMap (wordNgrams size)

def docNgrams (doc : NgramDoc) : List Term := doc.2.flatMap (textNgrams normalizeKey size)

/-- The records as they should be in the index. -/
def liveNgrams (docs : List NgramDoc) : Live :=
  docs.map fun doc ↦ (doc.1, ngramHash ((docNgrams normalizeKey size doc).foldl Tally.bump
    Tally.empty))

variable {size} (hsize : 2 ≤ size) (hbuffer : size < NGRAM_BUFFER)

include hsize hbuffer

theorem indexWords_spec (words : List FileIo.CString) (table : NgramTable) :
    ∃ next, words.foldlM (indexWord size) table = .ok next ∧
      next.hash = (words.flatMap (wordNgrams size)).foldl Tally.bump table.hash := by
  induction words generalizing table with
  | nil => exact ⟨table, rfl, rfl⟩
  | cons word words ih =>
    obtain ⟨first, hfirst, hhash⟩ := indexWord_spec hsize hbuffer table word
    obtain ⟨next, hnext, hrest⟩ := ih first
    refine ⟨next, ?_, ?_⟩
    · rw [List.foldlM_cons, hfirst]
      exact hnext
    · rw [hrest, hhash, List.flatMap_cons, List.foldl_append]

theorem idxngram_spec (hash : Tally Term) (databuf : Term) :
    idxngram normalizeKey size hash databuf =
      .ok ((textNgrams normalizeKey size databuf).foldl Tally.bump hash) := by
  obtain ⟨next, hnext, hhash⟩ := indexWords_spec hsize hbuffer
    ((strtok KEYWORD_LETTERS (blankDashes databuf)).filterMap normalizeKey)
    ⟨hash, NgramTable.empty.ngram⟩
  rw [idxngram, hnext, textNgrams, ← hhash]
  rfl

theorem foldlM_idxngram (texts : List Term) (hash : Tally Term) :
    texts.foldlM (idxngram normalizeKey size) hash =
      .ok ((texts.flatMap (textNgrams normalizeKey size)).foldl Tally.bump hash) := by
  induction texts generalizing hash with
  | nil => rfl
  | cons text texts ih =>
    rw [List.foldlM_cons, idxngram_spec normalizeKey hsize hbuffer, List.flatMap_cons,
      List.foldl_append]
    exact ih _

theorem addNgrams_exact {idx : IdxListEntry} {live : Live} (h : Exact idx live) (doc : NgramDoc) :
    ∃ next, addNgrams normalizeKey size idx doc = .ok next ∧
      Exact next (live ++ liveNgrams normalizeKey size [doc]) := by
  obtain ⟨next, hadd, hexact⟩ := h.add doc.1
    (ngramHash ((docNgrams normalizeKey size doc).foldl Tally.bump Tally.empty))
  refine ⟨next, ?_, hexact⟩
  rw [addNgrams, foldlM_idxngram normalizeKey hsize hbuffer]
  exact hadd

theorem foldlM_addNgrams_exact (docs : List NgramDoc) {idx : IdxListEntry} {live : Live}
    (h : Exact idx live) : ∃ next, docs.foldlM (addNgrams normalizeKey size) idx = .ok next ∧
      Exact next (live ++ liveNgrams normalizeKey size docs) := by
  induction docs generalizing idx live with
  | nil => exact ⟨idx, rfl, by rwa [liveNgrams, List.map_nil, List.append_nil]⟩
  | cons doc docs ih =>
    obtain ⟨first, hfirst, hexact⟩ := addNgrams_exact normalizeKey hsize hbuffer h doc
    obtain ⟨next, hnext, hrest⟩ := ih hexact
    refine ⟨next, ?_, ?_⟩
    · rw [List.foldlM_cons, hfirst]
      exact hnext
    · rw [List.append_assoc] at hrest
      exact hrest

theorem buildNgrams_exact {idxType : ℕ} (hinverted : Inverted (IdxListEntry.created idxType))
    (docs : List NgramDoc) : ∃ idx, buildNgrams normalizeKey size idxType docs = .ok idx ∧
      Exact idx (liveNgrams normalizeKey size docs) :=
  foldlM_addNgrams_exact normalizeKey hsize hbuffer docs (exact_created idxType hinverted)

end Records

end Cheshire.Index
