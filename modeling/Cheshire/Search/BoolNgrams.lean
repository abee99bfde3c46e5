import Cheshire.Index.Ngrams
import Cheshire.Search.RankedMerge

/-!
# Searching an n-gram index

`se_boolngrams` cuts the words of a search string into n-grams, looks each up and counts for every
record how many of them it has.  A record comes into the count only while the pool of the word is
open; afterwards it is counted for every n-gram.  The records with more than half of the n-grams are
the result.

The n-grams that were looked up are kept in a list; `total_query_ngrams` is its length.
-/

namespace Cheshire.Search

open Lib Index FileIo

/-- The n-grams that a search leaves out: `_19`, `_18`, `_gt`, `gt_`, `_lt` and `lt_`. -/
def FILTER_NGRAMS : List Term :=
  [[95, 49, 57], [95, 49, 56], [95, 103, 116], [103, 116, 95], [95, 108, 116], [108, 116, 95]]

/-- Place `j` of the n-gram of a window; `beyond` is the memory behind the NUL of the word. -/
def queryChar (word : FileIo.CString) (beyond : ℕ → UInt8) (start j : ℕ) : UInt8 :=
  if start = 0 ∧ j = 0 then underscore
  else
    match word.bytes[j + start - 1]? with
    | some char => char
    | none =>
      if j + start - 1 = word.bytes.length ∨ beyond (j + start - 1) = 0 then underscore
      else beyond (j + start - 1)

/-- The state of a search: the hash table of the records, the term ids of the first n-grams that were
found, the n-grams that were looked up, and the pool of the present word. -/
structure NgramSearch where
  hash : Tally ℤ
  termidlist : List ℤ
  lookedUp : List Term
  basePool : ℤ

def NgramSearch.empty : NgramSearch := ⟨Tally.empty, [], [], 0⟩

/-- One entry of a posting list.  A negative record number is a deleted entry. -/
def countRecord (basePool : ℤ) (hash : Tally ℤ) (entry : IdxPostingEntry) : Tally ℤ :=
  if entry.recordNo > 0 ∧ (entry.recordNo ∈ hash.keys ∨ basePool > 0) then hash.bump entry.recordNo
  else hash

/-- The entries of the block that `se_getterm_idx` returns; it is allocated one entry longer than it
was stored. -/
def readEntries (result : IdxResult) : Exec (List IdxPostingEntry) :=
  (List.range result.numEntries.toNat).mapM (postingAt (result.entries ++ [IdxPostingEntry.zero]))

def lookUpNgram (idx : IdxListEntry) (s : NgramSearch) (ngram : Term) : Exec NgramSearch :=
  match idx.terms ngram with
  | none => .ok { s with lookedUp := s.lookedUp ++ [ngram] }
  | some result => do
    let entries ← readEntries result
    .ok {
      hash := entries.foldl (countRecord s.basePool) s.hash
      termidlist :=
        if s.termidlist.length < 100 then s.termidlist ++ [result.termid] else s.termidlist
      lookedUp := s.lookedUp ++ [ngram]
      basePool := s.basePool - 1 }

/-- The pool of a word of one character is closed. -/
def closePool (basePoolNum : ℤ) (word : FileIo.CString) (s : NgramSearch) : NgramSearch :=
  if s.basePool = basePoolNum ∧ word.bytes.length = 1 then { s with basePool := 0 } else s

section Words

variable (idx : IdxListEntry) (size : ℕ) (basePoolNum : ℤ)

def queryWindow (word : FileIo.CString) (beyond : ℕ → UInt8) (s : NgramSearch) (start : ℕ) :
    Exec NgramSearch :=
  let ngram := (List.range size).map (queryChar word beyond start)
  if ngram ∈ FILTER_NGRAMS then .ok s
  else
    if start + size ≤ word.bytes.length + 2 then
      lookUpNgram idx (closePool basePoolNum word s) ngram
    else .ok (closePool basePoolNum word s)

def queryWord (word : FileIo.CString) (beyond : ℕ → UInt8) (s : NgramSearch) : Exec NgramSearch :=
  if size < NGRAM_BUFFER then
    (List.range (word.bytes.length + 1)).foldlM (queryWindow idx size basePoolNum word beyond)
      { s with basePool := basePoolNum }
  else .error .outOfBounds

/-- The loop over the words; the memory behind the n-th word is `beyond n`. -/
def queryWords (normalizeKey : Term → Option FileIo.CString) (beyond : ℕ → ℕ → UInt8) :
    ℕ → List Term → NgramSearch → Exec NgramSearch
  | _, [], s => .ok s
  | number, word :: words, s => do
    let s ← match normalizeKey word with
      | none => .ok s
      | some resultWord => queryWord idx size basePoolNum resultWord (beyond number) s
    queryWords normalizeKey beyond (number + 1) words s

end Words

/-- A record of the hash table goes into the result if it has more than half of the n-grams. -/
def storeHit (total : ℕ) (wtRes : WeightedResult) (record : ℤ × ℕ) : Exec WeightedResult :=
  let tempwt : ℚ := record.2 / total
  if tempwt > 1 / 2 then
    match Buffer.store? wtRes.entries wtRes.numHits.toNat ⟨record.1, 0, tempwt⟩ with
    | none => .error .outOfBounds
    | some entries =>
      .ok { wtRes with
        entries := entries
        numHits := wtRes.numHits + 1
        maxWeight := if tempwt > wtRes.maxWeight then tempwt else wtRes.maxWeight
        minWeight := if tempwt < wtRes.minWeight then tempwt else wtRes.minWeight }
  else .ok wtRes

def newNgramResult (s : NgramSearch) : WeightedResult where
  setid := ""
  filename := ""
  resultType := 0
  component := none
  termid := s.termidlist
  numHits := 0
  resultWeight := 0
  maxWeight := 1
  minWeight := 1
  entries := Buffer.calloc WeightedEntry.zero (s.hash.entries.length + 1)

def ngramResult (s : NgramSearch) : Exec WeightedResult := do
  let wtRes ← s.hash.entries.foldlM (storeHit s.lookedUp.length) (newNgramResult s)
  .ok (seRankDocs wtRes)

def basePoolNum (relation : ℤ) : ℤ := if relation = 580 then 500 else 2

def seBoolngrams (normalizeKey : Term → Option FileIo.CString) (snowballStemType : ℤ) (idx : IdxListEntry)
    (beyond : ℕ → ℕ → UInt8) (insearchstring : Term) (relation : ℤ) :
    Exec (Option WeightedResult) :=
  let words := strtok KEYWORD_LETTERS insearchstring
  if words = [] then .ok none
  else do
    let s ← queryWords idx (ngramSize snowballStemType) (basePoolNum relation) normalizeKey beyond 0
      words NgramSearch.empty
    if (words.length : ℤ) - words.countP (fun word ↦ (normalizeKey word).isNone) ≤ 0 then .ok none
    else do
      let wtRes ← ngramResult s
      .ok (some wtRes)

end Cheshire.Search
