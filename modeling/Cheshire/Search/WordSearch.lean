import Cheshire.Search.NotEqual
import Cheshire.Search.ProximityMerge
import Cheshire.Search.Truncation

/-!
# Searching a list of words

`se_bool_element` cuts a search string into words, looks each one up and counts for every record in how
many of the postings it is.  Only the first word that is found enters records into the hash table.  The
records that are counted for every word but the stop words are the result.  A `$` at the front and at the
end of words marks a phrase, whose records are tested for proximity.

The searches for phrases and for single keys, and the test for proximity, are parameters.  The sums of
the frequencies are not read here.
-/

namespace Cheshire.Search

open Lib Index

def EXACTKEY : ℕ := 1 <<< 2
def KEYWORD : ℕ := 1 <<< 3
def URL_KEY : ℕ := 1 <<< 18
def FILENAME_KEY : ℕ := 1 <<< 19

def PHRASE : ℤ := 1
def WORD_LIST : ℤ := 6

def RIGHT_TRUNC : ℤ := 1
def PROCESS_POUND : ℤ := 101

def chars (codes : List ℕ) : List Char := codes.map Char.ofNat

/-- `keywordphraseletters`, which leave the `$` to the words. -/
def keywordphraseletters : List Char :=
  chars [32, 9, 10, 96, 126, 33, 64, 37, 94, 38, 42, 40, 41, 95, 61, 124, 92, 123, 91, 93, 125, 59, 58,
    39, 34, 44, 60, 62, 63, 47]

def keywordletters : List Char := '$' :: keywordphraseletters

/-- `urlletters` and `filenameletters` -/
def urlletters : List Char := chars [32, 9, 10, 60, 62]

/-- The break letters of an index; there may be none. -/
def breakletters (idxType : ℕ) : Option (List Char) :=
  if hasFlag idxType FILENAME_KEY || hasFlag idxType URL_KEY then some urlletters
  else if hasFlag idxType KEYWORD then
    if hasFlag idxType PROXIMITY then some keywordphraseletters else some keywordletters
  else none

/-- All the results of `strtok_r`. -/
def tokens (letters text : List Char) : List (List Char) :=
  (text.splitOnP (· ∈ letters)).filter (· ≠ [])

/-- `se_getterm_idx` of a word that is to be normalised, and what it adds to `search_stopword_count`. -/
def seGettermIdx (idx : RangeIndex) (searchstring : List Char) : Exec (Option IdxResult × ℤ) :=
  match idx.db with
  | none => .ok (none, 0)
  | some pairs => do
    let wordPtr ← normalizeKey idx.routines idx.idxType searchstring
    match wordPtr with
    | none => .ok (none, 1)
    | some key =>
      match pairs.lookup key with
      | none => .ok (none, 0)
      | some (.postings newinfo) => .ok (some newinfo, 0)
      | some (.globalData _) => .error .outOfBounds

def isTruncated (truncation : ℤ) (word : List Char) : Bool :=
  truncation = PROCESS_POUND ∧ '#' ∈ word ∨ truncation = RIGHT_TRUNC

def lookUpWord (fuel : ℕ) (idx : RangeIndex) (truncation : ℤ) (word : List Char) :
    Exec (Option IdxResult × ℤ) :=
  if isTruncated truncation word then do
    let indexResult ← seGettruncIdx fuel (some idx) word
    .ok (indexResult, 0)
  else seGettermIdx idx word

/-- `phrase_prox_matching`, `last_phrase_prox_term`, `phrase_prox_length`, and `proxtermidlist` with
`proxtermlength`. -/
structure PhraseMarks where
  matching : Bool
  last : Bool
  length : ℤ
  terms : List (ℤ × ℤ)

def PhraseMarks.zero : PhraseMarks := ⟨false, false, 0, []⟩

/-- The marks of a word, and the word without them. -/
def readMarks (phrase : PhraseMarks) (word : List Char) : PhraseMarks × List Char :=
  let opened := '$' ∈ word ∧ phrase.matching = false
  let wordPtr := if opened then word.drop 1 else word
  let matching := if opened then true else phrase.matching
  if '$' ∈ wordPtr ∧ matching = true then
    ({ phrase with matching := matching, last := true }, wordPtr.takeWhile (· ≠ '$'))
  else ({ phrase with matching := matching }, wordPtr)

/-- The length of a term of a phrase, with the blank behind it. -/
def addLength (phrase : PhraseMarks) (proxTermLength : ℤ) : PhraseMarks :=
  if phrase.matching then { phrase with length := phrase.length + (proxTermLength + 1) } else phrase

/-- A term of a phrase that was found. -/
def addTerm (phrase : PhraseMarks) (termid proxTermLength : ℤ) : PhraseMarks :=
  if phrase.matching = true ∧ phrase.terms.length < 100 then
    { phrase with terms := phrase.terms ++ [(termid, proxTermLength)] }
  else phrase

/-- The length of a stop word goes to the term before it. -/
def addStopLength (proxTermLength : ℤ) : List (ℤ × ℤ) → List (ℤ × ℤ)
  | [] => []
  | [term] => [(term.1, term.2 + (proxTermLength + 1))]
  | term :: terms => term :: addStopLength proxTermLength terms

/-- The end of a word, where `stopped` says that it was a stop word. -/
def endWord (phrase : PhraseMarks) (stopped : Prop) [Decidable stopped] (proxTermLength : ℤ) :
    PhraseMarks :=
  let matching := if phrase.last then false else phrase.matching
  if matching = true ∧ stopped then
    { phrase with
      matching := matching
      terms := addStopLength proxTermLength phrase.terms
      length := phrase.length + (proxTermLength + 1) }
  else { phrase with matching := matching }

/-- The variables of the loop, without those of phrases. -/
structure WordSearch where
  table : Table ℤ TempResults
  numSearchWords : ℤ
  stopwordCount : ℤ
  lastStopCount : ℤ
  firstTerm : Bool
  maxHits : ℤ
  termidlist : List ℤ
  phrase : PhraseMarks

def WordSearch.zero : WordSearch := ⟨Table.empty, 0, 0, 0, true, 0, [], PhraseMarks.zero⟩

/-- One posting; a negative record number is a deleted entry. -/
def gatherWord (firstTerm : Bool) (numSearchWords : ℤ) (table : Table ℤ TempResults)
    (entry : IdxPostingEntry) : Table ℤ TempResults :=
  if entry.recordNo > 0 then
    match table.find? entry.recordNo with
    | none => if firstTerm then table.enter entry.recordNo ⟨1, entry.termFreq⟩ else table
    | some storage =>
      table.enter entry.recordNo
        ⟨if storage.weight < numSearchWords then storage.weight + 1 else storage.weight,
          storage.totFreq + entry.termFreq⟩
  else table

/-- The least number of postings of a word; it is set in the loop over them. -/
def leastHits (maxHits numEntries : ℤ) : ℤ :=
  if 0 < numEntries ∧ (numEntries < maxHits ∨ maxHits = 0) then numEntries else maxHits

def gatherResult (s : WordSearch) (proxTermLength : ℤ) : Option IdxResult → Exec WordSearch
  | none => .ok s
  | some indexResult => do
    let entries ← readEntries indexResult
    .ok { s with
      table := entries.foldl (gatherWord s.firstTerm s.numSearchWords) s.table
      firstTerm := false
      maxHits := leastHits s.maxHits indexResult.numEntries
      termidlist :=
        if s.termidlist.length < 100 then s.termidlist ++ [indexResult.termid] else s.termidlist
      phrase := addTerm s.phrase indexResult.termid proxTermLength }

def searchWord (fuel : ℕ) (idx : RangeIndex) (truncation : ℤ) (s : WordSearch) (word : List Char) :
    Exec WordSearch := do
  let marked := readMarks s.phrase word
  let found ← lookUpWord fuel idx truncation marked.2
  let s ← gatherResult
    { s with
      numSearchWords := s.numSearchWords + 1
      stopwordCount := s.stopwordCount + found.2
      phrase := addLength marked.1 marked.2.length }
    marked.2.length found.1
  .ok { s with
    phrase := endWord s.phrase (s.lastStopCount ≠ s.stopwordCount) marked.2.length
    lastStopCount := s.stopwordCount }

/-- The result as it is allocated, with one entry in its header. -/
def newWordResult (idx : RangeIndex) (s : WordSearch) : WeightedResult where
  setid := ""
  filename := ""
  resultType :=
    (if hasFlag idx.idxType PAGEDINDEX then PAGED_RESULT else 0) |||
      (if hasFlag idx.idxType COMPONENT_INDEX then COMPONENT_RESULT else 0) |||
      (if hasFlag idx.idxType PROXIMITY then PROXIMITY_RESULT else 0)
  component := if hasFlag idx.idxType COMPONENT_INDEX then idx.compParent else none
  termid := s.termidlist
  numHits := 0
  resultWeight := 0
  maxWeight := 1
  minWeight := 1
  entries := Buffer.calloc WeightedEntry.zero (s.maxHits.toNat + 2)

/-- One record of the hash table goes into the result if it is counted for all words but the stop
words, and if it has the phrase. -/
def storeWord (proxPhrase : List (ℤ × ℤ) → ℤ → ℤ → Exec Bool) (s : WordSearch)
    (wtRes : WeightedResult) (record : ℤ × TempResults) : Exec WeightedResult :=
  if record.2.weight ≥ s.numSearchWords - s.stopwordCount then do
    let found ← if s.phrase.terms = [] then .ok true
      else proxPhrase s.phrase.terms record.1 s.phrase.length
    if found then
      match Buffer.store? wtRes.entries wtRes.numHits.toNat ⟨record.1, 0, 1⟩ with
      | none => .error .outOfBounds
      | some entries => .ok { wtRes with entries := entries, numHits := wtRes.numHits + 1 }
    else .ok wtRes
  else .ok wtRes

/-- The branch for lists of words. -/
def boolWords (proxPhrase : List (ℤ × ℤ) → ℤ → ℤ → Exec Bool) (fuel : ℕ) (idx : RangeIndex)
    (truncation : ℤ) (searchstring : List Char) : Exec (Option WeightedResult) :=
  match breakletters idx.idxType with
  | none => .error .uninitialized
  | some letters =>
    let words := tokens letters searchstring
    if words = [] then .ok none
    else do
      let s ← words.foldlM (searchWord fuel idx truncation) WordSearch.zero
      -- all search words were stopwords
      if s.numSearchWords - s.stopwordCount ≤ 0 then .ok none
      else do
        let wtRes ← s.table.entries.foldlM (storeWord proxPhrase s) (newWordResult idx s)
        .ok (some wtRes)

/-- Whether a search goes word by word; an exact key is a phrase where no structure is given. -/
def isWordList (idxType : ℕ) (structureAttr : ℤ) : Bool :=
  let structureAttr :=
    if hasFlag idxType EXACTKEY = true ∧ structureAttr = 0 then PHRASE else structureAttr
  structureAttr = WORD_LIST ∨ structureAttr = 0 ∧ hasFlag idxType KEYWORD = true ∨
    hasFlag idxType URL_KEY = true ∨ hasFlag idxType FILENAME_KEY = true

/-- What a search uses beside its words: the spatial relations, the test for proximity, the search for
a phrase or a single key, and the number of the records. -/
structure ElementRoutines where
  spatial : Exec (Option WeightedResult)
  proxPhrase : List (ℤ × ℤ) → ℤ → ℤ → Exec Bool
  single : Exec (Option WeightedResult)
  maxComponentId : Option ℤ
  file : DocumentFile

/-- The hits in order, or for NOT EQUAL the other records. -/
def orderedHits (routines : ElementRoutines) (relation : ℤ) (wtRes : WeightedResult) :
    Exec (Option WeightedResult) :=
  if relation = 6 then do
    let others ← seNotEqual routines.maxComponentId routines.file (seSortwtset wtRes)
    .ok (some others)
  else .ok (some (seSortwtset wtRes))

/-- `se_bool_element` of an index that is neither a bitmap nor one of n-grams, where a truncated search
takes `fuel` rounds at most. -/
def seBoolElement (routines : ElementRoutines) (fuel : ℕ) (idx : RangeIndex)
    (insearchstring : Option (List Char)) (relation structureAttr truncation : ℤ) :
    Exec (Option WeightedResult) :=
  match insearchstring with
  | none => .ok none
  | some searchstring =>
    if relation ≠ 0 ∧ relation ≠ 3 ∧ relation ≠ 6 then
      seBoolRange routines.spatial idx (some searchstring) relation
    else if isWordList idx.idxType structureAttr then do
      let wtRes ← boolWords routines.proxPhrase fuel idx truncation searchstring
      match wtRes with
      | none => .ok none
      | some wtRes => orderedHits routines relation wtRes
    else do
      let wtRes ← routines.single
      match wtRes with
      | none => .error .nullDereference
      | some wtRes => orderedHits routines relation wtRes

end Cheshire.Search
