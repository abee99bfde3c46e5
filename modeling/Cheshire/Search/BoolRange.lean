import Cheshire.Index.NumberKeys
import Cheshire.Lib.Cursor
import Cheshire.Lib.Table
import Cheshire.Search.BoolNgrams

/-!
# Searching a range of keys

`se_bool_range` sets a cursor to the key of the query and walks from there to one end of the index; only
a search within a range stops at a key.  Keys of negative numbers are in the opposite order, so for a
negative number the walk goes the other way.  The records of all postings on the way are the result.

The spatial relations are left to a routine that is a parameter, and frequencies, which become weights,
are added without overflow.
-/

namespace Cheshire.Search

open Lib Lib.Cursor Index

def DATE_KEY : ℕ := 1 <<< 21
def DATE_RANGE_KEY : ℕ := 1 <<< 22
def COMPONENT_INDEX : ℕ := 1 <<< 24

/-- What an index stores under a key. -/
inductive IndexDatum where
  | postings (block : IdxResult)
  | globalData (info : DictInfo)

/-- An index as a range search reads it; `db` is there when the file is open.  `unstopped` normalises
without the stop words. -/
structure RangeIndex where
  idxType : ℕ
  routines : KeyRoutines
  unstopped : KeyRoutines
  stopwordsFile : Bool
  compParent : Option ℕ
  db : Option (List (List Char × IndexDatum))

/-- The relations that are answered by a walk over the keys. -/
inductive RangeRelation where
  | lessThan
  | lessOrEqual
  | greaterOrEqual
  | greaterThan
  | within
deriving DecidableEq

def RangeRelation.ofCode : ℤ → Option RangeRelation
  | 1 => some .lessThan
  | 2 => some .lessOrEqual
  | 4 => some .greaterOrEqual
  | 5 => some .greaterThan
  | 104 => some .within
  | _ => none

/-- `idx->type & flag` -/
def hasFlag (idxType flag : ℕ) : Bool := idxType &&& flag != 0

/-- The normalised query and `search_stopword_count`. -/
def rangeKey (idx : RangeIndex) (searchstring : List Char) : Exec (Option (List Char) × ℤ) := do
  let searchPtr ← normalizeKey idx.routines idx.idxType searchstring
  match searchPtr with
  | some key => .ok (some key, 0)
  | none =>
    if idx.stopwordsFile then do
      let searchPtr ← normalizeKey idx.unstopped idx.idxType searchstring
      .ok (searchPtr, 1)
    else .ok (none, 0)

/-- `start_key` and `end_key`; the second one is only read within a range. -/
def rangeBounds (idxType : ℕ) (relation : RangeRelation) (searchPtr : Option (List Char)) :
    Exec (Option (List Char × List Char)) :=
  if relation = .within ∧ hasFlag idxType DATE_KEY = false then do
    let key ← deref searchPtr
    if hasFlag idxType DATE_RANGE_KEY then
      if 23 ≤ key.length then .ok (some (key.take 22, key.drop 23)) else .error .outOfBounds
    else
      match key.dropWhile (· ≠ '-') with
      | [] => .ok (some (key, key))
      | _ :: endKey => .ok (some (key.takeWhile (· ≠ '-'), endKey))
  else .ok (searchPtr.map fun key ↦ (key, key))

/-- The cursor with `keyval`, and whether `db_errno` says that the last key was found. -/
structure RangeCursor where
  position : Option (Position (List Char) IndexDatum)
  keyval : List Char
  found : Bool

/-- `db_errno = dbcursor->c_get(...)` -/
def RangeCursor.get (cursor : RangeCursor) (target : Option (Position (List Char) IndexDatum)) :
    RangeCursor :=
  match target with
  | some position => ⟨some position, position.pair.1, true⟩
  | none => { cursor with found := false }

/-- The keys of negative numbers and dates are in the opposite order. -/
def reversed (idxType : ℕ) (startKey : List Char) : Bool :=
  (hasFlag idxType INTEGER_KEY || hasFlag idxType DECIMAL_KEY || hasFlag idxType DATE_KEY ||
    hasFlag idxType FLOAT_KEY) && startKey.head? = some '-'

/-- The keys of numbers that are not negative come after this one. -/
def ZERO_POINT : List Char := ['0', '0', '0', '0', '0', '0', '0']

def NO_DATE : List Char :=
  ['0', '0', '0', '0', '0', '0', '0', '0', '0', '0', ' ', '0', '0', ' ', '0', '0', ' ', '0', '0', ' ',
    '0', '0']

/-- What the walk starts with. -/
structure RangeStart where
  cursor : RangeCursor
  direction : Direction
  more : Bool

section Start

variable (pairs : List (List Char × IndexDatum)) (idxType : ℕ) (startKey : List Char)

/-- `c_get(DB_SET_RANGE)` -/
def RangeCursor.setRange (cursor : RangeCursor) (key : List Char) : RangeCursor :=
  { cursor with keyval := key }.get (Cursor.setRange pairs key)

/-- `c_get(DB_NEXT)` or `c_get(DB_PREV)` -/
def RangeCursor.move (cursor : RangeCursor) (direction : Direction) : RangeCursor :=
  cursor.get (Cursor.move pairs direction cursor.position)

/-- Below a negative number there is nothing but zero and the numbers after it. -/
def orZeroPoint (cursor : RangeCursor) : RangeStart :=
  if cursor.found then ⟨cursor, .prev, true⟩ else ⟨cursor.setRange pairs ZERO_POINT, .next, true⟩

def rangeStart (relation : RangeRelation) : RangeStart :=
  let cursor := RangeCursor.setRange pairs ⟨none, startKey, false⟩ startKey
  match relation with
  | .lessThan =>
    if reversed idxType startKey then
      ⟨if cursor.keyval ≤ startKey then cursor.move pairs .next else cursor, .next, true⟩
    else ⟨cursor.move pairs .prev, .prev, true⟩
  | .lessOrEqual =>
    if reversed idxType startKey then ⟨cursor, .next, true⟩
    else ⟨if startKey < cursor.keyval then cursor.move pairs .prev else cursor, .prev, true⟩
  | .greaterOrEqual =>
    if reversed idxType startKey then
      orZeroPoint pairs (if startKey < cursor.keyval then cursor.move pairs .prev else cursor)
    else ⟨cursor, .next, cursor.found⟩
  | .greaterThan =>
    if reversed idxType startKey then
      orZeroPoint pairs (if startKey ≤ cursor.keyval then cursor.move pairs .prev else cursor)
    else
      ⟨if cursor.keyval = startKey then cursor.move pairs .next else cursor, .next, cursor.found⟩
  | .within =>
    ⟨if hasFlag idxType DATE_RANGE_KEY then cursor.setRange pairs (NO_DATE.take startKey.length)
      else cursor, .next, true⟩

end Start

/-- `struct temp_results` -/
structure TempResults where
  weight : ℤ
  totFreq : ℤ

/-- One posting; a negative record number is a deleted entry. -/
def gatherPosting (numSearchWords : ℤ) (table : Table ℤ TempResults) (entry : IdxPostingEntry) :
    Table ℤ TempResults :=
  if entry.recordNo > 0 then
    match table.find? entry.recordNo with
    | none => table.enter entry.recordNo ⟨1, entry.termFreq⟩
    | some storage =>
      table.enter entry.recordNo
        ⟨if storage.weight < numSearchWords then storage.weight + 1 else storage.weight,
          storage.totFreq + entry.termFreq⟩
  else table

/-- The postings under one key are gathered; a range search counts no words. -/
def gatherDatum (table : Table ℤ TempResults) : IndexDatum → Exec (Table ℤ TempResults)
  | .postings block => do
    let entries ← readEntries block
    .ok (entries.foldl (gatherPosting 0) table)
  | .globalData _ => .error .outOfBounds

/-- The test of a date range, where `c` is the key of the cursor. -/
def okToAdd (idxType : ℕ) (relation : RangeRelation) (startKey endKey c : List Char) : Exec Bool :=
  if relation = .within ∧ hasFlag idxType DATE_RANGE_KEY = true then
    if endKey < c then .ok false
    else if 23 ≤ c.length then .ok (decide (startKey ≤ c.drop 23))
    else .error .outOfBounds
  else .ok true

section Walk

variable (pairs : List (List Char × IndexDatum)) (idxType : ℕ) (relation : RangeRelation)
  (startKey endKey : List Char)

/-- What the walk does at its place; the global data are skipped. -/
def rangeStep (cursor : RangeCursor) (table : Table ℤ TempResults) :
    Exec (Table ℤ TempResults) := do
  let add ← okToAdd idxType relation startKey endKey cursor.keyval
  match cursor.position with
  | none => .ok table
  | some position =>
    if add = true ∧ cursor.found = true ∧ cursor.keyval.head? ≠ some '>' then
      gatherDatum table position.pair.2
    else .ok table

/-- `do ... while (more)`; in the loop `db_errno` stays as it is. -/
def rangeLoop (direction : Direction) (more : Bool) :
    ℕ → RangeCursor → Table ℤ TempResults → Exec (Table ℤ TempResults)
  | 0, _, _ => .error .unfinished
  | fuel + 1, cursor, table => do
    let table ← rangeStep idxType relation startKey endKey cursor table
    match Cursor.move pairs direction cursor.position with
    | none => .ok table
    | some position =>
      if more = false ∨ (relation = .within ∧ endKey < position.pair.1) then .ok table
      else
        rangeLoop direction more fuel ⟨some position, position.pair.1, cursor.found⟩ table

end Walk

/-- A bound of the weights; 0 stands for none. -/
def boundWeight (better : ℚ → ℚ → Bool) (bound weight : ℚ) : ℚ :=
  if bound = 0 then weight else if better weight bound then weight else bound

/-- One record of the hash table goes into the result. -/
def storeRecord (numSearchWords stopwordCount : ℤ) (wtRes : WeightedResult)
    (record : ℤ × TempResults) : Exec WeightedResult :=
  if record.2.weight ≥ numSearchWords - stopwordCount then
    match Buffer.store? wtRes.entries wtRes.numHits.toNat ⟨record.1, 0, record.2.totFreq⟩ with
    | none => .error .outOfBounds
    | some entries =>
      .ok { wtRes with
        entries := entries
        numHits := wtRes.numHits + 1
        maxWeight := boundWeight (fun weight bound ↦ bound < weight) wtRes.maxWeight record.2.totFreq
        minWeight := boundWeight (fun weight bound ↦ weight < bound) wtRes.minWeight record.2.totFreq }
  else .ok wtRes

/-- The result as it is allocated for the records of the hash table. -/
def newRangeResult (idx : RangeIndex) (maxHits : ℕ) : WeightedResult where
  setid := ""
  filename := ""
  resultType :=
    if hasFlag idx.idxType COMPONENT_INDEX then COMPONENT_RESULT
    else if hasFlag idx.idxType PAGEDINDEX then PAGED_RESULT
    else 0
  component := if hasFlag idx.idxType COMPONENT_INDEX then idx.compParent else none
  termid := []
  numHits := 0
  resultWeight := 0
  maxWeight := 0
  minWeight := 0
  entries := Buffer.calloc WeightedEntry.zero (maxHits + 1)

def rangeResult (idx : RangeIndex) (stopwordCount : ℤ) (table : Table ℤ TempResults) :
    Exec WeightedResult := do
  let wtRes ← table.entries.foldlM (storeRecord 0 stopwordCount)
    (newRangeResult idx table.entries.length)
  .ok (seSortwtset wtRes)

/-- `se_bool_range` for a walk over the keys. -/
def boolRange (idx : RangeIndex) (searchstring : Option (List Char)) (relation : RangeRelation) :
    Exec (Option WeightedResult) :=
  match searchstring, idx.db with
  | some searchstring, some pairs => do
    let searchKey ← rangeKey idx searchstring
    let bounds ← rangeBounds idx.idxType relation searchKey.1
    match bounds with
    | none => .ok none
    | some (startKey, endKey) =>
      if startKey = [] then .ok none
      else do
        let start := rangeStart pairs idx.idxType startKey relation
        let table ← rangeLoop pairs idx.idxType relation startKey endKey start.direction start.more
          (pairs.length + 2) start.cursor Table.empty
        let wtRes ← rangeResult idx searchKey.2 table
        .ok (some wtRes)
  | _, _ => .ok none

/-- `se_bool_range`; `spatial` answers the other relations. -/
def seBoolRange (spatial : Exec (Option WeightedResult)) (idx : RangeIndex)
    (searchstring : Option (List Char)) (relation : ℤ) : Exec (Option WeightedResult) :=
  match RangeRelation.ofCode relation with
  | some relation => boolRange idx searchstring relation
  | none => spatial

end Cheshire.Search
