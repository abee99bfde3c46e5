import Cheshire.Search.BoolRange

/-!
# Truncated searches

`se_gettrunc_idx` sets a cursor to the first key that is not below the search string and walks on as long
as the keys begin with the string, but for the case of letters.  The postings of these keys are merged,
with their frequencies added up; each sum goes through a `float`.  At a key whose term id is 0 the loop
goes round without moving the cursor.
-/

namespace Cheshire.Search

open Lib Lib.Cursor Index

/-- `(float) n`: the nearest number of 24 binary digits, and of two the one with an even digit. -/
def floatOfNat (n : ℕ) : ℕ :=
  let unit := 2 ^ (n.size - 24)
  if 2 * (n % unit) < unit ∨ (2 * (n % unit) = unit ∧ n / unit % 2 = 0) then n / unit * unit
  else (n / unit + 1) * unit

/-- `(float) value` for an `int`; zero has no sign. -/
def floatOfInt (value : ℤ) : ℤ :=
  if value < 0 then -(floatOfNat value.natAbs : ℤ) else floatOfNat value.natAbs

def beforeLastPound (text : List Char) : List Char :=
  match text.reverse.dropWhile (· ≠ '#') with
  | [] => text
  | _ :: rest => rest.reverse

/-- `strncasecmp(tempsearch, key, strlen(tempsearch)) == 0` -/
def matchesFolded (tempsearch key : List Char) : Bool :=
  (key.take tempsearch.length).map Char.toLower = tempsearch.map Char.toLower

/-- The hash table of the records and `sum_tot_freq`.  The weights in the table are never read. -/
structure TruncSums where
  table : Table ℤ ℤ
  sumTotFreq : ℤ

def TruncSums.zero : TruncSums := ⟨Table.empty, 0⟩

def sumPosting (sums : TruncSums) (entry : IdxPostingEntry) : Exec TruncSums :=
  match sums.table.find? entry.recordNo with
  | none => do
    let sumTotFreq ← checkInt (sums.sumTotFreq + entry.termFreq)
    .ok ⟨sums.table.enter entry.recordNo entry.termFreq, sumTotFreq⟩
  | some totFreq => do
    let totFreq ← checkInt (totFreq + entry.termFreq)
    let sumTotFreq ← checkInt (sums.sumTotFreq + entry.termFreq)
    .ok ⟨sums.table.enter entry.recordNo totFreq, sumTotFreq⟩

/-- `do ... while (more_matches)` from a place of the cursor. -/
def truncLoop (tempsearch : List Char) :
    ℕ → Position (List Char) IndexDatum → TruncSums → Exec TruncSums
  | 0, _, _ => .error .unfinished
  | fuel + 1, position, sums =>
    if matchesFolded tempsearch position.pair.1 then
      match position.pair.2 with
      | .globalData _ => .error .outOfBounds
      | .postings newinfo =>
        -- `continue` goes to the test of the loop
        if newinfo.termid = 0 then truncLoop tempsearch fuel position sums
        else do
          let entries ← readEntries newinfo
          let sums ← entries.foldlM sumPosting sums
          match position.step .next with
          | none => .ok sums
          | some next => truncLoop tempsearch fuel next sums
    else .ok sums

/-- One record of the hash table becomes an entry of the result. -/
def storeSum (results : List IdxPostingEntry × ℕ) (record : ℤ × ℤ) :
    Exec (List IdxPostingEntry × ℕ) := do
  let termFreq ← checkInt (floatOfInt record.2)
  match Buffer.store? results.1 results.2 ⟨record.1, termFreq⟩ with
  | none => .error .outOfBounds
  | some entries => .ok (entries, results.2 + 1)

/-- The result; `total_num_entries` is the number of records in the table. -/
def truncResult (sums : TruncSums) : Exec (Option IdxResult) :=
  if 0 < sums.table.entries.length then do
    let results ← sums.table.entries.foldlM storeSum
      (Buffer.calloc IdxPostingEntry.zero (sums.table.entries.length + 1), 0)
    .ok (some ⟨0, sums.table.entries.length, sums.sumTotFreq, results.1⟩)
  else .ok none

/-- `se_gettrunc_idx`, where the walk takes `fuel` rounds at most. -/
def seGettruncIdx (fuel : ℕ) (idx : Option RangeIndex) (searchstring : List Char) :
    Exec (Option IdxResult) :=
  match idx with
  | none => .ok none
  | some idx =>
    match idx.db with
    | none => .ok none
    | some pairs =>
      if idx.idxType &&& NUMBER_KEYS ≠ 0 then .ok none
      else do
        let key ← normalizeKey idx.routines idx.idxType searchstring
        let text ← deref key
        let tempsearch := beforeLastPound text
        if tempsearch = [] then .ok none
        else
          match Cursor.setRange pairs tempsearch with
          | none => .ok none
          | some position => do
            let sums ← truncLoop tempsearch fuel position TruncSums.zero
            truncResult sums

end Cheshire.Search
