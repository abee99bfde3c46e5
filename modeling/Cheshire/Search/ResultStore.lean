import Cheshire.Search.WeightedResult

/-!
# The store of named result sets

Result sets are kept under names in a hash table.  An entry of the table points to the set in core
and names the file to which the set was saved.  The set in core may be freed; the next fetch then
builds it again from the file.  All in-core sets live in one heap, since a caller and several entries
may hold the same pointer.
-/

namespace Cheshire.Search

open Lib

def REPLACE_RESULT_SETS : ℕ := 1
def DONT_SAVE_RESULT_SETS : ℕ := 4

/-- The name of the temporary set of a bitmap search, whose file is never removed. -/
def TMP_BITMAP_RESULTS : String := "***TMP*BITMAP*RESULTS***"

/-- A result set name that is not qualified with record numbers and fits `temp_setid` together with
any user id. -/
structure SetName where
  text : String
  plain : ∀ c ∈ text.toList, c ≠ ':' ∧ c ≠ ',' ∧ c.toNat ≠ 0
  short : text.utf8ByteSize ≤ 87

namespace SetName

def default : SetName := ⟨"default", by simp, by decide⟩

/-- `if (setid[0] == '\0') setid = "default";` -/
def orDefault (setid : SetName) : SetName := if setid.text = "" then default else setid

/-- What makes two names the same: letter case does not count. -/
def canonical (setid : SetName) : String := setid.orDefault.text.toUpper

/-- The key of a name in the hash table: `sprintf(temp_setid,"%s_%d",setname,userid)` in upper
case. -/
def tempSetid (setid : SetName) (userid : ℤ) : String :=
  (setid.text ++ "_" ++ toString userid).toUpper

/-- `strcasecmp(name, setid) == 0` -/
def isCalled (setid : SetName) (name : String) : Bool := name.toLower = setid.text.toLower

end SetName

abbrev Addr := ℕ

/-- `result_set_data`; of `result` the header and its first entry are kept. -/
structure ResultSetData where
  filename : String
  reallyStored : ℤ
  resultPtr : Option Addr
  result : WeightedResult
deriving DecidableEq, Repr

/-- A saved result set: the structure and the entries after the first one. -/
structure SavedSet where
  data : ResultSetData
  entries : List WeightedEntry
deriving DecidableEq, Repr

/-- What `mkstemp` and `fopen` find in the save directory: a name for the file, and whether the file
can be written. -/
structure TempFile where
  filename : String
  writable : Bool

/-- `hashTab` is `none` as long as `result_set_hash_tab` is `NULL`. -/
structure ResultStore where
  hashTab : Option (String → Option ResultSetData)
  heap : Addr → Option WeightedResult
  nextAddr : Addr
  files : String → Option SavedSet

inductive Status where
  | succeed
  | fail
deriving DecidableEq, Repr

namespace ResultStore

def empty : ResultStore := ⟨none, fun _ ↦ none, 0, fun _ ↦ none⟩

def table (s : ResultStore) : String → Option ResultSetData := s.hashTab.getD fun _ ↦ none

/-- `Tcl_InitHashTable`, when there is no table yet. -/
def initTable (s : ResultStore) : ResultStore := { s with hashTab := some s.table }

def setEntry (s : ResultStore) (key : String) (data : Option ResultSetData) : ResultStore :=
  { s with hashTab := some (Function.update s.table key data) }

def setFile (s : ResultStore) (filename : String) (saved : Option SavedSet) : ResultStore :=
  { s with files := Function.update s.files filename saved }

/-- Following a pointer to a result set. -/
def load (s : ResultStore) (addr : Addr) : Exec WeightedResult :=
  match s.heap addr with
  | some set => .ok set
  | none => .error .useAfterFree

def setHeap (s : ResultStore) (addr : Addr) (set : Option WeightedResult) : ResultStore :=
  { s with heap := Function.update s.heap addr set }

/-- The set is placed at `nextAddr`. -/
def alloc (s : ResultStore) (set : WeightedResult) : ResultStore :=
  { s.setHeap s.nextAddr (some set) with nextAddr := s.nextAddr + 1 }

/-- `FREE` -/
def release (s : ResultStore) (addr : Addr) : Exec ResultStore :=
  (s.load addr).map fun _ ↦ s.setHeap addr none

end ResultStore

/-- `*res_ptr = *set` keeps the header and the first entry. -/
def WeightedResult.header (set : WeightedResult) : WeightedResult :=
  { set with entries := set.entries.take 1 }

/-- `fwrite(&set->entries[1], sizeof(weighted_entry), set->num_hits, res_file)` -/
def writtenEntries (set : WeightedResult) : Exec (List WeightedEntry) :=
  if set.numHits.toNat + 1 ≤ set.entries.length then
    .ok ((set.entries.drop 1).take set.numHits.toNat)
  else .error .outOfBounds

/-- The set that is read in from a file. -/
def SavedSet.loaded (saved : SavedSet) : WeightedResult :=
  { saved.data.result with entries := saved.data.result.entries ++ saved.entries }

section

variable (userid : ℤ)

/-- `se_check_result_set`: the key and the data of the entry of a name. -/
def seCheckResultSet (s : ResultStore) (setid : SetName) :
    ResultStore × Option (String × ResultSetData) :=
  (s.initTable,
    if setid.text = "" then none
    else (s.table (setid.tempSetid userid)).map fun resPtr ↦ (setid.tempSetid userid, resPtr))

def seGetResultSet (s : ResultStore) (setid : SetName) : Exec (Option Addr × ResultStore) :=
  match seCheckResultSet userid s setid.orDefault with
  | (s, none) => .ok (none, s)
  | (s, some (key, resPtr)) =>
    match resPtr.resultPtr with
    | some wtRes => .ok (some wtRes, s)
    | none =>
      match s.files resPtr.filename with
      | none => .ok (none, s)
      | some saved =>
        .ok (some s.nextAddr, (s.alloc saved.loaded).setEntry key
          (some { saved.data with resultPtr := some s.nextAddr }))

def seFreeResult (s : ResultStore) (key : String) (resPtr : ResultSetData) : Exec ResultStore :=
  match resPtr.resultPtr with
  | none => .ok s
  | some addr => do
    let s ← s.release addr
    .ok (s.setEntry key (some { resPtr with resultPtr := none }))

/-- The last part of storing a new entry: the set is saved unless the flags say otherwise. -/
def saveResultSet (s : ResultStore) (key : String) (resPtr : ResultSetData) (set : WeightedResult)
    (flags : ℕ) (temp : TempFile) : Exec (Status × ResultStore) :=
  if flags &&& DONT_SAVE_RESULT_SETS ≠ DONT_SAVE_RESULT_SETS then
    if temp.writable then do
      let entries ← writtenEntries set
      .ok (.succeed, (s.setFile resPtr.filename (some ⟨resPtr, entries⟩)).setEntry key
        (some { resPtr with reallyStored := 1 }))
    else .ok (.fail, s)
  else .ok (.succeed, s.setFile temp.filename none)

/-- A name that has no entry yet. -/
def storeNewEntry (s : ResultStore) (addr : Addr) (set : WeightedResult) (setid : SetName)
    (flags : ℕ) (temp : TempFile) : Exec (Status × ResultStore) :=
  let key := setid.orDefault.tempSetid userid
  let resPtr (addr : Addr) (set : WeightedResult) : ResultSetData :=
    ⟨temp.filename, 0, some addr, set.header⟩
  if set.setid ≠ "" then do
    -- the set has another name already, so a copy is stored
    let newset ← seDupResultSet set
    let newset := { newset with setid := setid.orDefault.text }
    saveResultSet ((s.alloc newset).setEntry key (some (resPtr s.nextAddr newset))) key
      (resPtr s.nextAddr newset) newset flags temp
  else
    let set := { set with setid := setid.orDefault.text }
    saveResultSet ((s.setHeap addr (some set)).setEntry key (some (resPtr addr set))) key
      (resPtr addr set) set flags temp

/-- A name that has an entry.  In C the test `flags & REPLACE_RESULT_SETS == REPLACE_RESULT_SETS` is
`flags & 1`, and `flags & DONT_SAVE_RESULT_SETS != DONT_SAVE_RESULT_SETS` is `flags & 0`: the
replacement is never written to the file. -/
def replaceEntry (s : ResultStore) (addr : Addr) (setid : SetName) (flags : ℕ) (key : String)
    (resPtr : ResultSetData) : Exec (Status × ResultStore) :=
  if flags &&& (REPLACE_RESULT_SETS == REPLACE_RESULT_SETS).toNat ≠ 0 then do
    let s ← seFreeResult s key resPtr
    let set ← s.load addr
    let set := { set with setid := setid.text }
    let resPtr := { resPtr with resultPtr := some addr, result := set.header }
    let s := (s.setHeap addr (some set)).setEntry key (some resPtr)
    if flags &&& (DONT_SAVE_RESULT_SETS != DONT_SAVE_RESULT_SETS).toNat ≠ 0 then do
      let entries ← writtenEntries set.header
      .ok (.succeed, (s.setFile resPtr.filename (some ⟨resPtr, entries⟩)).setEntry key
        (some { resPtr with reallyStored := 1 }))
    else .ok (.succeed, s)
  else .ok (.fail, s)

def seStoreResultSet (s : ResultStore) (ptr : Option Addr) (setid : SetName) (flags : ℕ)
    (temp : TempFile) : Exec (Status × ResultStore) :=
  match ptr with
  | none => .ok (.fail, s)
  | some addr => do
    let set ← s.load addr
    if set.setid ≠ "" ∧ setid.isCalled set.setid then .ok (.succeed, s)
    else
      match seCheckResultSet userid s setid with
      | (s, none) => storeNewEntry userid s addr set setid flags temp
      | (s, some (key, resPtr)) => replaceEntry s addr setid flags key resPtr

def seDeleteResultSet (s : ResultStore) (setid : SetName) : Exec (Status × ResultStore) :=
  if s.hashTab.isNone then .ok (.succeed, s)
  else
    match seCheckResultSet userid s setid with
    | (s, none) => .ok (.fail, s)
    | (s, some (key, resPtr)) => do
      let s := if setid.text ≠ TMP_BITMAP_RESULTS ∧ resPtr.reallyStored = 1 then
        s.setFile resPtr.filename none else s
      let s ← seFreeResult s key resPtr
      .ok (.succeed, s.setEntry key none)

def seFreeResultName (s : ResultStore) (setid : SetName) : Exec ResultStore :=
  if s.hashTab.isNone then .ok s
  else
    match seCheckResultSet userid s setid with
    | (s, none) => .ok s
    | (s, some (key, resPtr)) => seFreeResult s key resPtr

/-- The record numbers that a caller finds in the set fetched under a name, if there is one. -/
def fetchRecords (s : ResultStore) (setid : SetName) : Exec (Option (List ℤ)) := do
  let (ptr, s) ← seGetResultSet userid s setid
  match ptr with
  | none => .ok none
  | some wtRes => (s.load wtRes).map fun set ↦ some set.recordNums

end

end Cheshire.Search
