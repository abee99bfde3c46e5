import Cheshire.Search.ResultStore
import Cheshire.Search.BitmapResult

/-!
# Sessions of the server

A client opens a session, searches, presents records of the results and deletes them.  The session
keeps the name and the count of the current result and a list of the names it knows; the results
themselves are in the store.  The database is an ordinary one, and a query is represented by the
result that its evaluation returns.
-/

namespace Cheshire.Zserver

open Search Index

/-- The parts of `ZSESSION` that the handlers change. -/
structure ZSession where
  store : ResultStore
  resultSetName : SetName
  resultCount : ℤ
  resultSetNames : List SetName

/-- What is fixed for a session: its options, the bitmap index of the database, and the diagnostic
with which a record of a file is displayed, by the flags and the component of the result. -/
structure Server where
  userid : ℤ
  namedResultSet : Bool
  disableSavingResultSets : Bool
  idx : IdxListEntry
  display : String → ℕ → Option ℕ → ℤ → ℤ

/-- The diagnostic with which a record of a result set is displayed. -/
def Server.displayRecord (server : Server) (set : WeightedResult) (recordNum : ℤ) : ℤ :=
  server.display set.filename set.resultType set.component recordNum

def acListSearch (names : List SetName) (name : SetName) : Bool :=
  names.any fun other ↦ other.text = name.text

def acListDelete (names : List SetName) (name : SetName) : List SetName :=
  names.eraseP fun other ↦ other.text = name.text

/-- A record that was fetched: its position, the hit count of the set that was read and the record
number. -/
structure Fetch where
  position : ℤ
  numHits : ℤ
  recordNum : ℤ
deriving DecidableEq, Repr

/-- The records fetched one after the other, and whether all of them could be displayed. -/
structure Fetched where
  fetches : List Fetch
  complete : Bool

section

variable (server : Server)

/-- `final_set->entries[record_id-1]` -/
def resultEntry (set : WeightedResult) (recordId : ℤ) : Exec WeightedEntry :=
  if 1 ≤ recordId then set.entryAt (recordId - 1).toNat else .error .outOfBounds

/-- `CheshireFetchRecs`: the diagnostic, and what was fetched.  Of a virtual result only positions up
to the hit count are fetched. -/
def cheshireFetchRecs (session : ZSession) (recordId : ℤ) :
    Exec (ℤ × Option Fetch × ZSession) := do
  let (finalSet, store) ← seGetResultSet server.userid session.store session.resultSetName
  let session := { session with store := store }
  match finalSet with
  | none => .ok (30, none, session)
  | some addr => do
    let set ← store.load addr
    if set.has VIRTUAL_RESULT ∧ set.numHits < recordId then .ok (13, none, session)
    else do
      let entry ← resultEntry set recordId
      .ok (server.displayRecord set entry.recordNum, some ⟨recordId, set.numHits, entry.recordNum⟩,
        session)

/-- `for (record_id = real_start; record_id < (real_start + number); record_id++)` -/
def fetchLoop : ℕ → ℤ → ZSession → Exec (Fetched × ZSession)
  | 0, _, session => .ok (⟨[], true⟩, session)
  | number + 1, recordId, session => do
    let (diagnostic, fetch, session) ← cheshireFetchRecs server session recordId
    if diagnostic = 0 then do
      let (rest, session) ← fetchLoop number (recordId + 1) session
      .ok (⟨fetch.toList ++ rest.fetches, rest.complete⟩, session)
    else .ok (⟨fetch.toList, false⟩, session)

def tmpBitmapResults : SetName := ⟨TMP_BITMAP_RESULTS, by simp [TMP_BITMAP_RESULTS], by decide⟩

def seGetResultType (store : ResultStore) (setid : SetName) : ℕ :=
  match (seCheckResultSet server.userid store setid.orDefault).2 with
  | some (_, resPtr) => resPtr.result.resultType
  | none => 0

def seGetResultHits (store : ResultStore) (setid : SetName) : ℤ :=
  match (seCheckResultSet server.userid store setid.orDefault).2 with
  | some (_, resPtr) => resPtr.result.numHits
  | none => -1

/-- The temporary result set of `RetrieveRecords2`; `DONT_SAVE_RESULT_SETS` keeps it in core. -/
def storeBitmapResults (session : ZSession) (setid : SetName) (start number : ℤ)
    (temp : TempFile) : Exec (Option Addr × ZSession) := do
  let (tmpresults, store) ← seGetResultSet server.userid session.store setid
  let addr ← deref tmpresults
  let set ← store.load addr
  let bitmapResults ← seBitmapToResult server.idx (some set) number.toNat start.toNat
  match bitmapResults with
  | none => .ok (none, { session with store := store })
  | some results => do
    let ptr := store.nextAddr
    let (_, store) ← seStoreResultSet server.userid (store.alloc results) (some ptr)
      tmpBitmapResults DONT_SAVE_RESULT_SETS temp
    .ok (some ptr, { session with store := store })

/-- The first part of `RetrieveRecords2`: the records that are fetched. -/
def fetchRecords2 (session : ZSession) (resultSetId : SetName) (start number : ℤ)
    (temp : TempFile) : Exec (Fetched × Option Addr × ZSession) :=
  if seGetResultType server session.store resultSetId &&& BITMAP_RESULT ≠ 0 then do
    let (bitmapResults, session) ← storeBitmapResults server session resultSetId start number temp
    let _ ← checkInt (1 + number)
    let (fetched, session) ← fetchLoop server number.toNat 1
      { session with resultSetName := tmpBitmapResults }
    .ok (fetched, bitmapResults, session)
  else do
    let _ ← checkInt (start + number)
    let (fetched, session) ← fetchLoop server number.toNat start
      { session with resultSetName := resultSetId }
    .ok (fetched, none, session)

/-- `RetrieveRecords2`: a record that cannot be displayed ends it at once.  The temporary set of a
bitmap is deleted and then freed. -/
def retrieveRecords2 (session : ZSession) (resultSetId : SetName) (start number : ℤ)
    (temp : TempFile) : Exec (Fetched × ZSession) := do
  let (fetched, bitmapResults, session) ← fetchRecords2 server session resultSetId start number temp
  match fetched.complete, bitmapResults with
  | true, some addr => do
    let (_, store) ← seDeleteResultSet server.userid session.store tmpBitmapResults
    let store ← store.release addr
    .ok (fetched, { session with store := store, resultSetName := resultSetId })
  | _, _ => .ok (fetched, session)

end

end Cheshire.Zserver
