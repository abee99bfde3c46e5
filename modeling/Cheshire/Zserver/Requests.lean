import Cheshire.Search.RankedMerge
import Cheshire.Zserver.Session

/-!
# Search, present and delete requests

The handlers of the three requests that concern result sets.  What a query evaluates to, and what its
evaluation does to stored sets on the way, is a part of the search request; the checks of databases,
element sets and record syntaxes are one condition that the request meets or not.
-/

namespace Cheshire.Zserver

open Search

/-- What the evaluation of a query returns, with the diagnostic it leaves: nothing, a set that it has
built, or a stored set that the query names. -/
inductive FinalSet where
  | null (diagnostic : ℤ)
  | fresh (set : WeightedResult) (diagnostic : ℤ)
  | stored (setid : SetName) (diagnostic : ℤ)

/-- What the evaluation of a query does in place to a stored set that is one of its operands. -/
inductive OperandChange where
  /-- A merge brings a ranked operand into record order. -/
  | sorted
  /-- An operator that returns its only operand ranks it. -/
  | ranked
  /-- A fuzzy operator marks its operands. -/
  | fuzzy
  /-- `se_ormerge` that adds weights lowers the weight of an operand to one. -/
  | capped
  /-- A `se_component_sub_restrict` that fails leaves component data at the first hits. -/
  | linked (addrs : List ℕ)

def OperandChange.apply (set : WeightedResult) : OperandChange → WeightedResult
  | .sorted => seSortwtset set
  | .ranked => seRankDocs set
  | .fuzzy => { set with resultType := set.resultType ||| FUZZY_REQUEST }
  | .capped => { set with resultWeight := if set.resultWeight > 1 then 1 else set.resultWeight }
  | .linked addrs => { set with
      entries := set.entries.zipWith (fun entry addr ↦ { entry with xtra := addr }) addrs ++
        set.entries.drop addrs.length }

/-- What the evaluation of a query does to the store: it changes an operand, or `se_virtualmerge` stores
the set that it has merged for one database. -/
inductive Effect where
  | change (setid : SetName) (change : OperandChange)
  | component (setid : SetName) (merged : FinalSet) (temp : TempFile)

/-- What the evaluation of a query does, in order, and what it returns. -/
structure Query where
  effects : List Effect
  finalSet : FinalSet

structure SearchRequest where
  query : Option Query
  resultSetName : SetName
  replaceIndicator : Bool
  smallSetUpperBound : ℤ
  largeSetLowerBound : ℤ
  mediumSetPresentNumber : ℤ
  otherChecks : Bool
  temp : TempFile

/-- `SearchResponse`; `fetches` are the records that were read for it. -/
structure SearchResponse where
  searchStatus : Bool
  resultCount : ℤ
  numberRecordsReturned : ℤ
  nextResultSetPosition : ℤ
  presentStatus : ℤ
  fetches : List Fetch

/-- `strcasecmp(resultSetName, "default") == 0` -/
def isDefault (name : SetName) : Bool := name.isCalled "default"

section

variable (server : Server)

/-- The set in memory and the diagnostic. -/
def returnFinalSet (store : ResultStore) : FinalSet → Exec (Option Addr × ℤ × ResultStore)
  | .null diagnostic => .ok (none, diagnostic, store)
  | .fresh set diagnostic => .ok (some store.nextAddr, diagnostic, store.alloc set)
  | .stored setid diagnostic => do
    let (ptr, store) ← seGetResultSet server.userid store setid
    .ok (ptr, if ptr.isNone then 30 else diagnostic, store)

/-- An operand is the stored set itself; its entry in the table keeps the header it was stored with. -/
def runEffect (store : ResultStore) : Effect → Exec ResultStore
  | .change setid change => do
    let (ptr, store) ← seGetResultSet server.userid store setid
    match ptr with
    | none => .ok store
    | some addr => do
      let set ← store.load addr
      .ok (store.setHeap addr (some (change.apply set)))
  | .component setid merged temp => do
    let (ptr, _, store) ← returnFinalSet server store merged
    match ptr with
    | none => .ok store
    | some addr => do
      let (_, store) ← seStoreResultSet server.userid store (some addr) setid
        (REPLACE_RESULT_SETS ||| DONT_SAVE_RESULT_SETS) temp
      .ok store

def runEffects (store : ResultStore) (effects : List Effect) : Exec ResultStore :=
  effects.foldlM (runEffect server) store

/-- `se_process_query` -/
def seProcessQuery (store : ResultStore) (query : Query) :
    Exec (Option Addr × ℤ × ResultStore) := do
  let store ← runEffects server store query.effects
  returnFinalSet server store query.finalSet

/-- The flags for `se_store_result_set`. -/
def replaceFlag (replaceIndicator : Bool) : ℕ :=
  (if replaceIndicator then REPLACE_RESULT_SETS else 0) |||
    (if server.disableSavingResultSets then DONT_SAVE_RESULT_SETS else 0)

/-- `CheshireSearch` on an ordinary database; the status of `se_store_result_set` is not looked
at. -/
def cheshireSearch (session : ZSession) (query : Query) (replaceIndicator : Bool)
    (temp : TempFile) : Exec (ℤ × ZSession) := do
  let (finalSet, diagnostic, store) ← seProcessQuery server session.store query
  match finalSet with
  | none => .ok (diagnostic, { session with store := store })
  | some addr =>
    if diagnostic = 0 then do
      let (_, store) ← seStoreResultSet server.userid store (some addr) session.resultSetName
        (replaceFlag server replaceIndicator) temp
      let set ← store.load addr
      .ok (0, { session with store := store, resultCount := set.numHits })
    else .ok (diagnostic, { session with store := store, resultCount := 0 })

def executeQuery (session : ZSession) (query : Query) (request : SearchRequest) :
    Exec (ℤ × ZSession) :=
  cheshireSearch server { session with resultSetName := request.resultSetName } query
    request.replaceIndicator request.temp

/-- How many records the response to a search carries, and how it describes them. -/
def searchPresent (request : SearchRequest) (resultCount : ℤ) : Exec (ℤ × ℤ × ℤ) :=
  if resultCount > request.smallSetUpperBound then
    if resultCount < request.largeSetLowerBound then do
      let next ← checkInt (request.mediumSetPresentNumber + 1)
      .ok (request.mediumSetPresentNumber, next, 2)
    else .ok (0, 0, 0)
  else .ok (resultCount, 0, 2)

/-- The end of a search that was refused or failed. -/
def searchError (session : ZSession) (fetches : List Fetch) : SearchResponse × ZSession :=
  (⟨false, 0, 1, 0, 0, fetches⟩, { session with resultCount := 0 })

/-- The rest of `HandleSearchRequest` after a successful query. -/
def respondToSearch (session : ZSession) (request : SearchRequest) :
    Exec (SearchResponse × ZSession) := do
  let names := session.resultSetNames
  let session := { session with
    resultSetNames :=
      if session.resultCount > 0 ∧ acListSearch names request.resultSetName = false then
        names ++ [request.resultSetName]
      else names }
  let (numberRecordsReturned, next, presentStatus) ← searchPresent request session.resultCount
  if numberRecordsReturned > 0 then do
    let (fetched, session) ← retrieveRecords2 server session request.resultSetName 1
      numberRecordsReturned request.temp
    if fetched.complete then
      .ok (⟨true, session.resultCount, numberRecordsReturned, next, presentStatus, fetched.fetches⟩,
        session)
    else .ok (searchError session fetched.fetches)
  else
    .ok (⟨true, session.resultCount, numberRecordsReturned, next, presentStatus, []⟩, session)

def handleSearchRequest (session : ZSession) (request : SearchRequest) :
    Exec (SearchResponse × ZSession) :=
  let session := { session with resultCount := 0 }
  match request.query with
  | none => .ok (searchError session [])
  | some query =>
    if request.replaceIndicator = false ∧
        acListSearch session.resultSetNames request.resultSetName = true then
      .ok (searchError session [])
    else if server.namedResultSet = false ∧ isDefault request.resultSetName = false then
      .ok (searchError session [])
    else if request.otherChecks = false then .ok (searchError session [])
    else do
      let (diagnostic, session) ← executeQuery server session query request
      if diagnostic = 0 then respondToSearch server session request
      else .ok (searchError session [])

end

structure PresentRequest where
  resultSetId : Option SetName
  resultSetStartPoint : ℤ
  numberOfRecordsRequested : ℤ
  otherChecks : Bool
  temp : TempFile

structure PresentResponse where
  numberRecordsReturned : ℤ
  nextResultSetPosition : ℤ
  presentStatus : ℤ
  fetches : List Fetch

/-- All of the requested records are returned. -/
def PresentResponse.accepted (response : PresentResponse) : Bool := response.presentStatus = 0

/-- The record numbers that are returned. -/
def PresentResponse.records (response : PresentResponse) : List ℤ :=
  response.fetches.map Fetch.recordNum

def presentError (session : ZSession) (fetches : List Fetch) : PresentResponse × ZSession :=
  (⟨0, 0, 5, fetches⟩, session)

section

variable (server : Server)

/-- `resultCount` of a present request; the result of the last search is known to the session. -/
def presentCount (session : ZSession) (resultSetId : SetName) : ℤ :=
  if session.resultSetName.text ≠ resultSetId.text then
    seGetResultHits server session.store resultSetId
  else session.resultCount

/-- The end of `HandlePresentRequest` for a range that was found good. -/
def presentRecords (session : ZSession) (resultSetId : SetName) (startPoint number resultCount : ℤ)
    (temp : TempFile) : Exec (PresentResponse × ZSession) := do
  let numberRecordsReturned := min number resultCount
  let next ← checkInt (startPoint + numberRecordsReturned)
  let next := if next > resultCount then 0 else next
  let (fetched, session) ← retrieveRecords2 server session resultSetId startPoint
    numberRecordsReturned temp
  if fetched.complete then .ok (⟨numberRecordsReturned, next, 0, fetched.fetches⟩, session)
  else .ok (presentError session fetched.fetches)

def handlePresentRequest (session : ZSession) (request : PresentRequest) :
    Exec (PresentResponse × ZSession) :=
  match request.resultSetId with
  | none => .ok (presentError session [])
  | some resultSetId =>
    if request.otherChecks = false then .ok (presentError session [])
    else
      let startPoint := request.resultSetStartPoint
      let number := request.numberOfRecordsRequested
      let resultCount := presentCount server session resultSetId
      if session.resultSetName.text ≠ resultSetId.text ∧ resultCount < 0 then
        .ok (presentError session [])
      else if startPoint < 1 ∨ startPoint > resultCount ∨ number < 1 then
        .ok (presentError session [])
      else do
        let last ← checkInt (startPoint + number)
        let limit ← checkInt (resultCount + 1)
        if last > limit then .ok (presentError session [])
        else presentRecords server session resultSetId startPoint number resultCount request.temp

end

/-- `DeleteResultSetRequest`: all result sets, or a list of them. -/
inductive DeleteRequest where
  | all
  | list (resultSets : List SetName)

section

variable (server : Server)

/-- One pass of `RemoveListOfResultSets`; a name that the session does not know is left alone. -/
def removeResultSet (session : ZSession) (resultSetId : SetName) : Exec ZSession :=
  if acListSearch session.resultSetNames resultSetId = true then do
    let (_, store) ← seDeleteResultSet server.userid session.store resultSetId
    .ok { session with
      store := store
      resultSetNames := acListDelete session.resultSetNames resultSetId }
  else .ok session

/-- `HandleDeleteResultSetRequest` -/
def handleDeleteRequest (session : ZSession) : DeleteRequest → Exec ZSession
  | .all => session.resultSetNames.foldlM (removeResultSet server) session
  | .list resultSets => resultSets.foldlM (removeResultSet server) session

inductive ZRequest where
  | search (request : SearchRequest)
  | present (request : PresentRequest)
  | delete (request : DeleteRequest)

def stepSession (session : ZSession) : ZRequest → Exec ZSession
  | .search request => (handleSearchRequest server session request).map Prod.snd
  | .present request => (handlePresentRequest server session request).map Prod.snd
  | .delete request => handleDeleteRequest server session request

end

def ZSession.opened : ZSession where
  store := ResultStore.empty
  resultSetName := ⟨"", by simp, by decide⟩
  resultCount := 0
  resultSetNames := []

end Cheshire.Zserver
