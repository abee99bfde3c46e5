import Cheshire.Lib.Runs
import Cheshire.Zserver.SessionSearch

/-!
# Sessions along a sequence of requests

The session decides about a name from its own list and from its own count, while the store has a
table of its own.  Where the two agree, and the thresholds of the client fit the result, searches
store what they announce and presents return the records asked for.
-/

namespace Cheshire.Zserver

open Lib Search ResultStore

/-- The number of records that the response to a search carries. -/
def recordsReturned (request : SearchRequest) (resultCount : ℤ) : ℤ :=
  if resultCount > request.smallSetUpperBound then
    if resultCount < request.largeSetLowerBound then request.mediumSetPresentNumber else 0
  else resultCount

/-- The search is refused before its query is executed. -/
def Refused (server : Server) (session : ZSession) (request : SearchRequest) : Prop :=
  request.replaceIndicator = false ∧
      acListSearch session.resultSetNames request.resultSetName = true ∨
    server.namedResultSet = false ∧ isDefault request.resultSetName = false ∨
    request.otherChecks = false

section

variable (server : Server) (session : ZSession) (request : SearchRequest) (query : FinalSet)

/-- The count that the session reports. -/
def countOf : ℤ := (searchResult server session.store query).elim 0 WeightedResult.numHits

/-- What is stored under the name after the query was executed. -/
def storedAfter : Option WeightedResult :=
  match searchResult server session.store query with
  | some set => afterStore server.userid session.store request.resultSetName
      (replaceFlag server request.replaceIndicator) set
  | none => (storedSet server.userid session.store request.resultSetName).map content

/-- The name is free, may be replaced, or has this set already. -/
def Accepts (set : WeightedResult) : Prop :=
  AlreadyNamed set request.resultSetName ∨
      Taken server.userid session.store request.resultSetName ∧ request.replaceIndicator = false →
    (storedSet server.userid session.store request.resultSetName).map content = some (content set)

/-- The search reads its response from a set that is long enough and no bitmap, and the result of its
query does not become the set of two names. -/
structure SearchReads : Prop where
  valid : ValidQuery server request query
  apart : KeepsApart server session.store request query
  medium : -(2 ^ 31) ≤ request.mediumSetPresentNumber
  small : recordsReturned request (countOf server session query) < INT_MAX
  fits : 0 < recordsReturned request (countOf server session query) →
    ∀ set ∈ storedAfter server session request query, set.has BITMAP_RESULT = false ∧
      recordsReturned request (countOf server session query) ≤ set.numHits

/-- The query has a result, which the store takes under the name, and the response cannot fail after
it has replaced another set. -/
structure SearchTakes : Prop extends SearchReads server session request query where
  taken : searchDiagnostic server session.store query = 0 →
    ∃ set, searchResult server session.store query = some set ∧
      Accepts server session request set ∧
      (0 < recordsReturned request (countOf server session query) →
        Displayed server set 1 (recordsReturned request (countOf server session query)) ∨
          storedSet server.userid session.store request.resultSetName = none)

end

section

variable {server : Server} {session : ZSession} {request : SearchRequest} {query : FinalSet}

theorem storedAfter_of_accepts {set : WeightedResult}
    (hresult : searchResult server session.store query = some set)
    (haccepts : Accepts server session request set) :
    storedAfter server session request query = some (content set) := by
  rw [storedAfter, hresult]
  simp only [afterStore, replaceFlag_and]
  split_ifs with hcase
  · exact haccepts hcase
  · rfl

theorem recordsFrom_content (set : WeightedResult) (start number : ℤ) :
    recordsFrom (content set) start number = recordsFrom set start number := by
  simp [recordsFrom, WeightedResult.recordNums, content, WeightedResult.hits, List.take_take]

theorem displayed_content {set : WeightedResult} {start number : ℤ} :
    Displayed server (content set) start number ↔ Displayed server set start number := by
  rw [Displayed, Displayed, recordsFrom_content]
  rfl

theorem searchPresent_eq (count : ℤ) (hmedium : -(2 ^ 31) ≤ request.mediumSetPresentNumber)
    (hsmall : recordsReturned request count < INT_MAX) :
    ∃ next presentStatus, searchPresent request count =
      .ok (recordsReturned request count, next, presentStatus) := by
  rw [searchPresent, recordsReturned] at *
  split_ifs at hsmall ⊢
  · have hcheck := checkInt_of_le (by omega) (Int.add_one_le_of_lt hsmall)
    exact ⟨_, 2, by rw [hcheck]; rfl⟩
  · exact ⟨0, 0, rfl⟩
  · exact ⟨0, 2, rfl⟩

theorem respondToSearch_spec (h : InCore server.userid session.store)
    (hmedium : -(2 ^ 31) ≤ request.mediumSetPresentNumber)
    (hsmall : recordsReturned request session.resultCount < INT_MAX)
    (hfits : 0 < recordsReturned request session.resultCount → ∀ set,
      storedSet server.userid session.store request.resultSetName = some set →
        set.has BITMAP_RESULT = false ∧
        recordsReturned request session.resultCount ≤ set.numHits) :
    ∃ response session', respondToSearch server session request = .ok (response, session') ∧
      InCore server.userid session'.store ∧
      (∀ key, storedAt session'.store key = storedAt session.store key) ∧
      (∀ fetch ∈ response.fetches, fetch.Inside) ∧
      (response.searchStatus = true → response.resultCount = session.resultCount) ∧
      (response.searchStatus = true ↔ (0 < recordsReturned request session.resultCount → ∃ set,
        storedSet server.userid session.store request.resultSetName = some set ∧
          Displayed server set 1 (recordsReturned request session.resultCount))) := by
  obtain ⟨next, presentStatus, hpresent⟩ :=
    searchPresent_eq session.resultCount hmedium hsmall
  simp only [respondToSearch, hpresent, bind, Except.bind]
  by_cases hpos : 0 < recordsReturned request session.resultCount
  · rw [if_pos hpos]
    simp only [hpos, true_imp_iff]
    generalize hknown : ({ session with
      resultSetNames :=
        if session.resultCount > 0 ∧
            acListSearch session.resultSetNames request.resultSetName = false then
          session.resultSetNames ++ [request.resultSetName]
        else session.resultSetNames } : ZSession) = known
    have hstore : known.store = session.store := by rw [← hknown]
    have hcount : known.resultCount = session.resultCount := by rw [← hknown]
    have hinv : InCore server.userid known.store := hstore ▸ h
    have hsum : 1 + recordsReturned request session.resultCount ≤ INT_MAX := by omega
    cases hstored : storedSet server.userid session.store request.resultSetName with
    | none =>
      obtain ⟨session', hrun, hkept⟩ := retrieveRecords2_missing hinv (hstore ▸ hstored) le_rfl hpos hsum request.temp
      rw [hrun]
      refine ⟨_, _, rfl, hkept.inCore, fun key ↦ (hkept.same key).trans (by rw [hstore]), by simp,
        fun hfalse ↦ absurd hfalse Bool.false_ne_true, ?_⟩
      simp
    | some set =>
      obtain ⟨hbitmap, hwithin⟩ := hfits hpos set hstored
      obtain ⟨fetched, session', hrun, hkept, hinside, hcomplete, -⟩ :=
        retrieveRecords2_stored hinv (hstore ▸ hstored) hbitmap le_rfl hpos.le
          (by omega) hsum request.temp
      rw [hrun]
      have hsame (key : String) : storedAt session'.store key = storedAt session.store key :=
        (hkept.same key).trans (by rw [hstore])
      simp only [Option.some.injEq, exists_eq_left']
      rw [← hcomplete]
      by_cases hdone : fetched.complete = true
      · rw [if_pos hdone]
        exact ⟨_, _, rfl, hkept.inCore, hsame, hinside, fun _ ↦ hkept.count.trans hcount,
          iff_of_true rfl hdone⟩
      · rw [if_neg hdone]
        exact ⟨_, _, rfl, hkept.inCore, hsame, hinside,
          fun hfalse ↦ absurd hfalse Bool.false_ne_true, iff_of_false Bool.false_ne_true hdone⟩
  · rw [if_neg hpos]
    exact ⟨_, _, rfl, h, fun _ ↦ rfl, by simp, fun _ ↦ rfl,
      iff_of_true rfl fun hfalse ↦ absurd hfalse hpos⟩

theorem handleSearchRequest_refused
    (hrefused : request.query = none ∨ Refused server session request) :
    handleSearchRequest server session request =
      .ok (searchError { session with resultCount := 0 } []) := by
  rw [handleSearchRequest]
  cases hquery : request.query with
  | none => rfl
  | some query =>
    rcases hrefused with hnone | hcase | hcase | hcase
    · rw [hquery] at hnone
      cases hnone
    · exact if_pos hcase
    · by_cases hfirst : request.replaceIndicator = false ∧
          acListSearch session.resultSetNames request.resultSetName = true
      · exact if_pos hfirst
      · exact (if_neg hfirst).trans (if_pos hcase)
    · simp only
      split_ifs <;> rfl

theorem handleSearchRequest_executed {query : Query} {store : ResultStore}
    (hquery : request.query = some query) (hallowed : ¬Refused server session request)
    (heffects : runEffects server session.store query.effects = .ok store)
    (h : InCore server.userid store)
    (hreads : SearchReads server { session with store := store } request query.finalSet) :
    ∃ response session', handleSearchRequest server session request = .ok (response, session') ∧
      InCore server.userid session'.store ∧ (∀ fetch ∈ response.fetches, fetch.Inside) ∧
      (response.searchStatus = true → searchDiagnostic server store query.finalSet = 0 ∧
        (∀ set, searchResult server store query.finalSet = some set →
          response.resultCount = set.numHits) ∧
        (storedSet server.userid session'.store request.resultSetName).map content =
          storedAfter server { session with store := store } request query.finalSet) ∧
      (response.searchStatus = false →
        searchDiagnostic server store query.finalSet ≠ 0 ∧
          storedSet server.userid session'.store request.resultSetName =
            storedSet server.userid store request.resultSetName ∨
        searchDiagnostic server store query.finalSet = 0 ∧
          0 < recordsReturned request (countOf server { session with store := store } query.finalSet) ∧
          ∀ set, storedAfter server { session with store := store } request query.finalSet = some set →
            ¬Displayed server set 1
              (recordsReturned request
                (countOf server { session with store := store } query.finalSet))) := by
  have hfirst : ¬(request.replaceIndicator = false ∧
      acListSearch session.resultSetNames request.resultSetName = true) :=
    fun hcase ↦ hallowed (.inl hcase)
  have hsecond : ¬(server.namedResultSet = false ∧ isDefault request.resultSetName = false) :=
    fun hcase ↦ hallowed (.inr (.inl hcase))
  have hthird : ¬request.otherChecks = false := fun hcase ↦ hallowed (.inr (.inr hcase))
  let started : ZSession := { session with resultCount := 0, store := store }
  obtain ⟨executed, hrun, hexec⟩ := @executeQuery_spec _ started _ _ h rfl hreads.valid
    hreads.apart
  rw [← @executeQuery_of_effects _ { session with resultCount := 0 } _ query _ heffects] at hrun
  have hhandle : handleSearchRequest server session request =
      if searchDiagnostic server store query.finalSet = 0 then
        respondToSearch server executed request
      else .ok (searchError executed []) := by
    simp only [handleSearchRequest, hquery, if_neg hfirst, if_neg hsecond, if_neg hthird]
    exact congrArg (· >>= fun (result : ℤ × ZSession) ↦
      if result.1 = 0 then respondToSearch server result.2 request
      else .ok (searchError result.2 [])) hrun
  rw [hhandle]
  by_cases hdiag : searchDiagnostic server store query.finalSet = 0
  · have hcount : executed.resultCount = countOf server { session with store := store } query.finalSet := by
      rw [countOf]
      cases hresult : searchResult server store query.finalSet with
      | none => exact (hexec.failed hresult).2
      | some set => exact (hexec.found set hresult).2
    have hafter : (storedSet server.userid executed.store request.resultSetName).map content =
        storedAfter server { session with store := store } request query.finalSet := by
      rw [storedAfter]
      cases hresult : searchResult server store query.finalSet with
      | none => exact congrArg (Option.map content) (hexec.failed hresult).1
      | some set => exact (hexec.found set hresult).1
    have hsmall := hreads.small
    have hfits := hreads.fits
    rw [← hcount] at hsmall hfits ⊢
    obtain ⟨response, session', hrespond, hinv, hsame, hinside, hreported, hstatus⟩ :=
      respondToSearch_spec hexec.inCore hreads.medium hsmall
        (fun hpos set hset ↦ hfits hpos (content set) (by rw [← hafter, hset]; rfl))
    have hstored : storedSet server.userid session'.store request.resultSetName =
        storedSet server.userid executed.store request.resultSetName := hsame _
    rw [if_pos hdiag]
    refine ⟨response, session', hrespond, hinv, hinside, fun htrue ↦ ⟨hdiag, fun set hset ↦ ?_, ?_⟩,
      fun hfalse ↦ .inr ⟨hdiag, ?_⟩⟩
    · rw [hreported htrue, hcount, countOf, hset]
      rfl
    · rw [hstored, hafter]
    · rw [← Bool.not_eq_true, hstatus, Classical.not_imp] at hfalse
      refine ⟨hfalse.1, fun set hset hdisplayed ↦ hfalse.2 ?_⟩
      rw [← hafter, Option.map_eq_some_iff] at hset
      obtain ⟨stored, hold, rfl⟩ := hset
      exact ⟨stored, hold, displayed_content.mp hdisplayed⟩
  · have hresult : searchResult server started.store query.finalSet = none := if_neg hdiag
    rw [if_neg hdiag]
    exact ⟨_, _, rfl, hexec.inCore, by simp,
      fun htrue ↦ absurd htrue Bool.false_ne_true, fun _ ↦ .inl ⟨hdiag, (hexec.failed hresult).1⟩⟩

end

/-- The session's count belongs to the set that is presented, no sum overflows, and the records asked
for can be retrieved. -/
structure PresentReads (server : Server) (session : ZSession) (setid : SetName)
    (request : PresentRequest) : Prop where
  counted : session.resultSetName.text = setid.text → ∀ set,
    storedSet server.userid session.store setid = some set → session.resultCount = set.numHits
  sums : 1 ≤ request.resultSetStartPoint →
    request.resultSetStartPoint ≤ presentCount server session setid →
    1 ≤ request.numberOfRecordsRequested →
      request.resultSetStartPoint + request.numberOfRecordsRequested ≤ INT_MAX ∧
        presentCount server session setid < INT_MAX
  retrievable : ∀ set, storedSet server.userid session.store setid = some set →
    1 ≤ request.resultSetStartPoint → 1 ≤ request.numberOfRecordsRequested →
    request.resultSetStartPoint + request.numberOfRecordsRequested ≤ set.numHits + 1 →
      set.has BITMAP_RESULT = false ∧ Displayed server set request.resultSetStartPoint
        request.numberOfRecordsRequested

/-- The range of a present request lies within a set. -/
structure InRange (request : PresentRequest) (set : WeightedResult) : Prop where
  start : 1 ≤ request.resultSetStartPoint
  number : 1 ≤ request.numberOfRecordsRequested
  last : request.resultSetStartPoint + request.numberOfRecordsRequested - 1 ≤ set.numHits

section

variable {server : Server} {session : ZSession} {request : PresentRequest} {setid : SetName}

theorem not_accepted_presentError (session : ZSession) (fetches : List Fetch) :
    ¬(presentError session fetches).1.accepted = true := by
  simp [presentError, PresentResponse.accepted]

theorem handlePresentRequest_missing (h : InCore server.userid session.store)
    (hsetid : request.resultSetId = some setid) (hchecks : request.otherChecks = true)
    (hreads : PresentReads server session setid request)
    (hnone : storedSet server.userid session.store setid = none) :
    ∃ response session', handlePresentRequest server session request = .ok (response, session') ∧
      InCore server.userid session'.store ∧ response.fetches = [] ∧ ¬response.accepted = true := by
  have hrefused : ∃ response session', Except.ok (presentError session []) =
      (.ok (response, session') : Exec (PresentResponse × ZSession)) ∧
      InCore server.userid session'.store ∧ response.fetches = [] ∧ ¬response.accepted = true :=
    ⟨_, _, rfl, h, rfl, not_accepted_presentError session []⟩
  have hchecks' : ¬request.otherChecks = false := by
    simp [hchecks]
  simp only [handlePresentRequest, hsetid, if_neg hchecks']
  split_ifs with hmissing hrange
  · exact hrefused
  · exact hrefused
  · rw [not_or, not_or, not_lt, not_lt, not_lt] at hrange
    obtain ⟨hstart, hcount, hnumber⟩ := hrange
    obtain ⟨hsum, hlimit⟩ := hreads.sums hstart hcount hnumber
    have hlast := checkInt_of_le (by omega) hsum
    have hmore := checkInt_of_le (by omega) (Int.add_one_le_of_lt hlimit)
    simp only [hlast, hmore, bind, Except.bind]
    split_ifs with hbeyond
    · exact hrefused
    · have hmin : min request.numberOfRecordsRequested (presentCount server session setid) =
          request.numberOfRecordsRequested := min_eq_left (by omega)
      obtain ⟨session', hrun, hkept⟩ := retrieveRecords2_missing h hnone hstart
        (show 0 < request.numberOfRecordsRequested by omega) hsum request.temp
      simp only [presentRecords, hmin, hlast, hrun, bind, Except.bind]
      exact ⟨_, _, rfl, hkept.inCore, rfl, not_accepted_presentError session' []⟩

theorem handlePresentRequest_stored (h : InCore server.userid session.store)
    (hsetid : request.resultSetId = some setid) (hchecks : request.otherChecks = true)
    (hreads : PresentReads server session setid request) {set : WeightedResult}
    (hset : storedSet server.userid session.store setid = some set) :
    ∃ response session', handlePresentRequest server session request = .ok (response, session') ∧
      InCore server.userid session'.store ∧ (∀ fetch ∈ response.fetches, fetch.Inside) ∧
      (response.accepted = true ↔ InRange request set) ∧
      (response.accepted = true → response.records =
        recordsFrom set request.resultSetStartPoint request.numberOfRecordsRequested) := by
  have hrefused (hrange : ¬InRange request set) : ∃ response session',
      Except.ok (presentError session []) =
        (.ok (response, session') : Exec (PresentResponse × ZSession)) ∧
      InCore server.userid session'.store ∧ (∀ fetch ∈ response.fetches, fetch.Inside) ∧
      (response.accepted = true ↔ InRange request set) ∧
      (response.accepted = true → response.records =
        recordsFrom set request.resultSetStartPoint request.numberOfRecordsRequested) := by
    refine ⟨_, _, rfl, h, by simp, ?_, fun htrue ↦ ?_⟩
    · exact iff_of_false (not_accepted_presentError session []) hrange
    · exact absurd htrue (not_accepted_presentError session [])
  have hchecks' : ¬request.otherChecks = false := by
    simp [hchecks]
  have hcount : presentCount server session setid = set.numHits := by
    rw [presentCount]
    split_ifs with hname
    · exact seGetResultHits_of_stored h hset
    · exact hreads.counted (not_not.mp hname) set hset
  have hsums := hreads.sums
  rw [hcount] at hsums
  simp only [handlePresentRequest, hsetid, if_neg hchecks', hcount]
  split_ifs with hfound hrange
  · apply hrefused
    rintro ⟨hstart, hnumber, hlast⟩
    have hneg := hfound.2
    omega
  · apply hrefused
    rintro ⟨hstart, hnumber, hlast⟩
    omega
  · rw [not_or, not_or, not_lt, not_lt, not_lt] at hrange
    obtain ⟨hstart, hwithin, hnumber⟩ := hrange
    obtain ⟨hsum, hlimit⟩ := hsums hstart hwithin hnumber
    have hlast := checkInt_of_le (by omega) hsum
    have hmore := checkInt_of_le (by omega) (Int.add_one_le_of_lt hlimit)
    simp only [hlast, hmore, bind, Except.bind]
    split_ifs with hbeyond
    · apply hrefused
      rintro ⟨-, -, hinside⟩
      omega
    · have hmin : min request.numberOfRecordsRequested set.numHits =
          request.numberOfRecordsRequested := min_eq_left (by omega)
      obtain ⟨hbitmap, hdisplayed⟩ := hreads.retrievable set hset hstart hnumber (by omega)
      obtain ⟨fetched, session', hrun, hkept, hinside, hcomplete, hrecords⟩ :=
        retrieveRecords2_stored h hset hbitmap hstart
          (show 0 ≤ request.numberOfRecordsRequested by omega) (by omega)
          hsum request.temp
      have hdone := hcomplete.mpr hdisplayed
      simp only [presentRecords, hmin, hlast, hrun, bind, Except.bind, if_pos hdone]
      refine ⟨_, _, rfl, hkept.inCore, hinside, ?_, fun _ ↦ hrecords hdone⟩
      exact iff_of_true rfl ⟨hstart, hnumber, by omega⟩

theorem removeResultSet_inCore (h : InCore server.userid session.store) (setid : SetName) :
    ∃ session', removeResultSet server session setid = .ok session' ∧
      InCore server.userid session'.store := by
  rw [removeResultSet]
  split_ifs
  · obtain ⟨status, store, hrun, hinv, -⟩ := h.delete setid
    rw [hrun]
    exact ⟨_, rfl, hinv⟩
  · exact ⟨session, rfl, h⟩

theorem removeAll_inCore (setids : List SetName) : ∀ {session : ZSession},
    InCore server.userid session.store →
    ∃ session', setids.foldlM (removeResultSet server) session = .ok session' ∧
      InCore server.userid session'.store := by
  induction setids with
  | nil => exact fun {session} h ↦ ⟨session, rfl, h⟩
  | cons setid setids ih =>
    intro session h
    obtain ⟨next, hrun, hnext⟩ := removeResultSet_inCore h setid
    obtain ⟨session', hrest, hinv⟩ := ih hnext
    refine ⟨session', ?_, hinv⟩
    rw [List.foldlM_cons, hrun]
    exact hrest

theorem handleDeleteRequest_inCore (h : InCore server.userid session.store)
    (request : DeleteRequest) :
    ∃ session', handleDeleteRequest server session request = .ok session' ∧
      InCore server.userid session'.store := by
  cases request with
  | all => exact removeAll_inCore _ h
  | list resultSets => exact removeAll_inCore resultSets h

end

section

variable (server : Server)

/-- The requests of a session, each in the state that the ones before it have left, meet a
condition. -/
def SessionAlong (cond : ZSession → ZRequest → Prop) (requests : List ZRequest) : Prop :=
  Runs.Along (stepSession server) (fun _ _ _ ↦ ()) (fun session (_ : Unit) request ↦
    cond session request) ZSession.opened () requests

/-- Every request of a session returns, and is answered as it should be in the state in which it
comes. -/
def SessionAnswers (answer : ZSession → ZRequest → Prop) (requests : List ZRequest) : Prop :=
  Runs.Throughout (stepSession server) (fun _ _ _ ↦ ()) (fun _ (_ : Unit) ↦ True)
    (fun session request _ ↦ answer session request) ZSession.opened () requests

/-- A present request is accepted exactly when its range lies within the set that is stored, and
returns the records of the range; presents and searches read inside the set. -/
def PresentsRight (session : ZSession) : ZRequest → Prop
  | .search request => ∃ response session',
      handleSearchRequest server session request = .ok (response, session') ∧
        ∀ fetch ∈ response.fetches, fetch.Inside
  | .present request => ∃ response session',
      handlePresentRequest server session request = .ok (response, session') ∧
        (∀ fetch ∈ response.fetches, fetch.Inside) ∧
        ∀ setid, request.resultSetId = some setid → request.otherChecks = true →
          (response.accepted = true ↔ ∃ set,
            storedSet server.userid session.store setid = some set ∧ InRange request set) ∧
          ∀ set, storedSet server.userid session.store setid = some set →
            response.accepted = true → response.records =
              recordsFrom set request.resultSetStartPoint request.numberOfRecordsRequested
  | .delete _ => True

/-- The condition for reading the right records. -/
def ReadsRight (session : ZSession) : ZRequest → Prop
  | .search request => ∀ query, request.query = some query → ¬Refused server session request →
      EffectsFit server session.store query.effects ∧
        ∀ store, runEffects server session.store query.effects = .ok store →
          SearchReads server { session with store := store } request query.finalSet
  | .present request => ∀ setid, request.resultSetId = some setid → request.otherChecks = true →
      PresentReads server session setid request
  | .delete _ => True

/-- A successful search response describes the set that is then stored, and any other leaves the set
that was stored. -/
def SearchesRight (session : ZSession) : ZRequest → Prop
  | .search request => ∃ response session',
      handleSearchRequest server session request = .ok (response, session') ∧
        (response.searchStatus = true → ∃ query store set newset, request.query = some query ∧
          runEffects server session.store query.effects = .ok store ∧
          foundSet server store query.finalSet = some set ∧
          storedSet server.userid session'.store request.resultSetName = some newset ∧
          content newset = content set ∧ newset.numHits = response.resultCount) ∧
        (response.searchStatus = false → ∀ set,
          storedSet server.userid session.store request.resultSetName = some set →
            storedSet server.userid session'.store request.resultSetName = some set)
  | _ => True

/-- The effects of a query that fails are not on the set under the name of the request. -/
def SparesStored (session : ZSession) (request : SearchRequest) (query : Query)
    (store : ResultStore) : Prop :=
  searchDiagnostic server store query.finalSet ≠ 0 → ∀ set,
    storedSet server.userid session.store request.resultSetName = some set →
      ∀ effect ∈ query.effects,
        effect.Spares server (request.resultSetName.orDefault.tempSetid server.userid) set

/-- The condition for storing what is announced. -/
def StoresRight (session : ZSession) : ZRequest → Prop
  | .search request => ∀ query, request.query = some query → ¬Refused server session request →
      EffectsFit server session.store query.effects ∧
        ∀ store, runEffects server session.store query.effects = .ok store →
          SearchTakes server { session with store := store } request query.finalSet ∧
          SparesStored server session request query store
  | request => ReadsRight server session request

end

section

variable {server : Server} {session : ZSession}

theorem searchStep (h : InCore server.userid session.store) (request : SearchRequest)
    (hcond : ReadsRight server session (.search request)) :
    ∃ response session', handleSearchRequest server session request = .ok (response, session') ∧
      InCore server.userid session'.store ∧ ∀ fetch ∈ response.fetches, fetch.Inside := by
  by_cases hexecuted : request.query = none ∨ Refused server session request
  · rw [handleSearchRequest_refused hexecuted]
    exact ⟨_, _, rfl, h, by simp⟩
  · rw [not_or] at hexecuted
    obtain ⟨query, hquery⟩ := Option.ne_none_iff_exists'.mp hexecuted.1
    obtain ⟨hfits, hreads⟩ := hcond query hquery hexecuted.2
    obtain ⟨store, heffects, hstore, -⟩ := h.effects hfits
    obtain ⟨response, session', hrun, hinv, hinside, -⟩ :=
      handleSearchRequest_executed hquery hexecuted.2 heffects hstore (hreads store heffects)
    exact ⟨response, session', hrun, hinv, hinside⟩

theorem presentStep (h : InCore server.userid session.store) (request : PresentRequest)
    (hcond : ReadsRight server session (.present request)) :
    PresentsRight server session (.present request) ∧ ∃ response session',
      handlePresentRequest server session request = .ok (response, session') ∧
        InCore server.userid session'.store := by
  cases hsetid : request.resultSetId with
  | none =>
    have hrun : handlePresentRequest server session request = .ok (presentError session []) := by
      rw [handlePresentRequest, hsetid]
    refine ⟨⟨_, _, hrun, by simp, fun setid hsome ↦ ?_⟩, _, _, hrun, h⟩
    rw [hsetid] at hsome
    cases hsome
  | some setid =>
    by_cases hchecks : request.otherChecks = false
    · have hrun : handlePresentRequest server session request =
          .ok (presentError session []) := by
        simp only [handlePresentRequest, hsetid, if_pos hchecks]
      refine ⟨⟨_, _, hrun, by simp, fun setid _ htrue ↦ ?_⟩, _, _, hrun, h⟩
      rw [hchecks] at htrue
      exact absurd htrue Bool.false_ne_true
    rw [Bool.not_eq_false] at hchecks
    have hreads := hcond setid hsetid hchecks
    cases hstored : storedSet server.userid session.store setid with
    | none =>
      obtain ⟨response, session', hrun, hinv, hfetches, hrefused⟩ :=
        handlePresentRequest_missing h hsetid hchecks hreads hstored
      refine ⟨⟨response, session', hrun, by simp [hfetches], fun other hother _ ↦ ?_⟩, response,
        session', hrun, hinv⟩
      rw [hsetid, Option.some.injEq] at hother
      subst hother
      rw [hstored]
      exact ⟨iff_of_false hrefused (by simp), fun set hset ↦ by cases hset⟩
    | some set =>
      obtain ⟨response, session', hrun, hinv, hinside, haccepted, hrecords⟩ :=
        handlePresentRequest_stored h hsetid hchecks hreads hstored
      refine ⟨⟨response, session', hrun, hinside, fun other hother _ ↦ ?_⟩, response, session',
        hrun, hinv⟩
      rw [hsetid, Option.some.injEq] at hother
      subst hother
      rw [hstored]
      simp only [Option.some.injEq, exists_eq_left', forall_eq']
      exact ⟨haccepted, hrecords⟩

/-- Along every sequence of requests that meet the condition, each present request is accepted
exactly when its range lies within the set now stored, and nothing is read outside a set. -/
theorem presentsRight_of_along (server : Server) (requests : List ZRequest)
    (hcond : SessionAlong server (ReadsRight server) requests) :
    SessionAnswers server (PresentsRight server) requests := by
  refine Runs.throughout_of_along (fun session ↦ InCore server.userid session.store) ?_
    (inCore_empty server.userid) trivial hcond
  intro session _ request h _ hrequest
  cases request with
  | search request =>
    obtain ⟨response, session', hrun, hinv, hinside⟩ := searchStep h request hrequest
    exact ⟨session', by rw [stepSession, hrun]; rfl, hinv, ⟨response, session', hrun, hinside⟩,
      trivial⟩
  | present request =>
    obtain ⟨hright, response, session', hrun, hinv⟩ := presentStep h request hrequest
    exact ⟨session', by rw [stepSession, hrun]; rfl, hinv, hright, trivial⟩
  | delete request =>
    obtain ⟨session', hrun, hinv⟩ := handleDeleteRequest_inCore h request
    exact ⟨session', hrun, hinv, trivial, trivial⟩

theorem searchesRight_of_takes (h : InCore server.userid session.store) (request : SearchRequest)
    (hcond : StoresRight server session (.search request)) :
    SearchesRight server session (.search request) := by
  by_cases hexecuted : request.query = none ∨ Refused server session request
  · refine ⟨_, _, handleSearchRequest_refused hexecuted, ?_, fun _ set hset ↦ hset⟩
    exact fun htrue ↦ absurd htrue Bool.false_ne_true
  rw [not_or] at hexecuted
  obtain ⟨query, hquery⟩ := Option.ne_none_iff_exists'.mp hexecuted.1
  obtain ⟨hfits, hcond⟩ := hcond query hquery hexecuted.2
  obtain ⟨store, heffects, hstore, hkept⟩ := h.effects hfits
  obtain ⟨htakes, hspares⟩ := hcond store heffects
  obtain ⟨response, session', hrun, hinv, -, hsucceeded, hfailed⟩ :=
    handleSearchRequest_executed hquery hexecuted.2 heffects hstore htakes.toSearchReads
  refine ⟨response, session', hrun, fun htrue ↦ ?_, fun hfalse old hold ↦ ?_⟩
  · obtain ⟨hdiag, hcount, hstored⟩ := hsucceeded htrue
    obtain ⟨set, hresult, haccepts, -⟩ := htakes.taken hdiag
    rw [storedAfter_of_accepts hresult haccepts, Option.map_eq_some_iff] at hstored
    obtain ⟨newset, hnewset, hcontent⟩ := hstored
    have hfound : foundSet server store query.finalSet = some set := by
      rw [searchResult, if_pos hdiag] at hresult
      exact hresult
    have hhits : (content newset).numHits = (content set).numHits := by rw [hcontent]
    exact ⟨query, store, set, newset, hquery, heffects, hfound, hnewset, hcontent,
      hhits.trans (hcount set hresult).symm⟩
  · rcases hfailed hfalse with ⟨hdiag, hsame⟩ | ⟨hdiag, hreturned, hhidden⟩
    · obtain ⟨set, hset, hspared⟩ := hkept _ old hold
      exact hsame.trans (hspared (hspares hdiag old hold) ▸ hset)
    · obtain ⟨set, hresult, haccepts, hdisplayed⟩ := htakes.taken hdiag
      rcases hdisplayed hreturned with hshown | hnone
      · exact absurd (displayed_content.mpr hshown) (hhidden _ (storedAfter_of_accepts hresult haccepts))
      · obtain ⟨set, hset, -⟩ := hkept _ old hold
        exact absurd (hset.symm.trans hnone) (by simp)

end

/-- A server that keeps result sets in core and can display every record. -/
def exampleServer : Server where
  userid := 0
  namedResultSet := true
  disableSavingResultSets := true
  idx := Index.IdxListEntry.created Index.BITMAPPED_TYPE
  display := fun _ _ _ _ ↦ 0

/-- A result set as a search builds it. -/
def builtSet (records : List ℤ) : WeightedResult :=
  { WeightedResult.ofRecords "DB" records with
    entries := records.map (fun record ↦ ⟨record, 0, 1⟩) ++ [WeightedEntry.zero] }

theorem spare_builtSet (records : List ℤ) : (builtSet records).Spare := by
  constructor <;> simp [builtSet, WeightedResult.ofRecords]

def nameR : SetName := ⟨"R", by simp, by decide⟩

/-- A search whose response carries no records. -/
def searchFor (records : List ℤ) (replaceIndicator : Bool) : SearchRequest where
  query := some ⟨[], .fresh (builtSet records) 0⟩
  resultSetName := nameR
  replaceIndicator := replaceIndicator
  smallSetUpperBound := 0
  largeSetLowerBound := 1
  mediumSetPresentNumber := 0
  otherChecks := true
  temp := ⟨"chesh1", true⟩

def presentOf (start number : ℤ) : PresentRequest where
  resultSetId := some nameR
  resultSetStartPoint := start
  numberOfRecordsRequested := number
  otherChecks := true
  temp := ⟨"chesh2", true⟩

/-- The session after the first search. -/
def searchedOnce (records : List ℤ) : ZSession where
  store :=
    let set := { builtSet records with setid := "R" }
    ((((ResultStore.empty.alloc (builtSet records)).initTable.setHeap 0 (some set)).setEntry
      (nameR.tempSetid 0) (some ⟨"chesh1", 0, some 0, set.header⟩)).setFile "chesh1" none)
  resultSetName := nameR
  resultCount := records.length
  resultSetNames := if (records.length : ℤ) > 0 then [nameR] else []

theorem stepSession_first (replaceIndicator : Bool) :
    stepSession exampleServer ZSession.opened (.search (searchFor [7, 9] replaceIndicator)) =
      .ok (searchedOnce [7, 9]) := by
  cases replaceIndicator <;> rfl

theorem storedSet_searchedOnce (records : List ℤ) :
    storedSet 0 (searchedOnce records).store nameR =
      some { builtSet records with setid := "R" } := by
  simp [storedSet, storedAt, searchedOnce, SetName.orDefault, nameR]

theorem searchReads_first (replaceIndicator : Bool) :
    SearchReads exampleServer ZSession.opened (searchFor [7, 9] replaceIndicator)
      (.fresh (builtSet [7, 9]) 0) := by
  have hreturned : recordsReturned (searchFor [7, 9] replaceIndicator)
      (countOf exampleServer ZSession.opened (.fresh (builtSet [7, 9]) 0)) = 0 := by
    cases replaceIndicator <;> rfl
  constructor
  · exact .inl (spare_builtSet _)
  · intro setid diagnostic hstored
    cases hstored
  · rw [searchFor]
    norm_num
  · rw [hreturned]
    decide
  · intro hpos
    rw [hreturned] at hpos
    cases hpos

theorem presentsRight_searchPresent :
    SessionAnswers exampleServer (PresentsRight exampleServer)
      [.search (searchFor [7, 9] true), .present (presentOf 1 2)] := by
  refine presentsRight_of_along exampleServer _ ⟨?_, fun session hsession ↦ ⟨?_, fun _ _ ↦ trivial⟩⟩
  · intro query hquery _
    cases hquery
    refine ⟨trivial, fun store heffects ↦ ?_⟩
    cases heffects
    exact searchReads_first true
  · rw [stepSession_first, Except.ok.injEq] at hsession
    subst hsession
    intro setid hsetid _
    cases hsetid
    have hstored : storedSet exampleServer.userid (searchedOnce [7, 9]).store nameR = _ :=
      storedSet_searchedOnce [7, 9]
    refine ⟨?_, ?_, ?_⟩
    · intro _ set hset
      rw [hstored, Option.some.injEq] at hset
      subst hset
      rfl
    · decide
    · intro set hset _ _ _
      rw [hstored, Option.some.injEq] at hset
      subst hset
      exact ⟨by decide, fun _ _ ↦ rfl⟩

/-- A search under a name that must not be replaced is refused, and with it every present of the set
under that name. -/
theorem presentsRight_refusedSearch :
    ¬SessionAnswers exampleServer (PresentsRight exampleServer)
      [.search (searchFor [7, 9] true), .search (searchFor [7] false), .present (presentOf 1 1)] := by
  rintro ⟨-, session, hfirst, -, -, session', hsecond, -, -, session'', hthird, hright, -⟩
  rw [stepSession_first, Except.ok.injEq] at hfirst
  subst hfirst
  have hrefused : stepSession exampleServer (searchedOnce [7, 9]) (.search (searchFor [7] false)) =
      .ok { searchedOnce [7, 9] with resultCount := 0 } := rfl
  rw [hrefused, Except.ok.injEq] at hsecond
  subst hsecond
  obtain ⟨response, session, hrun, -, hanswer⟩ := hright
  have hpresent : handlePresentRequest exampleServer { searchedOnce [7, 9] with resultCount := 0 }
      (presentOf 1 1) = .ok (presentError { searchedOnce [7, 9] with resultCount := 0 } []) := rfl
  rw [hpresent, Except.ok.injEq] at hrun
  cases hrun
  have haccepted := (hanswer nameR rfl rfl).1.mpr
    ⟨_, storedSet_searchedOnce [7, 9], ⟨by decide, by decide, by decide⟩⟩
  exact absurd haccepted (by decide)

theorem handleSearchRequest_afterEmpty :
    handleSearchRequest exampleServer (searchedOnce []) (searchFor [7] false) =
      .ok (⟨true, 1, 0, 0, 0, []⟩, { searchedOnce [] with
        store := ((searchedOnce []).store.alloc (builtSet [7])).initTable
        resultCount := 1
        resultSetNames := [nameR] }) := by
  have hentry : ((searchedOnce []).store.alloc (builtSet [7])).table (nameR.tempSetid 0) =
      some ⟨"chesh1", 0, some 0, ({ builtSet [] with setid := "R" } : WeightedResult).header⟩ := by
    simp only [searchedOnce, alloc_table, setFile_table, setEntry_table, Function.update_self]
  have hstored : seStoreResultSet 0 ((searchedOnce []).store.alloc (builtSet [7])) (some 1) nameR 4
      ⟨"chesh1", true⟩ =
        .ok (.fail, ((searchedOnce []).store.alloc (builtSet [7])).initTable) := by
    have hheap : ((searchedOnce []).store.alloc (builtSet [7])).heap 1 = some (builtSet [7]) := rfl
    rw [seStoreResultSet_eq hheap (by decide), entryOf_of_ne (by decide), hentry]
    rfl
  have hsearch : executeQuery exampleServer { searchedOnce [] with resultCount := 0 }
      ⟨[], .fresh (builtSet [7]) 0⟩ (searchFor [7] false) =
        (seStoreResultSet 0 ((searchedOnce []).store.alloc (builtSet [7])) (some 1)
          nameR 4 ⟨"chesh1", true⟩ >>= fun stored ↦ stored.2.load 1 >>= fun set ↦
            .ok (0, { searchedOnce [] with store := stored.2, resultCount := set.numHits })) := rfl
  rw [hstored] at hsearch
  have hrun : handleSearchRequest exampleServer (searchedOnce []) (searchFor [7] false) =
      (executeQuery exampleServer { searchedOnce [] with resultCount := 0 }
        ⟨[], .fresh (builtSet [7]) 0⟩ (searchFor [7] false) >>= fun executed ↦
          if executed.1 = 0 then respondToSearch exampleServer executed.2 (searchFor [7] false)
          else .ok (searchError executed.2 [])) := rfl
  rw [hrun, hsearch]
  rfl

end Cheshire.Zserver
