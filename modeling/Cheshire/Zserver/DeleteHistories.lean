import Cheshire.Zserver.DeleteRequests

/-!
# Deletions along the history of a session

A session searches ordinary and virtual databases, presents records and deletes.  Along a history in
which searches keep the stored sets apart and every delete request is sound, each delete request removes
what it is to remove and says so.
-/

namespace Cheshire.Zserver

open Lib Search ResultStore

/-- A request of a session.  A search or a present leaves any diagnostic behind. -/
inductive HistoryRequest where
  | search (request : SearchRequest) (diagnostic : ℤ)
  | virtualSearch (request : VirtualSearch) (diagnostic : ℤ)
  | present (request : PresentRequest) (diagnostic : ℤ)
  | delete (request : DeleteRequest)

section

variable (server : Server)

def stepHistory (s : DiagSession) : HistoryRequest → Exec DiagSession
  | .search request diagnostic => do
    let (_, session) ← handleSearchRequest server s.session request
    .ok ⟨session, diagnostic⟩
  | .virtualSearch request diagnostic => do
    let session ← handleVirtualSearch server s.session request
    .ok ⟨session, diagnostic⟩
  | .present request diagnostic => do
    let (_, session) ← handlePresentRequest server s.session request
    .ok ⟨session, diagnostic⟩
  | .delete request => do
    let (_, s) ← handleDeleteResultSetRequest server s request
    .ok s

/-- The result of a search does not become the set of two names, and the records of its response are not
read from a bitmap or a virtual set. -/
structure SearchKeeps (session : ZSession) (request : SearchRequest) (query : FinalSet) : Prop where
  valid : ValidQuery server request query
  apart : KeepsApart server session.store request query
  fetchable : 0 < recordsReturned request (countOf server session query) →
    ∀ set, storedAfter server session request query = some set →
      set.has BITMAP_RESULT = false ∧ set.has VIRTUAL_RESULT = false

/-- The effects of a query fit, and its result is kept apart. -/
def QueryKeeps (session : ZSession) (request : SearchRequest) : Prop :=
  ∀ query, request.query = some query → ¬Refused server session request →
    EffectsFit server session.store query.effects ∧
      ∀ store, runEffects server session.store query.effects = .ok store →
        SearchKeeps server { session with store := store } request query.finalSet

/-- The condition on a request. -/
def HistorySound (s : DiagSession) : HistoryRequest → Prop
  | .search request _ => QueryKeeps server s.session request
  | .virtualSearch request _ => VirtualFits server s.session request
  | .present request _ => ∀ setid, request.resultSetId = some setid → request.otherChecks = true →
      Fetchable server s.session.store setid ∧ Linked server s.session.store setid
  | .delete request => DeleteSound server s request

/-- A delete request does what it should in the state in which it comes. -/
def DeletesRightNow (s : DiagSession) : HistoryRequest → Prop
  | .delete request => DeletesRight server s request
  | _ => True

/-- The requests of a session, each in the state that the ones before it have left, meet a condition. -/
def HistoryAlong (cond : DiagSession → HistoryRequest → Prop) (requests : List HistoryRequest) : Prop :=
  Runs.Along (stepHistory server) (fun _ _ _ ↦ ()) (fun s (_ : Unit) request ↦ cond s request)
    ⟨ZSession.opened, 0⟩ () requests

end

section

variable {server : Server} {session session' : ZSession} {store : ResultStore}

theorem InCore.fetchRecs (h : InCore server.userid session.store) {recordId diagnostic : ℤ}
    {fetch : Option Fetch}
    (hrun : cheshireFetchRecs server session recordId = .ok (diagnostic, fetch, session')) :
    InCore server.userid session'.store := by
  have hinit : InCore server.userid session.store.initTable := inCore_initTable h
  obtain ⟨found, hfound⟩ := h.fetch session.resultSetName
  rw [cheshireFetchRecs, hfound] at hrun
  simp only [bind, Except.bind] at hrun
  cases found with
  | none =>
    cases hrun
    exact hinit
  | some addr =>
    obtain ⟨set, -, hrun⟩ := bind_eq_ok.mp hrun
    split at hrun
    · cases hrun
      exact hinit
    · obtain ⟨entry, -, hrun⟩ := bind_eq_ok.mp hrun
      cases hrun
      exact hinit

theorem InCore.fetchLoop {number : ℕ} (h : InCore server.userid session.store) {recordId : ℤ}
    {fetched : Fetched}
    (hrun : Zserver.fetchLoop server number recordId session = .ok (fetched, session')) :
    InCore server.userid session'.store := by
  induction number generalizing recordId session fetched with
  | zero =>
    cases hrun
    exact h
  | succ number ih =>
    obtain ⟨⟨diagnostic, fetch, next⟩, hfetch, hrun⟩ := bind_eq_ok.mp hrun
    have hnext := h.fetchRecs hfetch
    dsimp only at hrun
    split at hrun
    · obtain ⟨⟨rest, last⟩, hrest, hrun⟩ := bind_eq_ok.mp hrun
      cases hrun
      exact ih hnext hrest
    · cases hrun
      exact hnext

theorem InCore.retrieveRecords2 (h : InCore server.userid session.store) {setid : SetName}
    (hfetchable : Fetchable server session.store setid) {start number : ℤ} {temp : TempFile}
    {fetched : Fetched}
    (hrun : Zserver.retrieveRecords2 server session setid start number temp =
      .ok (fetched, session')) :
    InCore server.userid session'.store := by
  have htype : ¬seGetResultType server session.store setid &&& BITMAP_RESULT ≠ 0 := by
    cases hstored : storedSet server.userid session.store setid with
    | none =>
      rw [seGetResultType_of_none hstored h, Nat.zero_and]
      exact not_not.mpr rfl
    | some set =>
      rw [seGetResultType_of_stored h hstored]
      simpa [WeightedResult.has] using hfetchable set hstored
  obtain ⟨⟨found, results, next⟩, hfetch, hrun⟩ := bind_eq_ok.mp hrun
  rw [fetchRecords2, if_neg htype] at hfetch
  obtain ⟨sum, -, hfetch⟩ := bind_eq_ok.mp hfetch
  obtain ⟨⟨found', last⟩, hloop, hfetch⟩ := bind_eq_ok.mp hfetch
  have hinv : InCore server.userid last.store :=
    @InCore.fetchLoop _ { session with resultSetName := setid } _ _ h _ _ hloop
  cases hfetch
  dsimp only at hrun
  split at hrun
  · next hresults => cases hresults
  · cases hrun
    exact hinv

variable {request : SearchRequest}

theorem searchPresent_eq_ok {count number next presentStatus : ℤ}
    (h : searchPresent request count = .ok (number, next, presentStatus)) :
    number = recordsReturned request count := by
  rw [searchPresent] at h
  rw [recordsReturned]
  split at h
  · next habove =>
    rw [if_pos habove]
    split at h
    · next hbelow =>
      obtain ⟨sum, -, h⟩ := bind_eq_ok.mp h
      cases h
      exact (if_pos hbelow).symm
    · next hbelow =>
      cases h
      exact (if_neg hbelow).symm
  · next habove =>
    cases h
    exact (if_neg habove).symm

theorem respondToSearch_inCore (h : InCore server.userid session.store)
    (hfetchable : 0 < recordsReturned request session.resultCount →
      Fetchable server session.store request.resultSetName)
    {response : SearchResponse}
    (hrun : respondToSearch server session request = .ok (response, session')) :
    InCore server.userid session'.store := by
  obtain ⟨⟨number, next, presentStatus⟩, hpresent, hrun⟩ := bind_eq_ok.mp hrun
  have hnumber : number = recordsReturned request session.resultCount :=
    searchPresent_eq_ok hpresent
  dsimp only at hrun
  split at hrun
  · next hpos =>
    obtain ⟨⟨fetched, last⟩, hretrieve, hrun⟩ := bind_eq_ok.mp hrun
    have hlast : InCore server.userid last.store := by
      apply InCore.retrieveRecords2 _ _ hretrieve
      · exact h
      · exact hfetchable (hnumber ▸ hpos)
    dsimp only at hrun
    split at hrun
    · cases hrun
      exact hlast
    · cases hrun
      exact hlast
  · cases hrun
    exact h

theorem handleSearchRequest_inCore (h : InCore server.userid session.store)
    (hkeeps : QueryKeeps server session request) {response : SearchResponse}
    (hrun : handleSearchRequest server session request = .ok (response, session')) :
    InCore server.userid session'.store := by
  by_cases hexecuted : request.query = none ∨ Refused server session request
  · rw [handleSearchRequest_refused hexecuted] at hrun
    cases hrun
    exact h
  rw [not_or] at hexecuted
  obtain ⟨query, hquery⟩ := Option.ne_none_iff_exists'.mp hexecuted.1
  obtain ⟨hfits, hkeeps⟩ := hkeeps query hquery hexecuted.2
  obtain ⟨store, heffects, hstore, -⟩ := h.effects hfits
  have hquery_keeps := hkeeps store heffects
  have hallowed := hexecuted.2
  rw [Refused, not_or, not_or] at hallowed
  obtain ⟨executed, hexec, hdone⟩ := @executeQuery_spec _
    { session with resultCount := 0, store := store } _ _ hstore rfl hquery_keeps.valid
    hquery_keeps.apart
  rw [← @executeQuery_of_effects _ { session with resultCount := 0 } _ query _ heffects] at hexec
  simp only [handleSearchRequest, hquery, if_neg hallowed.1, if_neg hallowed.2.1,
    if_neg hallowed.2.2, hexec, bind, Except.bind] at hrun
  split at hrun
  · next hdiagnostic =>
    apply respondToSearch_inCore hdone.inCore _ hrun
    intro hpos
    have hcount : executed.resultCount = countOf server { session with store := store } query.finalSet := by
      rw [countOf]
      cases hresult : searchResult server store query.finalSet with
      | none => exact (hdone.failed hresult).2
      | some set => exact (hdone.found set hresult).2
    have hafter : (storedSet server.userid executed.store request.resultSetName).map content =
        storedAfter server { session with store := store } request query.finalSet := by
      rw [storedAfter]
      cases hresult : searchResult server store query.finalSet with
      | none => exact congrArg (Option.map content) (hdone.failed hresult).1
      | some set => exact (hdone.found set hresult).1
    intro set hset
    rw [hset] at hafter
    exact (hquery_keeps.fetchable (hcount ▸ hpos) (content set) hafter.symm).1
  · cases hrun
    exact hdone.inCore

theorem handlePresentRequest_inCore (h : InCore server.userid session.store)
    {request : PresentRequest}
    (hfetchable : ∀ setid, request.resultSetId = some setid → request.otherChecks = true →
      Fetchable server session.store setid) {response : PresentResponse}
    (hrun : handlePresentRequest server session request = .ok (response, session')) :
    InCore server.userid session'.store := by
  rw [handlePresentRequest] at hrun
  cases hsetid : request.resultSetId with
  | none =>
    rw [hsetid] at hrun
    cases hrun
    exact h
  | some setid =>
    simp only [hsetid] at hrun
    split at hrun
    · cases hrun
      exact h
    next hchecks =>
    rw [Bool.not_eq_false] at hchecks
    split at hrun
    · cases hrun
      exact h
    split at hrun
    · cases hrun
      exact h
    obtain ⟨last, -, hrun⟩ := bind_eq_ok.mp hrun
    obtain ⟨limit, -, hrun⟩ := bind_eq_ok.mp hrun
    split at hrun
    · cases hrun
      exact h
    obtain ⟨next, -, hrun⟩ := bind_eq_ok.mp hrun
    obtain ⟨⟨fetched, presented⟩, hretrieve, hrun⟩ := bind_eq_ok.mp hrun
    have hpresented := h.retrieveRecords2 (hfetchable setid hsetid hchecks) hretrieve
    dsimp only at hrun
    split at hrun
    · cases hrun
      exact hpresented
    · cases hrun
      exact hpresented

theorem historyStep {s : DiagSession} (h : InCore server.userid s.session.store)
    {request : HistoryRequest} (hsound : HistorySound server s request) :
    DeletesRightNow server s request ∧ ∀ s', stepHistory server s request = .ok s' →
      InCore server.userid s'.session.store := by
  cases request with
  | search request diagnostic =>
    refine ⟨trivial, fun s' hstep ↦ ?_⟩
    obtain ⟨⟨response, session⟩, hrun, hstep⟩ := bind_eq_ok.mp hstep
    cases hstep
    exact handleSearchRequest_inCore h hsound hrun
  | virtualSearch request diagnostic =>
    refine ⟨trivial, fun s' hstep ↦ ?_⟩
    obtain ⟨session, hrun, hstep⟩ := bind_eq_ok.mp hstep
    cases hstep
    exact handleVirtualSearch_inCore h hsound hrun
  | present request diagnostic =>
    refine ⟨trivial, fun s' hstep ↦ ?_⟩
    obtain ⟨⟨response, session⟩, hrun, hstep⟩ := bind_eq_ok.mp hstep
    cases hstep
    exact handlePresentRequest_inCore h
      (fun setid hsetid hchecks ↦ (hsound setid hsetid hchecks).1) hrun
  | delete request =>
    obtain ⟨hright, hkept⟩ := deletesRight_of_sound h hsound
    refine ⟨hright, fun s' hstep ↦ ?_⟩
    obtain ⟨⟨response, deleted⟩, hrun, hstep⟩ := bind_eq_ok.mp hstep
    cases hstep
    exact hkept response _ hrun

end

/-- Along every history that meets the condition, each delete request removes what it is to remove and
reports it. -/
theorem deletesRight_of_along (server : Server) (requests : List HistoryRequest)
    (hsound : HistoryAlong server (HistorySound server) requests) :
    HistoryAlong server (DeletesRightNow server) requests :=
  hsound.of_inv (fun s ↦ InCore server.userid s.session.store)
    (fun _ _ _ h hrequest ↦ historyStep h hrequest) (inCore_empty server.userid)

theorem stepHistory_first (records : List ℤ) (hrecords : records = [7, 9] ∨ records = []) :
    stepHistory exampleServer ⟨ZSession.opened, 0⟩ (.search (searchFor records false) 0) =
      .ok ⟨searchedOnce records, 0⟩ := by
  rcases hrecords with rfl | rfl <;> rfl

theorem deletesRight_searchDelete :
    HistoryAlong exampleServer (DeletesRightNow exampleServer)
      [.search (searchFor [7, 9] false) 0, .delete (.list [nameR])] := by
  apply deletesRight_of_along
  refine ⟨?_, fun s hs ↦ ⟨?_, fun _ _ ↦ trivial⟩⟩
  · intro query hquery _
    cases hquery
    refine ⟨trivial, fun store heffects ↦ ?_⟩
    cases heffects
    have hreads := searchReads_first false
    have hreturned : recordsReturned (searchFor [7, 9] false)
        (countOf exampleServer ZSession.opened (.fresh (builtSet [7, 9]) 0)) = 0 := rfl
    refine ⟨hreads.valid, hreads.apart, fun hpos ↦ ?_⟩
    exact absurd (hreturned ▸ hpos) (lt_irrefl _)
  · rw [stepHistory_first _ (.inl rfl), Except.ok.injEq] at hs
    subst hs
    constructor
    · exact List.nodup_singleton _
    · decide
    · intro name hname hempty
      rw [List.mem_singleton.mp hname] at hempty
      exact absurd hempty (by decide)
    · exact fun _ _ _ ↦ rfl
    · exact fun _ ↦ rfl
    · exact fun hall ↦ by cases hall

/-- An empty result is stored under a name that the session does not list, so that deleting all sets
leaves it. -/
theorem deletesRight_emptyResult :
    ¬HistoryAlong exampleServer (DeletesRightNow exampleServer)
      [.search (searchFor [] false) 0, .delete .all] := by
  rintro ⟨-, hrest⟩
  obtain ⟨response, s', hrun, -, hgone⟩ := (hrest _ (stepHistory_first _ (.inr rfl))).1
  have hnothing : handleDeleteResultSetRequest exampleServer ⟨searchedOnce [], 0⟩ .all =
      .ok (⟨1, 0, []⟩, ⟨searchedOnce [], 0⟩) := rfl
  rw [hnothing] at hrun
  cases hrun
  apply hgone nameR
  have hstored : storedSet exampleServer.userid (searchedOnce []).store nameR = _ :=
    storedSet_searchedOnce []
  rw [Exists, hstored]
  rfl

end Cheshire.Zserver
