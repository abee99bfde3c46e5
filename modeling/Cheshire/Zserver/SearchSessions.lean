import Cheshire.Search.QueryHistories
import Cheshire.Zserver.SessionRuns

/-!
# Searches and presents while the index changes

A client searches and presents while records are added to a keyword index and taken out of it.  A result
set is a snapshot: the records that satisfied the query when it was asked, until the next search under the
name, whatever happens to the index.
-/

namespace Cheshire.Zserver

open Lib Search Index

/-- A keyword index and the session of a client. -/
structure Site where
  idx : IdxListEntry
  session : ZSession

/-- A change of the index, or a request.  The query of a search is evaluated on the file of the index. -/
inductive SiteOp where
  | index (op : KwOp)
  | search (range : RangeIndex) (query : RpnStructure TermSearch) (request : SearchRequest)
  | present (request : PresentRequest)

/-- What is live, and the answers that the result sets hold, by their keys. -/
structure Snapshots where
  live : Live
  answers : String → Option (Finset ℤ)

open Classical in
/-- The live records that satisfy a query. -/
noncomputable def answerOf (live : Live) (range : RangeIndex) (query : RpnStructure TermSearch) : Finset ℤ :=
  ((live.filter fun entry ↦ Satisfies range entry.2 query).map fun entry ↦ (entry.1.1 : ℤ)).toFinset

theorem mem_answerOf {live : Live} {range : RangeIndex} {query : RpnStructure TermSearch} {record : ℤ} :
    record ∈ answerOf live range query ↔ LiveWith live record fun hash ↦ Satisfies range hash query := by
  simp only [answerOf, List.mem_toFinset, List.mem_map, List.mem_filter,
    decide_eq_true_eq, LiveWith, and_assoc]
  exact exists_congr fun entry ↦ and_congr_right' and_comm

/-- The set holds the records of an answer in increasing order. -/
structure HoldsAnswer (set : WeightedResult) (answer : Finset ℤ) : Prop where
  increasing : set.recordNums.Pairwise (· < ·)
  records : set.recordNums.toFinset = answer
  numHits_eq : set.numHits = answer.card
  not_bitmap : set.has BITMAP_RESULT = false

section

variable (server : Server) (callees : RpnCallees) (routines : ElementRoutines) (fuel : ℕ)

def setKey (setid : SetName) : String := setid.orDefault.tempSetid server.userid

/-- `se_process_query` for searches for words, which read no stored set and leave no diagnostic. -/
def evaluate (range : RangeIndex) (query : RpnStructure TermSearch) : Exec Query := do
  let found ← seProcessRpnSearches callees routines fuel range query
  .ok ⟨[], found.elim (.null 0) fun set ↦ .fresh set 0⟩

def stepSite (site : Site) : SiteOp → Exec Site
  | .index op => do
    let idx ← stepKw site.idx op
    .ok { site with idx := idx }
  | .search range query request => do
    let final ← evaluate callees routines fuel range query
    let (_, session) ← handleSearchRequest server site.session { request with query := some final }
    .ok { site with session := session }
  | .present request => do
    let (_, session) ← handlePresentRequest server site.session request
    .ok { site with session := session }

open Classical in
/-- Only a search that is not refused changes an answer. -/
noncomputable def specSite (site : Site) (shots : Snapshots) : SiteOp → Snapshots
  | .index op => { shots with live := specKw shots.live op }
  | .search range query request =>
    if Refused server site.session request then shots
    else
      let answer := answerOf shots.live range query
      { shots with answers := Function.update shots.answers (setKey server request.resultSetName) answer }
  | .present _ => shots

/-- The session's count is that of the set presented, and no sum overflows. -/
structure PresentFits (session : ZSession) (answer : Option (Finset ℤ)) (setid : SetName)
    (request : PresentRequest) : Prop where
  counted : session.resultSetName.text = setid.text →
    ∀ found ∈ answer, session.resultCount = found.card
  last : request.resultSetStartPoint + request.numberOfRecordsRequested ≤ INT_MAX
  limit : presentCount server session setid < INT_MAX

/-- The response to a search that finds so many records carries records that were found. -/
structure SearchFits (request : SearchRequest) (count : ℤ) : Prop where
  medium : -(2 ^ 31) ≤ request.mediumSetPresentNumber
  within : recordsReturned request count ≤ count
  limit : recordsReturned request count < INT_MAX

/-- A removal is clean; a search is for words in the file of the index and may take its name; the numbers
of a request fit. -/
def Orderly (site : Site) (shots : Snapshots) : SiteOp → Prop
  | .index op => CleanKw site.idx shots.live op
  | .search range query request => Opened site.idx range ∧ WellPosed range query ∧
      (¬Refused server site.session request →
        (Taken server.userid site.session.store request.resultSetName → request.replaceIndicator = true) ∧
        SearchFits request (answerOf shots.live range query).card)
  | .present request => ∀ setid, request.resultSetId = some setid → request.otherChecks = true →
      PresentFits server site.session (shots.answers (setKey server setid)) setid request

/-- Every query asked now returns the live records that satisfy it, every set holds the answer that its
search found, and a present returns the records of its set. -/
structure Snapshotted (site : Site) (shots : Snapshots) : Prop where
  queries : ∀ range query, Opened site.idx range → WellPosed range query →
    ReturnsSatisfying callees routines fuel range shots.live query
  held : ∀ key, Option.Rel HoldsAnswer (storedAt site.session.store key) (shots.answers key)
  presents : ∀ request, Orderly server site shots (.present request) →
    PresentsRight server site.session (.present request)

/-- A search that is not refused succeeds, and counts the records of the set that it stores. -/
def SearchSucceeds (site : Site) : SiteOp → Site → Prop
  | .search range query request, site' => ¬Refused server site.session request → ∃ final response set,
      evaluate callees routines fuel range query = .ok final ∧
      handleSearchRequest server site.session { request with query := some final } =
        .ok (response, site'.session) ∧
      response.searchStatus = true ∧ response.resultCount = set.numHits ∧
      storedSet server.userid site'.session.store request.resultSetName = some set
  | _, _ => True

/-- Every record can be displayed. -/
def Displays : Prop :=
  ∀ filename resultType component record, server.display filename resultType component record = 0

end

theorem HoldsAnswer.of_content {set newset : WeightedResult} {answer : Finset ℤ} (h : HoldsAnswer set answer)
    (heq : content newset = content set) : HoldsAnswer newset answer := by
  have hnums (set : WeightedResult) : (content set).recordNums = set.recordNums := by
    simp [WeightedResult.recordNums, content, WeightedResult.hits, List.take_take]
  have hhits : newset.numHits = set.numHits := congrArg (fun set ↦ set.numHits) heq
  have htype : newset.resultType = set.resultType := congrArg (fun set ↦ set.resultType) heq
  have hrecords : newset.recordNums = set.recordNums := by rw [← hnums newset, heq, hnums]
  refine ⟨hrecords ▸ h.increasing, hrecords ▸ h.records, hhits.trans h.numHits_eq, ?_⟩
  rw [WeightedResult.has, htype]
  exact h.not_bitmap

section

variable {server : Server} {session : ZSession} {idx : IdxListEntry} {live : Live} {range : RangeIndex}

theorem evaluate_spec (hexact : Exact idx live) (hlive : LiveOnce live) (hopened : Opened idx range)
    (callees : RpnCallees) (routines : ElementRoutines) (fuel : ℕ) {query : RpnStructure TermSearch}
    (hquery : WellPosed range query) :
    ∃ set, evaluate callees routines fuel range query = .ok ⟨[], .fresh set 0⟩ ∧ set.Spare ∧
      set.setid = "" ∧ HoldsAnswer set (answerOf live range query) := by
  obtain ⟨set, hset, hcrisp, hmem⟩ :=
    seProcessRpnSearches_spec hexact hlive hopened callees routines fuel hquery
  have hrecords : set.recordNums.toFinset = answerOf live range query := by
    ext record
    rw [List.mem_toFinset, hmem, mem_answerOf]
  refine ⟨set, ?_, ⟨hcrisp.nonneg, hcrisp.spare⟩, hcrisp.unnamed, hcrisp.increasing, hrecords, ?_, ?_⟩
  · rw [evaluate, hset]
    rfl
  · rw [← hrecords, List.toFinset_card_of_nodup (hcrisp.increasing.imp ne_of_lt),
      hcrisp.length_recordNums, Int.toNat_of_nonneg hcrisp.nonneg]
  · exact hcrisp.toUnflagged.not_has BITMAP_RESULT (by decide)

theorem handleSearchRequest_fresh (hdisplays : Displays server) (h : InCore server.userid session.store)
    {request : SearchRequest} (hallowed : ¬Refused server session request) {set : WeightedResult}
    (hquery : request.query = some ⟨[], .fresh set 0⟩) (hspare : set.Spare) (hunnamed : set.setid = "")
    (hfree : Taken server.userid session.store request.resultSetName → request.replaceIndicator = true)
    {answer : Finset ℤ} (hholds : HoldsAnswer set answer) (hfits : SearchFits request answer.card) :
    ∃ response session' newset, handleSearchRequest server session request = .ok (response, session') ∧
      InCore server.userid session'.store ∧ response.searchStatus = true ∧
      response.resultCount = newset.numHits ∧ HoldsAnswer newset answer ∧
      ∀ key, storedAt session'.store key =
        if key = setKey server request.resultSetName then some newset else storedAt session.store key := by
  rw [Refused, not_or, not_or] at hallowed
  obtain ⟨executed, hrun, hexec⟩ := @executeQuery_spec server { session with resultCount := 0 }
    (.fresh set 0) request h rfl (.inl hspare) (fun setid diagnostic hstored ↦ by cases hstored)
  have hhandle : handleSearchRequest server session request =
      respondToSearch server executed request := by
    simp only [handleSearchRequest, hquery, if_neg hallowed.1, if_neg hallowed.2.1,
      if_neg hallowed.2.2, hrun, bind, Except.bind, searchDiagnostic, if_pos]
  obtain ⟨hafter, hcount⟩ := hexec.found set rfl
  have hnew : afterStore server.userid session.store request.resultSetName
      (replaceFlag server request.replaceIndicator) set = some (content set) := by
    refine if_neg (not_or.mpr ⟨fun hnamed ↦ hnamed.1 hunnamed, ?_⟩)
    rintro ⟨htaken, hflag⟩
    rw [replaceFlag_and, hfree htaken] at hflag
    cases hflag
  obtain ⟨newset, hnewset, hcontent⟩ := Option.map_eq_some_iff.mp (hafter.trans hnew)
  have hnewholds := hholds.of_content hcontent
  have hwithin := hfits.within
  have hlimit := hfits.limit
  rw [← hholds.numHits_eq, ← hcount] at hwithin hlimit
  have hcounts : newset.numHits = executed.resultCount := by
    rw [hcount, hnewholds.numHits_eq, hholds.numHits_eq]
  obtain ⟨response, session', hrespond, hinv, hsame, -, hreported, hstatus⟩ :=
    respondToSearch_spec hexec.inCore hfits.medium hlimit (by
      intro _ other hother
      rw [hnewset, Option.some.injEq] at hother
      subst hother
      exact ⟨hnewholds.not_bitmap, hcounts ▸ hwithin⟩)
  have hsuccess := hstatus.mpr fun _ ↦ ⟨newset, hnewset, fun record _ ↦ hdisplays _ _ _ record⟩
  refine ⟨response, session', newset, hhandle.trans hrespond, hinv, hsuccess,
    (hreported hsuccess).trans hcounts.symm, hnewholds, fun key ↦ ?_⟩
  rw [hsame]
  split_ifs with hkey
  · rw [hkey]
    exact hnewset
  · exact hexec.others key hkey

theorem handlePresentRequest_same (h : InCore server.userid session.store) {request : PresentRequest}
    (hreads : ReadsRight server session (.present request)) {response : PresentResponse}
    {session' : ZSession}
    (hrun : handlePresentRequest server session request = .ok (response, session')) (key : String) :
    storedAt session'.store key = storedAt session.store key := by
  rw [handlePresentRequest] at hrun
  split at hrun
  · cases hrun
    rfl
  next setid hsetid =>
  split at hrun
  · cases hrun
    rfl
  next hchecks =>
  have hreads := hreads setid hsetid (Bool.not_eq_false _ ▸ hchecks)
  dsimp only at hrun
  split at hrun
  · cases hrun
    rfl
  split at hrun
  · cases hrun
    rfl
  next hrange =>
  obtain ⟨last, hlast, hrun⟩ := bind_eq_ok.mp hrun
  obtain ⟨limit, hlimit, hrun⟩ := bind_eq_ok.mp hrun
  rw [checkInt_eq_ok hlast, checkInt_eq_ok hlimit] at hrun
  split at hrun
  · cases hrun
    rfl
  next hbeyond =>
  obtain ⟨next, -, hrun⟩ := bind_eq_ok.mp hrun
  obtain ⟨⟨fetched, presented⟩, hretrieve, hrun⟩ := bind_eq_ok.mp hrun
  have hstart : 1 ≤ request.resultSetStartPoint := by omega
  have hnumber : 0 < request.numberOfRecordsRequested := by omega
  have hsum := (hreads.sums hstart (by omega) hnumber).1
  rw [min_eq_left (by omega)] at hretrieve
  have hsame : storedAt presented.store key = storedAt session.store key := by
    cases hstored : storedSet server.userid session.store setid with
    | none =>
      obtain ⟨_, hmissing, hkept⟩ := retrieveRecords2_missing h hstored hstart hnumber hsum request.temp
      rw [hmissing] at hretrieve
      cases hretrieve
      exact hkept.same key
    | some set =>
      have hcount : presentCount server session setid = set.numHits := by
        rw [presentCount]
        split_ifs with hname
        · exact seGetResultHits_of_stored h hstored
        · exact hreads.counted (not_not.mp hname) set hstored
      have hwithin : request.resultSetStartPoint + request.numberOfRecordsRequested ≤ set.numHits + 1 := by
        omega
      obtain ⟨_, _, hfound, hkept, -⟩ := retrieveRecords2_stored h hstored
        (hreads.retrievable set hstored hstart hnumber hwithin).1 hstart hnumber.le hwithin hsum request.temp
      rw [hfound] at hretrieve
      cases hretrieve
      exact hkept.same key
  dsimp only at hrun
  split at hrun
  · cases hrun
    exact hsame
  · cases hrun
    exact hsame

/-- The index is exact, and the sets in core hold the answers. -/
structure Kept (server : Server) (site : Site) (shots : Snapshots) : Prop where
  exact : Exact site.idx shots.live
  once : LiveOnce shots.live
  inCore : InCore server.userid site.session.store
  held : ∀ key, Option.Rel HoldsAnswer (storedAt site.session.store key) (shots.answers key)

variable {site : Site} {shots : Snapshots}

theorem Kept.readsRight (h : Kept server site shots) (hdisplays : Displays server)
    {request : PresentRequest} (horderly : Orderly server site shots (.present request)) :
    ReadsRight server site.session (.present request) := by
  intro setid hsetid hchecks
  have hfits := horderly setid hsetid hchecks
  have hholds {set : WeightedResult}
      (hset : storedSet server.userid site.session.store setid = some set) :
      ∃ answer ∈ shots.answers (setid.orDefault.tempSetid server.userid), HoldsAnswer set answer := by
    have hheld := h.held (setid.orDefault.tempSetid server.userid)
    rw [← storedSet, hset] at hheld
    generalize shots.answers _ = answer at hheld ⊢
    cases hheld with
    | some hholds => exact ⟨_, rfl, hholds⟩
  refine ⟨fun hname set hset ↦ ?_, fun _ _ _ ↦ ⟨hfits.last, hfits.limit⟩, fun set hset _ _ _ ↦ ?_⟩
  · obtain ⟨answer, hanswer, hholds⟩ := hholds hset
    exact (hfits.counted hname answer hanswer).trans hholds.numHits_eq.symm
  · obtain ⟨answer, -, hholds⟩ := hholds hset
    exact ⟨hholds.not_bitmap, fun record _ ↦ hdisplays _ _ _ record⟩

theorem Kept.snapshotted (h : Kept server site shots) (hdisplays : Displays server)
    (callees : RpnCallees) (routines : ElementRoutines) (fuel : ℕ) :
    Snapshotted server callees routines fuel site shots where
  queries _ _ := returnsSatisfying h.exact h.once callees routines fuel
  held := h.held
  presents request horderly := (presentStep h.inCore request (h.readsRight hdisplays horderly)).1

theorem Kept.step (h : Kept server site shots) (hdisplays : Displays server) (callees : RpnCallees)
    (routines : ElementRoutines) (fuel : ℕ) {op : SiteOp} (horderly : Orderly server site shots op) :
    ∃ site', stepSite server callees routines fuel site op = .ok site' ∧
      Kept server site' (specSite server site shots op) ∧
      SearchSucceeds server callees routines fuel site op site' := by
  cases op with
  | index op =>
    obtain ⟨hvalid, hremoval⟩ := horderly
    obtain ⟨idx, hstep, -, hexact⟩ := (stepKw_iff site.idx shots.live op h.exact hvalid).mp hremoval
    exact ⟨{ site with idx := idx }, bind_eq_ok.mpr ⟨_, hstep, rfl⟩,
      ⟨hexact, h.once.specKw hvalid, h.inCore, h.held⟩, trivial⟩
  | search range query request =>
    obtain ⟨hopened, hquery, hsearch⟩ := horderly
    obtain ⟨set, heval, hspare, hunnamed, hholds⟩ :=
      evaluate_spec h.exact h.once hopened callees routines fuel hquery
    rw [specSite]
    by_cases hrefused : Refused server site.session request
    · have hrun : handleSearchRequest server site.session { request with query := some ⟨[], .fresh set 0⟩ } =
          .ok (searchError { site.session with resultCount := 0 } []) :=
        handleSearchRequest_refused (.inr hrefused)
      rw [if_pos hrefused]
      exact ⟨_, bind_eq_ok.mpr ⟨_, heval, bind_eq_ok.mpr ⟨_, hrun, rfl⟩⟩,
        ⟨h.exact, h.once, h.inCore, h.held⟩, fun hallowed ↦ absurd hrefused hallowed⟩
    · obtain ⟨hfree, hfits⟩ := hsearch hrefused
      obtain ⟨response, session, newset, hrun, hinv, hsuccess, hcount, hnew, hstored⟩ :=
        @handleSearchRequest_fresh _ _ hdisplays h.inCore { request with query := some ⟨[], .fresh set 0⟩ }
          hrefused _ rfl hspare hunnamed hfree _ hholds ⟨hfits.medium, hfits.within, hfits.limit⟩
      rw [if_neg hrefused]
      refine ⟨_, bind_eq_ok.mpr ⟨_, heval, bind_eq_ok.mpr ⟨_, hrun, rfl⟩⟩,
        ⟨h.exact, h.once, hinv, fun key ↦ ?_⟩, fun _ ↦ ⟨_, response, newset, heval, hrun, hsuccess,
          hcount, (hstored _).trans (if_pos rfl)⟩⟩
      rw [hstored]
      simp only [Function.update_apply]
      split_ifs
      · exact .some hnew
      · exact h.held key
  | present request =>
    have hreads := h.readsRight hdisplays horderly
    obtain ⟨-, response, session, hrun, hinv⟩ := presentStep h.inCore request hreads
    refine ⟨_, bind_eq_ok.mpr ⟨_, hrun, rfl⟩, ⟨h.exact, h.once, hinv, fun key ↦ ?_⟩, trivial⟩
    rw [handlePresentRequest_same h.inCore hreads hrun]
    exact h.held key

end

/-- In every order of index changes, searches and presents that meet the conditions, each search
succeeds; and at every time each query returns the live records that satisfy it, and each set the
records that satisfied its query when it was searched. -/
theorem snapshots_of_along {server : Server} (hdisplays : Displays server) (callees : RpnCallees)
    (routines : ElementRoutines) (fuel idxType : ℕ) (hinverted : Inverted (IdxListEntry.created idxType))
    (ops : List SiteOp) (horderly : Runs.Along (stepSite server callees routines fuel) (specSite server)
      (Orderly server) ⟨.created idxType, .opened⟩ ⟨[], fun _ ↦ none⟩ ops) :
    Runs.Throughout (stepSite server callees routines fuel) (specSite server)
      (Snapshotted server callees routines fuel) (SearchSucceeds server callees routines fuel)
      ⟨.created idxType, .opened⟩ ⟨[], fun _ ↦ none⟩ ops := by
  refine Runs.Throughout.imp (fun _ _ h ↦ Kept.snapshotted h hdisplays callees routines fuel)
    (Runs.throughout_of_along (fun _ ↦ True) ?_ trivial ?_ horderly)
  · intro site shots op _ h horderly
    obtain ⟨site', hstep, h', hsucceeds⟩ := h.step hdisplays callees routines fuel horderly
    exact ⟨site', hstep, trivial, hsucceeds, h'⟩
  · exact ⟨exact_created idxType hinverted, List.nodup_nil, inCore_empty _, fun _ ↦ .none⟩

/-- A present, a new record, and a search under a name. -/
def presentAddSearch : List SiteOp :=
  [.present (presentOf 1 2), .index (.add recordTwo dogRecord.2),
    .search (wordIndex dogFile) dogNotCat (searchFor [] true)]

theorem snapshots_presentAddSearch :
    Runs.Throughout (stepSite exampleServer noCallees noPhrases 0) (specSite exampleServer)
      (Snapshotted exampleServer noCallees noPhrases 0) (SearchSucceeds exampleServer noCallees noPhrases 0)
      ⟨.created Search.KEYWORD, .opened⟩ ⟨[], fun _ ↦ none⟩ presentAddSearch := by
  refine snapshots_of_along (fun _ _ _ _ ↦ rfl) noCallees noPhrases 0 Search.KEYWORD ⟨rfl, rfl, rfl⟩ _
    ⟨?_, fun site hsite ↦ ⟨⟨by simp [ValidKw, specSite], trivial⟩, fun next hnext ↦
      ⟨?_, fun _ _ ↦ trivial⟩⟩⟩
  · intro setid hsetid _
    cases hsetid
    exact ⟨fun hname ↦ absurd hname (by decide), by decide, by decide⟩
  · cases hsite
    cases hnext
    refine ⟨opened_dogFile rfl rfl, wellPosed_dogNotCat, fun _ ↦ ⟨fun _ ↦ rfl, ?_⟩⟩
    have hnonneg := Int.natCast_nonneg (answerOf [dogRecord] (wordIndex dogFile) dogNotCat).card
    have hreturned {count : ℤ} (hcount : 0 ≤ count) : recordsReturned (searchFor [] true) count = 0 := by
      rw [recordsReturned]
      split_ifs with habove
      · rfl
      · rfl
      · exact le_antisymm (not_lt.mp habove) hcount
    exact ⟨by decide, (hreturned hnonneg).trans_le hnonneg, (hreturned hnonneg).trans_lt (by decide)⟩

end Cheshire.Zserver
