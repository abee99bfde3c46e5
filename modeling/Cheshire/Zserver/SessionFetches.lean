import Cheshire.Zserver.SessionStore

/-!
# Fetching records in a session

When every name has a set of its own in core, a retrieval reads the stored set at the positions asked
for, one after the other, until a record cannot be displayed.
-/

namespace Cheshire.Zserver

open Search ResultStore

/-- The record numbers at `number` positions from `start` on. -/
def recordsFrom (set : WeightedResult) (start number : ℤ) : List ℤ :=
  (set.recordNums.drop (start - 1).toNat).take number.toNat

/-- The position of a record that was read lies within the set. -/
def Fetch.Inside (fetch : Fetch) : Prop := 1 ≤ fetch.position ∧ fetch.position ≤ fetch.numHits

/-- The retrieval of records of a set succeeds. -/
def Displayed (server : Server) (set : WeightedResult) (start number : ℤ) : Prop :=
  ∀ x ∈ recordsFrom set start number, server.displayRecord set x = 0

section

variable {server : Server} {session : ZSession} {setid : SetName} {set : WeightedResult}

theorem seGetResultType_of_none (hnone : storedSet server.userid session.store setid = none)
    (h : InCore server.userid session.store) :
    seGetResultType server session.store setid = 0 := by
  rw [seGetResultType, entryOf_orDefault]
  rcases h.entry_or (setid.orDefault.tempSetid server.userid) with ⟨hentry, -⟩ | ⟨_, _, _, hholds⟩
  · rw [hentry]
    rfl
  · rw [storedSet, hholds.storedAt] at hnone
    cases hnone

theorem seGetResultType_of_stored (h : InCore server.userid session.store)
    (hset : storedSet server.userid session.store setid = some set) :
    seGetResultType server session.store setid &&& BITMAP_RESULT =
      set.resultType &&& BITMAP_RESULT := by
  obtain ⟨data, addr, hholds⟩ := h.holds_of_stored hset
  rw [seGetResultType, entryOf_orDefault, hholds.entry]
  exact hholds.header.bitmap

theorem seGetResultHits_of_stored (h : InCore server.userid session.store)
    (hset : storedSet server.userid session.store setid = some set) :
    seGetResultHits server session.store setid = set.numHits := by
  obtain ⟨data, addr, hholds⟩ := h.holds_of_stored hset
  rw [seGetResultHits, entryOf_orDefault, hholds.entry]
  exact hholds.header.numHits

theorem cheshireFetchRecs_stored (h : InCore server.userid session.store)
    (hset : storedSet server.userid session.store session.resultSetName = some set)
    (hbitmap : set.has BITMAP_RESULT = false) {recordId : ℤ}
    (hfirst : 1 ≤ recordId) (hlast : recordId ≤ set.numHits) :
    ∃ x, set.recordNums[(recordId - 1).toNat]? = some x ∧
      cheshireFetchRecs server session recordId = .ok (server.displayRecord set x,
        some ⟨recordId, set.numHits, x⟩, { session with store := session.store.initTable }) := by
  obtain ⟨data, addr, hholds⟩ := h.holds_of_stored hset
  have hspare := hholds.covered hbitmap
  have hcovered := hspare.covered
  have hcell : (recordId - 1).toNat < set.entries.length := by omega
  have hvirtual : ¬(set.has VIRTUAL_RESULT = true ∧ set.numHits < recordId) := fun hand ↦ by
    have hlt := hand.2
    omega
  have hload : session.store.initTable.load addr = .ok set := load_of_heap hholds.alive
  refine ⟨set.entries[(recordId - 1).toNat].recordNum, ?_, ?_⟩
  · rw [WeightedResult.recordNums, WeightedResult.hits, List.map_take,
      List.getElem?_take_of_lt (by omega), List.getElem?_map, List.getElem?_eq_getElem hcell]
    rfl
  · simp only [cheshireFetchRecs, hholds.fetch, bind, Except.bind, hload, if_neg hvirtual,
      resultEntry, if_pos hfirst, WeightedResult.entryAt, List.getElem?_eq_getElem hcell]

theorem fetchLoop_stored (hbitmap : set.has BITMAP_RESULT = false) (number : ℕ) : ∀ {session : ZSession} {recordId : ℤ},
    InCore server.userid session.store →
    storedSet server.userid session.store session.resultSetName = some set → 1 ≤ recordId →
    recordId + number ≤ set.numHits + 1 → ∃ fetched store,
      fetchLoop server number recordId session = .ok (fetched, { session with store := store }) ∧
      (store = session.store ∨ store = session.store.initTable) ∧
      (∀ fetch ∈ fetched.fetches, fetch.Inside) ∧
      (fetched.complete = true ↔ Displayed server set recordId number) ∧
      (fetched.complete = true →
        fetched.fetches.map Fetch.recordNum = recordsFrom set recordId number) := by
  induction number with
  | zero =>
    intro session recordId _ _ _ _
    refine ⟨⟨[], true⟩, session.store, rfl, .inl rfl, by simp, ?_, ?_⟩
    · simp [Displayed, recordsFrom]
    · simp [recordsFrom]
  | succ number ih =>
    intro session recordId hinv hset hfirst hlast
    obtain ⟨x, hx, hfetch⟩ := cheshireFetchRecs_stored hinv hset hbitmap hfirst (by omega)
    let next : ZSession := { session with store := session.store.initTable }
    obtain ⟨rest, store, hrest, hstore, hinside, hcomplete, hrecords⟩ :=
      @ih next (recordId + 1) (inCore_initTable hinv) hset (by omega)
        (by omega)
    have hstore' : store = session.store.initTable := by
      rcases hstore with rfl | rfl <;> rfl
    have hindex : (recordId + 1 - 1).toNat = (recordId - 1).toNat + 1 := by omega
    have hwindow : recordsFrom set recordId (number + 1 : ℕ) =
        x :: recordsFrom set (recordId + 1) number := by
      obtain ⟨hlt, hget⟩ := List.getElem?_eq_some_iff.mp hx
      rw [recordsFrom, recordsFrom, Int.toNat_natCast, Int.toNat_natCast,
        List.drop_eq_getElem_cons hlt, List.take_succ_cons, hget, hindex]
    have hread : Fetch.Inside ⟨recordId, set.numHits, x⟩ :=
      ⟨hfirst, show recordId ≤ set.numHits by omega⟩
    rw [fetchLoop, hfetch]
    simp only [bind, Except.bind]
    rw [Displayed, hwindow]
    by_cases hdisplay : server.displayRecord set x = 0
    · rw [if_pos hdisplay, hrest]
      refine ⟨_, _, rfl, .inr hstore', ?_, ?_, fun hdone ↦ ?_⟩
      · intro fetch hmem
        rcases List.mem_cons.mp hmem with rfl | hmem
        · exact hread
        · exact hinside fetch hmem
      · simp only [List.mem_cons, forall_eq_or_imp, hdisplay, true_and]
        exact hcomplete
      · exact congrArg (x :: ·) (hrecords hdone)
    · rw [if_neg hdisplay]
      refine ⟨_, _, rfl, .inr rfl, ?_, ?_, fun hdone ↦ absurd hdone Bool.false_ne_true⟩
      · intro fetch hmem
        rw [Option.toList_some, List.mem_singleton] at hmem
        exact hmem ▸ hread
      · refine iff_of_false Bool.false_ne_true fun hall ↦ hdisplay ?_
        exact hall x List.mem_cons_self

theorem fetchLoop_missing {number : ℕ} (hnumber : 0 < number) (recordId : ℤ)
    (h : InCore server.userid session.store)
    (hnone : storedSet server.userid session.store session.resultSetName = none) :
    fetchLoop server number recordId session =
      .ok (⟨[], false⟩, { session with store := session.store.initTable }) := by
  obtain ⟨fewer, rfl⟩ : ∃ fewer, number = fewer + 1 := ⟨number - 1, by omega⟩
  have hentry : session.store.table (session.resultSetName.orDefault.tempSetid server.userid) =
      none := by
    rcases h.entry_or (session.resultSetName.orDefault.tempSetid server.userid) with
      ⟨hentry, -⟩ | ⟨_, _, _, hholds⟩
    · exact hentry
    · rw [storedSet, hholds.storedAt] at hnone
      cases hnone
  have hfetch : cheshireFetchRecs server session recordId =
      .ok (30, none, { session with store := session.store.initTable }) := by
    simp only [cheshireFetchRecs, InCore.fetch_none hentry, bind, Except.bind]
  rw [fetchLoop, hfetch]
  rfl

/-- What a retrieval leaves: the sets in core and a result. -/
structure Retrieved (server : Server) (session session' : ZSession) (setid : SetName) : Prop where
  inCore : InCore server.userid session'.store
  same : ∀ key, storedAt session'.store key = storedAt session.store key
  name : session'.resultSetName = setid
  count : session'.resultCount = session.resultCount
  names : session'.resultSetNames = session.resultSetNames

theorem retrieved_of_store (h : InCore server.userid session.store) {store : ResultStore}
    (hstore : store = session.store ∨ store = session.store.initTable) (setid : SetName) :
    Retrieved server session { session with store := store, resultSetName := setid } setid := by
  refine ⟨?_, fun key ↦ ?_, rfl, rfl, rfl⟩
  · rcases hstore with rfl | rfl
    · exact h
    · exact inCore_initTable h
  · rcases hstore with rfl | rfl <;> rfl

theorem retrieveRecords2_stored (h : InCore server.userid session.store)
    (hset : storedSet server.userid session.store setid = some set)
    (hbitmap : set.has BITMAP_RESULT = false) {start number : ℤ} (hstart : 1 ≤ start)
    (hnumber : 0 ≤ number) (hwithin : start + number ≤ set.numHits + 1)
    (hsum : start + number ≤ INT_MAX) (temp : TempFile) :
    ∃ fetched session', retrieveRecords2 server session setid start number temp =
        .ok (fetched, session') ∧ Retrieved server session session' setid ∧
      (∀ fetch ∈ fetched.fetches, fetch.Inside) ∧
      (fetched.complete = true ↔ Displayed server set start number) ∧
      (fetched.complete = true →
        fetched.fetches.map Fetch.recordNum = recordsFrom set start number) := by
  have htype : ¬seGetResultType server session.store setid &&& BITMAP_RESULT ≠ 0 := by
    rw [seGetResultType_of_stored h hset]
    simpa [WeightedResult.has] using hbitmap
  have hcheck := checkInt_of_le (by omega) hsum
  obtain ⟨fetched, store, hloop, hstore, hinside, hcomplete, hrecords⟩ :=
    @fetchLoop_stored _ _ hbitmap number.toNat
      { session with resultSetName := setid } _ h hset hstart
      (by omega)
  rw [Int.toNat_of_nonneg hnumber] at hcomplete hrecords
  refine ⟨fetched, _, ?_, retrieved_of_store h hstore setid, hinside, hcomplete, hrecords⟩
  simp only [retrieveRecords2, fetchRecords2, if_neg htype, hcheck, hloop, bind, Except.bind]
  cases fetched.complete <;> rfl

theorem retrieveRecords2_missing (h : InCore server.userid session.store)
    (hnone : storedSet server.userid session.store setid = none) {start number : ℤ}
    (hstart : 1 ≤ start) (hnumber : 0 < number) (hsum : start + number ≤ INT_MAX)
    (temp : TempFile) :
    ∃ session', retrieveRecords2 server session setid start number temp =
        .ok (⟨[], false⟩, session') ∧ Retrieved server session session' setid := by
  have htype : ¬seGetResultType server session.store setid &&& BITMAP_RESULT ≠ 0 := by
    rw [seGetResultType_of_none hnone h, Nat.zero_and]
    exact not_not.mpr rfl
  have hcheck := checkInt_of_le (by omega) hsum
  have hloop := @fetchLoop_missing _ { session with resultSetName := setid } number.toNat (by omega) start
    h hnone
  refine ⟨_, ?_, retrieved_of_store h (.inr rfl) setid⟩
  simp only [retrieveRecords2, fetchRecords2, if_neg htype, hcheck, hloop, bind, Except.bind]

end

end Cheshire.Zserver
