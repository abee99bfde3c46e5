import Cheshire.Search.BitmapExact
import Cheshire.Zserver.SessionRuns

/-!
# Presenting bitmap results

The records of a bitmap result are fetched from a temporary set, which the conversion fills from the
record behind the start on, and which is freed twice once all of them are displayed.  They are those of
the listed result only where the copied entry of the header stands in for a record that cannot be
displayed.
-/

namespace Cheshire.Zserver

open Lib Search ResultStore Index

/-- The records up to the first that cannot be displayed. -/
def displayedUntil (shown : ℤ → Bool) : List ℤ → List ℤ
  | [] => []
  | x :: xs => if shown x then x :: displayedUntil shown xs else [x]

/-- The records that `RetrieveRecords2` fetches, in order. -/
def fetchedRecords (server : Server) (session : ZSession) (setid : SetName) (start number : ℤ)
    (temp : TempFile) : Exec (List ℤ) :=
  (retrieveRecords2 server session setid start number temp).map fun (fetched, _) ↦
    fetched.fetches.map Fetch.recordNum

section

variable {shown : ℤ → Bool} {x y : ℤ} {xs ys : List ℤ}

theorem head_displayedUntil (shown : ℤ → Bool) (x : ℤ) (xs : List ℤ) :
    ∃ rest, displayedUntil shown (x :: xs) = x :: rest := by
  rw [displayedUntil]
  split_ifs
  · exact ⟨_, rfl⟩
  · exact ⟨_, rfl⟩

theorem displayedUntil_ne (hne : x ≠ y) :
    displayedUntil shown (x :: xs) ≠ displayedUntil shown (y :: ys) := by
  obtain ⟨rest, hrest⟩ := head_displayedUntil shown x xs
  obtain ⟨rest', hrest'⟩ := head_displayedUntil shown y ys
  rw [hrest, hrest']
  exact fun heq ↦ hne (List.cons.inj heq).1

/-- Two retrievals that begin with the same record agree when it cannot be displayed or when nothing
follows; otherwise they go on. -/
theorem displayedUntil_cons_eq_iff : displayedUntil shown (x :: xs) = displayedUntil shown (x :: ys) ↔
    shown x = false ∨ displayedUntil shown xs = displayedUntil shown ys := by
  rw [displayedUntil, displayedUntil]
  by_cases hshown : shown x = true
  · rw [if_pos hshown, if_pos hshown, List.cons.injEq]
    simp [hshown]
  · rw [if_neg hshown, if_neg hshown]
    simp [hshown]

end

section

variable {server : Server} {set : WeightedResult} {key : String} {data : ResultSetData}
  {addr : Addr}

theorem fetchLoop_cells (hvirtual : set.has VIRTUAL_RESULT = false)
    (hptr : data.resultPtr = some addr) (number : ℕ) : ∀ {session : ZSession} {recordId : ℤ},
    session.resultSetName.orDefault.tempSetid server.userid = key →
    session.store.table key = some data → session.store.heap addr = some set →
    1 ≤ recordId → (recordId - 1).toNat + number ≤ set.entries.length →
    ∃ fetched session', fetchLoop server number recordId session = .ok (fetched, session') ∧
      fetched.fetches.map Fetch.recordNum =
        displayedUntil (fun x ↦ decide (server.displayRecord set x = 0))
          (((set.entries.map WeightedEntry.recordNum).drop (recordId - 1).toNat).take number) ∧
      fetched.complete = (((set.entries.map WeightedEntry.recordNum).drop
        (recordId - 1).toNat).take number).all (fun x ↦ decide (server.displayRecord set x = 0)) ∧
      session'.store.table key = some data ∧ session'.store.heap addr = some set := by
  induction number with
  | zero =>
    intro session recordId _ hentry halive _ _
    exact ⟨_, _, rfl, by simp [displayedUntil], by simp, hentry, halive⟩
  | succ number ih =>
    intro session recordId hkey hentry halive hfirst hcells
    have hcell : (recordId - 1).toNat < set.entries.length := by omega
    have hload : session.store.initTable.load addr = .ok set := load_of_heap halive
    let next : ZSession := { session with store := session.store.initTable }
    have hfetch : cheshireFetchRecs server session recordId =
        .ok (server.displayRecord set set.entries[(recordId - 1).toNat].recordNum,
          some ⟨recordId, set.numHits, set.entries[(recordId - 1).toNat].recordNum⟩, next) := by
      have hget : seGetResultSet server.userid session.store session.resultSetName =
          .ok (some addr, session.store.initTable) := by
        rw [seGetResultSet, seCheckResultSet_eq, entryOf_of_ne (SetName.orDefault_ne _), hkey,
          hentry]
        simp only [Option.map_some, hptr]
      have hplain : ¬(set.has VIRTUAL_RESULT = true ∧ set.numHits < recordId) := by
        simp [hvirtual]
      simp only [cheshireFetchRecs, hget, bind, Except.bind, hload, if_neg hplain, resultEntry,
        if_pos hfirst, WeightedResult.entryAt, List.getElem?_eq_getElem hcell, next]
    obtain ⟨rest, session', hrest, hrecords, hcomplete, hkept⟩ :=
      @ih next (recordId + 1) hkey hentry halive (by omega) (by omega)
    have hindex : (recordId + 1 - 1).toNat = (recordId - 1).toNat + 1 := by omega
    have hwindow : ((set.entries.map WeightedEntry.recordNum).drop (recordId - 1).toNat).take
        (number + 1) = set.entries[(recordId - 1).toNat].recordNum ::
          ((set.entries.map WeightedEntry.recordNum).drop (recordId + 1 - 1).toNat).take number := by
      rw [List.drop_eq_getElem_cons (by rwa [List.length_map]), List.take_succ_cons,
        List.getElem_map, hindex]
    rw [fetchLoop, hfetch, hwindow, displayedUntil]
    simp only [bind, Except.bind, decide_eq_true_eq]
    by_cases hdisplay : server.displayRecord set set.entries[(recordId - 1).toNat].recordNum = 0
    · rw [if_pos hdisplay, if_pos hdisplay, hrest]
      refine ⟨_, _, rfl, ?_, ?_, hkept⟩
      · rw [← hrecords]
        rfl
      · rw [List.all_cons, decide_eq_true hdisplay, ← hcomplete]
        rfl
    · rw [if_neg hdisplay, if_neg hdisplay]
      refine ⟨_, _, rfl, rfl, ?_, hentry, halive⟩
      rw [List.all_cons, decide_eq_false hdisplay]
      rfl

end

theorem scanBlocks_withSetid (idx : IdxListEntry) (inres : WeightedResult) (setid : String)
    (maxDocid : ℤ) (nWanted nStart fuel : ℕ) :
    scanBlocks idx { inres with setid := setid } maxDocid nWanted nStart fuel =
      scanBlocks idx inres maxDocid nWanted nStart fuel := by
  induction fuel with
  | zero => rfl
  | succ fuel ih =>
    funext dummyRecno currentBlockno resultBlock s
    rw [scanBlocks, scanBlocks, ih]
    rfl

theorem seBitmapToResult_withSetid (idx : IdxListEntry) (inres : WeightedResult) (setid : String)
    (nWanted nStart : ℕ) :
    seBitmapToResult idx (some { inres with setid := setid }) nWanted nStart =
      seBitmapToResult idx (some inres) nWanted nStart := by
  simp only [seBitmapToResult, scanBlocks_withSetid]
  rfl

/-- An ordinary result that lists records, as a search builds it. -/
def listedResult (records : List ℤ) : WeightedResult :=
  { WeightedResult.ofRecords "" records with
    entries := records.map (fun record ↦ ⟨record, 0, 1⟩) ++ [WeightedEntry.zero] }

/-- A session in core that holds a result under a name, and no temporary set of an earlier
bitmap. -/
structure HoldsResult (server : Server) (session : ZSession) (setid : SetName)
    (result : WeightedResult) : Prop where
  inCore : InCore server.userid session.store
  stored : ∃ name, storedSet server.userid session.store setid = some { result with setid := name }
  noTemp : storedSet server.userid session.store tmpBitmapResults = none

variable {start number : ℤ}

section

variable {server : Server} {session : ZSession} {setid : SetName} {temp : TempFile}

theorem fetchedRecords_listed {records : List ℤ}
    (h : HoldsResult server session setid (listedResult records)) {start number : ℤ}
    (hstart : 1 ≤ start) (hnumber : 1 ≤ number) (hrange : start + number - 1 ≤ records.length) :
    fetchedRecords server session setid start number temp =
      if start + number ≤ INT_MAX then
        .ok (displayedUntil (fun x ↦ decide (server.display "" 0 none x = 0))
          (window number.toNat (start - 1).toNat records))
      else .error .signedOverflow := by
  obtain ⟨name, hset⟩ := h.stored
  obtain ⟨data, addr, hholds⟩ := h.inCore.holds_of_stored hset
  have htype : ¬seGetResultType server session.store setid &&& BITMAP_RESULT ≠ 0 := by
    rw [seGetResultType_of_stored h.inCore hset]
    simp [listedResult, WeightedResult.ofRecords]
  have hlength : (listedResult records).entries.length = records.length + 1 := by
    simp [listedResult]
  obtain ⟨fetched, session', hloop, hrecords, -⟩ := @fetchLoop_cells _ _ _ _ _
    (by simp [WeightedResult.has, listedResult, WeightedResult.ofRecords]) hholds.pointer number.toNat
    { session with resultSetName := setid } _ rfl hholds.entry
    hholds.alive hstart (by rw [hlength]; omega)
  have hcells : ((({ listedResult records with setid := name } : WeightedResult).entries.map
      WeightedEntry.recordNum).drop (start - 1).toNat).take number.toNat =
        window number.toNat (start - 1).toNat records := by
    have hmap : (listedResult records).entries.map WeightedEntry.recordNum = records ++ [0] := by
      simp [listedResult, WeightedEntry.zero, Function.comp_def]
    show window _ _ ((listedResult records).entries.map WeightedEntry.recordNum) = _
    rw [hmap, window_append_full]
    rw [length_window]
    omega
  split_ifs with hsum
  · have hcheck := checkInt_of_le (show -(2 ^ 31) ≤ start + number by omega) hsum
    have hrun : fetchedRecords server session setid start number temp =
        .ok (fetched.fetches.map Fetch.recordNum) := by
      simp only [fetchedRecords, retrieveRecords2, fetchRecords2, if_neg htype, hcheck, hloop, bind,
        Except.bind]
      cases fetched.complete <;> rfl
    rw [hrun, hrecords, hcells]
    rfl
  · have hcheck : checkInt (start + number) = .error .signedOverflow := by
      rw [INT_MAX] at hsum
      exact if_neg (by omega)
    simp only [fetchedRecords, retrieveRecords2, fetchRecords2, if_neg htype, hcheck]
    rfl

theorem storeTmp (h : InCore server.userid session.store)
    (hfree : storedSet server.userid session.store tmpBitmapResults = none)
    {results : WeightedResult} (hname : results.setid = "") (temp : TempFile) :
    ∃ status s' data set, seStoreResultSet server.userid (session.store.initTable.alloc results)
        (some session.store.initTable.nextAddr) tmpBitmapResults DONT_SAVE_RESULT_SETS temp =
          .ok (status, s') ∧
      s'.table (tmpBitmapResults.tempSetid server.userid) = some data ∧
      data.resultPtr = some session.store.initTable.nextAddr ∧
      s'.heap session.store.initTable.nextAddr = some set ∧
      set = { results with setid := tmpBitmapResults.text } := by
  have hne : tmpBitmapResults.text ≠ "" := by
    simp [tmpBitmapResults, TMP_BITMAP_RESULTS]
  have hentry : entryOf server.userid (session.store.initTable.alloc results) tmpBitmapResults =
      none := by
    have hnot : ¬Taken server.userid session.store tmpBitmapResults := fun htaken ↦ by
      rw [Taken, hfree] at htaken
      exact absurd htaken.2 Bool.false_ne_true
    exact h.entryOf_of_not_taken hnot
  let stored : WeightedResult := { results with setid := tmpBitmapResults.text }
  let ptr := session.store.initTable.nextAddr
  let key := tmpBitmapResults.tempSetid server.userid
  let data : ResultSetData := ⟨temp.filename, 0, some ptr, stored.header⟩
  obtain ⟨status, s', hsave, hheap, -, -, reallyStored, htable⟩ :=
    saveResultSet_core
      (((session.store.initTable.alloc results).initTable.setHeap ptr (some stored)).setEntry key
        (some data)) key data DONT_SAVE_RESULT_SETS (.inr rfl) temp (setEntry_self _)
  refine ⟨status, s', _, stored, ?_, htable, rfl, ?_, rfl⟩
  · have hcalled : ¬(results.setid ≠ "" ∧ tmpBitmapResults.isCalled results.setid) :=
      fun hand ↦ hand.1 hname
    rw [seStoreResultSet_eq alloc_self hcalled, hentry]
    simp only [storeNewEntry, hname, ne_eq, not_true_eq_false, if_false,
      SetName.orDefault_of_ne hne]
    exact hsave
  · rw [hheap]
    exact setHeap_self _

/-- The temporary set is freed by its deletion, and then once more. -/
theorem releaseTmp {s : ResultStore} {data : ResultSetData} {addr : Addr} {set : WeightedResult}
    (hentry : s.table (tmpBitmapResults.tempSetid server.userid) = some data)
    (hptr : data.resultPtr = some addr) (halive : s.heap addr = some set) :
    ∃ status s', seDeleteResultSet server.userid s tmpBitmapResults = .ok (status, s') ∧
      s'.release addr = .error .useAfterFree := by
  have htab : ¬s.hashTab.isNone := fun hnone ↦ by
    rw [table_of_isNone hnone] at hentry
    cases hentry
  have hne : tmpBitmapResults.text ≠ "" := by
    simp [tmpBitmapResults, TMP_BITMAP_RESULTS]
  have hkept : ¬(tmpBitmapResults.text ≠ TMP_BITMAP_RESULTS ∧ data.reallyStored = 1) :=
    fun hand ↦ hand.1 rfl
  have hdelete : seDeleteResultSet server.userid s tmpBitmapResults = .ok (.succeed,
      ((s.initTable.setHeap addr none).setEntry (tmpBitmapResults.tempSetid server.userid)
        (some { data with resultPtr := none })).setEntry
          (tmpBitmapResults.tempSetid server.userid) none) := by
    rw [seDeleteResultSet, if_neg htab, seCheckResultSet_eq, entryOf_of_ne hne, hentry]
    simp only [Option.map_some, if_neg hkept,
      @seFreeResult_core s.initTable (tmpBitmapResults.tempSetid server.userid) data addr set hptr halive]
    rfl
  refine ⟨_, _, hdelete, ?_⟩
  have hgone : (s.initTable.setHeap addr none).heap addr = none := setHeap_self none
  have hload : ResultStore.load (((s.initTable.setHeap addr none).setEntry
      (tmpBitmapResults.tempSetid server.userid) (some { data with resultPtr := none })).setEntry
        (tmpBitmapResults.tempSetid server.userid) none) addr = .error .useAfterFree := by
    simp only [ResultStore.load, ResultStore.setEntry, hgone]
  rw [ResultStore.release, hload]
  rfl

theorem HoldsResult.load_bitmap {bitmap : WeightedResult}
    (h : HoldsResult server session setid bitmap) (hbitmap : bitmap.has BITMAP_RESULT = true) :
    seGetResultType server session.store setid &&& BITMAP_RESULT ≠ 0 ∧ ∃ name addr,
      seGetResultSet server.userid session.store setid = .ok (some addr, session.store.initTable) ∧
        session.store.initTable.load addr = .ok { bitmap with setid := name } := by
  obtain ⟨name, hset⟩ := h.stored
  obtain ⟨data, addr, hholds⟩ := h.inCore.holds_of_stored hset
  refine ⟨?_, name, addr, hholds.fetch, load_of_heap hholds.alive⟩
  rw [seGetResultType_of_stored h.inCore hset]
  simpa [WeightedResult.has] using hbitmap

theorem fetchedRecords_bitmap {bitmap : WeightedResult}
    (h : HoldsResult server session setid bitmap) (hbitmap : bitmap.has BITMAP_RESULT = true)
    {results : WeightedResult}
    (hconvert : seBitmapToResult server.idx (some bitmap) number.toNat start.toNat =
      .ok (some results))
    (hvirtual : results.has VIRTUAL_RESULT = false) (hname : results.setid = "")
    (hcells : number.toNat ≤ results.entries.length) (hsum : 1 + number ≤ INT_MAX)
    (hnumber : 1 ≤ number) : fetchedRecords server session setid start number temp =
      if ((results.entries.map WeightedEntry.recordNum).take number.toNat).all
          (fun x ↦ decide (server.displayRecord results x = 0)) = true then .error .useAfterFree
      else .ok (displayedUntil (fun x ↦ decide (server.displayRecord results x = 0))
        ((results.entries.map WeightedEntry.recordNum).take number.toNat)) := by
  obtain ⟨htype, name, addr, hfetch, hload⟩ := h.load_bitmap hbitmap
  obtain ⟨status, s', tmpData, tmpSet, hstore, hentry, hptr, halive, rfl⟩ :=
    storeTmp h.inCore h.noTemp hname temp
  have htmp : storeBitmapResults server session setid start number temp =
      .ok (some session.store.initTable.nextAddr, { session with store := s' }) := by
    simp only [storeBitmapResults, hfetch, bind, Except.bind, deref, hload,
      seBitmapToResult_withSetid, hconvert, hstore]
  obtain ⟨fetched, session', hloop, hrecords, hcomplete, hkept, hset'⟩ := @fetchLoop_cells _
    { results with setid := tmpBitmapResults.text } _ _ _ hvirtual hptr number.toNat
    { session with store := s', resultSetName := tmpBitmapResults } _
    (by rw [SetName.orDefault_of_ne (by simp [tmpBitmapResults, TMP_BITMAP_RESULTS])]) hentry halive
    le_rfl (by simpa using hcells)
  have hcheck : checkInt (1 + number) = .ok (1 + number) := checkInt_of_le (by omega) (by omega)
  have hrun : fetchRecords2 server session setid start number temp =
      .ok (fetched, some session.store.initTable.nextAddr, session') := by
    simp only [fetchRecords2, if_pos htype, htmp, hcheck, hloop, bind, Except.bind]
  have hfreed := releaseTmp hkept hptr hset'
  rw [fetchedRecords, retrieveRecords2, hrun]
  change fetched.complete = ((results.entries.map WeightedEntry.recordNum).take number.toNat).all
    (fun x ↦ decide (server.displayRecord results x = 0)) at hcomplete
  rw [← hcomplete]
  cases hdone : fetched.complete with
  | true =>
    rw [if_pos rfl]
    obtain ⟨status, store, hdelete, hrelease⟩ := hfreed
    simp only [bind, Except.bind, hdone, hdelete, hrelease]
    rfl
  | false =>
    rw [if_neg Bool.false_ne_true]
    simp only [bind, Except.bind, hdone, Except.map, hrecords]
    rfl

theorem fetchedRecords_bitmap_fault {bitmap : WeightedResult}
    (h : HoldsResult server session setid bitmap) (hbitmap : bitmap.has BITMAP_RESULT = true)
    (hconvert : ∀ results, seBitmapToResult server.idx (some bitmap) number.toNat start.toNat ≠
      .ok results)
    (records : List ℤ) : fetchedRecords server session setid start number temp ≠ .ok records := by
  obtain ⟨htype, name, addr, hfetch, hload⟩ := h.load_bitmap hbitmap
  cases hresult : seBitmapToResult server.idx (some bitmap) number.toNat start.toNat with
  | ok results => exact absurd hresult (hconvert results)
  | error fault =>
    simp [fetchedRecords, retrieveRecords2, fetchRecords2, htype, storeBitmapResults, hfetch, bind,
      Except.bind, deref, hload, seBitmapToResult_withSetid, hresult, Except.map]

end

section

variable {idx : IdxListEntry} {word : Term} {additions : List Addition}

theorem bitmapHeader (h : Loaded word additions idx) (hne : additions ≠ []) :
    (seBitmap idx false word).filename = "" ∧ (seBitmap idx false word).component = none ∧
      (seBitmap idx false word).resultType = BITMAP_RESULT := by
  obtain ⟨info, first, rest, hterm, -⟩ := h.entry hne
  simp [seBitmap, hterm]

theorem getElem?_of_below (additions : List Addition) (bound : ℤ) {i : ℕ}
    (hi : i < ((ascending additions).filter fun x : ℤ ↦ x < bound).length) :
    ∃ x, (ascending additions)[i]? = some x ∧ x < bound ∧
      ((ascending additions).filter fun x : ℤ ↦ x < bound)[i]? = some x := by
  have hfront := @List.getElem?_append_left _ _
    ((ascending additions).filter fun x : ℤ ↦ bound ≤ x) _ hi
  rw [← ascending_split, List.getElem?_eq_getElem hi] at hfront
  refine ⟨_, hfront, ?_, List.getElem?_eq_getElem hi⟩
  have hmem := List.getElem_mem hi
  rw [List.mem_filter, decide_eq_true_eq] at hmem
  exact hmem.2

theorem le_met (h : Loaded word additions idx) {i : ℕ} {y : ℤ}
    (hmet : (visitBlocks idx (seBitmap idx false word) 0
      (visitedBlocks (lastRecnum additions)))[i]? = some y) :
    ∃ x, (ascending additions)[i]? = some x ∧ x ≤ y ∧
      x < visitedBlocks (lastRecnum additions) * 65536 := by
  have haligned := h.aligned false (visitedBlocks_le additions) le_rfl
  obtain ⟨hlt, hget⟩ := List.getElem?_eq_some_iff.mp hmet
  have hshort : i < ((ascending additions).filter fun x : ℤ ↦
      x < visitedBlocks (lastRecnum additions) * 65536).length := by
    rwa [haligned.length_eq]
  have hpair := haligned.get hshort hlt
  obtain ⟨x, hx, hbelow, hfilter⟩ := getElem?_of_below additions _ hshort
  rw [List.getElem?_eq_getElem hshort, Option.some.injEq] at hfilter
  exact ⟨x, hx, hfilter.symm.le.trans (hpair.1.trans hget.le), hbelow⟩

/-- The only record fetched is the one added last, whose entry is copied with the header: it is asked
for first and cannot be displayed, and no greater record lies in a block that is searched. -/
structure FetchesHeader (server : Server) (additions : List Addition) (start number : ℤ) :
    Prop where
  header : (ascending additions)[(start - 1).toNat]? = some (lastRecnum additions : ℤ)
  nothingMet : ∀ x ∈ ascending additions, lastRecnum additions < x →
    visitedBlocks (lastRecnum additions) * 65536 ≤ x
  hidden : server.display "" 0 none (lastRecnum additions) ≠ 0
  inRange : lastRecnum additions ≤ 2147418113
  sums : start + number ≤ INT_MAX

theorem nothingMet_iff (h : Loaded word additions idx) {start : ℕ}
    (hheader : (ascending additions)[start]? = some (lastRecnum additions : ℤ)) :
    (visitBlocks idx (seBitmap idx false word) 0 (visitedBlocks (lastRecnum additions))).length ≤
        start + 1 ↔
      ∀ x ∈ ascending additions, lastRecnum additions < x →
        visitedBlocks (lastRecnum additions) * 65536 ≤ x := by
  have hsorted := pairwise_ascending additions
  have haligned := h.aligned false (visitedBlocks_le additions) le_rfl
  obtain ⟨hstart, hget⟩ := List.getElem?_eq_some_iff.mp hheader
  constructor
  · intro hshort x hx hlast
    by_contra hbelow
    rw [← haligned.length_eq] at hshort
    have hmem : x ∈ (ascending additions).filter fun x : ℤ ↦
        x < visitedBlocks (lastRecnum additions) * 65536 := by
      rw [List.mem_filter, decide_eq_true_eq]
      exact ⟨hx, not_le.mp hbelow⟩
    obtain ⟨j, hj, hxj⟩ := List.mem_iff_getElem.mp hmem
    obtain ⟨z, hz, -, hfilter⟩ := getElem?_of_below additions _ hj
    rw [List.getElem?_eq_getElem hj, hxj, Option.some.injEq] at hfilter
    obtain ⟨hj', hxj'⟩ := List.getElem?_eq_some_iff.mp (hfilter ▸ hz)
    have hle : x ≤ lastRecnum additions := by
      rw [← hxj', ← hget]
      rcases Nat.lt_or_eq_of_le (show j ≤ start by omega) with hlt | rfl
      · exact (List.pairwise_iff_getElem.mp hsorted j start hj' hstart hlt).le
      · exact le_rfl
    omega
  · intro hnothing
    by_contra hlong
    obtain ⟨x, hx, -, hbelow⟩ := le_met h (List.getElem?_eq_getElem (not_le.mp hlong))
    obtain ⟨hlt, hxget⟩ := List.getElem?_eq_some_iff.mp hx
    have hgreater : (lastRecnum additions : ℤ) < x := by
      rw [← hget, ← hxget]
      exact List.pairwise_iff_getElem.mp hsorted start (start + 1) hstart hlt (Nat.lt_succ_self _)
    have := hnothing x (List.mem_of_getElem? hx) hgreater
    omega

theorem displayedUntil_cells_eq_iff {shown : ℤ → Bool} {met wanted : List ℤ} {last : ℤ} {n : ℕ}
    (hwanted : wanted.length = n) (hn : 1 ≤ n) (hpos : ∀ x ∈ wanted, 0 < x)
    (hmet : ∀ x y, met[0]? = some y → wanted[0]? = some x → x < y) :
    displayedUntil shown ((met ++ (last :: List.replicate (n + 1) 0).drop met.length).take n) =
        displayedUntil shown wanted ↔
      met = [] ∧ wanted[0]? = some last ∧ (n = 1 ∨ shown last = false) := by
  obtain ⟨n, rfl⟩ : ∃ more, n = more + 1 := ⟨n - 1, by omega⟩
  cases wanted with
  | nil => simp at hwanted
  | cons x xs =>
    cases met with
    | cons y ys =>
      refine iff_of_false ?_ fun hcond ↦ by cases hcond.1
      have hlt : x < y := hmet x y rfl rfl
      rw [List.cons_append, List.take_succ_cons]
      exact displayedUntil_ne hlt.ne'
    | nil =>
      simp only [List.nil_append, List.length_nil, List.drop_zero, List.take_succ_cons, true_and,
        List.getElem?_cons_zero, Option.some.injEq]
      by_cases hheader : x = last
      · subst hheader
        rw [displayedUntil_cons_eq_iff, or_comm]
        refine (and_iff_right rfl).symm.trans (and_congr_right' (or_congr_left ?_))
        cases xs with
        | nil =>
          rw [List.length_singleton] at hwanted
          obtain rfl : n = 0 := by omega
          simp
        | cons z zs =>
          rw [List.length_cons, List.length_cons] at hwanted
          obtain ⟨more, rfl⟩ : ∃ more, n = more + 1 := ⟨n - 1, by omega⟩
          refine iff_of_false ?_ (by omega)
          rw [List.replicate_succ, List.take_succ_cons]
          have hz := hpos z (by simp)
          exact displayedUntil_ne hz.ne
      · refine iff_of_false ?_ fun hcond ↦ hheader hcond.1
        exact displayedUntil_ne fun heq ↦ hheader heq.symm

end

theorem hidden_cells_eq_iff {shown : ℤ → Bool} {met wanted : List ℤ} {last : ℤ} {n : ℕ}
    (hwanted : wanted.length = n) (hn : 1 ≤ n) (hpos : ∀ x ∈ wanted, 0 < x)
    (hmet : ∀ x y, met[0]? = some y → wanted[0]? = some x → x < y) :
    (((met ++ (last :: List.replicate (n + 1) 0).drop met.length).take n).all shown ≠ true ∧
        displayedUntil shown ((met ++ (last :: List.replicate (n + 1) 0).drop met.length).take n) =
          displayedUntil shown wanted) ↔
      met = [] ∧ wanted[0]? = some last ∧ shown last = false := by
  rw [displayedUntil_cells_eq_iff hwanted hn hpos hmet]
  obtain ⟨n, rfl⟩ : ∃ more, n = more + 1 := ⟨n - 1, by omega⟩
  constructor
  · rintro ⟨hnot, rfl, hlast, honce | hhidden⟩
    · obtain rfl : n = 0 := by omega
      exact ⟨rfl, hlast, by simpa using hnot⟩
    · exact ⟨rfl, hlast, hhidden⟩
  · rintro ⟨rfl, hlast, hhidden⟩
    exact ⟨by simp [hhidden], rfl, hlast, Or.inr hhidden⟩

section

variable {server : Server} {session session' : ZSession} {setid : SetName} {temp : TempFile}
  {word : Term} {additions : List Addition}

/-- Both retrievals return, and they fetch the same records. -/
def FetchesAlike (server : Server) (session session' : ZSession) (setid : SetName)
    (start number : ℤ) (temp : TempFile) : Prop :=
  ∃ records, fetchedRecords server session setid start number temp = .ok records ∧
    fetchedRecords server session' setid start number temp = .ok records

theorem fetchesAlike_iff (hloaded : Loaded word additions server.idx)
    (h : HoldsResult server session setid (seBitmap server.idx false word))
    (h' : HoldsResult server session' setid (listedResult (ascending additions)))
    (hstart : 1 ≤ start) (hnumber : 1 ≤ number)
    (hrange : start + number - 1 ≤ (ascending additions).length) :
    FetchesAlike server session session' setid start number temp ↔
      FetchesHeader server additions start number := by
  have hne : additions ≠ [] := by
    rintro rfl
    have hnil : ascending [] = [] := by simp [ascending, added]
    rw [hnil, List.length_nil] at hrange
    omega
  obtain ⟨hfile, hcomponent, htype⟩ := bitmapHeader hloaded hne
  have hbitmap : (seBitmap server.idx false word).has BITMAP_RESULT = true := by
    rw [WeightedResult.has, htype]
    decide
  have hlisted := @fetchedRecords_listed _ _ _ temp _ h' _ _ hstart hnumber hrange
  rw [FetchesAlike, hlisted]
  by_cases hsum : start + number ≤ INT_MAX
  swap
  · rw [if_neg hsum]
    refine iff_of_false ?_ fun hcond ↦ hsum hcond.sums
    rintro ⟨records, -, hfault⟩
    cases hfault
  rw [if_pos hsum]
  by_cases hends : EndsInRange additions number.toNat start.toNat
  swap
  · refine iff_of_false ?_ fun hcond ↦ hends (.inl hcond.inRange)
    rintro ⟨records, hbits, -⟩
    refine fetchedRecords_bitmap_fault h hbitmap (fun results ↦ ?_) records hbits
    exact hloaded.toResult_fault false (fun hand ↦ hends hand.2) results
  -- both return; the cells of the temporary set are compared with the window of the list
  have hn : number.toNat < INT_MAX := by
    rw [INT_MAX] at hsum ⊢
    omega
  obtain ⟨s, hconvert, hmet⟩ := seBitmapToResult_ok server.idx (hloaded.entryAt false) hn
    ((hloaded.endsInRange_iff false number.toNat start.toNat).mp hends)
  have hrecords := hmet.records
  have hallocated : (allocatedEntries (lastRecnum additions) number.toNat).map
      WeightedEntry.recordNum =
        (lastRecnum additions : ℤ) :: List.replicate (number.toNat + 1) 0 := by
    simp [allocatedEntries, Buffer.calloc, WeightedEntry.zero]
  rw [hallocated] at hrecords
  have hcells : number.toNat ≤ s.entries.length := by
    have hlength := congrArg List.length hrecords
    rw [List.length_map, List.length_append, List.length_drop, List.length_cons,
      List.length_replicate] at hlength
    omega
  have hzero : (enumeratedResult (seBitmap server.idx false word) s).resultType = 0 := by
    show Nat.ldiff (seBitmap server.idx false word).resultType BITMAP_RESULT = 0
    rw [htype]
    exact Nat.eq_of_testBit_eq fun i ↦ by simp [Nat.testBit_ldiff]
  have hvirtual : (enumeratedResult (seBitmap server.idx false word) s).has VIRTUAL_RESULT =
      false := by
    rw [WeightedResult.has, hzero, Nat.zero_and]
    rfl
  have hdisplay (x : ℤ) : server.displayRecord
      (enumeratedResult (seBitmap server.idx false word) s) x = server.display "" 0 none x := by
    rw [Server.displayRecord, hzero, enumeratedResult, hfile, hcomponent]
  have halike {shownAll : Prop} [Decidable shownAll] {bits records : List ℤ} :
      (∃ alike, (if shownAll then Except.error Fault.useAfterFree else .ok bits : Exec (List ℤ)) =
        .ok alike ∧ (.ok records : Exec (List ℤ)) = .ok alike) ↔ ¬shownAll ∧ bits = records := by
    split_ifs with hall
    · simp [hall]
    · simp [hall, eq_comm]
  rw [fetchedRecords_bitmap h hbitmap hconvert hvirtual rfl hcells (by omega) hnumber, halike]
  have hentries : (enumeratedResult (seBitmap server.idx false word) s).entries = s.entries := rfl
  simp only [hdisplay, hentries, hrecords]
  have hwantedHead : (window number.toNat (start - 1).toNat (ascending additions))[0]? =
      (ascending additions)[(start - 1).toNat]? := by
    rw [window, List.getElem?_take_of_lt (by omega), List.getElem?_drop, Nat.add_zero]
  rw [← Ne, hidden_cells_eq_iff]
  · constructor
    · rintro ⟨hnil, hheader, hhidden⟩
      rw [hwantedHead] at hheader
      have hnothing : ∀ x ∈ ascending additions, (lastRecnum additions : ℤ) < x →
          visitedBlocks (lastRecnum additions) * 65536 ≤ x := by
        rw [← nothingMet_iff hloaded hheader]
        rw [← List.length_eq_zero_iff, length_window] at hnil
        omega
      refine ⟨hheader, hnothing, by simpa using hhidden, ?_, hsum⟩
      rcases hends with hle | hfull
      · exact hle
      · rw [length_window] at hfull
        obtain ⟨x, hx, hbelow, -⟩ := getElem?_of_below additions 2147418112
          (show (start - 1).toNat < _ by omega)
        rw [hheader, Option.some.injEq] at hx
        omega
    · intro hcond
      refine ⟨?_, hwantedHead.trans hcond.header, decide_eq_false hcond.hidden⟩
      · have hlength := (nothingMet_iff hloaded hcond.header).mpr hcond.nothingMet
        rw [← List.length_eq_zero_iff, length_window]
        omega
  · rw [length_window]
    omega
  · omega
  · exact fun x hx ↦ (pos_of_mem_ascending (mem_of_mem_window hx)).1
  · intro x y hy hx
    rw [hwantedHead] at hx
    have hmetHead : (visitBlocks server.idx (seBitmap server.idx false word) 0
        (visitedBlocks (lastRecnum additions)))[start.toNat]? = some y := by
      rw [window, List.getElem?_take_of_lt (by omega), List.getElem?_drop, Nat.add_zero] at hy
      exact hy
    obtain ⟨z, hz, hle, -⟩ := le_met hloaded hmetHead
    obtain ⟨hlt, hxget⟩ := List.getElem?_eq_some_iff.mp hx
    obtain ⟨hlt', hzget⟩ := List.getElem?_eq_some_iff.mp hz
    have hless := List.pairwise_iff_getElem.mp (pairwise_ascending additions) _ _ hlt hlt' (by omega)
    omega

end

/-- A session with one result, under the name `R`. -/
def sessionWith (result : WeightedResult) : ZSession where
  store :=
    let set := { result with setid := "R" }
    (ResultStore.empty.alloc set).setEntry (nameR.tempSetid 0)
      (some ⟨"chesh1", 0, some 0, set.header⟩)
  resultSetName := nameR
  resultCount := result.numHits
  resultSetNames := [nameR]

theorem holdsResult_sessionWith {server : Server} (huserid : server.userid = 0)
    {result : WeightedResult} (hcovered : Covered result) :
    HoldsResult server (sessionWith result) nameR result := by
  let set : WeightedResult := { result with setid := "R" }
  have hkey : nameR.orDefault.tempSetid 0 = nameR.tempSetid 0 := rfl
  have hholds : Holds (sessionWith result).store (nameR.tempSetid 0)
      ⟨"chesh1", 0, some 0, set.header⟩ 0 set :=
    ⟨setEntry_self _, rfl, rfl, describes_header _, fun hbitmap ↦ (hcovered hbitmap).withSetid _⟩
  obtain ⟨hinv, hstored⟩ := (inCore_empty 0).place (by simp [nameR]) hholds
    (isCalled_self nameR) (fun other hne ↦ Function.update_of_ne hne _ _)
    (fun other data' ptr _ hentry ↦ by cases hentry) (fun ptr other hother ↦ by
      by_cases hptr : ptr = 0
      · exact hptr ▸ Nat.zero_lt_one
      · have hnone : (sessionWith result).store.heap ptr = none := Function.update_of_ne hptr _ _
        rw [hnone] at hother
        cases hother)
  have hother : tmpBitmapResults.orDefault.tempSetid 0 ≠ nameR.tempSetid 0 := by
    rw [SetName.orDefault_of_ne (by simp [tmpBitmapResults, TMP_BITMAP_RESULTS]), Ne,
      SetName.tempSetid_inj, ← String.toList_inj]
    decide +kernel
  refine ⟨?_, ⟨"R", ?_⟩, ?_⟩
  · rwa [huserid]
  · rw [huserid]
    exact (hstored _).trans (if_pos hkey)
  · rw [huserid]
    exact (hstored _).trans (if_neg hother)

/-- Additions of single records. -/
def singles (records : List RecordNumber) : List Addition := records.map Addition.single

theorem inRange_five : 0 < 5 ∧ 5 ≤ INT_MAX := by decide

theorem inRange_nine : 0 < 9 ∧ 9 ≤ INT_MAX := by decide

def recordFive : RecordNumber := ⟨5, inRange_five⟩

def recordNine : RecordNumber := ⟨9, inRange_nine⟩

theorem covered_seBitmap (idx : IdxListEntry) (hbitmap : (seBitmap idx false [97]).has BITMAP_RESULT =
    true) : Covered (seBitmap idx false [97]) := by
  intro hfalse
  rw [hbitmap] at hfalse
  cases hfalse

theorem spare_listedResult (records : List ℤ) : (listedResult records).Spare := by
  constructor <;> simp [listedResult, WeightedResult.ofRecords]

/-- A server that cannot display any record. -/
def hidingServer (idx : IdxListEntry) : Server :=
  { exampleServer with idx := idx, display := fun _ _ _ _ ↦ 14 }

end Cheshire.Zserver
