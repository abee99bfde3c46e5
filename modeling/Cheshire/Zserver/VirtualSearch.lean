import Cheshire.Zserver.SessionRuns

/-!
# Searches of virtual databases

A query of a virtual database is evaluated for each of its databases, and each result is stored under
a name of its own, which the session does not list.  A set that points to all of them is stored under
the name of the request.  A query that combines stored sets of a virtual database has a virtual set
for the first database already, and the search ends with it.
-/

namespace Cheshire.Zserver

open Search ResultStore

/-- What the query does and returns for one database, and `tempresultname`, the name of the result. -/
structure VirtualPart where
  setid : SetName
  query : Query
  temp : TempFile

/-- A search request for a virtual database.  The response reads the stored sets and changes none;
`responded` says that it could be built. -/
structure VirtualSearch where
  parts : Option (List VirtualPart)
  databaseName : String
  resultSetName : SetName
  replaceIndicator : Bool
  otherChecks : Bool
  responded : Bool
  temp : TempFile

section

variable (server : Server)

/-- The search of one database: the virtual set that ends the loop, if there is one, and the number of
hits. -/
def searchPart (store : ResultStore) (part : VirtualPart) (totalHits : ℤ) :
    Exec (Option Addr × ℤ × ResultStore) := do
  let (finalSet, _, store) ← seProcessQuery server store part.query
  match finalSet with
  | none => .ok (none, totalHits, store)
  | some addr => do
    let set ← store.load addr
    if set.has VIRTUAL_RESULT then .ok (some addr, set.numHits, store)
    else do
      let (_, store) ← seStoreResultSet server.userid store (some addr) part.setid
        REPLACE_RESULT_SETS part.temp
      let set ← store.load addr
      let totalHits ← checkInt (totalHits + set.numHits)
      .ok (none, totalHits, store)

/-- The loop over the databases. -/
def searchParts : List VirtualPart → ResultStore → ℤ → Exec (Option Addr × ℤ × ResultStore)
  | [], store, totalHits => .ok (none, totalHits, store)
  | part :: parts, store, totalHits => do
    let (finalSet, totalHits, store) ← searchPart server store part totalHits
    match finalSet with
    | some addr => .ok (some addr, totalHits, store)
    | none => searchParts parts store totalHits

/-- `for (i = 0; i < work_set->num_hits; i++)`; the null pointer has the address zero. -/
def listWorkSet (addr : Addr) (workSet : WeightedResult) (newset : NewSet) : Exec NewSet :=
  (List.range workSet.numHits.toNat).foldlM (fun newset i ↦ do
    let entry ← workSet.entryAt i
    newset.put ⟨i, addr + 1, entry.weight⟩) newset

/-- The second loop over the databases: the entries and the flags of the virtual set. -/
def listParts : List VirtualPart → ResultStore → NewSet → ℕ → Exec (NewSet × ℕ × ResultStore)
  | [], store, newset, resultType => .ok (newset, resultType, store)
  | part :: parts, store, newset, resultType => do
    let (workSet, store) ← seGetResultSet server.userid store part.setid
    match workSet with
    | none => listParts parts store newset resultType
    | some addr => do
      let set ← store.load addr
      let newset ← listWorkSet addr set newset
      listParts parts store newset (resultType ||| set.resultType ||| VIRTUAL_RESULT)

def virtualResult (filename : String) (newset : NewSet) (resultType : ℕ) (totalHits : ℤ) :
    WeightedResult :=
  { newset.finish filename none resultType 0 with numHits := totalHits }

def combineParts (request : VirtualSearch) (parts : List VirtualPart) (totalHits : ℤ)
    (store : ResultStore) : Exec (WeightedResult × ResultStore) := do
  let newset := NewSet.alloc (totalHits.toNat + 1)
  let (newset, resultType, store) ←
    if totalHits > 0 then listParts server parts store newset 0 else .ok (newset, 0, store)
  let virtual := virtualResult request.databaseName newset resultType totalHits
  .ok (if totalHits > 0 ∧ virtual.has PROBABILISTIC_RESULT then seRankDocs virtual else virtual,
    store)

/-- The set that is stored under the name of the request. -/
def finalVirtual (request : VirtualSearch) (parts : List VirtualPart) (finalSet : Option Addr)
    (totalHits : ℤ) (store : ResultStore) : Exec (Addr × ResultStore) :=
  match finalSet with
  | some addr => .ok (addr, store)
  | none => do
    let (virtual, store) ← combineParts server request parts totalHits store
    .ok (store.nextAddr, store.alloc virtual)

/-- `CheshireSearch` on a virtual database; sets are always replaced. -/
def cheshireVirtualSearch (session : ZSession) (request : VirtualSearch)
    (parts : List VirtualPart) : Exec ZSession := do
  let (finalSet, totalHits, store) ← searchParts server parts session.store 0
  let (addr, store) ← finalVirtual server request parts finalSet totalHits store
  let (_, store) ← seStoreResultSet server.userid store (some addr) request.resultSetName
    REPLACE_RESULT_SETS request.temp
  .ok { session with store := store, resultCount := totalHits }

/-- `HandleSearchRequest` for a virtual database. -/
def handleVirtualSearch (session : ZSession) (request : VirtualSearch) : Exec ZSession :=
  let session := { session with resultCount := 0 }
  match request.parts with
  | none => .ok session
  | some parts =>
    if request.replaceIndicator = false ∧
        acListSearch session.resultSetNames request.resultSetName = true then .ok session
    else if server.namedResultSet = false ∧ isDefault request.resultSetName = false then .ok session
    else if request.otherChecks = false then .ok session
    else do
      let session ← cheshireVirtualSearch server
        { session with resultSetName := request.resultSetName } request parts
      let names := session.resultSetNames
      .ok { session with
        resultSetNames :=
          if session.resultCount > 0 ∧ acListSearch names request.resultSetName = false then
            names ++ [request.resultSetName]
          else names
        resultCount := if request.responded then session.resultCount else 0 }

/-- The set of a name is no bitmap. -/
def Fetchable (store : ResultStore) (setid : SetName) : Prop :=
  ∀ set, storedSet server.userid store setid = some set → set.has BITMAP_RESULT = false

/-- Where a virtual set is stored under a name, the sets that its entries lead to are in memory and are no
bitmaps, nor are the sets under their names. -/
def Linked (store : ResultStore) (setid : SetName) : Prop :=
  ∀ set, storedSet server.userid store setid = some set → set.has VIRTUAL_RESULT = true →
    ∀ i : ℕ, i < set.numHits → ∀ entry, set.entries[i]? = some entry →
      ∃ part, store.heap (entry.xtra - 1) = some part ∧ part.has BITMAP_RESULT = false ∧
        ∀ name : SetName, name.text = part.setid → Fetchable server store name

/-- A result was built for the database; or the query names a stored set, which is virtual and is not put
in the place of another one. -/
def FinalFits (store : ResultStore) (resultSetName : SetName) : FinalSet → Prop
  | .null _ => True
  | .fresh set _ => set.setid = "" ∧ set.Spare
  | .stored setid _ => ∀ set, storedSet server.userid store setid = some set →
      set.has VIRTUAL_RESULT = true ∧ set.has BITMAP_RESULT = false ∧
        (AlreadyNamed set resultSetName ∨ ¬Taken server.userid store resultSetName)

/-- What the query does and returns for a database fits. -/
def PartFits (store : ResultStore) (resultSetName : SetName) (part : VirtualPart) : Prop :=
  EffectsFit server store part.query.effects ∧
    ∀ store', runEffects server store part.query.effects = .ok store' →
      FinalFits server store' resultSetName part.query.finalSet

/-- Each part fits in the store that the ones before it have left. -/
def PartsFit (resultSetName : SetName) : List VirtualPart → ResultStore → ℤ → Prop
  | [], _, _ => True
  | part :: parts, store, totalHits => PartFits server store resultSetName part ∧
      ∀ totalHits' store', searchPart server store part totalHits = .ok (none, totalHits', store') →
        PartsFit resultSetName parts store' totalHits'

/-- The parts fit, and the response reads neither a bitmap nor what is gone. -/
def VirtualFits (session : ZSession) (request : VirtualSearch) : Prop :=
  ∀ parts, request.parts = some parts →
    PartsFit server request.resultSetName parts session.store 0 ∧
      ∀ session', cheshireVirtualSearch server
          { session with resultCount := 0, resultSetName := request.resultSetName } request parts =
        .ok session' → 0 < session'.resultCount →
        Fetchable server session'.store request.resultSetName ∧
          Linked server session'.store request.resultSetName

end

section Store

variable {server : Server} {store store' : ResultStore}

theorem InCore.storeFresh (h : InCore server.userid store) {addr : Addr} {set : WeightedResult}
    (hset : store.heap addr = some set) (hspare : set.Spare) (hfree : Unheld store addr)
    (setid : SetName) (temp : TempFile) :
    ∃ status store', seStoreResultSet server.userid store (some addr) setid REPLACE_RESULT_SETS temp =
        .ok (status, store') ∧ InCore server.userid store' ∧
      ∃ loaded, store'.heap addr = some loaded ∧ loaded.numHits = set.numHits := by
  obtain ⟨status, store', hrun, hinv, -, -, hloaded⟩ :=
    @InCore.store _ _ setid _ _ REPLACE_RESULT_SETS h hset (fun _ _ ↦ Or.inl hspare)
      (fun _ ↦ hfree) (fun _ _ _ ↦ hfree) temp
  exact ⟨status, store', hrun, hinv, hloaded⟩

/-- The set with which the loop over the databases ends can be stored under the name of the
request. -/
def Endable (server : Server) (store : ResultStore) (resultSetName : SetName)
    (finalSet : Option Addr) : Prop :=
  ∀ addr, finalSet = some addr → ∀ temp status store',
    seStoreResultSet server.userid store (some addr) resultSetName REPLACE_RESULT_SETS temp =
      .ok (status, store') → InCore server.userid store'

theorem endable_none (resultSetName : SetName) : Endable server store resultSetName none :=
  fun _ h ↦ by cases h

/-- What the loop over the databases leaves. -/
structure PartsSearched (server : Server) (store : ResultStore) (resultSetName : SetName)
    (finalSet : Option Addr) (totalHits : ℤ) : Prop where
  inCore : InCore server.userid store
  endable : Endable server store resultSetName finalSet
  nonneg : finalSet = none → 0 ≤ totalHits

variable {totalHits : ℤ}

theorem InCore.searchPart (h : InCore server.userid store) {resultSetName : SetName}
    {part : VirtualPart} (hfits : PartFits server store resultSetName part)
    (hnonneg : 0 ≤ totalHits) {finalSet : Option Addr} {totalHits' : ℤ}
    (hrun : Zserver.searchPart server store part totalHits = .ok (finalSet, totalHits', store')) :
    PartsSearched server store' resultSetName finalSet totalHits' := by
  obtain ⟨changed, heffects, hinv, -⟩ := h.effects hfits.1
  have hfinal := hfits.2 changed heffects
  rw [Zserver.searchPart, seProcessQuery, heffects] at hrun
  simp only [bind, Except.bind] at hrun
  cases hquery : part.query.finalSet with
  | null diagnostic =>
    rw [hquery] at hrun
    cases hrun
    exact ⟨hinv, endable_none resultSetName, fun _ ↦ hnonneg⟩
  | fresh set diagnostic =>
    rw [hquery] at hfinal hrun
    obtain ⟨halloc, -, hunheld⟩ := hinv.alloc set
    have hheap : (changed.alloc set).heap changed.nextAddr = some set := alloc_self
    simp only [returnFinalSet, load_of_heap hheap] at hrun
    split at hrun
    · cases hrun
      refine ⟨halloc, fun addr haddr temp status store' hstore ↦ ?_, fun hnone ↦ by cases hnone⟩
      obtain rfl := Option.some.inj haddr
      obtain ⟨status', store'', hstore', hinv', -⟩ := halloc.storeFresh hheap hfinal.2 hunheld
        resultSetName temp
      rw [hstore'] at hstore
      cases hstore
      exact hinv'
    · obtain ⟨status, stored, hstore, hinv', loaded, hloaded, hhits⟩ := halloc.storeFresh hheap
        hfinal.2 hunheld part.setid part.temp
      simp only [hstore, load_of_heap hloaded] at hrun
      obtain ⟨total, htotal, hrun⟩ := bind_eq_ok.mp hrun
      cases hrun
      refine ⟨hinv', endable_none resultSetName, fun _ ↦ ?_⟩
      rw [checkInt_eq_ok htotal, hhits]
      exact Int.add_nonneg hnonneg hfinal.2.nonneg
  | stored setid diagnostic =>
    rw [hquery] at hfinal hrun
    rcases hinv.entry_or (setid.orDefault.tempSetid server.userid) with
      ⟨hentry, -⟩ | ⟨data, addr, set, hholds⟩
    · simp only [returnFinalSet, InCore.fetch_none hentry, bind, Except.bind] at hrun
      cases hrun
      exact ⟨inCore_initTable hinv, endable_none resultSetName, fun _ ↦ hnonneg⟩
    · obtain ⟨hvirtual, hbitmap, hfree⟩ := hfinal set hholds.storedAt
      have hload : changed.initTable.load addr = .ok set := load_of_heap hholds.alive
      simp only [returnFinalSet, hholds.fetch, bind, Except.bind, hload, hvirtual, if_true] at hrun
      cases hrun
      have hinit := inCore_initTable hinv
      refine ⟨hinit, fun other hother temp status store' hstore ↦ ?_, fun hnone ↦ by cases hnone⟩
      obtain rfl := Option.some.inj hother
      obtain ⟨status', store'', hstore', hinv', -⟩ :=
        @InCore.store _ _ resultSetName _ _ REPLACE_RESULT_SETS hinit hholds.alive
          (fun _ _ ↦ Or.inl (hholds.covered hbitmap))
          (fun hempty ↦ absurd hempty (hholds.setid_ne hinv))
          (fun hnamed htaken _ ↦ absurd htaken (hfree.resolve_left hnamed)) temp
      rw [hstore'] at hstore
      cases hstore
      exact hinv'

variable {parts : List VirtualPart}

theorem InCore.searchParts (h : InCore server.userid store) {resultSetName : SetName}
    (hfits : PartsFit server resultSetName parts store totalHits) (hnonneg : 0 ≤ totalHits)
    {finalSet : Option Addr} {totalHits' : ℤ}
    (hrun : Zserver.searchParts server parts store totalHits = .ok (finalSet, totalHits', store')) :
    PartsSearched server store' resultSetName finalSet totalHits' := by
  induction parts generalizing store totalHits with
  | nil =>
    cases hrun
    exact ⟨h, endable_none resultSetName, fun _ ↦ hnonneg⟩
  | cons part parts ih =>
    obtain ⟨⟨found, total, next⟩, hpart, hrun⟩ := bind_eq_ok.mp hrun
    have hsearched := h.searchPart hfits.1 hnonneg hpart
    cases found with
    | none => exact ih hsearched.inCore (hfits.2 total next hpart) (hsearched.nonneg rfl) hrun
    | some addr =>
      cases hrun
      exact hsearched

theorem InCore.fetch (h : InCore server.userid store) (setid : SetName) :
    ∃ found, seGetResultSet server.userid store setid = .ok (found, store.initTable) := by
  rcases h.entry_or (setid.orDefault.tempSetid server.userid) with
    ⟨hentry, -⟩ | ⟨data, addr, set, hholds⟩
  · exact ⟨none, InCore.fetch_none hentry⟩
  · exact ⟨some addr, hholds.fetch⟩

variable {newset newset' : NewSet}

theorem length_put {entry : WeightedEntry}
    (h : newset.put entry = .ok newset') : newset'.cells.length = newset.cells.length := by
  rw [NewSet.put] at h
  split at h
  · rename_i cells hcells
    cases h
    rw [Lib.Buffer.store?] at hcells
    split at hcells
    · cases hcells
      exact List.length_set
    · cases hcells
  · cases h

theorem length_listWorkSet {addr : Addr} {workSet : WeightedResult}
    (h : listWorkSet addr workSet newset = .ok newset') :
    newset'.cells.length = newset.cells.length := by
  rw [listWorkSet] at h
  generalize List.range workSet.numHits.toNat = is at h
  induction is generalizing newset with
  | nil =>
    cases h
    rfl
  | cons i is ih =>
    rw [List.foldlM_cons] at h
    obtain ⟨next, hnext, h⟩ := bind_eq_ok.mp h
    obtain ⟨entry, -, hput⟩ := bind_eq_ok.mp hnext
    rw [ih h, length_put hput]

theorem InCore.listParts (h : InCore server.userid store) {resultType resultType' : ℕ}
    (hrun : Zserver.listParts server parts store newset resultType =
      .ok (newset', resultType', store')) :
    InCore server.userid store' ∧ newset'.cells.length = newset.cells.length := by
  induction parts generalizing store newset resultType with
  | nil =>
    cases hrun
    exact ⟨h, rfl⟩
  | cons part parts ih =>
    obtain ⟨found, hfound⟩ := h.fetch part.setid
    rw [Zserver.listParts, hfound] at hrun
    simp only [bind, Except.bind] at hrun
    cases found with
    | none => exact ih (inCore_initTable h) hrun
    | some addr =>
      obtain ⟨set, -, hrun⟩ := bind_eq_ok.mp hrun
      obtain ⟨listed, hlisted, hrun⟩ := bind_eq_ok.mp hrun
      obtain ⟨hinv, hlength⟩ := ih (inCore_initTable h) hrun
      exact ⟨hinv, hlength.trans (length_listWorkSet hlisted)⟩

theorem spare_seRankDocs {set : WeightedResult} (h : set.Spare) : (seRankDocs set).Spare :=
  ⟨h.nonneg, (length_qsort set compareWeights).symm ▸ h.covered⟩

theorem InCore.combineParts (h : InCore server.userid store) {request : VirtualSearch}
    (hnonneg : 0 ≤ totalHits) {virtual : WeightedResult}
    (hrun : Zserver.combineParts server request parts totalHits store = .ok (virtual, store')) :
    InCore server.userid store' ∧ virtual.Spare := by
  have hlisted : ∃ newset resultType, InCore server.userid store' ∧
      newset.cells.length = totalHits.toNat + 2 ∧
      virtual = if totalHits > 0 ∧
          (virtualResult request.databaseName newset resultType totalHits).has PROBABILISTIC_RESULT
        then seRankDocs (virtualResult request.databaseName newset resultType totalHits)
        else virtualResult request.databaseName newset resultType totalHits := by
    have hsize : (NewSet.alloc (totalHits.toNat + 1)).cells.length = totalHits.toNat + 2 :=
      List.length_replicate
    rw [Zserver.combineParts] at hrun
    split at hrun
    · obtain ⟨⟨newset, resultType, store₁⟩, hlist, hrun⟩ := bind_eq_ok.mp hrun
      cases hrun
      obtain ⟨hinv, hlength⟩ := h.listParts hlist
      exact ⟨newset, resultType, hinv, hlength.trans hsize, rfl⟩
    · cases hrun
      exact ⟨_, 0, h, hsize, rfl⟩
  obtain ⟨newset, resultType, hinv, hlength, rfl⟩ := hlisted
  have hspare : (virtualResult request.databaseName newset resultType totalHits).Spare := by
    refine ⟨hnonneg, ?_⟩
    change totalHits.toNat + 1 ≤ newset.cells.length
    rw [hlength]
    exact Nat.le_succ _
  refine ⟨hinv, ?_⟩
  split
  · exact spare_seRankDocs hspare
  · exact hspare

theorem cheshireVirtualSearch_inCore {session session' : ZSession} {request : VirtualSearch}
    {parts : List VirtualPart} (h : InCore server.userid session.store)
    (hfits : PartsFit server request.resultSetName parts session.store 0)
    (hrun : cheshireVirtualSearch server session request parts = .ok session') :
    InCore server.userid session'.store := by
  obtain ⟨⟨finalSet, totalHits, store₁⟩, hloop, hrun⟩ := bind_eq_ok.mp hrun
  have hfound : PartsSearched server store₁ request.resultSetName finalSet totalHits :=
    h.searchParts hfits le_rfl hloop
  obtain ⟨⟨addr, store₂⟩, hfinal, hrun⟩ := bind_eq_ok.mp hrun
  obtain ⟨⟨status, store₃⟩, hstore, hrun⟩ := bind_eq_ok.mp hrun
  cases hrun
  cases finalSet with
  | some found =>
    cases hfinal
    exact hfound.endable addr rfl _ _ _ hstore
  | none =>
    obtain ⟨⟨virtual, store₄⟩, hcombined, hfinal⟩ := bind_eq_ok.mp hfinal
    cases hfinal
    obtain ⟨hinv, hspare⟩ := hfound.inCore.combineParts (hfound.nonneg rfl) hcombined
    obtain ⟨halloc, -, hunheld⟩ := hinv.alloc virtual
    obtain ⟨status', store₅, hstore', hinv', -⟩ := halloc.storeFresh alloc_self hspare hunheld
      request.resultSetName request.temp
    rw [hstore'] at hstore
    cases hstore
    exact hinv'

theorem handleVirtualSearch_inCore {session session' : ZSession} {request : VirtualSearch}
    (h : InCore server.userid session.store) (hfits : VirtualFits server session request)
    (hrun : handleVirtualSearch server session request = .ok session') :
    InCore server.userid session'.store := by
  rw [handleVirtualSearch] at hrun
  cases hparts : request.parts with
  | none =>
    rw [hparts] at hrun
    cases hrun
    exact h
  | some parts =>
    simp only [hparts] at hrun
    split at hrun
    · cases hrun
      exact h
    split at hrun
    · cases hrun
      exact h
    split at hrun
    · cases hrun
      exact h
    obtain ⟨searched, hsearched, hrun⟩ := bind_eq_ok.mp hrun
    cases hrun
    have hkept := @cheshireVirtualSearch_inCore _
      { session with resultCount := 0, resultSetName := request.resultSetName } searched _ _ h
      (hfits parts hparts).1 hsearched
    exact hkept

end Store

end Cheshire.Zserver
