import Cheshire.Zserver.SessionFetches

/-!
# Search requests

The evaluation of a query changes stored sets in place, or stores the sets of merged databases; every
name keeps a set of its own.  A search then stores what its query evaluates to, unless the name is taken
and must not be replaced; the response carries the first records of whatever is stored under the name.
-/

namespace Cheshire.Zserver

open Search ResultStore

section

variable (server : Server) (store : ResultStore)

/-- The set that the evaluation of a query returns. -/
def foundSet : FinalSet → Option WeightedResult
  | .null _ => none
  | .fresh set _ => some set
  | .stored setid _ => storedSet server.userid store setid

/-- The diagnostic after the evaluation of a query. -/
def searchDiagnostic : FinalSet → ℤ
  | .null diagnostic => diagnostic
  | .fresh _ diagnostic => diagnostic
  | .stored setid diagnostic =>
    if (storedSet server.userid store setid).isNone then 30 else diagnostic

/-- The result of a query that was evaluated without a diagnostic. -/
def searchResult (query : FinalSet) : Option WeightedResult :=
  if searchDiagnostic server store query = 0 then foundSet server store query else none

/-- A merged set can be stored, and a stored set is not put in the place of another one. -/
def Effect.Fits : Effect → Prop
  | .component _ (.fresh set _) _ =>
    Storable set (REPLACE_RESULT_SETS ||| DONT_SAVE_RESULT_SETS)
  | .component setid (.stored name _) _ => ∀ set,
      storedSet server.userid store name = some set → AlreadyNamed set setid ∨
        ¬Taken server.userid store setid ∧ set.has BITMAP_RESULT = false
  | _ => True

/-- The effect is on another name, or changes nothing of the set. -/
def Effect.Spares (key : String) (set : WeightedResult) : Effect → Prop
  | .change setid operand => setid.orDefault.tempSetid server.userid = key → operand.apply set = set
  | .component setid _ _ => setid.orDefault.tempSetid server.userid ≠ key

/-- Every set stays stored, and as it is when it is spared. -/
def KeepsSets (spares : String → WeightedResult → Prop) (store' : ResultStore) : Prop :=
  ∀ key set, storedAt store key = some set →
    ∃ set', storedAt store' key = some set' ∧ (spares key set → set' = set)

/-- The effects of a query fit one after the other. -/
def EffectsFit (store : ResultStore) : List Effect → Prop
  | [] => True
  | effect :: effects => effect.Fits server store ∧
      ∀ store', runEffect server store effect = .ok store' → EffectsFit store' effects

/-- A set that was built can be stored. -/
def ValidQuery (request : SearchRequest) : FinalSet → Prop
  | .fresh set _ => Storable set (replaceFlag server request.replaceIndicator)
  | _ => True

/-- A stored set is neither put in the place of another one nor, when it is a bitmap, copied. -/
def KeepsApart (request : SearchRequest) (query : FinalSet) : Prop :=
  ∀ setid diagnostic, query = .stored setid diagnostic →
    ∀ set, searchResult server store query = some set → AlreadyNamed set request.resultSetName ∨
      ¬Taken server.userid store request.resultSetName ∧ set.has BITMAP_RESULT = false ∨
      Taken server.userid store request.resultSetName ∧ request.replaceIndicator = false

end

section

variable {server : Server} {session : ZSession} {store : ResultStore}

theorem InCore.alloc (h : InCore server.userid store) (set : WeightedResult) :
    InCore server.userid (store.alloc set) ∧
      (∀ key, storedAt (store.alloc set) key = storedAt store key) ∧
      Unheld (store.alloc set) store.nextAddr := by
  have hsame {key : String} {data : ResultSetData} {ptr : Addr}
      (hentry : store.table key = some data) (hptr : data.resultPtr = some ptr) :
      ptr ≠ store.nextAddr ∧ (store.alloc set).heap ptr = store.heap ptr := by
    obtain ⟨_, addr, old, -, -, hheld, -⟩ := h.named key data hentry
    rw [hheld.pointer, Option.some.injEq] at hptr
    have hlt := h.bound addr old hheld.alive
    subst hptr
    exact ⟨hlt.ne, by rw [alloc_heap, Function.update_of_ne hlt.ne]⟩
  refine ⟨⟨fun key data hentry ↦ ?_, h.apart, fun ptr other hother ↦ ?_⟩, fun key ↦ ?_, ?_⟩
  · obtain ⟨setid, addr, old, hne, hkey, hheld, hcalled⟩ := h.named key data hentry
    have halive := (hsame hentry hheld.pointer).2
    exact ⟨setid, addr, old, hne, hkey, ⟨hentry, hheld.pointer, halive.trans hheld.alive,
      hheld.header, hheld.covered⟩, hcalled⟩
  · rw [alloc_heap, Function.update_apply] at hother
    rw [alloc_nextAddr]
    split_ifs at hother with heq
    · exact heq ▸ Nat.lt_succ_self _
    · exact Nat.lt_succ_of_lt (h.bound ptr other hother)
  · simp only [storedAt, alloc_table]
    cases hentry : store.table key with
    | none => rfl
    | some data =>
      obtain ⟨_, addr, old, -, -, hheld, -⟩ := h.named key data hentry
      simp only [Option.bind_some, hheld.pointer, (hsame hentry hheld.pointer).2]
  · intro key data hentry hptr
    exact (hsame hentry hptr).1 rfl

theorem name_ne_of_isCalled {setid : SetName} {name : String} (hne : setid.text ≠ "")
    (hcalled : setid.isCalled name = true) : name ≠ "" := by
  rintro rfl
  rw [SetName.isCalled, decide_eq_true_eq] at hcalled
  have hlist := congrArg String.toList hcalled
  simp only [String.toLower, String.toList_map, String.toList_empty, List.map_nil] at hlist
  exact hne (String.toList_eq_nil_iff.mp (List.map_eq_nil_iff.mp hlist.symm))

variable {addr : Addr} {set : WeightedResult}

theorem Holds.setid_ne {key : String} {data : ResultSetData}
    (hholds : Holds store key data addr set) (h : InCore server.userid store) : set.setid ≠ "" := by
  obtain ⟨name, _, other, hname, -, hheld, hcalled⟩ := h.named key data hholds.entry
  have hsame := hheld.storedAt
  rw [hholds.storedAt, Option.some.injEq] at hsame
  rw [hsame]
  exact name_ne_of_isCalled hname hcalled

@[simp] theorem apply_setid (change : OperandChange) (set : WeightedResult) :
    (change.apply set).setid = set.setid := by
  cases change <;> rfl

@[simp] theorem apply_numHits (change : OperandChange) (set : WeightedResult) :
    (change.apply set).numHits = set.numHits := by
  cases change <;> rfl

theorem apply_bitmap (change : OperandChange) (set : WeightedResult) :
    (change.apply set).resultType &&& BITMAP_RESULT = set.resultType &&& BITMAP_RESULT := by
  cases change with
  | fuzzy =>
    have hapart : FUZZY_REQUEST &&& BITMAP_RESULT = 0 := by decide
    exact (Nat.and_or_distrib_right ..).trans (by rw [hapart, Nat.or_zero])
  | _ => rfl

@[simp] theorem length_qsort (set : WeightedResult)
    (compare : WeightedEntry → WeightedEntry → ℤ) :
    (set.qsort compare).entries.length = set.entries.length := by
  simp only [WeightedResult.qsort, List.length_append, List.length_insertionSort,
    WeightedResult.hits, List.length_take, List.length_drop]
  omega

theorem length_apply (change : OperandChange) (set : WeightedResult) :
    (change.apply set).entries.length = set.entries.length := by
  cases change with
  | sorted => exact length_qsort set _
  | ranked => exact length_qsort set _
  | fuzzy => rfl
  | capped => rfl
  | linked addrs =>
    simp only [OperandChange.apply, List.length_append, List.length_zipWith, List.length_drop]
    omega

theorem Covered.apply (h : Covered set) (change : OperandChange) : Covered (change.apply set) := by
  intro hbitmap
  rw [WeightedResult.has, apply_bitmap] at hbitmap
  have hspare := h hbitmap
  exact ⟨apply_numHits change set ▸ hspare.nonneg,
    by rw [apply_numHits, length_apply]; exact hspare.covered⟩

/-- A change of an operand is seen under its name only. -/
theorem InCore.change (h : InCore server.userid store) {key : String} {data : ResultSetData}
    (hholds : Holds store key data addr set) (change : OperandChange) :
    InCore server.userid (store.setHeap addr (some (change.apply set))) ∧
      ∀ other, storedAt (store.setHeap addr (some (change.apply set))) other =
        if other = key then some (change.apply set) else storedAt store other := by
  obtain ⟨name, addr', named, hname, rfl, hheld, hcalled⟩ := h.named key data hholds.entry
  have hsame := hheld.storedAt
  rw [hholds.storedAt, Option.some.injEq] at hsame
  subst hsame
  refine h.place hname ⟨hholds.entry, hholds.pointer, setHeap_self _, ⟨?_, ?_⟩, ?_⟩ ?_
    (fun _ _ ↦ rfl) (fun other data' ptr hother hentry hptr ↦ ?_) fun ptr other hother ↦ ?_
  · rw [apply_numHits, hholds.header.numHits]
  · rw [apply_bitmap, hholds.header.bitmap]
  · exact hholds.covered.apply change
  · rw [apply_setid]
    exact hcalled
  · have hdiffer : ptr ≠ addr := by
      rintro rfl
      exact hother (h.apart _ _ _ _ _ hentry hholds.entry hptr hholds.pointer)
    exact ⟨hdiffer, Function.update_of_ne hdiffer ..⟩
  · rw [setHeap_heap, Function.update_apply] at hother
    split_ifs at hother with heq
    · exact heq ▸ h.bound addr set hholds.alive
    · exact h.bound ptr other hother

theorem KeepsSets.refl (spares : String → WeightedResult → Prop) : KeepsSets store spares store :=
  fun _ set hset ↦ ⟨set, hset, fun _ ↦ rfl⟩

theorem InCore.effect (h : InCore server.userid store) {effect : Effect}
    (hfits : effect.Fits server store) :
    ∃ store', runEffect server store effect = .ok store' ∧ InCore server.userid store' ∧
      KeepsSets store (effect.Spares server · ·) store' := by
  have hstored {store₁ : ResultStore} {addr : Addr} {set : WeightedResult} {setid : SetName}
      {temp : TempFile} (hinv : InCore server.userid store₁)
      (hsame : ∀ key, storedAt store₁ key = storedAt store key) (hset : store₁.heap addr = some set)
      (hstorable : ¬AlreadyNamed set setid →
        Storable set (REPLACE_RESULT_SETS ||| DONT_SAVE_RESULT_SETS))
      (hnameless : set.setid = "" → Unheld store₁ addr)
      (happart : ¬AlreadyNamed set setid → Taken server.userid store₁ setid → Unheld store₁ addr) :
      ∃ status store', seStoreResultSet server.userid store₁ (some addr) setid
          (REPLACE_RESULT_SETS ||| DONT_SAVE_RESULT_SETS) temp = .ok (status, store') ∧
        InCore server.userid store' ∧
        KeepsSets store (fun key _ ↦ setid.orDefault.tempSetid server.userid ≠ key) store' := by
    obtain ⟨status, store', hrun, hinv', hothers, hafter, -⟩ :=
      hinv.store hset (fun hnamed _ ↦ hstorable hnamed) hnameless
        (fun hnamed htaken _ ↦ happart hnamed htaken) temp
    refine ⟨status, store', hrun, hinv', fun key old hold ↦ ?_⟩
    rw [← hsame] at hold
    by_cases hkey : key = setid.orDefault.tempSetid server.userid
    · subst hkey
      cases hnew : storedAt store' (setid.orDefault.tempSetid server.userid) with
      | some new => exact ⟨new, rfl, fun hspared ↦ absurd rfl hspared⟩
      | none =>
        rw [storedSet, hnew, Option.map_none, afterStore] at hafter
        split_ifs at hafter
        exact absurd (hold.symm.trans (Option.map_eq_none_iff.mp hafter.symm)) (by simp)
    · exact ⟨old, (hothers key hkey).trans hold, fun _ ↦ rfl⟩
  cases effect with
  | change setid change =>
    rcases h.entry_or (setid.orDefault.tempSetid server.userid) with
      ⟨hentry, -⟩ | ⟨data, addr, set, hholds⟩
    · refine ⟨store.initTable, ?_, inCore_initTable h, .refl _⟩
      simp only [runEffect, InCore.fetch_none hentry, bind, Except.bind]
    · obtain ⟨hinv, hsame⟩ := (inCore_initTable h).change
        ⟨hholds.entry, hholds.pointer, hholds.alive, hholds.header, hholds.covered⟩ change
      have hload : store.initTable.load addr = .ok set := load_of_heap hholds.alive
      refine ⟨_, ?_, hinv, fun key old hold ↦ ?_⟩
      · simp only [runEffect, hholds.fetch, bind, Except.bind, hload]
      · rw [hsame]
        split_ifs with hkey
        · rw [hkey, hholds.storedAt, Option.some.injEq] at hold
          exact ⟨_, rfl, fun hspared ↦ hold ▸ hspared hkey.symm⟩
        · exact ⟨old, hold, fun _ ↦ rfl⟩
  | component setid merged temp =>
    cases merged with
    | null diagnostic => exact ⟨store, rfl, h, .refl _⟩
    | fresh set diagnostic =>
      obtain ⟨hinv, hsame, hunheld⟩ := h.alloc set
      obtain ⟨status, store', hrun, hinv', hkept⟩ := @hstored _ _ _ setid temp hinv hsame alloc_self
        (fun _ ↦ hfits) (fun _ ↦ hunheld) (fun _ _ ↦ hunheld)
      refine ⟨store', ?_, hinv', hkept⟩
      simp only [runEffect, returnFinalSet, hrun, bind, Except.bind]
    | stored name diagnostic =>
      rcases h.entry_or (name.orDefault.tempSetid server.userid) with
        ⟨hentry, -⟩ | ⟨data, addr, set, hholds⟩
      · refine ⟨store.initTable, ?_, inCore_initTable h, .refl _⟩
        simp only [runEffect, returnFinalSet, InCore.fetch_none hentry, bind, Except.bind]
      · have hcase := hfits set hholds.storedAt
        obtain ⟨status, store', hrun, hinv', hkept⟩ := @hstored _ _ _ setid temp
          (inCore_initTable h) (fun _ ↦ rfl) hholds.alive
          (fun hnamed ↦ .inl (hholds.covered (hcase.resolve_left hnamed).2))
          (fun hempty ↦ absurd hempty (hholds.setid_ne h))
          (fun hnamed htaken ↦ absurd htaken (hcase.resolve_left hnamed).1)
        refine ⟨store', ?_, hinv', hkept⟩
        simp only [runEffect, returnFinalSet, hholds.fetch, hrun, bind, Except.bind]

theorem InCore.effects (h : InCore server.userid store) {effects : List Effect}
    (hfits : EffectsFit server store effects) :
    ∃ store', runEffects server store effects = .ok store' ∧ InCore server.userid store' ∧
      KeepsSets store (fun key set ↦ ∀ effect ∈ effects, effect.Spares server key set) store' := by
  induction effects generalizing store with
  | nil => exact ⟨store, rfl, h, .refl _⟩
  | cons effect effects ih =>
    obtain ⟨next, hstep, hinv, hkept⟩ := h.effect hfits.1
    obtain ⟨store', hrun, hinv', hrest⟩ := ih hinv (hfits.2 next hstep)
    refine ⟨store', ?_, hinv', fun key set hset ↦ ?_⟩
    · rw [runEffects, List.foldlM_cons, hstep]
      exact hrun
    · obtain ⟨changed, hchanged, hsame⟩ := hkept key set hset
      obtain ⟨last, hlast, hsame'⟩ := hrest key changed hchanged
      refine ⟨last, hlast, fun hspared ↦ ?_⟩
      obtain ⟨hfirst, hothers⟩ := List.forall_mem_cons.mp hspared
      obtain rfl := hsame hfirst
      exact hsame' hothers

/-- After its effects, a query is one that has none. -/
theorem executeQuery_of_effects {query : Query} {request : SearchRequest}
    (hrun : runEffects server session.store query.effects = .ok store) :
    executeQuery server session query request =
      executeQuery server { session with store := store } ⟨[], query.finalSet⟩ request := by
  have hprocess : seProcessQuery server session.store query =
      seProcessQuery server store ⟨[], query.finalSet⟩ := by
    rw [seProcessQuery, hrun]
    rfl
  simp only [executeQuery, cheshireSearch, hprocess]

theorem replaceFlag_and (server : Server) (replaceIndicator : Bool) :
    replaceFlag server replaceIndicator &&& REPLACE_RESULT_SETS = 0 ↔ replaceIndicator = false := by
  rw [replaceFlag]
  cases replaceIndicator <;> cases server.disableSavingResultSets <;> decide

/-- The session after a query was executed. -/
structure Executed (server : Server) (session session' : ZSession) (request : SearchRequest)
    (query : FinalSet) : Prop where
  inCore : InCore server.userid session'.store
  others : ∀ key ≠ request.resultSetName.orDefault.tempSetid server.userid,
    storedAt session'.store key = storedAt session.store key
  name : session'.resultSetName = request.resultSetName
  names : session'.resultSetNames = session.resultSetNames
  failed : searchResult server session.store query = none →
    storedSet server.userid session'.store request.resultSetName =
      storedSet server.userid session.store request.resultSetName ∧ session'.resultCount = 0
  found : ∀ set, searchResult server session.store query = some set →
    (storedSet server.userid session'.store request.resultSetName).map content =
      afterStore server.userid session.store request.resultSetName
        (replaceFlag server request.replaceIndicator) set ∧ session'.resultCount = set.numHits

theorem executeQuery_store {query : FinalSet} {request : SearchRequest}
    (hquery : seProcessQuery server session.store ⟨[], query⟩ =
      .ok (some addr, searchDiagnostic server session.store query, store))
    (hfound : foundSet server session.store query = some set) (hinv : InCore server.userid store)
    (hsame : ∀ key, storedAt store key = storedAt session.store key)
    (hset : store.heap addr = some set)
    (hstorable : searchDiagnostic server session.store query = 0 →
      ¬AlreadyNamed set request.resultSetName →
      ¬(Taken server.userid session.store request.resultSetName ∧
        request.replaceIndicator = false) →
      Storable set (replaceFlag server request.replaceIndicator))
    (hnameless : set.setid = "" → Unheld store addr)
    (happart : searchDiagnostic server session.store query = 0 →
      ¬AlreadyNamed set request.resultSetName →
      Taken server.userid session.store request.resultSetName → request.replaceIndicator ≠ false →
      Unheld store addr) :
    ∃ session', executeQuery server session ⟨[], query⟩ request =
        .ok (searchDiagnostic server session.store query, session') ∧
      Executed server session session' request query := by
  have hstored : storedSet server.userid store request.resultSetName =
      storedSet server.userid session.store request.resultSetName := hsame _
  by_cases hdiag : searchDiagnostic server session.store query = 0
  · have hresult : searchResult server session.store query = some set := by
      rw [searchResult, if_pos hdiag, hfound]
    have htaken : Taken server.userid store request.resultSetName ↔
        Taken server.userid session.store request.resultSetName := by
      rw [Taken, Taken, hstored]
    obtain ⟨status, store', hstore, hinv', hothers, hafter, loaded, hloaded, hhits⟩ :=
      hinv.store hset
        (fun hnamed hfree ↦ hstorable hdiag hnamed fun hand ↦
          hfree ⟨htaken.mpr hand.1, (replaceFlag_and server _).mpr hand.2⟩) hnameless
        (fun hnamed htaken' hflag ↦ happart hdiag hnamed (htaken.mp htaken')
          fun hfalse ↦ hflag ((replaceFlag_and server _).mpr hfalse)) request.temp
    have hload : store'.load addr = .ok loaded := load_of_heap hloaded
    refine ⟨{ session with
      store := store'
      resultSetName := request.resultSetName
      resultCount := loaded.numHits }, ?_, hinv', ?_, rfl, rfl, ?_, ?_⟩
    · simp only [executeQuery, cheshireSearch, hquery, bind, Except.bind, if_pos hdiag, hstore,
        hload]
      rw [hdiag]
    · intro key hkey
      rw [hothers key hkey, hsame]
    · intro hnone
      rw [hnone] at hresult
      cases hresult
    · intro other hother
      rw [hresult, Option.some.injEq] at hother
      subst hother
      refine ⟨hafter.trans ?_, hhits⟩
      simp only [afterStore, htaken, hstored]
  · have hresult : searchResult server session.store query = none := if_neg hdiag
    refine ⟨{ session with
      store := store
      resultSetName := request.resultSetName
      resultCount := 0 }, ?_, hinv, fun key _ ↦ hsame key, rfl, rfl, fun _ ↦ ⟨hstored, rfl⟩, ?_⟩
    · simp only [executeQuery, cheshireSearch, hquery, bind, Except.bind, if_neg hdiag]
    · intro other hother
      rw [hresult] at hother
      cases hother

theorem executeQuery_spec {query : FinalSet} {request : SearchRequest}
    (h : InCore server.userid session.store) (hzero : session.resultCount = 0)
    (hvalid : ValidQuery server request query) (hapart : KeepsApart server session.store request query) :
    ∃ session', executeQuery server session ⟨[], query⟩ request =
        .ok (searchDiagnostic server session.store query, session') ∧
      Executed server session session' request query := by
  have hnothing {query : FinalSet} {store : ResultStore} (hinv : InCore server.userid store)
      (hsame : ∀ key, storedAt store key = storedAt session.store key)
      (hquery : seProcessQuery server session.store ⟨[], query⟩ =
        .ok (none, searchDiagnostic server session.store query, store))
      (hnone : foundSet server session.store query = none) :
      ∃ session', executeQuery server session ⟨[], query⟩ request =
          .ok (searchDiagnostic server session.store query, session') ∧
        Executed server session session' request query := by
    have hresult : searchResult server session.store query = none := by
      rw [searchResult, hnone, ite_self]
    refine ⟨{ session with
      store := store
      resultSetName := request.resultSetName }, ?_, hinv, fun key _ ↦ hsame key, rfl, rfl,
      fun _ ↦ ⟨hsame _, hzero⟩, ?_⟩
    · simp only [executeQuery, cheshireSearch, hquery, bind, Except.bind]
    · intro other hother
      rw [hresult] at hother
      cases hother
  cases query with
  | null diagnostic => exact hnothing h (fun _ ↦ rfl) rfl rfl
  | fresh set diagnostic =>
    obtain ⟨hinv, hsame, hunheld⟩ := h.alloc set
    exact executeQuery_store rfl rfl hinv hsame alloc_self (fun _ _ _ ↦ hvalid) (fun _ ↦ hunheld)
      fun _ _ _ _ ↦ hunheld
  | stored setid diagnostic =>
    rcases h.entry_or (setid.orDefault.tempSetid server.userid) with
      ⟨hentry, hnone⟩ | ⟨data, addr, set, hholds⟩
    · refine hnothing (inCore_initTable h) (fun _ ↦ rfl) ?_ hnone
      have hnone' : storedSet server.userid session.store setid = none := hnone
      change returnFinalSet server session.store (.stored setid diagnostic) = _
      simp only [returnFinalSet, InCore.fetch_none hentry, bind, Except.bind, searchDiagnostic,
        hnone']
      rfl
    · have hset : storedSet server.userid session.store setid = some set := hholds.storedAt
      have hresult (hdiag : searchDiagnostic server session.store (.stored setid diagnostic) = 0) :
          searchResult server session.store (.stored setid diagnostic) = some set := by
        rw [searchResult, if_pos hdiag]
        exact hset
      refine executeQuery_store ?_ hset (inCore_initTable h) (fun _ ↦ rfl) hholds.alive ?_
        (fun hempty ↦ absurd hempty (hholds.setid_ne h)) ?_
      · change returnFinalSet server session.store (.stored setid diagnostic) = _
        simp only [returnFinalSet, hholds.fetch, bind, Except.bind, searchDiagnostic, hset]
        rfl
      · intro hdiag hnamed hfree
        rcases hapart setid diagnostic rfl set (hresult hdiag) with hcase | hcase | hcase
        · exact absurd hcase hnamed
        · exact .inl (hholds.covered hcase.2)
        · exact absurd hcase hfree
      · intro hdiag hnamed htaken hreplace
        rcases hapart setid diagnostic rfl set (hresult hdiag) with hcase | hcase | hcase
        · exact absurd hcase hnamed
        · exact absurd htaken hcase.1
        · exact absurd hcase.2 hreplace

end

end Cheshire.Zserver
