import Cheshire.Search.ResultStoreSteps
import Cheshire.Zserver.Requests

/-!
# The result sets of a session

As long as no result set is put under a second name by replacing another one, every name has a set of
its own in core.  Then storing, fetching and deleting act on the names one by one.
-/

namespace Cheshire.Zserver

open Search ResultStore Function

/-- A result set without its name and without what lies behind its hits. -/
def content (set : WeightedResult) : WeightedResult := { set with setid := "", entries := set.hits }

theorem content_withSetid (set : WeightedResult) (setid : String) :
    content { set with setid := setid } = content set := rfl

theorem content_dup {set newset : WeightedResult} (h : seDupResultSet set = .ok newset) :
    content newset = content set := by
  rw [seDupResultSet] at h
  split at h
  · rename_i hcovered
    cases h
    simp only [content, WeightedResult.hits]
    by_cases hzero : set.numHits.toNat = 0
    · simp [hzero]
    · rw [if_neg hzero, List.take_append_of_le_length (by rw [List.length_take]; omega),
        List.take_take, min_self]
  · cases h

/-- The set in core of an entry. -/
def storedAt (s : ResultStore) (key : String) : Option WeightedResult :=
  (s.table key).bind fun data ↦ data.resultPtr.bind s.heap

def storedSet (userid : ℤ) (s : ResultStore) (setid : SetName) : Option WeightedResult :=
  storedAt s (setid.orDefault.tempSetid userid)

/-- The set has room for one entry more than it has hits, unless it is a bitmap, which has the entry
of its header only. -/
def Covered (set : WeightedResult) : Prop := set.has BITMAP_RESULT = false → set.Spare

theorem covered_of_spare {set : WeightedResult} (h : set.Spare) : Covered set := fun _ ↦ h

/-- The set can be put under a new name: it can be copied and saved, or it is a new bitmap that is
not saved. -/
def Storable (set : WeightedResult) (flags : ℕ) : Prop :=
  set.Spare ∨ set.has BITMAP_RESULT = true ∧ set.setid = "" ∧
    flags &&& DONT_SAVE_RESULT_SETS = DONT_SAVE_RESULT_SETS

theorem Storable.covered {set : WeightedResult} {flags : ℕ} (h : Storable set flags) :
    Covered set := by
  intro hbitmap
  rcases h with hspare | ⟨htrue, -⟩
  · exact hspare
  · rw [hbitmap] at htrue
    cases htrue

/-- The header in a table entry tells the hit count of the set and whether it is a bitmap. -/
structure Describes (header set : WeightedResult) : Prop where
  numHits : header.numHits = set.numHits
  bitmap : header.resultType &&& BITMAP_RESULT = set.resultType &&& BITMAP_RESULT

theorem describes_header (set : WeightedResult) : Describes set.header set := ⟨rfl, rfl⟩

/-- Entry, pointer and set of a name. -/
structure Holds (s : ResultStore) (key : String) (data : ResultSetData) (addr : Addr)
    (set : WeightedResult) : Prop where
  entry : s.table key = some data
  pointer : data.resultPtr = some addr
  alive : s.heap addr = some set
  header : Describes data.result set
  covered : Covered set

theorem Holds.storedAt {s : ResultStore} {key : String} {data : ResultSetData} {addr : Addr}
    {set : WeightedResult} (h : Holds s key data addr set) : storedAt s key = some set := by
  simp [Zserver.storedAt, h.entry, h.pointer, h.alive]

/-- Every name has a set of its own in core, which carries the name. -/
structure InCore (userid : ℤ) (s : ResultStore) : Prop where
  named : ∀ key data, s.table key = some data → ∃ setid : SetName, ∃ addr set,
    setid.text ≠ "" ∧ key = setid.tempSetid userid ∧ Holds s key data addr set ∧
      setid.isCalled set.setid = true
  apart : ∀ key other data data' addr, s.table key = some data → s.table other = some data' →
    data.resultPtr = some addr → data'.resultPtr = some addr → key = other
  bound : ∀ addr set, s.heap addr = some set → addr < s.nextAddr

theorem inCore_empty (userid : ℤ) : InCore userid ResultStore.empty where
  named := fun _ _ h ↦ by cases h
  apart := fun _ _ _ _ _ h ↦ by cases h
  bound := fun _ _ h ↦ by cases h

theorem inCore_initTable {userid : ℤ} {s : ResultStore} (h : InCore userid s) :
    InCore userid s.initTable := by
  refine ⟨fun key data hentry ↦ ?_, h.apart, h.bound⟩
  obtain ⟨setid, addr, set, hne, hkey, hholds, hcalled⟩ := h.named key data hentry
  exact ⟨setid, addr, set, hne, hkey,
    ⟨hentry, hholds.pointer, hholds.alive, hholds.header, hholds.covered⟩, hcalled⟩

section

variable {userid : ℤ} {s : ResultStore} {setid : SetName} {set : WeightedResult}

theorem InCore.entry_or (h : InCore userid s) (key : String) :
    (s.table key = none ∧ storedAt s key = none) ∨
      ∃ data addr set, Holds s key data addr set := by
  cases hentry : s.table key with
  | none => exact .inl ⟨rfl, by simp [storedAt, hentry]⟩
  | some data =>
    obtain ⟨_, addr, set, -, -, hholds, -⟩ := h.named key data hentry
    exact .inr ⟨data, addr, set, hholds⟩

theorem InCore.holds_of_stored (h : InCore userid s) {key : String}
    (hstored : storedAt s key = some set) : ∃ data addr, Holds s key data addr set := by
  rcases h.entry_or key with ⟨-, hnone⟩ | ⟨data, addr, other, hholds⟩
  · rw [hnone] at hstored
    cases hstored
  · rw [hholds.storedAt, Option.some.injEq] at hstored
    exact ⟨data, addr, hstored ▸ hholds⟩

theorem entryOf_orDefault (s : ResultStore) (setid : SetName) :
    (seCheckResultSet userid s setid.orDefault).2 =
      (s.table (setid.orDefault.tempSetid userid)).map fun data ↦
        (setid.orDefault.tempSetid userid, data) := entryOf_of_ne setid.orDefault_ne

theorem InCore.fetch_none (hnone : s.table (setid.orDefault.tempSetid userid) = none) :
    seGetResultSet userid s setid = .ok (none, s.initTable) := by
  rw [seGetResultSet, seCheckResultSet_eq, entryOf_of_ne setid.orDefault_ne, hnone]
  rfl

theorem Holds.fetch {data : ResultSetData} {addr : Addr}
    (h : Holds s (setid.orDefault.tempSetid userid) data addr set) :
    seGetResultSet userid s setid = .ok (some addr, s.initTable) := by
  rw [seGetResultSet, seCheckResultSet_eq, entryOf_of_ne setid.orDefault_ne, h.entry]
  simp only [Option.map_some, h.pointer]

end

section

variable {userid : ℤ} {s s' : ResultStore} {setid : SetName} {set : WeightedResult}
  {data : ResultSetData} {addr : Addr}

theorem InCore.place (h : InCore userid s) (hne : setid.text ≠ "")
    (hholds : Holds s' (setid.tempSetid userid) data addr set)
    (hcalled : setid.isCalled set.setid = true)
    (htable : ∀ other ≠ setid.tempSetid userid, s'.table other = s.table other)
    (hheap : ∀ other data' ptr, other ≠ setid.tempSetid userid → s.table other = some data' →
      data'.resultPtr = some ptr → ptr ≠ addr ∧ s'.heap ptr = s.heap ptr)
    (hbound : ∀ ptr set, s'.heap ptr = some set → ptr < s'.nextAddr) :
    InCore userid s' ∧
      ∀ other, storedAt s' other =
        if other = setid.tempSetid userid then some set else storedAt s other := by
  have hself {key : String} {data' : ResultSetData} (hkey : key = setid.tempSetid userid)
      (hentry : s'.table key = some data') : data' = data := by
    rw [hkey, hholds.entry] at hentry
    exact (Option.some.inj hentry).symm
  refine ⟨⟨fun key data' hentry ↦ ?_, ?_, hbound⟩, fun other ↦ ?_⟩
  · by_cases hkey : key = setid.tempSetid userid
    · rw [hself hkey hentry, hkey]
      exact ⟨setid, addr, set, hne, rfl, hholds, hcalled⟩
    · have hold := hentry
      rw [htable key hkey] at hold
      obtain ⟨name, ptr, other, hname, hkeyed, hheld, hcalled'⟩ := h.named key data' hold
      have hsame := (hheap key data' ptr hkey hold hheld.pointer).2
      exact ⟨name, ptr, other, hname, hkeyed, ⟨hentry, hheld.pointer, hsame.trans hheld.alive,
        hheld.header, hheld.covered⟩, hcalled'⟩
  · intro key other data₁ data₂ ptr hentry hother hptr hptr'
    by_cases hkey : key = setid.tempSetid userid <;>
      by_cases hkey' : other = setid.tempSetid userid
    · rw [hkey, hkey']
    · rw [hself hkey hentry, hholds.pointer, Option.some.injEq] at hptr
      rw [htable other hkey'] at hother
      exact absurd hptr.symm (hheap other data₂ ptr hkey' hother hptr').1
    · rw [hself hkey' hother, hholds.pointer, Option.some.injEq] at hptr'
      rw [htable key hkey] at hentry
      exact absurd hptr'.symm (hheap key data₁ ptr hkey hentry hptr).1
    · rw [htable key hkey] at hentry
      rw [htable other hkey'] at hother
      exact h.apart key other data₁ data₂ ptr hentry hother hptr hptr'
  · by_cases hkey : other = setid.tempSetid userid
    · rw [if_pos hkey, hkey, hholds.storedAt]
    · rw [if_neg hkey]
      simp only [storedAt, htable other hkey]
      cases hentry : s.table other with
      | none => rfl
      | some data' =>
        obtain ⟨_, ptr, old, -, -, hheld, -⟩ := h.named other data' hentry
        have hsame := (hheap other data' ptr hkey hentry hheld.pointer).2
        simp only [Option.bind_some, hheld.pointer, hsame]

theorem InCore.drop (h : InCore userid s) {key : String} (hentry : s'.table key = none)
    (htable : ∀ other ≠ key, s'.table other = s.table other)
    (hheap : ∀ other data' ptr, other ≠ key → s.table other = some data' →
      data'.resultPtr = some ptr → s'.heap ptr = s.heap ptr)
    (hbound : ∀ ptr set, s'.heap ptr = some set → ptr < s'.nextAddr) :
    InCore userid s' ∧
      ∀ other, storedAt s' other = if other = key then none else storedAt s other := by
  have hne {other : String} {data' : ResultSetData} (hother : s'.table other = some data') :
      other ≠ key := by
    rintro rfl
    rw [hentry] at hother
    cases hother
  refine ⟨⟨fun other data' hother ↦ ?_, ?_, hbound⟩, fun other ↦ ?_⟩
  · have hold := hother
    rw [htable other (hne hother)] at hold
    obtain ⟨name, ptr, old, hname, hkeyed, hheld, hcalled⟩ := h.named other data' hold
    have hsame := hheap other data' ptr (hne hother) hold hheld.pointer
    exact ⟨name, ptr, old, hname, hkeyed, ⟨hother, hheld.pointer, hsame.trans hheld.alive,
      hheld.header, hheld.covered⟩, hcalled⟩
  · intro first second data₁ data₂ ptr hfirst hsecond
    have hfirst' := hfirst
    have hsecond' := hsecond
    rw [htable first (hne hfirst)] at hfirst'
    rw [htable second (hne hsecond)] at hsecond'
    exact h.apart first second data₁ data₂ ptr hfirst' hsecond'
  · by_cases hkey : other = key
    · rw [if_pos hkey, hkey, storedAt, hentry]
      rfl
    · rw [if_neg hkey]
      simp only [storedAt, htable other hkey]
      cases hold : s.table other with
      | none => rfl
      | some data' =>
        obtain ⟨_, ptr, old, -, -, hheld, -⟩ := h.named other data' hold
        have hsame := hheap other data' ptr hkey hold hheld.pointer
        simp only [Option.bind_some, hheld.pointer, hsame]

end

section

variable {userid : ℤ} {s : ResultStore} {setid : SetName} {set : WeightedResult}
  {addr : Addr} {temp : TempFile} {flags : ℕ}

/-- No name has this set in core. -/
def Unheld (s : ResultStore) (addr : Addr) : Prop :=
  ∀ key data, s.table key = some data → data.resultPtr ≠ some addr

theorem saveResultSet_core (s : ResultStore) (key : String) (resPtr : ResultSetData)
    (flags : ℕ) (hspare : set.Spare ∨ flags &&& DONT_SAVE_RESULT_SETS = DONT_SAVE_RESULT_SETS)
    (temp : TempFile) (hentry : s.table key = some resPtr) :
    ∃ status s', saveResultSet s key resPtr set flags temp = .ok (status, s') ∧
      s'.heap = s.heap ∧ s'.nextAddr = s.nextAddr ∧
      (∀ other ≠ key, s'.table other = s.table other) ∧
      ∃ reallyStored, s'.table key = some { resPtr with reallyStored := reallyStored } := by
  rw [saveResultSet]
  split_ifs with hflag hwritable
  · rw [(hspare.resolve_right hflag).writtenEntries]
    refine ⟨.succeed, _, rfl, rfl, rfl, fun other hne ↦ ?_, 1, ?_⟩
    · exact update_of_ne hne _ _
    · exact update_self ..
  · exact ⟨.fail, s, rfl, rfl, rfl, fun _ _ ↦ rfl, _, hentry⟩
  · exact ⟨.succeed, _, rfl, rfl, rfl, fun _ _ ↦ rfl, _, hentry⟩

theorem isCalled_self (setid : SetName) : setid.isCalled setid.text = true := by
  simp [SetName.isCalled]

theorem InCore.storeNewEntry (h : InCore userid s) (hset : s.heap addr = some set)
    {flags : ℕ} (hstorable : Storable set flags) (hfree : set.setid = "" → Unheld s addr)
    (setid : SetName) (temp : TempFile) :
    ∃ status s', Search.storeNewEntry userid s addr set setid flags temp = .ok (status, s') ∧
      InCore userid s' ∧
      (∀ key ≠ setid.orDefault.tempSetid userid, storedAt s' key = storedAt s key) ∧
      (∃ newset, storedSet userid s' setid = some newset ∧ content newset = content set) ∧
      ∃ loaded, s'.heap addr = some loaded ∧ loaded.numHits = set.numHits := by
  by_cases hnamed : set.setid ≠ ""
  · have hspare : set.Spare := hstorable.resolve_right fun hbitmap ↦ hnamed hbitmap.2.1
    obtain ⟨newset, hdup, hnewspare, -⟩ := hspare.dup
    let stored : WeightedResult := { newset with setid := setid.orDefault.text }
    let data : ResultSetData := ⟨temp.filename, 0, some s.nextAddr, stored.header⟩
    let key := setid.orDefault.tempSetid userid
    obtain ⟨status, s', hsave, hheap, hnext, hothers, reallyStored, hentry⟩ :=
      saveResultSet_core ((s.alloc stored).setEntry key (some data)) key data
        flags (.inl (hnewspare.withSetid setid.orDefault.text)) temp (setEntry_self _)
    have hholds : Holds s' key { data with reallyStored := reallyStored } s.nextAddr stored :=
      ⟨hentry, rfl, by rw [hheap]; exact alloc_self, describes_header _,
      covered_of_spare (hnewspare.withSetid _)⟩
    have halive : s'.heap addr = some set := by
      rw [hheap, setEntry_heap, alloc_heap, update_of_ne (h.bound addr set hset).ne, hset]
    obtain ⟨hinv, hstored⟩ := h.place setid.orDefault_ne hholds (isCalled_self _)
      (fun other hne ↦ (hothers other hne).trans (update_of_ne hne _ _))
      (fun other data' ptr hne hold hptr ↦ by
        obtain ⟨_, ptr', old, -, -, hheld, -⟩ := h.named other data' hold
        rw [hheld.pointer, Option.some.injEq] at hptr
        have hlt := h.bound ptr' old hheld.alive
        subst hptr
        exact ⟨hlt.ne, by rw [hheap, setEntry_heap, alloc_heap, update_of_ne hlt.ne]⟩)
      (fun ptr other hother ↦ by
        rw [hheap, setEntry_heap, alloc_heap, update_apply] at hother
        rw [hnext, setEntry_nextAddr, alloc_nextAddr]
        split_ifs at hother with heq
        · exact heq ▸ Nat.lt_succ_self _
        · exact Nat.lt_succ_of_lt (h.bound ptr other hother))
    refine ⟨status, s', ?_, hinv, fun other hne ↦ by rw [hstored, if_neg hne], ?_, set, halive, rfl⟩
    · simp only [Search.storeNewEntry, if_pos hnamed, hdup, bind, Except.bind]
      exact hsave
    · refine ⟨stored, by rw [storedSet, hstored, if_pos rfl], ?_⟩
      exact (content_withSetid newset _).trans (content_dup hdup)
  · let stored : WeightedResult := { set with setid := setid.orDefault.text }
    let data : ResultSetData := ⟨temp.filename, 0, some addr, stored.header⟩
    let key := setid.orDefault.tempSetid userid
    have hsaved : stored.Spare ∨ flags &&& DONT_SAVE_RESULT_SETS = DONT_SAVE_RESULT_SETS :=
      hstorable.imp (fun hspare ↦ hspare.withSetid _) fun hbitmap ↦ hbitmap.2.2
    obtain ⟨status, s', hsave, hheap, hnext, hothers, reallyStored, hentry⟩ :=
      saveResultSet_core ((s.setHeap addr (some stored)).setEntry key (some data)) key data
        flags hsaved temp (setEntry_self _)
    have hself : s'.heap addr = some stored := by
      rw [hheap]
      exact setHeap_self _
    have hholds : Holds s' key { data with reallyStored := reallyStored } addr stored :=
      ⟨hentry, rfl, hself, describes_header _, fun hbitmap ↦ (hstorable.covered hbitmap).withSetid _⟩
    obtain ⟨hinv, hstored⟩ := h.place setid.orDefault_ne hholds (isCalled_self _)
      (fun other hne ↦ (hothers other hne).trans (update_of_ne hne _ _))
      (fun other data' ptr hne hold hptr ↦ by
        have hdiffer : ptr ≠ addr := by
          rintro rfl
          exact hfree (not_not.mp hnamed) other data' hold hptr
        exact ⟨hdiffer, by rw [hheap, setEntry_heap, setHeap_heap, update_of_ne hdiffer]⟩)
      (fun ptr other hother ↦ by
        rw [hheap, setEntry_heap, setHeap_heap, update_apply] at hother
        rw [hnext, setEntry_nextAddr, setHeap_nextAddr]
        split_ifs at hother with heq
        · exact heq ▸ h.bound addr set hset
        · exact h.bound ptr other hother)
    refine ⟨status, s', ?_, hinv, fun other hne ↦ by rw [hstored, if_neg hne], ?_, stored, hself,
      rfl⟩
    · simp only [Search.storeNewEntry, if_neg hnamed]
      exact hsave
    · exact ⟨stored, by rw [storedSet, hstored, if_pos rfl], rfl⟩

theorem InCore.replaceEntry (h : InCore userid s) (hset : s.heap addr = some set)
    (hcovered : Covered set) (hfree : Unheld s addr) (hne : setid.text ≠ "") {data : ResultSetData}
    (hentry : s.table (setid.tempSetid userid) = some data)
    (hflag : flags &&& REPLACE_RESULT_SETS ≠ 0) :
    ∃ s', Search.replaceEntry s addr setid flags (setid.tempSetid userid) data =
        .ok (.succeed, s') ∧
      InCore userid s' ∧
      (∀ key ≠ setid.tempSetid userid, storedAt s' key = storedAt s key) ∧
      (∃ newset, storedAt s' (setid.tempSetid userid) = some newset ∧
        content newset = content set) ∧
      ∃ loaded, s'.heap addr = some loaded ∧ loaded.numHits = set.numHits := by
  obtain ⟨_, old, oldSet, -, -, hheld, -⟩ := h.named _ data hentry
  let key := setid.tempSetid userid
  let stored : WeightedResult := { set with setid := setid.text }
  have holdne : old ≠ addr := fun heq ↦ hfree key data hentry (heq ▸ hheld.pointer)
  have hfreed := seFreeResult_core key hheld.pointer hheld.alive
  have halive : ((s.setHeap old none).setEntry key
      (some { data with resultPtr := none })).heap addr = some set := by
    rw [setEntry_heap, setHeap_heap, update_of_ne holdne.symm, hset]
  let new : ResultSetData := { data with resultPtr := some addr, result := stored.header }
  let s' := (((s.setHeap old none).setEntry key (some { data with resultPtr := none })).setHeap addr
    (some stored)).setEntry key (some new)
  have hrun : Search.replaceEntry s addr setid flags key data = .ok (.succeed, s') :=
    replaceEntry_of_freed hflag hfreed halive
  have hself : s'.heap addr = some stored := setHeap_self _
  have hholds : Holds s' key new addr stored :=
    ⟨setEntry_self _, rfl, hself, describes_header _, fun hbitmap ↦ (hcovered hbitmap).withSetid _⟩
  have hheap (ptr : Addr) (hold : ptr ≠ old) (hptr : ptr ≠ addr) : s'.heap ptr = s.heap ptr := by
    simp only [s', setEntry_heap, setHeap_heap]
    rw [update_of_ne hptr, update_of_ne hold]
  obtain ⟨hinv, hstored⟩ := h.place hne hholds (isCalled_self _)
    (fun other hother ↦ by
      simp only [s', setEntry_table, setHeap_table]
      rw [update_of_ne hother, update_of_ne hother])
    (fun other data' ptr hother hentry' hptr ↦ by
      have hdiffer : ptr ≠ addr := by
        rintro rfl
        exact hfree other data' hentry' hptr
      have hnotold : ptr ≠ old := by
        rintro rfl
        exact hother (h.apart other key data' data ptr hentry' hentry hptr hheld.pointer)
      exact ⟨hdiffer, hheap ptr hnotold hdiffer⟩)
    (fun ptr other hother ↦ by
      by_cases hptr : ptr = addr
      · rw [hptr]
        exact h.bound addr set hset
      · by_cases hold : ptr = old
        · rw [hold]
          exact h.bound old oldSet hheld.alive
        · rw [hheap ptr hold hptr] at hother
          exact h.bound ptr other hother)
  exact ⟨s', hrun, hinv, fun other hother ↦ by rw [hstored, if_neg hother],
    ⟨stored, by rw [hstored, if_pos rfl], rfl⟩, stored, hself, rfl⟩

theorem InCore.delete (h : InCore userid s) (setid : SetName) :
    ∃ status s', seDeleteResultSet userid s setid = .ok (status, s') ∧ InCore userid s' ∧
      ∀ key, storedAt s' key =
        if setid.text ≠ "" ∧ key = setid.tempSetid userid then none else storedAt s key := by
  by_cases htab : s.hashTab.isNone
  · refine ⟨.succeed, s, if_pos htab, h, fun key ↦ ?_⟩
    have hnone : storedAt s key = none := by
      rw [storedAt, table_of_isNone htab]
      rfl
    rw [hnone, ite_self]
  rw [seDeleteResultSet, if_neg htab, seCheckResultSet_eq]
  by_cases hempty : setid.text = ""
  · refine ⟨.fail, s.initTable, ?_, inCore_initTable h, fun key ↦ ?_⟩
    · rw [entryOf, seCheckResultSet, if_pos hempty]
    · rw [if_neg fun hand ↦ hand.1 hempty]
      rfl
  rw [entryOf_of_ne hempty]
  cases hentry : s.table (setid.tempSetid userid) with
  | none =>
    refine ⟨.fail, s.initTable, rfl, inCore_initTable h, fun key ↦ ?_⟩
    by_cases hkey : key = setid.tempSetid userid
    · have hnone : storedAt s key = none := by
        rw [storedAt, hkey, hentry]
        rfl
      rw [if_pos ⟨hempty, hkey⟩]
      exact hnone
    · rw [if_neg fun hand ↦ hkey hand.2]
      rfl
  | some data =>
    obtain ⟨_, old, oldSet, -, -, hheld, -⟩ := h.named _ data hentry
    simp only [Option.map_some]
    generalize hs₁ : (if setid.text ≠ TMP_BITMAP_RESULTS ∧ data.reallyStored = 1 then
      s.initTable.setFile data.filename none else s.initTable) = s₁
    have htable : s₁.table = s.table := by
      rw [← hs₁]
      split_ifs <;> rfl
    have hheap : s₁.heap = s.heap := by
      rw [← hs₁]
      split_ifs <;> rfl
    have hnext : s₁.nextAddr = s.nextAddr := by
      rw [← hs₁]
      split_ifs <;> rfl
    have hfreed := seFreeResult_core (setid.tempSetid userid) hheld.pointer
      (show s₁.heap old = some oldSet by rw [hheap, hheld.alive])
    let s' := ((s₁.setHeap old none).setEntry (setid.tempSetid userid)
      (some { data with resultPtr := none })).setEntry (setid.tempSetid userid) none
    obtain ⟨hinv, hstored⟩ := @InCore.drop _ _ s' h _ (setEntry_self _)
      (fun other hne ↦ by
        simp only [s', setEntry_table, setHeap_table]
        rw [update_of_ne hne, update_of_ne hne, htable])
      (fun other data' ptr hne hother hptr ↦ by
        have hdiffer : ptr ≠ old := by
          rintro rfl
          exact hne (h.apart other _ data' data ptr hother hentry hptr hheld.pointer)
        simp only [s', setEntry_heap, setHeap_heap]
        rw [update_of_ne hdiffer, hheap])
      (fun ptr other hother ↦ by
        simp only [s', setEntry_heap, setHeap_heap, update_apply] at hother
        simp only [s', setEntry_nextAddr, setHeap_nextAddr, hnext]
        split_ifs at hother
        rw [hheap] at hother
        exact h.bound ptr other hother)
    refine ⟨.succeed, s', ?_, hinv, fun key ↦ ?_⟩
    · rw [hfreed]
      rfl
    · rw [hstored]
      by_cases hkey : key = setid.tempSetid userid
      · rw [if_pos hkey, if_pos ⟨hempty, hkey⟩]
      · rw [if_neg hkey, if_neg fun hand ↦ hkey hand.2]

end

section

variable {userid : ℤ} {s : ResultStore} {setid : SetName} {set : WeightedResult}
  {addr : Addr} {temp : TempFile} {flags : ℕ}

/-- The set already carries the name under which it is to be stored. -/
def AlreadyNamed (set : WeightedResult) (setid : SetName) : Prop :=
  set.setid ≠ "" ∧ setid.isCalled set.setid = true

instance (set : WeightedResult) (setid : SetName) : Decidable (AlreadyNamed set setid) :=
  inferInstanceAs (Decidable (_ ∧ _))

/-- The name has an entry that a store call finds. -/
def Taken (userid : ℤ) (s : ResultStore) (setid : SetName) : Prop :=
  setid.text ≠ "" ∧ (storedSet userid s setid).isSome

instance (userid : ℤ) (s : ResultStore) (setid : SetName) : Decidable (Taken userid s setid) :=
  inferInstanceAs (Decidable (_ ∧ _))

theorem InCore.taken_iff (h : InCore userid s) :
    Taken userid s setid ↔ ∃ data, entryOf userid s setid = some (setid.tempSetid userid, data) ∧
      setid.text ≠ "" ∧ s.table (setid.tempSetid userid) = some data := by
  constructor
  · rintro ⟨hne, hstored⟩
    obtain ⟨set, hset⟩ := Option.isSome_iff_exists.mp hstored
    rw [storedSet, SetName.orDefault_of_ne hne] at hset
    obtain ⟨data, addr, hholds⟩ := h.holds_of_stored hset
    exact ⟨data, by rw [entryOf_of_ne hne, hholds.entry]; rfl, hne, hholds.entry⟩
  · rintro ⟨data, -, hne, hentry⟩
    refine ⟨hne, ?_⟩
    rw [storedSet, SetName.orDefault_of_ne hne]
    rcases h.entry_or (setid.tempSetid userid) with ⟨hnone, -⟩ | ⟨_, _, set, hholds⟩
    · rw [hnone] at hentry
      cases hentry
    · rw [hholds.storedAt]
      rfl

theorem InCore.entryOf_of_not_taken (h : InCore userid s) (hfree : ¬Taken userid s setid) :
    entryOf userid s setid = none := by
  cases hentry : entryOf userid s setid with
  | none => rfl
  | some found =>
    obtain ⟨key, data⟩ := found
    obtain ⟨hne, rfl, htable⟩ := entryOf_eq_some hentry
    exact absurd (h.taken_iff.mpr ⟨data, hentry, hne, htable⟩) hfree

/-- What a store call leaves behind under its name. -/
def afterStore (userid : ℤ) (s : ResultStore) (setid : SetName) (flags : ℕ) (set : WeightedResult) :
    Option WeightedResult :=
  if AlreadyNamed set setid ∨ Taken userid s setid ∧ flags &&& REPLACE_RESULT_SETS = 0 then
    (storedSet userid s setid).map content
  else some (content set)

theorem InCore.store (h : InCore userid s) (hset : s.heap addr = some set)
    (hstorable : ¬AlreadyNamed set setid →
      ¬(Taken userid s setid ∧ flags &&& REPLACE_RESULT_SETS = 0) → Storable set flags)
    (hnameless : set.setid = "" → Unheld s addr)
    (happart : ¬AlreadyNamed set setid → Taken userid s setid → flags &&& REPLACE_RESULT_SETS ≠ 0 →
      Unheld s addr) (temp : TempFile) :
    ∃ status s', seStoreResultSet userid s (some addr) setid flags temp = .ok (status, s') ∧
      InCore userid s' ∧
      (∀ key ≠ setid.orDefault.tempSetid userid, storedAt s' key = storedAt s key) ∧
      (storedSet userid s' setid).map content = afterStore userid s setid flags set ∧
      ∃ loaded, s'.heap addr = some loaded ∧ loaded.numHits = set.numHits := by
  by_cases hnamed : AlreadyNamed set setid
  · refine ⟨.succeed, s, ?_, h, fun _ _ ↦ rfl, ?_, set, hset, rfl⟩
    · simp only [seStoreResultSet, load_of_heap hset, bind, Except.bind]
      exact if_pos hnamed
    · rw [afterStore, if_pos (.inl hnamed)]
  rw [seStoreResultSet_eq hset hnamed]
  by_cases htaken : Taken userid s setid
  · obtain ⟨data, hentry, hne, htable⟩ := h.taken_iff.mp htaken
    rw [hentry]
    by_cases hflag : flags &&& REPLACE_RESULT_SETS = 0
    · refine ⟨.fail, s.initTable, replaceEntry_of_forbidden hflag, inCore_initTable h,
        fun _ _ ↦ rfl, ?_, set, hset, rfl⟩
      rw [afterStore, if_pos (.inr ⟨htaken, hflag⟩)]
      rfl
    · obtain ⟨s', hrun, hinv, hothers, ⟨newset, hnew, hcontent⟩, hloaded⟩ :=
        (inCore_initTable h).replaceEntry hset
          (hstorable hnamed fun hand ↦ hflag hand.2).covered (happart hnamed htaken hflag) hne htable
          hflag
      refine ⟨.succeed, s', hrun, hinv, ?_, ?_, hloaded⟩
      · rw [SetName.orDefault_of_ne hne]
        exact hothers
      · rw [afterStore, if_neg (not_or.mpr ⟨hnamed, fun hand ↦ hflag hand.2⟩), storedSet,
          SetName.orDefault_of_ne hne, hnew, Option.map_some, hcontent]
  · rw [h.entryOf_of_not_taken htaken]
    obtain ⟨status, s', hrun, hinv, hothers, ⟨newset, hnew, hcontent⟩, hloaded⟩ :=
      (inCore_initTable h).storeNewEntry hset (hstorable hnamed fun hand ↦ htaken hand.1) hnameless
        setid temp
    refine ⟨status, s', hrun, hinv, hothers, ?_, hloaded⟩
    rw [afterStore, if_neg (not_or.mpr ⟨hnamed, fun hand ↦ htaken hand.1⟩), hnew, Option.map_some,
      hcontent]

end

end Cheshire.Zserver
