import Cheshire.Search.ResultStoreInvariant

/-!
# Steps of the store

The specification remembers for every name the records stored last under it.  This module gives, for
each operation of the store, the condition under which fetching still agrees with it afterwards: no
step may lose the only good copy of the records of a name.
-/

namespace Cheshire.Search

open Lib ResultStore Function

/-- What is done with result sets; `build` stands for a search that returns a new set. -/
inductive StoreOp where
  | build (set : WeightedResult)
  | store (ptr : Option Addr) (setid : SetName) (flags : ℕ) (temp : TempFile)
  | free (setid : SetName)
  | delete (setid : SetName)
  | fetch (setid : SetName)

/-- The records stored last under every name. -/
abbrev Stored := String → Option (List ℤ)

section

variable (userid : ℤ)

def stepStore (s : ResultStore) : StoreOp → Exec ResultStore
  | .build set => .ok (s.alloc set)
  | .store ptr setid flags temp => (seStoreResultSet userid s ptr setid flags temp).map Prod.snd
  | .free setid => seFreeResultName userid s setid
  | .delete setid => (seDeleteResultSet userid s setid).map Prod.snd
  | .fetch setid => (seGetResultSet userid s setid).map Prod.snd

/-- Storing and deleting count when they report success. -/
def specStore (s : ResultStore) (stored : Stored) : StoreOp → Stored
  | .store ptr setid flags temp =>
    match ptr.bind s.heap, seStoreResultSet userid s ptr setid flags temp with
    | some set, .ok (.succeed, _) =>
      update stored setid.canonical (some set.recordNums)
    | _, _ => stored
  | .delete setid =>
    match seDeleteResultSet userid s setid with
    | .ok (.succeed, _) => update stored setid.canonical none
    | _ => stored
  | _ => stored

/-- Fetching any name returns the records stored last under it, or fails when there are none. -/
def FetchesStored (s : ResultStore) (stored : Stored) : Prop :=
  ∀ setid, fetchRecords userid s setid = .ok (stored setid.canonical)

/-- A search returns sets with room for one more entry than they have hits.  A caller stores sets
that have not been freed, and `mkstemp` makes up a file name that is not in use. -/
def ValidStore (s : ResultStore) : StoreOp → Prop
  | .build set => set.Spare
  | .store ptr _ _ temp => (∀ addr, ptr = some addr → ∃ set, s.heap addr = some set) ∧
      s.files temp.filename = none ∧
      ∀ key data, s.table key = some data → data.filename ≠ temp.filename
  | _ => True

/-- The entry of a name, if the name has one. -/
def entryOf (s : ResultStore) (setid : SetName) : Option (String × ResultSetData) :=
  (seCheckResultSet userid s setid).2

/-- No step loses the only good copy of the records of a name. -/
def KeepsCopies (s : ResultStore) (stored : Stored) : StoreOp → Prop
  | .store ptr setid flags temp => ∀ addr ∈ ptr, ∀ set ∈ s.heap addr,
      if set.setid ≠ "" ∧ setid.isCalled set.setid then
        stored setid.canonical = some set.recordNums
      else
        match entryOf userid s setid with
        | none => flags &&& DONT_SAVE_RESULT_SETS = DONT_SAVE_RESULT_SETS ∨ temp.writable ∨
            stored setid.canonical = some set.recordNums
        | some (key, data) => flags &&& REPLACE_RESULT_SETS ≠ 0 →
            ∀ old ∈ data.resultPtr, old ≠ addr ∧ ¬s.HeldElsewhere key old
  | .free setid => ∀ entry ∈ entryOf userid s setid, ∀ old ∈ entry.2.resultPtr,
      ¬s.HeldElsewhere entry.1 old ∧ (s.files entry.2.filename).map
        (fun saved ↦ saved.loaded.recordNums) = stored setid.canonical
  | .delete setid => ∀ entry ∈ entryOf userid s setid, ∀ old ∈ entry.2.resultPtr,
      ¬s.HeldElsewhere entry.1 old
  | _ => True

end

variable {userid : ℤ} {s : ResultStore} {stored : Stored} {setid : SetName}

variable {data : ResultSetData}

theorem entryOf_eq_some {key : String} (hentry : entryOf userid s setid = some (key, data)) :
    setid.text ≠ "" ∧ key = setid.tempSetid userid ∧ s.table key = some data := by
  rw [entryOf, seCheckResultSet] at hentry
  by_cases hempty : setid.text = ""
  · rw [if_pos hempty] at hentry
    cases hentry
  · rw [if_neg hempty, Option.map_eq_some_iff] at hentry
    obtain ⟨found, hfound, heq⟩ := hentry
    cases heq
    exact ⟨hempty, rfl, hfound⟩

theorem table_of_isNone (htab : s.hashTab.isNone) (key : String) : s.table key = none := by
  rw [table, Option.isNone_iff_eq_none.mp htab]
  rfl

theorem entryOf_of_isNone (htab : s.hashTab.isNone) (setid : SetName) :
    entryOf userid s setid = none := by
  rw [entryOf, seCheckResultSet, table_of_isNone htab, Option.map_none, ite_self]

theorem seCheckResultSet_eq :
    seCheckResultSet userid s setid = (s.initTable, entryOf userid s setid) := rfl

theorem entryOf_of_ne (hne : setid.text ≠ "") : entryOf userid s setid =
    (s.table (setid.tempSetid userid)).map fun data ↦ (setid.tempSetid userid, data) := if_neg hne

variable {key other : String}

theorem recordsAt_setEntry_ne (data : Option ResultSetData) (hne : other ≠ key) :
    (s.setEntry key data).recordsAt other = s.recordsAt other :=
  recordsAt_congr (update_of_ne hne _ _) (fun _ _ _ _ ↦ rfl) fun _ _ ↦ rfl

theorem recordsAt_setFile {filename : String} (saved : Option SavedSet)
    (hfile : ∀ data, s.table other = some data → data.filename ≠ filename) :
    (s.setFile filename saved).recordsAt other = s.recordsAt other :=
  recordsAt_congr rfl (fun _ _ _ _ ↦ rfl) fun data hdata ↦
    update_of_ne (hfile data hdata) _ _

theorem recordsAt_rename {addr : Addr} {set : WeightedResult} (hset : s.heap addr = some set)
    (setid : String) (key : String) :
    (s.setHeap addr (some { set with setid := setid })).recordsAt key = s.recordsAt key := by
  refine recordsAt_congr rfl ?_ fun _ _ ↦ rfl
  intro data other _ _
  rw [setHeap_heap, update_apply]
  split_ifs with hother
  · rw [hother, hset]
    rfl
  · rfl

theorem recordsAt_release {addr : Addr} (hheld : ¬s.HeldElsewhere key addr) (hne : other ≠ key) :
    (s.setHeap addr none).recordsAt other = s.recordsAt other := by
  refine recordsAt_congr rfl ?_ fun _ _ ↦ rfl
  intro data ptr hentry hptr
  rw [setHeap_heap, update_of_ne]
  rintro rfl
  exact hheld ⟨other, hne, data, hentry, hptr⟩

theorem fetchRecords_eq (s : ResultStore) (setid : SetName) :
    fetchRecords userid s setid = s.recordsAt (setid.orDefault.tempSetid userid) := by
  rw [fetchRecords, seGetResultSet, seCheckResultSet_eq, entryOf_of_ne setid.orDefault_ne]
  cases hentry : s.table (setid.orDefault.tempSetid userid) with
  | none =>
    rw [recordsAt_of_none hentry]
    rfl
  | some data =>
    simp only [Option.map_some]
    cases hptr : data.resultPtr with
    | some addr => simp only [recordsAt, hentry, recordsOf, hptr]; rfl
    | none =>
      rw [recordsAt_of_file hentry hptr]
      cases hfile : s.files data.filename with
      | none => simp only [initTable_files, hfile]; rfl
      | some saved =>
        simp only [initTable_files, hfile, Option.map_some]
        have hload : ((s.initTable.alloc saved.loaded).setEntry
            (setid.orDefault.tempSetid userid)
            (some { saved.data with resultPtr := some s.initTable.nextAddr })).load
              s.initTable.nextAddr = .ok saved.loaded := by
          refine load_of_heap ?_
          rw [setEntry_heap, alloc_heap, update_self]
        show Except.map _ _ = _
        rw [hload]
        rfl

theorem fetchesStored_iff : FetchesStored userid s stored ↔ ∀ setid : SetName,
    s.recordsAt (setid.orDefault.tempSetid userid) = .ok (stored setid.canonical) := by
  simp only [FetchesStored, fetchRecords_eq]

theorem FetchesStored.at_key (h : FetchesStored userid s stored) (hne : setid.text ≠ "") :
    s.recordsAt (setid.tempSetid userid) = .ok (stored setid.canonical) := by
  have hkey := fetchesStored_iff.mp h setid
  rwa [SetName.orDefault_of_ne hne] at hkey

variable {s' : ResultStore}

theorem FetchesStored.update_iff {records : Option (List ℤ)} (h : FetchesStored userid s stored)
    (hothers : ∀ other ≠ setid.orDefault.tempSetid userid, s'.recordsAt other = s.recordsAt other) :
    FetchesStored userid s' (update stored setid.canonical records) ↔
      s'.recordsAt (setid.orDefault.tempSetid userid) = .ok records := by
  rw [fetchesStored_iff]
  constructor
  · intro hall
    rw [hall setid, update_self]
  · intro hkey other
    by_cases hsame : other.canonical = setid.canonical
    · rw [hsame, update_self, SetName.tempSetid_inj.mpr hsame, hkey]
    · have hne : other.orDefault.tempSetid userid ≠ setid.orDefault.tempSetid userid :=
        fun heq ↦ hsame (SetName.tempSetid_inj.mp heq)
      rw [update_of_ne hsame, hothers _ hne, fetchesStored_iff.mp h other]

theorem FetchesStored.of_same (h : FetchesStored userid s stored)
    (hsame : ∀ key, s'.recordsAt key = s.recordsAt key) : FetchesStored userid s' stored := by
  rw [fetchesStored_iff] at h ⊢
  exact fun setid ↦ (hsame _).trans (h setid)

theorem not_fetchesStored_of_held {addr : Addr} (hinv : Inv userid s)
    (hheld : s.HeldElsewhere key addr) (htable : ∀ other ≠ key, s'.table other = s.table other)
    (hheap : s'.heap addr = none) : ¬FetchesStored userid s' stored := by
  obtain ⟨other, hne, data, hentry, hptr⟩ := hheld
  obtain ⟨setid, hname, rfl⟩ := hinv.named other data hentry
  intro h
  have hrecords := h.at_key hname
  rw [recordsAt_of_freed ((htable _ hne).trans hentry) hptr hheap] at hrecords
  cases hrecords

theorem seGetResultSet_spec (hinv : Inv userid s) (setid : SetName) :
    ∃ ptr s', seGetResultSet userid s setid = .ok (ptr, s') ∧ Inv userid s' ∧
      ∀ key, s'.recordsAt key = s.recordsAt key := by
  rw [seGetResultSet, seCheckResultSet_eq, entryOf_of_ne setid.orDefault_ne]
  cases hentry : s.table (setid.orDefault.tempSetid userid) with
  | none => exact ⟨none, s.initTable, rfl, hinv.initTable, fun _ ↦ rfl⟩
  | some data =>
    simp only [Option.map_some]
    cases hptr : data.resultPtr with
    | some addr => exact ⟨some addr, s.initTable, rfl, hinv.initTable, fun _ ↦ rfl⟩
    | none =>
      cases hfile : s.files data.filename with
      | none =>
        simp only [initTable_files, hfile]
        exact ⟨none, s.initTable, rfl, hinv.initTable, fun _ ↦ rfl⟩
      | some saved =>
        simp only [initTable_files, hfile]
        refine ⟨_, _, rfl, ?_, ?_⟩
        · refine (hinv.initTable.alloc (hinv.savedSpare _ _ hfile)).setEntry
            setid.orDefault_ne ?_ ?_
          · intro other data' hother hname
            refine hinv.ownFile other _ data' data hother hentry ?_
            rw [← hname]
            exact hinv.savedName _ _ hfile
          · intro addr haddr
            cases haddr
            exact Nat.lt_succ_self _
        · intro key
          by_cases hkey : key = setid.orDefault.tempSetid userid
          · subst hkey
            rw [recordsAt_of_file hentry hptr, hfile]
            exact recordsAt_setEntry_core rfl alloc_self
          · rw [recordsAt_setEntry_ne _ hkey]
            exact hinv.initTable.recordsAt_alloc _ key

theorem seFreeResult_core (key : String) {data : ResultSetData} {old : Addr}
    {set : WeightedResult} (hptr : data.resultPtr = some old) (hset : s.heap old = some set) :
    seFreeResult s key data =
      .ok ((s.setHeap old none).setEntry key (some { data with resultPtr := none })) := by
  simp only [seFreeResult, hptr, release_of_heap hset]
  rfl

theorem free_step (hinv : Inv userid s) (hgood : FetchesStored userid s stored) :
    ∃ s', seFreeResultName userid s setid = .ok s' ∧ Inv userid s' ∧
      (KeepsCopies userid s stored (.free setid) ↔ FetchesStored userid s' stored) := by
  rw [seFreeResultName, seCheckResultSet_eq]
  by_cases htab : s.hashTab.isNone
  · rw [if_pos htab]
    refine ⟨s, rfl, hinv, iff_of_true ?_ hgood⟩
    simp [KeepsCopies, entryOf_of_isNone htab]
  rw [if_neg htab]
  cases hentry : entryOf userid s setid with
  | none =>
    refine ⟨s.initTable, rfl, hinv.initTable, iff_of_true ?_ (hgood.of_same fun _ ↦ rfl)⟩
    simp [KeepsCopies, hentry]
  | some entry =>
    obtain ⟨key, data⟩ := entry
    obtain ⟨hne, rfl, hfound⟩ := entryOf_eq_some hentry
    have hdefault := SetName.orDefault_of_ne hne
    cases hptr : data.resultPtr with
    | none =>
      refine ⟨s.initTable, ?_, hinv.initTable, iff_of_true ?_ (hgood.of_same fun _ ↦ rfl)⟩
      · simp only [seFreeResult, hptr]
      · simp [KeepsCopies, hentry, hptr]
    | some old =>
      obtain ⟨set, hset, -⟩ := core_alive (hgood.at_key hne) hfound hptr
      refine ⟨_, seFreeResult_core (s := s.initTable) _ hptr hset, hinv.initTable.freed hne hfound,
        ?_⟩
      have hothers (hheld : ¬s.HeldElsewhere (setid.tempSetid userid) old) (other : String)
          (hother : other ≠ setid.orDefault.tempSetid userid) :
          ((s.initTable.setHeap old none).setEntry (setid.tempSetid userid)
            (some { data with resultPtr := none })).recordsAt other = s.recordsAt other := by
        rw [hdefault] at hother
        rw [recordsAt_setEntry_ne _ hother]
        exact recordsAt_release (s := s.initTable) hheld hother
      have hkeeps : KeepsCopies userid s stored (.free setid) ↔
          ¬s.HeldElsewhere (setid.tempSetid userid) old ∧ (s.files data.filename).map
            (fun saved ↦ saved.loaded.recordNums) = stored setid.canonical := by
        simp [KeepsCopies, hentry, hptr]
      rw [hkeeps]
      constructor
      · rintro ⟨hheld, hfile⟩
        rw [← update_eq_self setid.canonical stored, hgood.update_iff (hothers hheld),
          hdefault, recordsAt_setEntry_file rfl]
        exact congrArg Except.ok hfile
      · intro hgood'
        constructor
        · intro hheld
          refine not_fetchesStored_of_held hinv hheld ?_ ?_ hgood'
          · intro other hother
            rw [setEntry_table, update_of_ne hother]
            rfl
          · exact update_self ..
        · have hrecords := hgood'.at_key hne
          rw [recordsAt_setEntry_file rfl, Except.ok.injEq] at hrecords
          exact hrecords

theorem unlink_spec (hinv : Inv userid s) (hentry : s.table key = some data) (unlinked : Prop)
    [Decidable unlinked] : let s₁ := if unlinked then s.setFile data.filename none else s
    Inv userid s₁ ∧ s₁.table = s.table ∧ s₁.heap = s.heap ∧
      ∀ other ≠ key, s₁.recordsAt other = s.recordsAt other := by
  dsimp only
  split_ifs with hunlinked
  · refine ⟨hinv.setFile (fun _ hnone ↦ nomatch hnone), rfl, rfl, ?_⟩
    intro other hne
    refine recordsAt_setFile none ?_
    intro data' hother hname
    exact hne (hinv.ownFile other key data' data hother hentry hname)
  · exact ⟨hinv, rfl, rfl, fun _ _ ↦ rfl⟩

theorem delete_step (hinv : Inv userid s) (hgood : FetchesStored userid s stored)
    (setid : SetName) : ∃ status s', seDeleteResultSet userid s setid = .ok (status, s') ∧
      Inv userid s' ∧ (KeepsCopies userid s stored (.delete setid) ↔
        FetchesStored userid s' (specStore userid s stored (.delete setid))) := by
  by_cases htab : s.hashTab.isNone
  · have heq : seDeleteResultSet userid s setid = .ok (.succeed, s) := if_pos htab
    refine ⟨.succeed, s, heq, hinv, iff_of_true ?_ ?_⟩
    · simp [KeepsCopies, entryOf_of_isNone htab]
    · simp only [specStore, heq]
      rw [hgood.update_iff fun _ _ ↦ rfl]
      exact recordsAt_of_none (table_of_isNone htab _)
  cases hentry : entryOf userid s setid with
  | none =>
    have heq : seDeleteResultSet userid s setid = .ok (.fail, s.initTable) := by
      rw [seDeleteResultSet, if_neg htab, seCheckResultSet_eq, hentry]
    refine ⟨.fail, s.initTable, heq, hinv.initTable, iff_of_true ?_ ?_⟩
    · simp [KeepsCopies, hentry]
    · simp only [specStore, heq]
      exact hgood.of_same fun _ ↦ rfl
  | some entry =>
    obtain ⟨key, data⟩ := entry
    obtain ⟨hne, rfl, hfound⟩ := entryOf_eq_some hentry
    have hdefault := SetName.orDefault_of_ne hne
    obtain ⟨hinv₁, htable, hheap, hothers₁⟩ := unlink_spec hinv.initTable hfound
      (setid.text ≠ TMP_BITMAP_RESULTS ∧ data.reallyStored = 1)
    set s₁ := if setid.text ≠ TMP_BITMAP_RESULTS ∧ data.reallyStored = 1 then
      s.initTable.setFile data.filename none else s.initTable with hs₁
    have heq {s' : ResultStore} (hfree : seFreeResult s₁ (setid.tempSetid userid) data = .ok s') :
        seDeleteResultSet userid s setid =
          .ok (.succeed, s'.setEntry (setid.tempSetid userid) none) := by
      rw [seDeleteResultSet, if_neg htab, seCheckResultSet_eq, hentry]
      simp only [← hs₁, hfree]
      rfl
    cases hptr : data.resultPtr with
    | none =>
      have hdone := @heq s₁ (by simp only [seFreeResult, hptr])
      refine ⟨.succeed, _, hdone, hinv₁.removeEntry _, iff_of_true ?_ ?_⟩
      · simp [KeepsCopies, hentry, hptr]
      · simp only [specStore, hdone]
        rw [hgood.update_iff, hdefault]
        · exact recordsAt_of_none (setEntry_self none)
        · intro other hother
          rw [hdefault] at hother
          rw [recordsAt_setEntry_ne _ hother]
          exact hothers₁ other hother
    | some old =>
      obtain ⟨set, hset, -⟩ := core_alive (hgood.at_key hne) hfound hptr
      have hdone := heq (seFreeResult_core _ hptr (hheap ▸ hset))
      refine ⟨.succeed, _, hdone,
        (hinv₁.freed hne (htable ▸ hfound)).removeEntry _, ?_⟩
      have hkeeps : KeepsCopies userid s stored (.delete setid) ↔
          ¬s.HeldElsewhere (setid.tempSetid userid) old := by
        simp [KeepsCopies, hentry, hptr]
      simp only [specStore, hdone]
      rw [hkeeps]
      constructor
      · intro hheld
        have hheld₁ : ¬s₁.HeldElsewhere (setid.tempSetid userid) old := by
          rw [HeldElsewhere, htable]
          exact hheld
        rw [hgood.update_iff, hdefault]
        · exact recordsAt_of_none (setEntry_self none)
        · intro other hother
          rw [hdefault] at hother
          rw [recordsAt_setEntry_ne _ hother, recordsAt_setEntry_ne _ hother,
            recordsAt_release hheld₁ hother]
          exact hothers₁ other hother
      · intro hgood' hheld
        refine not_fetchesStored_of_held hinv hheld ?_ ?_ hgood'
        · intro other hother
          rw [setEntry_table, update_of_ne hother, setEntry_table,
            update_of_ne hother, setHeap_table, htable]
          rfl
        · exact update_self ..

variable {addr : Addr} {set : WeightedResult} {flags : ℕ} {temp : TempFile}

theorem saveResultSet_spec (flags : ℕ) (hinv : Inv userid s) (hne : setid.text ≠ "")
    (hset : s.heap addr = some set)
    (hfresh : ∀ key data, s.table key = some data → data.filename ≠ temp.filename) :
    ∃ status s', saveResultSet
        (s.setEntry (setid.tempSetid userid) (some ⟨temp.filename, 0, some addr, set.header⟩))
        (setid.tempSetid userid) ⟨temp.filename, 0, some addr, set.header⟩ set flags temp =
          .ok (status, s') ∧
      (status = .succeed ↔
        flags &&& DONT_SAVE_RESULT_SETS = DONT_SAVE_RESULT_SETS ∨ temp.writable) ∧
      Inv userid s' ∧
      (∀ other ≠ setid.tempSetid userid, s'.recordsAt other = s.recordsAt other) ∧
      s'.recordsAt (setid.tempSetid userid) = .ok (some set.recordNums) := by
  have hspare := hinv.heapSpare addr set hset
  have hentered : Inv userid (s.setEntry (setid.tempSetid userid)
      (some ⟨temp.filename, 0, some addr, set.header⟩)) := by
    refine hinv.setEntry hne ?_ ?_
    · intro other data' hother hname
      exact absurd hname.symm (hfresh other data' hother)
    · rintro ptr ⟨⟩
      exact hinv.heapBound addr set hset
  have hfile (other : String) (hother : other ≠ setid.tempSetid userid) (data' : ResultSetData)
      (hdata' : (s.setEntry (setid.tempSetid userid)
        (some ⟨temp.filename, 0, some addr, set.header⟩)).table other = some data') :
      data'.filename ≠ temp.filename := by
    rw [setEntry_table, update_of_ne hother] at hdata'
    exact hfresh other data' hdata'
  rw [saveResultSet]
  by_cases hsave : flags &&& DONT_SAVE_RESULT_SETS = DONT_SAVE_RESULT_SETS
  · rw [if_neg (not_not.mpr hsave)]
    refine ⟨_, _, rfl, iff_of_true rfl (.inl hsave),
      hentered.setFile (fun _ hnone ↦ nomatch hnone), ?_, ?_⟩
    · intro other hother
      rw [recordsAt_setFile _ (hfile other hother), recordsAt_setEntry_ne _ hother]
    · exact recordsAt_of_core (setEntry_self _) rfl hset
  rw [if_pos hsave]
  by_cases hwrite : temp.writable
  · rw [if_pos hwrite, hspare.writtenEntries]
    refine ⟨_, _, rfl, iff_of_true rfl (.inr hwrite), ?_, ?_, ?_⟩
    · refine (hentered.setFile ?_).setEntry hne ?_ ?_
      · rintro file ⟨⟩
        exact ⟨rfl, hspare.loaded ..⟩
      · intro other data' hother hname
        by_contra hne'
        exact hfile other hne' data' hother hname.symm
      · rintro ptr ⟨⟩
        exact hinv.heapBound addr set hset
    · intro other hother
      rw [recordsAt_setEntry_ne _ hother, recordsAt_setFile _ (hfile other hother),
        recordsAt_setEntry_ne _ hother]
    · exact recordsAt_setEntry_core rfl hset
  · rw [if_neg hwrite]
    refine ⟨_, _, rfl, iff_of_false (by decide) (by tauto), hentered, ?_, ?_⟩
    · exact fun other hother ↦ recordsAt_setEntry_ne _ hother
    · exact recordsAt_setEntry_core rfl hset

/-- Storing under a new name: the records are behind the name afterwards, also when the file cannot
be written and failure is reported. -/
theorem storeNewEntry_spec (flags : ℕ) (hinv : Inv userid s) (hset : s.heap addr = some set)
    (hfresh : ∀ key data, s.table key = some data → data.filename ≠ temp.filename)
    (setid : SetName) :
    ∃ status s', storeNewEntry userid s addr set setid flags temp = .ok (status, s') ∧
      (status = .succeed ↔
        flags &&& DONT_SAVE_RESULT_SETS = DONT_SAVE_RESULT_SETS ∨ temp.writable) ∧
      Inv userid s' ∧
      (∀ other ≠ setid.orDefault.tempSetid userid, s'.recordsAt other = s.recordsAt other) ∧
      s'.recordsAt (setid.orDefault.tempSetid userid) = .ok (some set.recordNums) := by
  have hspare := hinv.heapSpare addr set hset
  rw [storeNewEntry]
  by_cases hnamed : set.setid ≠ ""
  · obtain ⟨newset, hdup, hnew, hsame⟩ := hspare.dup
    obtain ⟨status, s', hsave, hstatus, hinv', hothers, hkey⟩ := saveResultSet_spec flags
      (hinv.alloc (hnew.withSetid setid.orDefault.text)) setid.orDefault_ne alloc_self hfresh
    refine ⟨status, s', ?_, hstatus, hinv', ?_, ?_⟩
    · simp only [if_pos hnamed, hdup]
      exact hsave
    · exact fun other hother ↦ (hothers other hother).trans (hinv.recordsAt_alloc _ other)
    · rw [hkey, WeightedResult.recordNums_withSetid, hsame]
  · have hinv₁ : Inv userid (s.setHeap addr (some { set with setid := setid.orDefault.text })) := by
      refine hinv.setHeap ?_
      rintro new ⟨⟩
      exact ⟨hspare.withSetid _, hinv.heapBound addr set hset⟩
    obtain ⟨status, s', hsave, hstatus, hinv', hothers, hkey⟩ := saveResultSet_spec flags
      hinv₁ setid.orDefault_ne (setHeap_self _) hfresh
    refine ⟨status, s', ?_, hstatus, hinv', ?_, hkey⟩
    · simp only [if_neg hnamed]
      exact hsave
    · exact fun other hother ↦ (hothers other hother).trans (recordsAt_rename hset _ other)

theorem specStore_of_succeed (hset : s.heap addr = some set)
    (hdone : seStoreResultSet userid s (some addr) setid flags temp = .ok (.succeed, s')) :
    specStore userid s stored (.store (some addr) setid flags temp) =
      update stored setid.canonical (some set.recordNums) := by
  simp only [specStore, hdone, Option.bind_some, hset]

theorem replaceFlag_eq :
    (REPLACE_RESULT_SETS == REPLACE_RESULT_SETS).toNat = REPLACE_RESULT_SETS := rfl

theorem replaceEntry_of_forbidden (hflag : flags &&& REPLACE_RESULT_SETS = 0) :
    replaceEntry s addr setid flags key data = .ok (.fail, s) := if_neg (not_not.mpr hflag)

theorem replaceEntry_of_freed {s₁ : ResultStore} (hflag : flags &&& REPLACE_RESULT_SETS ≠ 0)
    (hfree : seFreeResult s key data = .ok s₁) (hset : s₁.heap addr = some set) :
    replaceEntry s addr setid flags key data =
      .ok (.succeed, (s₁.setHeap addr (some { set with setid := setid.text })).setEntry key
        (some { data with
          resultPtr := some addr
          result := { set with setid := setid.text }.header })) := by
  have hdead : ¬flags &&& (DONT_SAVE_RESULT_SETS != DONT_SAVE_RESULT_SETS).toNat ≠ 0 :=
    not_not.mpr (Nat.and_zero flags)
  rw [replaceEntry, replaceFlag_eq, if_pos hflag, hfree]
  simp only [bind, Except.bind, load_of_heap hset, if_neg hdead]

theorem replaceEntry_of_same (hflag : flags &&& REPLACE_RESULT_SETS ≠ 0)
    (hptr : data.resultPtr = some addr) (hset : s.heap addr = some set) :
    replaceEntry s addr setid flags key data = .error .useAfterFree := by
  rw [replaceEntry, replaceFlag_eq, if_pos hflag, seFreeResult_core _ hptr hset]
  simp only [bind, Except.bind, load, setEntry_heap, setHeap_self]

/-- The invariant and the records after a replacement. -/
theorem replaced_spec {s₁ : ResultStore} (data : ResultSetData) (hinv : Inv userid s₁)
    (hne : setid.text ≠ "") (hset : s₁.heap addr = some set)
    (hfile : ∀ other data', s₁.table other = some data' → data.filename = data'.filename →
      other = setid.tempSetid userid) :
    let s' := (s₁.setHeap addr (some { set with setid := setid.text })).setEntry
      (setid.tempSetid userid)
      (some { data with
        resultPtr := some addr
        result := { set with setid := setid.text }.header })
    Inv userid s' ∧
      (∀ other ≠ setid.tempSetid userid, s'.recordsAt other = s₁.recordsAt other) ∧
      s'.recordsAt (setid.tempSetid userid) = .ok (some set.recordNums) := by
  have hbound := hinv.heapBound addr set hset
  refine ⟨(hinv.setHeap ?_).setEntry hne hfile ?_, ?_, ?_⟩
  · rintro new ⟨⟩
    exact ⟨(hinv.heapSpare addr set hset).withSetid _, hbound⟩
  · rintro ptr ⟨⟩
    exact hbound
  · intro other hother
    rw [recordsAt_setEntry_ne _ hother, recordsAt_rename hset]
  · exact (recordsAt_setEntry_core rfl (setHeap_self _)).trans rfl

/-- Replacing keeps the fetches right exactly when the old set is neither the one stored nor held by
another name. -/
theorem replace_step (hinv : Inv userid s) (hgood : FetchesStored userid s stored)
    (hne : setid.text ≠ "") (hfound : s.table (setid.tempSetid userid) = some data)
    (hset : s.heap addr = some set)
    (hcheck : seStoreResultSet userid s (some addr) setid flags temp =
      replaceEntry s.initTable addr setid flags (setid.tempSetid userid) data)
    (hkeeps : KeepsCopies userid s stored (.store (some addr) setid flags temp) ↔
      (flags &&& REPLACE_RESULT_SETS ≠ 0 → ∀ old, data.resultPtr = some old →
        old ≠ addr ∧ ¬s.HeldElsewhere (setid.tempSetid userid) old)) :
    (∃ status s', seStoreResultSet userid s (some addr) setid flags temp = .ok (status, s') ∧
      Inv userid s' ∧ (KeepsCopies userid s stored (.store (some addr) setid flags temp) ↔
        FetchesStored userid s' (specStore userid s stored (.store (some addr) setid flags temp)))) ∨
    (∃ fault, seStoreResultSet userid s (some addr) setid flags temp = .error fault) ∧
      ¬KeepsCopies userid s stored (.store (some addr) setid flags temp) := by
  have hdefault := SetName.orDefault_of_ne hne
  have hfile (s₁ : ResultStore) (htable : ∀ other ≠ setid.tempSetid userid,
      s₁.table other = s.table other) (other : String) (data' : ResultSetData)
      (hother : s₁.table other = some data') (hname : data.filename = data'.filename) :
      other = setid.tempSetid userid := by
    by_contra hne'
    rw [htable other hne'] at hother
    exact hne' (hinv.ownFile other _ data' data hother hfound hname.symm)
  rw [hkeeps]
  by_cases hflag : flags &&& REPLACE_RESULT_SETS = 0
  · have hdone := hcheck.trans (replaceEntry_of_forbidden hflag)
    refine .inl ⟨_, _, hdone, hinv.initTable, iff_of_true (fun hset ↦ absurd hflag hset) ?_⟩
    simp only [specStore, hdone, Option.bind_some, hset]
    exact hgood.of_same fun _ ↦ rfl
  cases hptr : data.resultPtr with
  | none =>
    have hfree : seFreeResult s.initTable (setid.tempSetid userid) data = .ok s.initTable := by
      simp only [seFreeResult, hptr]
    have hdone := hcheck.trans (replaceEntry_of_freed hflag hfree hset)
    obtain ⟨hinv', hothers, hkey⟩ := replaced_spec data hinv.initTable hne hset
      (hfile s.initTable fun _ _ ↦ rfl)
    refine .inl ⟨_, _, hdone, hinv', iff_of_true (fun _ _ hold ↦ nomatch hold) ?_⟩
    rw [specStore_of_succeed hset hdone, hgood.update_iff (by rw [hdefault]; exact hothers), hdefault]
    exact hkey
  | some old =>
    by_cases hsame : old = addr
    · rw [hsame] at hptr
      refine .inr ⟨⟨_, hcheck.trans (replaceEntry_of_same hflag hptr hset)⟩, ?_⟩
      intro hkept
      exact (hkept hflag old rfl).1 hsame
    obtain ⟨oldSet, hold, -⟩ := core_alive (hgood.at_key hne) hfound hptr
    have hfree := seFreeResult_core (s := s.initTable) (setid.tempSetid userid) hptr hold
    have hset₁ : ((s.initTable.setHeap old none).setEntry (setid.tempSetid userid)
        (some { data with resultPtr := none })).heap addr = some set := by
      rw [setEntry_heap, setHeap_heap, update_of_ne (Ne.symm hsame)]
      exact hset
    have hdone := hcheck.trans (replaceEntry_of_freed hflag hfree hset₁)
    have hkept (other : String) (hother : other ≠ setid.tempSetid userid) :
        ((s.initTable.setHeap old none).setEntry (setid.tempSetid userid)
          (some { data with resultPtr := none })).table other = s.table other :=
      update_of_ne hother _ _
    obtain ⟨hinv', hothers, hkey⟩ := replaced_spec data (hinv.initTable.freed hne hfound)
      hne hset₁ (hfile _ hkept)
    refine .inl ⟨_, _, hdone, hinv', ?_⟩
    rw [specStore_of_succeed hset hdone]
    constructor
    · intro hcond
      have hheld := (hcond hflag old rfl).2
      rw [hgood.update_iff, hdefault]
      · exact hkey
      · intro other hother
        rw [hdefault] at hother
        rw [hothers other hother, recordsAt_setEntry_ne _ hother]
        exact recordsAt_release (s := s.initTable) hheld hother
    · rintro hgood' - old' ⟨⟩
      refine ⟨hsame, fun hheld ↦ not_fetchesStored_of_held hinv hheld ?_ ?_ hgood'⟩
      · intro other hother
        rw [setEntry_table, update_of_ne hother]
        exact hkept other hother
      · rw [setEntry_heap, setHeap_heap, update_of_ne hsame]
        exact setHeap_self none

theorem seStoreResultSet_eq (hset : s.heap addr = some set)
    (hcalled : ¬(set.setid ≠ "" ∧ setid.isCalled set.setid)) :
    seStoreResultSet userid s (some addr) setid flags temp =
      match entryOf userid s setid with
      | none => storeNewEntry userid s.initTable addr set setid flags temp
      | some (key, resPtr) => replaceEntry s.initTable addr setid flags key resPtr := by
  simp only [seStoreResultSet, load_of_heap hset, bind, Except.bind, if_neg hcalled,
    seCheckResultSet_eq]
  cases entryOf userid s setid <;> rfl

/-- Storing keeps the fetches right exactly when it loses no good copy; the last alternative is the
set that is stored over its own pointer. -/
theorem store_step (hinv : Inv userid s) (hgood : FetchesStored userid s stored)
    (ptr : Option Addr) (setid : SetName) (flags : ℕ) (temp : TempFile)
    (hvalid : ValidStore s (.store ptr setid flags temp)) :
    (∃ status s', seStoreResultSet userid s ptr setid flags temp = .ok (status, s') ∧
      Inv userid s' ∧ (KeepsCopies userid s stored (.store ptr setid flags temp) ↔
        FetchesStored userid s' (specStore userid s stored (.store ptr setid flags temp)))) ∨
    (∃ fault, seStoreResultSet userid s ptr setid flags temp = .error fault) ∧
      ¬KeepsCopies userid s stored (.store ptr setid flags temp) := by
  obtain ⟨halive, -, hfresh⟩ := hvalid
  cases ptr with
  | none =>
    refine .inl ⟨.fail, s, rfl, hinv, iff_of_true ?_ hgood⟩
    rintro addr ⟨⟩
  | some addr =>
    obtain ⟨set, hset⟩ := halive addr rfl
    by_cases hcalled : set.setid ≠ "" ∧ setid.isCalled set.setid
    · -- the set carries the name already
      have heq : seStoreResultSet userid s (some addr) setid flags temp = .ok (.succeed, s) := by
        simp only [seStoreResultSet, load_of_heap hset, bind, Except.bind, if_pos hcalled]
      refine .inl ⟨_, s, heq, hinv, ?_⟩
      have hkeeps : KeepsCopies userid s stored (.store (some addr) setid flags temp) ↔
          stored setid.canonical = some set.recordNums := by
        simp [KeepsCopies, hset, hcalled]
      rw [specStore_of_succeed hset heq, hkeeps, hgood.update_iff fun _ _ ↦ rfl, fetchesStored_iff.mp hgood setid,
        Except.ok.injEq]
    have hcheck : seStoreResultSet userid s (some addr) setid flags temp = _ :=
      seStoreResultSet_eq hset hcalled
    cases hentry : entryOf userid s setid with
    | none =>
      have hkeeps : KeepsCopies userid s stored (.store (some addr) setid flags temp) ↔
          flags &&& DONT_SAVE_RESULT_SETS = DONT_SAVE_RESULT_SETS ∨ temp.writable ∨
            stored setid.canonical = some set.recordNums := by
        simp [KeepsCopies, hset, hcalled, hentry]
      obtain ⟨status, s', heq, hstatus, hinv', hothers, hkey⟩ :=
        storeNewEntry_spec flags hinv.initTable hset hfresh setid
      rw [hentry] at hcheck
      have hdone := hcheck.trans heq
      refine .inl ⟨status, s', hdone, hinv', ?_⟩
      rw [hkeeps]
      cases status with
      | succeed =>
        rw [specStore_of_succeed hset hdone]
        refine iff_of_true ?_ ((hgood.update_iff hothers).mpr hkey)
        have := hstatus.mp rfl
        tauto
      | fail =>
        simp only [specStore, hdone, Option.bind_some, hset]
        rw [← update_eq_self setid.canonical stored, hgood.update_iff hothers, hkey]
        rw [update_self, Except.ok.injEq, eq_comm]
        have := mt hstatus.mpr (by decide)
        tauto
    | some entry =>
      obtain ⟨key, data⟩ := entry
      obtain ⟨hne, rfl, hfound⟩ := entryOf_eq_some hentry
      rw [hentry] at hcheck
      exact replace_step hinv hgood hne hfound hset hcheck (by
        simp [KeepsCopies, hset, hcalled, hentry])

end Cheshire.Search
