import Cheshire.Search.ResultStore

/-!
# What a name stands for in the store

The records behind an entry are those of the set in core, or else those of the saved file.  This
module describes how the elementary changes of memory, table and files act on them, and keeps the
invariant of the store: entries belong to names and have files of their own, pointers have been
handed out, and every result set has room for one entry more than it has hits.
-/

namespace Cheshire.Search

open Function

variable {setid : SetName}

theorem SetName.tempSetid_inj {userid : ℤ} {other : SetName} :
    setid.tempSetid userid = other.tempSetid userid ↔
      setid.text.toUpper = other.text.toUpper := by
  simp only [tempSetid, String.toUpper, ← String.toList_inj, String.toList_map,
    String.toList_append, List.map_append, List.append_cancel_right_eq]

theorem SetName.orDefault_of_ne (hne : setid.text ≠ "") : setid.orDefault = setid := if_neg hne

theorem SetName.orDefault_ne (setid : SetName) : setid.orDefault.text ≠ "" := by
  rw [orDefault]
  split_ifs with hempty
  · decide
  · exact hempty

variable {data : ResultSetData}

namespace ResultStore

variable {s : ResultStore} {key : String} {addr : Addr} {set : WeightedResult}

@[simp] theorem initTable_table : s.initTable.table = s.table := rfl
@[simp] theorem initTable_heap : s.initTable.heap = s.heap := rfl
@[simp] theorem initTable_files : s.initTable.files = s.files := rfl
@[simp] theorem initTable_nextAddr : s.initTable.nextAddr = s.nextAddr := rfl

@[simp] theorem setEntry_table (data : Option ResultSetData) :
    (s.setEntry key data).table = update s.table key data := rfl
@[simp] theorem setEntry_heap (data : Option ResultSetData) :
    (s.setEntry key data).heap = s.heap := rfl
@[simp] theorem setEntry_files (data : Option ResultSetData) :
    (s.setEntry key data).files = s.files := rfl
@[simp] theorem setEntry_nextAddr (data : Option ResultSetData) :
    (s.setEntry key data).nextAddr = s.nextAddr := rfl

theorem setEntry_self (data : Option ResultSetData) : (s.setEntry key data).table key = data :=
  update_self ..

@[simp] theorem setFile_table (filename : String) (saved : Option SavedSet) :
    (s.setFile filename saved).table = s.table := rfl
@[simp] theorem setFile_heap (filename : String) (saved : Option SavedSet) :
    (s.setFile filename saved).heap = s.heap := rfl
@[simp] theorem setFile_files (filename : String) (saved : Option SavedSet) :
    (s.setFile filename saved).files = update s.files filename saved := rfl
@[simp] theorem setFile_nextAddr (filename : String) (saved : Option SavedSet) :
    (s.setFile filename saved).nextAddr = s.nextAddr := rfl

@[simp] theorem setHeap_table (set : Option WeightedResult) :
    (s.setHeap addr set).table = s.table := rfl
@[simp] theorem setHeap_heap (set : Option WeightedResult) :
    (s.setHeap addr set).heap = update s.heap addr set := rfl
@[simp] theorem setHeap_files (set : Option WeightedResult) :
    (s.setHeap addr set).files = s.files := rfl
@[simp] theorem setHeap_nextAddr (set : Option WeightedResult) :
    (s.setHeap addr set).nextAddr = s.nextAddr := rfl

theorem setHeap_self (set : Option WeightedResult) : (s.setHeap addr set).heap addr = set :=
  update_self ..

@[simp] theorem alloc_table : (s.alloc set).table = s.table := rfl
@[simp] theorem alloc_heap :
    (s.alloc set).heap = update s.heap s.nextAddr (some set) := rfl
theorem alloc_self : (s.alloc set).heap s.nextAddr = some set := update_self ..

@[simp] theorem alloc_files : (s.alloc set).files = s.files := rfl
@[simp] theorem alloc_nextAddr : (s.alloc set).nextAddr = s.nextAddr + 1 := rfl

theorem load_of_heap (hset : s.heap addr = some set) : s.load addr = .ok set := by
  rw [load, hset]

theorem release_of_heap (hset : s.heap addr = some set) :
    s.release addr = .ok (s.setHeap addr none) := by
  rw [release, load_of_heap hset]
  rfl

/-- The records of an entry: from the set in core, or else from the saved file. -/
def recordsOf (s : ResultStore) (data : ResultSetData) : Exec (Option (List ℤ)) :=
  match data.resultPtr with
  | some addr => (s.load addr).map fun set ↦ some set.recordNums
  | none => .ok ((s.files data.filename).map fun saved ↦ saved.loaded.recordNums)

def recordsAt (s : ResultStore) (key : String) : Exec (Option (List ℤ)) :=
  match s.table key with
  | none => .ok none
  | some data => s.recordsOf data

theorem recordsAt_of_none (hentry : s.table key = none) : s.recordsAt key = .ok none := by
  rw [recordsAt, hentry]

theorem recordsAt_of_core (hentry : s.table key = some data) (hptr : data.resultPtr = some addr)
    (hset : s.heap addr = some set) : s.recordsAt key = .ok (some set.recordNums) := by
  simp only [recordsAt, hentry, recordsOf, hptr, load_of_heap hset]
  rfl

theorem recordsAt_of_file (hentry : s.table key = some data) (hptr : data.resultPtr = none) :
    s.recordsAt key =
      .ok ((s.files data.filename).map fun saved ↦ saved.loaded.recordNums) := by
  simp only [recordsAt, hentry, recordsOf, hptr]

theorem recordsAt_setEntry_core (hptr : data.resultPtr = some addr)
    (hset : s.heap addr = some set) :
    (s.setEntry key (some data)).recordsAt key = .ok (some set.recordNums) :=
  recordsAt_of_core (setEntry_self _) hptr hset

theorem recordsAt_setEntry_file (hptr : data.resultPtr = none) :
    (s.setEntry key (some data)).recordsAt key =
      .ok ((s.files data.filename).map fun saved ↦ saved.loaded.recordNums) :=
  recordsAt_of_file (setEntry_self _) hptr

theorem recordsAt_of_freed (hentry : s.table key = some data) (hptr : data.resultPtr = some addr)
    (hset : s.heap addr = none) : s.recordsAt key = .error .useAfterFree := by
  simp only [recordsAt, hentry, recordsOf, hptr, load, hset]
  rfl

theorem core_alive {records : Option (List ℤ)} (hrecords : s.recordsAt key = .ok records)
    (hentry : s.table key = some data) (hptr : data.resultPtr = some addr) :
    ∃ set, s.heap addr = some set ∧ records = some set.recordNums := by
  cases hset : s.heap addr with
  | none =>
    rw [recordsAt_of_freed hentry hptr hset] at hrecords
    cases hrecords
  | some set =>
    rw [recordsAt_of_core hentry hptr hset, Except.ok.injEq] at hrecords
    exact ⟨set, rfl, hrecords.symm⟩

theorem recordsAt_congr {s' : ResultStore} (htable : s'.table key = s.table key)
    (hheap : ∀ data addr, s.table key = some data → data.resultPtr = some addr →
      (s'.heap addr).map WeightedResult.recordNums = (s.heap addr).map WeightedResult.recordNums)
    (hfiles : ∀ data, s.table key = some data → s'.files data.filename = s.files data.filename) :
    s'.recordsAt key = s.recordsAt key := by
  rw [recordsAt, recordsAt, htable]
  cases hentry : s.table key with
  | none => rfl
  | some data =>
    simp only [recordsOf, hfiles data hentry]
    cases hptr : data.resultPtr with
    | none => rfl
    | some addr =>
      have hsame := hheap data addr hentry hptr
      simp only [load]
      cases hold : s.heap addr <;> cases hnew : s'.heap addr <;>
        simp_all [Except.map]

/-- Some entry under another key points to the set. -/
def HeldElsewhere (s : ResultStore) (key : String) (addr : Addr) : Prop :=
  ∃ other ≠ key, ∃ data, s.table other = some data ∧ data.resultPtr = some addr

end ResultStore

/-- The block of a result set has one entry more than the result, and these are written to a
file. -/
structure WeightedResult.Spare (set : WeightedResult) : Prop where
  nonneg : 0 ≤ set.numHits
  covered : set.numHits.toNat + 1 ≤ set.entries.length

namespace WeightedResult

variable {set : WeightedResult}

theorem Spare.withSetid (h : set.Spare) (setid : String) : { set with setid := setid }.Spare :=
  ⟨h.nonneg, h.covered⟩

@[simp] theorem recordNums_withSetid (setid : String) :
    { set with setid := setid }.recordNums = set.recordNums := rfl

theorem Spare.writtenEntries (h : set.Spare) :
    writtenEntries set = .ok ((set.entries.drop 1).take set.numHits.toNat) := if_pos h.covered

theorem loaded_entries (filename : String) (reallyStored : ℤ) (ptr : Option Addr) :
    (SavedSet.loaded ⟨⟨filename, reallyStored, ptr, set.header⟩,
      (set.entries.drop 1).take set.numHits.toNat⟩).entries =
        set.entries.take (set.numHits.toNat + 1) := by
  simp only [SavedSet.loaded, header]
  rw [Nat.add_comm, List.take_add]

theorem Spare.loaded (h : set.Spare) (filename : String) (reallyStored : ℤ) (ptr : Option Addr) :
    (SavedSet.loaded ⟨⟨filename, reallyStored, ptr, set.header⟩,
      (set.entries.drop 1).take set.numHits.toNat⟩).Spare := by
  refine ⟨h.nonneg, ?_⟩
  rw [loaded_entries, List.length_take, min_eq_left h.covered]
  rfl

theorem Spare.dup (h : set.Spare) : ∃ newset, seDupResultSet set = .ok newset ∧ newset.Spare ∧
    newset.recordNums = set.recordNums := by
  have hcovered := h.covered
  refine ⟨_, if_pos (by omega), ⟨h.nonneg, ?_⟩, ?_⟩
  · by_cases hzero : set.numHits.toNat = 0
    · simp only [hzero, if_true, List.length_take]
      omega
    · simp only [hzero, if_false, List.length_append, List.length_take, List.length_singleton]
      omega
  · by_cases hzero : set.numHits.toNat = 0
    · simp [recordNums, hits, hzero]
    · simp only [recordNums, hits, hzero, if_false]
      rw [List.take_append_of_le_length (by rw [List.length_take]; omega), List.take_take, min_self]

end WeightedResult

namespace ResultStore

/-- What every reachable store has in order. -/
structure Inv (userid : ℤ) (s : ResultStore) : Prop where
  named : ∀ key data, s.table key = some data →
    ∃ setid : SetName, setid.text ≠ "" ∧ key = setid.tempSetid userid
  ownFile : ∀ key other data data', s.table key = some data → s.table other = some data' →
    data.filename = data'.filename → key = other
  savedName : ∀ filename saved, s.files filename = some saved → saved.data.filename = filename
  savedSpare : ∀ filename saved, s.files filename = some saved → saved.loaded.Spare
  heapSpare : ∀ addr set, s.heap addr = some set → set.Spare
  heapBound : ∀ addr set, s.heap addr = some set → addr < s.nextAddr
  ptrBound : ∀ key data addr, s.table key = some data → data.resultPtr = some addr →
    addr < s.nextAddr

variable {userid : ℤ} {s : ResultStore}

theorem inv_empty (userid : ℤ) : Inv userid empty where
  named := fun _ _ h ↦ by cases h
  ownFile := fun _ _ _ _ h ↦ by cases h
  savedName := fun _ _ h ↦ by cases h
  savedSpare := fun _ _ h ↦ by cases h
  heapSpare := fun _ _ h ↦ by cases h
  heapBound := fun _ _ h ↦ by cases h
  ptrBound := fun _ _ _ h ↦ by cases h

theorem Inv.initTable (h : Inv userid s) : Inv userid s.initTable := by
  exact ⟨h.named, h.ownFile, h.savedName, h.savedSpare, h.heapSpare, h.heapBound, h.ptrBound⟩

theorem Inv.setEntry (h : Inv userid s) (hne : setid.text ≠ "")
    (hfile : ∀ other data', s.table other = some data' → data.filename = data'.filename →
      other = setid.tempSetid userid)
    (hptr : ∀ addr, data.resultPtr = some addr → addr < s.nextAddr) :
    Inv userid (s.setEntry (setid.tempSetid userid) (some data)) where
  named key data' hentry := by
    rw [setEntry_table, update_apply] at hentry
    split_ifs at hentry with hkey
    · exact ⟨setid, hne, hkey⟩
    · exact h.named key data' hentry
  ownFile key other data₁ data₂ hentry hother hname := by
    rw [setEntry_table, update_apply] at hentry hother
    split_ifs at hentry with hkey <;> split_ifs at hother with hkey'
    · rw [hkey, hkey']
    · rw [hkey, hfile other data₂ hother (by rwa [Option.some.inj hentry])]
    · rw [hkey', hfile key data₁ hentry (by rw [Option.some.inj hother, hname])]
    · exact h.ownFile key other data₁ data₂ hentry hother hname
  savedName := h.savedName
  savedSpare := h.savedSpare
  heapSpare := h.heapSpare
  heapBound := h.heapBound
  ptrBound key data' addr hentry haddr := by
    rw [setEntry_table, update_apply] at hentry
    split_ifs at hentry with hkey
    · exact hptr addr (by rwa [Option.some.inj hentry])
    · exact h.ptrBound key data' addr hentry haddr

theorem Inv.removeEntry (h : Inv userid s) (key : String) : Inv userid (s.setEntry key none) := by
  have hold (other : String) (data : ResultSetData)
      (hentry : (s.setEntry key none).table other = some data) : s.table other = some data := by
    rw [setEntry_table, update_apply] at hentry
    split_ifs at hentry
    exact hentry
  exact {
    named := fun other data hentry ↦ h.named other data (hold other data hentry)
    ownFile := fun other other' data data' hentry hentry' ↦
      h.ownFile other other' data data' (hold _ _ hentry) (hold _ _ hentry')
    savedName := h.savedName
    savedSpare := h.savedSpare
    heapSpare := h.heapSpare
    heapBound := h.heapBound
    ptrBound := fun other data addr hentry ↦ h.ptrBound other data addr (hold _ _ hentry) }

theorem Inv.setFile (h : Inv userid s) {filename : String} {saved : Option SavedSet}
    (hsaved : ∀ file, saved = some file → file.data.filename = filename ∧ file.loaded.Spare) :
    Inv userid (s.setFile filename saved) where
  named := h.named
  ownFile := h.ownFile
  savedName name file hfile := by
    rw [setFile_files, update_apply] at hfile
    split_ifs at hfile with hname
    · rw [hname, (hsaved file hfile).1]
    · exact h.savedName name file hfile
  savedSpare name file hfile := by
    rw [setFile_files, update_apply] at hfile
    split_ifs at hfile with hname
    · exact (hsaved file hfile).2
    · exact h.savedSpare name file hfile
  heapSpare := h.heapSpare
  heapBound := h.heapBound
  ptrBound := h.ptrBound

theorem Inv.setHeap (h : Inv userid s) {addr : Addr} {set : Option WeightedResult}
    (hset : ∀ new, set = some new → new.Spare ∧ addr < s.nextAddr) :
    Inv userid (s.setHeap addr set) where
  named := h.named
  ownFile := h.ownFile
  savedName := h.savedName
  savedSpare := h.savedSpare
  heapSpare other new hnew := by
    rw [setHeap_heap, update_apply] at hnew
    split_ifs at hnew
    · exact (hset new hnew).1
    · exact h.heapSpare other new hnew
  heapBound other new hnew := by
    rw [setHeap_heap, update_apply] at hnew
    split_ifs at hnew with hother
    · rw [hother]
      exact (hset new hnew).2
    · exact h.heapBound other new hnew
  ptrBound := h.ptrBound

theorem Inv.alloc (h : Inv userid s) {set : WeightedResult} (hset : set.Spare) :
    Inv userid (s.alloc set) where
  named := h.named
  ownFile := h.ownFile
  savedName := h.savedName
  savedSpare := h.savedSpare
  heapSpare other new hnew := by
    rw [alloc_heap, update_apply] at hnew
    split_ifs at hnew
    · rwa [← Option.some.inj hnew]
    · exact h.heapSpare other new hnew
  heapBound other new hnew := by
    rw [alloc_heap, update_apply] at hnew
    rw [alloc_nextAddr]
    split_ifs at hnew with hother
    · rw [hother]
      exact Nat.lt_succ_self s.nextAddr
    · exact Nat.lt_succ_of_lt (h.heapBound other new hnew)
  ptrBound key data addr hentry hptr := by
    rw [alloc_nextAddr]
    exact Nat.lt_succ_of_lt (h.ptrBound key data addr hentry hptr)

theorem Inv.freed (h : Inv userid s) {old : Addr} (hne : setid.text ≠ "")
    (hentry : s.table (setid.tempSetid userid) = some data) :
    Inv userid ((s.setHeap old none).setEntry (setid.tempSetid userid)
      (some { data with resultPtr := none })) := by
  refine (h.setHeap fun _ hnone ↦ by cases hnone).setEntry hne ?_ fun _ hnone ↦ by cases hnone
  intro other data' hother hname
  exact h.ownFile other _ data' data hother hentry hname.symm

theorem Inv.recordsAt_alloc (h : Inv userid s) (set : WeightedResult) (key : String) :
    (s.alloc set).recordsAt key = s.recordsAt key := by
  refine recordsAt_congr rfl ?_ fun _ _ ↦ rfl
  intro data addr hentry hptr
  rw [alloc_heap, update_of_ne (h.ptrBound key data addr hentry hptr).ne]

end ResultStore

end Cheshire.Search
