import Cheshire.Lib.Runs
import Cheshire.Search.ResultStoreSteps

/-!
# Result sets along a history

Callers build result sets, store them under names, free and delete names and fetch them again.  All
fetches return what was stored last as long as no step loses the only good copy.  Two kinds of steps
do: the replacement of a set is not written to the file, so that freeing it brings the old set back,
and it puts the caller's own pointer into the table, which other names may hold as well.
-/

namespace Cheshire.Search

open Lib ResultStore

variable {userid : ℤ} {s : ResultStore} {stored : Stored}

/-- One operation: it succeeds and keeps the fetches right exactly when it loses no good copy. -/
theorem stepStore_spec (hinv : Inv userid s) (hgood : FetchesStored userid s stored)
    (op : StoreOp) (hvalid : ValidStore s op) :
    (∃ s', stepStore userid s op = .ok s' ∧ Inv userid s' ∧
      (KeepsCopies userid s stored op ↔
        FetchesStored userid s' (specStore userid s stored op))) ∨
    (∃ fault, stepStore userid s op = .error fault) ∧ ¬KeepsCopies userid s stored op := by
  cases op with
  | build set =>
    refine .inl ⟨s.alloc set, rfl, hinv.alloc hvalid, iff_of_true trivial ?_⟩
    exact hgood.of_same (hinv.recordsAt_alloc set)
  | store ptr setid flags temp =>
    rcases store_step hinv hgood ptr setid flags temp hvalid with
      ⟨status, s', hdone, hinv', hiff⟩ | ⟨⟨fault, hfault⟩, hlost⟩
    · exact .inl ⟨s', by rw [stepStore, hdone]; rfl, hinv', hiff⟩
    · exact .inr ⟨⟨fault, by rw [stepStore, hfault]; rfl⟩, hlost⟩
  | free setid => exact .inl (free_step hinv hgood)
  | delete setid =>
    obtain ⟨status, s', hdone, hinv', hiff⟩ := delete_step hinv hgood setid
    exact .inl ⟨s', by rw [stepStore, hdone]; rfl, hinv', hiff⟩
  | fetch setid =>
    obtain ⟨ptr, s', hdone, hinv', hsame⟩ := seGetResultSet_spec hinv setid
    refine .inl ⟨s', by rw [stepStore, hdone]; rfl, hinv', iff_of_true trivial ?_⟩
    exact hgood.of_same hsame

theorem fetchesStored_empty (userid : ℤ) : FetchesStored userid empty fun _ ↦ none :=
  fetchesStored_iff.mpr fun _ ↦ rfl

/-- The operations of a history, starting from an empty store, are valid. -/
def ValidStoreHistory (userid : ℤ) (ops : List StoreOp) : Prop :=
  Runs.Along (stepStore userid) (specStore userid) (fun s _ ↦ ValidStore s) empty (fun _ ↦ none) ops

/-- In every state of a history all fetches return what was stored last. -/
def FetchesThroughout (userid : ℤ) (ops : List StoreOp) : Prop :=
  Runs.Throughout (stepStore userid) (specStore userid) (FetchesStored userid)
    (fun _ _ _ ↦ True) empty (fun _ ↦ none) ops

/-- Along every valid history of the store all fetches return what was stored last, if and only if
no step loses the only good copy of a name. -/
theorem storeHistory_iff (userid : ℤ) (ops : List StoreOp)
    (hvalid : ValidStoreHistory userid ops) :
    FetchesThroughout userid ops ↔ Runs.Along (stepStore userid) (specStore userid)
      (KeepsCopies userid) empty (fun _ ↦ none) ops := by
  refine Runs.throughout_iff_along (Inv userid) ?_ ?_ (inv_empty userid)
    (fetchesStored_empty userid) hvalid
  · intro s stored op s' hinv hgood hop _ hstep
    rcases stepStore_spec hinv hgood op hop with ⟨next, hnext, hinv', -⟩ | ⟨⟨fault, hfault⟩, -⟩
    · rw [hnext, Except.ok.injEq] at hstep
      rwa [← hstep]
    · rw [hfault] at hstep
      cases hstep
  · intro s stored op hinv hgood hop
    rcases stepStore_spec hinv hgood op hop with ⟨next, hnext, -, hiff⟩ | ⟨⟨fault, hfault⟩, hlost⟩
    · constructor
      · exact fun hkeeps ↦ ⟨next, hnext, trivial, hiff.mp hkeeps⟩
      · rintro ⟨s', hs', -, hgood'⟩
        rw [hnext, Except.ok.injEq] at hs'
        rw [hs'] at hiff
        exact hiff.mpr hgood'
    · refine iff_of_false hlost ?_
      rintro ⟨s', hs', -⟩
      rw [hfault] at hs'
      cases hs'

def nameA : SetName := ⟨"A", by simp, by decide⟩

/-- What a search for one record returns. -/
def found (record : ℤ) : WeightedResult :=
  { WeightedResult.ofRecords "" [record] with entries := [⟨record, 0, 1⟩, WeightedEntry.zero] }

theorem found_spare (record : ℤ) : (found record).Spare := by
  constructor <;> simp [found, WeightedResult.ofRecords]

/-- The entry of a set that was found, stored and saved. -/
def savedEntry (addr : Addr) (record : ℤ) : ResultSetData :=
  ⟨"chesh1", 1, some addr, { found record with setid := "A" }.header⟩

/-- The first set found is stored and saved. -/
def storedOnce : ResultStore :=
  let data := { savedEntry 0 1 with reallyStored := 0 }
  ((((empty.alloc (found 1)).initTable.setHeap 0 (some { found 1 with setid := "A" })).setEntry
    (nameA.tempSetid 0) (some data)).setFile "chesh1" (some ⟨data, [WeightedEntry.zero]⟩)).setEntry
      (nameA.tempSetid 0) (some (savedEntry 0 1))

theorem seStoreResultSet_once :
    seStoreResultSet 0 (empty.alloc (found 1)) (some 0) nameA REPLACE_RESULT_SETS
      ⟨"chesh1", true⟩ = .ok (.succeed, storedOnce) := rfl

theorem table_storedOnce (key : String) : storedOnce.table key =
    if key = nameA.tempSetid 0 then some (savedEntry 0 1) else none := by
  simp only [storedOnce, setEntry_table, setFile_table, Function.update_apply]
  split_ifs <;> rfl

theorem recordNums_chesh1 : (storedOnce.files "chesh1").map (fun saved ↦ saved.loaded.recordNums) =
    some [1] := by
  simp only [storedOnce, setEntry_files, setFile_files, Function.update_self, Option.map_some]
  rfl

/-- The second set found takes its place. -/
def storedTwice : ResultStore :=
  ((((storedOnce.alloc (found 2)).initTable.setHeap 0 none).setEntry (nameA.tempSetid 0)
    (some { savedEntry 0 1 with resultPtr := none })).setHeap 1
      (some { found 2 with setid := "A" })).setEntry (nameA.tempSetid 0) (some (savedEntry 1 2))

theorem seStoreResultSet_twice :
    seStoreResultSet 0 (storedOnce.alloc (found 2)) (some 1) nameA REPLACE_RESULT_SETS
      ⟨"chesh2", true⟩ = .ok (.succeed, storedTwice) := by
  have hentry : entryOf 0 (storedOnce.alloc (found 2)) nameA =
      some (nameA.tempSetid 0, savedEntry 0 1) := by
    rw [entryOf_of_ne (by decide), alloc_table, table_storedOnce, if_pos rfl]
    rfl
  have hset : (storedOnce.alloc (found 2)).heap 1 = some (found 2) := rfl
  rw [seStoreResultSet_eq hset (by decide), hentry]
  exact replaceEntry_of_freed (by decide) (seFreeResult_core _ rfl rfl) rfl

/-- A set is found, stored, freed and fetched again. -/
theorem storeHistory_reload : FetchesThroughout 0
    [.build (found 1), .store (some 0) nameA REPLACE_RESULT_SETS ⟨"chesh1", true⟩, .free nameA,
      .fetch nameA] := by
  refine (storeHistory_iff 0 _ ?_).mpr ?_
  · refine ⟨found_spare 1, ?_⟩
    rintro s ⟨⟩
    refine ⟨⟨?_, rfl, fun key data hentry ↦ nomatch hentry⟩,
      fun _ _ ↦ ⟨trivial, fun _ _ ↦ ⟨trivial, fun _ _ ↦ trivial⟩⟩⟩
    rintro addr ⟨⟩
    exact ⟨found 1, rfl⟩
  · refine ⟨trivial, ?_⟩
    rintro s ⟨⟩
    refine ⟨?_, ?_⟩
    · rintro addr ⟨⟩ set ⟨⟩
      exact Or.inr (Or.inl rfl)
    intro s hs
    obtain rfl : storedOnce = s := Except.ok.inj
      ((congrArg (Except.map Prod.snd) seStoreResultSet_once).symm.trans hs)
    refine ⟨?_, fun _ _ ↦ ⟨trivial, fun _ _ ↦ trivial⟩⟩
    intro entry hentry old hold
    obtain ⟨-, hkey, hfound⟩ := entryOf_eq_some hentry
    rw [table_storedOnce, if_pos hkey, Option.some.injEq] at hfound
    rw [← hfound] at hold ⊢
    constructor
    · rintro ⟨other, hother, data, hdata, -⟩
      rw [table_storedOnce, if_neg (hkey ▸ hother)] at hdata
      cases hdata
    · rw [specStore_of_succeed rfl seStoreResultSet_once, Function.update_self]
      exact recordNums_chesh1

/-- A stored set is replaced and then freed: the next fetch brings the first set back. -/
theorem storeHistory_stale : ¬∀ (userid : ℤ) (ops : List StoreOp),
    ValidStoreHistory userid ops → FetchesThroughout userid ops := by
  intro hall
  have hvalid : ValidStoreHistory 0
      [.build (found 1), .store (some 0) nameA REPLACE_RESULT_SETS ⟨"chesh1", true⟩,
        .build (found 2), .store (some 1) nameA REPLACE_RESULT_SETS ⟨"chesh2", true⟩,
        .free nameA] := by
    refine ⟨found_spare 1, ?_⟩
    rintro s ⟨⟩
    refine ⟨⟨?_, rfl, fun key data hentry ↦ nomatch hentry⟩, ?_⟩
    · rintro addr ⟨⟩
      exact ⟨found 1, rfl⟩
    intro s hs
    obtain rfl : storedOnce = s := Except.ok.inj
      ((congrArg (Except.map Prod.snd) seStoreResultSet_once).symm.trans hs)
    refine ⟨found_spare 2, ?_⟩
    rintro s ⟨⟩
    refine ⟨⟨?_, by decide, ?_⟩, fun _ _ ↦ ⟨trivial, fun _ _ ↦ trivial⟩⟩
    · rintro addr ⟨⟩
      exact ⟨found 2, rfl⟩
    · intro key data hentry
      rw [alloc_table, table_storedOnce] at hentry
      split_ifs at hentry
      rw [← Option.some.inj hentry]
      decide
  obtain ⟨-, s₁, ⟨⟩, -, -, s₂, h₂, -, -, s₃, ⟨⟩, -, -, s₄, h₄, -, -, s₅, h₅, -, hgood⟩ :=
    hall 0 _ hvalid
  obtain rfl : storedOnce = s₂ := Except.ok.inj
    ((congrArg (Except.map Prod.snd) seStoreResultSet_once).symm.trans h₂)
  obtain rfl : storedTwice = s₄ := Except.ok.inj
    ((congrArg (Except.map Prod.snd) seStoreResultSet_twice).symm.trans h₄)
  have hentry : entryOf 0 storedTwice nameA = some (nameA.tempSetid 0, savedEntry 1 2) := by
    rw [entryOf_of_ne (by decide), storedTwice, setEntry_self]
    rfl
  have hfree : stepStore 0 storedTwice (.free nameA) =
      seFreeResult storedTwice.initTable (nameA.tempSetid 0) (savedEntry 1 2) := by
    rw [stepStore, seFreeResultName, seCheckResultSet_eq, hentry]
    rfl
  rw [hfree, seFreeResult_core _ rfl rfl] at h₅
  cases h₅
  have hfetch := hgood.at_key (show nameA.text ≠ "" by decide)
  rw [recordsAt_setEntry_file rfl, Except.ok.injEq] at hfetch
  have hfirst := recordNums_chesh1.symm.trans hfetch
  change some [1] = specStore 0 (storedOnce.alloc (found 2)) _
    (.store (some 1) nameA REPLACE_RESULT_SETS ⟨"chesh2", true⟩) nameA.canonical at hfirst
  rw [specStore_of_succeed rfl seStoreResultSet_twice, Function.update_self] at hfirst
  exact absurd hfirst (by decide)

end Cheshire.Search
