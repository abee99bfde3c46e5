import Cheshire.Search.PageMerge

/-!
# What the loops of a page merge list

The loops of `se_pagemerge` list records that are not in the merged table yet, so the table always has the
records that are listed.  The data of a document comes from the tables of the sets, in which every document
of a set stands; only at the end of the second set it comes from where an earlier lookup has left the pointer.
-/

namespace Cheshire.Search

open Lib Lib.RankedChoice

namespace PageTables

variable {tables : PageTables} {recnum : ℤ}

theorem mem_keys_of_find? {table : Table ℤ PageSum} {docWts : PageSum} (h : table.find? recnum = some docWts) :
    recnum ∈ table.keys := by
  by_contra hnot
  rw [(table.find?_eq_none_iff recnum).mpr hnot] at h
  cases h

theorem exists_find? {table : Table ℤ PageSum} (h : recnum ∈ table.keys) :
    ∃ docWts, table.find? recnum = some docWts := by
  cases hfind : table.find? recnum with
  | none => exact absurd h ((table.find?_eq_none_iff recnum).mp hfind)
  | some docWts => exact ⟨docWts, rfl⟩

theorem isSome_find?_iff (table : Table ℤ PageSum) :
    (table.find? recnum).isSome = true ↔ recnum ∈ table.keys := by
  constructor
  · intro h
    obtain ⟨docWts, hfind⟩ := Option.isSome_iff_exists.mp h
    exact mem_keys_of_find? hfind
  · intro h
    obtain ⟨docWts, hfind⟩ := exists_find? h
    rw [hfind]
    rfl

theorem keys_release (table : Table ℤ PageSum) (recnum : ℤ) : (release table recnum).keys = table.keys := by
  rw [release]
  split
  · next docWts hfind => exact Table.keys_enter_of_mem _ (mem_keys_of_find? hfind) _
  · rfl

/-- Both tables of the sets keep their documents, and `doc_wts_set2` points into the second one. -/
structure Keeps (tables : PageTables) (records1 records2 : List ℤ) : Prop where
  keys1 : ∀ record, record ∈ tables.ht1.keys ↔ record ∈ records1
  keys2 : ∀ record, record ∈ tables.ht2.keys ↔ record ∈ records2
  pointer : ∀ record, tables.docWtsSet2 = some record → record ∈ records2

theorem joinSet1_spec (tables : PageTables) (recnum : ℤ) :
    (tables.joinSet1 recnum).merghash.keys = tables.merghash.keys ∧
      (tables.joinSet1 recnum).ht1.keys = tables.ht1.keys ∧ (tables.joinSet1 recnum).ht2 = tables.ht2 ∧
      (tables.joinSet1 recnum).docWtsSet2 = tables.docWtsSet2 := by
  rw [joinSet1]
  split
  · next docWtsMerge docWtsSet1 hmerge hset1 =>
    exact ⟨Table.keys_enter_of_mem _ (mem_keys_of_find? hmerge) _,
      Table.keys_enter_of_mem _ (mem_keys_of_find? hset1) _, rfl, rfl⟩
  · exact ⟨rfl, rfl, rfl, rfl⟩

theorem joinSet2_spec (tables : PageTables) {recnum : ℤ} (hmem : recnum ∈ tables.merghash.keys)
    (mergPages : ℤ) :
    (tables.joinSet2 recnum mergPages).merghash.keys = tables.merghash.keys ∧
      (tables.joinSet2 recnum mergPages).ht1 = tables.ht1 ∧
      (tables.joinSet2 recnum mergPages).ht2.keys = tables.ht2.keys ∧
      (tables.joinSet2 recnum mergPages).docWtsSet2 =
        if recnum ∈ tables.ht2.keys then some recnum else tables.docWtsSet2 := by
  obtain ⟨docWtsMerge, hmerge⟩ := exists_find? hmem
  rw [joinSet2, hmerge]
  cases hset2 : tables.ht2.find? recnum with
  | none =>
    rw [if_neg ((Table.find?_eq_none_iff _ recnum).mp hset2)]
    exact ⟨rfl, rfl, rfl, rfl⟩
  | some docWtsSet2 =>
    have hmem2 := mem_keys_of_find? hset2
    rw [if_pos hmem2]
    exact ⟨Table.keys_enter_of_mem _ hmem _, rfl, Table.keys_enter_of_mem _ hmem2 _, rfl⟩

theorem joinDoc_spec (tables : PageTables) {recnum : ℤ} (hmem : recnum ∈ tables.merghash.keys) :
    (tables.joinDoc recnum).merghash.keys = tables.merghash.keys ∧
      (tables.joinDoc recnum).ht1.keys = tables.ht1.keys ∧
      (tables.joinDoc recnum).ht2.keys = tables.ht2.keys ∧
      (tables.joinDoc recnum).docWtsSet2 =
        if recnum ∈ tables.ht2.keys then some recnum else tables.docWtsSet2 := by
  obtain ⟨hmerge, hkeys1, hkeys2, hpointer⟩ := joinSet1_spec tables recnum
  have hmem' : recnum ∈ (tables.joinSet1 recnum).merghash.keys := hmerge ▸ hmem
  obtain ⟨hmerge', hkeys1', hkeys2', hpointer'⟩ := joinSet2_spec (tables.joinSet1 recnum) hmem'
    ((tables.merghash.find? recnum).getD PageSum.zero).numPages
  rw [hkeys2] at hkeys2' hpointer'
  rw [hpointer] at hpointer'
  exact ⟨hmerge'.trans hmerge, (congrArg Table.keys hkeys1').trans hkeys1, hkeys2', hpointer'⟩

theorem foldl_joinDoc_spec {records1 records2 : List ℤ} (records : List ℤ) {tables : PageTables}
    (h : tables.Keeps records1 records2) (hmem : ∀ record ∈ records, record ∈ tables.merghash.keys) :
    (records.foldl joinDoc tables).merghash.keys = tables.merghash.keys ∧
      (records.foldl joinDoc tables).Keeps records1 records2 ∧
      ((records.foldl joinDoc tables).docWtsSet2 ≠ none ↔
        tables.docWtsSet2 ≠ none ∨ ∃ record ∈ records, record ∈ records2) := by
  induction records generalizing tables with
  | nil => exact ⟨rfl, h, by simp⟩
  | cons record records ih =>
    obtain ⟨hrecord, hmem⟩ := List.forall_mem_cons.mp hmem
    obtain ⟨hmerge, hkeys1, hkeys2, hpointer⟩ := joinDoc_spec tables hrecord
    have hkeeps : (tables.joinDoc record).Keeps records1 records2 := by
      refine ⟨fun other ↦ hkeys1 ▸ h.keys1 other, fun other ↦ hkeys2 ▸ h.keys2 other, fun other hother ↦ ?_⟩
      rw [hpointer] at hother
      split_ifs at hother with hin
      · exact Option.some.inj hother ▸ (h.keys2 record).mp hin
      · exact h.pointer other hother
    obtain ⟨hmerge', hkeeps', hiff⟩ := ih hkeeps fun other hother ↦ hmerge.symm ▸ hmem other hother
    refine ⟨hmerge'.trans hmerge, hkeeps', hiff.trans ?_⟩
    simp only [hpointer, h.keys2 record]
    by_cases hin : record ∈ records2
    · simp [hin]
    · simp [hin]

theorem enterDoc_spec {records1 records2 : List ℤ} (h : tables.Keeps records1 records2) (recnum : ℤ) :
    (∀ record, record ∈ (tables.enterDoc recnum).merghash.keys ↔
        record = recnum ∨ record ∈ tables.merghash.keys) ∧
      (tables.enterDoc recnum).Keeps records1 records2 ∧
      ((tables.enterDoc recnum).docWtsSet2 ≠ none ↔ tables.docWtsSet2 ≠ none ∨ recnum ∈ records2) := by
  have hpointer : (tables.enterDoc recnum).docWtsSet2 =
      if recnum ∈ records2 then some recnum else tables.docWtsSet2 := by
    rw [enterDoc]
    simp only [isSome_find?_iff, h.keys2]
  refine ⟨fun record ↦ Table.mem_keys_enter _ _ _ _, ⟨?_, ?_, ?_⟩, ?_⟩
  · intro record
    rw [← h.keys1 record, ← keys_release tables.ht1 recnum]
    rfl
  · intro record
    rw [← h.keys2 record, ← keys_release tables.ht2 recnum]
    rfl
  · intro record hrecord
    rw [hpointer] at hrecord
    split_ifs at hrecord with hin
    · exact Option.some.inj hrecord ▸ hin
    · exact h.pointer record hrecord
  · rw [hpointer]
    by_cases hin : recnum ∈ records2
    · simp [hin]
    · simp [hin]

end PageTables

/-- The merged table has the records that the new set lists. -/
structure PageMerge.Lists (merge : PageMerge) (total : ℕ) (records1 records2 : List ℤ)
    (listed : List WeightedEntry) : Prop extends merge.tables.Keeps records1 records2 where
  filled : merge.newset.Filled total listed
  merged : ∀ record, record ∈ merge.tables.merghash.keys ↔ record ∈ listed.map WeightedEntry.recordNum

/-- `doc_wts_set2` points at something if a record of the second set is listed. -/
def PageMerge.Pointed (merge : PageMerge) (records2 : List ℤ) (listed : List WeightedEntry) : Prop :=
  merge.tables.docWtsSet2 ≠ none ↔ ∃ record ∈ listed.map WeightedEntry.recordNum, record ∈ records2

/-- The entries of new records are listed behind the others. -/
def listNew (listed entries : List WeightedEntry) : List WeightedEntry :=
  addNew WeightedEntry.recordNum listed entries

/-- How the loop over both sets ends: if it stops early, `maxresults` records are listed. -/
structure Ends (maxresults : ℤ) (total : ℕ) (records1 records2 : List ℤ) (listed : List WeightedEntry)
    (contest : Contest WeightedEntry) (paused : PausedMerge) : Prop where
  usedUp : (listNew listed contest.order).length < maxresults →
    paused.rest1 = contest.rest1 ∧ paused.rest2 = contest.rest2 ∧
      paused.merge.Lists total records1 records2 (listNew listed contest.order) ∧
      paused.merge.Pointed records2 (listNew listed contest.order)
  full : maxresults ≤ (listNew listed contest.order).length →
    paused.merge.newset.Filled total ((listNew listed contest.order).take maxresults.toNat)

section Loops

variable {total : ℕ} {records1 records2 : List ℤ} {listed : List WeightedEntry} {merge : PageMerge}

theorem map_concat (listed : List WeightedEntry) (entry : WeightedEntry) (record : ℤ) :
    record ∈ (listed ++ [entry]).map WeightedEntry.recordNum ↔
      record = entry.recordNum ∨ record ∈ listed.map WeightedEntry.recordNum := by
  rw [List.map_append, List.mem_append, List.map_singleton, List.mem_singleton, or_comm]

variable {entries : List WeightedEntry}

theorem copyEntries_spec {newset : NewSet} (h : newset.Filled total listed)
    (hle : listed.length + entries.length ≤ total) :
    ∃ newset', copyEntries entries newset = .ok newset' ∧ newset'.Filled total (listed ++ entries) := by
  induction entries generalizing newset listed with
  | nil => exact ⟨newset, rfl, by rwa [List.append_nil]⟩
  | cons entry entries ih =>
    rw [List.length_cons] at hle
    obtain ⟨between, hput, hbetween⟩ := h.put (by omega) entry
    obtain ⟨newset', hrun, hfilled⟩ := ih hbetween (by rw [List.length_append, List.length_singleton]; omega)
    refine ⟨newset', ?_, ?_⟩
    · rw [copyEntries, hput]
      exact hrun
    · rwa [List.append_assoc, List.singleton_append] at hfilled

theorem PageMerge.Lists.find?_eq_none (h : merge.Lists total records1 records2 listed) {record : ℤ}
    (hnew : record ∉ listed.map WeightedEntry.recordNum) : merge.tables.merghash.find? record = none :=
  (Table.find?_eq_none_iff _ record).mpr fun hmem ↦ hnew ((h.merged record).mp hmem)

theorem PageMerge.Lists.exists_find? (h : merge.Lists total records1 records2 listed) {record : ℤ}
    (hold : record ∈ listed.map WeightedEntry.recordNum) :
    ∃ docWts, merge.tables.merghash.find? record = some docWts :=
  PageTables.exists_find? ((h.merged record).mpr hold)

variable {entry : WeightedEntry}

theorem takeEntry_of_mem (h : merge.Lists total records1 records2 listed)
    (hold : entry.recordNum ∈ listed.map WeightedEntry.recordNum) :
    takeEntry entry merge = .ok merge := by
  obtain ⟨docWts, hfind⟩ := h.exists_find? hold
  rw [takeEntry, hfind]

theorem takeEntry_of_notMem (h : merge.Lists total records1 records2 listed)
    (hpointed : merge.Pointed records2 listed) (hlt : listed.length < total)
    (hnew : entry.recordNum ∉ listed.map WeightedEntry.recordNum) :
    ∃ merge', takeEntry entry merge = .ok merge' ∧
      merge'.Lists total records1 records2 (listed ++ [entry]) ∧
      merge'.Pointed records2 (listed ++ [entry]) := by
  obtain ⟨newset, hput, hfilled⟩ := h.filled.put hlt entry
  obtain ⟨hmerged, hkeeps, hpointer⟩ := PageTables.enterDoc_spec h.toKeeps entry.recordNum
  refine ⟨⟨newset, merge.tables.enterDoc entry.recordNum⟩, ?_, ⟨hkeeps, hfilled, fun record ↦ ?_⟩, ?_⟩
  · rw [takeEntry, h.find?_eq_none hnew, hput]
    rfl
  · rw [map_concat, ← h.merged record]
    exact hmerged record
  · refine hpointer.trans ((or_congr_left hpointed).trans ?_)
    simp only [map_concat, or_and_right, exists_or, exists_eq_left]
    exact or_comm

theorem Ends.cons {maxresults : ℤ} {entry : WeightedEntry} {contest : Contest WeightedEntry}
    {next : PageMerge → Exec PausedMerge} (hmax : maxresults ≤ total)
    (hnext : ∀ (merge : PageMerge) (listed : List WeightedEntry), merge.Lists total records1 records2 listed →
      merge.Pointed records2 listed → listed.length ≤ maxresults →
      ∃ paused, next merge = .ok paused ∧ Ends maxresults total records1 records2 listed contest paused)
    (h : merge.Lists total records1 records2 listed) (hpointed : merge.Pointed records2 listed)
    (hlt : listed.length < maxresults) :
    ∃ paused, (takeEntry entry merge >>= next) = .ok paused ∧
      Ends maxresults total records1 records2 listed (contest.cons entry) paused := by
  by_cases hold : entry.recordNum ∈ listed.map WeightedEntry.recordNum
  · have hsame : listNew listed (contest.cons entry).order = listNew listed contest.order :=
      addNew_cons_of_mem hold _
    obtain ⟨paused, hrun, hends⟩ := hnext merge listed h hpointed hlt.le
    rw [takeEntry_of_mem h hold]
    exact ⟨paused, hrun, hsame ▸ hends.usedUp, hsame ▸ hends.full⟩
  · have hsame : listNew listed (contest.cons entry).order = listNew (listed ++ [entry]) contest.order :=
      addNew_cons_of_notMem hold _
    obtain ⟨merge', htake, hlists, hpointed'⟩ := takeEntry_of_notMem h hpointed (by omega) hold
    obtain ⟨paused, hrun, hends⟩ := hnext merge' (listed ++ [entry]) hlists hpointed' (by
      rw [List.length_append, List.length_singleton]
      omega)
    rw [htake]
    exact ⟨paused, hrun, hsame ▸ hends.usedUp, hsame ▸ hends.full⟩

variable {maxresults : ℤ}

theorem Ends.stop {contest : Contest WeightedEntry} {paused : PausedMerge}
    (h : paused.merge.Lists total records1 records2 listed) (hlength : listed.length = maxresults) :
    Ends maxresults total records1 records2 listed contest paused := by
  have hpre : listed <+: listNew listed contest.order := prefix_addNew listed contest.order
  have hle := hpre.length_le
  refine ⟨fun hlt ↦ absurd hlt (by omega), fun _ ↦ ?_⟩
  rw [← hlength, Int.toNat_natCast, ← List.prefix_iff_eq_take.mp hpre]
  exact h.filled

theorem mergeEntries_ends (hmax : maxresults ≤ total) (entries1 entries2 : List WeightedEntry)
    {merge : PageMerge} {listed : List WeightedEntry}
    (h : merge.Lists total records1 records2 listed) (hpointed : merge.Pointed records2 listed)
    (hle : listed.length ≤ maxresults) :
    ∃ paused, mergeEntries maxresults entries1 entries2 merge = .ok paused ∧
      Ends maxresults total records1 records2 listed (contest set1First entries1 entries2) paused := by
  induction entries1, entries2 using contest.induct set1First generalizing merge listed with
  | case1 entry1 entries1 entry2 entries2 hfirst ih =>
    rw [mergeEntries, h.filled.index_eq, contest, if_pos hfirst, if_pos hfirst]
    by_cases hlt : (listed.length : ℤ) < maxresults
    · rw [if_pos hlt]
      exact Ends.cons hmax (fun _ _ ↦ ih) h hpointed hlt
    · rw [if_neg hlt]
      exact ⟨_, rfl, Ends.stop h (by omega)⟩
  | case2 entry1 entries1 entry2 entries2 hfirst ih =>
    rw [mergeEntries, h.filled.index_eq, contest, if_neg hfirst, if_neg hfirst]
    by_cases hlt : (listed.length : ℤ) < maxresults
    · rw [if_pos hlt]
      exact Ends.cons hmax (fun _ _ ↦ ih) h hpointed hlt
    · rw [if_neg hlt]
      exact ⟨_, rfl, Ends.stop h (by omega)⟩
  | case3 entries1 entries2 hend =>
    rw [mergeEntries.eq_2 _ _ _ _ hend, contest.eq_2 _ _ _ hend]
    refine ⟨_, rfl, fun _ ↦ ⟨rfl, rfl, h, hpointed⟩, fun hfull ↦ ?_⟩
    have hlength : listed.length = maxresults := le_antisymm hle hfull
    have hstop : Ends maxresults total records1 records2 listed ⟨[], entries1, entries2⟩
        ⟨entries1, entries2, merge⟩ := Ends.stop h hlength
    exact hstop.full hfull

theorem length_lt_of_listNew
    (h : (listNew (listed ++ [entry]) entries).length ≤ total) : listed.length < total := by
  have hpre : listed ++ [entry] <+: listNew (listed ++ [entry]) entries := prefix_addNew _ entries
  have hle := hpre.length_le
  rw [List.length_append, List.length_singleton] at hle
  omega

theorem PageMerge.Lists.load (h : merge.Lists total records1 records2 listed) {newset : NewSet}
    (hfilled : newset.Filled total (listed ++ [entry])) (tables : PageTables)
    (hkeeps : tables.Keeps records1 records2) {docWts : PageSum}
    (hmerghash : tables.merghash = merge.tables.merghash.enter entry.recordNum docWts) :
    PageMerge.Lists ⟨newset, tables⟩ total records1 records2 (listed ++ [entry]) where
  toKeeps := hkeeps
  filled := hfilled
  merged record := by
    rw [map_concat, ← h.merged record]
    change record ∈ tables.merghash.keys ↔ _
    rw [hmerghash, Table.mem_keys_enter]

theorem loadRest1_spec (hmem : ∀ entry ∈ entries, entry.recordNum ∈ records1) {merge : PageMerge}
    {listed : List WeightedEntry} (h : merge.Lists total records1 records2 listed) :
    (∀ merge', loadRest1 entries merge = .ok merge' → merge'.newset.Filled total (listNew listed entries)) ∧
      ((listNew listed entries).length ≤ total → ∃ merge', loadRest1 entries merge = .ok merge') := by
  induction entries generalizing merge listed with
  | nil =>
    refine ⟨fun merge' hrun ↦ ?_, fun _ ↦ ⟨merge, rfl⟩⟩
    rw [← Except.ok.inj hrun]
    exact h.filled
  | cons entry entries ih =>
    obtain ⟨hentry, hmem⟩ := List.forall_mem_cons.mp hmem
    rw [loadRest1]
    by_cases hold : entry.recordNum ∈ listed.map WeightedEntry.recordNum
    · obtain ⟨docWts, hfind⟩ := h.exists_find? hold
      rw [hfind, listNew, addNew_cons_of_mem hold]
      exact ih hmem h
    · obtain ⟨docWts, hset1⟩ := PageTables.exists_find? ((h.keys1 _).mpr hentry)
      have hkeys := Table.keys_enter_of_mem merge.tables.ht1 ((h.keys1 _).mpr hentry) docWts.disconnect
      have hnext {newset : NewSet} (hfilled : newset.Filled total (listed ++ [entry])) :=
        ih hmem (h.load hfilled
          { merge.tables with
            merghash := merge.tables.merghash.enter entry.recordNum docWts
            ht1 := merge.tables.ht1.enter entry.recordNum docWts.disconnect }
          ⟨fun record ↦ hkeys ▸ h.keys1 record, h.keys2, h.pointer⟩ rfl)
      rw [h.find?_eq_none hold, hset1, listNew, addNew_cons_of_notMem hold]
      constructor
      · intro merge' hrun
        obtain ⟨newset, hput, hrun⟩ := bind_eq_ok.mp hrun
        exact (hnext (h.filled.of_put hput)).1 merge' hrun
      · intro hroom
        have hlt := length_lt_of_listNew hroom
        obtain ⟨newset, hput, hfilled⟩ := h.filled.put hlt entry
        obtain ⟨merge', hrun⟩ := (hnext hfilled).2 hroom
        refine ⟨merge', ?_⟩
        rw [hput]
        exact hrun

theorem loadRest2_spec (hmem : ∀ entry ∈ entries, entry.recordNum ∈ records2) {merge : PageMerge}
    {listed : List WeightedEntry} (h : merge.Lists total records1 records2 listed) :
    (∀ merge', loadRest2 entries merge = .ok merge' → merge'.newset.Filled total (listNew listed entries)) ∧
      (merge.tables.docWtsSet2 ≠ none → (listNew listed entries).length ≤ total →
        ∃ merge', loadRest2 entries merge = .ok merge') := by
  induction entries generalizing merge listed with
  | nil =>
    refine ⟨fun merge' hrun ↦ ?_, fun _ _ ↦ ⟨merge, rfl⟩⟩
    rw [← Except.ok.inj hrun]
    exact h.filled
  | cons entry entries ih =>
    obtain ⟨hentry, hmem⟩ := List.forall_mem_cons.mp hmem
    rw [loadRest2]
    by_cases hold : entry.recordNum ∈ listed.map WeightedEntry.recordNum
    · obtain ⟨docWts, hfind⟩ := h.exists_find? hold
      rw [hfind, listNew, addNew_cons_of_mem hold]
      exact ih hmem h
    · obtain ⟨docWts, hset2⟩ := PageTables.exists_find? ((h.keys2 _).mpr hentry)
      rw [h.find?_eq_none hold, hset2, listNew, addNew_cons_of_notMem hold]
      cases hpointer : merge.tables.docWtsSet2 with
      | none =>
        refine ⟨fun merge' hrun ↦ ?_, fun hne ↦ absurd rfl hne⟩
        obtain ⟨newset, -, hrun⟩ := bind_eq_ok.mp hrun
        cases hrun
      | some record =>
        have hrecord : record ∈ merge.tables.ht2.keys := (h.keys2 record).mpr (h.pointer record hpointer)
        obtain ⟨stale, hstale⟩ := PageTables.exists_find? hrecord
        have hkeys := Table.keys_enter_of_mem merge.tables.ht2 hrecord stale.disconnect
        have hnext {newset : NewSet} (hfilled : newset.Filled total (listed ++ [entry])) :=
          ih hmem (h.load hfilled
            { merge.tables with
              merghash := merge.tables.merghash.enter entry.recordNum stale
              ht2 := merge.tables.ht2.enter record stale.disconnect }
            ⟨h.keys1, fun record ↦ hkeys ▸ h.keys2 record, h.pointer⟩ rfl)
        constructor
        · intro merge' hrun
          obtain ⟨newset, hput, hrun⟩ := bind_eq_ok.mp hrun
          obtain ⟨found, hfound, hrun⟩ := bind_eq_ok.mp hrun
          rw [hstale] at hfound
          cases hfound
          exact (hnext (h.filled.of_put hput)).1 merge' hrun
        · intro _ hroom
          have hlt := length_lt_of_listNew hroom
          obtain ⟨newset, hput, hfilled⟩ := h.filled.put hlt entry
          obtain ⟨merge', hrun⟩ := (hnext hfilled).2 (by rw [hpointer]; exact Option.some_ne_none record) hroom
          refine ⟨merge', ?_⟩
          rw [hput]
          change (deref (merge.tables.ht2.find? record) >>= _) = _
          rw [hstale]
          exact hrun

/-- Something of the second set is listed before its rest is loaded. -/
def ReadsRest (records2 : List ℤ) (listed rest2 : List WeightedEntry) : Prop :=
  rest2 = [] ∨ ∃ record ∈ listed.map WeightedEntry.recordNum, record ∈ records2

theorem loadRests_spec {rest1 rest2 : List WeightedEntry} (hmem1 : ∀ entry ∈ rest1, entry.recordNum ∈ records1)
    (hmem2 : ∀ entry ∈ rest2, entry.recordNum ∈ records2) (hused : rest1 = [] ∨ rest2 = [])
    (h : merge.Lists total records1 records2 listed) (hpointed : merge.Pointed records2 listed) :
    (∀ merge', (loadRest1 rest1 merge >>= loadRest2 rest2) = .ok merge' →
        merge'.newset.Filled total (listNew listed (rest1 ++ rest2)) ∧ ReadsRest records2 listed rest2) ∧
      (ReadsRest records2 listed rest2 → (listNew listed (rest1 ++ rest2)).length ≤ total →
        ∃ merge', (loadRest1 rest1 merge >>= loadRest2 rest2) = .ok merge') := by
  by_cases hrest2 : rest2 = []
  · subst hrest2
    obtain ⟨hfilled, hroom⟩ := loadRest1_spec hmem1 h
    rw [List.append_nil]
    constructor
    · intro merge' hrun
      obtain ⟨between, hbetween, hrun⟩ := bind_eq_ok.mp hrun
      rw [← Except.ok.inj hrun]
      exact ⟨hfilled between hbetween, Or.inl rfl⟩
    · intro _ hle
      obtain ⟨between, hbetween⟩ := hroom hle
      exact ⟨between, by rw [hbetween]; rfl⟩
  · obtain rfl := hused.resolve_right hrest2
    obtain ⟨hfilled, hroom⟩ := loadRest2_spec hmem2 h
    change (∀ merge', loadRest2 rest2 merge = .ok merge' → _) ∧ (_ → _ → ∃ merge', loadRest2 rest2 merge = .ok merge')
    constructor
    · intro merge' hrun
      refine ⟨hfilled merge' hrun, Or.inr (hpointed.mp fun hnone ↦ ?_)⟩
      obtain ⟨entry, entries, rfl⟩ := List.exists_cons_of_ne_nil hrest2
      have hentry := hmem2 entry List.mem_cons_self
      have hnew : entry.recordNum ∉ listed.map WeightedEntry.recordNum :=
        fun hold ↦ hpointed.mpr ⟨entry.recordNum, hold, hentry⟩ hnone
      obtain ⟨docWts, hset2⟩ := PageTables.exists_find? ((h.keys2 _).mpr hentry)
      rw [loadRest2, h.find?_eq_none hnew, hset2, hnone] at hrun
      obtain ⟨newset, -, hrun⟩ := bind_eq_ok.mp hrun
      cases hrun
    · intro hreads hle
      exact hroom (hpointed.mpr (hreads.resolve_left hrest2)) hle

/-- There is room: the loop over both sets fills the new set, or the rests fit into it and are read well. -/
def Fits (maxresults : ℤ) (listed docs1 docs2 : List WeightedEntry) : Prop :=
  listed.length ≤ maxresults ∧
    (maxresults ≤ (listNew listed (contest set1First docs1 docs2).order).length ∨
      (listNew listed (contest set1First docs1 docs2).all).length ≤ maxresults ∧
        ReadsRest (docs2.map WeightedEntry.recordNum) (listNew listed (contest set1First docs1 docs2).order)
          (contest set1First docs1 docs2).rest2)

/-- The entries that are listed then. -/
def entriesListed (maxresults : ℤ) (listed docs1 docs2 : List WeightedEntry) : List WeightedEntry :=
  (listNew listed (contest set1First docs1 docs2).all).take maxresults.toNat

theorem listNew_all (listed : List WeightedEntry) (contest : Contest WeightedEntry) :
    listNew listed contest.all = listNew (listNew listed contest.order) (contest.rest1 ++ contest.rest2) :=
  addNew_append listed contest.order (contest.rest1 ++ contest.rest2)

/-- With room the loops list the entries; without they list more than `maxresults`, if they end at all. -/
theorem loadEntries_spec (hmax : maxresults ≤ total) {docs1 docs2 : List WeightedEntry}
    (h : merge.Lists total (docs1.map WeightedEntry.recordNum) (docs2.map WeightedEntry.recordNum) listed)
    (hpointed : merge.Pointed (docs2.map WeightedEntry.recordNum) listed)
    (hle : listed.length ≤ maxresults) :
    (Fits maxresults listed docs1 docs2 → ∃ merge', loadEntries maxresults docs1 docs2 merge = .ok merge' ∧
        merge'.newset.Filled total (entriesListed maxresults listed docs1 docs2)) ∧
      (¬Fits maxresults listed docs1 docs2 → ∀ merge', loadEntries maxresults docs1 docs2 merge = .ok merge' →
        maxresults < merge'.newset.index) := by
  obtain ⟨paused, hrun, hends⟩ := mergeEntries_ends hmax docs1 docs2 h hpointed hle
  have hload : loadEntries maxresults docs1 docs2 merge =
      if paused.merge.newset.index < maxresults then loadRest1 paused.rest1 paused.merge >>= loadRest2 paused.rest2
      else .ok paused.merge := by
    rw [loadEntries, hrun]
    rfl
  by_cases hfull : maxresults ≤ (listNew listed (contest set1First docs1 docs2).order).length
  · -- the new set is full
    have hfilled := hends.full hfull
    have hpre : listNew listed (contest set1First docs1 docs2).order <+:
        listNew listed (contest set1First docs1 docs2).all := by
      rw [listNew_all]
      exact prefix_addNew _ _
    have hindex : ¬(paused.merge.newset.index : ℤ) < maxresults := by
      rw [hfilled.index_eq, List.length_take]
      omega
    rw [hload, if_neg hindex]
    refine ⟨fun _ ↦ ⟨_, rfl, ?_⟩, fun hnot ↦ absurd ⟨hle, Or.inl hfull⟩ hnot⟩
    obtain ⟨more, hmore⟩ := hpre
    rw [entriesListed, ← hmore, List.take_append_of_le_length (by omega)]
    exact hfilled
  · obtain ⟨hrest1, hrest2, hlists, hpointed'⟩ := hends.usedUp (not_le.mp hfull)
    rw [hload, if_pos (by rw [hlists.filled.index_eq]; exact not_le.mp hfull), hrest1, hrest2]
    obtain ⟨hsuffix1, hsuffix2⟩ := contest_suffix set1First docs1 docs2
    have hspec := loadRests_spec (fun entry hmem ↦ List.mem_map_of_mem (hsuffix1.subset hmem))
      (fun entry hmem ↦ List.mem_map_of_mem (hsuffix2.subset hmem)) (contest_used_up _ _ _) hlists hpointed'
    rw [← listNew_all] at hspec
    constructor
    · rintro ⟨-, hmany | ⟨hfew, hreads⟩⟩
      · exact absurd hmany hfull
      · obtain ⟨merge', hmerge'⟩ := hspec.2 hreads (by omega)
        refine ⟨merge', hmerge', ?_⟩
        rw [entriesListed, List.take_of_length_le (by omega)]
        exact (hspec.1 merge' hmerge').1
    · intro hnot merge' hmerge'
      obtain ⟨hfilled, hreads⟩ := hspec.1 merge' hmerge'
      rw [hfilled.index_eq]
      by_contra hfew
      exact hnot ⟨hle, Or.inr ⟨not_lt.mp hfew, hreads⟩⟩

end Loops

end Cheshire.Search
