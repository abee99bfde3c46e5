import Cheshire.Search.PageDocs
import Cheshire.Lib.RankedChoice

/-!
# Merging page sets

`se_pagemerge` merges two ranked sets of pages into a set of documents.  The documents of the pages that
both sets have come first, then those of the two sets as far as there is room for them.  The data of the
pages is collected in a table of its own.
-/

namespace Cheshire.Search

open Lib Lib.RankedChoice

/-- `struct docsum` with the list of its pages -/
structure PageSum where
  numPages : ℤ
  sumWts : ℚ
  pages : List PageItem

def PageSum.of (docWts : DocSum) : PageSum := ⟨docWts.pages.length, docWts.sumWts, docWts.pages⟩

/-- `CALLOC(struct docsum,1)` -/
def PageSum.zero : PageSum := ⟨0, 0, []⟩

/-- `page_ptr = NULL` -/
def PageSum.disconnect (docWts : PageSum) : PageSum := { docWts with pages := [] }

/-- The hash tables, and the record whose entry in `ht2` the pointer `doc_wts_set2` is at. -/
structure PageTables where
  merghash : Table ℤ PageSum
  ht1 : Table ℤ PageSum
  ht2 : Table ℤ PageSum
  docWtsSet2 : Option ℤ

namespace PageTables

variable (tables : PageTables) (recnum : ℤ)

/-- The data of the first set for a document that both sets have. -/
def joinSet1 : PageTables :=
  match tables.merghash.find? recnum, tables.ht1.find? recnum with
  | some docWtsMerge, some docWtsSet1 =>
    { tables with
      merghash := tables.merghash.enter recnum
        ⟨docWtsSet1.numPages, docWtsMerge.sumWts + docWtsSet1.sumWts, docWtsMerge.pages ++ docWtsSet1.pages⟩
      ht1 := tables.ht1.enter recnum docWtsSet1.disconnect }
  | _, _ => tables

/-- The data of the second one, without the pages that are in both. -/
def joinSet2 (mergPages : ℤ) : PageTables :=
  match tables.merghash.find? recnum, tables.ht2.find? recnum with
  | some docWtsMerge, some docWtsSet2 =>
    { tables with
      merghash := tables.merghash.enter recnum
        ⟨docWtsMerge.numPages + (docWtsSet2.numPages - mergPages), docWtsMerge.sumWts + docWtsSet2.sumWts,
          docWtsMerge.pages ++ docWtsSet2.pages⟩
      ht2 := tables.ht2.enter recnum docWtsSet2.disconnect
      docWtsSet2 := some recnum }
  | _, _ => tables

def joinDoc : PageTables :=
  let mergPages := ((tables.merghash.find? recnum).getD PageSum.zero).numPages
  (tables.joinSet1 recnum).joinSet2 recnum mergPages

/-- The loop over the entries of `merghash` -/
def joinDocs (tables : PageTables) : PageTables :=
  ((hashEntries tables.merghash).map Prod.fst).foldl joinDoc tables

/-- The data of a document that one of the tables has, unless its pages are already merged. -/
def collect (docWtsMerge : PageSum) : Option PageSum → PageSum
  | some docWts =>
    if docWts.pages = [] then docWtsMerge
    else ⟨docWtsMerge.numPages + docWts.numPages, docWtsMerge.sumWts + docWts.sumWts,
      docWtsMerge.pages ++ docWts.pages⟩
  | none => docWtsMerge

/-- Its pages are disconnected. -/
def release (table : Table ℤ PageSum) (recnum : ℤ) : Table ℤ PageSum :=
  match table.find? recnum with
  | some docWts => table.enter recnum docWts.disconnect
  | none => table

/-- A new entry in `merghash` with the data of both sets. -/
def enterDoc : PageTables where
  merghash := tables.merghash.enter recnum
    (collect (collect PageSum.zero (tables.ht1.find? recnum)) (tables.ht2.find? recnum))
  ht1 := release tables.ht1 recnum
  ht2 := release tables.ht2 recnum
  docWtsSet2 := if (tables.ht2.find? recnum).isSome then some recnum else tables.docWtsSet2

end PageTables

/-- The new set and the tables -/
structure PageMerge where
  newset : NewSet
  tables : PageTables

/-- The entries `i1` and `i2` on, when a loop ends. -/
structure PausedMerge where
  rest1 : List WeightedEntry
  rest2 : List WeightedEntry
  merge : PageMerge

/-- `newset->entries[i] = merged_docs_AND->entries[i]` -/
def copyEntries : List WeightedEntry → NewSet → Exec NewSet
  | [], newset => .ok newset
  | entry :: entries, newset => do
    let newset ← newset.put entry
    copyEntries entries newset

/-- An entry is put into the new set if there is none for its record. -/
def takeEntry (entry : WeightedEntry) (merge : PageMerge) : Exec PageMerge :=
  match merge.tables.merghash.find? entry.recordNum with
  | none => do
    let newset ← merge.newset.put entry
    .ok ⟨newset, merge.tables.enterDoc entry.recordNum⟩
  | some _ => .ok merge

/-- `set1->entries[i1].weight > set2->entries[i2].record_num` -/
def set1First (entry1 entry2 : WeightedEntry) : Bool := decide (entry1.weight > entry2.recordNum)

/-- `while ((i1 < set1->num_hits) && (i2 < set2->num_hits) && (i < maxresults))` -/
def mergeEntries (maxresults : ℤ) : List WeightedEntry → List WeightedEntry → PageMerge → Exec PausedMerge
  | entry1 :: entries1, entry2 :: entries2, merge =>
    if merge.newset.index < maxresults then
      if set1First entry1 entry2 then do
        let merge ← takeEntry entry1 merge
        mergeEntries maxresults entries1 (entry2 :: entries2) merge
      else do
        let merge ← takeEntry entry2 merge
        mergeEntries maxresults (entry1 :: entries1) entries2 merge
    else .ok ⟨entry1 :: entries1, entry2 :: entries2, merge⟩
  | entries1, entries2, merge => .ok ⟨entries1, entries2, merge⟩
termination_by entries1 entries2 => entries1.length + entries2.length

/-- `while (i1 < set1->num_hits)`; without an entry in `ht1` the index stays. -/
def loadRest1 : List WeightedEntry → PageMerge → Exec PageMerge
  | [], merge => .ok merge
  | entry :: entries, merge =>
    match merge.tables.merghash.find? entry.recordNum with
    | some _ => loadRest1 entries merge
    | none =>
      match merge.tables.ht1.find? entry.recordNum with
      | none => .error .unfinished
      | some docWtsSet1 => do
        let newset ← merge.newset.put entry
        loadRest1 entries
          ⟨newset, { merge.tables with
            merghash := merge.tables.merghash.enter entry.recordNum docWtsSet1
            ht1 := merge.tables.ht1.enter entry.recordNum docWtsSet1.disconnect }⟩

/-- `while (i2 < set2->num_hits)`; the data comes from where `doc_wts_set2` was left. -/
def loadRest2 : List WeightedEntry → PageMerge → Exec PageMerge
  | [], merge => .ok merge
  | entry :: entries, merge =>
    match merge.tables.merghash.find? entry.recordNum with
    | some _ => loadRest2 entries merge
    | none =>
      match merge.tables.ht2.find? entry.recordNum with
      | none => .error .unfinished
      | some _ => do
        let newset ← merge.newset.put entry
        match merge.tables.docWtsSet2 with
        | none => .error .uninitialized
        | some recnum => do
          let docWtsSet2 ← deref (merge.tables.ht2.find? recnum)
          loadRest2 entries
            ⟨newset, { merge.tables with
              merghash := merge.tables.merghash.enter entry.recordNum docWtsSet2
              ht2 := merge.tables.ht2.enter recnum docWtsSet2.disconnect }⟩

/-- The documents of the pages in both sets, and those of each set, with their tables. -/
structure PageSets where
  mergedDocs : WeightedResult × Table ℤ DocSum
  set1 : WeightedResult × Table ℤ DocSum
  set2 : WeightedResult × Table ℤ DocSum

/-- The sets as `se_andmerge` leaves them: it sorts the ranked ones that it merges itself. -/
def setsAfterAnd (callees : MergeCallees) (inset1 inset2 : WeightedResult) :
    WeightedResult × WeightedResult :=
  if inset1.has VIRTUAL_RESULT || inset2.has VIRTUAL_RESULT || inset1.has BITMAP_RESULT ||
      inset2.has BITMAP_RESULT then (inset1, inset2)
  else if sameComponent inset1 inset2 then (inRecordOrder callees inset1, inRecordOrder callees inset2)
  else if inset1.has COMPONENT_RESULT then (inset1, inRecordOrder callees inset2)
  else if inset2.has COMPONENT_RESULT then (inRecordOrder callees inset1, inset2)
  else (inRecordOrder callees inset1, inRecordOrder callees inset2)

/-- The AND of the sets, if it has pages, and the documents. -/
def pageSets (callees : MergeCallees) (maps : PageMaps) (inset1 inset2 : WeightedResult)
    (buffers : List PageInfoBuffer) : Exec (Option PageSets × List PageInfoBuffer) := do
  let mergedConcepts ← deref (← seAndmerge callees (some inset1) (some inset2))
  if mergedConcepts.numHits = 0 then .ok (none, buffers)
  else do
    let insets := setsAfterAnd callees inset1 inset2
    let mergedDocs ← seGetPageDocs maps (some mergedConcepts) 0 buffers
    let docs1 ← seGetPageDocs maps (some insets.1) 1 mergedDocs.2
    let docs2 ← seGetPageDocs maps (some insets.2) 2 docs1.2
    -- without documents there is no table, which is read at once
    let mergedDocs ← deref mergedDocs.1
    let set1 ← deref docs1.1
    let set2 ← deref docs2.1
    .ok (some ⟨mergedDocs, set1, set2⟩, docs2.2)

/-- The loops over the documents of the sets -/
def loadEntries (maxresults : ℤ) (entries1 entries2 : List WeightedEntry) (merge : PageMerge) :
    Exec PageMerge := do
  let paused ← mergeEntries maxresults entries1 entries2 merge
  if paused.merge.newset.index < maxresults then do
    let merge ← loadRest1 paused.rest1 paused.merge
    loadRest2 paused.rest2 merge
  else .ok paused.merge

/-- The new set with its header, which is first that of the AND. -/
def PageMerge.finish (merge : PageMerge) (mergedDocs : WeightedResult) (filename : String) : WeightedResult :=
  seRankDocs
    { mergedDocs with
      setid := ""
      filename := filename
      resultType := PAGED_DOC_RESULT ||| PROBABILISTIC_RESULT
      numHits := merge.newset.index
      entries := merge.newset.cells }

/-- The tables of the sets, with the data of the documents of the AND joined. -/
def PageSets.tables (sets : PageSets) : PageTables :=
  PageTables.joinDocs
    ⟨sets.mergedDocs.2.mapValues PageSum.of, sets.set1.2.mapValues PageSum.of,
      sets.set2.2.mapValues PageSum.of, none⟩

/-- The documents of both sets behind those of the AND. -/
def mergePageSets (maxresults : ℤ) (filename : String) (sets : PageSets) :
    Exec (WeightedResult × Table ℤ PageSum) :=
  if sets.mergedDocs.1.numHits ≥ maxresults then .ok (sets.mergedDocs.1, sets.tables.merghash)
  else do
    let newset ← copyEntries sets.mergedDocs.1.hits (NewSet.alloc (maxresults + 1).toNat)
    let merge ← loadEntries maxresults sets.set1.1.hits sets.set2.1.hits ⟨newset, sets.tables⟩
    .ok (merge.finish sets.mergedDocs.1 filename, merge.tables.merghash)

/-- `se_pagemerge`: the merged set with its table, and the page buffers. -/
def sePagemerge (callees : MergeCallees) (maps : PageMaps) (maxresults : ℤ)
    (inset1 inset2 : Option WeightedResult) (buffers : List PageInfoBuffer) :
    Exec (Option (WeightedResult × Table ℤ PageSum) × List PageInfoBuffer) :=
  match inset1, inset2 with
  | some inset1, some inset2 =>
    if inset1.has PAGED_RESULT && inset2.has PAGED_RESULT then do
      let sets ← pageSets callees maps inset1 inset2 buffers
      match sets.1 with
      | none => .ok (none, sets.2)
      | some found => do
        let merged ← mergePageSets maxresults inset1.filename found
        .ok (some merged, sets.2)
    else .ok (none, buffers)
  | _, _ => .ok (none, buffers)

end Cheshire.Search
