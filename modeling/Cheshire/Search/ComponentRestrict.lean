import Cheshire.Search.ComponentDocuments

/-!
# Restricting a component set to documents

`se_component_doc_restrict` looks up the component range of each document and copies the entries
of the component set that lie in it.  The range is read through a pointer that is set at the first
document found in the component file, so that before it there is nothing to read.
-/

namespace Cheshire.Search

open Lib Lib.SortedMerge
open Index (ComponentKey ComponentDataItem ComponentListEntry)

/-- The replies of `comp_db->get`. -/
inductive DbReply where
  | found (item : ComponentDataItem)
  | notFound
  | failed

/-- `comp_data` after a lookup; `none` while the pointer is not set.  A document without an entry
clears the offsets of `return_data`, to which the pointer may already lead. -/
def lookUp (compData : Option ComponentDataItem) : DbReply → Option (Option ComponentDataItem)
  | .found item => some (some item)
  | .notFound => some (compData.map fun item ↦ { item with startOffset := 0, endOffset := 0 })
  | .failed => none

/-- `for (j = 0; j < compset->num_hits; j++)`; the result is the block and `hitcount`. -/
def copyComponents (compset : WeightedResult) (minval maxval : ℤ) :
    List ℕ → List WeightedEntry → ℕ → Exec (List WeightedEntry × ℕ)
  | [], cells, hitcount => .ok (cells, hitcount)
  | j :: js, cells, hitcount => do
    let entry ← compset.entryAt j
    if entry.recordNum ≥ minval ∧ entry.recordNum ≤ maxval then do
      let cells ← storeDoc cells hitcount entry.recordNum entry.weight
      copyComponents compset minval maxval js cells (hitcount + 1)
    else copyComponents compset minval maxval js cells hitcount

/-- `for (i = 0; i < docset->num_hits; i++)`; there is no result when the component file fails. -/
def restrictLoop (get : ComponentKey → DbReply) (compset docset : WeightedResult) :
    List ℕ → Option ComponentDataItem → List WeightedEntry → ℕ →
      Exec (Option (List WeightedEntry × ℕ))
  | [], _, cells, hitcount => .ok (some (cells, hitcount))
  | i :: is, compData, cells, hitcount => do
    let document ← docset.entryAt i
    match lookUp compData (get (.doc document.recordNum)) with
    | none => .ok none
    | some none => .error .uninitialized
    | some (some range) => do
      let (cells, hitcount) ← copyComponents compset range.startOffset range.endOffset
        (List.range compset.numHits.toNat) cells hitcount
      restrictLoop get compset docset is (some range) cells hitcount

def restrictedSet (compset : WeightedResult) (cells : List WeightedEntry) (hitcount : ℕ) :
    WeightedResult where
  setid := ""
  filename := compset.filename
  resultType := compset.resultType
  component := compset.component
  termid := compset.termid
  numHits := hitcount
  resultWeight := 0
  maxWeight := 0
  minWeight := 0
  entries := cells

/-- `get` reads the file of a component definition. -/
def seComponentDocRestrict (get : ℕ → ComponentKey → DbReply) (inset1 inset2 : WeightedResult) :
    Exec (Option WeightedResult) := do
  let compset := if inset1.has COMPONENT_RESULT then inset1 else inset2
  let docset := if inset1.has COMPONENT_RESULT then inset2 else inset1
  let comp ← deref compset.component
  let size := compset.numHits.toNat + 2
  match ← restrictLoop (get comp) compset docset (List.range docset.numHits.toNat) none
    (Buffer.calloc WeightedEntry.zero size) 0 with
  | none => .ok none
  | some (cells, hitcount) => .ok (some (restrictedSet compset cells hitcount))

section Loops

variable {compset docset : WeightedResult} {size : ℕ} {cells out : List WeightedEntry}

theorem copyComponents_spec (halloc : compset.Allocated) (minval maxval : ℤ) (k j : ℕ)
    (hjk : j + k = compset.numHits.toNat) (hholds : Buffer.Holds WeightedEntry.zero size cells out)
    (hroom : out.length + ((compset.ahead j).filter fun number ↦
      decide (minval ≤ number ∧ number ≤ maxval)).length ≤ size) :
    ∃ cells' out', copyComponents compset minval maxval (List.range' j k) cells out.length =
        .ok (cells', out'.length) ∧ Buffer.Holds WeightedEntry.zero size cells' out' ∧
      out'.map WeightedEntry.recordNum = out.map WeightedEntry.recordNum ++
        (compset.ahead j).filter fun number ↦ decide (minval ≤ number ∧ number ≤ maxval) := by
  induction k generalizing j cells out with
  | zero =>
    refine ⟨cells, out, rfl, hholds, ?_⟩
    rw [halloc.ahead_nil (by omega)]
    simp
  | succ k ih =>
    obtain ⟨entry, hentry, hahead⟩ :=
      halloc.ahead_cons (show (j : ℤ) < compset.numHits by omega)
    rw [hahead] at hroom ⊢
    rw [List.range'_succ, copyComponents, hentry]
    simp only [bind, Except.bind]
    by_cases hin : minval ≤ entry.recordNum ∧ entry.recordNum ≤ maxval
    · rw [List.filter_cons_of_pos (by simpa using hin)] at hroom ⊢
      rw [List.length_cons] at hroom
      obtain ⟨next, hstore, hnext⟩ := hholds.store (by omega) ⟨entry.recordNum, 0, entry.weight⟩
      rw [if_pos hin, storeDoc, hstore]
      have hlength : (out ++ [WeightedEntry.mk entry.recordNum 0 entry.weight]).length =
          out.length + 1 := by simp
      obtain ⟨cells', out', hrun, hdone, hout⟩ :=
        ih (j + 1) (by omega) hnext (by rw [hlength]; omega)
      rw [hlength] at hrun
      exact ⟨cells', out', hrun, hdone, by rw [hout]; simp⟩
    · rw [List.filter_cons_of_neg (by simpa using hin)] at hroom ⊢
      rw [if_neg hin]
      exact ih (j + 1) (by omega) hholds hroom

/-- The bounds that a lookup leaves once the pointer is set. -/
def replyRange : DbReply → ℤ × ℤ
  | .found item => (item.startOffset, item.endOffset)
  | _ => (0, 0)

/-- The components of the set in the range of a document. -/
def componentsIn (get : ComponentKey → DbReply) (numbers : List ℤ) (document : ℤ) : List ℤ :=
  numbers.filter fun number ↦ decide ((replyRange (get (.doc document))).1 ≤ number ∧
    number ≤ (replyRange (get (.doc document))).2)

/-- The outer loop appends the components of each document, provided that the pointer is set or
the first document is found. -/
theorem restrictLoop_spec {get : ComponentKey → DbReply} (hcomp : compset.Allocated)
    (hdoc : docset.Allocated) (hget : ∀ key, get key ≠ .failed) (k i : ℕ)
    (hik : i + k = docset.numHits.toNat) (compData : Option ComponentDataItem)
    (hset : compData.isSome ∨ ∀ document ∈ (docset.ahead i).head?,
      ∃ item, get (.doc document) = .found item)
    (hholds : Buffer.Holds WeightedEntry.zero size cells out)
    (hroom : out.length +
      ((docset.ahead i).flatMap (componentsIn get compset.recordNums)).length ≤ size) :
    ∃ cells' out', restrictLoop get compset docset (List.range' i k) compData cells out.length =
        .ok (some (cells', out'.length)) ∧ Buffer.Holds WeightedEntry.zero size cells' out' ∧
      out'.map WeightedEntry.recordNum = out.map WeightedEntry.recordNum ++
        (docset.ahead i).flatMap (componentsIn get compset.recordNums) := by
  induction k generalizing i cells out compData with
  | zero =>
    refine ⟨cells, out, rfl, hholds, ?_⟩
    rw [hdoc.ahead_nil (by omega)]
    simp
  | succ k ih =>
    obtain ⟨entry, hentry, hahead⟩ := hdoc.ahead_cons (show (i : ℤ) < docset.numHits by omega)
    rw [hahead] at hroom hset ⊢
    obtain ⟨range, hlook, hrange⟩ : ∃ range,
        lookUp compData (get (.doc entry.recordNum)) = some (some range) ∧
        (range.startOffset, range.endOffset) = replyRange (get (.doc entry.recordNum)) := by
      rcases hreply : get (.doc entry.recordNum) with item | _ | _
      · exact ⟨item, rfl, rfl⟩
      · rcases hset with hset | hfound
        · obtain ⟨item, rfl⟩ := Option.isSome_iff_exists.mp hset
          exact ⟨_, rfl, rfl⟩
        · obtain ⟨item, hitem⟩ := hfound entry.recordNum rfl
          rw [hreply] at hitem
          cases hitem
      · exact absurd hreply (hget _)
    rw [List.flatMap_cons, List.length_append] at hroom
    have hin : ((compset.ahead 0).filter fun number ↦
        decide (range.startOffset ≤ number ∧ number ≤ range.endOffset)) =
        componentsIn get compset.recordNums entry.recordNum := by
      rw [WeightedResult.ahead_zero, componentsIn, ← hrange]
    obtain ⟨cells', out', hcopy, hholds', hout'⟩ :=
      copyComponents_spec hcomp range.startOffset range.endOffset compset.numHits.toNat 0
        (Nat.zero_add _) hholds (by rw [hin]; omega)
    rw [hin] at hout'
    have hlength : out'.length = out.length +
        (componentsIn get compset.recordNums entry.recordNum).length := by
      simpa using congrArg List.length hout'
    obtain ⟨cells'', out'', hrun, hdone, hout''⟩ :=
      ih (i + 1) (by omega) (some range) (.inl rfl) hholds' (by omega)
    refine ⟨cells'', out'', ?_, hdone, ?_⟩
    · rw [List.range'_succ, restrictLoop, hentry]
      rw [← List.range_eq_range'] at hcopy
      simp only [bind, Except.bind, hlook, hcopy]
      exact hrun
    · rw [hout'', hout', List.flatMap_cons, List.append_assoc]

end Loops

/-- Reading the file of a component definition. -/
def dbGet (comp : ComponentListEntry) (key : ComponentKey) : DbReply :=
  match comp.compDb key with
  | some item => .found item
  | none => .notFound

/-- A set of component numbers in ascending order. -/
structure SortedComponents (set : WeightedResult) : Prop extends set.Allocated where
  component : set.has COMPONENT_RESULT = true
  increasing : set.recordNums.Pairwise (· < ·)
  positive : ∀ number ∈ set.recordNums, 0 < number

/-- A set of documents in ascending order. -/
structure SortedDocuments (set : WeightedResult) : Prop extends set.Allocated where
  document : set.has COMPONENT_RESULT = false
  increasing : set.recordNums.Pairwise (· < ·)

/-- The result lists, in ascending order, the components of the set that belong to one of the
documents. -/
def RestrictsTo (run : Exec (Option WeightedResult)) (comp : ComponentListEntry)
    (compset docset : WeightedResult) : Prop :=
  ∃ newset, run = .ok (some newset) ∧ newset.recordNums.Pairwise (· < ·) ∧
    ∀ number, number ∈ newset.recordNums ↔ number ∈ compset.recordNums ∧
      ∃ document ∈ docset.recordNums, comp.Names number document

/-- What a run of `in_components` over these records leaves in a component file. -/
structure TablesConsistent (comp : ComponentListEntry) (records : List ℤ) : Prop where
  assigned_iff : ∀ number, (∃ recnum, comp.Names number recnum) ↔
    1 ≤ number ∧ number ≤ comp.maxComponentId
  one_record : ∀ number recnum other, comp.Names number recnum → comp.Names number other →
    recnum = other
  of_record : ∀ number recnum, comp.Names number recnum → recnum ∈ records
  names_iff : ∀ number recnum, comp.Names number recnum ↔ comp.InRange recnum number
  disjoint : ∀ recnum other number, recnum ≠ other → comp.InRange recnum number →
    ¬ comp.InRange other number
  consecutive : Consecutive ComponentDataItem.startOffset ComponentDataItem.endOffset 0
    (comp.ranges records) comp.maxComponentId

variable {records : List ℤ}

theorem tablesConsistent_of_numbered {comp : ComponentListEntry}
    (h : comp.Numbered records) : TablesConsistent comp records where
  assigned_iff := by
    intro number
    have hcovered := h.consecutive.exists_mem_iff number
    constructor
    · rintro ⟨recnum, hnames⟩
      obtain ⟨range, hrange, hlow, hhigh⟩ := (h.names_iff number recnum).mp hnames
      have hmem : range ∈ comp.ranges records :=
        List.mem_filterMap.mpr ⟨recnum, (h.of_doc recnum range hrange).1, hrange⟩
      have := hcovered.mp ⟨range, hmem, hlow, hhigh⟩
      omega
    · intro hnumber
      obtain ⟨range, hmem, hlow, hhigh⟩ := hcovered.mpr (by omega)
      obtain ⟨recnum, -, hrange⟩ := List.mem_filterMap.mp hmem
      exact ⟨recnum, (h.names_iff number recnum).mpr ⟨range, hrange, hlow, hhigh⟩⟩
  one_record := by
    rintro number recnum other ⟨item, hitem, hrecnum⟩ ⟨item', hitem', hother⟩
    rw [hitem] at hitem'
    rw [← hrecnum, ← hother, Option.some.inj hitem']
  of_record := by
    intro number recnum hnames
    obtain ⟨range, hrange, -⟩ := (h.names_iff number recnum).mp hnames
    exact (h.of_doc recnum range hrange).1
  names_iff := h.names_iff
  disjoint := by
    intro recnum other number hdiff hin hother
    obtain ⟨item, hitem, hrecnum⟩ := (h.names_iff number recnum).mpr hin
    obtain ⟨item', hitem', hother'⟩ := (h.names_iff number other).mpr hother
    rw [hitem] at hitem'
    apply hdiff
    rw [← hrecnum, ← hother', Option.some.inj hitem']
  consecutive := h.consecutive

section Restriction

variable {comp : ComponentListEntry} {compset docset : WeightedResult}

theorem mem_componentsIn {numbers : List ℤ} {document number : ℤ} (hpositive : 0 < number) :
    number ∈ componentsIn (dbGet comp) numbers document ↔
      number ∈ numbers ∧ comp.InRange document number := by
  rw [componentsIn, List.mem_filter, decide_eq_true_iff, dbGet,
    Index.ComponentListEntry.InRange]
  rcases comp.compDb (.doc document) with _ | range
  · simp only [replyRange, reduceCtorEq, false_and, exists_false, and_false, iff_false]
    omega
  · simp only [replyRange, Option.some.injEq, exists_eq_left']

/-- The components copied for all documents. -/
def copied (comp : ComponentListEntry) (compset docset : WeightedResult) : List ℤ :=
  docset.recordNums.flatMap (componentsIn (dbGet comp) compset.recordNums)

theorem SortedComponents.mem_copied (hcomp : SortedComponents compset)
    (htables : TablesConsistent comp records) (number : ℤ) :
    number ∈ copied comp compset docset ↔ number ∈ compset.recordNums ∧
      ∃ document ∈ docset.recordNums, comp.Names number document := by
  rw [copied, List.mem_flatMap]
  constructor
  · rintro ⟨document, hdocument, hmem⟩
    have hnumber : number ∈ compset.recordNums := (List.mem_filter.mp hmem).1
    have hin := ((mem_componentsIn (hcomp.positive number hnumber)).mp hmem).2
    exact ⟨hnumber, document, hdocument, (htables.names_iff number document).mpr hin⟩
  · rintro ⟨hnumber, document, hdocument, hnames⟩
    exact ⟨document, hdocument, (mem_componentsIn (hcomp.positive number hnumber)).mpr
      ⟨hnumber, (htables.names_iff number document).mp hnames⟩⟩

theorem SortedComponents.length_copied_le (hcomp : SortedComponents compset)
    (hdoc : SortedDocuments docset) (htables : TablesConsistent comp records) :
    (copied comp compset docset).length ≤ compset.numHits.toNat := by
  have hdistinct : compset.recordNums.Nodup := hcomp.increasing.imp fun hlt ↦ hlt.ne
  have hnodup : (copied comp compset docset).Nodup := by
    rw [copied, List.nodup_flatMap]
    refine ⟨fun document _ ↦ hdistinct.filter _, ?_⟩
    refine hdoc.increasing.imp ?_
    intro document other hlt number hmem hother
    have hnumber : number ∈ compset.recordNums := (List.mem_filter.mp hmem).1
    have hpositive := hcomp.positive number hnumber
    exact htables.disjoint document other number hlt.ne ((mem_componentsIn hpositive).mp hmem).2
      ((mem_componentsIn hpositive).mp hother).2
  have hsub : copied comp compset docset ⊆ compset.recordNums :=
    fun number hmem ↦ ((hcomp.mem_copied htables number).mp hmem).1
  rw [← hcomp.length_recordNums]
  exact (hnodup.subperm hsub).length_le

theorem SortedComponents.increasing_copied_iff (hcomp : SortedComponents compset)
    (hdoc : SortedDocuments docset) (htables : TablesConsistent comp records) :
    (copied comp compset docset).Pairwise (· < ·) ↔
      ∀ number ∈ compset.recordNums, ∀ other ∈ compset.recordNums,
        ∀ document ∈ docset.recordNums, ∀ later ∈ docset.recordNums, document < later →
          comp.Names number document → comp.Names other later → number < other := by
  rw [copied, List.pairwise_flatMap, pairwise_iff_forall_lt hdoc.increasing]
  constructor
  · rintro ⟨-, hordered⟩ number hnumber other hother document hdocument later hlater hlt hnames
      hnames'
    exact hordered document hdocument later hlater hlt number
      ((mem_componentsIn (hcomp.positive number hnumber)).mpr
        ⟨hnumber, (htables.names_iff number document).mp hnames⟩) other
      ((mem_componentsIn (hcomp.positive other hother)).mpr
        ⟨hother, (htables.names_iff other later).mp hnames'⟩)
  · intro hordered
    refine ⟨fun document _ ↦ hcomp.increasing.filter _, ?_⟩
    intro document hdocument later hlater hlt number hmem other hmem'
    have hnumber : number ∈ compset.recordNums := (List.mem_filter.mp hmem).1
    have hother : other ∈ compset.recordNums := (List.mem_filter.mp hmem').1
    have hin := ((mem_componentsIn (hcomp.positive number hnumber)).mp hmem).2
    have hin' := ((mem_componentsIn (hcomp.positive other hother)).mp hmem').2
    exact hordered number hnumber other hother document hdocument later hlater hlt
      ((htables.names_iff number document).mpr hin) ((htables.names_iff other later).mpr hin')

variable {inset1 inset2 : WeightedResult}

theorem chosenSets (hcomp : SortedComponents compset) (hdoc : SortedDocuments docset)
    (hsets : inset1 = compset ∧ inset2 = docset ∨ inset1 = docset ∧ inset2 = compset) :
    (if inset1.has COMPONENT_RESULT then inset1 else inset2) = compset ∧
      (if inset1.has COMPONENT_RESULT then inset2 else inset1) = docset := by
  rcases hsets with ⟨rfl, rfl⟩ | ⟨rfl, rfl⟩
  · rw [if_pos hcomp.component, if_pos hcomp.component]
    exact ⟨rfl, rfl⟩
  · rw [hdoc.document, if_neg Bool.false_ne_true, if_neg Bool.false_ne_true]
    exact ⟨rfl, rfl⟩

theorem restrict_found {get : ℕ → ComponentKey → DbReply} {id : ℕ}
    (hcomp : SortedComponents compset) (hdoc : SortedDocuments docset)
    (htables : TablesConsistent comp records) (hid : compset.component = some id)
    (hget : get id = dbGet comp)
    (hsets : inset1 = compset ∧ inset2 = docset ∨ inset1 = docset ∧ inset2 = compset)
    (hfound : ∀ document ∈ docset.recordNums.head?, (comp.compDb (.doc document)).isSome) :
    ∃ newset, seComponentDocRestrict get inset1 inset2 = .ok (some newset) ∧
      newset.recordNums = copied comp compset docset := by
  have hroom := hcomp.length_copied_le hdoc htables
  obtain ⟨cells, out, hrun, hholds, hout⟩ := @restrictLoop_spec _ _ _ _ _ (dbGet comp)
    hcomp.toAllocated hdoc.toAllocated (fun key ↦ by unfold dbGet; split <;> simp)
    docset.numHits.toNat 0 (Nat.zero_add _) none
    (.inr fun document hdocument ↦ by
      rw [WeightedResult.ahead_zero] at hdocument
      obtain ⟨item, hitem⟩ := Option.isSome_iff_exists.mp (hfound document hdocument)
      exact ⟨item, by rw [dbGet, hitem]⟩)
    (Buffer.holds_calloc WeightedEntry.zero (compset.numHits.toNat + 2))
    (by rw [WeightedResult.ahead_zero]; exact (by simp [copied] at hroom ⊢; omega))
  rw [WeightedResult.ahead_zero, List.map_nil, List.nil_append] at hout
  refine ⟨restrictedSet compset cells out.length, ?_, ?_⟩
  · obtain ⟨hcompset, hdocset⟩ := chosenSets hcomp hdoc hsets
    rw [← List.range_eq_range', List.length_nil] at hrun
    simp only [seComponentDocRestrict, hcompset, hdocset, hid, deref, hget, bind, Except.bind,
      hrun]
  · rw [WeightedResult.recordNums, WeightedResult.hits]
    simp only [restrictedSet, Int.toNat_natCast]
    rw [hholds.take, hout, copied]

/-- Without an entry for the first document the code reads through a pointer that is not set. -/
theorem restrict_not_found {get : ℕ → ComponentKey → DbReply} {id : ℕ}
    (hcomp : SortedComponents compset) (hdoc : SortedDocuments docset)
    (hid : compset.component = some id) (hget : get id = dbGet comp)
    (hsets : inset1 = compset ∧ inset2 = docset ∨ inset1 = docset ∧ inset2 = compset) {document : ℤ}
    (hhead : document ∈ docset.recordNums.head?) (hnone : comp.compDb (.doc document) = none) :
    seComponentDocRestrict get inset1 inset2 = .error .uninitialized := by
  obtain ⟨hcompset, hdocset⟩ := chosenSets hcomp hdoc hsets
  have hpos : 0 < docset.numHits.toNat := by
    rw [← hdoc.length_recordNums, List.length_pos_iff]
    intro hnil
    rw [hnil] at hhead
    cases hhead
  obtain ⟨entry, hentry, hahead⟩ :=
    @WeightedResult.Allocated.ahead_cons _ hdoc.toAllocated 0 (by omega)
  rw [WeightedResult.ahead_zero] at hahead
  have hdocument : entry.recordNum = document := by
    rw [hahead] at hhead
    exact Option.some.inj hhead
  obtain ⟨rest, hrest⟩ : ∃ rest, docset.numHits.toNat = rest + 1 := ⟨_, (Nat.sub_add_cancel hpos).symm⟩
  have hreply : dbGet comp (.doc document) = .notFound := by
    rw [dbGet, hnone]
  simp only [seComponentDocRestrict, hcompset, hdocset, hid, deref, hget, bind, Except.bind, hrest,
    List.range_succ_eq_map, restrictLoop, hentry, hdocument, hreply, lookUp, Option.map_none]

end Restriction

/-- After every run over distinct records the tables are consistent, and the restriction of a
component set to a document set by them is what it should be exactly when the first document has
components and the components of the set follow the order of the documents. -/
theorem componentNumbering (names : List String)
    (records : List (ℤ × Option Index.SgmlRecord)) (hdistinct : (records.map Prod.fst).Nodup)
    (components : List ComponentListEntry)
    (hrun : Index.inComponentsRun records (names.map ComponentListEntry.fresh) = .ok components)
    (comp : ComponentListEntry) (hcomp : comp ∈ components) :
    TablesConsistent comp (records.map Prod.fst) ∧
    ∀ (get : ℕ → ComponentKey → DbReply) (id : ℕ) (compset docset inset1 inset2 : WeightedResult),
      SortedComponents compset → SortedDocuments docset → compset.component = some id →
      get id = dbGet comp →
      (inset1 = compset ∧ inset2 = docset ∨ inset1 = docset ∧ inset2 = compset) →
      (RestrictsTo (seComponentDocRestrict get inset1 inset2) comp compset docset ↔
        (∀ document ∈ docset.recordNums.head?, (comp.compDb (.doc document)).isSome) ∧
        ∀ number ∈ compset.recordNums, ∀ other ∈ compset.recordNums,
          ∀ document ∈ docset.recordNums, ∀ later ∈ docset.recordNums, document < later →
            comp.Names number document → comp.Names other later → number < other) := by
  have hfresh : ∀ comp ∈ names.map ComponentListEntry.fresh, comp.Numbered [] := by
    intro comp hmem
    obtain ⟨name, -, rfl⟩ := List.mem_map.mp hmem
    exact ComponentListEntry.numbered_fresh name
  have hnumbered := Index.inComponentsRun_spec (by simpa using hdistinct) hfresh hrun comp hcomp
  have htables := tablesConsistent_of_numbered hnumbered
  rw [List.nil_append] at htables
  refine ⟨htables, ?_⟩
  intro get id compset docset inset1 inset2 hcompset hdocset hid hget hsets
  by_cases hfirst : ∀ document ∈ docset.recordNums.head?, (comp.compDb (.doc document)).isSome
  · obtain ⟨newset, hnewset, hcopied⟩ :=
      restrict_found hcompset hdocset htables hid hget hsets hfirst
    have hordered := hcompset.increasing_copied_iff hdocset htables
    constructor
    · rintro ⟨other, hother, hincreasing, -⟩
      rw [hnewset, Except.ok.injEq, Option.some.injEq] at hother
      rw [← hother, hcopied] at hincreasing
      exact ⟨hfirst, hordered.mp hincreasing⟩
    · rintro ⟨-, hfollow⟩
      refine ⟨newset, hnewset, hcopied ▸ hordered.mpr hfollow, ?_⟩
      intro number
      rw [hcopied, hcompset.mem_copied htables]
  · constructor
    · rintro ⟨newset, hnewset, -⟩
      push Not at hfirst
      obtain ⟨document, hhead, hnone⟩ := hfirst
      have hfault := restrict_not_found hcompset hdocset hid hget hsets hhead
        (by simpa using hnone)
      rw [hfault] at hnewset
      cases hnewset
    · rintro ⟨hfound, -⟩
      exact absurd hfound hfirst

def recordWith (sections : ℕ) : Option Index.SgmlRecord :=
  some ⟨fun _ ↦ (List.range sections).map fun i ↦ ⟨10 * i, 10 * i + 9⟩⟩

/-- The section file after records 1, 2, ... with these numbers of sections. -/
def sectionFile (sections : List ℕ) : ComponentListEntry :=
  match Index.inComponentsRun ((List.range sections.length).map fun i ↦
      (((i + 1 : ℕ) : ℤ), recordWith (sections.getD i 0))) [ComponentListEntry.fresh "section"] with
  | .ok [comp] => comp
  | _ => ComponentListEntry.fresh "section"

/-- Records 1 and 2 have the sections 1 and 2, and 3. -/
theorem componentNumbering_sections :
    TablesConsistent (sectionFile [2, 1]) [1, 2] ∧
    RestrictsTo (seComponentDocRestrict (fun _ ↦ dbGet (sectionFile [2, 1])) (componentsOf 0 [2, 3])
      (WeightedResult.ofRecords "DB" [1, 2])) (sectionFile [2, 1]) (componentsOf 0 [2, 3])
      (WeightedResult.ofRecords "DB" [1, 2]) := by
  have h := componentNumbering ["section"] [(1, recordWith 2), (2, recordWith 1)] (by decide)
    [sectionFile [2, 1]] rfl (sectionFile [2, 1]) (List.mem_singleton_self _)
  refine ⟨h.1, (h.2 (fun _ ↦ dbGet (sectionFile [2, 1])) 0 (componentsOf 0 [2, 3])
    (WeightedResult.ofRecords "DB" [1, 2]) _ _ ?_ ?_ rfl rfl (.inl ⟨rfl, rfl⟩)).mpr ⟨?_, ?_⟩⟩
  · exact ⟨⟨by decide, by decide⟩, by decide, by decide, by decide⟩
  · exact ⟨⟨by decide, by decide⟩, by decide, by decide⟩
  · decide
  · decide

/-- Record 1 has no section, and the document set starts with it. -/
theorem componentNumbering_firstWithout :
    Index.inComponentsRun [(1, recordWith 0), (2, recordWith 1)]
      [ComponentListEntry.fresh "section"] = .ok [sectionFile [0, 1]] ∧
    SortedComponents (componentsOf 0 [1]) ∧ SortedDocuments (WeightedResult.ofRecords "DB" [1, 2]) ∧
    ¬ RestrictsTo (seComponentDocRestrict (fun _ ↦ dbGet (sectionFile [0, 1])) (componentsOf 0 [1])
      (WeightedResult.ofRecords "DB" [1, 2])) (sectionFile [0, 1]) (componentsOf 0 [1])
      (WeightedResult.ofRecords "DB" [1, 2]) := by
  refine ⟨rfl, ⟨⟨by decide, by decide⟩, by decide, by decide, by decide⟩,
    ⟨⟨by decide, by decide⟩, by decide, by decide⟩, ?_⟩
  rintro ⟨newset, hnewset, -⟩
  have hfault : seComponentDocRestrict (fun _ ↦ dbGet (sectionFile [0, 1])) (componentsOf 0 [1])
      (WeightedResult.ofRecords "DB" [1, 2]) = .error .uninitialized := rfl
  rw [hfault] at hnewset
  cases hnewset

end Cheshire.Search
