import Cheshire.Lib.Elimination
import Cheshire.Search.ComponentDocuments

/-!
# The least and the greatest components

`se_comp_minmax` compares the extents of the components of a set by pairs.  A component that holds another
one is cleared when the least are asked for, and one that lies in another one otherwise.  The documents of
the components are not compared.
-/

namespace Cheshire.Search

open Lib
open Index (ComponentDataItem)

/-- The tests that lead to `templist[j] = NULL`: the extents overlap, and the one of `templist[i]` lies in
the other, or holds it. -/
def Clears (minmax : ℤ) (itemI itemJ : ComponentDataItem) : Prop :=
  ¬(itemI.endOffset ≤ itemJ.startOffset ∨ itemI.startOffset ≥ itemJ.endOffset) ∧
    if minmax = 1 then
      itemI.startOffset ≥ itemJ.startOffset ∧ itemI.endOffset ≤ itemJ.endOffset
    else itemI.startOffset ≤ itemJ.startOffset ∧ itemI.endOffset ≥ itemJ.endOffset

instance decidableClears (minmax : ℤ) : DecidableRel (Clears minmax) := fun itemI itemJ ↦
  inferInstanceAs (Decidable
    (¬(itemI.endOffset ≤ itemJ.startOffset ∨ itemI.startOffset ≥ itemJ.endOffset) ∧
      if minmax = 1 then
        itemI.startOffset ≥ itemJ.startOffset ∧ itemI.endOffset ≤ itemJ.endOffset
      else itemI.startOffset ≤ itemJ.startOffset ∧ itemI.endOffset ≥ itemJ.endOffset))

/-- The components that are left are transferred to the new set. -/
def transferLoop (inset : WeightedResult) (templist : List (Option ComponentDataItem)) :
    List ℕ → List WeightedEntry → ℕ → Exec (List WeightedEntry × ℕ)
  | [], cells, numHits => .ok (cells, numHits)
  | i :: is, cells, numHits =>
    if (Elimination.item templist i).isSome then do
      let entry ← inset.entryAt i
      let cells ← putHit cells numHits entry
      transferLoop inset templist is cells (numHits + 1)
    else transferLoop inset templist is cells numHits

/-- Both flag tests compare a flag with itself first, so that no set fails them. -/
def seCompMinmax (files : ComponentFiles) (minmax : ℤ) (inset : Option WeightedResult) :
    Exec (Option WeightedResult) :=
  match inset with
  | none => .ok none
  | some inset =>
    if inset.has (COMPONENT_RESULT != COMPONENT_RESULT).toNat &&
        inset.has (HYBRID_RESULT != HYBRID_RESULT).toNat then .ok none
    else do
      let totalPostings := inset.numHits.toNat
      let templist ← (List.range totalPostings).mapM fun i ↦ do
        let entry ← inset.entryAt i
        .ok (files.getComponentRecord entry.recordNum inset.component)
      let (cells, numHits) ← transferLoop inset (Elimination.eliminate (Clears minmax) templist)
        (List.range totalPostings)
        (inset.entries.headD WeightedEntry.zero :: Buffer.calloc WeightedEntry.zero totalPostings) 0
      .ok (some { inset with numHits := numHits, entries := cells })

/-- A set of different components that are in the file of their definition. -/
structure DistinctComponents (files : ComponentFiles) (set : WeightedResult) : Prop
    extends set.Allocated where
  distinct : set.recordNums.Nodup
  stored : ∀ number ∈ set.recordNums, (files.getComponentRecord number set.component).isSome

def extent (files : ComponentFiles) (set : WeightedResult) (number : ℤ) : ComponentDataItem :=
  (files.getComponentRecord number set.component).getD ⟨0, 0, 0⟩

/-- One extent lies in another. -/
def Within (inner outer : ComponentDataItem) : Prop :=
  outer.startOffset ≤ inner.startOffset ∧ inner.endOffset ≤ outer.endOffset

/-- A component is not among the least because of one that lies in it, and not among the greatest because
of one in which it lies. -/
def Excludes (minmax : ℤ) (other item : ComponentDataItem) : Prop :=
  if minmax = 1 then Within other item else Within item other

/-- Another component of the set, from the same document, excludes the component. -/
def Excluded (files : ComponentFiles) (set : WeightedResult) (minmax number : ℤ) : Prop :=
  ∃ other ∈ set.recordNums, other ≠ number ∧
    (extent files set other).recordId = (extent files set number).recordId ∧
    Excludes minmax (extent files set other) (extent files set number)

/-- The result lists each component that is not excluded once. -/
def ReturnsExtremes (files : ComponentFiles) (set : WeightedResult) (minmax : ℤ) : Prop :=
  ∃ newset, seCompMinmax files minmax (some set) = .ok (some newset) ∧ newset.recordNums.Nodup ∧
    ∀ number, number ∈ newset.recordNums ↔
      number ∈ set.recordNums ∧ ¬Excluded files set minmax number

/-- A component clears another one, from whatever document; of two with the same extent the first one
clears the second. -/
structure Overrules (files : ComponentFiles) (set : WeightedResult) (minmax other number : ℤ) : Prop where
  ne : other ≠ number
  clears : Clears minmax (extent files set other) (extent files set number)
  first : Clears minmax (extent files set number) (extent files set other) →
    set.recordNums.idxOf other < set.recordNums.idxOf number

/-- A component of the set overrules this one. -/
def Overruled (files : ComponentFiles) (set : WeightedResult) (minmax number : ℤ) : Prop :=
  ∃ other ∈ set.recordNums, Overrules files set minmax other number

theorem clears_trans (minmax : ℤ) (x y z : ComponentDataItem) (hxy : Clears minmax x y)
    (hyz : Clears minmax y z) : Clears minmax x z := by
  unfold Clears at *
  split_ifs at * <;> omega

theorem Clears.excludes {minmax : ℤ} {x y : ComponentDataItem} (h : Clears minmax x y) :
    Excludes minmax x y := by
  unfold Clears at h
  unfold Excludes Within
  split_ifs at * <;> omega

section Transfer

variable {set : WeightedResult}

/-- The record number of a hit by its place. -/
def numberAt (set : WeightedResult) (i : ℕ) : ℤ := set.recordNums.getD i 0

theorem entryAt_numberAt (h : set.Allocated) {i : ℕ} (hi : i < set.numHits.toNat) :
    ∃ entry, set.entryAt i = .ok entry ∧ entry.recordNum = numberAt set i := by
  obtain ⟨entry, hentry, hdrop⟩ := h.entryAt (show (i : ℤ) < set.numHits by omega)
  have hlt : i < set.hits.length := by rwa [h.length_hits]
  rw [List.drop_eq_getElem_cons hlt] at hdrop
  have hhit : set.hits[i]? = some entry := by
    rw [List.getElem?_eq_getElem hlt, (List.cons.inj hdrop).1]
  refine ⟨entry, hentry, ?_⟩
  rw [numberAt, WeightedResult.recordNums, List.getD_eq_getElem?_getD, List.getElem?_map, hhit]
  rfl

theorem map_numberAt_range (h : set.Allocated) :
    (List.range set.numHits.toNat).map (numberAt set) = set.recordNums := by
  rw [← h.length_recordNums]
  refine List.ext_getElem (by simp) ?_
  intro i hi hi'
  rw [List.getElem_map, List.getElem_range, numberAt, List.getD_eq_getElem _ _ hi']

/-- Cells whose first ones are filled with components of these numbers. -/
structure Transferred (size : ℕ) (cells : List WeightedEntry) (numHits : ℕ) (numbers : List ℤ) :
    Prop where
  length_cells : cells.length = size
  length_numbers : numbers.length = numHits
  filled : (cells.take numHits).map WeightedEntry.recordNum = numbers

theorem Transferred.store {size numHits : ℕ} {cells : List WeightedEntry} {numbers : List ℤ}
    (h : Transferred size cells numHits numbers) (hroom : numHits < size) (entry : WeightedEntry) :
    ∃ cells', putHit cells numHits entry = .ok cells' ∧
      Transferred size cells' (numHits + 1) (numbers ++ [entry.recordNum]) := by
  have hlt : numHits < cells.length := by rwa [h.length_cells]
  refine ⟨_, by rw [putHit, List.getElem?_eq_getElem hlt], ?_, ?_, ?_⟩
  · rw [List.length_set, h.length_cells]
  · rw [List.length_append, h.length_numbers, List.length_singleton]
  · rw [List.take_add_one, List.take_set_of_le le_rfl, List.map_append, h.filled,
      List.getElem?_set_self hlt]
    rfl

theorem transferLoop_spec (h : set.Allocated) {templist : List (Option ComponentDataItem)}
    (k i : ℕ) (hik : i + k = set.numHits.toNat) {size numHits : ℕ} {cells : List WeightedEntry}
    {numbers : List ℤ} (hcells : Transferred size cells numHits numbers) (hroom : numHits + k < size) :
    ∃ cells' numHits', transferLoop set templist (List.range' i k) cells numHits =
        .ok (cells', numHits') ∧
      Transferred size cells' numHits' (numbers ++
        ((List.range' i k).filter fun i ↦ (Elimination.item templist i).isSome).map
          (numberAt set)) := by
  induction k generalizing i cells numHits numbers with
  | zero => exact ⟨cells, numHits, rfl, by simpa using hcells⟩
  | succ k ih =>
    rw [List.range'_succ, transferLoop]
    by_cases hleft : (Elimination.item templist i).isSome = true
    · obtain ⟨entry, hentry, hnumber⟩ := entryAt_numberAt h (show i < set.numHits.toNat by omega)
      obtain ⟨next, hstore, hnext⟩ := hcells.store (by omega) entry
      obtain ⟨cells', numHits', hrun, hdone⟩ := ih (i + 1) (by omega) hnext (by omega)
      refine ⟨cells', numHits', ?_, ?_⟩
      · rw [if_pos hleft, hentry]
        simp only [bind, Except.bind, hstore]
        exact hrun
      · rw [List.filter_cons, if_pos hleft, List.map_cons, ← hnumber, List.append_cons]
        exact hdone
    · rw [if_neg hleft, List.filter_cons, if_neg hleft]
      exact ih (i + 1) (by omega) hcells (by omega)

end Transfer

section Left

variable {files : ComponentFiles} {set : WeightedResult}

/-- `templist` before the loops over it. -/
def templist (files : ComponentFiles) (set : WeightedResult) : List (Option ComponentDataItem) :=
  (List.range set.numHits.toNat).map fun i ↦ files.getComponentRecord (numberAt set i) set.component

theorem mapM_templist (h : set.Allocated) :
    ((List.range set.numHits.toNat).mapM fun i ↦ do
      let entry ← set.entryAt i
      .ok (files.getComponentRecord entry.recordNum set.component)) = .ok (templist files set) := by
  refine mapM_ok _ fun i hi ↦ ?_
  obtain ⟨entry, hentry, hnumber⟩ := entryAt_numberAt h (List.mem_range.mp hi)
  rw [hentry, ← hnumber]
  rfl

theorem item_templist (h : DistinctComponents files set) {i : ℕ} (hi : i < set.numHits.toNat) :
    Elimination.item (templist files set) i = some (extent files set (numberAt set i)) := by
  have hmem : numberAt set i ∈ set.recordNums := by
    rw [← map_numberAt_range h.toAllocated]
    exact List.mem_map_of_mem (List.mem_range.mpr hi)
  obtain ⟨item, hitem⟩ := Option.isSome_iff_exists.mp (h.stored _ hmem)
  rw [Elimination.item, templist, List.getElem?_map, List.getElem?_range hi, Option.map_some,
    Option.join_some, extent, hitem]
  rfl

theorem lt_of_item_templist {i : ℕ} {item : ComponentDataItem}
    (h : Elimination.item (templist files set) i = some item) : i < set.numHits.toNat := by
  have hlt := Elimination.lt_length_of_item h
  rwa [templist, List.length_map, List.length_range] at hlt

theorem idxOf_numberAt (h : DistinctComponents files set) {i : ℕ} (hi : i < set.numHits.toNat) :
    set.recordNums.idxOf (numberAt set i) = i := by
  have hlt : i < set.recordNums.length := by rwa [h.toAllocated.length_recordNums]
  rw [numberAt, List.getD_eq_getElem _ _ hlt]
  exact h.distinct.idxOf_getElem i hlt

theorem exists_numberAt (h : set.Allocated) {number : ℤ} (hmem : number ∈ set.recordNums) :
    ∃ i < set.numHits.toNat, numberAt set i = number := by
  rw [← map_numberAt_range h, List.mem_map] at hmem
  obtain ⟨i, hi, hnumber⟩ := hmem
  exact ⟨i, List.mem_range.mp hi, hnumber⟩

theorem clears_iff_overruled (h : DistinctComponents files set) (minmax : ℤ) {j : ℕ}
    (hj : j < set.numHits.toNat) :
    (∃ i x, Elimination.Clears (Clears minmax) (templist files set) i j x
        (extent files set (numberAt set j))) ↔
      Overruled files set minmax (numberAt set j) := by
  constructor
  · rintro ⟨i, x, hclears⟩
    have hi := lt_of_item_templist hclears.winner
    obtain rfl : extent files set (numberAt set i) = x :=
      Option.some.inj ((item_templist h hi).symm.trans hclears.winner)
    have hmem : numberAt set i ∈ set.recordNums := by
      rw [← map_numberAt_range h.toAllocated]
      exact List.mem_map_of_mem (List.mem_range.mpr hi)
    refine ⟨numberAt set i, hmem, ?_, hclears.wins, ?_⟩
    · intro heq
      have hplace := congrArg set.recordNums.idxOf heq
      rw [idxOf_numberAt h hi, idxOf_numberAt h hj] at hplace
      exact hclears.ne hplace
    · intro hback
      rw [idxOf_numberAt h hi, idxOf_numberAt h hj]
      exact hclears.first hback
  · rintro ⟨other, hmem, hoverrules⟩
    obtain ⟨i, hi, rfl⟩ := exists_numberAt h.toAllocated hmem
    refine ⟨i, _, item_templist h hi, item_templist h hj, ?_, hoverrules.clears, ?_⟩
    · rintro rfl
      exact hoverrules.ne rfl
    · intro hback
      have hlt := hoverrules.first hback
      rwa [idxOf_numberAt h hi, idxOf_numberAt h hj] at hlt

theorem seCompMinmax_spec (h : DistinctComponents files set) (minmax : ℤ) :
    ∃ newset, seCompMinmax files minmax (some set) = .ok (some newset) ∧ newset.recordNums.Nodup ∧
      ∀ number, number ∈ newset.recordNums ↔
        number ∈ set.recordNums ∧ ¬Overruled files set minmax number := by
  have hstart : Transferred (set.numHits.toNat + 1)
      (set.entries.headD WeightedEntry.zero :: Buffer.calloc WeightedEntry.zero set.numHits.toNat)
      0 [] := ⟨by simp [Buffer.calloc], rfl, rfl⟩
  obtain ⟨cells, numHits, hrun, hdone⟩ := @transferLoop_spec set h.toAllocated
    (Elimination.eliminate (Clears minmax) (templist files set)) set.numHits.toNat 0
    (Nat.zero_add _) _ _ _ _ hstart (by omega)
  rw [← List.range_eq_range', List.nil_append] at hdone
  rw [← List.range_eq_range'] at hrun
  have hnumbers : WeightedResult.recordNums { set with numHits := numHits, entries := cells } =
      ((List.range set.numHits.toNat).filter fun i ↦
        (Elimination.item (Elimination.eliminate (Clears minmax) (templist files set)) i).isSome).map
          (numberAt set) := hdone.filled
  have hleft {i : ℕ} (hi : i < set.numHits.toNat) :
      (Elimination.item (Elimination.eliminate (Clears minmax) (templist files set)) i).isSome = true ↔
        ¬Overruled files set minmax (numberAt set i) := by
    rw [← clears_iff_overruled h minmax hi]
    rcases Elimination.item_eliminate (clears_trans minmax) (item_templist h hi) with
      ⟨hitem, hclears⟩ | ⟨hitem, hclears⟩
    · rw [hitem]
      exact iff_of_false Bool.false_ne_true (not_not.mpr hclears)
    · rw [hitem]
      exact iff_of_true rfl hclears
  refine ⟨{ set with numHits := numHits, entries := cells }, ?_, ?_, ?_⟩
  · have hflags : (set.has (COMPONENT_RESULT != COMPONENT_RESULT).toNat &&
        set.has (HYBRID_RESULT != HYBRID_RESULT).toNat) = false := by
      simp [WeightedResult.has]
    have htemplist := @mapM_templist files set h.toAllocated
    simp only [bind, Except.bind] at htemplist
    simp only [seCompMinmax, hflags, Bool.false_eq_true, if_false, bind, Except.bind, htemplist, hrun]
  · rw [hnumbers]
    refine List.Nodup.sublist ?_ h.distinct
    rw [← map_numberAt_range h.toAllocated]
    exact List.filter_sublist.map _
  · intro number
    rw [hnumbers, List.mem_map]
    constructor
    · rintro ⟨i, hi, rfl⟩
      obtain ⟨hmem, hitem⟩ := List.mem_filter.mp hi
      have hlt := List.mem_range.mp hmem
      refine ⟨?_, (hleft hlt).mp hitem⟩
      rw [← map_numberAt_range h.toAllocated]
      exact List.mem_map_of_mem hmem
    · rintro ⟨hmem, hfree⟩
      obtain ⟨i, hi, rfl⟩ := exists_numberAt h.toAllocated hmem
      exact ⟨i, List.mem_filter.mpr ⟨List.mem_range.mpr hi, (hleft hi).mpr hfree⟩, rfl⟩

/-- A component that one of another document overrules is excluded by one of its own document, and of two
components of one document of which the first excludes the second without overruling it, as they have one
extent or one of them is empty, the second is overruled by a third. -/
structure Undisturbed (files : ComponentFiles) (set : WeightedResult) (minmax : ℤ) : Prop where
  foreign : ∀ number ∈ set.recordNums, ∀ other ∈ set.recordNums,
    (extent files set other).recordId ≠ (extent files set number).recordId →
    Overrules files set minmax other number → Excluded files set minmax number
  alike : ∀ number ∈ set.recordNums, ∀ other ∈ set.recordNums, other ≠ number →
    (extent files set other).recordId = (extent files set number).recordId →
    Excludes minmax (extent files set other) (extent files set number) →
    ¬Overrules files set minmax other number → ∃ third ∈ set.recordNums,
      Overrules files set minmax third number

/-- The routine returns the extremes of each document exactly if no document disturbs another. -/
theorem returnsExtremes_iff (h : DistinctComponents files set) (minmax : ℤ) :
    ReturnsExtremes files set minmax ↔ Undisturbed files set minmax := by
  obtain ⟨newset, hrun, hnodup, hmem⟩ := seCompMinmax_spec h minmax
  constructor
  · rintro ⟨newset', hrun', -, hmem'⟩
    obtain rfl : newset = newset' := Option.some.inj (Except.ok.inj (hrun.symm.trans hrun'))
    have hiff (number : ℤ) (hnumber : number ∈ set.recordNums) :
        Overruled files set minmax number ↔ Excluded files set minmax number := by
      have hboth := (hmem number).symm.trans (hmem' number)
      rw [and_congr_right_iff] at hboth
      exact not_iff_not.mp (hboth hnumber)
    constructor
    · intro number hnumber other hother _ hoverrules
      exact (hiff number hnumber).mp ⟨other, hother, hoverrules⟩
    · intro number hnumber other hother hne hdocument hexcludes _
      exact (hiff number hnumber).mpr ⟨other, hother, hne, hdocument, hexcludes⟩
  · intro hundisturbed
    refine ⟨newset, hrun, hnodup, fun number ↦ (hmem number).trans ?_⟩
    refine and_congr_right fun hnumber ↦ not_congr ?_
    constructor
    · rintro ⟨other, hother, hoverrules⟩
      by_cases hdocument :
          (extent files set other).recordId = (extent files set number).recordId
      · exact ⟨other, hother, hoverrules.ne, hdocument, hoverrules.clears.excludes⟩
      · exact hundisturbed.foreign number hnumber other hother hdocument hoverrules
    · rintro ⟨other, hother, hne, hdocument, hexcludes⟩
      by_cases hoverrules : Overrules files set minmax other number
      · exact ⟨other, hother, hoverrules⟩
      · exact hundisturbed.alike number hnumber other hother hne hdocument hexcludes hoverrules

end Left

/-- The extent of the first component holds that of the second one, which may be from another document. -/
def nestedFiles (document : ℤ) : ComponentFiles where
  getComponentRecord number _ := some (if number = 1 then ⟨10, 0, 100⟩ else ⟨document, 20, 30⟩)
  componentAt _ := .ok none

theorem distinctComponents_nested (document : ℤ) :
    DistinctComponents (nestedFiles document) (componentsOf 0 [1, 2]) where
  nonneg := by decide
  covered := by decide
  distinct := by decide
  stored := fun _ _ ↦ rfl

theorem mem_nested {number : ℤ} (h : number ∈ (componentsOf 0 [1, 2]).recordNums) :
    number = 1 ∨ number = 2 := by
  simpa [componentsOf, WeightedResult.recordNums, WeightedResult.hits, WeightedResult.ofRecords] using h

theorem overrules_nested (document : ℤ) :
    Overrules (nestedFiles document) (componentsOf 0 [1, 2]) 1 2 1 where
  ne := by decide
  clears := by simp [Clears, extent, nestedFiles]
  first := by simp [Clears, extent, nestedFiles]

theorem not_excludes_nested (document : ℤ) :
    ¬Excludes 1 (extent (nestedFiles document) (componentsOf 0 [1, 2]) 1)
      (extent (nestedFiles document) (componentsOf 0 [1, 2]) 2) := by
  simp [Excludes, Within, extent, nestedFiles]

/-- Within a document the inner component is returned. -/
theorem returnsExtremes_nested : ReturnsExtremes (nestedFiles 10) (componentsOf 0 [1, 2]) 1 := by
  refine (returnsExtremes_iff (distinctComponents_nested 10) 1).mpr ⟨?_, ?_⟩
  · intro number hnumber other hother hdocument
    refine absurd ?_ hdocument
    rcases mem_nested hnumber with rfl | rfl <;> rcases mem_nested hother with rfl | rfl <;> rfl
  · intro number hnumber other hother hne _ hexcludes hfree
    rcases mem_nested hnumber with rfl | rfl
    · obtain rfl : other = 2 := (mem_nested hother).resolve_left hne
      exact absurd (overrules_nested 10) hfree
    · obtain rfl : other = 1 := (mem_nested hother).resolve_right hne
      exact absurd hexcludes (not_excludes_nested 10)

/-- The outer component is not returned although the inner one is from another document. -/
theorem not_returnsExtremes : ∃ files set, DistinctComponents files set ∧
    ¬ReturnsExtremes files set 1 := by
  refine ⟨nestedFiles 20, componentsOf 0 [1, 2], distinctComponents_nested 20, ?_⟩
  rintro ⟨newset, hrun, -, hmem⟩
  obtain ⟨newset', hrun', -, hmem'⟩ := seCompMinmax_spec (distinctComponents_nested 20) 1
  obtain rfl : newset = newset' := Option.some.inj (Except.ok.inj (hrun.symm.trans hrun'))
  have hkept : (1 : ℤ) ∈ newset.recordNums := by
    refine (hmem 1).mpr ⟨by decide, ?_⟩
    rintro ⟨other, hother, hne, hdocument, -⟩
    obtain rfl : other = 2 := (mem_nested hother).resolve_left hne
    exact absurd hdocument (by decide)
  exact ((hmem' 1).mp hkept).2 ⟨2, by decide, overrules_nested 20⟩

end Cheshire.Search
