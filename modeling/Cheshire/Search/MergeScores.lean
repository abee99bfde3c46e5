import Cheshire.Lib.KeyedMerge
import Cheshire.Lib.RunningBounds
import Cheshire.Search.RankedMerge

/-!
# The weights of merged sets

What the merge loops write is compared with merges of lists, the weights included.  The bounds of the new
set are running bounds of the weights in record order.
-/

namespace Cheshire.Search

open Lib Lib.KeyedMerge Lib.RunningBounds

def WeightedEntry.score (entry : WeightedEntry) : ℤ × ℚ := (entry.recordNum, entry.weight)

def WeightedResult.scores (set : WeightedResult) : List (ℤ × ℚ) := set.hits.map WeightedEntry.score

/-- The hits behind a cursor, each with the value that the cursor has after it. -/
def WeightedResult.items (set : WeightedResult) (i : ℕ) : List (WeightedEntry × ℕ) :=
  (set.hits.drop i).zipIdx (i + 1)

def itemKey (item : WeightedEntry × ℕ) : ℤ := item.1.recordNum

variable {i : ℕ}

theorem items_nil {set : WeightedResult} (h : set.hits.drop i = []) : set.items i = [] := by
  rw [WeightedResult.items, h, List.zipIdx_nil]

variable {entry : WeightedEntry}

theorem items_cons {set : WeightedResult} (h : set.hits.drop i = entry :: set.hits.drop (i + 1)) :
    set.items i = (entry, i + 1) :: set.items (i + 1) := by
  rw [WeightedResult.items, h, List.zipIdx_cons]
  rfl

theorem map_itemKey_items (set : WeightedResult) : (set.items 0).map itemKey = set.recordNums := by
  rw [WeightedResult.items, List.drop_zero, WeightedResult.recordNums]
  have hkey : itemKey = WeightedEntry.recordNum ∘ Prod.fst := rfl
  rw [hkey, ← List.map_map, List.zipIdx_map_fst]

def andScore (fuzzFlag : Bool) (flags : ℕ) (entry1 entry2 : WeightedEntry) : ℤ × ℚ :=
  (entry1.recordNum, andWeight fuzzFlag flags entry1.weight entry2.weight)

def orRules (addweights : ℕ) (fuzzFlag : Bool) (set1 set2 : WeightedResult) :
    Rules (WeightedEntry × ℕ) (ℤ × ℚ) where
  both x y := (x.1.recordNum, orWeight addweights fuzzFlag set1 set2 x.1 y.1)
  left x := (x.1.recordNum, orAloneWeight addweights set1 x.1 x.2)
  right y := (y.1.recordNum, orAloneWeight addweights set2 y.1 y.2)
  leftRest x := (x.1.recordNum, orTailWeight addweights set1 x.1)
  rightRest y := (y.1.recordNum, orTailWeight addweights set2 y.1)

/-- The entries written have these scores. -/
def NewSet.Written (newset : NewSet) (total : ℕ) (scores : List (ℤ × ℚ)) : Prop :=
  ∃ out, newset.Filled total out ∧ out.map WeightedEntry.score = scores

/-- The bounds are the running ones of the weights. -/
structure NewSet.Bounded (newset : NewSet) (scores : List (ℤ × ℚ)) : Prop where
  maxWeight : newset.maxWeight = highest (scores.map Prod.snd)
  minWeight : newset.minWeight = lowest (scores.map Prod.snd)

variable {newset newset' : NewSet} {total : ℕ} {scores : List (ℤ × ℚ)}

theorem NewSet.written_alloc (total : ℕ) : (NewSet.alloc total).Written total [] :=
  ⟨[], NewSet.filled_alloc total, rfl⟩

theorem NewSet.bounded_alloc (total : ℕ) : (NewSet.alloc total).Bounded [] := ⟨rfl, rfl⟩

theorem NewSet.Written.of_put (h : newset.Written total scores)
    (hput : newset.put entry = .ok newset') : newset'.Written total (scores ++ [entry.score]) := by
  obtain ⟨out, hfilled, rfl⟩ := h
  exact ⟨out ++ [entry], hfilled.of_put hput, by rw [List.map_append]; rfl⟩

theorem NewSet.weights_of_put (hput : newset.put entry = .ok newset') :
    newset'.maxWeight = newset.maxWeight ∧ newset'.minWeight = newset.minWeight := by
  rw [NewSet.put] at hput
  split at hput
  · cases hput
    exact ⟨rfl, rfl⟩
  · cases hput

theorem NewSet.Written.bound (h : newset.Written total scores) (weight : ℚ) :
    (newset.bound weight).Written total scores := by
  obtain ⟨out, hfilled, hscores⟩ := h
  exact ⟨out, hfilled.bound weight, hscores⟩

theorem NewSet.Bounded.of_put (h : newset.Bounded scores) (hput : newset.put entry = .ok newset') :
    (newset'.bound entry.weight).Bounded (scores ++ [entry.score]) := by
  obtain ⟨hmax, hmin⟩ := NewSet.weights_of_put hput
  constructor
  · rw [List.map_append, List.map_singleton, highest_concat, ← h.maxWeight, ← hmax]
    rfl
  · rw [List.map_append, List.map_singleton, lowest_concat, ← h.minWeight, ← hmin]
    rfl

/-- Entries with these scores were written, each followed by the update of the bounds. -/
structure NewSet.Merging (newset : NewSet) (total : ℕ) (scores : List (ℤ × ℚ)) : Prop
    extends newset.Bounded scores where
  written : newset.Written total scores

theorem NewSet.merging_alloc (total : ℕ) : (NewSet.alloc total).Merging total [] :=
  ⟨NewSet.bounded_alloc total, NewSet.written_alloc total⟩

theorem NewSet.Merging.of_put (h : newset.Merging total scores)
    (hput : newset.put entry = .ok newset') :
    (newset'.bound entry.weight).Merging total (scores ++ [entry.score]) :=
  ⟨h.toBounded.of_put hput, (h.written.of_put hput).bound _⟩

variable {fuzzFlag : Bool} {addweights : ℕ}

section Loops

variable {set1 set2 : WeightedResult}

variable {fuel i1 i2 : ℕ}

theorem andLoop_scores (h1 : set1.Allocated) (h2 : set2.Allocated) {flags : ℕ}
    (hmerging : newset.Merging total scores)
    (hrun : andLoop fuzzFlag flags set1 set2 fuel i1 i2 newset = .ok newset') :
    newset'.Merging total (scores ++ interWith WeightedEntry.recordNum (andScore fuzzFlag flags)
      (set1.hits.drop i1) (set2.hits.drop i2)) := by
  induction fuel generalizing i1 i2 newset scores with
  | zero => cases hrun
  | succ fuel ih =>
    rw [andLoop] at hrun
    by_cases hcond : (i1 : ℤ) < set1.numHits ∧ (i2 : ℤ) < set2.numHits
    · obtain ⟨entry1, hentry1, hdrop1⟩ := h1.entryAt hcond.1
      obtain ⟨entry2, hentry2, hdrop2⟩ := h2.entryAt hcond.2
      rw [if_pos hcond, hentry1, hentry2] at hrun
      simp only [bind, Except.bind] at hrun
      rcases lt_trichotomy entry1.recordNum entry2.recordNum with hlt | heq | hgt
      · rw [if_pos hlt] at hrun
        rw [hdrop1, hdrop2, interWith_cons_lt _ _ hlt, ← hdrop2]
        exact ih hmerging hrun
      · rw [if_neg heq.not_lt, if_neg heq.not_gt] at hrun
        obtain ⟨next, hput, hrun⟩ := bind_eq_ok.mp hrun
        rw [hdrop1, hdrop2, interWith_cons_eq _ _ heq, List.append_cons]
        exact ih (hmerging.of_put hput) hrun
      · rw [if_neg hgt.not_gt, if_pos hgt] at hrun
        rw [hdrop1, hdrop2, interWith_cons_gt _ _ hgt, ← hdrop1]
        exact ih hmerging hrun
    · rw [if_neg hcond] at hrun
      cases hrun
      rcases not_and_or.mp hcond with hend | hend
      · rw [h1.drop_eq_nil hend, interWith_nil_left, List.append_nil]
        exact hmerging
      · rw [h2.drop_eq_nil hend, interWith_nil_right, List.append_nil]
        exact hmerging

theorem orLoop_scores (h1 : set1.Allocated) (h2 : set2.Allocated) {j1 j2 : ℕ}
    (hmerging : newset.Merging total scores)
    (hrun : orLoop addweights fuzzFlag set1 set2 fuel i1 i2 newset = .ok (j1, j2, newset')) :
    ∃ middle, newset'.Merging total (scores ++ middle) ∧
      unionWith itemKey (orRules addweights fuzzFlag set1 set2) (set1.items i1) (set2.items i2) =
        middle ++ ((set1.items j1).map (orRules addweights fuzzFlag set1 set2).leftRest ++
          (set2.items j2).map (orRules addweights fuzzFlag set1 set2).rightRest) := by
  induction fuel generalizing i1 i2 newset scores with
  | zero => cases hrun
  | succ fuel ih =>
    rw [orLoop] at hrun
    by_cases hcond : (i1 : ℤ) < set1.numHits ∧ (i2 : ℤ) < set2.numHits
    · obtain ⟨entry1, hentry1, hdrop1⟩ := h1.entryAt hcond.1
      obtain ⟨entry2, hentry2, hdrop2⟩ := h2.entryAt hcond.2
      rw [if_pos hcond, hentry1, hentry2] at hrun
      simp only [bind, Except.bind] at hrun
      -- one entry is written, and the rest is left to the next round
      have hstep {entry : WeightedEntry} {k1 k2 : ℕ}
          (hrun : (newset.put entry >>= fun next ↦
            orLoop addweights fuzzFlag set1 set2 fuel k1 k2 (next.bound entry.weight)) =
              .ok (j1, j2, newset')) :
          ∃ middle, newset'.Merging total (scores ++ middle) ∧
            entry.score :: unionWith itemKey (orRules addweights fuzzFlag set1 set2) (set1.items k1)
              (set2.items k2) =
            middle ++ ((set1.items j1).map (orRules addweights fuzzFlag set1 set2).leftRest ++
              (set2.items j2).map (orRules addweights fuzzFlag set1 set2).rightRest) := by
        obtain ⟨next, hput, hrun⟩ := bind_eq_ok.mp hrun
        obtain ⟨middle, hmiddle, hunion⟩ := ih (hmerging.of_put hput) hrun
        rw [← List.append_cons] at hmiddle
        exact ⟨entry.score :: middle, hmiddle, by rw [hunion, List.cons_append]⟩
      rw [items_cons hdrop1, items_cons hdrop2]
      rcases lt_trichotomy entry1.recordNum entry2.recordNum with hlt | heq | hgt
      · have hkeys : itemKey (entry1, i1 + 1) < itemKey (entry2, i2 + 1) := hlt
        rw [if_neg hlt.ne, if_pos hlt] at hrun
        rw [unionWith_cons_lt _ _ hkeys, ← items_cons hdrop2]
        exact @hstep { entry1 with weight := orAloneWeight addweights set1 entry1 (i1 + 1) }
          (i1 + 1) i2 hrun
      · have hkeys : itemKey (entry1, i1 + 1) = itemKey (entry2, i2 + 1) := heq
        rw [if_pos heq] at hrun
        rw [unionWith_cons_eq _ _ hkeys]
        exact @hstep { entry1 with weight := orWeight addweights fuzzFlag set1 set2 entry1 entry2 }
          (i1 + 1) (i2 + 1) hrun
      · have hkeys : itemKey (entry2, i2 + 1) < itemKey (entry1, i1 + 1) := hgt
        rw [if_neg hgt.ne', if_neg hgt.not_gt] at hrun
        rw [unionWith_cons_gt _ _ hkeys, ← items_cons hdrop1]
        exact @hstep { entry2 with weight := orAloneWeight addweights set2 entry2 (i2 + 1) }
          i1 (i2 + 1) hrun
    · rw [if_neg hcond] at hrun
      cases hrun
      refine ⟨[], by rwa [List.append_nil], ?_⟩
      rcases not_and_or.mp hcond with hend | hend
      · rw [items_nil (h1.drop_eq_nil hend), unionWith_nil_left]
        rfl
      · rw [items_nil (h2.drop_eq_nil hend), unionWith_nil_right, List.map_nil, List.append_nil]
        rfl

theorem orTail_scores (h1 : set1.Allocated) (hmerging : newset.Merging total scores)
    (hrun : orTail addweights set1 fuel i newset = .ok newset') :
    newset'.Merging total (scores ++ (set1.items i).map fun item ↦
      (item.1.recordNum, orTailWeight addweights set1 item.1)) := by
  induction fuel generalizing i newset scores with
  | zero => cases hrun
  | succ fuel ih =>
    rw [orTail] at hrun
    by_cases hcond : (i : ℤ) < set1.numHits
    · obtain ⟨entry, hentry, hdrop⟩ := h1.entryAt hcond
      rw [if_pos hcond, hentry] at hrun
      simp only [bind, Except.bind] at hrun
      obtain ⟨next, hput, hrun⟩ := bind_eq_ok.mp hrun
      rw [items_cons hdrop, List.map_cons, List.append_cons]
      exact ih (hmerging.of_put hput) hrun
    · rw [if_neg hcond] at hrun
      cases hrun
      rw [items_nil (h1.drop_eq_nil hcond), List.map_nil, List.append_nil]
      exact hmerging

theorem notLoop_scores (h1 : set1.Allocated) (h2 : set2.Allocated) {j1 : ℕ}
    (hwritten : newset.Written total scores)
    (hrun : notLoop set1 set2 fuel i1 i2 newset = .ok (j1, newset')) :
    newset'.maxWeight = newset.maxWeight ∧ newset'.minWeight = newset.minWeight ∧
      ∃ middle, newset'.Written total (scores ++ middle) ∧
        (diffBy WeightedEntry.recordNum (set1.hits.drop i1) (set2.hits.drop i2)).map
            WeightedEntry.score = middle ++ (set1.hits.drop j1).map WeightedEntry.score := by
  induction fuel generalizing i1 i2 newset scores with
  | zero => cases hrun
  | succ fuel ih =>
    rw [notLoop] at hrun
    by_cases hcond : (i1 : ℤ) < set1.numHits ∧ (i2 : ℤ) < set2.numHits
    · obtain ⟨entry1, hentry1, hdrop1⟩ := h1.entryAt hcond.1
      obtain ⟨entry2, hentry2, hdrop2⟩ := h2.entryAt hcond.2
      rw [if_pos hcond, hentry1, hentry2] at hrun
      simp only [bind, Except.bind] at hrun
      rcases lt_trichotomy entry1.recordNum entry2.recordNum with hlt | heq | hgt
      · rw [if_neg hlt.not_gt, if_neg hlt.ne] at hrun
        obtain ⟨next, hput, hrun⟩ := bind_eq_ok.mp hrun
        obtain ⟨hmax, hmin, middle, hmiddle, hdiff⟩ := ih (hwritten.of_put hput) hrun
        obtain ⟨hput_max, hput_min⟩ := NewSet.weights_of_put hput
        refine ⟨hmax.trans hput_max, hmin.trans hput_min, entry1.score :: middle, ?_, ?_⟩
        · rw [List.append_cons]
          exact hmiddle
        · rw [hdrop1, hdrop2, diffBy_cons_lt _ _ hlt, ← hdrop2, List.map_cons, hdiff,
            List.cons_append]
      · rw [if_neg heq.not_gt, if_pos heq] at hrun
        rw [hdrop1, hdrop2, diffBy_cons_eq _ _ heq]
        exact ih hwritten hrun
      · rw [if_pos hgt] at hrun
        rw [hdrop1, hdrop2, diffBy_cons_gt _ _ hgt, ← hdrop1]
        exact ih hwritten hrun
    · rw [if_neg hcond] at hrun
      cases hrun
      refine ⟨rfl, rfl, [], by rwa [List.append_nil], ?_⟩
      rcases not_and_or.mp hcond with hend | hend
      · rw [h1.drop_eq_nil hend, diffBy_nil_left]
        rfl
      · rw [h2.drop_eq_nil hend, diffBy_nil_right, List.nil_append]

theorem notTail_scores (h1 : set1.Allocated) (hwritten : newset.Written total scores)
    (hrun : notTail set1 fuel i newset = .ok newset') :
    newset'.maxWeight = newset.maxWeight ∧ newset'.minWeight = newset.minWeight ∧
      newset'.Written total (scores ++ (set1.hits.drop i).map WeightedEntry.score) := by
  induction fuel generalizing i newset scores with
  | zero => cases hrun
  | succ fuel ih =>
    rw [notTail] at hrun
    by_cases hcond : (i : ℤ) < set1.numHits
    · obtain ⟨entry, hentry, hdrop⟩ := h1.entryAt hcond
      rw [if_pos hcond, hentry] at hrun
      simp only [bind, Except.bind] at hrun
      obtain ⟨next, hput, hrun⟩ := bind_eq_ok.mp hrun
      obtain ⟨hmax, hmin, hnext⟩ := ih (hwritten.of_put hput) hrun
      obtain ⟨hput_max, hput_min⟩ := NewSet.weights_of_put hput
      refine ⟨hmax.trans hput_max, hmin.trans hput_min, ?_⟩
      rw [hdrop, List.map_cons, List.append_cons]
      exact hnext
    · rw [if_neg hcond] at hrun
      cases hrun
      refine ⟨rfl, rfl, ?_⟩
      rw [h1.drop_eq_nil hcond, List.map_nil, List.append_nil]
      exact hwritten

end Loops

/-- A set with these scores, in whatever order, whose bounds are running bounds of them. -/
structure MergedScores (set : WeightedResult) (scores : List (ℤ × ℚ)) : Prop where
  perm : set.scores.Perm scores
  maxWeight : set.maxWeight = highest (scores.map Prod.snd)
  minWeight : set.minWeight = lowest (scores.map Prod.snd)

section Finished

variable {callees : MergeCallees} (hsorts : SortingCallees callees)

include hsorts

theorem bounds_ranked (flags : ℕ) (set : WeightedResult) :
    (ranked callees flags set).maxWeight = set.maxWeight ∧
      (ranked callees flags set).minWeight = set.minWeight := by
  rw [ranked, hsorts.seRankDocs_eq]
  split <;> exact ⟨rfl, rfl⟩

theorem NewSet.Written.perm_ranked (h : newset.Written total scores) (flags : ℕ) (filename : String)
    (component : Option ℕ) (resultType : ℕ) (resultWeight : ℚ) :
    (ranked callees flags
      (newset.finish filename component resultType resultWeight)).scores.Perm scores := by
  obtain ⟨out, hfilled, rfl⟩ := h
  have hcells : out.length ≤ newset.cells.length := by
    rw [hfilled.holds.length_cells]
    exact hfilled.holds.length_le
  have hhits (set : WeightedResult) (hnum : set.numHits = newset.index)
      (hentries : set.entries = newset.cells) : set.Allocated ∧ set.hits = out := by
    refine ⟨⟨by omega, ?_⟩, ?_⟩
    · rwa [hnum, hentries, Int.toNat_natCast, hfilled.index_eq]
    · rw [WeightedResult.hits, hnum, hentries, Int.toNat_natCast, hfilled.index_eq,
        hfilled.holds.take]
  rw [ranked, hsorts.seRankDocs_eq]
  split
  · obtain ⟨halloc, hout⟩ := hhits { newset.finish filename component resultType resultWeight with
      resultType := resultType ||| flags } rfl rfl
    have hranked := halloc.hits_qsort compareWeights
    rw [hout] at hranked
    rw [WeightedResult.scores]
    refine List.Perm.map _ ?_
    exact (List.Perm.of_eq hranked).trans (List.perm_insertionSort _ out)
  · obtain ⟨-, hout⟩ := hhits (newset.finish filename component resultType resultWeight) rfl rfl
    rw [WeightedResult.scores, hout]

theorem NewSet.Merging.mergedScores (h : newset.Merging total scores) (flags : ℕ) (filename : String)
    (component : Option ℕ) (resultType : ℕ) (resultWeight : ℚ) :
    MergedScores (ranked callees flags (newset.finish filename component resultType resultWeight))
      scores where
  perm := h.written.perm_ranked hsorts flags filename component resultType resultWeight
  maxWeight := (bounds_ranked hsorts flags _).1.trans h.maxWeight
  minWeight := (bounds_ranked hsorts flags _).2.trans h.minWeight

end Finished

/-- A set as it is merged. -/
def WeightedResult.inOrder (set : WeightedResult) : WeightedResult :=
  if set.has RANKED_FLAGS then seSortwtset set else set

theorem SortingCallees.inRecordOrder_eq {callees : MergeCallees} (hsorts : SortingCallees callees)
    (set : WeightedResult) : inRecordOrder callees set = set.inOrder := by
  rw [inRecordOrder, hsorts.seSortwtset_eq]
  rfl

section InOrder

variable {set : WeightedResult}

theorem perm_hits_inOrder (h : set.Allocated) : set.inOrder.hits.Perm set.hits := by
  rw [WeightedResult.inOrder]
  split
  · rw [seSortwtset, h.hits_qsort]
    exact List.perm_insertionSort _ _
  · exact List.Perm.refl _

theorem allocated_inOrder (h : set.Allocated) : set.inOrder.Allocated := by
  rw [WeightedResult.inOrder]
  split
  · exact h.qsort compareWtEntries
  · exact h

theorem increasing_inOrder (h : set.Sortable) : set.inOrder.recordNums.Pairwise (· < ·) := by
  have hnodup : set.inOrder.recordNums.Nodup :=
    ((perm_hits_inOrder h.toAllocated).map _).nodup_iff.mpr h.distinct
  rw [WeightedResult.inOrder] at hnodup ⊢
  split at hnodup
  · rename_i hranked
    rw [if_pos hranked]
    exact h.sorted_seSortwtset.imp₂ (fun _ _ hle hne ↦ lt_of_le_of_ne hle hne) hnodup
  · rename_i hranked
    rw [if_neg hranked]
    exact h.ordered (by simpa using hranked)

theorem header_inOrder (set : WeightedResult) : set.inOrder = { set with entries := set.inOrder.entries } := by
  rw [WeightedResult.inOrder]
  split <;> rfl

theorem orAloneWeight_inOrder (addweights : ℕ) (set : WeightedResult) (entry : WeightedEntry) (next : ℕ) :
    orAloneWeight addweights set.inOrder entry next = orAloneWeight addweights set entry next := by
  rw [header_inOrder]
  rfl

theorem orTailWeight_inOrder (addweights : ℕ) (set : WeightedResult) (entry : WeightedEntry) :
    orTailWeight addweights set.inOrder entry = orTailWeight addweights set entry := by
  rw [header_inOrder]
  rfl

theorem orWeight_inOrder (addweights : ℕ) (fuzzFlag : Bool) (set1 set2 : WeightedResult)
    (entry1 entry2 : WeightedEntry) :
    orWeight addweights fuzzFlag set1.inOrder set2.inOrder entry1 entry2 =
      orWeight addweights fuzzFlag set1 set2 entry1 entry2 := by
  rw [header_inOrder set1, header_inOrder set2]
  rfl

theorem orRules_inOrder (addweights : ℕ) (fuzzFlag : Bool) (set1 set2 : WeightedResult) :
    orRules addweights fuzzFlag set1.inOrder set2.inOrder = orRules addweights fuzzFlag set1 set2 := by
  simp only [orRules, orAloneWeight_inOrder, orTailWeight_inOrder, orWeight_inOrder]

end InOrder

theorem increasing_items {set : WeightedResult} (h : set.Sortable) :
    ((set.inOrder.items 0).map itemKey).Pairwise (· < ·) := by
  rw [map_itemKey_items]
  exact increasing_inOrder h

theorem forall_itemKey {set : WeightedResult} (h : set.Sortable) (p : ℤ → Prop) :
    (∀ item ∈ set.inOrder.items 0, p (itemKey item)) ↔ ∀ record ∈ set.recordNums, p record := by
  have hperm := (perm_hits_inOrder h.toAllocated).map WeightedEntry.recordNum
  rw [← List.forall_mem_map, map_itemKey_items]
  exact forall_congr' fun record ↦ imp_congr_left hperm.mem_iff

/-- The operands of OR: neither asks for another routine, and page and component sets are turned into
sets of distinct documents where the code does so. -/
structure OrOperands (callees : MergeCallees) (inset1 inset2 set1 set2 : WeightedResult) : Prop
    extends Direct inset1 inset2 where
  operands : ∃ paged comp, pagedOperands callees inset1 inset2 = .ok paged ∧
    componentOperandsOr callees inset1 inset2 paged.set1 paged.set2 = .ok comp ∧
    comp.set1 = set1 ∧ comp.set2 = set2
  sortable1 : set1.Sortable
  sortable2 : set2.Sortable

/-- The routines of operands that are merged as they are. -/
def sortingOnly : MergeCallees :=
  ⟨fun _ _ _ _ ↦ .ok none, fun _ _ _ ↦ .ok none, fun _ _ ↦ .ok none, fun _ ↦ .ok none,
    seSortwtset, seRankDocs⟩

/-- A ranked set of three records. -/
def threeRanked : WeightedResult where
  setid := ""
  filename := "docs"
  resultType := PROBABILISTIC_RESULT
  component := none
  termid := []
  numHits := 3
  resultWeight := 0
  maxWeight := 3
  minWeight := 1
  entries := [⟨2, 0, 3⟩, ⟨5, 0, 2⟩, ⟨1, 0, 1⟩]

theorem mergeable_threeRanked : threeRanked.Mergeable where
  nonneg := by decide
  covered := by decide
  distinct := by decide
  ordered := by decide
  unstructured := by decide

theorem mergeable_singleton (record : ℤ) : (WeightedResult.ofRecords "docs" [record]).Mergeable where
  nonneg := Int.natCast_nonneg 1
  covered := le_rfl
  distinct := List.nodup_singleton record
  ordered := fun _ ↦ List.pairwise_singleton _ _
  unstructured := Nat.zero_and _

section Operators

variable {callees : MergeCallees} {inset1 inset2 set1 set2 : WeightedResult}

theorem WeightedResult.Mergeable.orOperands (h1 : set1.Mergeable) (h2 : set2.Mergeable) :
    OrOperands callees set1 set2 set1 set2 where
  toDirect := h1.direct h2
  operands := ⟨_, _, pagedOperands_mergeable h1 h2, componentOperandsOr_mergeable h1 h2, rfl, rfl⟩
  sortable1 := h1.toSortable
  sortable2 := h2.toSortable

def orScores (addweights : ℕ) (fuzzFlag : Bool) (set1 set2 : WeightedResult) : List (ℤ × ℚ) :=
  unionWith itemKey (orRules addweights fuzzFlag set1 set2) (set1.inOrder.items 0)
    (set2.inOrder.items 0)

theorem increasing_orScores {set1 set2 : WeightedResult} (h1 : set1.Sortable) (h2 : set2.Sortable) :
    ((orScores addweights fuzzFlag set1 set2).map Prod.fst).Pairwise (· < ·) := by
  have hunion := @map_unionWith _ _ _ _ itemKey (orRules addweights fuzzFlag set1 set2) Prod.fst
    (fun _ _ ↦ rfl) (fun _ ↦ rfl) (fun _ ↦ rfl) (fun _ ↦ rfl) (fun _ ↦ rfl)
    (set1.inOrder.items 0) (set2.inOrder.items 0)
  rw [orScores, hunion, map_itemKey_items, map_itemKey_items]
  exact SortedMerge.strictlyIncreasing_union (increasing_inOrder h1) (increasing_inOrder h2)

theorem seOrmerge_scores (hsorts : SortingCallees callees)
    (h : OrOperands callees inset1 inset2 set1 set2) (addweights : ℕ) :
    ∃ merged, seOrmerge callees (some inset1) (some inset2) addweights = .ok (some merged) ∧
      MergedScores merged
        (orScores addweights (inset1.has FUZZY_REQUEST && inset2.has FUZZY_REQUEST) set1 set2) := by
  obtain ⟨paged, comp, hpaged, hcomp, rfl, rfl⟩ := h.operands
  obtain ⟨merged, hmerged, -⟩ := seOrmerge_operands hsorts h.toDirect hpaged hcomp h.sortable1
    h.sortable2 addweights
  refine ⟨merged, hmerged, ?_⟩
  have ha1 := allocated_inOrder h.sortable1.toAllocated
  have ha2 := allocated_inOrder h.sortable2.toAllocated
  simp only [seOrmerge, h.virtual1, h.virtual2, h.bitmap1, h.bitmap2, Bool.or_self,
    Bool.false_eq_true, if_false, hpaged, hcomp, bind, Except.bind, hsorts.inRecordOrder_eq] at hmerged
  obtain ⟨⟨i1, i2, afterLoop⟩, hloop, hmerged⟩ := bind_eq_ok.mp hmerged
  obtain ⟨afterFirst, hfirst, hmerged⟩ := bind_eq_ok.mp hmerged
  obtain ⟨afterSecond, hsecond, hmerged⟩ := bind_eq_ok.mp hmerged
  obtain ⟨middle, hmiddle, hunion⟩ := orLoop_scores ha1 ha2 (NewSet.merging_alloc _) hloop
  have hdone := orTail_scores ha2 (orTail_scores ha1 hmiddle hfirst) hsecond
  rw [orScores, ← orRules_inOrder, hunion]
  rw [List.nil_append, List.append_assoc] at hdone
  rw [← Option.some.inj (Except.ok.inj hmerged)]
  exact hdone.mergedScores hsorts _ _ _ _ _

def andScores (fuzzFlag : Bool) (set1 set2 : WeightedResult) : List (ℤ × ℚ) :=
  interWith WeightedEntry.recordNum (andScore fuzzFlag (probFlag set1 set2)) set1.inOrder.hits
    set2.inOrder.hits

theorem increasing_andScores {set1 set2 : WeightedResult} (h1 : set1.Sortable) :
    ((andScores fuzzFlag set1 set2).map Prod.fst).Pairwise (· < ·) := by
  have hinter := @map_interWith _ _ _ _ WeightedEntry.recordNum
    (andScore fuzzFlag (probFlag set1 set2)) Prod.fst (fun _ _ ↦ rfl) set1.inOrder.hits
    set2.inOrder.hits
  rw [andScores, hinter]
  exact SortedMerge.strictlyIncreasing_inter _ (increasing_inOrder h1)

theorem seAndmerge_scores (hsorts : SortingCallees callees) (h1 : set1.Mergeable)
    (h2 : set2.Mergeable) :
    ∃ merged, seAndmerge callees (some set1) (some set2) = .ok (some merged) ∧
      MergedScores merged (andScores (set1.has FUZZY_REQUEST && set1.has FUZZY_REQUEST) set1 set2) := by
  obtain ⟨merged, hmerged, -⟩ := seAndmerge_mergeable hsorts h1 h2
  refine ⟨merged, hmerged, ?_⟩
  have hdirect := h1.direct h2
  have ha1 := allocated_inOrder h1.toAllocated
  have ha2 := allocated_inOrder h2.toAllocated
  simp only [seAndmerge, hdirect.virtual1, hdirect.virtual2, hdirect.bitmap1, hdirect.bitmap2,
    Bool.or_self, Bool.false_eq_true, if_false, pagedOperands_mergeable h1 h2, bind, Except.bind,
    componentOperands_mergeable h1 h2, hsorts.inRecordOrder_eq] at hmerged
  obtain ⟨afterLoop, hloop, hmerged⟩ := bind_eq_ok.mp hmerged
  have hdone := andLoop_scores ha1 ha2 (NewSet.merging_alloc _) hloop
  rw [List.nil_append, List.drop_zero, List.drop_zero] at hdone
  rw [← Option.some.inj (Except.ok.inj hmerged), andScores]
  exact hdone.mergedScores hsorts _ _ _ _ _

def notScores (set1 set2 : WeightedResult) : List (ℤ × ℚ) :=
  (diffBy WeightedEntry.recordNum set1.inOrder.hits set2.inOrder.hits).map WeightedEntry.score

theorem seNotmerge_scores (hsorts : SortingCallees callees) (h1 : set1.Mergeable)
    (h2 : set2.Mergeable) :
    ∃ merged, seNotmerge callees (some set1) (some set2) = .ok (some merged) ∧
      merged.scores.Perm (notScores set1 set2) ∧ merged.maxWeight = set1.maxWeight ∧
      merged.minWeight = set1.minWeight := by
  obtain ⟨merged, hmerged, -⟩ := seNotmerge_mergeable hsorts h1 h2
  refine ⟨merged, hmerged, ?_⟩
  have hdirect := h1.direct h2
  have ha1 := allocated_inOrder h1.toAllocated
  have ha2 := allocated_inOrder h2.toAllocated
  simp only [seNotmerge, hdirect.virtual1, hdirect.virtual2, hdirect.bitmap1, hdirect.bitmap2,
    Bool.or_self, Bool.false_eq_true, if_false, pagedOperands_mergeable h1 h2, bind, Except.bind,
    componentOperands_mergeable h1 h2, hsorts.inRecordOrder_eq] at hmerged
  obtain ⟨⟨i1, afterLoop⟩, hloop, hmerged⟩ := bind_eq_ok.mp hmerged
  obtain ⟨afterTail, htail, hmerged⟩ := bind_eq_ok.mp hmerged
  obtain ⟨out, hfilled, hout⟩ := NewSet.written_alloc
    (if set1.inOrder.numHits > set2.inOrder.numHits then set1.inOrder.numHits.toNat
      else set2.inOrder.numHits.toNat)
  obtain ⟨hmax, hmin, middle, hmiddle, hdiff⟩ := notLoop_scores ha1 ha2
    ⟨out, hfilled.weights set1.inOrder.maxWeight set1.inOrder.minWeight, hout⟩ hloop
  obtain ⟨htail_max, htail_min, hdone⟩ := notTail_scores ha1 hmiddle htail
  rw [List.nil_append, ← hdiff, List.drop_zero, List.drop_zero] at hdone
  rw [← Option.some.inj (Except.ok.inj hmerged), notScores]
  have hheader := header_inOrder set1
  obtain ⟨hranked_max, hranked_min⟩ := bounds_ranked hsorts (probFlag set1 set2)
    (afterTail.finish set1.inOrder.filename none
      (mergedType ⟨set1, set2, false, 0⟩ ⟨set1, set2, false, 0⟩
        (set1.has FUZZY_REQUEST && set2.has FUZZY_REQUEST)) 0)
  refine ⟨hdone.perm_ranked hsorts _ _ _ _ _, ?_, ?_⟩
  · refine hranked_max.trans (htail_max.trans (hmax.trans ?_))
    rw [hheader]
  · refine hranked_min.trans (htail_min.trans (hmin.trans ?_))
    rw [hheader]

end Operators

end Cheshire.Search
