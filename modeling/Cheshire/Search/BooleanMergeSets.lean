import Cheshire.Lib.SortedMerge
import Cheshire.Search.BooleanMerge

/-!
# Boolean merges as set algebra

Each merge loop is compared with the two-cursor list operation it implements: what the loop still
has to write is the list operation applied to the hits behind the two cursors.  The bound on the
output index comes from the cursors, since every entry written has advanced one of them.
-/

namespace Cheshire.Search

open Lib Lib.SortedMerge

/-- The new set holds exactly `out`, in a block for `total` entries and the one in the header. -/
structure NewSet.Filled (newset : NewSet) (total : ℕ) (out : List WeightedEntry) : Prop where
  holds : Buffer.Holds WeightedEntry.zero (total + 1) newset.cells out
  index_eq : newset.index = out.length

theorem NewSet.filled_alloc (total : ℕ) : (NewSet.alloc total).Filled total [] :=
  ⟨Buffer.holds_calloc _ _, rfl⟩

variable {newset : NewSet} {total : ℕ} {out : List WeightedEntry}

theorem NewSet.Filled.bound (h : newset.Filled total out) (weight : ℚ) :
    (newset.bound weight).Filled total out := ⟨h.holds, h.index_eq⟩

theorem NewSet.Filled.weights (h : newset.Filled total out) (maxWeight minWeight : ℚ) :
    { newset with maxWeight := maxWeight, minWeight := minWeight }.Filled total out :=
  ⟨h.holds, h.index_eq⟩

theorem NewSet.Filled.put (h : newset.Filled total out) (hlt : out.length < total)
    (entry : WeightedEntry) :
    ∃ newset', newset.put entry = .ok newset' ∧ newset'.Filled total (out ++ [entry]) := by
  obtain ⟨cells, hcells, hholds⟩ := h.holds.store (by omega) entry
  refine ⟨{ newset with cells := cells, index := newset.index + 1 }, ?_, hholds, ?_⟩
  · rw [NewSet.put, h.index_eq, hcells]
  · simp [h.index_eq]

theorem NewSet.Filled.of_put (h : newset.Filled total out) {entry : WeightedEntry}
    {newset' : NewSet} (hput : newset.put entry = .ok newset') :
    newset'.Filled total (out ++ [entry]) := by
  unfold NewSet.put at hput
  rw [h.index_eq] at hput
  split at hput
  · rename_i cells hcells
    obtain rfl := Except.ok.inj hput
    exact ⟨h.holds.of_store hcells, by simp⟩
  · cases hput

/-- A set whose hits are strictly increasing and number `records` exactly, and whose block was
written nowhere else, so that nothing lies beyond the first `total` entries. -/
structure MergedExactly (set : WeightedResult) (total : ℕ) (records : List ℤ) : Prop where
  recordNums_eq : set.recordNums = records
  numHits_eq : set.numHits = (records.length : ℤ)
  within : records.length ≤ total
  untouched : set.entries.drop records.length =
    List.replicate (total + 1 - records.length) WeightedEntry.zero

theorem NewSet.Filled.finish (h : newset.Filled total out) (hle : out.length ≤ total)
    (filename : String) (component : Option ℕ) (resultType : ℕ) (resultWeight : ℚ) :
    MergedExactly (newset.finish filename component resultType resultWeight) total
      (out.map WeightedEntry.recordNum) where
  recordNums_eq := by
    simp only [WeightedResult.recordNums, WeightedResult.hits, NewSet.finish, h.index_eq,
      Int.toNat_natCast, h.holds.take]
  numHits_eq := by simp [NewSet.finish, h.index_eq]
  within := by simpa using hle
  untouched := by simpa [NewSet.finish] using h.holds.drop

section Loops

variable {set1 set2 : WeightedResult}

/-- The record numbers that a cursor has not passed. -/
def WeightedResult.ahead (set : WeightedResult) (index : ℕ) : List ℤ :=
  (set.hits.drop index).map WeightedEntry.recordNum

@[simp] theorem WeightedResult.ahead_zero (set : WeightedResult) : set.ahead 0 = set.recordNums := by
  simp [WeightedResult.ahead, WeightedResult.recordNums]

theorem WeightedResult.Allocated.ahead_cons (h : set1.Allocated) {index : ℕ}
    (hlt : (index : ℤ) < set1.numHits) :
    ∃ entry, set1.entryAt index = .ok entry ∧
      set1.ahead index = entry.recordNum :: set1.ahead (index + 1) := by
  obtain ⟨entry, hentry, hdrop⟩ := h.entryAt hlt
  exact ⟨entry, hentry, by rw [WeightedResult.ahead, hdrop, List.map_cons]; rfl⟩

theorem WeightedResult.Allocated.ahead_nil (h : set1.Allocated) {index : ℕ}
    (hle : ¬(index : ℤ) < set1.numHits) : set1.ahead index = [] := by
  rw [WeightedResult.ahead, h.drop_eq_nil hle, List.map_nil]

/-- Invariant of the AND loop: at most as many entries are written as either cursor has passed,
and the intersection of what lies ahead is still to be written. -/
theorem andLoop_spec (h1 : set1.Allocated) (h2 : set2.Allocated) (fuzzFlag : Bool) (flags : ℕ)
    (htotal : min set1.numHits set2.numHits ≤ total) (fuel i1 i2 : ℕ)
    (hfuel : (set1.numHits.toNat - i1) + (set2.numHits.toNat - i2) < fuel)
    (hfilled : newset.Filled total out) (hi1 : out.length ≤ i1) (hi2 : out.length ≤ i2)
    (hn1 : out.length ≤ set1.numHits) (hn2 : out.length ≤ set2.numHits) :
    ∃ newset' out', andLoop fuzzFlag flags set1 set2 fuel i1 i2 newset = .ok newset' ∧
      newset'.Filled total out' ∧ out'.length ≤ total ∧
      out'.map WeightedEntry.recordNum =
        out.map WeightedEntry.recordNum ++ inter (set1.ahead i1) (set2.ahead i2) := by
  induction fuel generalizing i1 i2 newset out with
  | zero => omega
  | succ fuel ih =>
    by_cases hcond : (i1 : ℤ) < set1.numHits ∧ (i2 : ℤ) < set2.numHits
    · obtain ⟨entry1, hentry1, hahead1⟩ := h1.ahead_cons hcond.1
      obtain ⟨entry2, hentry2, hahead2⟩ := h2.ahead_cons hcond.2
      rw [andLoop, if_pos hcond, hentry1, hentry2, hahead1, hahead2]
      simp only [bind, Except.bind]
      rcases lt_trichotomy entry1.recordNum entry2.recordNum with hlt | heq | hgt
      · rw [if_pos hlt, inter_cons_lt _ _ hlt, ← hahead2]
        exact ih (i1 + 1) i2 (by omega) hfilled (by omega) hi2 hn1 hn2
      · rw [if_neg heq.not_lt, if_neg heq.not_gt, heq, inter_cons_eq]
        obtain ⟨newset', hput, hfilled'⟩ := hfilled.put (by omega)
          { recordNum := entry1.recordNum, xtra := 0,
            weight := andWeight fuzzFlag flags entry1.weight entry2.weight }
        rw [heq] at hput
        rw [hput]
        obtain ⟨last, out', hloop, hlast, hle, hout⟩ :=
          ih (i1 + 1) (i2 + 1) (by omega)
            (hfilled'.bound (andWeight fuzzFlag flags entry1.weight entry2.weight))
            (by simpa using hi1) (by simpa using hi2)
            (by simp; omega) (by simp; omega)
        refine ⟨last, out', hloop, hlast, hle, ?_⟩
        rw [hout]
        simp [heq]
      · rw [if_neg hgt.not_gt, if_pos hgt, inter_cons_gt _ _ hgt, ← hahead1]
        exact ih i1 (i2 + 1) (by omega) hfilled hi1 (by omega) hn1 hn2
    · refine ⟨newset, out, by rw [andLoop, if_neg hcond], hfilled, by omega, ?_⟩
      rcases not_and_or.mp hcond with hend | hend
      · rw [h1.ahead_nil hend, inter_nil_left, List.append_nil]
      · rw [h2.ahead_nil hend, inter_nil_right, List.append_nil]

/-- Invariant of the OR loop: the entries written are at most the steps of both cursors, and the
union of what lies ahead of the final cursors, one of which is at its end, is still to be
written. -/
theorem orLoop_spec (h1 : set1.Allocated) (h2 : set2.Allocated) (addweights : ℕ)
    (fuzzFlag : Bool) (htotal : set1.numHits + set2.numHits ≤ total) (fuel i1 i2 : ℕ)
    (hfuel : (set1.numHits.toNat - i1) + (set2.numHits.toNat - i2) < fuel)
    (hfilled : newset.Filled total out) (hlength : out.length ≤ i1 + i2)
    (hn1 : i1 ≤ set1.numHits) (hn2 : i2 ≤ set2.numHits) :
    ∃ j1 j2 newset' out',
      orLoop addweights fuzzFlag set1 set2 fuel i1 i2 newset = .ok (j1, j2, newset') ∧
      newset'.Filled total out' ∧ out'.length ≤ j1 + j2 ∧
      j1 ≤ set1.numHits ∧ j2 ≤ set2.numHits ∧ (set1.ahead j1 = [] ∨ set2.ahead j2 = []) ∧
      out'.map WeightedEntry.recordNum ++ (set1.ahead j1 ++ set2.ahead j2) =
        out.map WeightedEntry.recordNum ++ union (set1.ahead i1) (set2.ahead i2) := by
  induction fuel generalizing i1 i2 newset out with
  | zero => omega
  | succ fuel ih =>
    by_cases hcond : (i1 : ℤ) < set1.numHits ∧ (i2 : ℤ) < set2.numHits
    · obtain ⟨entry1, hentry1, hahead1⟩ := h1.ahead_cons hcond.1
      obtain ⟨entry2, hentry2, hahead2⟩ := h2.ahead_cons hcond.2
      rw [orLoop, if_pos hcond, hentry1, hentry2]
      simp only [bind, Except.bind]
      -- one step writes `entry` and leaves the rest of the union to the next round
      have hstep : ∀ (entry : WeightedEntry) (weight : ℚ) (k1 k2 : ℕ),
          i1 ≤ k1 → i2 ≤ k2 → k1 + k2 ≤ i1 + i2 + 2 → i1 + i2 < k1 + k2 →
          k1 ≤ set1.numHits → k2 ≤ set2.numHits →
          union (set1.ahead i1) (set2.ahead i2) =
            entry.recordNum :: union (set1.ahead k1) (set2.ahead k2) →
          ∃ newset', newset.put entry = .ok newset' ∧
          ∃ j1 j2 last out',
            orLoop addweights fuzzFlag set1 set2 fuel k1 k2 (newset'.bound weight) =
              .ok (j1, j2, last) ∧
            last.Filled total out' ∧ out'.length ≤ j1 + j2 ∧
            j1 ≤ set1.numHits ∧ j2 ≤ set2.numHits ∧ (set1.ahead j1 = [] ∨ set2.ahead j2 = []) ∧
            out'.map WeightedEntry.recordNum ++ (set1.ahead j1 ++ set2.ahead j2) =
              out.map WeightedEntry.recordNum ++ union (set1.ahead i1) (set2.ahead i2) := by
        intro entry weight k1 k2 hk1 hk2 hk hkk hkn1 hkn2 hunion
        obtain ⟨newset', hput, hfilled'⟩ := hfilled.put (by omega) entry
        obtain ⟨j1, j2, last, out', hloop, hlast, hlen, hj1, hj2, hnil, hout⟩ :=
          ih k1 k2 (by omega) (hfilled'.bound weight)
            (by rw [List.length_append, List.length_singleton]; omega) hkn1 hkn2
        refine ⟨newset', hput, j1, j2, last, out', hloop, hlast, hlen, hj1, hj2, hnil, ?_⟩
        rw [hout, hunion]
        simp
      rcases lt_trichotomy entry1.recordNum entry2.recordNum with hlt | heq | hgt
      · rw [if_neg hlt.ne, if_pos hlt]
        obtain ⟨newset', hput, hrest⟩ := hstep
          { entry1 with weight := orAloneWeight addweights set1 entry1 (i1 + 1) }
          (orAloneWeight addweights set1 entry1 (i1 + 1)) (i1 + 1) i2 (by omega) le_rfl
          (by omega) (by omega) (by omega) hn2
          (by rw [hahead1, hahead2, union_cons_lt _ _ hlt])
        rw [hput]
        exact hrest
      · rw [if_pos heq]
        obtain ⟨newset', hput, hrest⟩ := hstep
          { entry1 with weight := orWeight addweights fuzzFlag set1 set2 entry1 entry2 }
          (orWeight addweights fuzzFlag set1 set2 entry1 entry2) (i1 + 1) (i2 + 1) (by omega)
          (by omega) (by omega) (by omega) (by omega) (by omega)
          (by rw [hahead1, hahead2, heq, union_cons_eq])
        rw [hput]
        exact hrest
      · rw [if_neg hgt.ne', if_neg hgt.not_gt]
        obtain ⟨newset', hput, hrest⟩ := hstep
          { entry2 with weight := orAloneWeight addweights set2 entry2 (i2 + 1) }
          (orAloneWeight addweights set2 entry2 (i2 + 1)) i1 (i2 + 1) le_rfl (by omega)
          (by omega) (by omega) hn1 (by omega)
          (by rw [hahead1, hahead2, union_cons_gt _ _ hgt])
        rw [hput]
        exact hrest
    · refine ⟨i1, i2, newset, out, by rw [orLoop, if_neg hcond], hfilled, hlength, hn1, hn2, ?_⟩
      rcases not_and_or.mp hcond with hend | hend
      · rw [h1.ahead_nil hend]
        simp
      · rw [h2.ahead_nil hend]
        simp

theorem orTail_spec (h1 : set1.Allocated) (addweights : ℕ) (fuel i : ℕ)
    (hfuel : set1.numHits.toNat - i < fuel) (hfilled : newset.Filled total out)
    (htotal : out.length + (set1.ahead i).length ≤ total) :
    ∃ newset' out', orTail addweights set1 fuel i newset = .ok newset' ∧
      newset'.Filled total out' ∧
      out'.map WeightedEntry.recordNum = out.map WeightedEntry.recordNum ++ set1.ahead i := by
  induction fuel generalizing i newset out with
  | zero => omega
  | succ fuel ih =>
    by_cases hcond : (i : ℤ) < set1.numHits
    · obtain ⟨entry, hentry, hahead⟩ := h1.ahead_cons hcond
      rw [hahead, List.length_cons] at htotal
      rw [orTail, if_pos hcond, hentry]
      simp only [bind, Except.bind]
      obtain ⟨newset', hput, hfilled'⟩ := hfilled.put (by omega)
        { entry with weight := orTailWeight addweights set1 entry }
      rw [hput]
      obtain ⟨last, out', hloop, hlast, hout⟩ :=
        ih (i + 1) (by omega) (hfilled'.bound (orTailWeight addweights set1 entry))
          (by rw [List.length_append, List.length_singleton]; omega)
      exact ⟨last, out', hloop, hlast, by rw [hout, hahead]; simp⟩
    · refine ⟨newset, out, by rw [orTail, if_neg hcond], hfilled, ?_⟩
      rw [h1.ahead_nil hcond, List.append_nil]

/-- Invariant of the NOT loop: at most as many entries are written as the first cursor has passed;
the difference of what lies ahead is still to be written, and when the loop stops that is what
lies ahead of the first cursor. -/
theorem notLoop_spec (h1 : set1.Allocated) (h2 : set2.Allocated)
    (htotal : set1.numHits ≤ total) (fuel i1 i2 : ℕ)
    (hfuel : (set1.numHits.toNat - i1) + (set2.numHits.toNat - i2) < fuel)
    (hfilled : newset.Filled total out) (hi1 : out.length ≤ i1) (hn1 : i1 ≤ set1.numHits) :
    ∃ j1 newset' out', notLoop set1 set2 fuel i1 i2 newset = .ok (j1, newset') ∧
      newset'.Filled total out' ∧ out'.length ≤ j1 ∧ j1 ≤ set1.numHits ∧
      out'.map WeightedEntry.recordNum ++ set1.ahead j1 =
        out.map WeightedEntry.recordNum ++ diff (set1.ahead i1) (set2.ahead i2) := by
  induction fuel generalizing i1 i2 newset out with
  | zero => omega
  | succ fuel ih =>
    by_cases hcond : (i1 : ℤ) < set1.numHits ∧ (i2 : ℤ) < set2.numHits
    · obtain ⟨entry1, hentry1, hahead1⟩ := h1.ahead_cons hcond.1
      obtain ⟨entry2, hentry2, hahead2⟩ := h2.ahead_cons hcond.2
      rw [notLoop, if_pos hcond, hentry1, hentry2, hahead1, hahead2]
      simp only [bind, Except.bind]
      rcases lt_trichotomy entry1.recordNum entry2.recordNum with hlt | heq | hgt
      · rw [if_neg hlt.not_gt, if_neg hlt.ne, diff_cons_lt _ _ hlt, ← hahead2]
        obtain ⟨newset', hput, hfilled'⟩ := hfilled.put (by omega)
          { recordNum := entry1.recordNum, xtra := 0, weight := entry1.weight }
        rw [hput]
        obtain ⟨j1, last, out', hloop, hlast, hle, hj1, hout⟩ :=
          ih (i1 + 1) i2 (by omega) hfilled' (by simpa using hi1) (by omega)
        exact ⟨j1, last, out', hloop, hlast, hle, hj1, by rw [hout]; simp⟩
      · rw [if_neg heq.not_gt, if_pos heq, heq, diff_cons_eq]
        exact ih (i1 + 1) (i2 + 1) (by omega) hfilled (by omega) (by omega)
      · rw [if_pos hgt, diff_cons_gt _ _ hgt, ← hahead1]
        exact ih i1 (i2 + 1) (by omega) hfilled hi1 hn1
    · refine ⟨i1, newset, out, by rw [notLoop, if_neg hcond], hfilled, hi1, hn1, ?_⟩
      rcases not_and_or.mp hcond with hend | hend
      · rw [h1.ahead_nil hend, diff_nil_left]
      · rw [h2.ahead_nil hend, diff_nil_right]

theorem notTail_spec (h1 : set1.Allocated) (fuel i : ℕ)
    (hfuel : set1.numHits.toNat - i < fuel) (hfilled : newset.Filled total out)
    (htotal : out.length + (set1.ahead i).length ≤ total) :
    ∃ newset' out', notTail set1 fuel i newset = .ok newset' ∧
      newset'.Filled total out' ∧
      out'.map WeightedEntry.recordNum = out.map WeightedEntry.recordNum ++ set1.ahead i := by
  induction fuel generalizing i newset out with
  | zero => omega
  | succ fuel ih =>
    by_cases hcond : (i : ℤ) < set1.numHits
    · obtain ⟨entry, hentry, hahead⟩ := h1.ahead_cons hcond
      rw [hahead, List.length_cons] at htotal
      rw [notTail, if_pos hcond, hentry]
      simp only [bind, Except.bind]
      obtain ⟨newset', hput, hfilled'⟩ := hfilled.put (by omega) entry
      rw [hput]
      obtain ⟨last, out', hloop, hlast, hout⟩ :=
        ih (i + 1) (by omega) hfilled'
          (by rw [List.length_append, List.length_singleton]; omega)
      exact ⟨last, out', hloop, hlast, by rw [hout, hahead]; simp⟩
    · refine ⟨newset, out, by rw [notTail, if_neg hcond], hfilled, ?_⟩
      rw [h1.ahead_nil hcond, List.append_nil]

end Loops

section Operators

variable (callees : MergeCallees) {set1 set2 : WeightedResult}

theorem pagedOperands_unflagged (h1 : set1.Unflagged) (h2 : set2.Unflagged) :
    pagedOperands callees set1 set2 = .ok ⟨set1, set2, false, 0⟩ := by
  have hflag1 := h1.not_has PAGED_RESULT (by decide)
  have hflag2 := h2.not_has PAGED_RESULT (by decide)
  simp [pagedOperands, hflag1, hflag2]

theorem componentOperands_unflagged (inset1 inset2 : WeightedResult) (h1 : set1.Unflagged)
    (h2 : set2.Unflagged) :
    componentOperands callees inset1 inset2 set1 set2 = .ok ⟨set1, set2, false, 0⟩ := by
  have hflag1 := h1.not_has COMPONENT_RESULT (by decide)
  have hflag2 := h2.not_has COMPONENT_RESULT (by decide)
  simp [componentOperands, sameComponent, hflag1, hflag2]

theorem componentOperandsOr_unflagged (inset1 inset2 : WeightedResult) (h1 : set1.Unflagged)
    (h2 : set2.Unflagged) :
    componentOperandsOr callees inset1 inset2 set1 set2 = .ok ⟨set1, set2, false, 0⟩ := by
  have hflag1 := h1.not_has COMPONENT_RESULT (by decide)
  have hflag2 := h2.not_has COMPONENT_RESULT (by decide)
  simp [componentOperandsOr, sameComponent, hflag1, hflag2, bind, Except.bind]

theorem inRecordOrder_unflagged (h1 : set1.Unflagged) : inRecordOrder callees set1 = set1 := by
  have hflag := h1.not_has RANKED_FLAGS (by decide)
  simp [inRecordOrder, hflag]

theorem probFlag_unflagged (h1 : set1.Unflagged) (h2 : set2.Unflagged) : probFlag set1 set2 = 0 := by
  simp [probFlag, h1.not_ranked, h2.not_ranked]

theorem seAndmerge_unflagged (h1 : set1.Unflagged) (h2 : set2.Unflagged) :
    ∃ merged, seAndmerge callees (some set1) (some set2) = .ok (some merged) ∧
      MergedExactly merged (min set1.numHits set2.numHits).toNat
        (inter set1.recordNums set2.recordNums) := by
  have hn1 := h1.nonneg
  have hn2 := h2.nonneg
  have htotal : (if set1.numHits < set2.numHits then set1.numHits.toNat
      else set2.numHits.toNat) = (min set1.numHits set2.numHits).toNat := by
    split <;> omega
  obtain ⟨newset, out, hloop, hfilled, hle, hout⟩ :=
    andLoop_spec h1.toAllocated h2.toAllocated
      (set1.has FUZZY_REQUEST && set1.has FUZZY_REQUEST) 0
      (Int.self_le_toNat (min set1.numHits set2.numHits))
      (set1.numHits.toNat + set2.numHits.toNat + 1) 0 0 (by omega) (NewSet.filled_alloc _)
      le_rfl le_rfl (by simpa using hn1) (by simpa using hn2)
  rw [WeightedResult.ahead_zero, WeightedResult.ahead_zero, List.map_nil, List.nil_append] at hout
  rw [← hout]
  refine ⟨_, ?_, hfilled.finish hle set1.filename none
    (mergedType ⟨set1, set2, false, 0⟩ ⟨set1, set2, false, 0⟩
      (set1.has FUZZY_REQUEST && set1.has FUZZY_REQUEST)) 0⟩
  simp only [seAndmerge, h1.not_has VIRTUAL_RESULT (by decide),
    h2.not_has VIRTUAL_RESULT (by decide),
    h1.not_has BITMAP_RESULT (by decide),
    h2.not_has BITMAP_RESULT (by decide), pagedOperands_unflagged callees h1 h2,
    componentOperands_unflagged callees set1 set2 h1 h2, inRecordOrder_unflagged callees h1,
    inRecordOrder_unflagged callees h2, probFlag_unflagged h1 h2, htotal, bind, Except.bind, hloop]
  rfl

theorem seOrmerge_unflagged (h1 : set1.Unflagged) (h2 : set2.Unflagged) (addweights : ℕ) :
    ∃ merged, seOrmerge callees (some set1) (some set2) addweights = .ok (some merged) ∧
      MergedExactly merged (set1.numHits + set2.numHits).toNat
        (union set1.recordNums set2.recordNums) := by
  have hn1 := h1.nonneg
  have hn2 := h2.nonneg
  obtain ⟨i1, i2, newset, out, hloop, hfilled, hlen, hi1, hi2, hnil, hout⟩ :=
    orLoop_spec h1.toAllocated h2.toAllocated addweights
      (set1.has FUZZY_REQUEST && set2.has FUZZY_REQUEST)
      (Int.self_le_toNat (set1.numHits + set2.numHits))
      (set1.numHits.toNat + set2.numHits.toNat + 1) 0 0 (by omega) (NewSet.filled_alloc _)
      le_rfl (by simpa using hn1) (by simpa using hn2)
  rw [WeightedResult.ahead_zero, WeightedResult.ahead_zero, List.map_nil, List.nil_append] at hout
  have hahead (set : WeightedResult) (h : set.Unflagged) (i : ℕ) :
      (set.ahead i).length = set.numHits.toNat - i := by
    rw [WeightedResult.ahead, List.length_map, List.length_drop, h.length_hits]
  obtain ⟨newset1, out1, htail1, hfilled1, hout1⟩ :=
    orTail_spec h1.toAllocated addweights (set1.numHits.toNat + 1) i1 (by omega) hfilled
      (by rw [hahead set1 h1]; omega)
  have hlen1 : out1.length = out.length + (set1.ahead i1).length := by
    simpa using congrArg List.length hout1
  obtain ⟨newset2, out2, htail2, hfilled2, hout2⟩ :=
    orTail_spec h2.toAllocated addweights (set2.numHits.toNat + 1) i2 (by omega) hfilled1
      (by rw [hlen1, hahead set1 h1, hahead set2 h2]; omega)
  have hle : out2.length ≤ (set1.numHits + set2.numHits).toNat := by
    have hlen2 : out2.length = out1.length + (set2.ahead i2).length := by
      simpa using congrArg List.length hout2
    rw [hlen2, hlen1, hahead set1 h1, hahead set2 h2]
    omega
  rw [hout1, List.append_assoc, hout] at hout2
  rw [← hout2]
  refine ⟨_, ?_, hfilled2.finish hle set1.filename none
    (mergedType ⟨set1, set2, false, 0⟩ ⟨set1, set2, false, 0⟩
      (set1.has FUZZY_REQUEST && set2.has FUZZY_REQUEST))
    (if addweights ≠ 0 then min set1.resultWeight 1 + min set2.resultWeight 1 else 0)⟩
  simp only [seOrmerge, h1.not_has VIRTUAL_RESULT (by decide),
    h2.not_has VIRTUAL_RESULT (by decide),
    h1.not_has BITMAP_RESULT (by decide),
    h2.not_has BITMAP_RESULT (by decide), pagedOperands_unflagged callees h1 h2,
    componentOperandsOr_unflagged callees set1 set2 h1 h2, inRecordOrder_unflagged callees h1,
    inRecordOrder_unflagged callees h2, probFlag_unflagged h1 h2, bind, Except.bind, hloop, htail1, htail2]
  rfl

theorem seNotmerge_unflagged (h1 : set1.Unflagged) (h2 : set2.Unflagged) :
    ∃ merged, seNotmerge callees (some set1) (some set2) = .ok (some merged) ∧
      MergedExactly merged (max set1.numHits set2.numHits).toNat
        (diff set1.recordNums set2.recordNums) := by
  have hn1 := h1.nonneg
  have hn2 := h2.nonneg
  have htotal : (if set1.numHits > set2.numHits then set1.numHits.toNat
      else set2.numHits.toNat) = (max set1.numHits set2.numHits).toNat := by
    split <;> omega
  have halloc := NewSet.filled_alloc (max set1.numHits set2.numHits).toNat
  obtain ⟨i1, newset, out, hloop, hfilled, hlen, hi1, hout⟩ :=
    notLoop_spec h1.toAllocated h2.toAllocated
      ((le_max_left set1.numHits set2.numHits).trans (Int.self_le_toNat _))
      (set1.numHits.toNat + set2.numHits.toNat + 1) 0 0 (by omega)
      (halloc.weights set1.maxWeight set1.minWeight) le_rfl (by simpa using hn1)
  rw [WeightedResult.ahead_zero, WeightedResult.ahead_zero, List.map_nil, List.nil_append] at hout
  have hahead : (set1.ahead i1).length = set1.numHits.toNat - i1 := by
    rw [WeightedResult.ahead, List.length_map, List.length_drop, h1.length_hits]
  obtain ⟨newset', out', htail, hfilled', hout'⟩ :=
    notTail_spec h1.toAllocated (set1.numHits.toNat + 1) i1 (by omega) hfilled
      (by rw [hahead]; omega)
  have hle : out'.length ≤ (max set1.numHits set2.numHits).toNat := by
    have hlen' : out'.length = out.length + (set1.ahead i1).length := by
      simpa using congrArg List.length hout'
    rw [hlen', hahead]
    omega
  rw [hout] at hout'
  rw [← hout']
  refine ⟨_, ?_, hfilled'.finish hle set1.filename none
    (mergedType ⟨set1, set2, false, 0⟩ ⟨set1, set2, false, 0⟩
      (set1.has FUZZY_REQUEST && set2.has FUZZY_REQUEST)) 0⟩
  simp only [seNotmerge, h1.not_has VIRTUAL_RESULT (by decide),
    h2.not_has VIRTUAL_RESULT (by decide),
    h1.not_has BITMAP_RESULT (by decide),
    h2.not_has BITMAP_RESULT (by decide), pagedOperands_unflagged callees h1 h2,
    componentOperands_unflagged callees set1 set2 h1 h2, inRecordOrder_unflagged callees h1,
    inRecordOrder_unflagged callees h2, probFlag_unflagged h1 h2, htotal, bind, Except.bind, hloop, htail]
  rfl

end Operators

/-- A result that lists exactly the members of a set, in increasing order, in a block for `total`
entries of which none beyond the hit count was written. -/
structure ListsExactly (set : WeightedResult) (total : ℕ) (members : ℤ → Prop) : Prop where
  increasing : set.recordNums.Pairwise (· < ·)
  mem_iff : ∀ record, record ∈ set.recordNums ↔ members record
  numHits_eq : set.numHits = set.recordNums.length
  within : set.recordNums.length ≤ total
  untouched : set.entries.drop set.recordNums.length =
    List.replicate (total + 1 - set.recordNums.length) WeightedEntry.zero

theorem MergedExactly.listsExactly {set : WeightedResult} {total : ℕ} {records : List ℤ}
    {members : ℤ → Prop} (h : MergedExactly set total records)
    (hincreasing : records.Pairwise (· < ·)) (hmem : ∀ record, record ∈ records ↔ members record) :
    ListsExactly set total members := by
  obtain ⟨rfl, hnum, hwithin, huntouched⟩ := h
  exact ⟨hincreasing, hmem, hnum, hwithin, huntouched⟩

end Cheshire.Search
