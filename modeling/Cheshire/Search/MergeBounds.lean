import Cheshire.Search.MergeScores
import Cheshire.Search.RpnStructure
import Cheshire.Lib.Runs

/-!
# The bounds of merged sets

AND, OR and NOT are applied one after another to ranked sets whose bounds are the extreme weights of their
hits.  The bounds of a new set are kept while it is filled, and zero counts as not yet set; NOT copies the
bounds of its first operand.
-/

namespace Cheshire.Search

open Lib Lib.KeyedMerge Lib.RunningBounds Lib.Runs

def WeightedResult.weights (set : WeightedResult) : List ℚ := set.hits.map WeightedEntry.weight

/-- The bounds of a set that is not empty are its extreme weights. -/
def HasBounds (set : WeightedResult) : Prop :=
  set.hits ≠ [] → IsGreatest {weight | weight ∈ set.weights} set.maxWeight ∧
    IsLeast {weight | weight ∈ set.weights} set.minWeight

/-- A ranked set that is merged as it is. -/
structure RankedSet (set : WeightedResult) : Prop extends set.Mergeable where
  ranked : set.has RANKED_FLAGS = true

inductive MergeOperation where
  | and
  | or (addweights : ℕ)
  | not
deriving DecidableEq, Repr

def MergeOperation.run (callees : MergeCallees) (inset1 inset2 : Option WeightedResult) :
    MergeOperation → Exec (Option WeightedResult)
  | and => seAndmerge callees inset1 inset2
  | or addweights => seOrmerge callees inset1 inset2 addweights
  | not => seNotmerge callees inset1 inset2

/-- One operator on two of the sets at hand; a number behind them stands for `NULL`. -/
structure MergeStep where
  operator : MergeOperation
  left : ℕ
  right : ℕ
deriving DecidableEq, Repr

/-- The result is added to the sets at hand. -/
def mergeStep (callees : MergeCallees) (sets : List WeightedResult) (step : MergeStep) :
    Exec (List WeightedResult) := do
  let result ← step.operator.run callees sets[step.left]? sets[step.right]?
  .ok (sets ++ result.toList)

/-- The modes in which OR brings the weights of all hits of both sets into a common range. -/
def MergeOperation.Normalises : MergeOperation → Prop
  | or addweights => addweights = MERGENORM ∨ addweights = MERGECMBZ ∨ addweights = MERGENSUM ∨
      addweights = MERGENPRV
  | _ => False

/-- Every hit of the set can be brought into the range from zero to one. -/
def Normal (set : WeightedResult) : Prop :=
  ∀ entry ∈ set.hits, set.maxWeight - set.minWeight ≠ 0 ∧ seMinMaxNorm set entry ∈ Set.Icc 0 1

/-- No call of `se_min_max_norm` leaves the range or divides by zero. -/
def NormalCalls (sets : List WeightedResult) (step : MergeStep) : Prop :=
  step.operator.Normalises → ∀ set1 ∈ sets[step.left]?, ∀ set2 ∈ sets[step.right]?,
    Normal set1 ∧ Normal set2

/-- A set that is not empty has two weights. -/
def Spread (set : WeightedResult) : Prop := set.hits ≠ [] → set.minWeight ≠ set.maxWeight

/-- The difference has a hit of this weight. -/
def KeepsWeight (set1 set2 : WeightedResult) (weight : ℚ) : Prop :=
  ∃ entry ∈ set1.hits, entry.recordNum ∉ set2.recordNums ∧ entry.weight = weight

/-- The weights in record order do not start anew at zero, and a difference has the extreme weights. -/
def MergeOperation.KeepsBounds (set1 set2 : WeightedResult) : MergeOperation → Prop
  | and => Settled ((andScores (set1.has FUZZY_REQUEST) set1 set2).map Prod.snd)
  | or addweights => Settled
      ((orScores addweights (set1.has FUZZY_REQUEST && set2.has FUZZY_REQUEST) set1 set2).map Prod.snd)
  | not => (∃ weight, KeepsWeight set1 set2 weight) →
      KeepsWeight set1 set2 set1.maxWeight ∧ KeepsWeight set1 set2 set1.minWeight

/-- What the step needs of its operands. -/
def BoundsKept (sets : List WeightedResult) (step : MergeStep) : Prop :=
  ∀ set1 ∈ sets[step.left]?, ∀ set2 ∈ sets[step.right]?,
    (step.operator.Normalises → Spread set1 ∧ Spread set2) ∧ step.operator.KeepsBounds set1 set2

theorem weights_eq_scores (set : WeightedResult) : set.weights = set.scores.map Prod.snd := by
  rw [WeightedResult.weights, WeightedResult.scores, List.map_map]
  rfl

theorem normal_iff_spread {set : WeightedResult} (hranked : set.has RANKED_FLAGS = true)
    (hbounds : HasBounds set) : Normal set ↔ Spread set := by
  constructor
  · intro h hne heq
    obtain ⟨entry, hentry⟩ := List.exists_mem_of_ne_nil _ hne
    exact (h entry hentry).1 (by rw [heq, sub_self])
  · intro h entry hentry
    have hne := List.ne_nil_of_mem hentry
    obtain ⟨hgreatest, hleast⟩ := hbounds hne
    have hweight : entry.weight ∈ set.weights := List.mem_map_of_mem hentry
    have hle := hgreatest.2 hweight
    have hge := hleast.2 hweight
    have hlt : 0 < set.maxWeight - set.minWeight :=
      sub_pos.mpr (lt_of_le_of_ne (hge.trans hle) (h hne))
    refine ⟨hlt.ne', ?_⟩
    rw [seMinMaxNorm, if_pos hranked]
    exact ⟨div_nonneg (sub_nonneg.mpr hge) hlt.le, (div_le_one hlt).mpr (sub_le_sub_right hle _)⟩

theorem MergedScores.hasBounds_iff {merged : WeightedResult} {scores : List (ℤ × ℚ)}
    (h : MergedScores merged scores) : HasBounds merged ↔ Settled (scores.map Prod.snd) := by
  have hweights : merged.weights.Perm (scores.map Prod.snd) := by
    rw [weights_eq_scores]
    exact h.perm.map Prod.snd
  have hset : {weight | weight ∈ merged.weights} = {weight | weight ∈ scores.map Prod.snd} :=
    Set.ext fun weight ↦ hweights.mem_iff
  have hnil : merged.hits = [] ↔ scores.map Prod.snd = [] := by
    rw [← List.length_eq_zero_iff, ← List.length_eq_zero_iff (l := scores.map Prod.snd),
      ← hweights.length_eq, WeightedResult.weights, List.length_map]
  rw [HasBounds, hset, h.maxWeight, h.minWeight, Ne, hnil]
  by_cases hempty : scores.map Prod.snd = []
  · rw [hempty]
    refine iff_of_true (fun h ↦ absurd rfl h) ⟨fun hzero ↦ ?_, fun hzero ↦ ?_⟩
    · exact absurd hzero.1 List.not_mem_nil
    · exact absurd hzero.1 List.not_mem_nil
  · rw [← bounds_iff_settled hempty]
    exact ⟨fun h ↦ h hempty, fun h _ ↦ h⟩

theorem mem_notScores {set1 set2 : WeightedResult} (h1 : set1.Sortable) (h2 : set2.Sortable)
    (score : ℤ × ℚ) :
    score ∈ notScores set1 set2 ↔
      ∃ entry ∈ set1.hits, entry.recordNum ∉ set2.recordNums ∧ entry.score = score := by
  have hkeys := (perm_hits_inOrder h2.toAllocated).map WeightedEntry.recordNum
  rw [notScores, List.mem_map]
  refine exists_congr fun entry ↦ ?_
  rw [mem_diffBy (increasing_inOrder h1) (increasing_inOrder h2), and_assoc,
    (perm_hits_inOrder h1.toAllocated).mem_iff]
  refine and_congr_right fun _ ↦ and_congr_left fun _ ↦ ?_
  rw [WeightedResult.recordNums, ← hkeys.mem_iff, List.mem_map, not_exists]
  exact forall_congr' fun other ↦ not_and.symm

theorem hasBounds_not_iff {merged set1 set2 : WeightedResult} (h1 : set1.Sortable) (h2 : set2.Sortable)
    (hbounds : HasBounds set1) (hperm : merged.scores.Perm (notScores set1 set2))
    (hmax : merged.maxWeight = set1.maxWeight) (hmin : merged.minWeight = set1.minWeight) :
    HasBounds merged ↔ MergeOperation.KeepsBounds set1 set2 .not := by
  have hmem (weight : ℚ) : weight ∈ merged.weights ↔ KeepsWeight set1 set2 weight := by
    rw [weights_eq_scores, (hperm.map Prod.snd).mem_iff, List.mem_map]
    simp only [mem_notScores h1 h2, KeepsWeight]
    constructor
    · rintro ⟨score, ⟨entry, hentry, hfree, rfl⟩, rfl⟩
      exact ⟨entry, hentry, hfree, rfl⟩
    · rintro ⟨entry, hentry, hfree, rfl⟩
      exact ⟨entry.score, ⟨entry, hentry, hfree, rfl⟩, rfl⟩
  have hne : merged.hits ≠ [] ↔ ∃ weight, KeepsWeight set1 set2 weight := by
    rw [Ne, ← List.map_eq_nil_iff (f := WeightedEntry.weight), List.eq_nil_iff_forall_not_mem]
    push Not
    exact exists_congr hmem
  have hold (weight : ℚ) (h : KeepsWeight set1 set2 weight) :
      weight ≤ set1.maxWeight ∧ set1.minWeight ≤ weight := by
    obtain ⟨entry, hentry, -, rfl⟩ := h
    obtain ⟨hgreatest, hleast⟩ := hbounds (List.ne_nil_of_mem hentry)
    exact ⟨hgreatest.2 (List.mem_map_of_mem hentry), hleast.2 (List.mem_map_of_mem hentry)⟩
  rw [HasBounds, hne, hmax, hmin]
  refine imp_congr_right fun _ ↦ ?_
  constructor
  · rintro ⟨hgreatest, hleast⟩
    exact ⟨(hmem _).mp hgreatest.1, (hmem _).mp hleast.1⟩
  · rintro ⟨hgreatest, hleast⟩
    exact ⟨⟨(hmem _).mpr hgreatest, fun weight h ↦ (hold weight ((hmem weight).mp h)).1⟩,
      (hmem _).mpr hleast, fun weight h ↦ (hold weight ((hmem weight).mp h)).2⟩

section Run

variable {callees : MergeCallees} {set1 set2 : WeightedResult}

theorem Merged.rankedSet {merged set3 set4 set5 set6 : WeightedResult} {filename : String}
    {component : Option ℕ} {fuzzFlag : Bool} {members : ℤ → Prop}
    (h : Merged merged filename component
      (mergedType ⟨set3, set4, false, 0⟩ ⟨set5, set6, false, 0⟩ fuzzFlag) (probFlag set1 set2) members)
    (hranked : set1.has RANKED_FLAGS = true) : RankedSet merged where
  toMergeable := h.mergeable (probFlag_ranked set1 set2)
  ranked := by
    have hflags : probFlag set1 set2 &&& RANKED_FLAGS ≠ 0 := by
      rw [probFlag, Nat.and_or_distrib_right, Nat.land_assoc, Nat.and_self]
      exact fun hzero ↦ bne_iff_ne.mp hranked (Nat.or_eq_zero_iff.mp hzero).1
    rw [WeightedResult.has, h.resultType_eq, bne_iff_ne, Nat.and_or_distrib_right]
    exact fun hzero ↦ hflags (Nat.or_eq_zero_iff.mp hzero).2

theorem MergeOperation.run_sets (hsorts : SortingCallees callees) (h1 : RankedSet set1)
    (h2 : RankedSet set2) (operator : MergeOperation) (hbounds : HasBounds set1) :
    ∃ merged, operator.run callees (some set1) (some set2) = .ok (some merged) ∧ RankedSet merged ∧
      (HasBounds merged ↔ operator.KeepsBounds set1 set2) := by
  cases operator with
  | and =>
    obtain ⟨merged, hrun, hscores⟩ := seAndmerge_scores hsorts h1.toMergeable h2.toMergeable
    obtain ⟨typed, htyped, htype⟩ := seAndmerge_mergeable hsorts h1.toMergeable h2.toMergeable
    obtain rfl : merged = typed := Option.some.inj (Except.ok.inj (hrun.symm.trans htyped))
    rw [Bool.and_self] at hscores
    exact ⟨merged, hrun, htype.rankedSet h1.ranked, hscores.hasBounds_iff⟩
  | or addweights =>
    obtain ⟨merged, hrun, hscores⟩ :=
      seOrmerge_scores hsorts (h1.toMergeable.orOperands h2.toMergeable) addweights
    obtain ⟨typed, htyped, htype⟩ :=
      seOrmerge_mergeable hsorts h1.toMergeable h2.toMergeable addweights
    obtain rfl : merged = typed := Option.some.inj (Except.ok.inj (hrun.symm.trans htyped))
    exact ⟨merged, hrun, htype.rankedSet h1.ranked, hscores.hasBounds_iff⟩
  | not =>
    obtain ⟨merged, hrun, hperm, hmax, hmin⟩ :=
      seNotmerge_scores hsorts h1.toMergeable h2.toMergeable
    obtain ⟨typed, htyped, htype⟩ := seNotmerge_mergeable hsorts h1.toMergeable h2.toMergeable
    obtain rfl : merged = typed := Option.some.inj (Except.ok.inj (hrun.symm.trans htyped))
    exact ⟨merged, hrun, htype.rankedSet h1.ranked,
      hasBounds_not_iff h1.toSortable h2.toSortable hbounds hperm hmax hmin⟩

theorem RankedSet.orDuplicate (h : RankedSet set1) (addweights : ℕ) :
    RankedSet (orDuplicate addweights set1) := by
  rw [Search.orDuplicate]
  split
  · exact ⟨⟨⟨⟨h.nonneg, h.covered⟩, h.distinct, h.ordered⟩, h.unstructured⟩, h.ranked⟩
  · exact h

theorem HasBounds.orDuplicate (h : HasBounds set1) (addweights : ℕ) :
    HasBounds (orDuplicate addweights set1) := by
  rw [Search.orDuplicate]
  split
  · exact h
  · exact h

theorem MergeOperation.run_null (operator : MergeOperation) {inset1 inset2 : Option WeightedResult}
    (h1 : ∀ set ∈ inset1, RankedSet set ∧ HasBounds set)
    (h2 : ∀ set ∈ inset2, RankedSet set ∧ HasBounds set) (hnull : inset1 = none ∨ inset2 = none) :
    ∃ result, operator.run callees inset1 inset2 = .ok result ∧
      ∀ set ∈ result, RankedSet set ∧ HasBounds set := by
  have hnone : ∀ set ∈ (none : Option WeightedResult), RankedSet set ∧ HasBounds set :=
    fun set hset ↦ absurd hset (Option.not_mem_none set)
  have hduplicate {set : WeightedResult} (h : RankedSet set ∧ HasBounds set) (addweights : ℕ) :
      ∀ copy ∈ some (Search.orDuplicate addweights set), RankedSet copy ∧ HasBounds copy := by
    intro copy hcopy
    obtain rfl := Option.some.inj hcopy
    exact ⟨h.1.orDuplicate addweights, h.2.orDuplicate addweights⟩
  cases inset1 with
  | none =>
    cases operator with
    | and => exact ⟨none, rfl, hnone⟩
    | not => exact ⟨none, rfl, hnone⟩
    | or addweights =>
      cases inset2 with
      | none => exact ⟨none, rfl, hnone⟩
      | some set2 => exact ⟨_, rfl, hduplicate (h2 set2 rfl) addweights⟩
  | some set1 =>
    obtain rfl : inset2 = none := hnull.resolve_left (Option.some_ne_none set1)
    cases operator with
    | and => exact ⟨none, rfl, hnone⟩
    | not => exact ⟨some set1, rfl, h1⟩
    | or addweights => exact ⟨_, rfl, hduplicate (h1 set1 rfl) addweights⟩

theorem MergeOperation.run_operands (hsorts : SortingCallees callees) (operator : MergeOperation)
    {inset1 inset2 : Option WeightedResult} (h1 : ∀ set ∈ inset1, RankedSet set ∧ HasBounds set)
    (h2 : ∀ set ∈ inset2, RankedSet set ∧ HasBounds set) :
    ∃ result, operator.run callees inset1 inset2 = .ok result ∧ (∀ set ∈ result, RankedSet set) ∧
      ((∀ set ∈ result, HasBounds set) ↔
        ∀ set1 ∈ inset1, ∀ set2 ∈ inset2, operator.KeepsBounds set1 set2) := by
  by_cases hnull : inset1 = none ∨ inset2 = none
  · obtain ⟨result, hrun, hresult⟩ := @MergeOperation.run_null callees operator _ _ h1 h2 hnull
    refine ⟨result, hrun, fun set hset ↦ (hresult set hset).1, ?_⟩
    refine iff_of_true (fun set hset ↦ (hresult set hset).2) ?_
    rcases hnull with rfl | rfl
    · intro set1 hset1
      exact absurd hset1 (Option.not_mem_none set1)
    · intro set1 _ set2 hset2
      exact absurd hset2 (Option.not_mem_none set2)
  · obtain ⟨hsome1, hsome2⟩ := not_or.mp hnull
    obtain ⟨set1, rfl⟩ := Option.ne_none_iff_exists'.mp hsome1
    obtain ⟨set2, rfl⟩ := Option.ne_none_iff_exists'.mp hsome2
    obtain ⟨merged, hrun, hranked, hiff⟩ :=
      operator.run_sets hsorts (h1 set1 rfl).1 (h2 set2 rfl).1 (h1 set1 rfl).2
    refine ⟨some merged, hrun, ?_, ?_⟩
    · intro set hset
      rwa [← Option.some.inj hset]
    · simpa using hiff

end Run

section Runs

variable {callees : MergeCallees} {sets : List WeightedResult}

theorem normalCalls_iff (hsets : ∀ set ∈ sets, RankedSet set ∧ HasBounds set) (step : MergeStep) :
    NormalCalls sets step ↔ ∀ set1 ∈ sets[step.left]?, ∀ set2 ∈ sets[step.right]?,
      step.operator.Normalises → Spread set1 ∧ Spread set2 := by
  have hiff {i : ℕ} {set : WeightedResult} (hset : set ∈ sets[i]?) : Normal set ↔ Spread set := by
    obtain ⟨hranked, hbounds⟩ := hsets set (List.mem_of_getElem? hset)
    exact normal_iff_spread hranked.ranked hbounds
  constructor
  · intro h set1 h1 set2 h2 hmode
    obtain ⟨hnormal1, hnormal2⟩ := h hmode set1 h1 set2 h2
    exact ⟨(hiff h1).mp hnormal1, (hiff h2).mp hnormal2⟩
  · intro h hmode set1 h1 set2 h2
    obtain ⟨hspread1, hspread2⟩ := h set1 h1 set2 h2 hmode
    exact ⟨(hiff h1).mpr hspread1, (hiff h2).mpr hspread2⟩

theorem mergeStep_result (hsorts : SortingCallees callees)
    (hsets : ∀ set ∈ sets, RankedSet set ∧ HasBounds set) (step : MergeStep) :
    ∃ result : Option WeightedResult, mergeStep callees sets step = .ok (sets ++ result.toList) ∧
      (∀ set ∈ result, RankedSet set) ∧
      ((∀ set ∈ result, HasBounds set) ↔ ∀ set1 ∈ sets[step.left]?, ∀ set2 ∈ sets[step.right]?,
        step.operator.KeepsBounds set1 set2) := by
  have hoperand (i : ℕ) : ∀ set ∈ sets[i]?, RankedSet set ∧ HasBounds set :=
    fun set hset ↦ hsets set (List.mem_of_getElem? hset)
  obtain ⟨result, hrun, hranked, hiff⟩ :=
    step.operator.run_operands hsorts (hoperand step.left) (hoperand step.right)
  refine ⟨result, ?_, hranked, hiff⟩
  rw [mergeStep, hrun]
  rfl

theorem forall_mem_append_toList {p : WeightedResult → Prop} {result : Option WeightedResult} :
    (∀ set ∈ sets ++ result.toList, p set) ↔ (∀ set ∈ sets, p set) ∧ ∀ set ∈ result, p set := by
  simp only [List.forall_mem_append, Option.mem_toList]
  exact Iff.rfl

/-- Every run of operators on ranked sets with true bounds keeps the bounds true and normalises without
fault exactly if the operands of every step are as the step needs them. -/
theorem bounds_throughout_iff (hsorts : SortingCallees callees)
    (hranked : ∀ set ∈ sets, RankedSet set) (hbounds : ∀ set ∈ sets, HasBounds set)
    (steps : List MergeStep) :
    Throughout (mergeStep callees) (fun _ _ _ ↦ ()) (fun sets _ ↦ ∀ set ∈ sets, HasBounds set)
        (fun sets step _ ↦ NormalCalls sets step) sets () steps ↔
      Along (mergeStep callees) (fun _ _ _ ↦ ()) (fun sets _ step ↦ BoundsKept sets step) sets ()
        steps := by
  have hvalid : Along (mergeStep callees) (fun _ _ _ ↦ ()) (fun _ _ _ ↦ True) sets () steps :=
    along_true _ _ _
  refine throughout_iff_along (fun sets ↦ ∀ set ∈ sets, RankedSet set) ?_ ?_ hranked hbounds hvalid
  · intro sets _ step sets' hranked hbounds _ _ hstep
    obtain ⟨result, hresult, hnew, -⟩ :=
      mergeStep_result hsorts (fun set hset ↦ ⟨hranked set hset, hbounds set hset⟩) step
    rw [hstep, Except.ok.injEq] at hresult
    rw [hresult]
    exact forall_mem_append_toList.mpr ⟨hranked, hnew⟩
  · intro sets _ step hranked hbounds _
    have hsets : ∀ set ∈ sets, RankedSet set ∧ HasBounds set :=
      fun set hset ↦ ⟨hranked set hset, hbounds set hset⟩
    obtain ⟨result, hresult, -, hiff⟩ := mergeStep_result hsorts hsets step
    have hcalls := normalCalls_iff hsets step
    constructor
    · intro hkept
      refine ⟨_, hresult, ?_, ?_⟩
      · exact hcalls.mpr fun set1 h1 set2 h2 ↦ (hkept set1 h1 set2 h2).1
      · refine forall_mem_append_toList.mpr ⟨hbounds, ?_⟩
        exact hiff.mpr fun set1 h1 set2 h2 ↦ (hkept set1 h1 set2 h2).2
    · rintro ⟨sets', hsets', hnormal, hgood⟩ set1 h1 set2 h2
      rw [hresult, Except.ok.injEq] at hsets'
      rw [← hsets'] at hgood
      exact ⟨hcalls.mp hnormal set1 h1 set2 h2,
        hiff.mp (forall_mem_append_toList.mp hgood).2 set1 h1 set2 h2⟩

end Runs

/-- A ranked set of one record. -/
def oneRanked : WeightedResult :=
  { WeightedResult.ofRecords "docs" [5] with resultType := PROBABILISTIC_RESULT }

theorem rankedSet_twoRanked : ∀ set ∈ [threeRanked, oneRanked], RankedSet set := by
  have hone : oneRanked.Mergeable :=
    ⟨⟨⟨by decide, by decide⟩, by decide, fun _ ↦ by decide⟩, by decide⟩
  rw [List.forall_mem_cons, List.forall_mem_singleton]
  exact ⟨⟨mergeable_threeRanked, by decide⟩, hone, by decide⟩

theorem hasBounds_twoRanked : ∀ set ∈ [threeRanked, oneRanked], HasBounds set := by
  have hbounds {set : WeightedResult}
      (hmax : set.maxWeight ∈ set.weights ∧ ∀ weight ∈ set.weights, weight ≤ set.maxWeight)
      (hmin : set.minWeight ∈ set.weights ∧ ∀ weight ∈ set.weights, set.minWeight ≤ weight) :
      HasBounds set := fun _ ↦ ⟨hmax, hmin⟩
  rw [List.forall_mem_cons, List.forall_mem_singleton]
  refine ⟨hbounds ?_ ?_, hbounds ?_ ?_⟩ <;> decide +kernel

/-- Record 5 is taken away, and the extreme weights stay. -/
theorem bounds_throughout_twoRanked : Throughout (mergeStep sortingOnly) (fun _ _ _ ↦ ())
    (fun sets _ ↦ ∀ set ∈ sets, HasBounds set) (fun sets step _ ↦ NormalCalls sets step)
    [threeRanked, oneRanked] () [⟨.not, 0, 1⟩] := by
  refine (bounds_throughout_iff ⟨rfl, rfl⟩ rankedSet_twoRanked hasBounds_twoRanked _).mpr ⟨?_, ?_⟩
  · intro set1 h1 set2 h2
    obtain rfl : threeRanked = set1 := Option.some.inj h1
    obtain rfl : oneRanked = set2 := Option.some.inj h2
    refine ⟨fun hmode ↦ absurd hmode id, fun _ ↦ ⟨?_, ?_⟩⟩
    · exact ⟨⟨2, 0, 3⟩, by decide +kernel, by decide +kernel, rfl⟩
    · exact ⟨⟨1, 0, 1⟩, by decide +kernel, by decide +kernel, rfl⟩
  · intro _ _
    trivial

/-- A set of one record is normalised. -/
theorem not_bounds_throughout : ∃ callees, SortingCallees callees ∧ ∃ sets : List WeightedResult,
    (∀ set ∈ sets, RankedSet set) ∧ (∀ set ∈ sets, HasBounds set) ∧ ∃ steps,
      ¬Throughout (mergeStep callees) (fun _ _ _ ↦ ()) (fun sets _ ↦ ∀ set ∈ sets, HasBounds set)
        (fun sets step _ ↦ NormalCalls sets step) sets () steps := by
  refine ⟨sortingOnly, ⟨rfl, rfl⟩, _, rankedSet_twoRanked, hasBounds_twoRanked,
    [⟨.or MERGENORM, 0, 1⟩], ?_⟩
  rintro ⟨-, sets', -, hnormal, -⟩
  have hspread := (hnormal (Or.inl rfl) threeRanked rfl oneRanked rfl).2 ⟨5, 0, 1⟩ (by decide +kernel)
  exact hspread.1 (by decide +kernel)

end Cheshire.Search
