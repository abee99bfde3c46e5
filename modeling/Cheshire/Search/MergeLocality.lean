import Cheshire.Search.MergeScores

/-!
# The weight of a record of one operand

A record that only one operand of OR has is copied by the loop over both sets or, when the other set has
come to its end, by the loop over the rest.  The two loops have formulas of their own, so that the weight
of the record may depend on where the other set ends.
-/

namespace Cheshire.Search

open Lib Lib.KeyedMerge

/-- A record and its operand, as far as the weight of the record may depend on them.  The operand of a
Boolean search is not ranked, and its records count as one half. -/
structure OwnData where
  weight : ℚ
  ranked : Bool
  minWeight : ℚ
  maxWeight : ℚ
  numHits : ℤ

/-- An OR of which one operand has a record that the other operand does not have. -/
structure LoneRun (callees : MergeCallees) where
  inset1 : WeightedResult
  inset2 : WeightedResult
  set : WeightedResult
  other : WeightedResult
  operands : OrOperands callees inset1 inset2 set other ∨ OrOperands callees inset1 inset2 other set
  entry : WeightedEntry
  mem : entry ∈ set.hits
  absent : entry.recordNum ∉ other.recordNums

namespace LoneRun

variable {callees : MergeCallees}

def own (run : LoneRun callees) : OwnData where
  weight := run.entry.weight
  ranked := run.set.has RANKED_FLAGS
  minWeight := run.set.minWeight
  maxWeight := run.set.maxWeight
  numHits := run.set.numHits

/-- OR returns a set that has the record with this weight. -/
def Weighs (run : LoneRun callees) (addweights : ℕ) (weight : ℚ) : Prop :=
  ∃ merged, seOrmerge callees (some run.inset1) (some run.inset2) addweights = .ok (some merged) ∧
    (run.entry.recordNum, weight) ∈ merged.scores

/-- The other operand ends before the record. -/
def Passed (run : LoneRun callees) : Prop :=
  ∀ record ∈ run.other.recordNums, record < run.entry.recordNum

instance decidablePassed (run : LoneRun callees) : Decidable run.Passed :=
  inferInstanceAs (Decidable (∀ record ∈ run.other.recordNums, record < run.entry.recordNum))

/-- The place of the record in its operand, by record numbers. -/
def place (run : LoneRun callees) : ℕ :=
  run.set.recordNums.countP fun record ↦ record ≤ run.entry.recordNum

/-- The weight of the record, brought into the range of its operand. -/
def norm (run : LoneRun callees) : ℚ := seMinMaxNorm run.set run.entry

/-- `MERGENPRV` does not halve the weight. -/
def Privileged (run : LoneRun callees) : Prop :=
  if run.Passed then run.norm > 1 / 2
  else (run.set.numHits > 150 ∧ run.place < 100) ∨
    (run.set.numHits < 150 ∧ (run.place : ℤ) < run.set.numHits.tdiv 2)

instance decidablePrivileged (run : LoneRun callees) : Decidable run.Privileged :=
  inferInstanceAs (Decidable (if run.Passed then _ else _))

/-- The weight that the loops give. -/
def merged (run : LoneRun callees) (addweights : ℕ) : ℚ :=
  if run.Passed then orTailWeight addweights run.set run.entry
  else orAloneWeight addweights run.set run.entry run.place

end LoneRun

theorem countP_le_of_increasing {keys : List ℤ} (h : keys.Pairwise (· < ·)) {i : ℕ} {key : ℤ}
    (hkey : keys[i]? = some key) : keys.countP (fun other ↦ other ≤ key) = i + 1 := by
  induction keys generalizing i with
  | nil => cases hkey
  | cons first keys ih =>
    obtain ⟨hfirst, hrest⟩ := List.pairwise_cons.mp h
    cases i with
    | zero =>
      obtain rfl : first = key := by simpa using hkey
      have hnone : keys.countP (fun other ↦ other ≤ first) = 0 := by
        rw [List.countP_eq_zero]
        intro other hother
        simpa using hfirst other hother
      rw [List.countP_cons_of_pos (by simp), hnone]
    | succ i =>
      rw [List.getElem?_cons_succ] at hkey
      have hle := hfirst key (List.mem_of_getElem? hkey)
      rw [List.countP_cons_of_pos (by simpa using hle.le), ih hrest hkey]

theorem mem_items_of_mem {set : WeightedResult} (h : set.Sortable) {entry : WeightedEntry}
    (hentry : entry ∈ set.hits) :
    (entry, set.recordNums.countP fun record ↦ record ≤ entry.recordNum) ∈ set.inOrder.items 0 := by
  have hperm := perm_hits_inOrder h.toAllocated
  obtain ⟨i, hi⟩ := List.mem_iff_getElem?.mp (hperm.mem_iff.mpr hentry)
  have hkey : set.inOrder.recordNums[i]? = some entry.recordNum := by
    rw [WeightedResult.recordNums, List.getElem?_map, hi]
    rfl
  have hplace := countP_le_of_increasing (increasing_inOrder h) hkey
  have hcount := (hperm.map WeightedEntry.recordNum).countP_eq fun record ↦ record ≤ entry.recordNum
  rw [WeightedResult.recordNums, ← hcount]
  rw [WeightedResult.recordNums] at hplace
  rw [hplace, WeightedResult.items, List.drop_zero, List.mem_zipIdx_iff_le_and_getElem?_sub]
  exact ⟨by omega, by simpa using hi⟩

namespace LoneRun

variable {callees : MergeCallees} (run : LoneRun callees)

theorem sortable : run.set.Sortable ∧ run.other.Sortable := by
  rcases run.operands with h | h
  · exact ⟨h.sortable1, h.sortable2⟩
  · exact ⟨h.sortable2, h.sortable1⟩

/-- Rules that treat the records of the operand in this way, wherever it stands. -/
structure Treats (addweights : ℕ) (rules : Rules (WeightedEntry × ℕ) (ℤ × ℚ)) : Prop where
  left : ∀ place, rules.left (run.entry, place) =
    (run.entry.recordNum, orAloneWeight addweights run.set run.entry place)
  leftRest : ∀ place, rules.leftRest (run.entry, place) =
    (run.entry.recordNum, orTailWeight addweights run.set run.entry)

theorem mem_unionWith {addweights : ℕ} {rules : Rules (WeightedEntry × ℕ) (ℤ × ℚ)}
    (h : run.Treats addweights rules) :
    (run.entry.recordNum, run.merged addweights) ∈
      unionWith itemKey rules (run.set.inOrder.items 0) (run.other.inOrder.items 0) := by
  obtain ⟨hset, hother⟩ := run.sortable
  have hfree := (forall_itemKey hother fun key ↦ key ≠ run.entry.recordNum).mpr
    fun record hrecord heq ↦ run.absent (heq ▸ hrecord)
  have hpassed : (∀ item ∈ run.other.inOrder.items 0, itemKey item < run.entry.recordNum) ↔
      run.Passed := forall_itemKey hother fun key ↦ key < run.entry.recordNum
  have hmem := @onLeft_mem_unionWith _ _ _ _ itemKey rules _ _ (increasing_items hset)
    (increasing_items hother) (run.entry, run.place) (mem_items_of_mem hset run.mem) hfree
  have honLeft : rules.onLeft itemKey (run.other.inOrder.items 0) (run.entry, run.place) =
      (run.entry.recordNum, run.merged addweights) := by
    rw [Rules.onLeft, merged]
    by_cases h' : run.Passed
    · rw [if_pos h', ← h.leftRest run.place]
      exact if_pos (hpassed.mpr h')
    · rw [if_neg h', ← h.left run.place]
      exact if_neg fun hall ↦ h' (hpassed.mp hall)
  rwa [honLeft] at hmem

theorem weighs_iff (hsorts : SortingCallees callees) (addweights : ℕ) (weight : ℚ) :
    run.Weighs addweights weight ↔ weight = run.merged addweights := by
  have hscores : ∃ scores : List (ℤ × ℚ), (scores.map Prod.fst).Pairwise (· < ·) ∧
      (run.entry.recordNum, run.merged addweights) ∈ scores ∧
      ∃ merged, seOrmerge callees (some run.inset1) (some run.inset2) addweights =
        .ok (some merged) ∧ merged.scores.Perm scores := by
    rcases run.operands with h | h
    · obtain ⟨merged, hrun, hmerged⟩ := seOrmerge_scores hsorts h addweights
      exact ⟨_, increasing_orScores h.sortable1 h.sortable2,
        run.mem_unionWith ⟨fun _ ↦ rfl, fun _ ↦ rfl⟩, merged, hrun, hmerged.perm⟩
    · obtain ⟨merged, hrun, hmerged⟩ := seOrmerge_scores hsorts h addweights
      refine ⟨_, increasing_orScores h.sortable1 h.sortable2, ?_, merged, hrun, hmerged.perm⟩
      rw [orScores, ← unionWith_swap]
      exact run.mem_unionWith ⟨fun _ ↦ rfl, fun _ ↦ rfl⟩
  obtain ⟨scores, hincreasing, hmem, merged, hrun, hperm⟩ := hscores
  have hnodup : (scores.map Prod.fst).Nodup := hincreasing.imp fun hlt ↦ hlt.ne
  constructor
  · rintro ⟨merged', hrun', hmem'⟩
    obtain rfl : merged = merged' := Option.some.inj (Except.ok.inj (hrun.symm.trans hrun'))
    have heq := List.inj_on_of_nodup_map hnodup (hperm.mem_iff.mp hmem') hmem rfl
    exact congrArg Prod.snd heq
  · rintro rfl
    exact ⟨merged, hrun, hperm.mem_iff.mpr hmem⟩

end LoneRun

/-- The two loops give the normalised weight the same share. -/
def SameTreatment {callees : MergeCallees} (addweights : ℕ) (run run' : LoneRun callees) : Prop :=
  run.norm = 0 ∨
    ((addweights = MERGENSUM → (run.Passed ↔ run'.Passed)) ∧
      (addweights = MERGENPRV → (run.Privileged ↔ run'.Privileged)))

namespace LoneRun

variable {callees : MergeCallees} (run : LoneRun callees)

theorem merged_sum : run.merged MERGENSUM = if run.Passed then run.norm else run.norm / 2 := rfl

theorem merged_privilege :
    run.merged MERGENPRV = if run.Privileged then run.norm else run.norm / 2 := by
  have htail : orTailWeight MERGENPRV run.set run.entry =
      if run.norm > 1 / 2 then run.norm else run.norm / 2 := rfl
  have hloop : orAloneWeight MERGENPRV run.set run.entry run.place =
      if (run.set.numHits > 150 ∧ run.place < 100) ∨
        (run.set.numHits < 150 ∧ (run.place : ℤ) < run.set.numHits.tdiv 2) then run.norm
      else run.norm / 2 := rfl
  rw [merged, htail, hloop]
  by_cases h : run.Passed
  · rw [if_pos h]
    exact if_congr (iff_of_eq (if_pos h).symm) rfl rfl
  · rw [if_neg h]
    exact if_congr (iff_of_eq (if_neg h).symm) rfl rfl

theorem merged_other {addweights : ℕ} (hsum : addweights ≠ MERGENSUM) (hprivilege : addweights ≠ MERGENPRV) :
    run.merged addweights = orTailWeight addweights run.set run.entry := by
  have hformulas : orAloneWeight addweights run.set run.entry run.place =
      orTailWeight addweights run.set run.entry := by
    rw [orAloneWeight, orTailWeight]
    split_ifs <;> tauto
  rw [merged, hformulas, ite_self]

end LoneRun

theorem ite_half_eq_iff {p p' : Prop} [Decidable p] [Decidable p'] (value : ℚ) :
    (if p then value else value / 2) = (if p' then value else value / 2) ↔ value = 0 ∨ (p ↔ p') := by
  have hhalf : value = value / 2 ↔ value = 0 := by
    constructor <;> intro h <;> linarith
  by_cases hp : p <;> by_cases hp' : p' <;> simp [hp, hp', hhalf, eq_comm]

section Own

variable {callees : MergeCallees} {run run' : LoneRun callees}

theorem norm_eq_of_own (h : run.own = run'.own) : run.norm = run'.norm := by
  obtain ⟨hweight, hranked, hmin, hmax, -⟩ := OwnData.mk.inj h
  rw [LoneRun.norm, LoneRun.norm, seMinMaxNorm, seMinMaxNorm, hweight, hranked, hmin, hmax]

theorem orTailWeight_eq_of_own (h : run.own = run'.own) (addweights : ℕ) :
    orTailWeight addweights run.set run.entry = orTailWeight addweights run'.set run'.entry := by
  have hnorm : seMinMaxNorm run.set run.entry = seMinMaxNorm run'.set run'.entry := norm_eq_of_own h
  have hweight : run.entry.weight = run'.entry.weight := (OwnData.mk.inj h).1
  rw [orTailWeight, orTailWeight, hnorm, hweight]

theorem merged_eq_iff (h : run.own = run'.own) (addweights : ℕ) :
    run.merged addweights = run'.merged addweights ↔ SameTreatment addweights run run' := by
  have hnorm := norm_eq_of_own h
  by_cases hsum : addweights = MERGENSUM
  · subst hsum
    rw [run.merged_sum, run'.merged_sum, ← hnorm, ite_half_eq_iff, SameTreatment]
    simp [MERGENSUM, MERGENPRV]
  · by_cases hprivilege : addweights = MERGENPRV
    · subst hprivilege
      rw [run.merged_privilege, run'.merged_privilege, ← hnorm, ite_half_eq_iff, SameTreatment]
      simp [MERGENSUM, MERGENPRV]
    · rw [run.merged_other hsum hprivilege, run'.merged_other hsum hprivilege, SameTreatment]
      exact iff_of_true (orTailWeight_eq_of_own h addweights)
        (Or.inr ⟨fun heq ↦ absurd heq hsum, fun heq ↦ absurd heq hprivilege⟩)

/-- Two records with the same own data get the same weight exactly if the loops treat them alike. -/
theorem weighs_alike_iff (hsorts : SortingCallees callees) (h : run.own = run'.own) (addweights : ℕ) :
    (∀ weight, run.Weighs addweights weight ↔ run'.Weighs addweights weight) ↔
      SameTreatment addweights run run' := by
  rw [← merged_eq_iff h]
  simp only [run.weighs_iff hsorts, run'.weighs_iff hsorts]
  constructor
  · intro hall
    exact (hall (run.merged addweights)).mp rfl
  · intro heq weight
    rw [heq]

end Own

/-- The run that merges two sets as they are. -/
def LoneRun.ofMergeable (callees : MergeCallees) {set other : WeightedResult} (hset : set.Mergeable)
    (hother : other.Mergeable) (entry : WeightedEntry) (mem : entry ∈ set.hits)
    (absent : entry.recordNum ∉ other.recordNums) : LoneRun callees where
  inset1 := set
  inset2 := other
  set := set
  other := other
  operands := Or.inl (hset.orOperands hother)
  entry := entry
  mem := mem
  absent := absent

theorem mem_threeRanked : (⟨5, 0, 2⟩ : WeightedEntry) ∈ threeRanked.hits := by decide

theorem absent_ofRecords {record : ℤ} (h : 5 ≠ record) :
    5 ∉ (WeightedResult.ofRecords "docs" [record]).recordNums :=
  fun hmem ↦ h (List.mem_singleton.mp hmem)

/-- The set of three is merged with a set of this record. -/
def threeRankedRun (record : ℤ) (h : 5 ≠ record) : LoneRun sortingOnly :=
  LoneRun.ofMergeable sortingOnly mergeable_threeRanked (mergeable_singleton record) ⟨5, 0, 2⟩
    mem_threeRanked (absent_ofRecords h)

/-- With `MERGESUM` the weight does not depend on the end of the other set. -/
theorem weighs_alike_iff_threeRanked :
    SameTreatment MERGESUM (threeRankedRun 7 (by decide)) (threeRankedRun 4 (by decide)) ∧
      ∀ weight, (threeRankedRun 7 (by decide)).Weighs MERGESUM weight ↔
        (threeRankedRun 4 (by decide)).Weighs MERGESUM weight := by
  have hown : (threeRankedRun 7 (by decide)).own = (threeRankedRun 4 (by decide)).own := rfl
  have hsame : SameTreatment MERGESUM (threeRankedRun 7 (by decide)) (threeRankedRun 4 (by decide)) := by
    refine Or.inr ⟨?_, ?_⟩
    · intro h
      exact absurd h (by decide)
    · intro h
      exact absurd h (by decide)
  exact ⟨hsame, (weighs_alike_iff ⟨rfl, rfl⟩ hown MERGESUM).mpr hsame⟩

/-- With `MERGENSUM` it does. -/
theorem not_weighs_alike : ∃ callees, SortingCallees callees ∧ ∃ run run' : LoneRun callees,
    run.own = run'.own ∧
      ¬∀ weight, run.Weighs MERGENSUM weight ↔ run'.Weighs MERGENSUM weight := by
  refine ⟨sortingOnly, ⟨rfl, rfl⟩, threeRankedRun 7 (by decide), threeRankedRun 4 (by decide), rfl, ?_⟩
  intro h
  have hweight := (h ((threeRankedRun 7 (by decide)).merged MERGENSUM)).mp
    ((LoneRun.weighs_iff _ ⟨rfl, rfl⟩ _ _).mpr rfl)
  exact absurd ((LoneRun.weighs_iff _ ⟨rfl, rfl⟩ _ _).mp hweight) (by decide +kernel)

end Cheshire.Search
