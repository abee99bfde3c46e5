import Cheshire.Search.MergeScores

/-!
# The operands of AND and OR in the other order

AND and OR are compared with themselves on exchanged operands: the records, their weights and the flags of
the result.
-/

namespace Cheshire.Search

open Lib Lib.KeyedMerge

inductive SymmetricOperator where
  | and
  | or (addweights : ℕ)
deriving DecidableEq, Repr

def SymmetricOperator.run (callees : MergeCallees) (inset1 inset2 : Option WeightedResult) :
    SymmetricOperator → Exec (Option WeightedResult)
  | and => seAndmerge callees inset1 inset2
  | or addweights => seOrmerge callees inset1 inset2 addweights

/-- The same records with the same weights, under the same flags. -/
structure SameHits (set set' : WeightedResult) : Prop where
  scores : set.scores.Perm set'.scores
  resultType : set.resultType = set'.resultType

/-- Two results are both `NULL`, or sets with the same hits. -/
def SameResult : Option WeightedResult → Option WeightedResult → Prop
  | some set, some set' => SameHits set set'
  | none, none => True
  | _, _ => False

/-- Both orders of the operands give the same result. -/
def Commutes (callees : MergeCallees) (operator : SymmetricOperator)
    (inset1 inset2 : Option WeightedResult) : Prop :=
  ∃ result result', operator.run callees inset1 inset2 = .ok result ∧
    operator.run callees inset2 inset1 = .ok result' ∧ SameResult result result'

/-- A property of the hits that two sets share. -/
def ForallCommon (set1 set2 : WeightedResult) (p : WeightedEntry → WeightedEntry → Prop) : Prop :=
  ∀ entry1 ∈ set1.hits, ∀ entry2 ∈ set2.hits, entry1.recordNum = entry2.recordNum → p entry1 entry2

/-- AND looks at the fuzzy request of its first operand only.  The request halves weights and leaves a
flag on the result. -/
def AndCommutes (set1 set2 : WeightedResult) : Prop :=
  set1.has FUZZY_REQUEST = set2.has FUZZY_REQUEST ∨
    ((set1.has FUZZY_RESULT || set2.has FUZZY_RESULT) = true ∧
      ForallCommon set1 set2 fun entry1 entry2 ↦ entry1.weight + entry2.weight = 0)

/-- A fuzzy OR takes the first weight or, if the second set is ranked, the greater one; a set that is not
ranked counts one half when it comes first. -/
def OrCommutes (addweights : ℕ) (set1 set2 : WeightedResult) : Prop :=
  addweights = FUZZY → set1.has FUZZY_REQUEST = true → set2.has FUZZY_REQUEST = true →
    ForallCommon set1 set2 fun entry1 entry2 ↦
      (set1.has RANKED_FLAGS = true → set2.has RANKED_FLAGS = false → 1 / 2 ≤ entry1.weight) ∧
        (set1.has RANKED_FLAGS = false → set2.has RANKED_FLAGS = true → 1 / 2 ≤ entry2.weight)

/-- The condition under which the order of the operands does not matter. -/
def SymmetricOperator.Commuting : SymmetricOperator → Option WeightedResult → Option WeightedResult → Prop
  | and, some set1, some set2 => AndCommutes set1 set2
  | or addweights, some set1, some set2 => OrCommutes addweights set1 set2
  | _, _, _ => True

theorem probFlag_comm (set1 set2 : WeightedResult) : probFlag set1 set2 = probFlag set2 set1 :=
  Nat.lor_comm _ _

theorem perm_iff_of_increasing {scores scores' : List (ℤ × ℚ)}
    (h : (scores.map Prod.fst).Pairwise (· < ·)) (h' : (scores'.map Prod.fst).Pairwise (· < ·)) :
    scores.Perm scores' ↔ scores = scores' := by
  constructor
  · intro hperm
    rw [List.pairwise_map] at h h'
    refine List.Perm.eq_of_pairwise ?_ h h' hperm
    intro score score' _ _ hlt hgt
    exact absurd hgt hlt.not_gt
  · rintro rfl
    exact List.Perm.refl _

theorem forallCommon_inOrder {set1 set2 : WeightedResult} (h1 : set1.Allocated) (h2 : set2.Allocated)
    (p : WeightedEntry → WeightedEntry → Prop) :
    ForallCommon set1.inOrder set2.inOrder p ↔ ForallCommon set1 set2 p := by
  simp only [ForallCommon, (perm_hits_inOrder h1).mem_iff, (perm_hits_inOrder h2).mem_iff]

theorem two_pow_or_eq_iff (flags i : ℕ) : 2 ^ i ||| flags = flags ↔ flags &&& 2 ^ i ≠ 0 := by
  rw [Nat.and_two_pow]
  constructor
  · intro h
    have hbit : flags.testBit i = true := by
      rw [← h, Nat.testBit_or, Nat.testBit_two_pow_self, Bool.true_or]
    simp [hbit]
  · intro h
    have hbit : flags.testBit i = true := by
      by_contra hfalse
      simp [hfalse] at h
    refine Nat.eq_of_testBit_eq fun j ↦ ?_
    rw [Nat.testBit_or, Nat.testBit_two_pow]
    by_cases hj : i = j
    · subst hj
      rw [hbit, Bool.or_true]
    · simp [hj]

section Operands

variable {set1 set2 : WeightedResult}

theorem probFlag_and (flag : ℕ) (hflag : RANKED_FLAGS &&& flag = flag) :
    probFlag set1 set2 &&& flag ≠ 0 ↔ (set1.has flag || set2.has flag) = true := by
  rw [probFlag, Nat.and_or_distrib_right, Nat.land_assoc, Nat.land_assoc, hflag, Ne,
    Nat.or_eq_zero_iff, Bool.or_eq_true, WeightedResult.has, WeightedResult.has, bne_iff_ne, bne_iff_ne,
    not_and_or]

theorem mergedType_eq_iff (fuzz fuzz' : Bool) :
    mergedType ⟨set1, set2, false, 0⟩ ⟨set1, set2, false, 0⟩ fuzz ||| probFlag set1 set2 =
        mergedType ⟨set2, set1, false, 0⟩ ⟨set2, set1, false, 0⟩ fuzz' ||| probFlag set2 set1 ↔
      fuzz = fuzz' ∨ (set1.has FUZZY_RESULT || set2.has FUZZY_RESULT) = true := by
  have hflag : FUZZY_RESULT = 2 ^ 12 := by decide
  have hbit : FUZZY_RESULT ||| probFlag set1 set2 = probFlag set1 set2 ↔
      (set1.has FUZZY_RESULT || set2.has FUZZY_RESULT) = true := by
    rw [hflag, two_pow_or_eq_iff, ← hflag, probFlag_and FUZZY_RESULT (by decide)]
  have htype (set set' : WeightedResult) (fuzz : Bool) :
      mergedType ⟨set, set', false, 0⟩ ⟨set, set', false, 0⟩ fuzz = if fuzz then FUZZY_RESULT else 0 := by
    simp [mergedType]
  rw [htype, htype, probFlag_comm set2]
  cases fuzz <;> cases fuzz' <;> simp [← hbit, eq_comm]

theorem andWeight_exchange_iff (fuzz fuzz' : Bool) (flags : ℕ) (weight1 weight2 : ℚ) :
    andWeight fuzz flags weight1 weight2 = andWeight fuzz' flags weight2 weight1 ↔
      fuzz = fuzz' ∨ (flags ≠ 0 ∧ weight1 + weight2 = 0) := by
  have hhalf (sum : ℚ) : sum * (1 / 2) = sum ↔ sum = 0 := by
    constructor <;> intro h <;> linarith
  have hunit : (1 / 2 : ℚ) ≠ 1 := by norm_num
  have hcomm := add_comm weight2 weight1
  simp only [andWeight]
  by_cases hflags : flags = 0
  · cases fuzz <;> cases fuzz' <;> simp [hflags]
  · cases fuzz <;> cases fuzz' <;> simp only [hflags, ne_eq, not_false_eq_true, true_and, if_true,
      Bool.false_eq_true, if_false, hcomm, true_or, hhalf, reduceCtorEq, false_or]
    exact eq_comm.trans (hhalf _)

theorem andScores_exchange_iff (h1 : set1.Sortable) (h2 : set2.Sortable) (fuzz fuzz' : Bool) :
    (andScores fuzz set1 set2).Perm (andScores fuzz' set2 set1) ↔
      ForallCommon set1 set2 fun entry1 entry2 ↦
        fuzz = fuzz' ∨ (probFlag set1 set2 ≠ 0 ∧ entry1.weight + entry2.weight = 0) := by
  rw [perm_iff_of_increasing (increasing_andScores h1) (increasing_andScores h2), andScores, andScores,
    ← @interWith_swap _ _ _ _ _ (andScore fuzz' _) set2.inOrder.hits, probFlag_comm set2,
    interWith_eq_iff (increasing_inOrder h1) (increasing_inOrder h2),
    ← forallCommon_inOrder h1.toAllocated h2.toAllocated]
  refine forall₂_congr fun entry1 _ ↦ forall₂_congr fun entry2 _ ↦ forall_congr' fun hkey ↦ ?_
  rw [andScore, andScore, Prod.mk.injEq, hkey, andWeight_exchange_iff]
  exact and_iff_right rfl

theorem andCommutes_iff :
    AndCommutes set1 set2 ↔
      (ForallCommon set1 set2 fun entry1 entry2 ↦
          set1.has FUZZY_REQUEST = set2.has FUZZY_REQUEST ∨
            (probFlag set1 set2 ≠ 0 ∧ entry1.weight + entry2.weight = 0)) ∧
        (set1.has FUZZY_REQUEST = set2.has FUZZY_REQUEST ∨
          (set1.has FUZZY_RESULT || set2.has FUZZY_RESULT) = true) := by
  rw [AndCommutes]
  by_cases hrequest : set1.has FUZZY_REQUEST = set2.has FUZZY_REQUEST
  · simp [hrequest, ForallCommon]
  · simp only [hrequest, false_or]
    constructor
    · rintro ⟨hresult, hcommon⟩
      have hflags : probFlag set1 set2 ≠ 0 := by
        intro hzero
        have hand := (@probFlag_and set1 set2 FUZZY_RESULT (by decide)).mpr hresult
        rw [hzero, Nat.zero_and] at hand
        exact hand rfl
      exact ⟨fun entry1 h1 entry2 h2 hkey ↦ ⟨hflags, hcommon entry1 h1 entry2 h2 hkey⟩, hresult⟩
    · rintro ⟨hcommon, hresult⟩
      exact ⟨hresult, fun entry1 h1 entry2 h2 hkey ↦ (hcommon entry1 h1 entry2 h2 hkey).2⟩

theorem orWeight_exchange_iff {addweights : ℕ} {fuzz : Bool} (entry1 entry2 : WeightedEntry) :
    orWeight addweights fuzz set1 set2 entry1 entry2 = orWeight addweights fuzz set2 set1 entry2 entry1 ↔
      (addweights = FUZZY → fuzz = true →
        (set1.has RANKED_FLAGS = true → set2.has RANKED_FLAGS = false → 1 / 2 ≤ entry1.weight) ∧
        (set1.has RANKED_FLAGS = false → set2.has RANKED_FLAGS = true → 1 / 2 ≤ entry2.weight)) := by
  by_cases hfuzzy : addweights = FUZZY ∧ fuzz = true
  · obtain ⟨rfl, rfl⟩ := hfuzzy
    simp only [orWeight, FUZZY, MERGESUM, OfNat.ofNat_ne_one, if_false, true_and, if_true, true_imp_iff]
    cases set1.has RANKED_FLAGS <;> cases set2.has RANKED_FLAGS
    case false.false => simp
    case true.true =>
      rcases lt_trichotomy entry1.weight entry2.weight with hlt | heq | hgt
      · simp [hlt, hlt.not_gt]
      · simp [heq]
      · simp [hgt, hgt.not_gt]
    case false.true =>
      simp only [Bool.false_eq_true, false_and, if_false, true_and, if_true, false_imp_iff, true_imp_iff]
      split_ifs with hlt
      · exact iff_of_true rfl hlt.le
      · exact ⟨fun h ↦ h.le, fun h ↦ le_antisymm h (not_lt.mp hlt)⟩
    case true.false =>
      simp only [Bool.false_eq_true, false_and, if_false, true_and, if_true, false_imp_iff, true_imp_iff,
        implies_true, and_true]
      split_ifs with hlt
      · exact iff_of_true rfl hlt.le
      · exact ⟨fun h ↦ h.ge, fun h ↦ le_antisymm (not_lt.mp hlt) h⟩
  · refine iff_of_true ?_ fun hmode hfuzz ↦ absurd ⟨hmode, hfuzz⟩ hfuzzy
    simp only [orWeight, if_neg hfuzzy, Bool.or_comm (set2.has RANKED_FLAGS), add_comm]

theorem forall_items {set : WeightedResult} (h : set.Allocated) (p : WeightedEntry → Prop) :
    (∀ item ∈ set.inOrder.items 0, p item.1) ↔ ∀ entry ∈ set.hits, p entry := by
  have hmap : (set.inOrder.items 0).map Prod.fst = set.inOrder.hits := by
    rw [WeightedResult.items, List.drop_zero, List.zipIdx_map_fst]
  rw [← List.forall_mem_map (f := Prod.fst), hmap]
  exact forall_congr' fun entry ↦ imp_congr_left (perm_hits_inOrder h).mem_iff

theorem orScores_exchange_iff (h1 : set1.Sortable) (h2 : set2.Sortable) (addweights : ℕ) (fuzz : Bool) :
    (orScores addweights fuzz set1 set2).Perm (orScores addweights fuzz set2 set1) ↔
      ForallCommon set1 set2 fun entry1 entry2 ↦
        orWeight addweights fuzz set1 set2 entry1 entry2 =
          orWeight addweights fuzz set2 set1 entry2 entry1 := by
  have hswap : orScores addweights fuzz set2 set1 =
      unionWith itemKey { orRules addweights fuzz set1 set2 with
        both := (orRules addweights fuzz set2 set1).swap.both } (set1.inOrder.items 0)
        (set2.inOrder.items 0) := (unionWith_swap _ _).symm
  rw [perm_iff_of_increasing (increasing_orScores h1 h2) (increasing_orScores h2 h1), hswap, orScores,
    unionWith_eq_iff (increasing_items h1) (increasing_items h2), ForallCommon,
    ← forall_items h1.toAllocated]
  refine forall₂_congr fun item1 _ ↦ ?_
  rw [← forall_items h2.toAllocated]
  refine forall₂_congr fun item2 _ ↦ forall_congr' fun hkey ↦ ?_
  have hrecords : item1.1.recordNum = item2.1.recordNum := hkey
  simp only [orRules, Rules.swap, Prod.mk.injEq, hrecords, true_and]

end Operands

section Commuting

variable {callees : MergeCallees} {set1 set2 : WeightedResult}

theorem commutes_iff_perm (operator : SymmetricOperator) {merged merged' : WeightedResult}
    {scores scores' : List (ℤ × ℚ)}
    (h : operator.run callees (some set1) (some set2) = .ok (some merged))
    (h' : operator.run callees (some set2) (some set1) = .ok (some merged'))
    (hscores : MergedScores merged scores) (hscores' : MergedScores merged' scores') :
    Commutes callees operator (some set1) (some set2) ↔
      scores.Perm scores' ∧ merged.resultType = merged'.resultType := by
  constructor
  · rintro ⟨result, result', hresult, hresult', hsame⟩
    obtain rfl : some merged = result := Except.ok.inj (h.symm.trans hresult)
    obtain rfl : some merged' = result' := Except.ok.inj (h'.symm.trans hresult')
    exact ⟨hscores.perm.symm.trans (hsame.scores.trans hscores'.perm), hsame.resultType⟩
  · rintro ⟨hperm, htypes⟩
    exact ⟨_, _, h, h', hscores.perm.trans (hperm.trans hscores'.perm.symm), htypes⟩

theorem and_commutes_iff (hsorts : SortingCallees callees) (h1 : set1.Mergeable) (h2 : set2.Mergeable) :
    Commutes callees .and (some set1) (some set2) ↔ AndCommutes set1 set2 := by
  obtain ⟨merged, hrun, hscores⟩ := seAndmerge_scores hsorts h1 h2
  obtain ⟨merged', hrun', hscores'⟩ := seAndmerge_scores hsorts h2 h1
  obtain ⟨typed, htyped, htype⟩ := seAndmerge_mergeable hsorts h1 h2
  obtain ⟨typed', htyped', htype'⟩ := seAndmerge_mergeable hsorts h2 h1
  obtain rfl : merged = typed := Option.some.inj (Except.ok.inj (hrun.symm.trans htyped))
  obtain rfl : merged' = typed' := Option.some.inj (Except.ok.inj (hrun'.symm.trans htyped'))
  rw [Bool.and_self] at hscores hscores' htype htype'
  rw [commutes_iff_perm .and hrun hrun' hscores hscores', andCommutes_iff,
    ← andScores_exchange_iff h1.toSortable h2.toSortable, ← mergedType_eq_iff, htype.resultType_eq,
    htype'.resultType_eq]

theorem or_commutes_iff (hsorts : SortingCallees callees) (h1 : set1.Mergeable) (h2 : set2.Mergeable)
    (addweights : ℕ) :
    Commutes callees (.or addweights) (some set1) (some set2) ↔ OrCommutes addweights set1 set2 := by
  obtain ⟨merged, hrun, hscores⟩ := seOrmerge_scores hsorts (h1.orOperands h2) addweights
  obtain ⟨merged', hrun', hscores'⟩ := seOrmerge_scores hsorts (h2.orOperands h1) addweights
  obtain ⟨typed, htyped, htype⟩ := seOrmerge_mergeable hsorts h1 h2 addweights
  obtain ⟨typed', htyped', htype'⟩ := seOrmerge_mergeable hsorts h2 h1 addweights
  obtain rfl : merged = typed := Option.some.inj (Except.ok.inj (hrun.symm.trans htyped))
  obtain rfl : merged' = typed' := Option.some.inj (Except.ok.inj (hrun'.symm.trans htyped'))
  rw [Bool.and_comm] at hscores' htype'
  have htypes : merged.resultType = merged'.resultType := by
    rw [htype.resultType_eq, htype'.resultType_eq, mergedType_eq_iff]
    exact Or.inl rfl
  rw [commutes_iff_perm (.or addweights) hrun hrun' hscores hscores', and_iff_left htypes,
    orScores_exchange_iff h1.toSortable h2.toSortable]
  simp only [orWeight_exchange_iff, ForallCommon, OrCommutes, Bool.and_eq_true, and_imp]
  constructor
  · intro h hmode hrequest1 hrequest2 entry1 hentry1 entry2 hentry2 hkey
    exact h entry1 hentry1 entry2 hentry2 hkey hmode hrequest1 hrequest2
  · intro h entry1 hentry1 entry2 hentry2 hkey hmode hrequest1 hrequest2
    exact h hmode hrequest1 hrequest2 entry1 hentry1 entry2 hentry2 hkey

/-- AND and OR commute exactly under these conditions. -/
theorem commutes_iff (hsorts : SortingCallees callees) (operator : SymmetricOperator)
    (inset1 inset2 : Option WeightedResult) (h1 : ∀ set ∈ inset1, set.Mergeable)
    (h2 : ∀ set ∈ inset2, set.Mergeable) :
    Commutes callees operator inset1 inset2 ↔ operator.Commuting inset1 inset2 := by
  have hsame (set : WeightedResult) : SameHits set set := ⟨List.Perm.refl _, rfl⟩
  cases inset1 with
  | none =>
    refine iff_of_true ?_ (by cases operator <;> exact trivial)
    cases operator with
    | and =>
      refine ⟨none, none, rfl, ?_, trivial⟩
      cases inset2 <;> rfl
    | or addweights =>
      cases inset2 with
      | none => exact ⟨none, none, rfl, rfl, trivial⟩
      | some set2 => exact ⟨_, _, rfl, rfl, hsame _⟩
  | some set1 =>
    cases inset2 with
    | none =>
      refine iff_of_true ?_ (by cases operator <;> exact trivial)
      cases operator with
      | and => exact ⟨none, none, rfl, rfl, trivial⟩
      | or addweights => exact ⟨_, _, rfl, rfl, hsame _⟩
    | some set2 =>
      cases operator with
      | and => exact and_commutes_iff hsorts (h1 set1 rfl) (h2 set2 rfl)
      | or addweights => exact or_commutes_iff hsorts (h1 set1 rfl) (h2 set2 rfl) addweights

end Commuting

/-- A set of one record on which a fuzzy operator was asked for. -/
def fuzzyOne : WeightedResult := { WeightedResult.ofRecords "docs" [1] with resultType := FUZZY_REQUEST }

theorem mergeable_fuzzyOne : fuzzyOne.Mergeable where
  nonneg := by decide
  covered := by decide
  distinct := by decide
  ordered := fun _ ↦ by decide
  unstructured := by decide

def fuzzyThree : WeightedResult :=
  { WeightedResult.ofRecords "docs" [1, 2, 5] with resultType := FUZZY_REQUEST }

theorem mergeable_fuzzyThree : fuzzyThree.Mergeable where
  nonneg := by decide
  covered := by decide
  distinct := by decide
  ordered := fun _ ↦ by decide
  unstructured := by decide

/-- Two fuzzy requests commute. -/
theorem commutes_fuzzyOne :
    Commutes sortingOnly .and (some fuzzyOne) (some fuzzyThree) ∧
      Commutes sortingOnly (.or FUZZY) (some fuzzyOne) (some fuzzyThree) := by
  have hone (set : WeightedResult) (hset : set ∈ some fuzzyOne) : set.Mergeable :=
    Option.some.inj hset ▸ mergeable_fuzzyOne
  have hthree (set : WeightedResult) (hset : set ∈ some fuzzyThree) : set.Mergeable :=
    Option.some.inj hset ▸ mergeable_fuzzyThree
  constructor
  · exact (commutes_iff ⟨rfl, rfl⟩ .and _ _ hone hthree).mpr (Or.inl rfl)
  · refine (commutes_iff ⟨rfl, rfl⟩ (.or FUZZY) _ _ hone hthree).mpr ?_
    intro _ _ _ entry1 _ entry2 _ _
    exact ⟨fun h ↦ absurd h (by decide), fun _ h ↦ absurd h (by decide)⟩

/-- One fuzzy request does not. -/
theorem not_and_commutes : ∃ callees, SortingCallees callees ∧ ∃ set1 set2 : WeightedResult,
    set1.Mergeable ∧ set2.Mergeable ∧ ¬Commutes callees .and (some set1) (some set2) := by
  have hother := mergeable_singleton 1
  refine ⟨sortingOnly, ⟨rfl, rfl⟩, fuzzyOne, _, mergeable_fuzzyOne, hother, ?_⟩
  rw [and_commutes_iff ⟨rfl, rfl⟩ mergeable_fuzzyOne hother, AndCommutes]
  rintro (h | h)
  · exact absurd h (by decide)
  · exact absurd h.1 (by decide)

end Cheshire.Search
