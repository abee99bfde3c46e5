import Cheshire.Lib.OperatorTree
import Cheshire.Search.ComponentRestrict

/-!
# Evaluation of RPN queries

`se_process_rpn_structure` evaluates the operands of a query before its operator.  A failed operand
is a null pointer, for which every operator has a rule of its own.  AND-NOT, the fuzzy NOT and the
pivot merge each have a combination of operands in which they follow the null pointer; everywhere
else evaluation is that of a tree whose operators keep the rules.
-/

namespace Cheshire.Search

open Lib Lib.OperatorTree
open Index (ComponentKey)

inductive ProximityUnitCode where
  | known (unit : ℤ)
  | privateVar (code : ℤ)
deriving DecidableEq, Repr

structure ProximityOperator where
  distance : ℤ
  relationType : ℤ
  proximityUnitCode : ProximityUnitCode
deriving DecidableEq, Repr

inductive RpnOperator where
  | and
  | or
  | andNot
  | prox (op : ProximityOperator)
deriving DecidableEq, Repr

abbrev RpnStructure (σ : Type) := OperatorTree RpnOperator σ

/-- What the cases of the switch over `private_var` do. -/
inductive PrivateMerge where
  | fuzzyAnd
  | fuzzyOr
  | fuzzyNot
  | restrict
  | merge (addweights : ℕ)
  | mergePivot
  | mergeHybrid
  | unsupported
deriving DecidableEq, Repr

def privateMerge (privateVar : ℤ) : PrivateMerge :=
  if privateVar = 1 then .fuzzyAnd
  else if privateVar = 2 then .fuzzyOr
  else if privateVar = 3 then .fuzzyNot
  else if privateVar = 4 ∨ privateVar = 5 then .restrict
  else if privateVar = 6 then .merge MERGESUM
  else if privateVar = 7 then .merge MERGEMEAN
  else if privateVar = 8 then .merge MERGENORM
  else if privateVar = 9 then .merge MERGECMBZ
  else if privateVar = 10 then .merge MERGENSUM
  else if privateVar = 11 then .merge MERGENPRV
  else if privateVar = 12 then .mergePivot
  else if privateVar = 13 then .mergeHybrid
  else .unsupported

/-- The callees of the evaluation; those of `se_proxmerge` are given for two operands that are
both present, and `seProxKnown` is what it does for a known unit code. -/
structure RpnCallees where
  seVirtualmerge : WeightedResult → WeightedResult → ℕ → ℕ → Exec (Option WeightedResult)
  seBitmapMerge : WeightedResult → WeightedResult → ℕ → Exec (Option WeightedResult)
  seGetPageDocs : WeightedResult → ℕ → Exec (Option WeightedResult)
  seComp2doc : WeightedResult → Exec (Option WeightedResult)
  compDbGet : ℕ → ComponentKey → DbReply
  seComponentSubRestrict :
    ProximityOperator → WeightedResult → WeightedResult → Exec (Option WeightedResult)
  pivotNormalize : ProximityOperator → WeightedResult → WeightedResult → Exec (Option WeightedResult)
  seHybridmerge : WeightedResult → WeightedResult → ℕ → ℕ → Exec (Option WeightedResult)
  seProxKnown : ProximityOperator → WeightedResult → WeightedResult → Exec (Option WeightedResult)

/-- The callees of the Boolean operators, with the two sorts as they are. -/
def RpnCallees.merges (callees : RpnCallees) : MergeCallees where
  seVirtualmerge := callees.seVirtualmerge
  seBitmapMerge := callees.seBitmapMerge
  seGetPageDocs := callees.seGetPageDocs
  seComp2doc := callees.seComp2doc
  seSortwtset := seSortwtset
  seRankDocs := seRankDocs

theorem RpnCallees.sortingCallees (callees : RpnCallees) : SortingCallees callees.merges :=
  ⟨rfl, rfl⟩

/-- `se_rank_docs` of the result of a merge, which it follows without a test. -/
def rankMerged (run : Exec (Option WeightedResult)) : Exec (Option WeightedResult) := do
  let newset ← deref (← run)
  .ok (some (seRankDocs newset))

/-- `inset->result_type |= FUZZY_REQUEST` -/
def fuzzyRequest (set : WeightedResult) : WeightedResult :=
  { set with resultType := set.resultType ||| FUZZY_REQUEST }

/-- A fuzzy AND or OR of one operand is a copy of it. -/
def fuzzyMerge (merge : WeightedResult → WeightedResult → Exec (Option WeightedResult)) :
    Option WeightedResult → Option WeightedResult → Exec (Option WeightedResult)
  | none, inset2 => .ok inset2
  | some set1, none => .ok (some set1)
  | some set1, some set2 => rankMerged (merge (fuzzyRequest set1) (fuzzyRequest set2))

/-- The first operand of a fuzzy NOT is followed before it is merged. -/
def fuzzyNotMerge (callees : RpnCallees) (inset1 inset2 : Option WeightedResult) :
    Exec (Option WeightedResult) :=
  match inset2 with
  | none => .ok inset1
  | some set2 => do
    let set1 ← deref inset1
    rankMerged (seNotmerge callees.merges (some (fuzzyRequest set1)) (some (fuzzyRequest set2)))

/-- The restrictions need a component set. -/
def componentRestrict (callees : RpnCallees) (op : ProximityOperator) :
    Option WeightedResult → Option WeightedResult → Exec (Option WeightedResult)
  | some set1, some set2 =>
    if set1.has COMPONENT_RESULT && set2.has COMPONENT_RESULT then
      rankMerged (callees.seComponentSubRestrict op set1 set2)
    else if set1.has COMPONENT_RESULT || set2.has COMPONENT_RESULT then
      rankMerged (seComponentDocRestrict callees.compDbGet set1 set2)
    else .ok none
  | _, _ => .ok none

def sePivotDocNormalize (callees : RpnCallees) (op : ProximityOperator) :
    Option WeightedResult → Option WeightedResult → Exec (Option WeightedResult)
  | none, _ => .ok none
  | some set1, none => .ok (some set1)
  | some set1, some set2 => callees.pivotNormalize op set1 set2

def seHybridMergeNormalize (callees : RpnCallees) :
    Option WeightedResult → Option WeightedResult → Exec (Option WeightedResult)
  | none, none => .ok none
  | some set1, none => .ok (some set1)
  | none, some set2 => .ok (some set2)
  | some set1, some set2 => callees.seHybridmerge set1 set2 BOOLEAN_OR MERGENORM

def seProxmerge (callees : RpnCallees) (op : ProximityOperator)
    (inset1 inset2 : Option WeightedResult) : Exec (Option WeightedResult) :=
  if inset1.isNone && inset2.isNone then .ok none
  else
    match op.proximityUnitCode with
    | .privateVar code =>
      match privateMerge code with
      | .fuzzyAnd =>
        fuzzyMerge (fun set1 set2 ↦ seAndmerge callees.merges (some set1) (some set2)) inset1 inset2
      | .fuzzyOr =>
        fuzzyMerge (fun set1 set2 ↦ seOrmerge callees.merges (some set1) (some set2) FUZZY)
          inset1 inset2
      | .fuzzyNot => fuzzyNotMerge callees inset1 inset2
      | .restrict => componentRestrict callees op inset1 inset2
      | .merge addweights => rankMerged (seOrmerge callees.merges inset1 inset2 addweights)
      | .mergePivot => rankMerged (sePivotDocNormalize callees op inset1 inset2)
      | .mergeHybrid => rankMerged (seHybridMergeNormalize callees inset1 inset2)
      | .unsupported => .ok none
    | .known _ =>
      match inset1, inset2 with
      | some set1, some set2 => callees.seProxKnown op set1 set2
      | _, _ => .ok none

/-- The operators that return before their right operand is evaluated. -/
def stopsAtLeft : RpnOperator → Bool
  | .and | .andNot => true
  | .or | .prox _ => false

/-- What follows the evaluation of the right operand.  After AND and AND-NOT both operands are
looked at once more, to free those that are not stored. -/
def processOperator (callees : RpnCallees) (operator : RpnOperator)
    (leftRes rightRes : Option WeightedResult) : Exec (Option WeightedResult) :=
  if rightRes.isNone && operator == .and then .ok none
  else
    match operator with
    | .and => do
      let boolRes ← seAndmerge callees.merges leftRes rightRes
      let _ ← deref leftRes
      let _ ← deref rightRes
      .ok boolRes
    | .or => seOrmerge callees.merges leftRes rightRes 0
    | .andNot => do
      let boolRes ← seNotmerge callees.merges leftRes rightRes
      let _ ← deref leftRes
      let _ ← deref rightRes
      .ok boolRes
    | .prox op => seProxmerge callees op leftRes rightRes

/-- `answer` gives the result of each leaf, a term search or a stored set. -/
def seProcessRpnStructure {σ : Type} (callees : RpnCallees) (answer : σ → Option WeightedResult) :
    RpnStructure σ → Exec (Option WeightedResult)
  | .leaf oper => .ok (answer oper)
  | .node operator rpn1 rpn2 => do
    let leftRes ← seProcessRpnStructure callees answer rpn1
    if leftRes.isNone && stopsAtLeft operator then .ok none
    else do
      let rightRes ← seProcessRpnStructure callees answer rpn2
      processOperator callees operator leftRes rightRes

/-- The operators as they are. -/
def rpnSemantics (callees : RpnCallees) : Semantics RpnOperator WeightedResult Fault where
  stops := stopsAtLeft
  apply := processOperator callees

variable {σ : Type} {callees : RpnCallees} {answer : σ → Option WeightedResult}

variable (rpn : RpnStructure σ)

theorem seProcessRpnStructure_eq_eval : seProcessRpnStructure callees answer rpn =
      eval (rpnSemantics callees) answer rpn := by
  induction rpn with
  | leaf oper => rfl
  | node operator rpn1 rpn2 ihleft ihright =>
    rw [seProcessRpnStructure, eval, ihleft, ihright]
    rfl

/-- The operands for which an operator follows a null pointer. -/
def followsNull : RpnOperator → Option WeightedResult → Option WeightedResult → Prop
  | .andNot, some _, none => True
  | .prox op, none, some _ =>
    ∃ code, op.proximityUnitCode = .privateVar code ∧
      (privateMerge code = .fuzzyNot ∨ privateMerge code = .mergePivot)
  | _, _, _ => False

open Classical in
/-- The operators with the missing tests added: AND-NOT of a missing right operand is the left one,
the fuzzy NOT and the pivot merge of a missing left operand are missing. -/
noncomputable def guardedSemantics (callees : RpnCallees) :
    Semantics RpnOperator WeightedResult Fault where
  stops := stopsAtLeft
  apply := fun operator leftRes rightRes ↦
    if followsNull operator leftRes rightRes then
      if operator = .andNot then .ok leftRes else .ok none
    else processOperator callees operator leftRes rightRes

/-- No operator that the evaluation applies follows a missing operand. -/
def FollowsNoMissing (callees : RpnCallees) (answer : σ → Option WeightedResult)
    (rpn : RpnStructure σ) : Prop :=
  AtEach (rpnSemantics callees) answer (fun operator leftRes rightRes ↦
    leftRes = none ∨ rightRes = none →
      processOperator callees operator leftRes rightRes ≠ .error .nullDereference) rpn

/-- None of the combinations in question comes up when failures travel up as the guarded operators
let them. -/
def Guarded (callees : RpnCallees) (answer : σ → Option WeightedResult) (rpn : RpnStructure σ) :
    Prop :=
  AtEach (guardedSemantics callees) answer
    (fun operator leftRes rightRes ↦ ¬ followsNull operator leftRes rightRes) rpn

theorem rankMerged_some (set : WeightedResult) :
    rankMerged (.ok (some set)) = .ok (some (seRankDocs set)) := rfl

theorem rankMerged_none : rankMerged (.ok none) = .error .nullDereference := rfl

theorem seProxmerge_missing (op : ProximityOperator) (inset1 inset2 : Option WeightedResult)
    (hmissing : inset1 = none ∨ inset2 = none) :
    seProxmerge callees op inset1 inset2 = .error .nullDereference ↔
      followsNull (.prox op) inset1 inset2 := by
  rcases inset1 with _ | set1 <;> rcases inset2 with _ | set2
  · simp [seProxmerge, followsNull]
  · rcases hcode : op.proximityUnitCode with unit | code
    · simp [seProxmerge, followsNull, hcode]
    · rcases hmerge : privateMerge code <;>
        simp [seProxmerge, followsNull, hcode, hmerge, fuzzyMerge, fuzzyNotMerge, deref,
          componentRestrict, seOrmerge, rankMerged_some, rankMerged_none, sePivotDocNormalize,
          seHybridMergeNormalize, bind, Except.bind]
  · rcases hcode : op.proximityUnitCode with unit | code
    · simp [seProxmerge, followsNull, hcode]
    · rcases hmerge : privateMerge code <;>
        simp [seProxmerge, followsNull, hcode, hmerge, fuzzyMerge, fuzzyNotMerge,
          componentRestrict, seOrmerge, rankMerged_some, sePivotDocNormalize,
          seHybridMergeNormalize]
  · simp at hmissing

variable (operator : RpnOperator)

theorem processOperator_missing (leftRes rightRes : Option WeightedResult)
    (hgoes : (leftRes.isNone && stopsAtLeft operator) = false)
    (hmissing : leftRes = none ∨ rightRes = none) :
    processOperator callees operator leftRes rightRes = .error .nullDereference ↔
      followsNull operator leftRes rightRes := by
  cases operator with
  | and =>
    rcases leftRes with _ | left
    · cases hgoes
    · rcases rightRes with _ | right
      · simp [processOperator, followsNull]
      · simp at hmissing
  | or => rcases leftRes with _ | left <;> rcases rightRes with _ | right <;>
      simp_all [processOperator, followsNull, seOrmerge]
  | andNot =>
    rcases leftRes with _ | left
    · cases hgoes
    · rcases rightRes with _ | right
      · simp [processOperator, followsNull, seNotmerge, deref, bind, Except.bind]
      · simp at hmissing
  | prox op =>
    have hprox := @seProxmerge_missing callees op leftRes rightRes hmissing
    simpa [processOperator] using hprox

theorem followsNull_missing {operator : RpnOperator} {leftRes rightRes : Option WeightedResult}
    (h : followsNull operator leftRes rightRes) : leftRes = none ∨ rightRes = none := by
  rcases leftRes with _ | left
  · exact .inl rfl
  · rcases rightRes with _ | right
    · exact .inr rfl
    · cases operator <;> exact h.elim

theorem followsNoMissing_iff (rpn : RpnStructure σ) :
    FollowsNoMissing callees answer rpn ↔
      AtEach (rpnSemantics callees) answer
        (fun operator leftRes rightRes ↦ ¬ followsNull operator leftRes rightRes) rpn := by
  apply atEach_congr
  intro operator leftRes rightRes hgoes
  constructor
  · intro h hfollows
    have hmissing := followsNull_missing hfollows
    exact h hmissing ((processOperator_missing operator _ _ hgoes hmissing).mpr hfollows)
  · intro h hmissing hfault
    exact h ((processOperator_missing operator _ _ hgoes hmissing).mp hfault)

theorem guarded_stops (callees : RpnCallees) :
    (rpnSemantics callees).stops = (guardedSemantics callees).stops := rfl

theorem guarded_apply (leftRes rightRes : Option WeightedResult)
    (h : ¬ followsNull operator leftRes rightRes) :
    (rpnSemantics callees).apply operator leftRes rightRes =
      (guardedSemantics callees).apply operator leftRes rightRes := by
  simp [rpnSemantics, guardedSemantics, h]

theorem guarded_iff : AtEach (rpnSemantics callees) answer
        (fun operator leftRes rightRes ↦ ¬ followsNull operator leftRes rightRes) rpn ↔
      Guarded callees answer rpn :=
  atEach_transfer (guarded_stops callees) guarded_apply rpn

/-- Every operator is AND, OR or AND-NOT. -/
def Boolean : RpnStructure σ → Prop
  | .leaf _ => True
  | .node operator rpn1 rpn2 =>
    (operator = .and ∨ operator = .or ∨ operator = .andNot) ∧ Boolean rpn1 ∧ Boolean rpn2

/-- The records of a result, of which a missing one has none. -/
def resultRecords : Option WeightedResult → Set ℤ
  | none => ∅
  | some set => {record | record ∈ set.recordNums}

/-- The set operation of an operator; the other operators have none. -/
def setOperation : RpnOperator → Set ℤ → Set ℤ → Set ℤ
  | .and, records1, records2 => records1 ∩ records2
  | .or, records1, records2 => records1 ∪ records2
  | .andNot, records1, records2 => records1 \ records2
  | .prox _, _, _ => ∅

/-- The value of a tree in the algebra of sets of records. -/
def setValue (answer : σ → Option WeightedResult) : RpnStructure σ → Set ℤ
  | .leaf oper => resultRecords (answer oper)
  | .node operator rpn1 rpn2 =>
    setOperation operator (setValue answer rpn1) (setValue answer rpn2)

/-- A result, if there is one, that can be merged again. -/
def MergeableResult (result : Option WeightedResult) : Prop :=
  ∀ set, result = some set → set.Mergeable

theorem mergedType_unstructured (set1 set2 set3 set4 : WeightedResult) (fuzzFlag : Bool) :
    mergedType ⟨set1, set2, false, 0⟩ ⟨set3, set4, false, 0⟩ fuzzFlag &&& STRUCTURED_FLAGS = 0 := by
  cases fuzzFlag with
  | false => simp [mergedType]
  | true =>
    simp [mergedType]
    decide

theorem ranked_unstructured (flags : ℕ) (hflags : flags &&& RANKED_FLAGS = flags) :
    flags &&& STRUCTURED_FLAGS = 0 := by
  have hdisjoint : RANKED_FLAGS &&& STRUCTURED_FLAGS = 0 := by decide
  rw [← hflags, Nat.land_assoc, hdisjoint, Nat.and_zero]

theorem Merged.mergeable {merged set1 set2 set3 set4 : WeightedResult} {filename : String}
    {component : Option ℕ} {flags : ℕ} {fuzzFlag : Bool} {members : ℤ → Prop}
    (h : Merged merged filename component
      (mergedType ⟨set1, set2, false, 0⟩ ⟨set3, set4, false, 0⟩ fuzzFlag) flags members)
    (hflags : flags &&& RANKED_FLAGS = flags) : merged.Mergeable where
  toSortable := h.sortable hflags
  unstructured := by
    rw [h.resultType_eq, Nat.and_or_distrib_right, mergedType_unstructured,
      ranked_unstructured flags hflags, Nat.or_zero]

theorem processOperator_boolean (leftRes rightRes : Option WeightedResult)
    (hboolean : operator = .and ∨ operator = .or ∨ operator = .andNot)
    (hgoes : (leftRes.isNone && stopsAtLeft operator) = false) (hleft : MergeableResult leftRes)
    (hright : MergeableResult rightRes) (hfollows : ¬ followsNull operator leftRes rightRes) :
    ∃ result, processOperator callees operator leftRes rightRes = .ok result ∧
      MergeableResult result ∧
      resultRecords result =
        setOperation operator (resultRecords leftRes) (resultRecords rightRes) := by
  have hsorts := callees.sortingCallees
  rcases leftRes with _ | left
  · rcases hboolean with rfl | rfl | rfl
    · cases hgoes
    · rcases rightRes with _ | right
      · exact ⟨none, rfl, hright, by simp [setOperation, resultRecords]⟩
      · exact ⟨some right, rfl, hright, by simp [setOperation, resultRecords]⟩
    · cases hgoes
  rcases rightRes with _ | right
  · rcases hboolean with rfl | rfl | rfl
    · exact ⟨none, rfl, hright, by simp [setOperation, resultRecords]⟩
    · exact ⟨some left, rfl, hleft, by simp [setOperation, resultRecords]⟩
    · exact absurd trivial hfollows
  have h1 := hleft left rfl
  have h2 := hright right rfl
  have hflags := probFlag_ranked left right
  rcases hboolean with rfl | rfl | rfl
  · obtain ⟨merged, hrun, hmerged⟩ := seAndmerge_mergeable hsorts h1 h2
    refine ⟨some merged, ?_, ?_, ?_⟩
    · simp [processOperator, hrun, deref, bind, Except.bind]
    · rintro _ ⟨⟩
      exact hmerged.mergeable hflags
    · ext record
      exact hmerged.mem_iff record
  · obtain ⟨merged, hrun, hmerged⟩ := seOrmerge_mergeable hsorts h1 h2 0
    refine ⟨some merged, hrun, ?_, ?_⟩
    · rintro _ ⟨⟩
      exact hmerged.mergeable hflags
    · ext record
      exact hmerged.mem_iff record
  · obtain ⟨merged, hrun, hmerged⟩ := seNotmerge_mergeable hsorts h1 h2
    refine ⟨some merged, ?_, ?_, ?_⟩
    · simp [processOperator, hrun, deref, bind, Except.bind]
    · rintro _ ⟨⟩
      exact hmerged.mergeable hflags
    · ext record
      exact hmerged.mem_iff record

theorem setOperation_stops {operator : RpnOperator} (hstops : stopsAtLeft operator = true)
    (records : Set ℤ) : setOperation operator ∅ records = ∅ := by
  cases operator with
  | and => exact Set.empty_inter records
  | andNot => exact Set.empty_sdiff records
  | or => cases hstops
  | prox op => cases hstops

/-- By induction over the tree: a Boolean tree in which no missing operand is followed returns the
value of its set operations. -/
theorem boolean_eval (hboolean : Boolean rpn) (hanswer : ∀ oper, MergeableResult (answer oper))
    (h : AtEach (rpnSemantics callees) answer
      (fun operator leftRes rightRes ↦ ¬ followsNull operator leftRes rightRes) rpn) :
    ∃ result, eval (rpnSemantics callees) answer rpn = .ok result ∧ MergeableResult result ∧
      resultRecords result = setValue answer rpn := by
  induction rpn with
  | leaf oper => exact ⟨answer oper, rfl, hanswer oper, rfl⟩
  | node operator rpn1 rpn2 ihleft ihright =>
    obtain ⟨hoperator, hboolean1, hboolean2⟩ := hboolean
    obtain ⟨leftRes, hleft, hleftMergeable, hleftRecords⟩ := ihleft hboolean1 h.1
    rw [eval, hleft]
    simp only [bind, Except.bind]
    rcases hgoes : leftRes.isNone && (rpnSemantics callees).stops operator with _ | _
    · rw [if_neg Bool.false_ne_true]
      obtain ⟨hbelow, hoperands⟩ := h.2 leftRes hleft hgoes
      obtain ⟨rightRes, hright, hrightMergeable, hrightRecords⟩ := ihright hboolean2 hbelow
      rw [hright]
      obtain ⟨result, hrun, hmergeable, hrecords⟩ :=
        processOperator_boolean operator leftRes rightRes hoperator hgoes hleftMergeable
          hrightMergeable (hoperands rightRes hright)
      exact ⟨result, hrun, hmergeable, by rw [hrecords, hleftRecords, hrightRecords, setValue]⟩
    · rw [if_pos rfl]
      obtain ⟨hnone, hstops⟩ := Bool.and_eq_true_iff.mp hgoes
      rw [Option.isNone_iff_eq_none] at hnone
      subst hnone
      refine ⟨none, rfl, hleftMergeable, ?_⟩
      rw [setValue, ← hleftRecords]
      exact (setOperation_stops hstops _).symm

/-- Evaluation returns a result whose records are the value of the tree. -/
def ReturnsSetValue (callees : RpnCallees) (answer : σ → Option WeightedResult)
    (rpn : RpnStructure σ) : Prop :=
  ∃ result, seProcessRpnStructure callees answer rpn = .ok result ∧
    resultRecords result = setValue answer rpn

theorem guarded_of_returns {result : Option WeightedResult}
    (h : seProcessRpnStructure callees answer rpn = .ok result) : Guarded callees answer rpn := by
  rw [seProcessRpnStructure_eq_eval] at h
  rw [← guarded_iff, ← followsNoMissing_iff]
  refine AtEach.imp ?_ rpn (atEach_of_eval_eq_ok rpn h)
  rintro operator leftRes rightRes - ⟨result, hresult⟩ - hfault
  have hclash : (Except.ok result : Exec (Option WeightedResult)) = .error .nullDereference :=
    hresult.symm.trans hfault
  cases hclash

/-- A query follows no missing operand exactly when it is guarded, and then its evaluation is that
of the guarded operators.  A query of AND, OR and AND-NOT over document sets returns the value of
its set operations under the same condition. -/
theorem rpnStructure_right_iff (callees : RpnCallees) (answer : σ → Option WeightedResult)
    (rpn : RpnStructure σ) :
    (FollowsNoMissing callees answer rpn ↔ Guarded callees answer rpn) ∧
      (Boolean rpn → (∀ oper set, answer oper = some set → set.Mergeable) →
        (ReturnsSetValue callees answer rpn ↔ Guarded callees answer rpn)) := by
  have hiff := (@followsNoMissing_iff _ callees answer rpn).trans
    (guarded_iff rpn)
  refine ⟨hiff, ?_⟩
  intro hboolean hanswer
  constructor
  · rintro ⟨result, hrun, -⟩
    exact guarded_of_returns rpn hrun
  · intro hguarded
    obtain ⟨result, hrun, -, hrecords⟩ :=
      boolean_eval rpn hboolean hanswer ((guarded_iff rpn).mpr hguarded)
    exact ⟨result, (seProcessRpnStructure_eq_eval rpn).trans hrun, hrecords⟩

/-- Routines that are not called for document sets. -/
def noCallees : RpnCallees where
  seVirtualmerge _ _ _ _ := .ok none
  seBitmapMerge _ _ _ := .ok none
  seGetPageDocs _ _ := .ok none
  seComp2doc _ := .ok none
  compDbGet _ _ := .notFound
  seComponentSubRestrict _ _ _ := .ok none
  pivotNormalize _ _ _ := .ok none
  seHybridmerge _ _ _ _ := .ok none
  seProxKnown _ _ _ := .ok none

/-- The third leaf fails. -/
def threeLeaves : Fin 3 → Option WeightedResult
  | 0 => some (WeightedResult.ofRecords "db" [1, 2, 3])
  | 1 => some (WeightedResult.ofRecords "db" [2, 3])
  | 2 => none

theorem threeLeaves_mergeable (oper : Fin 3) (set : WeightedResult)
    (h : threeLeaves oper = some set) : set.Mergeable := by
  fin_cases oper
  · obtain rfl := Option.some.inj h
    exact WeightedResult.Plain.mergeable ⟨⟨by decide, by decide⟩, by decide, by decide⟩
  · obtain rfl := Option.some.inj h
    exact WeightedResult.Plain.mergeable ⟨⟨by decide, by decide⟩, by decide, by decide⟩
  · cases h

/-- A failed operand of OR, or on the left of AND-NOT, is an empty set. -/
theorem rpnStructure_right_threeLeaves :
    ReturnsSetValue noCallees threeLeaves
      (.node .or (.node .and (.leaf 0) (.node .or (.leaf 1) (.leaf 2)))
        (.node .andNot (.leaf 2) (.leaf 0))) := by
  refine ((rpnStructure_right_iff noCallees threeLeaves _).2 ?_ threeLeaves_mergeable).mpr ?_
  · simp [Boolean]
  · exact guarded_of_returns _ rfl

/-- A failed operand on the right of AND-NOT is followed. -/
theorem rpnStructure_wrong_andNot :
    ¬ FollowsNoMissing noCallees threeLeaves (.node .andNot (.leaf 0) (.leaf 2)) ∧
      ¬ ReturnsSetValue noCallees threeLeaves (.node .andNot (.leaf 0) (.leaf 2)) := by
  constructor
  · intro h
    exact (h.2 (threeLeaves 0) rfl rfl).2 none rfl (.inr rfl) rfl
  · rintro ⟨result, hrun, -⟩
    cases hrun

end Cheshire.Search
