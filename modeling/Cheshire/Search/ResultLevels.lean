import Cheshire.Search.ComponentMerge
import Cheshire.Search.ProximityMerge

/-!
# The level of a result's numbers

The numbers of a result are document numbers, or component numbers of one definition when the
result is flagged so.  The Boolean operators keep the two apart: they merge two sets of one
definition as they are and convert others to documents.  The conversion of an empty component set
lists the number zero, which is neither.
-/

namespace Cheshire.Search

open Lib Lib.SortedMerge

/-- The numbers that are in use for documents and for the components of each definition. -/
structure Numbering where
  documents : Set ℤ
  components : ℕ → Set ℤ

/-- Zero is not in use, and the component files name the document of each component. -/
structure Numbering.Consistent (numbering : Numbering) (files : ComponentFiles) : Prop where
  document_ne_zero : (0 : ℤ) ∉ numbering.documents
  component_ne_zero : ∀ component, (0 : ℤ) ∉ numbering.components component
  stored : ∀ component, ∀ number ∈ numbering.components component,
    ∃ item, files.getComponentRecord number (some component) = some item ∧
      item.recordId ∈ numbering.documents

/-- A result flagged as a component result has component numbers of its component type, any other
result has document numbers. -/
structure Marked (numbering : Numbering) (set : WeightedResult) : Prop where
  components : set.has COMPONENT_RESULT = true → ∃ component, set.component = some component ∧
    ∀ number ∈ set.recordNums, number ∈ numbering.components component
  documents : set.has COMPONENT_RESULT = false →
    ∀ number ∈ set.recordNums, number ∈ numbering.documents

/-- The flags of results that are not lists of numbers of one level. -/
def UNLISTED_FLAGS : ℕ := VIRTUAL_RESULT ||| BITMAP_RESULT ||| PAGED_RESULT

/-- A list of numbers; that of a component set is not a hybrid of several sets. -/
structure Listed (set : WeightedResult) : Prop extends set.Allocated where
  listed : set.resultType &&& UNLISTED_FLAGS = 0
  unhybrid : set.has COMPONENT_RESULT = true → set.has HYBRID_RESULT = false

/-- A document set or a set of components of one type, flagged as what it is. -/
structure Levelled (numbering : Numbering) (set : WeightedResult) : Prop
    extends Listed set, Marked numbering set

section Sets

variable {set set1 set2 : WeightedResult} {numbering : Numbering}

theorem Listed.not_has (h : Listed set) (flag : ℕ) (hflag : UNLISTED_FLAGS &&& flag = flag) :
    set.has flag = false := by
  have hzero : set.resultType &&& flag = 0 := by
    rw [← hflag, ← Nat.land_assoc, h.listed, Nat.zero_and]
  exact (WeightedResult.has_eq_false_iff _ _).mpr hzero

theorem Listed.direct (h1 : Listed set1) (h2 : Listed set2) : Direct set1 set2 where
  virtual1 := h1.not_has VIRTUAL_RESULT (by decide)
  virtual2 := h2.not_has VIRTUAL_RESULT (by decide)
  bitmap1 := h1.not_has BITMAP_RESULT (by decide)
  bitmap2 := h2.not_has BITMAP_RESULT (by decide)

theorem pagedOperands_listed (callees : MergeCallees) (h1 : Listed set1) (h2 : Listed set2) :
    pagedOperands callees set1 set2 = .ok ⟨set1, set2, false, 0⟩ := by
  simp [pagedOperands, h1.not_has PAGED_RESULT (by decide), h2.not_has PAGED_RESULT (by decide)]

theorem Marked.of_same (h : Marked numbering set1)
    (hflag : set2.has COMPONENT_RESULT = set1.has COMPONENT_RESULT)
    (hcomponent : set2.component = set1.component)
    (hsub : ∀ number ∈ set2.recordNums, number ∈ set1.recordNums) : Marked numbering set2 where
  components := by
    intro hhas
    obtain ⟨component, hsome, hnumbers⟩ := h.components (hflag ▸ hhas)
    exact ⟨component, hcomponent.trans hsome, fun number hnumber ↦
      hnumbers number (hsub number hnumber)⟩
  documents := by
    intro hhas number hnumber
    exact h.documents (hflag ▸ hhas) number (hsub number hnumber)

theorem Levelled.of_same (h : Levelled numbering set1) (halloc : set2.Allocated)
    (htype : set2.resultType = set1.resultType) (hcomponent : set2.component = set1.component)
    (hsub : ∀ number ∈ set2.recordNums, number ∈ set1.recordNums) : Levelled numbering set2 where
  toAllocated := halloc
  listed := htype ▸ h.listed
  unhybrid := by
    intro hhas
    rw [WeightedResult.has, htype] at hhas ⊢
    exact h.unhybrid hhas
  toMarked := by
    apply h.toMarked.of_same _ hcomponent hsub
    rw [WeightedResult.has, WeightedResult.has, htype]

theorem perm_recordNums_seRankDocs (halloc : set.Allocated) :
    (seRankDocs set).recordNums.Perm set.recordNums := halloc.perm_recordNums_qsort compareWeights

theorem Levelled.seRankDocs (h : Levelled numbering set) :
    Levelled numbering (seRankDocs set) := by
  apply h.of_same (h.toAllocated.qsort compareWeights) rfl rfl
  intro number
  exact (perm_recordNums_seRankDocs h.toAllocated).mem_iff.mp

theorem marked_seRankDocs_iff (halloc : set.Allocated) :
    Marked numbering (seRankDocs set) ↔ Marked numbering set := by
  have hperm := perm_recordNums_seRankDocs halloc
  constructor
  · intro h
    exact h.of_same rfl rfl fun number ↦ hperm.mem_iff.mpr
  · intro h
    exact h.of_same rfl rfl fun number ↦ hperm.mem_iff.mp

theorem has_fuzzyRequest (set : WeightedResult) (flag : ℕ) (hflag : FUZZY_REQUEST &&& flag = 0) :
    (fuzzyRequest set).has flag = set.has flag := by
  rw [WeightedResult.has, WeightedResult.has, fuzzyRequest, Nat.and_or_distrib_right, hflag,
    Nat.or_zero]

theorem Levelled.fuzzyRequest (h : Levelled numbering set) :
    Levelled numbering (fuzzyRequest set) where
  nonneg := h.nonneg
  covered := h.covered
  listed := by
    have hrequest : FUZZY_REQUEST &&& UNLISTED_FLAGS = 0 := by decide
    rw [Search.fuzzyRequest, Nat.and_or_distrib_right, h.listed, hrequest, Nat.or_zero]
  unhybrid := by
    rw [has_fuzzyRequest set COMPONENT_RESULT (by decide),
      has_fuzzyRequest set HYBRID_RESULT (by decide)]
    exact h.unhybrid
  toMarked := h.toMarked.of_same (has_fuzzyRequest set COMPONENT_RESULT (by decide)) rfl
    fun number hnumber ↦ hnumber

end Sets

section Conversion

variable {numbering : Numbering} {files : ComponentFiles} {set set1 set2 : WeightedResult}

/-- What `se_comp2doc` makes of a component set. -/
structure ConvertedSet (numbering : Numbering) (set docs : WeightedResult) : Prop
    extends docs.Allocated where
  document : docs.has COMPONENT_RESULT = false
  empty : set.recordNums = [] → ∀ number, number ∈ docs.recordNums ↔ number = 0
  nonempty : set.recordNums ≠ [] → ∀ number ∈ docs.recordNums, number ∈ numbering.documents

theorem Levelled.seComp2doc (h : Levelled numbering set) (hconsistent : numbering.Consistent files)
    (hcomponent : set.has COMPONENT_RESULT = true) :
    ∃ docs, seComp2doc files set = .ok (some docs) ∧ ConvertedSet numbering set docs := by
  obtain ⟨component, hsome, hnumbers⟩ := h.components hcomponent
  have hstored : StoredComponents files set := by
    refine ⟨h.toAllocated, h.unhybrid hcomponent, ?_⟩
    intro number hnumber
    obtain ⟨item, hitem, -⟩ := hconsistent.stored component number (hnumbers number hnumber)
    rw [hsome, hitem]
    rfl
  obtain ⟨docs, hdocs, hsortable, -, htype, hmem⟩ := hstored.seComp2doc_spec
  refine ⟨docs, hdocs, hsortable.toAllocated, ?_, ?_, ?_⟩
  · have hflags : DOC_FLAGS &&& COMPONENT_RESULT = 0 := by decide
    have hcleared : Nat.ldiff set.resultType COMPONENT_RESULT &&& COMPONENT_RESULT = 0 := by
      apply Nat.eq_of_testBit_eq
      intro bit
      rw [Nat.testBit_and, Nat.testBit_ldiff, Nat.zero_testBit]
      cases set.resultType.testBit bit <;> cases COMPONENT_RESULT.testBit bit <;> rfl
    rw [WeightedResult.has_eq_false_iff, htype, Nat.and_or_distrib_right, hcleared, Nat.land_assoc,
      hflags, Nat.and_zero, Nat.or_zero]
  · intro hnil number
    rw [hmem, if_pos hnil]
  · intro hne number hnumber
    rw [hmem, if_neg hne] at hnumber
    obtain ⟨source, hsource, rfl⟩ := List.mem_map.mp hnumber
    obtain ⟨item, hitem, hdocument⟩ :=
      hconsistent.stored component source (hnumbers source hsource)
    rw [hsome, ComponentFiles.parent, hitem]
    exact hdocument

/-- An operand of an operator: the set itself, or its documents when the set is converted. -/
structure OperandOf (numbering : Numbering) (converted : Bool) (set operand : WeightedResult) :
    Prop extends operand.Allocated where
  same : converted = false → operand = set
  documents : converted = true → ConvertedSet numbering set operand

theorem Levelled.operand (h : Levelled numbering set) : OperandOf numbering false set set :=
  ⟨h.toAllocated, fun _ ↦ rfl, fun hfalse ↦ absurd hfalse Bool.false_ne_true⟩

theorem ConvertedSet.operand {docs : WeightedResult} (h : ConvertedSet numbering set docs) :
    OperandOf numbering true set docs :=
  ⟨h.toAllocated, fun hfalse ↦ absurd hfalse.symm Bool.false_ne_true, fun _ ↦ h⟩

/-- A component set that is not merged with one of its own type. -/
def converts (set other : WeightedResult) : Bool :=
  set.has COMPONENT_RESULT && !sameComponent set other

theorem componentOperandsOr_levelled {callees : MergeCallees}
    (hcomp : callees.seComp2doc = seComp2doc files) (hconsistent : numbering.Consistent files)
    (h1 : Levelled numbering set1) (h2 : Levelled numbering set2) :
    ∃ comp, componentOperandsOr callees set1 set2 set1 set2 = .ok comp ∧
      comp.both = sameComponent set1 set2 ∧
      OperandOf numbering (converts set1 set2) set1 comp.set1 ∧
      OperandOf numbering (converts set2 set1) set2 comp.set2 := by
  have hsymm : sameComponent set2 set1 = sameComponent set1 set2 := by
    rw [sameComponent, sameComponent, Bool.and_comm (set2.has COMPONENT_RESULT), Bool.beq_comm]
  unfold componentOperandsOr converts
  rw [hsymm, hcomp]
  rcases hsame : sameComponent set1 set2 with _ | _
  · rw [if_neg Bool.false_ne_true]
    rcases hhas1 : set1.has COMPONENT_RESULT with _ | _ <;>
      rcases hhas2 : set2.has COMPONENT_RESULT with _ | _
    · exact ⟨_, rfl, rfl, h1.operand, h2.operand⟩
    · obtain ⟨docs2, hdocs2, hconverted2⟩ := h2.seComp2doc hconsistent hhas2
      rw [hdocs2]
      exact ⟨_, rfl, rfl, h1.operand, hconverted2.operand⟩
    · obtain ⟨docs1, hdocs1, hconverted1⟩ := h1.seComp2doc hconsistent hhas1
      rw [hdocs1]
      exact ⟨_, rfl, rfl, hconverted1.operand, h2.operand⟩
    · obtain ⟨docs1, hdocs1, hconverted1⟩ := h1.seComp2doc hconsistent hhas1
      obtain ⟨docs2, hdocs2, hconverted2⟩ := h2.seComp2doc hconsistent hhas2
      rw [hdocs1, hdocs2]
      exact ⟨_, rfl, rfl, hconverted1.operand, hconverted2.operand⟩
  · rw [if_pos rfl, Bool.not_true, Bool.and_false, Bool.and_false]
    exact ⟨_, rfl, rfl, h1.operand, h2.operand⟩

theorem componentOperands_levelled {callees : MergeCallees}
    (hcomp : callees.seComp2doc = seComp2doc files) (hconsistent : numbering.Consistent files)
    (h1 : Levelled numbering set1) (h2 : Levelled numbering set2) :
    ∃ comp, componentOperands callees set1 set2 set1 set2 = .ok comp ∧
      comp.both = sameComponent set1 set2 ∧
      OperandOf numbering (converts set1 set2) set1 comp.set1 ∧
      OperandOf numbering (!set1.has COMPONENT_RESULT && set2.has COMPONENT_RESULT) set2
        comp.set2 := by
  unfold componentOperands converts
  rw [hcomp]
  rcases hsame : sameComponent set1 set2 with _ | _
  · rw [if_neg Bool.false_ne_true]
    rcases hhas1 : set1.has COMPONENT_RESULT with _ | _
    · rcases hhas2 : set2.has COMPONENT_RESULT with _ | _
      · exact ⟨_, rfl, rfl, h1.operand, h2.operand⟩
      · obtain ⟨docs2, hdocs2, hconverted2⟩ := h2.seComp2doc hconsistent hhas2
        rw [hdocs2]
        exact ⟨_, rfl, rfl, h1.operand, hconverted2.operand⟩
    · obtain ⟨docs1, hdocs1, hconverted1⟩ := h1.seComp2doc hconsistent hhas1
      rw [hdocs1]
      exact ⟨_, rfl, rfl, hconverted1.operand, h2.operand⟩
  · have hhas1 : set1.has COMPONENT_RESULT = true := by
      rw [sameComponent, Bool.and_assoc] at hsame
      exact (Bool.and_eq_true_iff.mp hsame).1
    rw [if_pos rfl, hhas1]
    exact ⟨_, rfl, rfl, h1.operand, h2.operand⟩

end Conversion

theorem mergedType_unpaged (set1 set2 : WeightedResult) (comp : Operands) (fuzzFlag : Bool) :
    mergedType ⟨set1, set2, false, 0⟩ comp fuzzFlag =
      (if comp.both then COMPONENT_RESULT else 0) ||| (if fuzzFlag then FUZZY_RESULT else 0) := by
  simp [mergedType]

theorem mergedType_listed (set1 set2 : WeightedResult) (comp : Operands) (fuzzFlag : Bool)
    {flags : ℕ} (hflags : flags &&& RANKED_FLAGS = flags) :
    ((mergedType ⟨set1, set2, false, 0⟩ comp fuzzFlag ||| flags) &&& COMPONENT_RESULT != 0) =
        comp.both ∧
      (mergedType ⟨set1, set2, false, 0⟩ comp fuzzFlag ||| flags) &&& UNLISTED_FLAGS = 0 ∧
      (mergedType ⟨set1, set2, false, 0⟩ comp fuzzFlag ||| flags) &&& HYBRID_RESULT = 0 := by
  have hdisjoint (flag : ℕ) (hflag : RANKED_FLAGS &&& flag = 0) : flags &&& flag = 0 := by
    rw [← hflags, Nat.land_assoc, hflag, Nat.and_zero]
  rw [Nat.and_or_distrib_right, Nat.and_or_distrib_right, Nat.and_or_distrib_right,
    hdisjoint COMPONENT_RESULT (by decide), hdisjoint UNLISTED_FLAGS (by decide),
    hdisjoint HYBRID_RESULT (by decide), Nat.or_zero, Nat.or_zero, Nat.or_zero]
  rw [mergedType_unpaged]
  cases comp.both <;> cases fuzzFlag <;> decide

section Operators

variable {numbering : Numbering} {files : ComponentFiles} {callees : MergeCallees}
  {set1 set2 merged : WeightedResult} {comp : Operands}

theorem MergedFrom.header {filename : String} {component : Option ℕ} {fuzzFlag : Bool} {flags : ℕ}
    {records : List ℤ} (hflags : flags &&& RANKED_FLAGS = flags)
    (h : MergedFrom merged filename component
      (mergedType ⟨set1, set2, false, 0⟩ comp fuzzFlag) flags records) :
    Listed merged ∧ merged.has COMPONENT_RESULT = comp.both := by
  obtain ⟨hcomponent, hlisted, hhybrid⟩ := mergedType_listed set1 set2 comp fuzzFlag hflags
  refine ⟨⟨h.toAllocated, ?_, ?_⟩, ?_⟩
  · rw [h.resultType_eq]
    exact hlisted
  · intro _
    rw [WeightedResult.has_eq_false_iff, h.resultType_eq]
    exact hhybrid
  · rw [WeightedResult.has, h.resultType_eq]
    exact hcomponent

theorem OperandOf.mem_documents {converted : Bool} {set operand : WeightedResult}
    (h : OperandOf numbering converted set operand) (hset : Levelled numbering set)
    (hdocument : converted = false → set.has COMPONENT_RESULT = false)
    (hempty : ¬ (converted = true ∧ set.recordNums = [])) :
    ∀ number ∈ operand.recordNums, number ∈ numbering.documents := by
  intro number hnumber
  rcases hconverted : converted with _ | _
  · rw [h.same hconverted] at hnumber
    exact hset.documents (hdocument hconverted) number hnumber
  · refine (h.documents hconverted).nonempty ?_ number hnumber
    intro hnil
    exact hempty ⟨hconverted, hnil⟩

theorem converts_of_not_same (hsame : sameComponent set1 set2 = false) :
    converts set1 set2 = set1.has COMPONENT_RESULT := by
  rw [converts, hsame, Bool.not_false, Bool.and_true]

theorem marked_of_same (h1 : Levelled numbering set1) (hsame : sameComponent set1 set2 = true)
    (hcomponent : merged.component = set1.component)
    (hhas : merged.has COMPONENT_RESULT = sameComponent set1 set2)
    (hsub : ∀ number ∈ merged.recordNums, number ∈ set1.recordNums ∨ number ∈ set2.recordNums)
    (h2 : Levelled numbering set2) : Marked numbering merged where
  components := by
    intro _
    have hsame' := hsame
    rw [sameComponent, Bool.and_eq_true_iff, Bool.and_eq_true_iff, beq_iff_eq] at hsame'
    obtain ⟨⟨hhas1, hhas2⟩, hequal⟩ := hsame'
    obtain ⟨component, hsome, hnumbers1⟩ := h1.components hhas1
    obtain ⟨component', hsome', hnumbers2⟩ := h2.components hhas2
    obtain rfl : component = component' := Option.some.inj (hsome.symm.trans (hequal.trans hsome'))
    refine ⟨component, hcomponent.trans hsome, ?_⟩
    intro number hnumber
    rcases hsub number hnumber with hmem | hmem
    · exact hnumbers1 number hmem
    · exact hnumbers2 number hmem
  documents := by
    intro hfalse
    rw [hhas, hsame] at hfalse
    cases hfalse

variable (hsorts : SortingCallees callees) (hcomp : callees.seComp2doc = seComp2doc files)
  (hconsistent : numbering.Consistent files)

include hsorts hcomp hconsistent

theorem seAndmerge_levelled (h1 : Levelled numbering set1) (h2 : Levelled numbering set2) :
    ∃ merged, seAndmerge callees (some set1) (some set2) = .ok (some merged) ∧
      Levelled numbering merged := by
  obtain ⟨comp, hoperands, hboth, hfirst, hsecond⟩ :=
    componentOperands_levelled hcomp hconsistent h1 h2
  obtain ⟨merged, hrun, hmerged⟩ := seAndmerge_records hsorts (h1.toListed.direct h2.toListed)
    (pagedOperands_listed callees h1.toListed h2.toListed) hoperands
    (hsorts.prepared hfirst.toAllocated hsecond.toAllocated)
  obtain ⟨hlisted, hhas⟩ := hmerged.header (probFlag_ranked comp.set1 comp.set2)
  have hsub : ∀ number ∈ merged.recordNums,
      number ∈ comp.set1.recordNums ∧ number ∈ comp.set2.recordNums := by
    intro number hnumber
    rw [hmerged.perm.mem_iff] at hnumber
    exact ⟨(hsorts.perm_inRecordOrder hfirst.toAllocated).mem_iff.mp
        ((inter_sublist_left _ _).subset hnumber),
      (hsorts.perm_inRecordOrder hsecond.toAllocated).mem_iff.mp (mem_of_mem_inter_right hnumber)⟩
  have hcomponent := hmerged.component_eq
  rw [hboth] at hhas hcomponent
  refine ⟨merged, hrun, hlisted, ?_⟩
  rcases hsame : sameComponent set1 set2 with _ | _
  · refine ⟨fun htrue ↦ ?_, ?_⟩
    · rw [hhas, hsame] at htrue
      cases htrue
    intro _ number hnumber
    obtain ⟨hnumber1, hnumber2⟩ := hsub number hnumber
    have hconverts := converts_of_not_same hsame
    by_cases hempty : converts set1 set2 = true ∧ set1.recordNums = []
    · have hhas1 : set1.has COMPONENT_RESULT = true := hconverts ▸ hempty.1
      have hzero := ((hfirst.documents hempty.1).empty hempty.2 number).mp hnumber1
      rw [hsecond.same (by rw [hhas1]; rfl), hzero] at hnumber2
      rcases hhas2 : set2.has COMPONENT_RESULT with _ | _
      · exact absurd (h2.documents hhas2 0 hnumber2) hconsistent.document_ne_zero
      · obtain ⟨component, -, hnumbers⟩ := h2.components hhas2
        exact absurd (hnumbers 0 hnumber2) (hconsistent.component_ne_zero component)
    · exact hfirst.mem_documents h1 (fun hfalse ↦ hconverts ▸ hfalse) hempty number hnumber1
  · have hkept : converts set1 set2 = false := by
      rw [converts, hsame, Bool.not_true, Bool.and_false]
    rw [hsame, if_pos rfl, hfirst.same hkept] at hcomponent
    refine marked_of_same h1 hsame hcomponent hhas ?_ h2
    intro number hnumber
    have hnumber1 := (hsub number hnumber).1
    rw [hfirst.same hkept] at hnumber1
    exact .inl hnumber1

theorem seOrmerge_levelled (h1 : Levelled numbering set1) (h2 : Levelled numbering set2)
    (addweights : ℕ) :
    ∃ merged, seOrmerge callees (some set1) (some set2) addweights = .ok (some merged) ∧
      Listed merged ∧ (Marked numbering merged ↔
        ¬ (converts set1 set2 = true ∧ set1.recordNums = []) ∧
          ¬ (converts set2 set1 = true ∧ set2.recordNums = [])) := by
  obtain ⟨comp, hoperands, hboth, hfirst, hsecond⟩ :=
    componentOperandsOr_levelled hcomp hconsistent h1 h2
  obtain ⟨merged, hrun, hmerged⟩ := seOrmerge_records hsorts (h1.toListed.direct h2.toListed)
    (pagedOperands_listed callees h1.toListed h2.toListed) hoperands
    (hsorts.prepared hfirst.toAllocated hsecond.toAllocated) addweights
  obtain ⟨hlisted, hhas⟩ := hmerged.header (probFlag_ranked comp.set1 comp.set2)
  have hmem (number : ℤ) : number ∈ merged.recordNums ↔
      number ∈ comp.set1.recordNums ∨ number ∈ comp.set2.recordNums := by
    rw [hmerged.perm.mem_iff, mem_union,
      (hsorts.perm_inRecordOrder hfirst.toAllocated).mem_iff,
      (hsorts.perm_inRecordOrder hsecond.toAllocated).mem_iff]
  have hcomponent := hmerged.component_eq
  rw [hboth] at hhas hcomponent
  refine ⟨merged, hrun, hlisted, ?_⟩
  have hsymm : sameComponent set2 set1 = sameComponent set1 set2 := by
    rw [sameComponent, sameComponent, Bool.and_comm (set2.has COMPONENT_RESULT), Bool.beq_comm]
  rcases hsame : sameComponent set1 set2 with _ | _
  · have hconverts1 := converts_of_not_same hsame
    have hconverts2 := converts_of_not_same (hsymm.trans hsame)
    rw [hsame] at hhas
    constructor
    · intro hmarked
      constructor
      · rintro ⟨hconverted, hnil⟩
        have hzero := ((hfirst.documents hconverted).empty hnil 0).mpr rfl
        exact hconsistent.document_ne_zero
          (hmarked.documents hhas 0 ((hmem 0).mpr (.inl hzero)))
      · rintro ⟨hconverted, hnil⟩
        have hzero := ((hsecond.documents hconverted).empty hnil 0).mpr rfl
        exact hconsistent.document_ne_zero
          (hmarked.documents hhas 0 ((hmem 0).mpr (.inr hzero)))
    · rintro ⟨hempty1, hempty2⟩
      refine ⟨fun htrue ↦ ?_, ?_⟩
      · rw [hhas] at htrue
        cases htrue
      intro _ number hnumber
      rcases (hmem number).mp hnumber with hnumber1 | hnumber2
      · exact hfirst.mem_documents h1 (fun hfalse ↦ hconverts1 ▸ hfalse) hempty1 number hnumber1
      · exact hsecond.mem_documents h2 (fun hfalse ↦ hconverts2 ▸ hfalse) hempty2 number hnumber2
  · have hkept1 : converts set1 set2 = false := by
      rw [converts, hsame, Bool.not_true, Bool.and_false]
    have hkept2 : converts set2 set1 = false := by
      rw [converts, hsymm, hsame, Bool.not_true, Bool.and_false]
    rw [hsame, if_pos rfl, hfirst.same hkept1] at hcomponent
    rw [hkept1, hkept2]
    refine iff_of_true ?_ ⟨fun h ↦ Bool.false_ne_true h.1, fun h ↦ Bool.false_ne_true h.1⟩
    refine marked_of_same h1 hsame hcomponent hhas ?_ h2
    intro number hnumber
    rw [← hfirst.same hkept1, ← hsecond.same hkept2]
    exact (hmem number).mp hnumber

theorem seNotmerge_levelled (h1 : Levelled numbering set1) (h2 : Levelled numbering set2) :
    ∃ merged, seNotmerge callees (some set1) (some set2) = .ok (some merged) ∧
      Listed merged ∧ (Marked numbering merged ↔
        ¬ (converts set1 set2 = true ∧ set1.recordNums = [])) := by
  obtain ⟨comp, hoperands, hboth, hfirst, hsecond⟩ :=
    componentOperands_levelled hcomp hconsistent h1 h2
  obtain ⟨merged, hrun, hmerged⟩ := seNotmerge_records hsorts (h1.toListed.direct h2.toListed)
    (pagedOperands_listed callees h1.toListed h2.toListed) hoperands
    (hsorts.prepared hfirst.toAllocated hsecond.toAllocated)
  obtain ⟨hlisted, hhas⟩ := hmerged.header (probFlag_ranked comp.set1 comp.set2)
  have hsub : ∀ number ∈ merged.recordNums, number ∈ comp.set1.recordNums := by
    intro number hnumber
    rw [hmerged.perm.mem_iff] at hnumber
    exact (hsorts.perm_inRecordOrder hfirst.toAllocated).mem_iff.mp
      ((diff_sublist_left _ _).subset hnumber)
  have hcomponent := hmerged.component_eq
  rw [hboth] at hhas hcomponent
  refine ⟨merged, hrun, hlisted, ?_⟩
  rcases hsame : sameComponent set1 set2 with _ | _
  · have hconverts := converts_of_not_same hsame
    rw [hsame] at hhas
    constructor
    · rintro hmarked ⟨hconverted, hnil⟩
      have hhas1 : set1.has COMPONENT_RESULT = true := hconverts ▸ hconverted
      have hzero1 := ((hfirst.documents hconverted).empty hnil 0).mpr rfl
      have hzero2 : (0 : ℤ) ∉ comp.set2.recordNums := by
        rw [hsecond.same (by rw [hhas1]; rfl)]
        intro hzero
        rcases hhas2 : set2.has COMPONENT_RESULT with _ | _
        · exact hconsistent.document_ne_zero (h2.documents hhas2 0 hzero)
        · obtain ⟨component, -, hnumbers⟩ := h2.components hhas2
          exact hconsistent.component_ne_zero component (hnumbers 0 hzero)
      apply hconsistent.document_ne_zero
      apply hmarked.documents hhas 0
      rw [hmerged.perm.mem_iff]
      apply mem_diff_of_notMem
      · rw [(hsorts.perm_inRecordOrder hfirst.toAllocated).mem_iff]
        exact hzero1
      · rw [(hsorts.perm_inRecordOrder hsecond.toAllocated).mem_iff]
        exact hzero2
    · intro hempty
      refine ⟨fun htrue ↦ ?_, ?_⟩
      · rw [hhas] at htrue
        cases htrue
      intro _ number hnumber
      exact hfirst.mem_documents h1 (fun hfalse ↦ hconverts ▸ hfalse) hempty number
        (hsub number hnumber)
  · have hkept : converts set1 set2 = false := by
      rw [converts, hsame, Bool.not_true, Bool.and_false]
    rw [hsame, if_pos rfl, hfirst.same hkept] at hcomponent
    rw [hkept]
    refine iff_of_true ?_ (fun h ↦ Bool.false_ne_true h.1)
    refine marked_of_same h1 hsame hcomponent hhas ?_ h2
    intro number hnumber
    have hnumber1 := hsub number hnumber
    rw [hfirst.same hkept] at hnumber1
    exact .inl hnumber1

end Operators

end Cheshire.Search
