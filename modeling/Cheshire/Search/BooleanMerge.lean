import Cheshire.Search.WeightedResult

/-!
# The Boolean merge operators

`se_andmerge`, `se_ormerge` and `se_notmerge` walk two result sets with one cursor each and fill a
new set.  They share a preamble that hands virtual and bitmap sets to other routines, maps page and
component sets to documents and sorts ranked sets by record number; these routines are parameters
of the model.  Each operator keeps its own loop.
-/

namespace Cheshire.Search

open Lib

/-- The routines that the merge operators call. -/
structure MergeCallees where
  seVirtualmerge : WeightedResult → WeightedResult → ℕ → ℕ → Exec (Option WeightedResult)
  seBitmapMerge : WeightedResult → WeightedResult → ℕ → Exec (Option WeightedResult)
  seGetPageDocs : WeightedResult → ℕ → Exec (Option WeightedResult)
  seComp2doc : WeightedResult → Exec (Option WeightedResult)
  seSortwtset : WeightedResult → WeightedResult
  seRankDocs : WeightedResult → WeightedResult

/-- The operands after the conversion of one kind of set, with the flags the code keeps. -/
structure Operands where
  set1 : WeightedResult
  set2 : WeightedResult
  both : Bool
  flag : ℕ

/-- Page sets stay pages only when both operands are page sets. -/
def pagedOperands (callees : MergeCallees) (set1 set2 : WeightedResult) : Exec Operands :=
  if set1.has PAGED_RESULT && set2.has PAGED_RESULT then
    .ok ⟨set1, set2, true, 0⟩
  else if set1.has PAGED_RESULT then do
    let docs ← deref (← callees.seGetPageDocs set1 1)
    .ok ⟨docs, set2, false, 1⟩
  else if set2.has PAGED_RESULT then do
    let docs ← deref (← callees.seGetPageDocs set2 2)
    .ok ⟨set1, docs, false, 2⟩
  else .ok ⟨set1, set2, false, 0⟩

/-- Both operands hold components of one component definition. -/
def sameComponent (set1 set2 : WeightedResult) : Bool :=
  set1.has COMPONENT_RESULT && set2.has COMPONENT_RESULT && set1.component == set2.component

/-- AND and NOT map at most one operand to its documents. -/
def componentOperands (callees : MergeCallees) (inset1 inset2 set1 set2 : WeightedResult) :
    Exec Operands :=
  if sameComponent set1 set2 then .ok ⟨set1, set2, true, 0⟩
  else if set1.has COMPONENT_RESULT then do
    let docs ← deref (← callees.seComp2doc inset1)
    .ok ⟨docs, set2, false, 1⟩
  else if set2.has COMPONENT_RESULT then do
    let docs ← deref (← callees.seComp2doc inset2)
    .ok ⟨set1, docs, false, 2⟩
  else .ok ⟨set1, set2, false, 0⟩

/-- OR maps each operand that is a component set. -/
def componentOperandsOr (callees : MergeCallees) (inset1 inset2 set1 set2 : WeightedResult) :
    Exec Operands :=
  if sameComponent set1 set2 then .ok ⟨set1, set2, true, 0⟩
  else do
    let docs1 ← if set1.has COMPONENT_RESULT then do deref (← callees.seComp2doc inset1)
      else .ok set1
    let docs2 ← if set2.has COMPONENT_RESULT then do deref (← callees.seComp2doc inset2)
      else .ok set2
    .ok ⟨docs1, docs2, false,
      (if set1.has COMPONENT_RESULT then 1 else 0) + (if set2.has COMPONENT_RESULT then 2 else 0)⟩

/-- A ranked set is put back into record order before it is merged. -/
def inRecordOrder (callees : MergeCallees) (set : WeightedResult) : WeightedResult :=
  if set.has RANKED_FLAGS then callees.seSortwtset set else set

/-- The ranked flags that the result inherits. -/
def probFlag (set1 set2 : WeightedResult) : ℕ :=
  (set1.resultType &&& RANKED_FLAGS) ||| (set2.resultType &&& RANKED_FLAGS)

/-- The new set while it is filled: its cells, the output index and the weight bounds. -/
structure NewSet where
  cells : List WeightedEntry
  index : ℕ
  maxWeight : ℚ
  minWeight : ℚ

/-- `CALLOC` of a header and `total_postings` entries; the header brings one entry of its own. -/
def NewSet.alloc (totalPostings : ℕ) : NewSet :=
  ⟨Buffer.calloc WeightedEntry.zero (totalPostings + 1), 0, 0, 0⟩

/-- `newset->entries[i++] = entry` -/
def NewSet.put (newset : NewSet) (entry : WeightedEntry) : Exec NewSet :=
  match Buffer.store? newset.cells newset.index entry with
  | some cells => .ok { newset with cells := cells, index := newset.index + 1 }
  | none => .error .outOfBounds

/-- The running weight bounds; a bound of zero counts as not yet set. -/
def NewSet.bound (newset : NewSet) (weight : ℚ) : NewSet :=
  { newset with
    maxWeight :=
      if newset.maxWeight = 0 then weight
      else if newset.maxWeight < weight then weight else newset.maxWeight
    minWeight :=
      if newset.minWeight = 0 then weight
      else if newset.minWeight > weight then weight else newset.minWeight }

/-- The flags of the result, set after the loop. -/
def mergedType (paged comp : Operands) (fuzzFlag : Bool) : ℕ :=
  (if comp.both then COMPONENT_RESULT else 0) ||| (if paged.both then PAGED_RESULT else 0) |||
    (if paged.flag ≠ 0 then PAGED_DOC_RESULT else 0) ||| (if fuzzFlag then FUZZY_RESULT else 0)

/-- The header of the finished set. -/
def NewSet.finish (newset : NewSet) (filename : String) (component : Option ℕ) (resultType : ℕ)
    (resultWeight : ℚ) : WeightedResult where
  setid := ""
  filename := filename
  resultType := resultType
  component := component
  termid := []
  numHits := newset.index
  resultWeight := resultWeight
  maxWeight := newset.maxWeight
  minWeight := newset.minWeight
  entries := newset.cells

/-- A result that inherits a ranked flag is returned in rank order. -/
def ranked (callees : MergeCallees) (flags : ℕ) (newset : WeightedResult) : WeightedResult :=
  if flags ≠ 0 then callees.seRankDocs { newset with resultType := newset.resultType ||| flags }
  else newset

/-- The weight of a record found in both sets. -/
def andWeight (fuzzFlag : Bool) (flags : ℕ) (weight1 weight2 : ℚ) : ℚ :=
  if fuzzFlag then (if flags ≠ 0 then (weight1 + weight2) * (1 / 2) else 1 / 2)
  else if flags ≠ 0 then weight1 + weight2 else 1

def andLoop (fuzzFlag : Bool) (flags : ℕ) (set1 set2 : WeightedResult) :
    ℕ → ℕ → ℕ → NewSet → Exec NewSet
  | 0, _, _, _ => .error .unfinished
  | fuel + 1, i1, i2, newset =>
    if (i1 : ℤ) < set1.numHits ∧ (i2 : ℤ) < set2.numHits then do
      let entry1 ← set1.entryAt i1
      let entry2 ← set2.entryAt i2
      if entry1.recordNum < entry2.recordNum then
        andLoop fuzzFlag flags set1 set2 fuel (i1 + 1) i2 newset
      else if entry1.recordNum > entry2.recordNum then
        andLoop fuzzFlag flags set1 set2 fuel i1 (i2 + 1) newset
      else do
        let weight := andWeight fuzzFlag flags entry1.weight entry2.weight
        let newset ← newset.put { recordNum := entry1.recordNum, xtra := 0, weight := weight }
        andLoop fuzzFlag flags set1 set2 fuel (i1 + 1) (i2 + 1) (newset.bound weight)
    else .ok newset

def seAndmerge (callees : MergeCallees) (inset1 inset2 : Option WeightedResult) :
    Exec (Option WeightedResult) :=
  match inset1, inset2 with
  | some inset1, some inset2 => do
    -- the source tests the request flag of the first set twice
    let fuzzFlag := inset1.has FUZZY_REQUEST && inset1.has FUZZY_REQUEST
    if inset1.has VIRTUAL_RESULT || inset2.has VIRTUAL_RESULT then
      callees.seVirtualmerge inset1 inset2 BOOLEAN_AND 0
    else if inset1.has BITMAP_RESULT || inset2.has BITMAP_RESULT then
      callees.seBitmapMerge inset1 inset2 BOOLEAN_AND
    else do
      let paged ← pagedOperands callees inset1 inset2
      let comp ← componentOperands callees inset1 inset2 paged.set1 paged.set2
      let flags := probFlag comp.set1 comp.set2
      let set1 := inRecordOrder callees comp.set1
      let set2 := inRecordOrder callees comp.set2
      let totalPostings :=
        if set1.numHits < set2.numHits then set1.numHits.toNat else set2.numHits.toNat
      let newset ← andLoop fuzzFlag flags set1 set2
        (set1.numHits.toNat + set2.numHits.toNat + 1) 0 0 (NewSet.alloc totalPostings)
      .ok (some (ranked callees flags (newset.finish inset1.filename
        (if comp.both then set1.component else none) (mergedType paged comp fuzzFlag) 0)))
  | _, _ => .ok none

def MERGESUM : ℕ := 1
def FUZZY : ℕ := 2
def MERGEMEAN : ℕ := 3
def MERGENORM : ℕ := 4
def MERGECMBZ : ℕ := 5
def MERGENSUM : ℕ := 6
def MERGENPRV : ℕ := 7

/-- The ranked flags without the fuzzy one, which the sum merge does not look at. -/
def SUM_FLAGS : ℕ :=
  PROBABILISTIC_RESULT ||| OKAPI_RESULT ||| TFIDF_RESULT ||| BLOB_RESULT ||| GEORANK_RESULT |||
    CORI_RESULT

def seMinMaxNorm (set : WeightedResult) (entry : WeightedEntry) : ℚ :=
  if set.has RANKED_FLAGS then (entry.weight - set.minWeight) / (set.maxWeight - set.minWeight)
  else 1 / 2

/-- The weight of a record found in both sets. -/
def orWeight (addweights : ℕ) (fuzzFlag : Bool) (set1 set2 : WeightedResult)
    (entry1 entry2 : WeightedEntry) : ℚ :=
  if addweights = MERGESUM then
    (if set1.has SUM_FLAGS then 1 + entry1.weight else 3 / 2) +
      (if set2.has SUM_FLAGS then 1 + entry2.weight else 3 / 2)
  else if addweights = FUZZY ∧ fuzzFlag = true then
    let saveSum := if set1.has RANKED_FLAGS then entry1.weight else 1 / 2
    if set2.has RANKED_FLAGS ∧ entry2.weight > saveSum then entry2.weight else saveSum
  else if addweights = MERGEMEAN then
    if set1.has RANKED_FLAGS || set2.has RANKED_FLAGS then (entry1.weight + entry2.weight) / 2
    else 1 / 2
  else if addweights = MERGENORM then
    if set1.has RANKED_FLAGS || set2.has RANKED_FLAGS then
      (seMinMaxNorm set1 entry1 + seMinMaxNorm set2 entry2) / 2
    else 1 / 2
  else if addweights = MERGECMBZ then (seMinMaxNorm set1 entry1 + seMinMaxNorm set2 entry2) * 2
  else if addweights = MERGENSUM then seMinMaxNorm set1 entry1 + seMinMaxNorm set2 entry2
  else if addweights = MERGENPRV then (seMinMaxNorm set1 entry1 + seMinMaxNorm set2 entry2) * 2
  else entry1.weight + entry2.weight

/-- The weight of a record found in one set while the other still has entries; `next` is the
cursor after the entry, which decides how high the entry ranks. -/
def orAloneWeight (addweights : ℕ) (set : WeightedResult) (entry : WeightedEntry) (next : ℕ) : ℚ :=
  if addweights = MERGEMEAN then entry.weight / 2
  else if addweights = MERGENORM then seMinMaxNorm set entry / 2
  else if addweights = MERGECMBZ ∨ addweights = MERGENSUM then seMinMaxNorm set entry / 2
  else if addweights = MERGENPRV then
    if (set.numHits > 150 ∧ next < 100) ∨
        (set.numHits < 150 ∧ (next : ℤ) < set.numHits.tdiv 2) then seMinMaxNorm set entry
    else seMinMaxNorm set entry / 2
  else entry.weight

/-- The weight of a record copied after the other set is exhausted. -/
def orTailWeight (addweights : ℕ) (set : WeightedResult) (entry : WeightedEntry) : ℚ :=
  if addweights = MERGEMEAN then entry.weight / 2
  else if addweights = MERGENORM ∨ addweights = MERGECMBZ then seMinMaxNorm set entry / 2
  else if addweights = MERGENSUM then seMinMaxNorm set entry
  else if addweights = MERGENPRV then
    if seMinMaxNorm set entry > 1 / 2 then seMinMaxNorm set entry
    else seMinMaxNorm set entry / 2
  else entry.weight

/-- `while (i1 < set1->num_hits && i2 < set2->num_hits)`; the result keeps both cursors. -/
def orLoop (addweights : ℕ) (fuzzFlag : Bool) (set1 set2 : WeightedResult) :
    ℕ → ℕ → ℕ → NewSet → Exec (ℕ × ℕ × NewSet)
  | 0, _, _, _ => .error .unfinished
  | fuel + 1, i1, i2, newset =>
    if (i1 : ℤ) < set1.numHits ∧ (i2 : ℤ) < set2.numHits then do
      let entry1 ← set1.entryAt i1
      let entry2 ← set2.entryAt i2
      if entry1.recordNum = entry2.recordNum then do
        let weight := orWeight addweights fuzzFlag set1 set2 entry1 entry2
        let newset ← newset.put { entry1 with weight := weight }
        orLoop addweights fuzzFlag set1 set2 fuel (i1 + 1) (i2 + 1) (newset.bound weight)
      else if entry1.recordNum < entry2.recordNum then do
        let weight := orAloneWeight addweights set1 entry1 (i1 + 1)
        let newset ← newset.put { entry1 with weight := weight }
        orLoop addweights fuzzFlag set1 set2 fuel (i1 + 1) i2 (newset.bound weight)
      else do
        let weight := orAloneWeight addweights set2 entry2 (i2 + 1)
        let newset ← newset.put { entry2 with weight := weight }
        orLoop addweights fuzzFlag set1 set2 fuel i1 (i2 + 1) (newset.bound weight)
    else .ok (i1, i2, newset)

/-- `while (i < set->num_hits)`, which copies the remainder of one set. -/
def orTail (addweights : ℕ) (set : WeightedResult) : ℕ → ℕ → NewSet → Exec NewSet
  | 0, _, _ => .error .unfinished
  | fuel + 1, i, newset =>
    if (i : ℤ) < set.numHits then do
      let entry ← set.entryAt i
      let weight := orTailWeight addweights set entry
      let newset ← newset.put { entry with weight := weight }
      orTail addweights set fuel (i + 1) (newset.bound weight)
    else .ok newset

/-- A copy of a lone operand. -/
def orDuplicate (addweights : ℕ) (set : WeightedResult) : WeightedResult :=
  if addweights ≠ 0 then { set with resultWeight := set.resultWeight + 1 } else set

def seOrmerge (callees : MergeCallees) (inset1 inset2 : Option WeightedResult) (addweights : ℕ) :
    Exec (Option WeightedResult) :=
  match inset1, inset2 with
  | none, none => .ok none
  | none, some set2 => .ok (some (orDuplicate addweights set2))
  | some set1, none => .ok (some (orDuplicate addweights set1))
  | some inset1, some inset2 => do
    let fuzzFlag := inset1.has FUZZY_REQUEST && inset2.has FUZZY_REQUEST
    if inset1.has VIRTUAL_RESULT || inset2.has VIRTUAL_RESULT then
      callees.seVirtualmerge inset1 inset2 BOOLEAN_OR addweights
    else if inset1.has BITMAP_RESULT || inset2.has BITMAP_RESULT then
      callees.seBitmapMerge inset1 inset2 BOOLEAN_OR
    else do
      let paged ← pagedOperands callees inset1 inset2
      let comp ← componentOperandsOr callees inset1 inset2 paged.set1 paged.set2
      let flags := probFlag comp.set1 comp.set2
      let set1 := inRecordOrder callees comp.set1
      let set2 := inRecordOrder callees comp.set2
      let totalPostings := (set1.numHits + set2.numHits).toNat
      let (i1, i2, newset) ← orLoop addweights fuzzFlag set1 set2
        (set1.numHits.toNat + set2.numHits.toNat + 1) 0 0 (NewSet.alloc totalPostings)
      let newset ← orTail addweights set1 (set1.numHits.toNat + 1) i1 newset
      let newset ← orTail addweights set2 (set2.numHits.toNat + 1) i2 newset
      let resultWeight :=
        if addweights ≠ 0 then min set1.resultWeight 1 + min set2.resultWeight 1 else 0
      .ok (some (ranked callees flags (newset.finish set1.filename
        (if comp.both then set1.component else none) (mergedType paged comp fuzzFlag)
        resultWeight)))

def notLoop (set1 set2 : WeightedResult) : ℕ → ℕ → ℕ → NewSet → Exec (ℕ × NewSet)
  | 0, _, _, _ => .error .unfinished
  | fuel + 1, i1, i2, newset =>
    if (i1 : ℤ) < set1.numHits ∧ (i2 : ℤ) < set2.numHits then do
      let entry1 ← set1.entryAt i1
      let entry2 ← set2.entryAt i2
      if entry1.recordNum > entry2.recordNum then notLoop set1 set2 fuel i1 (i2 + 1) newset
      else if entry1.recordNum = entry2.recordNum then
        notLoop set1 set2 fuel (i1 + 1) (i2 + 1) newset
      else do
        let newset ← newset.put
          { recordNum := entry1.recordNum, xtra := 0, weight := entry1.weight }
        notLoop set1 set2 fuel (i1 + 1) i2 newset
    else .ok (i1, newset)

/-- `while (i1 < set1->num_hits)`, which copies the remainder of the first set. -/
def notTail (set1 : WeightedResult) : ℕ → ℕ → NewSet → Exec NewSet
  | 0, _, _ => .error .unfinished
  | fuel + 1, i1, newset =>
    if (i1 : ℤ) < set1.numHits then do
      let entry1 ← set1.entryAt i1
      let newset ← newset.put entry1
      notTail set1 fuel (i1 + 1) newset
    else .ok newset

def seNotmerge (callees : MergeCallees) (inset1 inset2 : Option WeightedResult) :
    Exec (Option WeightedResult) :=
  match inset1, inset2 with
  | none, _ => .ok none
  | some set1, none => .ok (some set1)
  | some inset1, some inset2 => do
    let fuzzFlag := inset1.has FUZZY_REQUEST && inset2.has FUZZY_REQUEST
    if inset1.has VIRTUAL_RESULT || inset2.has VIRTUAL_RESULT then
      callees.seVirtualmerge inset1 inset2 BOOLEAN_NOT 0
    else if inset1.has BITMAP_RESULT || inset2.has BITMAP_RESULT then
      callees.seBitmapMerge inset1 inset2 BOOLEAN_NOT
    else do
      let paged ← pagedOperands callees inset1 inset2
      let comp ← componentOperands callees inset1 inset2 paged.set1 paged.set2
      let flags := probFlag comp.set1 comp.set2
      let set1 := inRecordOrder callees comp.set1
      let set2 := inRecordOrder callees comp.set2
      let totalPostings :=
        if set1.numHits > set2.numHits then set1.numHits.toNat else set2.numHits.toNat
      let newset := { NewSet.alloc totalPostings with
        maxWeight := set1.maxWeight, minWeight := set1.minWeight }
      let (i1, newset) ← notLoop set1 set2
        (set1.numHits.toNat + set2.numHits.toNat + 1) 0 0 newset
      let newset ← notTail set1 (set1.numHits.toNat + 1) i1 newset
      .ok (some (ranked callees flags (newset.finish set1.filename
        (if comp.both then set1.component else none) (mergedType paged comp fuzzFlag) 0)))

end Cheshire.Search
