import Cheshire.Search.RpnStructure

/-!
# The operators of `se_proxmerge` on two sets

`se_component_sub_restrict` keeps the components that contain a component of the other set,
`se_pivot_doc_normalize` mixes the weights of a set with those of its documents, and for a known
unit code `se_proxmerge` itself merges two proximity results.  The test of the positions of the
terms is a parameter.
-/

namespace Cheshire.Search

open Lib Lib.SortedMerge
open Index (ComponentKey ComponentDataItem)

def PROXIMITY_RESULT : ℕ := 1 <<< 6

/-- The parent and the child set, if the unit code is one of containment. -/
def parentAndChild (op : ProximityOperator) (inset1 inset2 : WeightedResult) :
    Option (WeightedResult × WeightedResult) :=
  if (op.proximityUnitCode = .known 8 ∧ op.distance ≤ 1) ∨ op.proximityUnitCode = .privateVar 4 then
    some (inset1, inset2)
  else if (op.proximityUnitCode = .known 9 ∧ op.distance ≤ 1) ∨
      op.proximityUnitCode = .privateVar 5 then some (inset2, inset1)
  else none

/-- `for (j = 0; j < childcomp->num_hits; j++)`, which reads the data of each child.  There is no
result when a child is missing from its file or already carries other data; a failing file leaves
the child without data. -/
def childDataLoop (get : ComponentKey → DbReply) (childcomp : WeightedResult) :
    List ℕ → Exec (Option (List (Option ComponentDataItem)))
  | [] => .ok (some [])
  | j :: js => do
    let entry ← childcomp.entryAt j
    match get (.component entry.recordNum) with
    | .found item =>
      if entry.xtra ≠ 0 then .ok none
      else do
        let rest ← childDataLoop get childcomp js
        .ok (rest.map (some item :: ·))
    | .notFound => .ok none
    | .failed => do
      let rest ← childDataLoop get childcomp js
      .ok (rest.map (none :: ·))

/-- The parent contains one of the children. -/
def containsChild (compData : ComponentDataItem) : List (Option ComponentDataItem) → Exec Bool
  | [] => .ok false
  | child :: children => do
    let childData ← deref child
    if compData.recordId = childData.recordId ∧ compData.startOffset ≤ childData.startOffset ∧
        compData.endOffset ≥ childData.endOffset then .ok true
    else containsChild compData children

/-- `for (i = 0; i < parentcomp->num_hits; i++)` -/
def containingLoop (get : ComponentKey → DbReply) (parentcomp : WeightedResult)
    (children : List (Option ComponentDataItem)) :
    List ℕ → List WeightedEntry → ℕ → Exec (Option (List WeightedEntry × ℕ))
  | [], cells, hitcount => .ok (some (cells, hitcount))
  | i :: is, cells, hitcount => do
    let entry ← parentcomp.entryAt i
    match get (.component entry.recordNum) with
    | .found compData =>
      if ← containsChild compData children then do
        let cells ← storeDoc cells hitcount entry.recordNum entry.weight
        containingLoop get parentcomp children is cells (hitcount + 1)
      else containingLoop get parentcomp children is cells hitcount
    | _ => .ok none

def seComponentSubRestrict (get : ℕ → ComponentKey → DbReply) (op : ProximityOperator)
    (inset1 inset2 : WeightedResult) : Exec (Option WeightedResult) :=
  match parentAndChild op inset1 inset2 with
  | none => .ok none
  | some (parentcomp, childcomp) => do
    let parententry ← deref parentcomp.component
    let childentry ← deref childcomp.component
    match ← childDataLoop (get childentry) childcomp (List.range childcomp.numHits.toNat) with
    | none => .ok none
    | some children => do
      let size := parentcomp.numHits.toNat + 2
      match ← containingLoop (get parententry) parentcomp children
        (List.range parentcomp.numHits.toNat) (Buffer.calloc WeightedEntry.zero size) 0 with
      | none => .ok none
      | some (cells, hitcount) => .ok (some (restrictedSet parentcomp cells hitcount))

def pivotVal (distance : ℤ) : ℚ :=
  if 0 < distance ∧ distance < 100 then distance / 100
  else if 100 < distance ∧ distance < 1000 then distance / 1000
  else 7 / 10

/-- The component definition of the first set, if it is a component set. -/
def pivotComponent (compset : WeightedResult) : Exec (Option ℕ) :=
  if compset.has COMPONENT_RESULT then do
    let comp ← deref compset.component
    .ok (some comp)
  else .ok none

/-- The document of an entry; a component without data keeps the document of the entry before it.
There is no result when the file fails. -/
def pivotRecord (get : ℕ → ComponentKey → DbReply) (component : Option ℕ) (entry : WeightedEntry)
    (recordId : ℤ) : Option ℤ :=
  match component with
  | some comp =>
    match get comp (.component entry.recordNum) with
    | .found compData => some compData.recordId
    | .notFound => some recordId
    | .failed => none
  | none => some entry.recordNum

/-- The weight of an entry with the given score; `bsearch` compares the extra data as well, which
its key does not have. -/
def pivotWeight (docset : WeightedResult) (distance recordId : ℤ) (compScore : ℚ) : ℚ :=
  match docset.hits.find? fun entry ↦ entry.recordNum = recordId ∧ entry.xtra = 0 with
  | none => (1 - pivotVal distance) * compScore
  | some entry =>
    pivotVal distance *
        ((entry.weight - docset.minWeight) / (docset.maxWeight - docset.minWeight)) +
      (1 - pivotVal distance) * compScore

def pivotLoop (get : ℕ → ComponentKey → DbReply) (distance : ℤ) (component : Option ℕ)
    (compset docset : WeightedResult) : List ℕ → ℤ → NewSet → Exec (Option NewSet)
  | [], _, newset => .ok (some newset)
  | i :: is, recordId, newset => do
    let entry ← compset.entryAt i
    match pivotRecord get component entry recordId with
    | none => .ok none
    | some recordId => do
      let weight := pivotWeight docset distance recordId (seMinMaxNorm compset entry)
      let newset ← newset.put ⟨entry.recordNum, 0, weight⟩
      pivotLoop get distance component compset docset is recordId (newset.bound weight)

/-- `se_pivot_doc_normalize` on two sets. -/
def pivotNormalize (get : ℕ → ComponentKey → DbReply) (op : ProximityOperator)
    (compset inset2 : WeightedResult) : Exec (Option WeightedResult) := do
  let docset := seSortwtset inset2
  let component ← pivotComponent compset
  match ← pivotLoop get op.distance component compset docset (List.range compset.numHits.toNat) 0
    (NewSet.alloc (compset.numHits.toNat + 1)) with
  | none => .ok none
  | some newset =>
    .ok (some { newset.finish compset.filename compset.component compset.resultType 0 with
      termid := compset.termid })

/-- A set is put back into record order before it is merged; the flag of geographic ranking is not
among those that are looked at. -/
def inProximityOrder (set : WeightedResult) : WeightedResult :=
  if set.has DOC_FLAGS then seSortwtset set else set

/-- The AND of two sets with a test of each common record. -/
def proxLoop (proxTest : ℤ → Bool) (flags : ℕ) (set1 set2 : WeightedResult) :
    ℕ → ℕ → ℕ → NewSet → Exec NewSet
  | 0, _, _, _ => .error .unfinished
  | fuel + 1, i1, i2, newset =>
    if (i1 : ℤ) < set1.numHits ∧ (i2 : ℤ) < set2.numHits then do
      let entry1 ← set1.entryAt i1
      let entry2 ← set2.entryAt i2
      if entry1.recordNum < entry2.recordNum then
        proxLoop proxTest flags set1 set2 fuel (i1 + 1) i2 newset
      else if entry1.recordNum > entry2.recordNum then
        proxLoop proxTest flags set1 set2 fuel i1 (i2 + 1) newset
      else if proxTest entry1.recordNum then do
        let weight := if flags ≠ 0 then entry1.weight + entry2.weight else 1
        let newset ← newset.put ⟨entry1.recordNum, 0, weight⟩
        proxLoop proxTest flags set1 set2 fuel (i1 + 1) (i2 + 1) newset
      else proxLoop proxTest flags set1 set2 fuel (i1 + 1) (i2 + 1) newset
    else .ok newset

/-- The second list of term numbers is added to the first. -/
def mergeTermids (termid1 termid2 : List ℤ) : List ℤ :=
  termid2.foldl (fun termid id ↦ if id ∈ termid then termid else termid ++ [id]) termid1

/-- The header of the merged set.  A ranked result has the flags of its operands and no others. -/
def proximitySet (inset1 set1 set2 : WeightedResult) (paged : Operands) (flags : ℕ)
    (newset : NewSet) : WeightedResult :=
  let merged := { newset.finish inset1.filename none
    (PROXIMITY_RESULT ||| (if paged.both then PAGED_RESULT else 0) |||
      (if paged.flag ≠ 0 then PAGED_DOC_RESULT else 0)) 0 with
    termid := mergeTermids set1.termid set2.termid }
  if flags ≠ 0 then seRankDocs { merged with resultType := flags } else merged

/-- The routines and the test that the proximity merge uses. -/
structure ProximityCallees where
  compDbGet : ℕ → ComponentKey → DbReply
  seGetPageDocs : WeightedResult → ℕ → Exec (Option WeightedResult)
  proxTest : ProximityOperator → WeightedResult → WeightedResult → ℤ → Bool

/-- What follows the conversion of pages to documents. -/
def mergeProximity (callees : ProximityCallees) (op : ProximityOperator) (inset1 : WeightedResult)
    (paged : Operands) : Exec (Option WeightedResult) := do
  let set1 := inProximityOrder paged.set1
  let set2 := inProximityOrder paged.set2
  let flags := (paged.set1.resultType &&& DOC_FLAGS) ||| (paged.set2.resultType &&& DOC_FLAGS)
  let totalPostings :=
    if set1.numHits < set2.numHits then set1.numHits.toNat else set2.numHits.toNat
  let newset ← proxLoop (callees.proxTest op set1 set2) flags set1 set2
    (set1.numHits.toNat + set2.numHits.toNat + 1) 0 0 (NewSet.alloc totalPostings)
  .ok (some (proximitySet inset1 set1 set2 paged flags newset))

/-- The page sets are converted as the Boolean operators do it. -/
def pagedProximity (callees : ProximityCallees) (set1 set2 : WeightedResult) : Exec Operands :=
  pagedOperands ⟨fun _ _ _ _ ↦ .ok none, fun _ _ _ ↦ .ok none, callees.seGetPageDocs,
    fun _ ↦ .ok none, seSortwtset, seRankDocs⟩ set1 set2

/-- `se_proxmerge` for a known unit code and two sets. -/
def seProxKnown (callees : ProximityCallees) (op : ProximityOperator)
    (inset1 inset2 : WeightedResult) : Exec (Option WeightedResult) :=
  if inset1.has PROXIMITY_RESULT && inset2.has PROXIMITY_RESULT then
    if op.relationType ≠ 2 then .ok none
    else do
      let paged ← pagedProximity callees inset1 inset2
      mergeProximity callees op inset1 paged
  else if inset1.has COMPONENT_RESULT && inset2.has COMPONENT_RESULT then
    seComponentSubRestrict callees.compDbGet op inset1 inset2
  else if inset1.has COMPONENT_RESULT || inset2.has COMPONENT_RESULT then
    seComponentDocRestrict callees.compDbGet inset1 inset2
  else .ok none

end Cheshire.Search
