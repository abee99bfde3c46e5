import Cheshire.Search.BoolRange
import Cheshire.Search.NgramCounts

/-!
# What a range search gathers

The walk visits the pair at its start and, if it goes on, the pairs that lie ahead of it up to the key at
which it stops.  The records in the postings of these pairs are the result, each of them once.
-/

namespace Cheshire.Search

open Lib Lib.Cursor Index

/-- The hash table has these records. -/
structure Gathered (table : Table ℤ TempResults) (records : ℤ → Prop) : Prop where
  weights : ∀ record storage, table.find? record = some storage → 0 ≤ storage.weight
  mem_iff : ∀ record, record ∈ table.keys ↔ records record

theorem gathered_empty : Gathered Table.empty fun _ ↦ False where
  weights record storage h := by
    rw [Table.find?_empty] at h
    cases h
  mem_iff record := by
    rw [iff_false]
    exact List.not_mem_nil

variable {table : Table ℤ TempResults} {records : ℤ → Prop}

theorem Gathered.congr {records' : ℤ → Prop} (h : Gathered table records)
    (hiff : ∀ record, records record ↔ records' record) : Gathered table records' :=
  ⟨h.weights, fun record ↦ (h.mem_iff record).trans (hiff record)⟩

theorem Gathered.enter (h : Gathered table records) (record : ℤ) {storage : TempResults}
    (hweight : 0 ≤ storage.weight) :
    Gathered (table.enter record storage) fun other ↦ records other ∨ other = record where
  weights other found hfound := by
    rw [Table.find?_enter] at hfound
    split_ifs at hfound
    · rw [← Option.some.inj hfound]
      exact hweight
    · exact h.weights other found hfound
  mem_iff other := by rw [Table.mem_keys_enter, h.mem_iff, or_comm]

theorem Gathered.posting (h : Gathered table records) (numSearchWords : ℤ)
    (entry : IdxPostingEntry) : Gathered (gatherPosting numSearchWords table entry)
      fun record ↦ records record ∨ (entry.recordNo = record ∧ 0 < record) := by
  rw [gatherPosting]
  by_cases hlive : entry.recordNo > 0
  · have hiff (record : ℤ) : records record ∨ record = entry.recordNo ↔
        records record ∨ (entry.recordNo = record ∧ 0 < record) := by
      constructor
      · rintro (hold | rfl)
        · exact Or.inl hold
        · exact Or.inr ⟨rfl, hlive⟩
      · rintro (hold | ⟨rfl, -⟩)
        · exact Or.inl hold
        · exact Or.inr rfl
    rw [if_pos hlive]
    cases hfind : table.find? entry.recordNo with
    | none => exact (h.enter entry.recordNo zero_le_one).congr hiff
    | some storage =>
      have hweight := h.weights _ _ hfind
      refine (h.enter entry.recordNo ?_).congr hiff
      simp only
      split
      · omega
      · exact hweight
  · rw [if_neg hlive]
    refine h.congr fun record ↦ ⟨Or.inl, ?_⟩
    rintro (hold | ⟨rfl, hpos⟩)
    · exact hold
    · exact absurd hpos hlive

theorem Gathered.postings (h : Gathered table records) (numSearchWords : ℤ)
    (entries : List IdxPostingEntry) : Gathered (entries.foldl (gatherPosting numSearchWords) table)
      fun record ↦ records record ∨ ∃ posting ∈ entries, posting.recordNo = record ∧ 0 < record := by
  induction entries generalizing table records with
  | nil => exact h.congr fun record ↦ by simp
  | cons entry entries ih =>
    refine (ih (h.posting numSearchWords entry)).congr fun record ↦ ?_
    rw [or_assoc]
    simp

/-- The record is in the postings of a pair that is not passed over. -/
def Counts (pair : List Char × IndexDatum) (record : ℤ) : Prop :=
  pair.1.head? ≠ some '>' ∧ ∃ block, pair.2 = .postings block ∧
    ∃ posting ∈ block.postings, posting.recordNo = record ∧ 0 < record

/-- All keys but those that are passed over have sound postings. -/
def ReadablePairs (pairs : List (List Char × IndexDatum)) : Prop :=
  ∀ pair ∈ pairs, pair.1.head? ≠ some '>' → ∃ block, pair.2 = .postings block ∧ block.Sound

/-- A cursor on the file; the key that was found last is the one it stands at. -/
structure RangeCursor.OnFile (pairs : List (List Char × IndexDatum)) (cursor : RangeCursor) : Prop where
  position : ∀ position ∈ cursor.position, position.pairs = pairs
  found : cursor.found = true → ∃ position, cursor.position = some position ∧
    cursor.keyval = position.pair.1

variable {cursor : RangeCursor}

theorem RangeCursor.OnFile.get {pairs : List (List Char × IndexDatum)} (h : cursor.OnFile pairs)
    {target : Option (Position (List Char) IndexDatum)}
    (htarget : ∀ position ∈ target, position.pairs = pairs) : (cursor.get target).OnFile pairs := by
  cases target with
  | none => exact ⟨h.position, fun hfound ↦ by cases hfound⟩
  | some position => exact ⟨htarget, fun _ ↦ ⟨position, rfl, rfl⟩⟩

theorem RangeCursor.OnFile.move {pairs : List (List Char × IndexDatum)} (h : cursor.OnFile pairs)
    (direction : Direction) : (cursor.move pairs direction).OnFile pairs :=
  h.get fun _ htarget ↦ pairs_of_move h.position htarget

theorem RangeCursor.OnFile.setRange {pairs : List (List Char × IndexDatum)}
    (h : ∀ position ∈ cursor.position, position.pairs = pairs) (key : List Char) :
    (cursor.setRange pairs key).OnFile pairs := by
  rw [RangeCursor.setRange]
  cases htarget : Cursor.setRange pairs key with
  | none => exact ⟨h, fun hfound ↦ by cases hfound⟩
  | some position =>
    refine ⟨?_, fun _ ↦ ⟨position, rfl, rfl⟩⟩
    rintro _ ⟨⟩
    exact pairs_of_setRange htarget

section Walk

variable {pairs : List (List Char × IndexDatum)} (hpairs : ReadablePairs pairs) {idxType : ℕ}
  {relation : RangeRelation}

include hpairs

variable {position : Position (List Char) IndexDatum} {found : Bool} {keyval : List Char}

/-- The postings of the pair at the cursor are gathered if it was found and passes the test. -/
theorem rangeStep_of_okToAdd {startKey endKey : List Char} (hposition : position.pairs = pairs)
    (hkeyval : found = true → keyval = position.pair.1) {adds : Bool}
    (hadd : okToAdd idxType relation startKey endKey keyval = .ok adds)
    (h : Gathered table records) :
    ∃ table', rangeStep idxType relation startKey endKey ⟨some position, keyval, found⟩ table =
        .ok table' ∧
      Gathered table' fun record ↦
        records record ∨ ((adds = true ∧ found = true) ∧ Counts position.pair record) := by
  have hmem : position.pair ∈ pairs := by
    rw [← hposition, Position.pairs]
    simp
  rw [rangeStep, hadd]
  simp only [bind, Except.bind]
  by_cases hread : adds = true ∧ found = true ∧ keyval.head? ≠ some '>'
  · obtain ⟨hadds, hfound, hhead⟩ := hread
    rw [if_pos ⟨hadds, hfound, hhead⟩]
    rw [hkeyval hfound] at hhead
    obtain ⟨block, hblock, hsound⟩ := hpairs position.pair hmem hhead
    refine ⟨block.postings.foldl (gatherPosting 0) table, ?_, ?_⟩
    · rw [hblock, gatherDatum, readEntries_of_sound hsound]
      rfl
    · refine (h.postings 0 block.postings).congr fun record ↦ or_congr_right ?_
      constructor
      · exact fun hposting ↦ ⟨⟨hadds, hfound⟩, hhead, block, hblock, hposting⟩
      · rintro ⟨-, -, block', hblock', hposting⟩
        rw [hblock] at hblock'
        cases hblock'
        exact hposting
  · rw [if_neg hread]
    refine ⟨table, rfl, h.congr fun record ↦ ⟨Or.inl, ?_⟩⟩
    rintro (hold | ⟨⟨hadds, hfound⟩, hcounts⟩)
    · exact hold
    · exact absurd ⟨hadds, hfound, hkeyval hfound ▸ hcounts.1⟩ hread

variable (hdates : ¬(relation = .within ∧ hasFlag idxType DATE_RANGE_KEY = true))
  (startKey endKey : List Char)

include hdates

theorem rangeStep_spec (hposition : position.pairs = pairs)
    (hkeyval : found = true → keyval = position.pair.1) (h : Gathered table records) :
    ∃ table', rangeStep idxType relation startKey endKey ⟨some position, keyval, found⟩ table =
        .ok table' ∧
      Gathered table' fun record ↦ records record ∨ (found = true ∧ Counts position.pair record) := by
  have hadd : okToAdd idxType relation startKey endKey keyval = .ok true := by
    rw [okToAdd, if_neg hdates]
  obtain ⟨table', hstep, hgathered⟩ := rangeStep_of_okToAdd hpairs hposition hkeyval hadd h
  refine ⟨table', hstep, hgathered.congr fun record ↦ ?_⟩
  simp only [true_and]

def goesOn (relation : RangeRelation) (endKey : List Char) (pair : List Char × IndexDatum) : Bool :=
  ¬(relation = .within ∧ endKey < pair.1)

/-- The pairs that the walk visits from a place on. -/
def visitedFrom (relation : RangeRelation) (endKey : List Char) (direction : Direction) (more : Bool)
    (position : Position (List Char) IndexDatum) : List (List Char × IndexDatum) :=
  position.pair ::
    if more then (position.ahead direction).takeWhile (goesOn relation endKey) else []

theorem rangeLoop_spec (direction : Direction) (more : Bool) (fuel : ℕ)
    (hposition : position.pairs = pairs) (hfuel : (position.ahead direction).length < fuel)
    (hkeyval : found = true → keyval = position.pair.1) (h : Gathered table records) :
    ∃ table', rangeLoop pairs idxType relation startKey endKey direction more fuel
        ⟨some position, keyval, found⟩ table = .ok table' ∧
      Gathered table' fun record ↦ records record ∨ (found = true ∧
        ∃ pair ∈ visitedFrom relation endKey direction more position, Counts pair record) := by
  induction fuel generalizing position keyval table records with
  | zero => omega
  | succ fuel ih =>
    obtain ⟨table', hstep, hgathered⟩ := rangeStep_spec hpairs hdates startKey endKey hposition
      hkeyval h
    rw [rangeLoop, hstep]
    simp only [bind, Except.bind]
    -- the last pair of the walk
    have hlast (hrest : (if more then (position.ahead direction).takeWhile (goesOn relation endKey)
        else []) = []) : Gathered table' fun record ↦ records record ∨ (found = true ∧
          ∃ pair ∈ visitedFrom relation endKey direction more position, Counts pair record) := by
      refine hgathered.congr fun record ↦ ?_
      rw [visitedFrom, hrest]
      simp
    cases hmove : Cursor.move pairs direction (some position) with
    | none =>
      have hahead := (position.step_eq_none_iff direction).mp hmove
      exact ⟨table', rfl, hlast (by simp [hahead])⟩
    | some next =>
      have hahead := Position.ahead_of_step hmove
      simp only
      by_cases hstop : more = false ∨ (relation = .within ∧ endKey < next.pair.1)
      · rw [if_pos hstop]
        refine ⟨table', rfl, hlast ?_⟩
        rcases hstop with rfl | hstop
        · rfl
        · have hgoes : ¬goesOn relation endKey next.pair = true := by
            rw [goesOn, decide_eq_true_eq, not_not]
            exact hstop
          rw [hahead, List.takeWhile_cons_of_neg hgoes, ite_self]
      · rw [if_neg hstop]
        rw [not_or, Bool.not_eq_false] at hstop
        have hnext : next.pairs = pairs := (Position.pairs_of_step hmove).trans hposition
        rw [hahead, List.length_cons] at hfuel
        obtain ⟨table'', hloop, hdone⟩ := ih hnext (by omega) (fun _ ↦ rfl) hgathered
        refine ⟨table'', hloop, hdone.congr fun record ↦ ?_⟩
        have hgoes : goesOn relation endKey next.pair = true := decide_eq_true hstop.2
        have hvisited : visitedFrom relation endKey direction more position =
            position.pair :: visitedFrom relation endKey direction more next := by
          rw [visitedFrom, visitedFrom, hahead, hstop.1, if_pos rfl, if_pos rfl,
            List.takeWhile_cons_of_pos hgoes]
        rw [hvisited, or_assoc, ← and_or_left]
        simp only [List.mem_cons, exists_eq_or_imp]

/-- The pairs that a whole walk visits. -/
def RangeStart.visited (relation : RangeRelation) (endKey : List Char) (start : RangeStart) :
    List (List Char × IndexDatum) :=
  match start.cursor.found, start.cursor.position with
  | true, some position => visitedFrom relation endKey start.direction start.more position
  | _, _ => []

theorem rangeLoop_start (start : RangeStart) (hstart : start.cursor.OnFile pairs) :
    ∃ table, rangeLoop pairs idxType relation startKey endKey start.direction start.more
        (pairs.length + 2) start.cursor Table.empty = .ok table ∧
      Gathered table fun record ↦ ∃ pair ∈ start.visited relation endKey, Counts pair record := by
  rcases start with ⟨⟨position, keyval, found⟩, direction, more⟩
  cases position with
  | some position =>
    have hposition := hstart.position position rfl
    have hkeyval : found = true → keyval = position.pair.1 := by
      intro hfound
      obtain ⟨_, ⟨⟩, hkey⟩ := hstart.found hfound
      exact hkey
    have hlength := position.length_ahead_lt direction
    rw [hposition] at hlength
    obtain ⟨table, hloop, hgathered⟩ := rangeLoop_spec hpairs hdates startKey endKey direction
      more (pairs.length + 2) hposition (by omega) hkeyval gathered_empty
    refine ⟨table, hloop, hgathered.congr fun record ↦ ?_⟩
    cases found <;> simp [RangeStart.visited]
  | none =>
    -- the cursor was never set, and the walk gathers nothing
    have hfound : found = false := by
      rw [← Bool.not_eq_true]
      intro hfound
      obtain ⟨position, hsome, -⟩ := hstart.found hfound
      cases hsome
    subst hfound
    have hstep : rangeStep idxType relation startKey endKey ⟨none, keyval, false⟩ Table.empty =
        .ok Table.empty := by
      rw [rangeStep, okToAdd, if_neg hdates]
      rfl
    rw [rangeLoop, hstep]
    simp only [bind, Except.bind]
    have hnone : Gathered Table.empty fun record ↦
        ∃ pair ∈ RangeStart.visited relation endKey ⟨⟨none, keyval, false⟩, direction, more⟩,
          Counts pair record := gathered_empty.congr fun record ↦ by simp [RangeStart.visited]
    cases hmove : Cursor.move pairs direction none with
    | none => exact ⟨Table.empty, rfl, hnone⟩
    | some first =>
      simp only
      split
      · exact ⟨Table.empty, rfl, hnone⟩
      · have hfirst : first.pairs = pairs := pairs_of_move (by simp) hmove
        have hlength := first.length_ahead_lt direction
        rw [hfirst] at hlength
        obtain ⟨table, hloop, hgathered⟩ := rangeLoop_spec hpairs hdates startKey endKey
          direction more (pairs.length + 1) hfirst (by omega) (fun _ ↦ rfl) gathered_empty
        refine ⟨table, hloop, hgathered.congr fun record ↦ ?_⟩
        simp [RangeStart.visited]

end Walk

/-- The entries that the records of a hash table become. -/
def rangeHits (records : List (ℤ × TempResults)) : List WeightedEntry :=
  records.map fun record ↦ ⟨record.1, 0, record.2.totFreq⟩

variable {stopwordCount : ℤ}

theorem foldlM_storeRecord {size : ℕ} (records : List (ℤ × TempResults))
    (hweights : ∀ record ∈ records, 0 - stopwordCount ≤ record.2.weight) {wtRes : WeightedResult}
    {out : List WeightedEntry} (hholds : Buffer.Holds WeightedEntry.zero size wtRes.entries out)
    (hhits : wtRes.numHits = out.length) (hroom : out.length + records.length ≤ size) :
    ∃ next, records.foldlM (storeRecord 0 stopwordCount) wtRes = .ok next ∧
      Buffer.Holds WeightedEntry.zero size next.entries (out ++ rangeHits records) ∧
      next.numHits = (out ++ rangeHits records).length := by
  induction records generalizing wtRes out with
  | nil => exact ⟨wtRes, rfl, by simpa [rangeHits] using hholds, by simpa [rangeHits] using hhits⟩
  | cons record records ih =>
    rw [List.length_cons] at hroom
    obtain ⟨cells, hcells, hnext⟩ := hholds.store (by omega) ⟨record.1, 0, record.2.totFreq⟩
    have hindex : wtRes.numHits.toNat = out.length := by rw [hhits, Int.toNat_natCast]
    have hstored : rangeHits (record :: records) =
        ⟨record.1, 0, record.2.totFreq⟩ :: rangeHits records := rfl
    rw [List.foldlM_cons, hstored, List.append_cons, storeRecord,
      if_pos (hweights record List.mem_cons_self), hindex, hcells]
    exact ih (fun other hmem ↦ hweights other (List.mem_cons_of_mem _ hmem)) hnext (by simp [hhits])
      (by rw [List.length_append, List.length_singleton]; omega)

theorem rangeResult_spec (idx : RangeIndex) (hcount : 0 ≤ stopwordCount)
    (h : Gathered table records) :
    ∃ set, rangeResult idx stopwordCount table = .ok set ∧ set.recordNums.Pairwise (· < ·) ∧
      ∀ record, record ∈ set.recordNums ↔ records record := by
  have hweights : ∀ record ∈ table.entries, 0 - stopwordCount ≤ record.2.weight := by
    intro record hmem
    have hweight := h.weights record.1 record.2 (table.find?_of_mem hmem)
    omega
  have hnew : Buffer.Holds WeightedEntry.zero (table.entries.length + 1)
      (newRangeResult idx table.entries.length).entries [] := Buffer.holds_calloc _ _
  obtain ⟨next, hnext, hholds, hhits⟩ := foldlM_storeRecord table.entries hweights hnew rfl (by simp)
  rw [List.nil_append] at hholds hhits
  have hlength : next.numHits.toNat = (rangeHits table.entries).length := by
    rw [hhits, Int.toNat_natCast]
  have hrecords : next.recordNums = table.keys := by
    rw [WeightedResult.recordNums, WeightedResult.hits, hlength, hholds.take, rangeHits, List.map_map]
    rfl
  have hallocated : next.Allocated := by
    constructor
    · rw [hhits]
      exact Int.natCast_nonneg _
    · rw [hlength, hholds.length_cells]
      exact hholds.length_le
  have hperm := hallocated.perm_recordNums_qsort compareWtEntries
  refine ⟨seSortwtset next, ?_, ?_, ?_⟩
  · rw [rangeResult, hnext]
    rfl
  · have hnodup : (seSortwtset next).recordNums.Nodup := by
      rw [seSortwtset, hperm.nodup_iff, hrecords]
      exact table.nodup
    exact hallocated.sorted_seSortwtset.imp₂ (fun _ _ hle hne ↦ lt_of_le_of_ne hle hne) hnodup
  · intro record
    rw [seSortwtset, hperm.mem_iff, hrecords]
    exact h.mem_iff record

theorem onFile_rangeStart (pairs : List (List Char × IndexDatum)) (idxType : ℕ)
    (startKey : List Char) (relation : RangeRelation) :
    (rangeStart pairs idxType startKey relation).cursor.OnFile pairs := by
  have hset : ((⟨none, startKey, false⟩ : RangeCursor).setRange pairs startKey).OnFile pairs :=
    RangeCursor.OnFile.setRange (fun _ hmem ↦ by cases hmem) startKey
  have hzero {cursor : RangeCursor} (hcursor : cursor.OnFile pairs) :
      (orZeroPoint pairs cursor).cursor.OnFile pairs := by
    rw [orZeroPoint]
    split
    · exact hcursor
    · exact RangeCursor.OnFile.setRange hcursor.position ZERO_POINT
  unfold rangeStart
  cases relation with
  | lessThan =>
    simp only
    split_ifs
    · exact hset.move .next
    · exact hset
    · exact hset.move .prev
  | lessOrEqual =>
    simp only
    split_ifs
    · exact hset
    · exact hset.move .prev
    · exact hset
  | greaterOrEqual =>
    simp only
    split_ifs
    · exact hzero (hset.move .prev)
    · exact hzero hset
    · exact hset
  | greaterThan =>
    simp only
    split_ifs
    · exact hzero (hset.move .prev)
    · exact hzero hset
    · exact hset.move .next
    · exact hset
  | within =>
    simp only
    split_ifs
    · exact RangeCursor.OnFile.setRange hset.position _
    · exact hset

theorem boolRange_spec (idx : RangeIndex) {pairs : List (List Char × IndexDatum)}
    (hdb : idx.db = some pairs) (hpairs : ReadablePairs pairs) {relation : RangeRelation}
    (hdates : ¬(relation = .within ∧ hasFlag idx.idxType DATE_RANGE_KEY = true))
    {searchstring : List Char} {searchPtr : Option (List Char)} (hcount : 0 ≤ stopwordCount)
    {startKey endKey : List Char}
    (hkey : rangeKey idx searchstring = .ok (searchPtr, stopwordCount))
    (hbounds : rangeBounds idx.idxType relation searchPtr = .ok (some (startKey, endKey)))
    (hne : startKey ≠ []) : ∃ set, boolRange idx (some searchstring) relation = .ok (some set) ∧
      set.recordNums.Pairwise (· < ·) ∧ ∀ record, record ∈ set.recordNums ↔
        ∃ pair ∈ (rangeStart pairs idx.idxType startKey relation).visited relation endKey,
          Counts pair record := by
  obtain ⟨table, hloop, hgathered⟩ := rangeLoop_start hpairs hdates startKey endKey
    (rangeStart pairs idx.idxType startKey relation)
    (onFile_rangeStart pairs idx.idxType startKey relation)
  obtain ⟨set, hresult, hsorted, hmem⟩ := rangeResult_spec idx hcount hgathered
  refine ⟨set, ?_, hsorted, hmem⟩
  simp only [boolRange, hdb, hkey, hbounds, hne, hloop, hresult, bind, Except.bind, if_false]

end Cheshire.Search
