import Cheshire.Index.KwAdd
import Cheshire.Lib.Runs

/-!
# The positions of a term in a record

`PutPositionInfo` and `PutPositionInfoArray` add positions to the array of `int` that a proximity
index stores for a term and a record.  The array is stored without the null that a first call
allocates behind it, but a later call appends "before the final null", one place before the end of
what is stored.
-/

namespace Cheshire.Index.Positions

open Lib

/-- A store into an array of `int`. -/
def storeInt (outdata : List ℤ) (start position : ℤ) : Exec (List ℤ) :=
  if 0 ≤ start ∧ start < outdata.length then .ok (outdata.set start.toNat position)
  else .error .outOfBounds

/-- Append the new data from `start` on. -/
def appendPositions : List ℤ → ℤ → List ℤ → Exec (ℤ × List ℤ)
  | [], start, outdata => .ok (start, outdata)
  | position :: positions, start, outdata => do
    let outdata ← storeInt outdata start position
    appendPositions positions (start + 1) outdata

/-- The zeroed array with the existing data, and the place of the first new position. -/
def outdataFor (stored : Option (List ℤ)) (count : ℕ) : ℤ × List ℤ :=
  match stored with
  | some old => ((old.length : ℤ) - 1, old ++ List.replicate count 0)
  | none => (0, List.replicate (count + 1) 0)

/-- `prox_db->put` of the first `start` ints of the array. -/
def putOutdata (idx : IdxListEntry) (key : ProxIdxPosKey) (start : ℤ) (outdata : List ℤ) :
    Exec IdxListEntry :=
  if 0 ≤ start ∧ start ≤ outdata.length then
    .ok { idx with prox := Function.update idx.prox key (some (outdata.take start.toNat)) }
  else .error .outOfBounds

/-- What both functions do with `count` expected positions. -/
def putPositions (idx : IdxListEntry) (recnum termid : ℤ) (count : ℕ) (positions : List ℤ) :
    Exec IdxListEntry := do
  let (start, outdata) := outdataFor (idx.prox ⟨termid, recnum⟩) count
  let (start, outdata) ← appendPositions positions start outdata
  putOutdata idx ⟨termid, recnum⟩ start outdata

def putPositionInfo (idx : IdxListEntry) (recnum termid : ℤ) (htData : HtData) :
    Exec IdxListEntry :=
  putPositions idx recnum termid htData.termfreq htData.pos

def putPositionInfoArray (idx : IdxListEntry) (recnum termid : ℤ) (numprox : ℕ)
    (proxdata : List ℤ) : Exec IdxListEntry :=
  if numprox ≤ proxdata.length then putPositions idx recnum termid numprox (proxdata.take numprox)
  else .error .outOfBounds

theorem appendPositions_eq (positions : List ℤ) : ∀ (front back : List ℤ),
    positions.length ≤ back.length →
    appendPositions positions front.length (front ++ back) =
      .ok (((front ++ positions).length : ℤ), front ++ positions ++ back.drop positions.length) := by
  induction positions with
  | nil => simp [appendPositions]
  | cons position positions ih =>
    intro front back hle
    cases back with
    | nil => simp at hle
    | cons cell back =>
      have hstore : storeInt (front ++ cell :: back) front.length position =
          .ok (front ++ [position] ++ back) := by
        rw [storeInt, if_pos (by simp)]
        simp
      have hnext := ih (front ++ [position]) back (by simpa using hle)
      rw [List.length_append, List.length_singleton, Nat.cast_succ] at hnext
      rw [appendPositions, hstore]
      refine hnext.trans ?_
      simp

section Call

variable {idx : IdxListEntry} {recnum termid : ℤ} {count : ℕ} {positions : List ℤ}

theorem putPositions_first (hnew : idx.prox ⟨termid, recnum⟩ = none)
    (hfits : positions.length ≤ count) : putPositions idx recnum termid count positions =
      .ok { idx with prox := Function.update idx.prox ⟨termid, recnum⟩ (some positions) } := by
  have happend := appendPositions_eq positions [] (List.replicate (count + 1) 0)
    (by rw [List.length_replicate]; omega)
  rw [List.length_nil, Nat.cast_zero, List.nil_append] at happend
  rw [putPositions, hnew]
  simp only [outdataFor]
  rw [happend]
  simp only [bind, Except.bind, putOutdata]
  rw [if_pos (by simp), List.nil_append, Int.toNat_natCast, List.take_left]

theorem putPositions_later {old : List ℤ} (hold : idx.prox ⟨termid, recnum⟩ = some old)
    (hne : old ≠ []) (hfits : positions.length ≤ count) :
    putPositions idx recnum termid count positions = .ok { idx with
      prox := Function.update idx.prox ⟨termid, recnum⟩ (some (old.dropLast ++ positions)) } := by
  have happend := appendPositions_eq positions old.dropLast
    (old.getLast hne :: List.replicate count 0) (by simp; omega)
  have hlength : ((old.dropLast.length : ℕ) : ℤ) = (old.length : ℤ) - 1 := by
    have := List.length_pos_iff.mpr hne
    rw [List.length_dropLast]
    omega
  rw [hlength, List.append_cons, List.dropLast_concat_getLast] at happend
  rw [putPositions, hold]
  simp only [outdataFor]
  rw [happend]
  simp only [bind, Except.bind, putOutdata]
  rw [if_pos ⟨Int.natCast_nonneg _, by simp⟩, Int.toNat_natCast, List.take_left]

theorem putPositions_empty (hold : idx.prox ⟨termid, recnum⟩ = some []) :
    putPositions idx recnum termid count positions = .error .outOfBounds := by
  rw [putPositions, hold]
  simp only [outdataFor]
  cases positions with
  | nil => simp [appendPositions, putOutdata, bind, Except.bind]
  | cons position positions => simp [appendPositions, storeInt, bind, Except.bind]

/-- Where no empty array is stored, the stores into the array leave what `putProximity` puts. -/
theorem putPositionInfo_eq (idx : IdxListEntry) (recnum : RecordNumber) (termid : ℤ)
    {htData : HtData} (hfits : htData.pos.length ≤ htData.termfreq)
    (hstored : idx.prox ⟨termid, recnum.1⟩ ≠ some []) :
    putPositionInfo idx recnum.1 termid htData =
      .ok (Index.putPositionInfo idx recnum termid htData.pos) := by
  rw [putPositionInfo, Index.putPositionInfo]
  rcases hold : idx.prox ⟨termid, recnum.1⟩ with _ | old
  · exact putPositions_first hold hfits
  · have hne : old ≠ [] := fun heq ↦ hstored (heq ▸ hold)
    exact putPositions_later hold hne hfits

end Call

/-- One call for a term and a record. -/
inductive PositionCall where
  | single (htData : HtData)
  | array (numprox : ℕ) (proxdata : List ℤ)

def PositionCall.positions : PositionCall → List ℤ
  | .single htData => htData.pos
  | .array numprox proxdata => proxdata.take numprox

/-- The frequency of a term counts its positions; the array has the positions that it should. -/
def PositionCall.Fits : PositionCall → Prop
  | .single htData => htData.pos.length ≤ htData.termfreq
  | .array numprox proxdata => numprox ≤ proxdata.length

/-- The positions that the call has room for. -/
def PositionCall.count : PositionCall → ℕ
  | .single htData => htData.termfreq
  | .array numprox _ => numprox

def stepPosition (recnum termid : ℤ) (idx : IdxListEntry) : PositionCall → Exec IdxListEntry
  | .single htData => putPositionInfo idx recnum termid htData
  | .array numprox proxdata => putPositionInfoArray idx recnum termid numprox proxdata

theorem stepPosition_eq (recnum termid : ℤ) (idx : IdxListEntry) {call : PositionCall}
    (hfits : call.Fits) : stepPosition recnum termid idx call =
      putPositions idx recnum termid call.count call.positions := by
  cases call with
  | single htData => rfl
  | array numprox proxdata => exact if_pos hfits

theorem PositionCall.Fits.length_le {call : PositionCall} (hfits : call.Fits) :
    call.positions.length ≤ call.count := by
  cases call with
  | single htData => exact hfits
  | array numprox proxdata => exact List.length_take_le _ _

/-- What a call does when positions are stored already. -/
structure Overwritten (key : ProxIdxPosKey) (old positions : List ℤ) (idx idx' : IdxListEntry) :
    Prop where
  nonempty : old ≠ []
  stored : idx'.prox key = some (old.dropLast ++ positions)
  other : ∀ pair ≠ key, idx'.prox pair = idx.prox pair

section Pair

variable {recnum termid : ℤ} {idx idx' : IdxListEntry} {call : PositionCall}

theorem stepPosition_first (hnew : idx.prox ⟨termid, recnum⟩ = none) (hfits : call.Fits) :
    ∃ idx', stepPosition recnum termid idx call = .ok idx' ∧
      idx'.prox ⟨termid, recnum⟩ = some call.positions ∧
      ∀ pair ≠ ⟨termid, recnum⟩, idx'.prox pair = idx.prox pair := by
  rw [stepPosition_eq _ _ _ hfits, putPositions_first hnew hfits.length_le]
  refine ⟨_, rfl, Function.update_self _ _ _, ?_⟩
  intro pair hne
  exact Function.update_of_ne hne _ _

theorem stepPosition_later {old : List ℤ} (hold : idx.prox ⟨termid, recnum⟩ = some old)
    (hfits : call.Fits) (hstep : stepPosition recnum termid idx call = .ok idx') :
    Overwritten ⟨termid, recnum⟩ old call.positions idx idx' := by
  rw [stepPosition_eq _ _ _ hfits] at hstep
  by_cases hne : old = []
  · rw [putPositions_empty (hne ▸ hold)] at hstep
    cases hstep
  · rw [putPositions_later hold hne hfits.length_le] at hstep
    cases hstep
    constructor
    · exact hne
    · exact Function.update_self _ _ _
    · intro pair hpair
      exact Function.update_of_ne hpair _ _

theorem length_of_later (calls : List PositionCall) : ∀ {idx idx' : IdxListEntry} {old : List ℤ},
    (∀ call ∈ calls, call.Fits) → idx.prox ⟨termid, recnum⟩ = some old →
    Runs.run (stepPosition recnum termid) idx calls = .ok idx' →
    ∃ stored, idx'.prox ⟨termid, recnum⟩ = some stored ∧
      stored.length + calls.length = old.length + (calls.flatMap PositionCall.positions).length ∧
      ∀ pair ≠ ⟨termid, recnum⟩, idx'.prox pair = idx.prox pair := by
  induction calls with
  | nil =>
    intro idx idx' old _ hold hrun
    cases hrun
    exact ⟨old, hold, rfl, fun _ _ ↦ rfl⟩
  | cons call calls ih =>
    intro idx idx' old hfits hold hrun
    rw [List.forall_mem_cons] at hfits
    cases hstep : stepPosition recnum termid idx call with
    | error fault =>
      rw [Runs.run, hstep] at hrun
      cases hrun
    | ok next =>
      rw [Runs.run_cons_of_ok hstep] at hrun
      obtain ⟨hne, hnext, hother⟩ := stepPosition_later hold hfits.1 hstep
      obtain ⟨stored, hstored, hlength, hrest⟩ := ih hfits.2 hnext hrun
      refine ⟨stored, hstored, ?_, fun pair hpair ↦ (hrest pair hpair).trans (hother pair hpair)⟩
      have hpos := List.length_pos_iff.mpr hne
      rw [List.length_append, List.length_dropLast] at hlength
      rw [List.length_cons, List.flatMap_cons, List.length_append]
      omega

end Pair

/-- The calls succeed and the pair has all their positions, in order. -/
def PositionsKept (recnum termid : ℤ) (idx : IdxListEntry) (calls : List PositionCall) : Prop :=
  ∃ idx', Runs.run (stepPosition recnum termid) idx calls = .ok idx' ∧
    (idx'.prox ⟨termid, recnum⟩).getD [] = calls.flatMap PositionCall.positions

/-- A sequence of calls for a pair changes no other pair, and it keeps all the positions if and only
if it is a single call. -/
theorem positionsKept_iff (recnum termid : ℤ) (idx : IdxListEntry)
    (hnew : idx.prox ⟨termid, recnum⟩ = none) (calls : List PositionCall)
    (hfits : ∀ call ∈ calls, call.Fits) :
    (∀ idx', Runs.run (stepPosition recnum termid) idx calls = .ok idx' →
      ∀ pair ≠ ⟨termid, recnum⟩, idx'.prox pair = idx.prox pair) ∧
    (PositionsKept recnum termid idx calls ↔ calls.length ≤ 1) := by
  cases calls with
  | nil =>
    constructor
    · intro idx' hrun
      cases hrun
      exact fun _ _ ↦ rfl
    · refine iff_of_true ⟨idx, rfl, ?_⟩ (Nat.zero_le _)
      rw [hnew]
      rfl
  | cons call calls =>
    rw [List.forall_mem_cons] at hfits
    obtain ⟨next, hstep, hstored, hother⟩ := stepPosition_first hnew hfits.1
    rw [PositionsKept, Runs.run_cons_of_ok hstep]
    constructor
    · intro idx' hrun pair hpair
      obtain ⟨_, -, -, hrest⟩ := length_of_later calls hfits.2 hstored hrun
      rw [hrest pair hpair, hother pair hpair]
    · constructor
      · intro hkept
        obtain ⟨idx', hrun, hpositions⟩ := hkept
        obtain ⟨stored, hfinal, hlength, -⟩ := length_of_later calls hfits.2 hstored hrun
        rw [hfinal, Option.getD_some, List.flatMap_cons] at hpositions
        rw [hpositions, List.length_append] at hlength
        rw [List.length_cons]
        omega
      · intro hlength
        obtain rfl : calls = [] := by simpa using hlength
        refine ⟨next, rfl, ?_⟩
        rw [hstored]
        simp

theorem positionsKept_two : PositionsKept 1 0 (IdxListEntry.created PROXIMITY)
    [.single ⟨2, [3, 8]⟩] :=
  (positionsKept_iff 1 0 (IdxListEntry.created PROXIMITY) rfl [.single ⟨2, [3, 8]⟩]
    (by simp [PositionCall.Fits])).2.mpr le_rfl

/-- The positions 3 and 8 are followed by 15: the 8 is lost. -/
theorem positionsKept_overwritten : ¬∀ (recnum termid : ℤ) (idx : IdxListEntry)
    (calls : List PositionCall), idx.prox ⟨termid, recnum⟩ = none →
      (∀ call ∈ calls, call.Fits) → (∀ call ∈ calls, ∀ position ∈ call.positions, 0 < position) →
      PositionsKept recnum termid idx calls := by
  intro hall
  obtain ⟨idx', hrun, hpositions⟩ := hall 1 0 (IdxListEntry.created PROXIMITY)
    [.single ⟨2, [3, 8]⟩, .array 1 [15]] rfl (by simp [PositionCall.Fits])
    (by simp [PositionCall.positions])
  cases hrun
  revert hpositions
  decide

end Cheshire.Index.Positions
