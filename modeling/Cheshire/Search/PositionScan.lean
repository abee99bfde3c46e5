import Cheshire.Search.ProximityOrdered
import Cheshire.Lib.FirstFit

/-!
# Scans for the next position

The routines that look for near positions scan the list of a term for the first position that is near the
one taken before.  At the same position they read two entries of the list of terms, and pass the position
over if these entries agree; the entries may lie outside of that list.
-/

namespace Cheshire.Search

open Lib.FirstFit

/-- An `int` that can be a position. -/
def IsPosition (position : ℤ) : Prop := 0 ≤ position ∧ position ≤ INT_MAX

theorem isPosition_zero : IsPosition 0 := ⟨le_rfl, by decide⟩

/-- The scan stops at this position and place: it is near `minpos`, and not passed over as that of a doubled
term. -/
def stops (near : ℤ → Bool) (sameAt : ℕ → Exec Bool) (minpos : ℤ) (entry : ℤ × ℕ) : Bool :=
  near entry.1 && !(decide (entry.1 = minpos) && decide (sameAt entry.2 = .ok true))

/-- The first position from place `j` on, with its place, at which the scan stops. -/
def firstStop (near : ℤ → Bool) (sameAt : ℕ → Exec Bool) (minpos : ℤ) (j : ℕ) (positions : List ℤ) :
    Option (ℤ × ℕ) :=
  (positions.zipIdx j).find? (stops near sameAt minpos)

/-- How a scan ends that stops there. -/
def scanAt (sameAt : ℕ → Exec Bool) (minpos : ℤ) : Option (ℤ × ℕ) → Scan ℤ
  | none => .giveUp
  | some stop =>
    if stop.1 = minpos then
      match sameAt stop.2 with
      | .ok _ => .take stop.1
      | .error _ => .fault
    else .take stop.1

/-- The flag `fail` and the position that is taken by a scan that stops there. -/
def scanResult (sameAt : ℕ → Exec Bool) (minpos : ℤ) : Option (ℤ × ℕ) → Exec (Bool × Option ℤ)
  | none => .ok (true, none)
  | some stop =>
    if stop.1 = minpos then do
      let _ ← sameAt stop.2
      .ok (false, some stop.1)
    else .ok (false, some stop.1)

section Scans

variable {near : ℤ → Bool} {sameAt : ℕ → Exec Bool} {minpos position : ℤ} {j : ℕ} {positions : List ℤ}

theorem stops_iff : stops near sameAt minpos (position, j) = true ↔
    near position = true ∧ ¬(position = minpos ∧ sameAt j = .ok true) := by
  rw [stops, Bool.and_eq_true, Bool.not_eq_true', Bool.and_eq_false_iff, decide_eq_false_iff_not,
    decide_eq_false_iff_not, not_and_or]

theorem firstStop_cons_far (hfar : near position = false) :
    firstStop near sameAt minpos j (position :: positions) =
      firstStop near sameAt minpos (j + 1) positions := by
  rw [firstStop, List.zipIdx_cons, List.find?_cons_of_neg]
  · rfl
  · intro h
    rw [(stops_iff.mp h).1] at hfar
    cases hfar

theorem firstStop_cons_near (hnear : near position = true) (hne : position ≠ minpos) :
    firstStop near sameAt minpos j (position :: positions) = some (position, j) := by
  rw [firstStop, List.zipIdx_cons, List.find?_cons_of_pos]
  exact stops_iff.mpr ⟨hnear, fun h ↦ hne h.1⟩

theorem scanResult_same (hnear : near minpos = true) {rest : Exec (Bool × Option ℤ)}
    (hrest : rest = scanResult sameAt minpos (firstStop near sameAt minpos (j + 1) positions)) :
    (sameAt j >>= fun same ↦ if same then rest else .ok (false, some minpos)) =
      scanResult sameAt minpos (firstStop near sameAt minpos j (minpos :: positions)) := by
  have hstop (hdiffer : sameAt j ≠ .ok true) :
      firstStop near sameAt minpos j (minpos :: positions) = some (minpos, j) := by
    rw [firstStop, List.zipIdx_cons, List.find?_cons_of_pos]
    exact stops_iff.mpr ⟨hnear, fun h ↦ hdiffer h.2⟩
  cases hsame : sameAt j with
  | error fault =>
    rw [hstop (by rw [hsame]; exact fun h ↦ by cases h), scanResult, if_pos rfl, hsame]
    rfl
  | ok same =>
    cases same with
    | false =>
      rw [hstop (by rw [hsame]; exact fun h ↦ by cases h), scanResult, if_pos rfl, hsame]
      rfl
    | true =>
      have hpass : firstStop near sameAt minpos j (minpos :: positions) =
          firstStop near sameAt minpos (j + 1) positions := by
        rw [firstStop, List.zipIdx_cons, List.find?_cons_of_neg]
        · rfl
        · exact fun h ↦ (stops_iff.mp h).2 ⟨rfl, hsame⟩
      rw [hpass, ← hrest]
      rfl

theorem firstStop_eq_none (hfar : ∀ position ∈ positions, near position = false) :
    firstStop near sameAt minpos j positions = none := by
  rw [firstStop, List.find?_eq_none]
  intro entry hentry hstops
  have hmem : entry.1 ∈ positions := (List.mem_zipIdx hentry).2.2 ▸ List.getElem_mem _
  have hnear := (stops_iff.mp hstops).1
  rw [hfar entry.1 hmem] at hnear
  cases hnear

theorem of_firstStop {stop : ℤ × ℕ} (h : firstStop near sameAt minpos j positions = some stop) :
    stop.1 ∈ positions ∧ near stop.1 = true :=
  ⟨(List.mem_zipIdx (List.mem_of_find?_eq_some h)).2.2 ▸ List.getElem_mem _,
    (stops_iff.mp (List.find?_some h)).1⟩

theorem eq_of_scanAt {stop : Option (ℤ × ℕ)} (h : scanAt sameAt minpos stop = .take position) :
    ∃ place, stop = some (position, place) := by
  cases stop with
  | none => cases h
  | some stop =>
    have hposition : stop.1 = position := by
      rw [scanAt] at h
      split_ifs at h
      · split at h
        · exact Scan.take.inj h
        · cases h
      · exact Scan.take.inj h
    exact ⟨stop.2, by rw [← hposition]⟩

theorem scanAt_agrees {stop : Option (ℤ × ℕ)} (hstop : ∀ position place, stop = some (position, place) →
    IsPosition position) :
    (scanAt sameAt minpos stop).Agrees IsPosition (scanResult sameAt minpos stop) := by
  cases stop with
  | none => exact rfl
  | some stop =>
    have hposition := hstop stop.1 stop.2 rfl
    rw [scanAt, scanResult]
    split_ifs with hsame
    · cases sameAt stop.2 with
      | error fault => exact ⟨fault, rfl⟩
      | ok same => exact ⟨hposition, rfl⟩
    · exact ⟨hposition, rfl⟩

end Scans

end Cheshire.Search
