import Mathlib

/-!
# Cursors

A sorted file of keys with their data is read through a cursor.  A cursor is set to the first key that is
not below a given one, and moves to the next or to the previous key; where there is none it stays as it
is.  A cursor that was never set moves to the first or to the last key.
-/

namespace Cheshire.Lib.Cursor

variable {κ ν : Type*}

/-- The place of a cursor: the pairs before it, the nearest first, its pair, and the pairs after it. -/
structure Position (κ ν : Type*) where
  before : List (κ × ν)
  pair : κ × ν
  after : List (κ × ν)

inductive Direction where
  | next
  | prev
deriving DecidableEq

namespace Position

/-- The pairs that lie in a direction, the nearest first. -/
def ahead (position : Position κ ν) : Direction → List (κ × ν)
  | .next => position.after
  | .prev => position.before

def pairs (position : Position κ ν) : List (κ × ν) :=
  position.before.reverse ++ position.pair :: position.after

def step (position : Position κ ν) : Direction → Option (Position κ ν)
  | .next =>
    match position.after with
    | [] => none
    | pair :: after => some ⟨position.pair :: position.before, pair, after⟩
  | .prev =>
    match position.before with
    | [] => none
    | pair :: before => some ⟨before, pair, position.pair :: position.after⟩

end Position

/-- The place between two parts of a file. -/
def between (before : List (κ × ν)) : List (κ × ν) → Option (Position κ ν)
  | [] => none
  | pair :: after => some ⟨before, pair, after⟩

def last (pairs : List (κ × ν)) : Option (Position κ ν) :=
  match pairs.reverse with
  | [] => none
  | pair :: before => some ⟨before, pair, []⟩

/-- A step of a cursor that may not have been set. -/
def move (pairs : List (κ × ν)) (direction : Direction) : Option (Position κ ν) → Option (Position κ ν)
  | some position => position.step direction
  | none =>
    match direction with
    | .next => between [] pairs
    | .prev => last pairs

theorem Position.step_eq_none_iff (position : Position κ ν) (direction : Direction) :
    position.step direction = none ↔ position.ahead direction = [] := by
  rcases position with ⟨before, pair, after⟩
  cases direction with
  | next => cases after <;> simp [step, ahead]
  | prev => cases before <;> simp [step, ahead]

variable {direction : Direction}

theorem Position.ahead_of_step {position position' : Position κ ν}
    (h : position.step direction = some position') :
    position.ahead direction = position'.pair :: position'.ahead direction := by
  rcases position with ⟨before, pair, after⟩
  cases direction with
  | next =>
    cases after with
    | nil => cases h
    | cons next after =>
      cases h
      rfl
  | prev =>
    cases before with
    | nil => cases h
    | cons previous before =>
      cases h
      rfl

theorem Position.pairs_of_step {position position' : Position κ ν}
    (h : position.step direction = some position') : position'.pairs = position.pairs := by
  rcases position with ⟨before, pair, after⟩
  cases direction with
  | next =>
    cases after with
    | nil => cases h
    | cons next after =>
      cases h
      simp [pairs]
  | prev =>
    cases before with
    | nil => cases h
    | cons previous before =>
      cases h
      simp [pairs]

theorem Position.length_ahead_lt (position : Position κ ν) (direction : Direction) :
    (position.ahead direction).length < position.pairs.length := by
  rw [pairs, List.length_append, List.length_reverse, List.length_cons]
  cases direction with
  | next => exact Nat.lt_of_lt_of_le (Nat.lt_succ_self _) (Nat.le_add_left _ _)
  | prev => exact Nat.lt_add_of_pos_right (Nat.succ_pos _)

theorem pairs_of_move {pairs : List (κ × ν)} {cursor : Option (Position κ ν)}
    (hcursor : ∀ position ∈ cursor, position.pairs = pairs) {position : Position κ ν}
    (h : move pairs direction cursor = some position) : position.pairs = pairs := by
  cases cursor with
  | some old => exact (Position.pairs_of_step h).trans (hcursor old rfl)
  | none =>
    cases direction with
    | next =>
      cases pairs with
      | nil => cases h
      | cons pair after =>
        cases h
        rfl
    | prev =>
      change last pairs = some position at h
      rw [last] at h
      cases hreverse : pairs.reverse with
      | nil =>
        rw [hreverse] at h
        cases h
      | cons pair before =>
        rw [hreverse] at h
        cases h
        rw [← List.reverse_reverse pairs, hreverse]
        simp [Position.pairs]

section Order

variable [LinearOrder κ]

/-- The first pair whose key is not below the given one. -/
def setRange (pairs : List (κ × ν)) (key : κ) : Option (Position κ ν) :=
  between (pairs.takeWhile fun pair ↦ pair.1 < key).reverse (pairs.dropWhile fun pair ↦ pair.1 < key)

/-- The pairs from the first one on whose key is not below the given one. -/
def notBelow (pairs : List (κ × ν)) (key : κ) : List (κ × ν) :=
  pairs.dropWhile fun pair ↦ pair.1 < key

/-- The pairs are in the order of their keys. -/
def Sorted (pairs : List (κ × ν)) : Prop := pairs.Pairwise fun first second ↦ first.1 < second.1

instance decidableSorted (pairs : List (κ × ν)) : Decidable (Sorted pairs) :=
  inferInstanceAs (Decidable (pairs.Pairwise _))

variable {pairs : List (κ × ν)} {key : κ}

variable {pair : κ × ν}

theorem Sorted.mem_takeWhile_iff {pairs : List (κ × ν)} (hsorted : Sorted pairs) (key : κ) :
    pair ∈ pairs.takeWhile (fun pair ↦ ¬key < pair.1) ↔ pair ∈ pairs ∧ pair.1 ≤ key := by
  induction pairs with
  | nil => simp
  | cons first pairs ih =>
    obtain ⟨hfirst, hrest⟩ := List.pairwise_cons.mp hsorted
    by_cases hlt : key < first.1
    · rw [List.takeWhile_cons_of_neg (by simpa using hlt)]
      refine iff_of_false List.not_mem_nil ?_
      rintro ⟨hmem, hle⟩
      rcases List.mem_cons.mp hmem with rfl | hmem
      · exact absurd hle (not_le.mpr hlt)
      · exact absurd hle (not_le.mpr (hlt.trans (hfirst pair hmem)))
    · rw [List.takeWhile_cons_of_pos (by simpa using hlt), List.mem_cons, List.mem_cons, ih hrest]
      constructor
      · rintro (rfl | ⟨hmem, hle⟩)
        · exact ⟨Or.inl rfl, not_lt.mp hlt⟩
        · exact ⟨Or.inr hmem, hle⟩
      · rintro ⟨rfl | hmem, hle⟩
        · exact Or.inl rfl
        · exact Or.inr ⟨hmem, hle⟩

theorem Sorted.mem_takeWhile_of_forall {pairs : List (κ × ν)} (hsorted : Sorted pairs)
    (goesOn : κ × ν → Bool) (hmem : pair ∈ pairs)
    (hgoes : ∀ other ∈ pairs, other.1 ≤ pair.1 → goesOn other = true) :
    pair ∈ pairs.takeWhile goesOn := by
  induction pairs with
  | nil => exact hmem
  | cons first pairs ih =>
    obtain ⟨hfirst, hrest⟩ := List.pairwise_cons.mp hsorted
    have hle : first.1 ≤ pair.1 := by
      rcases List.mem_cons.mp hmem with rfl | hmem
      · exact le_rfl
      · exact (hfirst pair hmem).le
    rw [List.takeWhile_cons_of_pos (hgoes first List.mem_cons_self hle), List.mem_cons]
    exact (List.mem_cons.mp hmem).imp_right fun hmem ↦
      ih hrest hmem fun other hother ↦ hgoes other (List.mem_cons_of_mem _ hother)

theorem pairs_of_setRange {position : Position κ ν} (h : setRange pairs key = some position) :
    position.pairs = pairs := by
  have hparts := List.takeWhile_append_dropWhile (p := fun pair ↦ decide (pair.1 < key)) (l := pairs)
  rw [setRange] at h
  cases hdrop : pairs.dropWhile fun pair ↦ pair.1 < key with
  | nil =>
    rw [hdrop] at h
    cases h
  | cons pair after =>
    rw [hdrop] at h hparts
    cases h
    rw [Position.pairs, List.reverse_reverse, hparts]

theorem setRange_eq_none_iff : setRange pairs key = none ↔ ∀ pair ∈ pairs, pair.1 < key := by
  rw [setRange]
  cases hdrop : pairs.dropWhile fun pair ↦ pair.1 < key with
  | nil => simpa [between, List.dropWhile_eq_nil_iff] using hdrop
  | cons pair after =>
    refine iff_of_false (by simp [between]) fun hall ↦ ?_
    have hnil : pairs.dropWhile (fun pair ↦ pair.1 < key) = [] :=
      List.dropWhile_eq_nil_iff.mpr fun pair hmem ↦ decide_eq_true (hall pair hmem)
    rw [hnil] at hdrop
    cases hdrop

/-- What lies before and after the place of a key. -/
structure At (pairs : List (κ × ν)) (key : κ) (position : Position κ ν) : Prop where
  pairs_eq : position.pairs = pairs
  before_lt : ∀ pair ∈ position.before, pair.1 < key
  pair_le : key ≤ position.pair.1
  after_lt : ∀ pair ∈ position.after, position.pair.1 < pair.1
  after_sorted : Sorted position.after

theorem at_of_setRange (hsorted : Sorted pairs) {position : Position κ ν}
    (h : setRange pairs key = some position) : At pairs key position := by
  have hpairs := pairs_of_setRange h
  rw [setRange] at h
  have hparts := List.takeWhile_append_dropWhile (p := fun pair ↦ decide (pair.1 < key)) (l := pairs)
  cases hdrop : pairs.dropWhile fun pair ↦ pair.1 < key with
  | nil =>
    rw [hdrop] at h
    cases h
  | cons pair after =>
    rw [hdrop] at h hparts
    cases h
    have hsplit := hsorted
    rw [Sorted, ← hparts, List.pairwise_append, List.pairwise_cons] at hsplit
    refine ⟨hpairs, ?_, ?_, hsplit.2.1.1, hsplit.2.1.2⟩
    · intro other hother
      have htrue := List.mem_takeWhile_imp (List.mem_reverse.mp hother)
      exact of_decide_eq_true htrue
    · have hne : pairs.dropWhile (fun pair ↦ decide (pair.1 < key)) ≠ [] := by
        rw [hdrop]
        exact List.cons_ne_nil _ _
      have hhead := List.head_dropWhile_not (fun pair : κ × ν ↦ decide (pair.1 < key)) hne
      simp only [hdrop, List.head_cons, decide_eq_false_iff_not, not_lt] at hhead
      exact hhead

theorem notBelow_of_setRange {position : Position κ ν} (h : setRange pairs key = some position) :
    notBelow pairs key = position.pair :: position.after := by
  rw [setRange] at h
  rw [notBelow]
  cases hdrop : pairs.dropWhile fun pair ↦ pair.1 < key with
  | nil =>
    rw [hdrop] at h
    cases h
  | cons pair after =>
    rw [hdrop] at h
    cases h
    rfl

theorem notBelow_of_setRange_eq_none (h : setRange pairs key = none) : notBelow pairs key = [] :=
  List.dropWhile_eq_nil_iff.mpr fun pair hmem ↦
    decide_eq_true (setRange_eq_none_iff.mp h pair hmem)

theorem Sorted.notBelow (hsorted : Sorted pairs) (key : κ) : Sorted (notBelow pairs key) :=
  hsorted.sublist (List.dropWhile_sublist _)

variable {position : Position κ ν}

theorem At.mem_iff (h : At pairs key position) :
    pair ∈ pairs ↔ pair ∈ position.before ∨ pair = position.pair ∨ pair ∈ position.after := by
  rw [← h.pairs_eq, Position.pairs, List.mem_append, List.mem_reverse, List.mem_cons]

theorem At.mem_before_iff (h : At pairs key position) :
    pair ∈ position.before ↔ pair ∈ pairs ∧ pair.1 < key := by
  constructor
  · exact fun hmem ↦ ⟨h.mem_iff.mpr (Or.inl hmem), h.before_lt pair hmem⟩
  · rintro ⟨hmem, hlt⟩
    rcases h.mem_iff.mp hmem with hbefore | rfl | hafter
    · exact hbefore
    · exact absurd h.pair_le (not_le.mpr hlt)
    · exact absurd (h.pair_le.trans (h.after_lt pair hafter).le) (not_le.mpr hlt)

theorem At.mem_from_iff (h : At pairs key position) :
    pair ∈ position.pair :: position.after ↔ pair ∈ pairs ∧ key ≤ pair.1 := by
  rw [List.mem_cons]
  constructor
  · rintro (rfl | hafter)
    · exact ⟨h.mem_iff.mpr (Or.inr (Or.inl rfl)), h.pair_le⟩
    · exact ⟨h.mem_iff.mpr (Or.inr (Or.inr hafter)), h.pair_le.trans (h.after_lt pair hafter).le⟩
  · rintro ⟨hmem, hle⟩
    rcases h.mem_iff.mp hmem with hbefore | heq | hafter
    · exact absurd hle (not_le.mpr (h.before_lt pair hbefore))
    · exact Or.inl heq
    · exact Or.inr hafter

theorem Sorted.mem_notBelow_iff (hsorted : Sorted pairs) :
    pair ∈ Cursor.notBelow pairs key ↔ pair ∈ pairs ∧ key ≤ pair.1 := by
  cases hset : setRange pairs key with
  | none =>
    rw [notBelow_of_setRange_eq_none hset]
    refine iff_of_false List.not_mem_nil ?_
    rintro ⟨hmem, hle⟩
    exact absurd hle (not_le.mpr (setRange_eq_none_iff.mp hset pair hmem))
  | some position =>
    rw [notBelow_of_setRange hset]
    exact (at_of_setRange hsorted hset).mem_from_iff

theorem At.mem_after_iff (h : At pairs key position) (heq : position.pair.1 = key) :
    pair ∈ position.after ↔ pair ∈ pairs ∧ key < pair.1 := by
  constructor
  · exact fun hmem ↦ ⟨h.mem_iff.mpr (Or.inr (Or.inr hmem)), heq ▸ h.after_lt pair hmem⟩
  · rintro ⟨hmem, hlt⟩
    rcases h.mem_iff.mp hmem with hbefore | rfl | hafter
    · exact absurd hlt (h.before_lt pair hbefore).asymm
    · exact absurd hlt (by rw [heq]; exact lt_irrefl _)
    · exact hafter

theorem At.mem_upto_iff (h : At pairs key position) (heq : position.pair.1 = key) :
    pair ∈ position.pair :: position.before ↔ pair ∈ pairs ∧ pair.1 ≤ key := by
  rw [← not_lt, h.mem_iff, List.mem_cons]
  constructor
  · rintro (rfl | hbefore)
    · exact ⟨Or.inr (Or.inl rfl), by rw [heq]; exact lt_irrefl _⟩
    · exact ⟨Or.inl hbefore, (h.before_lt pair hbefore).asymm⟩
  · rintro ⟨hbefore | rfl | hafter, hnot⟩
    · exact Or.inr hbefore
    · exact Or.inl rfl
    · exact absurd (heq ▸ h.after_lt pair hafter) hnot

end Order

end Cheshire.Lib.Cursor
