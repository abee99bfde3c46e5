import Cheshire.Search.RangeWalk

/-!
# Ranges of integers

The keys of integers that are not negative are in their order, so the walk finds what is asked for.  The
walk of a negative number goes over the keys of negative numbers in the opposite order: upwards it ends
before zero, and downwards it does not end there.
-/

namespace Cheshire.Search

open Lib Lib.Cursor Lib.DigitOrder Index

/-- The values of an `int`. -/
def IsInt (n : ℤ) : Prop := -(2 ^ 31) ≤ n ∧ n ≤ 2 ^ 31 - 1

instance decidableIsInt (n : ℤ) : Decidable (IsInt n) := inferInstanceAs (Decidable (_ ∧ _))

theorem head?_paddedInt (n : ℤ) : (paddedInt 10 n).head? = some '-' ↔ n < 0 := by
  rcases lt_or_ge n 0 with hneg | hnonneg
  · rw [paddedInt_of_neg hneg]
    simp [hneg]
  · obtain ⟨first, others, hdigits, hfirst⟩ := exists_digit_zeroPadded 10 n.natAbs
    rw [paddedInt_of_nonneg hnonneg, hdigits, List.head?_cons, Option.some.injEq]
    refine iff_of_false ?_ (not_lt.mpr hnonneg)
    rintro rfl
    exact absurd hfirst (by decide)

theorem paddedInt_ne_nil (n : ℤ) : paddedInt 10 n ≠ [] := by
  rcases lt_or_ge n 0 with hneg | hnonneg
  · rw [paddedInt_of_neg hneg]
    exact List.cons_ne_nil _ _
  · obtain ⟨first, others, hdigits, -⟩ := exists_digit_zeroPadded 10 n.natAbs
    rw [paddedInt_of_nonneg hnonneg, hdigits]
    exact List.cons_ne_nil _ _

theorem head?_paddedInt_ne (n : ℤ) : (paddedInt 10 n).head? ≠ some '>' := by
  rcases lt_or_ge n 0 with hneg | hnonneg
  · rw [paddedInt_of_neg hneg, List.head?_cons, Ne, Option.some.injEq]
    decide
  · obtain ⟨first, others, hdigits, hfirst⟩ := exists_digit_zeroPadded 10 n.natAbs
    rw [paddedInt_of_nonneg hnonneg, hdigits, List.head?_cons, Ne, Option.some.injEq]
    rintro rfl
    exact absurd hfirst (by decide)

theorem paddedInt_inj {m n : ℤ} : paddedInt 10 m = paddedInt 10 n ↔ m = n := by
  constructor
  · intro h
    have hsign : m < 0 ↔ n < 0 := by rw [← head?_paddedInt m, ← head?_paddedInt n, h]
    rcases lt_or_ge m 0 with hm | hm
    · rw [paddedInt_of_neg hm, paddedInt_of_neg (hsign.mp hm), List.cons.injEq, zeroPadded_inj] at h
      have hn := hsign.mp hm
      omega
    · have hn : 0 ≤ n := not_lt.mp fun hn ↦ absurd (hsign.mpr hn) (not_lt.mpr hm)
      rw [paddedInt_of_nonneg hm, paddedInt_of_nonneg hn, zeroPadded_inj] at h
      omega
  · exact congrArg _

theorem paddedInt_lt_iff {m n : ℤ} (hm : IsInt m) (hn : IsInt n) (hnonneg : 0 ≤ n) :
    paddedInt 10 m < paddedInt 10 n ↔ m < n := by
  rcases eq_or_ne m n with rfl | hne
  · exact iff_of_false (lt_irrefl _) (lt_irrefl _)
  · rcases lt_or_ge m 0 with hneg | hpos
    · have hlt := @paddedInt_append_lt_of_sign m n [] [] hneg hnonneg
      rw [List.append_nil, List.append_nil] at hlt
      exact iff_of_true hlt (hneg.trans_le hnonneg)
    · have hiff := @paddedInt_append_lt_of_nonneg m n [] [] hpos hm.2 hnonneg hn.2 hne
      rwa [List.append_nil, List.append_nil] at hiff

/-- The key of a negative number comes before that of `v`, which is negative and has nine digits at
most: numbers of ten digits are compared by the first nine of them. -/
def StandsBefore (n v : ℤ) : Prop :=
  n < 0 ∧ if n ≤ -(10 ^ 9) then n.natAbs / 10 < v.natAbs else v < n

instance decidableStandsBefore (n v : ℤ) : Decidable (StandsBefore n v) :=
  inferInstanceAs (Decidable (_ ∧ _))

theorem paddedInt_lt_iff_standsBefore {n v : ℤ} (hn : IsInt n) (hv : -(10 ^ 9) < v) (hneg : v < 0) :
    paddedInt 10 n < paddedInt 10 v ↔ StandsBefore n v := by
  rw [StandsBefore]
  rcases lt_or_ge n 0 with hnneg | hnonneg
  · by_cases hlong : n ≤ -(10 ^ 9)
    · have hmixed := (@paddedInt_append_lt_of_mixed n v [] [] hlong hn.1 hv hneg (by simp)).1
      rw [List.append_nil, List.append_nil] at hmixed
      rw [hmixed, if_pos hlong, and_iff_right hnneg]
    · rw [if_neg hlong, and_iff_right hnneg]
      rcases eq_or_ne n v with rfl | hne
      · exact iff_of_false (lt_irrefl _) (lt_irrefl _)
      · have hshort := @paddedInt_append_lt_of_short n v [] [] (by omega) hnneg hv hneg hne
        rwa [List.append_nil, List.append_nil] at hshort
  · have hlt := @paddedInt_append_lt_of_sign v n [] [] hneg hnonneg
    rw [List.append_nil, List.append_nil] at hlt
    exact iff_of_false hlt.asymm fun h ↦ absurd h.1 (not_lt.mpr hnonneg)

theorem zero_point_le_of_digits {zeros digits : List Char} (hzeros : ∀ c ∈ zeros, c = '0')
    (hdigits : ∀ c ∈ digits, c.isDigit = true) (hlength : zeros.length ≤ digits.length) :
    zeros ≤ digits := by
  induction zeros generalizing digits with
  | nil => exact not_lt.mp (List.not_lt_nil _)
  | cons zero zeros ih =>
    cases digits with
    | nil => simp at hlength
    | cons digit digits =>
      have hle := ih (fun c hc ↦ hzeros c (List.mem_cons_of_mem _ hc))
        (fun c hc ↦ hdigits c (List.mem_cons_of_mem _ hc)) (Nat.le_of_succ_le_succ hlength)
      have hbound : '0' ≤ digit := (digit_bounds (hdigits digit List.mem_cons_self)).1
      rw [hzeros zero List.mem_cons_self, ← not_lt, List.cons_lt_cons_iff]
      rintro (hlt | ⟨-, hlt⟩)
      · exact absurd hbound (not_le.mpr hlt)
      · exact absurd hle (not_le.mpr hlt)

theorem zero_point_le_iff (n : ℤ) : ZERO_POINT ≤ paddedInt 10 n ↔ 0 ≤ n := by
  constructor
  · intro hle
    by_contra hneg
    rw [paddedInt_of_neg (not_le.mp hneg), ← not_lt] at hle
    apply hle
    rw [ZERO_POINT, List.cons_lt_cons_iff]
    exact Or.inl (by decide)
  · intro hnonneg
    rw [paddedInt_of_nonneg hnonneg]
    apply zero_point_le_of_digits (by simp [ZERO_POINT]) fun c hc ↦ isDigit_of_mem_zeroPadded hc
    rw [zeroPadded, List.length_append, List.length_replicate]
    have hseven : ZERO_POINT.length = 7 := rfl
    omega

section Visited

variable {pairs : List (List Char × IndexDatum)} {relation : RangeRelation}
  (hrelation : relation ≠ .within) (endKey : List Char)
  (position : Position (List Char) IndexDatum)

/-- The cursor at a place that was found. -/
def RangeCursor.at (position : Position (List Char) IndexDatum) : RangeCursor :=
  ⟨some position, position.pair.1, true⟩

include hrelation

theorem visited_at (direction : Direction) :
    RangeStart.visited relation endKey ⟨.at position, direction, true⟩ =
      position.pair :: position.ahead direction := by
  have hall : (position.ahead direction).takeWhile (goesOn relation endKey) =
      position.ahead direction :=
    List.takeWhile_eq_self_iff.mpr fun pair _ ↦ decide_eq_true fun h ↦ hrelation h.1
  change visitedFrom relation endKey direction true position = _
  rw [visitedFrom, if_pos rfl, hall]

theorem visited_move (direction : Direction) :
    RangeStart.visited relation endKey
        ⟨(RangeCursor.at position).move pairs direction, direction, true⟩ =
      position.ahead direction := by
  change RangeStart.visited relation endKey
    ⟨(RangeCursor.at position).get (position.step direction), direction, true⟩ = _
  cases hstep : position.step direction with
  | none => exact ((position.step_eq_none_iff direction).mp hstep).symm
  | some next =>
    rw [Position.ahead_of_step hstep]
    exact visited_at hrelation endKey next direction

variable {position} {startKey : List Char} (h : At pairs startKey position) (hsorted : Sorted pairs)

include h hsorted

theorem mem_visited_orZeroPoint (pair : List Char × IndexDatum) :
    pair ∈ (orZeroPoint pairs ((RangeCursor.at position).move pairs .prev)).visited relation endKey ↔
      pair ∈ pairs ∧ ((∃ other ∈ pairs, other.1 < startKey) → pair.1 < startKey) ∧
        ((¬∃ other ∈ pairs, other.1 < startKey) → ZERO_POINT ≤ pair.1) := by
  have hmove := @visited_move pairs _ hrelation endKey position .prev
  have hget : (RangeCursor.at position).move pairs .prev =
      (RangeCursor.at position).get (position.step .prev) := rfl
  rw [hget] at hmove ⊢
  cases hstep : position.step .prev with
  | some previous =>
    have hexists : ∃ other ∈ pairs, other.1 < startKey := by
      refine ⟨previous.pair, h.mem_before_iff.mp ?_⟩
      have hahead := Position.ahead_of_step hstep
      change position.before = _ at hahead
      rw [hahead]
      exact List.mem_cons_self
    rw [hstep] at hmove
    have hsame : orZeroPoint pairs ((RangeCursor.at position).get (some previous)) =
        ⟨(RangeCursor.at position).get (some previous), .prev, true⟩ := rfl
    rw [hsame, hmove]
    change pair ∈ position.before ↔ _
    rw [h.mem_before_iff]
    simp [hexists]
  | none =>
    have hbefore : position.before = [] := (position.step_eq_none_iff .prev).mp hstep
    have hnot : ¬∃ other ∈ pairs, other.1 < startKey := by
      rintro ⟨other, hother⟩
      have hmem := h.mem_before_iff.mpr hother
      simp [hbefore] at hmem
    have hsame : orZeroPoint pairs ((RangeCursor.at position).get none) =
        ⟨(⟨some position, position.pair.1, false⟩ : RangeCursor).setRange pairs ZERO_POINT, .next,
          true⟩ := rfl
    rw [hsame, RangeCursor.setRange]
    have hzero : pair ∈ RangeStart.visited relation endKey
        ⟨(⟨some position, ZERO_POINT, false⟩ : RangeCursor).get (Cursor.setRange pairs ZERO_POINT),
          .next, true⟩ ↔ pair ∈ pairs ∧ ZERO_POINT ≤ pair.1 := by
      cases hset : Cursor.setRange pairs ZERO_POINT with
      | none =>
        have hall := setRange_eq_none_iff.mp hset
        refine iff_of_false List.not_mem_nil ?_
        rintro ⟨hmem, hle⟩
        exact absurd hle (not_le.mpr (hall pair hmem))
      | some zero =>
        have hat := at_of_setRange hsorted hset
        change pair ∈ RangeStart.visited relation endKey ⟨.at zero, .next, true⟩ ↔ _
        rw [visited_at hrelation]
        exact hat.mem_from_iff
    rw [hzero]
    simp [hnot]

end Visited

/-- Which keys the walk of a relation visits, where some key is not below that of the query. -/
def VisitsKey (pairs : List (List Char × IndexDatum)) (relation : RangeRelation) (isReversed : Bool)
    (startKey key : List Char) : Prop :=
  match relation, isReversed with
  | .lessThan, false => key < startKey
  | .lessOrEqual, false => key ≤ startKey
  | .greaterOrEqual, false => startKey ≤ key
  | .greaterThan, false => startKey < key
  | .lessThan, true => startKey < key
  | .lessOrEqual, true => startKey ≤ key
  | .greaterOrEqual, true =>
    ((∃ pair ∈ pairs, pair.1 ≤ startKey) → key ≤ startKey) ∧
      ((¬∃ pair ∈ pairs, pair.1 ≤ startKey) → ZERO_POINT ≤ key)
  | .greaterThan, true =>
    ((∃ pair ∈ pairs, pair.1 < startKey) → key < startKey) ∧
      ((¬∃ pair ∈ pairs, pair.1 < startKey) → ZERO_POINT ≤ key)
  | .within, _ => False

section VisitsKey

variable {pairs : List (List Char × IndexDatum)} {startKey : List Char}
  {position : Position (List Char) IndexDatum} (h : At pairs startKey position)

include h

theorem mem_visited_above {relation : RangeRelation} (hrelation : relation ≠ .within)
    (endKey : List Char) (pair : List Char × IndexDatum) :
    pair ∈ RangeStart.visited relation endKey
        ⟨if position.pair.1 ≤ startKey then (RangeCursor.at position).move pairs .next
          else .at position, .next, true⟩ ↔
      pair ∈ pairs ∧ startKey < pair.1 := by
  by_cases heq : position.pair.1 ≤ startKey
  · rw [if_pos heq, visited_move hrelation]
    exact h.mem_after_iff (le_antisymm heq h.pair_le)
  · rw [if_neg heq, visited_at hrelation]
    change pair ∈ position.pair :: position.after ↔ _
    rw [h.mem_from_iff]
    refine and_congr_right fun hmem ↦ ⟨fun hle ↦ ?_, le_of_lt⟩
    have hfrom := h.mem_from_iff.mpr ⟨hmem, hle⟩
    rcases List.mem_cons.mp hfrom with rfl | hafter
    · exact not_le.mp heq
    · exact (not_le.mp heq).trans (h.after_lt pair hafter)

theorem mem_visited_upto {relation : RangeRelation} (hrelation : relation ≠ .within)
    (endKey : List Char) (pair : List Char × IndexDatum) :
    pair ∈ RangeStart.visited relation endKey
        ⟨if startKey < position.pair.1 then (RangeCursor.at position).move pairs .prev
          else .at position, .prev, true⟩ ↔
      pair ∈ pairs ∧ pair.1 ≤ startKey := by
  by_cases hlt : startKey < position.pair.1
  · rw [if_pos hlt, visited_move hrelation]
    change pair ∈ position.before ↔ _
    rw [h.mem_before_iff]
    refine and_congr_right fun hmem ↦ ⟨le_of_lt, fun hle ↦ ?_⟩
    rcases h.mem_iff.mp hmem with hbefore | rfl | hafter
    · exact h.before_lt pair hbefore
    · exact absurd hle (not_le.mpr hlt)
    · exact absurd hle (not_le.mpr (hlt.trans (h.after_lt pair hafter)))
  · rw [if_neg hlt, visited_at hrelation]
    exact h.mem_upto_iff (le_antisymm (not_lt.mp hlt) h.pair_le)

theorem mem_visited_iff (hset : Cursor.setRange pairs startKey = some position)
    (hsorted : Sorted pairs) (idxType : ℕ) {relation : RangeRelation} (hrelation : relation ≠ .within)
    (endKey : List Char) (pair : List Char × IndexDatum) :
    pair ∈ (rangeStart pairs idxType startKey relation).visited relation endKey ↔
      pair ∈ pairs ∧ VisitsKey pairs relation (reversed idxType startKey) startKey pair.1 := by
  have hcursor : RangeCursor.setRange pairs ⟨none, startKey, false⟩ startKey = .at position := by
    rw [RangeCursor.setRange, hset]
    rfl
  have hkeyval : (RangeCursor.at position).keyval = position.pair.1 := rfl
  have hfound : (RangeCursor.at position).found = true := rfl
  unfold rangeStart
  rw [hcursor]
  cases hreversed : reversed idxType startKey with
  | false =>
    cases relation with
    | lessThan =>
      simp only [Bool.false_eq_true, if_false]
      rw [visited_move hrelation]
      exact h.mem_before_iff
    | lessOrEqual =>
      simp only [Bool.false_eq_true, if_false, hkeyval]
      exact mem_visited_upto h hrelation endKey pair
    | greaterOrEqual =>
      simp only [Bool.false_eq_true, if_false, hfound]
      rw [visited_at hrelation]
      exact h.mem_from_iff
    | greaterThan =>
      have heq : (position.pair.1 = startKey) = (position.pair.1 ≤ startKey) :=
        propext ⟨le_of_eq, fun hle ↦ le_antisymm hle h.pair_le⟩
      simp only [Bool.false_eq_true, if_false, hfound, hkeyval, heq]
      exact mem_visited_above h hrelation endKey pair
    | within => exact absurd rfl hrelation
  | true =>
    cases relation with
    | lessThan =>
      simp only [if_true, hkeyval]
      exact mem_visited_above h hrelation endKey pair
    | lessOrEqual =>
      simp only [if_true]
      rw [visited_at hrelation]
      exact h.mem_from_iff
    | greaterOrEqual =>
      simp only [if_true, hkeyval]
      by_cases hlt : startKey < position.pair.1
      · rw [if_pos hlt, mem_visited_orZeroPoint hrelation endKey h hsorted]
        -- the key of the query is not there
        have hsame (other : List Char × IndexDatum) (hother : other ∈ pairs) :
            other.1 < startKey ↔ other.1 ≤ startKey := by
          refine ⟨le_of_lt, fun hle ↦ ?_⟩
          rcases h.mem_iff.mp hother with hbefore | rfl | hafter
          · exact h.before_lt other hbefore
          · exact absurd hle (not_le.mpr hlt)
          · exact absurd hle (not_le.mpr (hlt.trans (h.after_lt other hafter)))
        have hexists : (∃ other ∈ pairs, other.1 < startKey) ↔ ∃ other ∈ pairs, other.1 ≤ startKey :=
          exists_congr fun other ↦ and_congr_right fun hother ↦ hsame other hother
        rw [hexists]
        exact and_congr_right fun hmem ↦ by rw [VisitsKey, hsame pair hmem]
      · have heq := le_antisymm (not_lt.mp hlt) h.pair_le
        have hexists : ∃ other ∈ pairs, other.1 ≤ startKey :=
          ⟨position.pair, h.mem_iff.mpr (Or.inr (Or.inl rfl)), heq.le⟩
        rw [if_neg hlt, orZeroPoint, if_pos hfound, visited_at hrelation]
        change pair ∈ position.pair :: position.before ↔ _
        rw [h.mem_upto_iff heq, VisitsKey]
        simp [hexists]
    | greaterThan =>
      simp only [if_true, hkeyval, h.pair_le]
      exact mem_visited_orZeroPoint hrelation endKey h hsorted pair
    | within => exact absurd rfl hrelation

end VisitsKey

def GLOBAL_KEY : List Char :=
  ['>', '>', '>', 'G', 'l', 'o', 'b', 'a', 'l', ' ', 'D', 'a', 't', 'a', ' ', 'V', 'a', 'l', 'u', 'e',
    's', '<', '<', '<']

theorem paddedInt_lt_globalKey (n : ℤ) : paddedInt 10 n < GLOBAL_KEY := by
  rcases lt_or_ge n 0 with hneg | hnonneg
  · rw [paddedInt_of_neg hneg, GLOBAL_KEY, List.cons_lt_cons_iff]
    exact Or.inl (by decide)
  · obtain ⟨first, others, hdigits, hfirst⟩ := exists_digit_zeroPadded 10 n.natAbs
    rw [paddedInt_of_nonneg hnonneg, hdigits, GLOBAL_KEY, List.cons_lt_cons_iff]
    have hbound : first.toNat < '0'.toNat + 10 := (digit_bounds hfirst).2
    exact Or.inl (lt_of_lt_of_le (show first < ':' from hbound) (by decide))

/-- `normalize_key` takes the text of a query for an integer. -/
structure IntegerKeyed (idxType : ℕ) : Prop where
  number : idxType &&& NUMBER_KEYS = INTEGER_KEY
  not_do_nothing : idxType &&& NORM_DO_NOTHING ≠ NORM_DO_NOTHING
  not_min : idxType &&& NORM_MIN ≠ NORM_MIN

/-- The file of an index of integers: the key of the global data, and keys of integers with sound
postings. -/
structure IntegerFile (pairs : List (List Char × IndexDatum)) : Prop where
  sorted : Sorted pairs
  globalData : ∃ pair ∈ pairs, pair.1 = GLOBAL_KEY
  keys : ∀ pair ∈ pairs, pair.1 ≠ GLOBAL_KEY →
    ∃ n, IsInt n ∧ pair.1 = paddedInt 10 n ∧ ∃ block, pair.2 = .postings block ∧ block.Sound

def HasValue (pairs : List (List Char × IndexDatum)) (record n : ℤ) : Prop :=
  ∃ block, (paddedInt 10 n, .postings block) ∈ pairs ∧
    ∃ posting ∈ block.postings, posting.recordNo = record ∧ 0 < record

namespace IntegerFile

variable {pairs : List (List Char × IndexDatum)} (hfile : IntegerFile pairs)

include hfile

theorem readable : ReadablePairs pairs := by
  intro pair hmem hhead
  have hne : pair.1 ≠ GLOBAL_KEY := by
    rintro heq
    rw [heq] at hhead
    exact hhead rfl
  obtain ⟨n, -, -, hblock⟩ := hfile.keys pair hmem hne
  exact hblock

theorem isInt {n : ℤ} {datum : IndexDatum} (hmem : (paddedInt 10 n, datum) ∈ pairs) : IsInt n := by
  have hne : paddedInt 10 n ≠ GLOBAL_KEY := by
    intro heq
    apply head?_paddedInt_ne n
    rw [heq]
    rfl
  obtain ⟨m, hm, hkey, -⟩ := hfile.keys _ hmem hne
  rw [paddedInt_inj.mp hkey]
  exact hm

theorem exists_counts_iff (record : ℤ) (visits : List Char → Prop) :
    (∃ pair ∈ pairs, visits pair.1 ∧ Counts pair record) ↔
      ∃ n, HasValue pairs record n ∧ visits (paddedInt 10 n) := by
  constructor
  · rintro ⟨pair, hmem, hvisits, hhead, block, hblock, hposting⟩
    have hne : pair.1 ≠ GLOBAL_KEY := by
      rintro heq
      rw [heq] at hhead
      exact hhead rfl
    obtain ⟨n, -, hkey, -⟩ := hfile.keys pair hmem hne
    rw [hkey] at hvisits
    refine ⟨n, ⟨block, ?_, hposting⟩, hvisits⟩
    rw [← hkey, ← hblock]
    exact hmem
  · rintro ⟨n, ⟨block, hmem, hposting⟩, hvisits⟩
    exact ⟨_, hmem, hvisits, head?_paddedInt_ne n, block, rfl, hposting⟩

theorem exists_position (n : ℤ) :
    ∃ position, Cursor.setRange pairs (paddedInt 10 n) = some position := by
  rw [← Option.isSome_iff_exists, Option.isSome_iff_ne_none, Ne, setRange_eq_none_iff]
  intro hall
  obtain ⟨pair, hmem, hkey⟩ := hfile.globalData
  have hlt := hall pair hmem
  rw [hkey] at hlt
  exact absurd hlt (paddedInt_lt_globalKey n).asymm

end IntegerFile

theorem length_paddedInt_lt_iff {v : ℤ} (hv : IsInt v) :
    (paddedInt 10 v).length < 11 ↔ -(10 ^ 9) < v := by
  rcases lt_or_ge v 0 with hneg | hnonneg
  · rw [paddedInt_of_neg hneg, List.length_cons]
    by_cases hshort : -(10 ^ 9) < v
    · have hlength : (zeroPadded (10 - 1) v.natAbs).length = 9 :=
        length_zeroPadded (by decide) (by omega)
      omega
    · have hten : (zeroPadded 10 v.natAbs).length = 10 := length_zeroPadded (by decide) (by
        have := hv.1
        omega)
      have hlong := zeroPadded_ten_digits (show 10 ^ 9 ≤ v.natAbs by omega)
      change (zeroPadded 9 v.natAbs).length + 1 < 11 ↔ _
      rw [hlong.1, ← hlong.2, hten]
      omega
  · have hlength : (zeroPadded 10 v.natAbs).length = 10 := length_zeroPadded (by decide) (by
      have := hv.2
      omega)
    rw [paddedInt_of_nonneg hnonneg, hlength]
    omega

theorem isInt_of_sscanfInteger {text : List Char} {count v : ℤ}
    (h : sscanfInteger text = .ok (count, some v)) : IsInt v := by
  rw [sscanfInteger] at h
  split_ifs at h
  · cases h
  · cases hscan : scanNumber text with
    | none =>
      rw [hscan] at h
      cases h
    | some scanned =>
      rw [hscan] at h
      obtain ⟨integerKey, hcheck, hresult⟩ := bind_eq_ok.mp h
      cases hresult
      rw [checkInt] at hcheck
      split_ifs at hcheck with hrange
      · cases hcheck
        exact hrange

theorem rangeKey_integer {idx : RangeIndex} (htype : IntegerKeyed idx.idxType) {searchstring : List Char}
    {v : ℤ} (hvalue : sscanfInteger searchstring = .ok (1, some v)) :
    rangeKey idx searchstring =
      if -(10 ^ 9) < v then .ok (some (paddedInt 10 v), 0) else .error .outOfBounds := by
  have hzero : idx.idxType &&& NUMBER_KEYS ≠ 0 := by
    rw [htype.number]
    decide
  have hkey : normalizeKey idx.routines idx.idxType searchstring =
      sprintfKey 11 (paddedInt 10 v) := by
    rw [normalizeKey, if_neg htype.not_do_nothing, if_neg htype.not_min, if_neg hzero, numberKey,
      if_pos htype.number, hvalue]
    rfl
  rw [rangeKey, hkey, sprintfKey]
  simp only [length_paddedInt_lt_iff (isInt_of_sscanfInteger hvalue)]
  by_cases hshort : -(10 ^ 9) < v
  · rw [if_pos hshort, if_pos hshort]
    rfl
  · rw [if_neg hshort, if_neg hshort]
    rfl

theorem hasFlag_integer {idxType : ℕ} (htype : IntegerKeyed idxType) :
    hasFlag idxType INTEGER_KEY = true := by
  have hsub : NUMBER_KEYS &&& INTEGER_KEY = INTEGER_KEY := by decide
  have hself : INTEGER_KEY &&& INTEGER_KEY = INTEGER_KEY := Nat.and_self _
  rw [hasFlag, ← hsub, ← Nat.land_assoc, htype.number, hself]
  decide

theorem reversed_integer {idxType : ℕ} (htype : IntegerKeyed idxType) (v : ℤ) :
    reversed idxType (paddedInt 10 v) = decide (v < 0) := by
  rw [reversed, hasFlag_integer htype]
  simp only [Bool.true_or, Bool.true_and, head?_paddedInt]

/-- The relation between a value and the number of the query. -/
def RangeRelation.Holds (relation : RangeRelation) (n v : ℤ) : Prop :=
  match relation with
  | .lessThan => n < v
  | .lessOrEqual => n ≤ v
  | .greaterOrEqual => v ≤ n
  | .greaterThan => v < n
  | .within => n = v

/-- The number of the query itself is asked for. -/
def RangeRelation.orEqual : RangeRelation → Bool
  | .lessOrEqual | .greaterOrEqual | .within => true
  | .lessThan | .greaterThan => false

section Numbers

variable {pairs : List (List Char × IndexDatum)} {relation : RangeRelation}
  (hrelation : relation ≠ .within) {n v : ℤ} (hn : IsInt n)

include hrelation hn

theorem visitsKey_of_nonneg (hv : IsInt v) (hnonneg : 0 ≤ v) :
    VisitsKey pairs relation false (paddedInt 10 v) (paddedInt 10 n) ↔ relation.Holds n v := by
  have hlt := paddedInt_lt_iff hn hv hnonneg
  have hle : paddedInt 10 n ≤ paddedInt 10 v ↔ n ≤ v := by
    rw [le_iff_lt_or_eq, hlt, paddedInt_inj, le_iff_lt_or_eq]
  cases relation with
  | lessThan => exact hlt
  | lessOrEqual => exact hle
  | greaterOrEqual =>
    change paddedInt 10 v ≤ paddedInt 10 n ↔ v ≤ n
    rw [← not_lt, hlt, not_lt]
  | greaterThan =>
    change paddedInt 10 v < paddedInt 10 n ↔ v < n
    rw [← not_le, hle, not_le]
  | within => exact absurd rfl hrelation

end Numbers

/-- The key of the number does not come before that of the query, and is not the same unless that is
asked for. -/
def StandsBehind (relation : RangeRelation) (n v : ℤ) : Prop :=
  ¬StandsBefore n v ∧ (n = v → relation.orEqual = true)

/-- The key of the number comes before that of the query, or is the same and asked for. -/
def StandsUpTo (relation : RangeRelation) (n v : ℤ) : Prop :=
  StandsBefore n v ∨ (n = v ∧ relation.orEqual = true)

section Conditions

variable (pairs : List (List Char × IndexDatum)) (relation : RangeRelation) (v : ℤ)

/-- Below a negative number: every document with a value from zero on has also a value that is asked for,
and every document with a value of ten digits that stands before the number has also a value behind it. -/
structure BelowInOrder : Prop where
  nonneg : ∀ record n, HasValue pairs record n → 0 ≤ n →
    ∃ m, HasValue pairs record m ∧ relation.Holds m v
  long : ∀ record n, HasValue pairs record n → n ≤ -(10 ^ 9) → StandsBefore n v →
    ∃ m, HasValue pairs record m ∧ StandsBehind relation m v

/-- Some key of the index comes before that of the number, or is the same and asked for. -/
def KeyUpTo : Prop := ∃ m datum, (paddedInt 10 m, datum) ∈ pairs ∧ StandsUpTo relation m v

/-- Above a negative number: every document with a value from zero on has also a value that stands before
the number, and every document with a value of ten digits there has also a value that is asked for. -/
structure AboveInOrder : Prop where
  nonneg : ∀ record n, HasValue pairs record n → 0 ≤ n →
    ∃ m, HasValue pairs record m ∧ StandsUpTo relation m v
  long : ∀ record n, HasValue pairs record n → n ≤ -(10 ^ 9) → StandsBefore n v →
    ∃ m, HasValue pairs record m ∧ relation.Holds m v

/-- The number is not negative, or it has nine digits at most and the documents with values on the other
side of zero, or with values of ten digits, make no difference. -/
def RangeInOrder : Prop :=
  0 ≤ v ∨ (-(10 ^ 9) < v ∧
    match relation with
    | .lessThan | .lessOrEqual => BelowInOrder pairs relation v
    | .greaterOrEqual | .greaterThan => KeyUpTo pairs relation v → AboveInOrder pairs relation v
    | .within => False)

end Conditions

section Negative

variable {pairs : List (List Char × IndexDatum)} {relation : RangeRelation} {n v : ℤ}

theorem not_standsBefore_of_nonneg (hn : 0 ≤ n) : ¬StandsBefore n v :=
  fun h ↦ absurd h.1 (not_lt.mpr hn)

theorem standsBefore_iff_of_short (hn : n < 0) (hshort : -(10 ^ 9) < n) :
    StandsBefore n v ↔ v < n := by
  rw [StandsBefore, if_neg (not_le.mpr hshort), and_iff_right hn]

theorem standsBehind_iff_holds (hv : -(10 ^ 9) < v)
    (hrelation : relation = .lessThan ∨ relation = .lessOrEqual) (hn : n < 0)
    (hordinary : n ≤ -(10 ^ 9) → ¬StandsBefore n v) :
    StandsBehind relation n v ↔ relation.Holds n v := by
  rw [StandsBehind]
  by_cases hlong : n ≤ -(10 ^ 9)
  · have hlt : n < v := hlong.trans_lt hv
    refine iff_of_true ⟨hordinary hlong, fun heq ↦ absurd heq hlt.ne⟩ ?_
    rcases hrelation with rfl | rfl
    · exact hlt
    · exact hlt.le
  · rw [standsBefore_iff_of_short hn (not_le.mp hlong)]
    rcases hrelation with rfl | rfl
    · change (¬v < n ∧ (n = v → false = true)) ↔ n < v
      simp only [Bool.false_eq_true, imp_false]
      omega
    · change (¬v < n ∧ (n = v → true = true)) ↔ n ≤ v
      simp

theorem below_iff (hv : -(10 ^ 9) < v) (hneg : v < 0)
    (hrelation : relation = .lessThan ∨ relation = .lessOrEqual) :
    (∀ record, (∃ n, HasValue pairs record n ∧ StandsBehind relation n v) ↔
        ∃ n, HasValue pairs record n ∧ relation.Holds n v) ↔
      BelowInOrder pairs relation v := by
  have hnonneg (n : ℤ) (hn : 0 ≤ n) : StandsBehind relation n v :=
    ⟨not_standsBefore_of_nonneg hn, fun heq ↦ absurd heq (by omega)⟩
  have hlong (n : ℤ) (hn : n ≤ -(10 ^ 9)) : relation.Holds n v := by
    have hlt : n < v := hn.trans_lt hv
    rcases hrelation with rfl | rfl
    · exact hlt
    · exact hlt.le
  constructor
  · intro h
    exact ⟨fun record n hvalue hn ↦ (h record).mp ⟨n, hvalue, hnonneg n hn⟩,
      fun record n hvalue hn _ ↦ (h record).mpr ⟨n, hvalue, hlong n hn⟩⟩
  · intro h record
    constructor
    · rintro ⟨n, hvalue, hbehind⟩
      rcases lt_or_ge n 0 with hn | hn
      · exact ⟨n, hvalue, (standsBehind_iff_holds hv hrelation hn fun _ ↦ hbehind.1).mp hbehind⟩
      · exact h.nonneg record n hvalue hn
    · rintro ⟨n, hvalue, hholds⟩
      have hn : n < 0 := by
        rcases hrelation with rfl | rfl
        · exact lt_trans hholds hneg
        · exact lt_of_le_of_lt hholds hneg
      by_cases hmisplaced : n ≤ -(10 ^ 9) ∧ StandsBefore n v
      · exact h.long record n hvalue hmisplaced.1 hmisplaced.2
      · rw [not_and] at hmisplaced
        exact ⟨n, hvalue, (standsBehind_iff_holds hv hrelation hn hmisplaced).mpr hholds⟩

theorem standsUpTo_iff_holds (hv : -(10 ^ 9) < v)
    (hrelation : relation = .greaterOrEqual ∨ relation = .greaterThan) (hn : n < 0)
    (hordinary : n ≤ -(10 ^ 9) → ¬StandsBefore n v) :
    StandsUpTo relation n v ↔ relation.Holds n v := by
  rw [StandsUpTo]
  by_cases hlong : n ≤ -(10 ^ 9)
  · have hlt : n < v := hlong.trans_lt hv
    refine iff_of_false ?_ ?_
    · rintro (hbefore | ⟨heq, -⟩)
      · exact hordinary hlong hbefore
      · exact hlt.ne heq
    · rcases hrelation with rfl | rfl
      · exact not_le.mpr hlt
      · exact hlt.asymm
  · rw [standsBefore_iff_of_short hn (not_le.mp hlong)]
    rcases hrelation with rfl | rfl
    · change v < n ∨ (n = v ∧ true = true) ↔ v ≤ n
      rw [and_iff_left rfl, le_iff_lt_or_eq, eq_comm]
    · change v < n ∨ (n = v ∧ false = true) ↔ v < n
      simp

theorem above_iff (hv : -(10 ^ 9) < v) (hneg : v < 0)
    (hrelation : relation = .greaterOrEqual ∨ relation = .greaterThan) :
    (∀ record, (∃ n, HasValue pairs record n ∧
        (KeyUpTo pairs relation v → StandsUpTo relation n v) ∧
        (¬KeyUpTo pairs relation v → 0 ≤ n)) ↔
        ∃ n, HasValue pairs record n ∧ relation.Holds n v) ↔
      (KeyUpTo pairs relation v → AboveInOrder pairs relation v) := by
  have hnonneg (n : ℤ) (hn : 0 ≤ n) : relation.Holds n v := by
    have hlt : v < n := hneg.trans_le hn
    rcases hrelation with rfl | rfl
    · exact hlt.le
    · exact hlt
  have hshort (n : ℤ) (hholds : relation.Holds n v) : ¬n ≤ -(10 ^ 9) := by
    have hle : v ≤ n := by
      rcases hrelation with rfl | rfl
      · exact hholds
      · exact le_of_lt hholds
    omega
  by_cases hkey : KeyUpTo pairs relation v
  · simp only [hkey, true_implies, not_true, false_implies, and_true]
    constructor
    · intro h
      exact ⟨fun record n hvalue hn ↦ (h record).mpr ⟨n, hvalue, hnonneg n hn⟩,
        fun record n hvalue _ hbefore ↦ (h record).mp ⟨n, hvalue, Or.inl hbefore⟩⟩
    · intro h record
      constructor
      · rintro ⟨n, hvalue, hupto⟩
        by_cases hmisplaced : n ≤ -(10 ^ 9) ∧ StandsBefore n v
        · exact h.long record n hvalue hmisplaced.1 hmisplaced.2
        · rw [not_and] at hmisplaced
          have hn : n < 0 := by
            rcases hupto with hbefore | ⟨rfl, -⟩
            · exact hbefore.1
            · exact hneg
          exact ⟨n, hvalue, (standsUpTo_iff_holds hv hrelation hn hmisplaced).mp hupto⟩
      · rintro ⟨n, hvalue, hholds⟩
        rcases lt_or_ge n 0 with hn | hn
        · exact ⟨n, hvalue, (standsUpTo_iff_holds hv hrelation hn
            fun hlong ↦ absurd hlong (hshort n hholds)).mpr hholds⟩
        · exact h.nonneg record n hvalue hn
  · -- the walk starts over at zero
    refine iff_of_true (fun record ↦ ?_) fun h ↦ absurd h hkey
    simp only [hkey, false_implies, not_false_eq_true, true_implies, true_and]
    constructor
    · rintro ⟨n, hvalue, hn⟩
      exact ⟨n, hvalue, hnonneg n hn⟩
    · rintro ⟨n, hvalue, hholds⟩
      refine ⟨n, hvalue, ?_⟩
      by_contra hn
      obtain ⟨block, hmem, -⟩ := hvalue
      have hupto := (standsUpTo_iff_holds hv hrelation (not_le.mp hn)
        fun hlong ↦ absurd hlong (hshort n hholds)).mpr hholds
      exact hkey ⟨n, _, hmem, hupto⟩

theorem visitsKey_of_neg (hfile : IntegerFile pairs) (hrelation : relation ≠ .within)
    (hv : -(10 ^ 9) < v) (hneg : v < 0) (hn : IsInt n) :
    VisitsKey pairs relation true (paddedInt 10 v) (paddedInt 10 n) ↔
      match relation with
      | .lessThan | .lessOrEqual => StandsBehind relation n v
      | .greaterOrEqual | .greaterThan =>
        (KeyUpTo pairs relation v → StandsUpTo relation n v) ∧ (¬KeyUpTo pairs relation v → 0 ≤ n)
      | .within => False := by
  have hlt {m : ℤ} (hm : IsInt m) : paddedInt 10 m < paddedInt 10 v ↔ StandsBefore m v :=
    paddedInt_lt_iff_standsBefore hm hv hneg
  have hle {m : ℤ} (hm : IsInt m) : paddedInt 10 m ≤ paddedInt 10 v ↔ StandsBefore m v ∨ m = v := by
    rw [le_iff_lt_or_eq, hlt hm, paddedInt_inj]
  -- the key of the global data is behind all others
  have hglobal : paddedInt 10 v < GLOBAL_KEY := paddedInt_lt_globalKey v
  have hexists (below : List Char → Prop) (habove : ¬below GLOBAL_KEY) (upTo : ℤ → Prop)
      (hiff : ∀ m, IsInt m → (below (paddedInt 10 m) ↔ upTo m)) :
      (∃ pair ∈ pairs, below pair.1) ↔ ∃ m datum, (paddedInt 10 m, datum) ∈ pairs ∧ upTo m := by
    constructor
    · rintro ⟨pair, hmem, hbelow⟩
      obtain ⟨m, hm, hkey, -⟩ := hfile.keys pair hmem fun heq ↦ habove (heq ▸ hbelow)
      rw [hkey] at hbelow
      refine ⟨m, pair.2, ?_, (hiff m hm).mp hbelow⟩
      rw [← hkey]
      exact hmem
    · rintro ⟨m, datum, hmem, hupto⟩
      exact ⟨_, hmem, (hiff m (hfile.isInt hmem)).mpr hupto⟩
  cases relation with
  | lessThan =>
    change paddedInt 10 v < paddedInt 10 n ↔ StandsBehind .lessThan n v
    rw [← not_le, hle hn, StandsBehind, not_or]
    simp [RangeRelation.orEqual]
  | lessOrEqual =>
    change paddedInt 10 v ≤ paddedInt 10 n ↔ StandsBehind .lessOrEqual n v
    rw [← not_lt, hlt hn, StandsBehind]
    simp [RangeRelation.orEqual]
  | greaterOrEqual =>
    have hupto {m : ℤ} (hm : IsInt m) :
        paddedInt 10 m ≤ paddedInt 10 v ↔ StandsUpTo .greaterOrEqual m v := by
      rw [hle hm, StandsUpTo]
      simp [RangeRelation.orEqual]
    have hkey : (∃ pair ∈ pairs, pair.1 ≤ paddedInt 10 v) ↔ KeyUpTo pairs .greaterOrEqual v :=
      hexists (· ≤ paddedInt 10 v) (not_le.mpr hglobal) (StandsUpTo .greaterOrEqual · v)
        fun _ hm ↦ hupto hm
    rw [VisitsKey, hkey, hupto hn, zero_point_le_iff]
  | greaterThan =>
    have hupto {m : ℤ} (hm : IsInt m) :
        paddedInt 10 m < paddedInt 10 v ↔ StandsUpTo .greaterThan m v := by
      rw [hlt hm, StandsUpTo]
      simp [RangeRelation.orEqual]
    have hkey : (∃ pair ∈ pairs, pair.1 < paddedInt 10 v) ↔ KeyUpTo pairs .greaterThan v :=
      hexists (· < paddedInt 10 v) hglobal.asymm (StandsUpTo .greaterThan · v) fun _ hm ↦ hupto hm
    rw [VisitsKey, hkey, hupto hn, zero_point_le_iff]
  | within => exact absurd rfl hrelation

end Negative

/-- The result lists, in order, the documents with a value in the relation. -/
def RangeExact (pairs : List (List Char × IndexDatum)) (relation : RangeRelation) (v : ℤ)
    (result : Exec (Option WeightedResult)) : Prop :=
  ∃ set, result = .ok (some set) ∧ set.recordNums.Pairwise (· < ·) ∧
    ∀ record, record ∈ set.recordNums ↔ ∃ n, HasValue pairs record n ∧ relation.Holds n v

theorem boolRange_integer (idx : RangeIndex) (htype : IntegerKeyed idx.idxType)
    {pairs : List (List Char × IndexDatum)} (hdb : idx.db = some pairs) (hfile : IntegerFile pairs)
    {relation : RangeRelation} (hrelation : relation ≠ .within) {searchstring : List Char} {v : ℤ}
    (hvalue : sscanfInteger searchstring = .ok (1, some v)) (hshort : -(10 ^ 9) < v) :
    ∃ set, boolRange idx (some searchstring) relation = .ok (some set) ∧
      set.recordNums.Pairwise (· < ·) ∧ ∀ record, record ∈ set.recordNums ↔
        ∃ n, HasValue pairs record n ∧
          VisitsKey pairs relation (decide (v < 0)) (paddedInt 10 v) (paddedInt 10 n) := by
  have hkey : rangeKey idx searchstring = .ok (some (paddedInt 10 v), 0) := by
    rw [rangeKey_integer htype hvalue, if_pos hshort]
  have hbounds : rangeBounds idx.idxType relation (some (paddedInt 10 v)) =
      .ok (some (paddedInt 10 v, paddedInt 10 v)) := by
    rw [rangeBounds, if_neg fun h ↦ hrelation h.1]
    rfl
  obtain ⟨position, hset⟩ := hfile.exists_position v
  obtain ⟨set, hdone, hsorted, hmem⟩ := boolRange_spec idx hdb hfile.readable
    (fun h ↦ hrelation h.1) le_rfl hkey hbounds (paddedInt_ne_nil v)
  refine ⟨set, hdone, hsorted, fun record ↦ ?_⟩
  rw [hmem, ← hfile.exists_counts_iff, ← reversed_integer htype]
  apply exists_congr
  intro pair
  rw [mem_visited_iff (at_of_setRange hfile.sorted hset) hset hfile.sorted _ hrelation, and_assoc]

/-- A search for integers finds what is asked for if and only if the number is not negative, or it has
nine digits at most and the misplaced values make no difference. -/
theorem seBoolRange_integer_iff (spatial : Exec (Option WeightedResult)) (idx : RangeIndex)
    (htype : IntegerKeyed idx.idxType) {pairs : List (List Char × IndexDatum)}
    (hdb : idx.db = some pairs) (hfile : IntegerFile pairs) {code : ℤ} {relation : RangeRelation}
    (hcode : RangeRelation.ofCode code = some relation) (hrelation : relation ≠ .within)
    {searchstring : List Char} {v : ℤ} (hvalue : sscanfInteger searchstring = .ok (1, some v)) :
    RangeExact pairs relation v (seBoolRange spatial idx (some searchstring) code) ↔
      RangeInOrder pairs relation v := by
  have hrun : seBoolRange spatial idx (some searchstring) code =
      boolRange idx (some searchstring) relation := by
    rw [seBoolRange, hcode]
  rw [hrun]
  by_cases hshort : -(10 ^ 9) < v
  · obtain ⟨set, hdone, hsorted, hmem⟩ :=
      boolRange_integer idx htype hdb hfile hrelation hvalue hshort
    have hexact : RangeExact pairs relation v (boolRange idx (some searchstring) relation) ↔
        ∀ record, (∃ n, HasValue pairs record n ∧
          VisitsKey pairs relation (decide (v < 0)) (paddedInt 10 v) (paddedInt 10 n)) ↔
          ∃ n, HasValue pairs record n ∧ relation.Holds n v := by
      rw [RangeExact, hdone]
      constructor
      · rintro ⟨set', hset', -, hmem'⟩ record
        cases hset'
        rw [← hmem, hmem']
      · exact fun h ↦ ⟨set, rfl, hsorted, fun record ↦ (hmem record).trans (h record)⟩
    have hint {record n : ℤ} (hhas : HasValue pairs record n) : IsInt n := by
      obtain ⟨block, hpair, -⟩ := hhas
      exact hfile.isInt hpair
    rw [hexact]
    by_cases hnonneg : 0 ≤ v
    · rw [decide_eq_false (not_lt.mpr hnonneg)]
      refine iff_of_true (fun record ↦ exists_congr fun n ↦ and_congr_right fun hhas ↦ ?_) (Or.inl hnonneg)
      exact visitsKey_of_nonneg hrelation (hint hhas) (isInt_of_sscanfInteger hvalue) hnonneg
    · have hneg := not_le.mp hnonneg
      have hvisits (record n : ℤ) := and_congr_right fun hhas : HasValue pairs record n ↦
        visitsKey_of_neg hfile hrelation hshort hneg (hint hhas)
      rw [decide_eq_true hneg]
      unfold RangeInOrder
      rw [or_iff_right hnonneg, and_iff_right hshort]
      simp only [hvisits]
      cases relation with
      | lessThan => exact below_iff hshort hneg (Or.inl rfl)
      | lessOrEqual => exact below_iff hshort hneg (Or.inr rfl)
      | greaterOrEqual => exact above_iff hshort hneg (Or.inl rfl)
      | greaterThan => exact above_iff hshort hneg (Or.inr rfl)
      | within => exact absurd rfl hrelation
  · -- the key of the query has no room in its buffer
    have hkey : rangeKey idx searchstring = .error .outOfBounds := by
      rw [rangeKey_integer htype hvalue, if_neg hshort]
    have hfault : boolRange idx (some searchstring) relation = .error .outOfBounds := by
      simp only [boolRange, hdb, hkey, bind, Except.bind]
    apply iff_of_false
    · rintro ⟨set, hset, -⟩
      rw [hfault] at hset
      cases hset
    · rintro (hnonneg | ⟨hlt, -⟩)
      · omega
      · exact hshort hlt

/-- The postings of one document. -/
def onePosting (record : ℤ) : IndexDatum := .postings ⟨1, 1, 1, [⟨record, 1⟩]⟩

/-- The documents 1, 2 and 3 have the values -7, -3 and 4. -/
def threeValues : List (List Char × IndexDatum) :=
  [(paddedInt 10 (-3), onePosting 2), (paddedInt 10 (-7), onePosting 1), (paddedInt 10 4, onePosting 3),
    (GLOBAL_KEY, .globalData ⟨3, 3, 4⟩)]

def integerIndex (pairs : List (List Char × IndexDatum)) : RangeIndex where
  idxType := INTEGER_KEY
  routines := noRoutines
  unstopped := noRoutines
  stopwordsFile := false
  compParent := none
  db := some pairs

theorem integerKeyed_integerIndex (pairs : List (List Char × IndexDatum)) :
    IntegerKeyed (integerIndex pairs).idxType := by
  have htype : (integerIndex pairs).idxType = INTEGER_KEY := rfl
  rw [htype]
  exact ⟨by decide, by decide, by decide⟩

theorem sound_onePosting (record : ℤ) : ∃ block, onePosting record = .postings block ∧ block.Sound :=
  ⟨_, rfl, zero_le_one, le_rfl⟩

theorem integerFile_threeValues : IntegerFile threeValues where
  sorted := by decide +kernel
  globalData := ⟨(GLOBAL_KEY, .globalData ⟨3, 3, 4⟩), by simp [threeValues], rfl⟩
  keys := by
    simp only [threeValues, List.mem_cons, List.not_mem_nil, or_false, forall_eq_or_imp, forall_eq]
    refine ⟨fun _ ↦ ⟨-3, by decide, rfl, sound_onePosting 2⟩,
      fun _ ↦ ⟨-7, by decide, rfl, sound_onePosting 1⟩,
      fun _ ↦ ⟨4, by decide, rfl, sound_onePosting 3⟩, fun hne ↦ absurd rfl hne⟩

/-- A search for less than -5. -/
theorem seBoolRange_less_minusFive :
    RangeExact threeValues .lessThan (-5)
        (seBoolRange (.ok none) (integerIndex threeValues) (some ['-', '5']) 1) ↔
      RangeInOrder threeValues .lessThan (-5) :=
  seBoolRange_integer_iff (.ok none) (integerIndex threeValues) (integerKeyed_integerIndex _) rfl
    integerFile_threeValues rfl (by decide) rfl

/-- The document with the value 4 is found among those with a value less than -5. -/
theorem seBoolRange_less_minusFive_finds :
    ¬RangeExact threeValues .lessThan (-5)
      (seBoolRange (.ok none) (integerIndex threeValues) (some ['-', '5']) 1) := by
  have hrun : (seBoolRange (.ok none) (integerIndex threeValues) (some ['-', '5']) 1).map
      (Option.map WeightedResult.recordNums) = .ok (some [1, 3]) := by
    decide +kernel
  rintro ⟨set, hset, -, hmem⟩
  rw [hset] at hrun
  have hrecords : set.recordNums = [1, 3] := Option.some.inj (Except.ok.inj hrun)
  have hthree : (3 : ℤ) ∈ set.recordNums := by simp [hrecords]
  obtain ⟨n, ⟨block, hpair, posting, hposting, hrecord, -⟩, hless⟩ := (hmem 3).mp hthree
  simp only [threeValues, List.mem_cons, List.not_mem_nil, or_false, Prod.mk.injEq, onePosting,
    IndexDatum.postings.injEq, paddedInt_inj] at hpair
  rcases hpair with ⟨-, rfl⟩ | ⟨-, rfl⟩ | ⟨rfl, -⟩ | ⟨-, hpair⟩
  · cases List.mem_singleton.mp hposting
    cases hrecord
  · cases List.mem_singleton.mp hposting
    cases hrecord
  · exact absurd hless (show ¬(4 : ℤ) < -5 by decide)
  · cases hpair

end Cheshire.Search
