import Cheshire.Search.IntegerRange

/-!
# Searches within a range

The bounds of a range are the parts of the normalised query before and behind its first hyphen.  The walk
looks at the upper bound only when it goes on from a key, so it gathers the first key that is not below
the lower bound in any case.  The normalised query of an index of integers has lost its upper bound.
-/

namespace Cheshire.Search

open Lib Lib.Cursor Lib.DigitOrder Index

def HasKey (pairs : List (List Char × IndexDatum)) (record : ℤ) (key : List Char) : Prop :=
  ∃ block, (key, .postings block) ∈ pairs ∧
    ∃ posting ∈ block.postings, posting.recordNo = record ∧ 0 < record

/-- The file of an index, where every key but the one of the global data has sound postings. -/
structure StringFile (pairs : List (List Char × IndexDatum)) : Prop where
  sorted : Sorted pairs
  keys : ∀ pair ∈ pairs, pair.1 ≠ GLOBAL_KEY → ∃ block, pair.2 = .postings block ∧ block.Sound

theorem StringFile.readable {pairs : List (List Char × IndexDatum)} (hfile : StringFile pairs) :
    ReadablePairs pairs := by
  intro pair hmem hhead
  apply hfile.keys pair hmem
  rintro heq
  rw [heq] at hhead
  exact hhead rfl

variable {record : ℤ}

theorem counts_iff {pairs : List (List Char × IndexDatum)} {pair : List Char × IndexDatum}
    (h : Counts pair record) (hmem : pair ∈ pairs) :
    HasKey pairs record pair.1 ∧ pair.1.head? ≠ some '>' := by
  obtain ⟨hhead, block, hblock, hposting⟩ := h
  refine ⟨⟨block, ?_, hposting⟩, hhead⟩
  rw [← hblock]
  exact hmem

theorem HasKey.exists_counts {pairs : List (List Char × IndexDatum)} {key : List Char}
    (h : HasKey pairs record key) (hhead : key.head? ≠ some '>') :
    ∃ pair ∈ pairs, pair.1 = key ∧ Counts pair record := by
  obtain ⟨block, hmem, hposting⟩ := h
  exact ⟨_, hmem, rfl, hhead, block, rfl, hposting⟩

section Visited

variable {pairs : List (List Char × IndexDatum)} {idxType : ℕ}
  (hdates : hasFlag idxType DATE_RANGE_KEY = false) (startKey endKey : List Char)

include hdates

theorem visited_within_of_none (h : Cursor.setRange pairs startKey = none) :
    (rangeStart pairs idxType startKey .within).visited .within endKey = [] := by
  unfold rangeStart
  simp only [hdates, RangeCursor.setRange, h]
  rfl

theorem visited_within {position : Position (List Char) IndexDatum}
    (h : Cursor.setRange pairs startKey = some position) :
    (rangeStart pairs idxType startKey .within).visited .within endKey =
      position.pair :: position.after.takeWhile fun pair ↦ ¬endKey < pair.1 := by
  have hgoes : goesOn .within endKey = fun pair ↦ decide ¬endKey < pair.1 := by
    funext pair
    simp [goesOn]
  unfold rangeStart
  simp only [hdates, RangeCursor.setRange, h]
  change visitedFrom .within endKey .next true position = _
  rw [visitedFrom, hgoes]
  rfl

end Visited

/-- The first key that is not below the lower bound. -/
def FirstKey (pairs : List (List Char × IndexDatum)) (lo : List Char)
    (pair : List Char × IndexDatum) : Prop :=
  pair ∈ pairs ∧ lo ≤ pair.1 ∧ ∀ other ∈ pairs, lo ≤ other.1 → pair.1 ≤ other.1

theorem mem_visited_within_iff {pairs : List (List Char × IndexDatum)} (hsorted : Sorted pairs)
    {idxType : ℕ} (hdates : hasFlag idxType DATE_RANGE_KEY = false) (startKey endKey : List Char)
    (pair : List Char × IndexDatum) :
    pair ∈ (rangeStart pairs idxType startKey .within).visited .within endKey ↔
      pair ∈ pairs ∧ startKey ≤ pair.1 ∧ (FirstKey pairs startKey pair ∨ pair.1 ≤ endKey) := by
  cases hset : Cursor.setRange pairs startKey with
  | none =>
    have hall := setRange_eq_none_iff.mp hset
    rw [visited_within_of_none hdates startKey endKey hset]
    refine iff_of_false List.not_mem_nil ?_
    rintro ⟨hmem, hle, -⟩
    exact absurd (hall pair hmem) (not_lt.mpr hle)
  | some position =>
    have hat := at_of_setRange hsorted hset
    have hfirst : FirstKey pairs startKey position.pair := by
      refine ⟨hat.mem_iff.mpr (Or.inr (Or.inl rfl)), hat.pair_le, ?_⟩
      intro other hother hle
      rcases List.mem_cons.mp (hat.mem_from_iff.mpr ⟨hother, hle⟩) with rfl | hafter
      · exact le_rfl
      · exact (hat.after_lt other hafter).le
    have htake : pair ∈ position.after.takeWhile (fun pair ↦ ¬endKey < pair.1) ↔
        pair ∈ position.after ∧ pair.1 ≤ endKey := by
      convert hat.after_sorted.mem_takeWhile_iff endKey
    rw [visited_within hdates startKey endKey hset, List.mem_cons, htake]
    constructor
    · rintro (rfl | ⟨hafter, hle⟩)
      · exact ⟨hfirst.1, hfirst.2.1, Or.inl hfirst⟩
      · exact ⟨hat.mem_iff.mpr (Or.inr (Or.inr hafter)),
          hat.pair_le.trans (hat.after_lt pair hafter).le, Or.inr hle⟩
    · rintro ⟨hmem, hle, hcases⟩
      rcases List.mem_cons.mp (hat.mem_from_iff.mpr ⟨hmem, hle⟩) with heq | hafter
      · exact Or.inl heq
      · refine Or.inr ⟨hafter, hcases.resolve_left fun hother ↦ ?_⟩
        have hbefore := hother.2.2 position.pair hfirst.1 hfirst.2.1
        exact absurd (hat.after_lt pair hafter) (not_lt.mpr hbefore)

variable {searchstring : List Char}

theorem rangeKey_count_nonneg {idx : RangeIndex} {searchPtr : Option (List Char)} {count : ℤ}
    (h : rangeKey idx searchstring = .ok (searchPtr, count)) : 0 ≤ count := by
  rw [rangeKey] at h
  obtain ⟨key, -, h⟩ := bind_eq_ok.mp h
  cases key with
  | some key =>
    cases h
    exact le_rfl
  | none =>
    simp only at h
    split_ifs at h
    · obtain ⟨key', -, h⟩ := bind_eq_ok.mp h
      cases h
      exact zero_le_one
    · cases h
      exact le_rfl

/-- The keys are neither numbers nor dates. -/
structure StringKeyed (idxType : ℕ) : Prop where
  not_number : idxType &&& NUMBER_KEYS = 0
  not_date : hasFlag idxType DATE_KEY = false
  not_dateRange : hasFlag idxType DATE_RANGE_KEY = false

/-- The result lists, in order, the documents with a key within the bounds. -/
def WithinKeys (pairs : List (List Char × IndexDatum)) (lo hi : List Char)
    (result : Exec (Option WeightedResult)) : Prop :=
  ∃ set, result = .ok (some set) ∧ set.recordNums.Pairwise (· < ·) ∧
    ∀ record, record ∈ set.recordNums ↔ ∃ key, HasKey pairs record key ∧ lo ≤ key ∧ key ≤ hi

/-- There is a lower bound; a first key beyond the upper one counts for no document; and the documents
with a key that is passed over have also another key within the bounds. -/
structure KeysInRange (pairs : List (List Char × IndexDatum)) (lo hi : List Char) : Prop where
  ne_nil : lo ≠ []
  first : ∀ pair, FirstKey pairs lo pair → hi < pair.1 → ∀ record, ¬Counts pair record
  passedOver : ∀ record key, HasKey pairs record key → lo ≤ key → key ≤ hi → key.head? = some '>' →
    ∃ other, HasKey pairs record other ∧ lo ≤ other ∧ other ≤ hi ∧ other.head? ≠ some '>'

theorem rangeBounds_within {idxType : ℕ} (hdate : hasFlag idxType DATE_KEY = false)
    (hdates : hasFlag idxType DATE_RANGE_KEY = false) {lo : List Char} (hlo : '-' ∉ lo)
    (hi : List Char) :
    rangeBounds idxType .within (some (lo ++ '-' :: hi)) = .ok (some (lo, hi)) := by
  have hall : ∀ c ∈ lo, decide (c ≠ '-') = true := by
    intro c hc
    exact decide_eq_true fun heq ↦ hlo (heq ▸ hc)
  rw [rangeBounds, if_pos ⟨rfl, hdate⟩]
  simp only [deref, bind, Except.bind, hdates, Bool.false_eq_true, if_false]
  rw [List.dropWhile_append_of_pos hall, List.takeWhile_append_of_pos hall]
  simp

theorem boolRange_within_string (idx : RangeIndex) (htype : StringKeyed idx.idxType)
    {pairs : List (List Char × IndexDatum)} (hdb : idx.db = some pairs) (hfile : StringFile pairs)
    {lo hi : List Char} {count : ℤ}
    (hkey : rangeKey idx searchstring = .ok (some (lo ++ '-' :: hi), count)) (hlo : '-' ∉ lo) :
    WithinKeys pairs lo hi (boolRange idx (some searchstring) .within) ↔ KeysInRange pairs lo hi := by
  have hbounds := rangeBounds_within htype.not_date htype.not_dateRange hlo hi
  by_cases hne : lo = []
  · have hnone : boolRange idx (some searchstring) .within = .ok none := by
      simp only [boolRange, hdb, hkey, hbounds, bind, Except.bind, if_pos hne]
    apply iff_of_false
    · rintro ⟨set, hset, -⟩
      rw [hnone] at hset
      cases hset
    · exact fun h ↦ h.ne_nil hne
  · obtain ⟨set, hdone, hsorted, hmem⟩ := boolRange_spec idx hdb hfile.readable
      (fun h ↦ by rw [htype.not_dateRange] at h; cases h.2) (rangeKey_count_nonneg hkey) hkey hbounds hne
    simp only [mem_visited_within_iff hfile.sorted htype.not_dateRange] at hmem
    constructor
    · rintro ⟨set', hset', -, hexact⟩
      rw [hdone] at hset'
      cases hset'
      refine ⟨hne, ?_, ?_⟩
      · intro pair hfirst hbeyond record hcounts
        obtain ⟨key, ⟨block, hpair, -⟩, hle, hupper⟩ := (hexact record).mp
          ((hmem record).mpr ⟨pair, ⟨hfirst.1, hfirst.2.1, Or.inl hfirst⟩, hcounts⟩)
        have hleast := hfirst.2.2 _ hpair hle
        exact absurd (hleast.trans hupper) (not_le.mpr hbeyond)
      · intro record key hhas hle hupper _
        obtain ⟨pair, ⟨hpair, hlower, hcases⟩, hcounts⟩ :=
          (hmem record).mp ((hexact record).mpr ⟨key, hhas, hle, hupper⟩)
        obtain ⟨hother, hhead⟩ := counts_iff hcounts hpair
        refine ⟨pair.1, hother, hlower, ?_, hhead⟩
        rcases hcases with hfirst | hwithin
        · obtain ⟨block, hkeyPair, -⟩ := hhas
          exact (hfirst.2.2 _ hkeyPair hle).trans hupper
        · exact hwithin
    · intro h
      refine ⟨set, hdone, hsorted, fun record ↦ ?_⟩
      rw [hmem]
      constructor
      · rintro ⟨pair, ⟨hpair, hlower, hcases⟩, hcounts⟩
        refine ⟨pair.1, (counts_iff hcounts hpair).1, hlower, ?_⟩
        rcases hcases with hfirst | hwithin
        · exact not_lt.mp fun hbeyond ↦ h.first pair hfirst hbeyond record hcounts
        · exact hwithin
      · rintro ⟨key, hhas, hle, hupper⟩
        have hcounted (other : List Char) (hother : HasKey pairs record other) (hlower : lo ≤ other)
            (hwithin : other ≤ hi) (hhead : other.head? ≠ some '>') :
            ∃ pair, (pair ∈ pairs ∧ lo ≤ pair.1 ∧ (FirstKey pairs lo pair ∨ pair.1 ≤ hi)) ∧
              Counts pair record := by
          obtain ⟨pair, hpair, rfl, hcounts⟩ := hother.exists_counts hhead
          exact ⟨pair, ⟨hpair, hlower, Or.inr hwithin⟩, hcounts⟩
        by_cases hhead : key.head? = some '>'
        · obtain ⟨other, hother, hlower, hwithin, hhead'⟩ := h.passedOver record key hhas hle hupper hhead
          exact hcounted other hother hlower hwithin hhead'
        · exact hcounted key hhas hle hupper hhead

def rangeText (lo hi : ℤ) : List Char := decimalInt lo ++ '-' :: decimalInt hi

theorem sscanfInteger_rangeText {lo : ℤ} (hlo : IsInt lo) (hi : ℤ) :
    sscanfInteger (rangeText lo hi) = .ok (1, some lo) := by
  have hchars : rangeText lo hi =
      signChars (decide (lo < 0)) ++ decimal lo.natAbs ++ '-' :: decimalInt hi := by
    simp only [rangeText, decimalInt, signChars, decide_eq_true_eq]
    split_ifs <;> rfl
  have hdigits : ∀ c ∈ decimal lo.natAbs, c.isDigit = true := fun _ ↦ isDigit_of_mem_decimal
  have hspace := @dropWhile_isSpace_digits _ ('-' :: decimalInt hi) (decimal_ne_nil lo.natAbs) hdigits
    (decide (lo < 0))
  have hscan := @scanNumber_digits _ ('-' :: decimalInt hi) (decimal_ne_nil lo.natAbs) hdigits
    (by simp) (decide (lo < 0))
  have hvalue : signed (decide (lo < 0)) (Nat.ofDigitChars 10 (decimal lo.natAbs) 0) = lo := by
    rw [decimal, Nat.ofDigitChars_ten_toDigits, signed]
    simp only [decide_eq_true_eq]
    split_ifs <;> omega
  rw [hvalue] at hscan
  have hcheck : checkInt lo = .ok lo := if_pos hlo
  rw [sscanfInteger, hchars, hspace, if_neg (by simp), hscan]
  simp only [hcheck, bind, Except.bind]

/-- The result lists, in order, the documents with a value within the bounds. -/
def WithinNumbers (pairs : List (List Char × IndexDatum)) (lo hi : ℤ)
    (result : Exec (Option WeightedResult)) : Prop :=
  ∃ set, result = .ok (some set) ∧ set.recordNums.Pairwise (· < ·) ∧
    ∀ record, record ∈ set.recordNums ↔ ∃ n, HasValue pairs record n ∧ lo ≤ n ∧ n ≤ hi

/-- The least number of the index that is not below the lower bound. -/
def FirstNumber (pairs : List (List Char × IndexDatum)) (lo n : ℤ) : Prop :=
  (∃ datum, (paddedInt 10 n, datum) ∈ pairs) ∧ lo ≤ n ∧
    ∀ m datum, (paddedInt 10 m, datum) ∈ pairs → lo ≤ m → n ≤ m

/-- The lower bound is not negative; a first number beyond the upper bound is the value of no document;
and all documents with a value within the bounds have the first number as a value. -/
structure NumbersInRange (pairs : List (List Char × IndexDatum)) (lo hi : ℤ) : Prop where
  nonneg : 0 ≤ lo
  first : ∀ n, FirstNumber pairs lo n → hi < n → ∀ record, ¬HasValue pairs record n
  only : ∀ n, FirstNumber pairs lo n → ∀ record m, HasValue pairs record m → lo ≤ m → m ≤ hi →
    HasValue pairs record n

section Integers

variable {pairs : List (List Char × IndexDatum)} (hfile : IntegerFile pairs) {lo : ℤ} (hlo : IsInt lo)
  (hnonneg : 0 ≤ lo)

include hfile hlo hnonneg

theorem firstKey_iff_firstNumber {n : ℤ} {datum : IndexDatum} (hmem : (paddedInt 10 n, datum) ∈ pairs) :
    FirstKey pairs (paddedInt 10 lo) (paddedInt 10 n, datum) ↔ FirstNumber pairs lo n := by
  have hle {m : ℤ} (hm : IsInt m) : paddedInt 10 lo ≤ paddedInt 10 m ↔ lo ≤ m := by
    rw [← not_lt, paddedInt_lt_iff hm hlo hnonneg, not_lt]
  have hn := hfile.isInt hmem
  constructor
  · rintro ⟨-, hlower, hleast⟩
    refine ⟨⟨datum, hmem⟩, (hle hn).mp hlower, ?_⟩
    intro m other hother hbound
    have hkey := hleast _ hother ((hle (hfile.isInt hother)).mpr hbound)
    rw [← not_lt, paddedInt_lt_iff (hfile.isInt hother) hn (hnonneg.trans ((hle hn).mp hlower)),
      not_lt] at hkey
    exact hkey
  · rintro ⟨-, hlower, hleast⟩
    refine ⟨hmem, (hle hn).mpr hlower, ?_⟩
    intro other hother hbound
    by_cases hglobal : other.1 = GLOBAL_KEY
    · rw [hglobal]
      exact (paddedInt_lt_globalKey n).le
    · obtain ⟨m, hm, hkey, -⟩ := hfile.keys other hother hglobal
      have hpair : (paddedInt 10 m, other.2) ∈ pairs := by
        rw [← hkey]
        exact hother
      rw [hkey] at hbound ⊢
      rw [← not_lt, paddedInt_lt_iff hm hn (hnonneg.trans hlower), not_lt]
      exact hleast m other.2 hpair ((hle hm).mp hbound)

theorem exists_firstKey_iff (record : ℤ) :
    (∃ pair, FirstKey pairs (paddedInt 10 lo) pair ∧ Counts pair record) ↔
      ∃ n, FirstNumber pairs lo n ∧ HasValue pairs record n := by
  constructor
  · rintro ⟨pair, hfirst, hcounts⟩
    obtain ⟨hhas, hhead⟩ := counts_iff hcounts hfirst.1
    have hne : pair.1 ≠ GLOBAL_KEY := by
      rintro heq
      rw [heq] at hhead
      exact hhead rfl
    obtain ⟨n, -, hkey, -⟩ := hfile.keys pair hfirst.1 hne
    have hpair : (paddedInt 10 n, pair.2) ∈ pairs := by
      rw [← hkey]
      exact hfirst.1
    refine ⟨n, (firstKey_iff_firstNumber hfile hlo hnonneg hpair).mp ?_, ?_⟩
    · rw [← hkey]
      exact hfirst
    · rw [hkey] at hhas
      exact hhas
  · rintro ⟨n, hfirst, block, hmem, hposting⟩
    exact ⟨_, (firstKey_iff_firstNumber hfile hlo hnonneg hmem).mpr hfirst, head?_paddedInt_ne n, block,
      rfl, hposting⟩

theorem exists_firstNumber {m : ℤ} (hvalue : HasValue pairs record m) (hm : lo ≤ m) :
    ∃ n, FirstNumber pairs lo n := by
  obtain ⟨block, hmem, -⟩ := hvalue
  obtain ⟨position, hset⟩ := hfile.exists_position lo
  have hat := at_of_setRange hfile.sorted hset
  have hbound : paddedInt 10 lo ≤ paddedInt 10 m := by
    rw [← not_lt, paddedInt_lt_iff (hfile.isInt hmem) hlo hnonneg, not_lt]
    exact hm
  have hfirst : FirstKey pairs (paddedInt 10 lo) position.pair := by
    refine ⟨hat.mem_iff.mpr (Or.inr (Or.inl rfl)), hat.pair_le, ?_⟩
    intro other hother hle
    rcases List.mem_cons.mp (hat.mem_from_iff.mpr ⟨hother, hle⟩) with rfl | hafter
    · exact le_rfl
    · exact (hat.after_lt other hafter).le
  have hne : position.pair.1 ≠ GLOBAL_KEY := by
    intro heq
    have hle := hfirst.2.2 _ hmem hbound
    rw [heq] at hle
    exact absurd (paddedInt_lt_globalKey m) (not_lt.mpr hle)
  obtain ⟨n, -, hkey, -⟩ := hfile.keys _ hfirst.1 hne
  have hpair : (paddedInt 10 n, position.pair.2) ∈ pairs := by
    rw [← hkey]
    exact hfirst.1
  refine ⟨n, (firstKey_iff_firstNumber hfile hlo hnonneg hpair).mp ?_⟩
  rw [← hkey]
  exact hfirst

end Integers

section IntegerSearch

variable (idx : RangeIndex) (htype : IntegerKeyed idx.idxType)
  (hdate : hasFlag idx.idxType DATE_KEY = false)
  (hdates : hasFlag idx.idxType DATE_RANGE_KEY = false)
  {pairs : List (List Char × IndexDatum)} (hdb : idx.db = some pairs)

include htype hdate hdates hdb

theorem boolRange_within_of_neg {lo : ℤ} (hvalue : sscanfInteger searchstring = .ok (1, some lo))
    (hneg : lo < 0) (set : WeightedResult) :
    boolRange idx (some searchstring) .within ≠ .ok (some set) := by
  have hkey := rangeKey_integer htype hvalue
  by_cases hshort : -(10 ^ 9) < lo
  · rw [if_pos hshort] at hkey
    have hbounds : rangeBounds idx.idxType .within (some (paddedInt 10 lo)) =
        .ok (some ([], zeroPadded (10 - 1) lo.natAbs)) := by
      rw [rangeBounds, if_pos ⟨rfl, hdate⟩, paddedInt_of_neg hneg]
      simp only [deref, bind, Except.bind, hdates, Bool.false_eq_true, if_false]
      rfl
    simp only [boolRange, hdb, hkey, hbounds, bind, Except.bind, if_true]
    intro h
    cases h
  · rw [if_neg hshort] at hkey
    simp only [boolRange, hdb, hkey, bind, Except.bind]
    intro h
    cases h

theorem boolRange_within_of_nonneg (hfile : IntegerFile pairs) {lo : ℤ}
    (hvalue : sscanfInteger searchstring = .ok (1, some lo)) (hnonneg : 0 ≤ lo) :
    ∃ set, boolRange idx (some searchstring) .within = .ok (some set) ∧
      set.recordNums.Pairwise (· < ·) ∧ ∀ record, record ∈ set.recordNums ↔
        ∃ n, FirstNumber pairs lo n ∧ HasValue pairs record n := by
  have hlo := isInt_of_sscanfInteger hvalue
  have hkey := rangeKey_integer htype hvalue
  rw [if_pos (by omega)] at hkey
  have hdigits : ∀ c ∈ paddedInt 10 lo, c ≠ '-' := by
    intro c hc heq
    rw [paddedInt_of_nonneg hnonneg] at hc
    have hdigit := isDigit_of_mem_zeroPadded hc
    rw [heq] at hdigit
    exact absurd hdigit (by decide)
  have hbounds : rangeBounds idx.idxType .within (some (paddedInt 10 lo)) =
      .ok (some (paddedInt 10 lo, paddedInt 10 lo)) := by
    have hdrop : (paddedInt 10 lo).dropWhile (fun c ↦ decide (c ≠ '-')) = [] :=
      List.dropWhile_eq_nil_iff.mpr fun c hc ↦ decide_eq_true (hdigits c hc)
    rw [rangeBounds, if_pos ⟨rfl, hdate⟩]
    simp only [deref, bind, Except.bind, hdates, Bool.false_eq_true, if_false, hdrop]
  obtain ⟨set, hdone, hsorted, hmem⟩ := boolRange_spec idx hdb hfile.readable
    (fun h ↦ by rw [hdates] at h; cases h.2) le_rfl hkey hbounds (paddedInt_ne_nil lo)
  refine ⟨set, hdone, hsorted, fun record ↦ ?_⟩
  rw [hmem, ← exists_firstKey_iff hfile hlo hnonneg]
  apply exists_congr
  intro pair
  rw [mem_visited_within_iff hfile.sorted hdates]
  refine and_congr_left fun _ ↦ ⟨?_, fun hfirst ↦ ⟨hfirst.1, hfirst.2.1, Or.inl hfirst⟩⟩
  rintro ⟨hpair, hlower, hfirst | hupper⟩
  · exact hfirst
  · exact ⟨hpair, hlower, fun other _ hother ↦ hupper.trans hother⟩

theorem boolRange_within_integer (hfile : IntegerFile pairs) {lo : ℤ} (hlo : IsInt lo) (hi : ℤ) :
    WithinNumbers pairs lo hi (boolRange idx (some (rangeText lo hi)) .within) ↔
      NumbersInRange pairs lo hi := by
  have hvalue := sscanfInteger_rangeText hlo hi
  rcases lt_or_ge lo 0 with hneg | hnonneg
  · apply iff_of_false
    · rintro ⟨set, hset, -⟩
      exact boolRange_within_of_neg idx htype hdate hdates hdb hvalue hneg set hset
    · exact fun h ↦ absurd h.nonneg (not_le.mpr hneg)
  · obtain ⟨set, hdone, hsorted, hmem⟩ :=
      boolRange_within_of_nonneg idx htype hdate hdates hdb hfile hvalue hnonneg
    constructor
    · rintro ⟨set', hset', -, hexact⟩
      rw [hdone] at hset'
      cases hset'
      refine ⟨hnonneg, ?_, ?_⟩
      · intro n hfirst hbeyond record hhas
        obtain ⟨m, ⟨block, hpair, -⟩, hle, hupper⟩ :=
          (hexact record).mp ((hmem record).mpr ⟨n, hfirst, hhas⟩)
        have hleast := hfirst.2.2 m _ hpair hle
        omega
      · intro n hfirst record m hhas hle hupper
        obtain ⟨other, hother, hhas'⟩ :=
          (hmem record).mp ((hexact record).mpr ⟨m, hhas, hle, hupper⟩)
        obtain ⟨⟨datum, hpair⟩, hlower, hleast⟩ := hfirst
        obtain ⟨⟨datum', hpair'⟩, hlower', hleast'⟩ := hother
        have hsame : other = n :=
          le_antisymm (hleast' n datum hpair hlower) (hleast other datum' hpair' hlower')
        rwa [hsame] at hhas'
    · intro h
      refine ⟨set, hdone, hsorted, fun record ↦ ?_⟩
      rw [hmem]
      constructor
      · rintro ⟨n, hfirst, hhas⟩
        exact ⟨n, hhas, hfirst.2.1, not_lt.mp fun hbeyond ↦ h.first n hfirst hbeyond record hhas⟩
      · rintro ⟨m, hhas, hle, hupper⟩
        obtain ⟨n, hfirst⟩ := exists_firstNumber hfile hlo hnonneg hhas hle
        exact ⟨n, hfirst, h.only n hfirst record m hhas hle hupper⟩

end IntegerSearch

/-- A search within a range finds the documents with a key within it under these conditions, which differ
for strings and for integers. -/
theorem seBoolRange_within_iff (spatial : Exec (Option WeightedResult)) (idx : RangeIndex)
    {pairs : List (List Char × IndexDatum)} (hdb : idx.db = some pairs) :
    (StringKeyed idx.idxType → StringFile pairs → ∀ searchstring lo hi count,
        rangeKey idx searchstring = .ok (some (lo ++ '-' :: hi), count) → '-' ∉ lo →
          (WithinKeys pairs lo hi (seBoolRange spatial idx (some searchstring) 104) ↔
            KeysInRange pairs lo hi)) ∧
      (IntegerKeyed idx.idxType → hasFlag idx.idxType DATE_KEY = false →
        hasFlag idx.idxType DATE_RANGE_KEY = false → IntegerFile pairs → ∀ lo hi, IsInt lo →
          (WithinNumbers pairs lo hi (seBoolRange spatial idx (some (rangeText lo hi)) 104) ↔
            NumbersInRange pairs lo hi)) :=
  ⟨fun htype hfile _ _ _ _ hkey hlo ↦ boolRange_within_string idx htype hdb hfile hkey hlo,
    fun htype hdate hdates hfile _ hi hlo ↦
      boolRange_within_integer idx htype hdate hdates hdb hfile hlo hi⟩

def stringIndex (pairs : List (List Char × IndexDatum)) : RangeIndex where
  idxType := 0
  routines := ⟨fun _ ↦ .ok none, fun text ↦ some text⟩
  unstopped := ⟨fun _ ↦ .ok none, fun text ↦ some text⟩
  stopwordsFile := false
  compParent := none
  db := some pairs

/-- The document 1 has the key `b`, and the document 2 the key `x`. -/
def twoKeys : List (List Char × IndexDatum) :=
  [(GLOBAL_KEY, .globalData ⟨2, 2, 3⟩), (['b'], onePosting 1), (['x'], onePosting 2)]

theorem stringFile_twoKeys : StringFile twoKeys where
  sorted := by decide +kernel
  keys := by
    simp only [twoKeys, List.mem_cons, List.not_mem_nil, or_false, forall_eq_or_imp, forall_eq]
    exact ⟨fun hne ↦ absurd rfl hne, fun _ ↦ sound_onePosting 1, fun _ ↦ sound_onePosting 2⟩

theorem stringKeyed_stringIndex (pairs : List (List Char × IndexDatum)) :
    StringKeyed (stringIndex pairs).idxType := by
  have htype : (stringIndex pairs).idxType = 0 := rfl
  rw [htype]
  exact ⟨by decide, by decide, by decide⟩

/-- The keys from `a` to `c` and the numbers from 3 to 5. -/
theorem seBoolRange_within_figures :
    (WithinKeys twoKeys ['a'] ['c']
        (seBoolRange (.ok none) (stringIndex twoKeys) (some ['a', '-', 'c']) 104) ↔
      KeysInRange twoKeys ['a'] ['c']) ∧
    (WithinNumbers threeValues 3 5
        (seBoolRange (.ok none) (integerIndex threeValues) (some (rangeText 3 5)) 104) ↔
      NumbersInRange threeValues 3 5) :=
  ⟨(seBoolRange_within_iff (.ok none) (stringIndex twoKeys) rfl).1 (stringKeyed_stringIndex _)
      stringFile_twoKeys _ ['a'] ['c'] 0 rfl (by decide),
    (seBoolRange_within_iff (.ok none) (integerIndex threeValues) rfl).2 (integerKeyed_integerIndex _)
      rfl rfl integerFile_threeValues 3 5 (by decide)⟩

/-- No key lies between `d` and `e`, but the document of the next key is found. -/
theorem seBoolRange_within_beyond :
    ¬WithinKeys twoKeys ['d'] ['e']
      (seBoolRange (.ok none) (stringIndex twoKeys) (some ['d', '-', 'e']) 104) := by
  have hrun : (seBoolRange (.ok none) (stringIndex twoKeys) (some ['d', '-', 'e']) 104).map
      (Option.map WeightedResult.recordNums) = .ok (some [2]) := by
    decide +kernel
  rintro ⟨set, hset, -, hmem⟩
  rw [hset] at hrun
  have hrecords : set.recordNums = [2] := Option.some.inj (Except.ok.inj hrun)
  have htwo : (2 : ℤ) ∈ set.recordNums := by simp [hrecords]
  obtain ⟨key, ⟨block, hpair, -⟩, hlower, hupper⟩ := (hmem 2).mp htwo
  simp only [twoKeys, List.mem_cons, List.not_mem_nil, or_false, Prod.mk.injEq] at hpair
  rcases hpair with ⟨rfl, -⟩ | ⟨rfl, -⟩ | ⟨rfl, -⟩
  · exact absurd hlower (by decide)
  · exact absurd hlower (by decide)
  · exact absurd hupper (by decide)

end Cheshire.Search
