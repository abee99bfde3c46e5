import Cheshire.Index.Dates
import Cheshire.Search.WithinRange

/-!
# Searches for ranges of dates

An index of date ranges has keys with the two dates of a range.  A search within a range starts at the first
key from the year 0 on, whatever the query is, stops behind the second date of the query, and tests every
key on the way for an overlap.  All comparisons are comparisons of strings.
-/

namespace Cheshire.Search

open Lib Lib.Cursor Lib.DigitOrder Index
open Dates (DateTime dateKey)

/-- The parts of a date, the largest one first: dates are in the order of these. -/
def dateFields (date : DateTime) : List ℤ := [date.year, date.month, date.day, date.hour, date.minute]

structure IsDate (date : DateTime) : Prop where
  year : -(2 ^ 31) ≤ date.year ∧ date.year ≤ 2 ^ 31 - 1
  month : 0 ≤ date.month ∧ date.month ≤ 12
  day : 0 ≤ date.day ∧ date.day ≤ 31
  hour : 0 ≤ date.hour ∧ date.hour ≤ 24
  minute : 0 ≤ date.minute ∧ date.minute ≤ 59

structure DateRange where
  start : DateTime
  stop : DateTime
  scale : ℤ
  start_isDate : IsDate start
  stop_isDate : IsDate stop
  ordered : dateFields start ≤ dateFields stop
  scale_bounds : 0 ≤ scale ∧ scale < 10 ^ 5

def DateRange.key (r : DateRange) : List Char := Dates.rangeKey r.start r.stop r.scale

/-- Neither range ends before the other one starts. -/
def DateRange.Overlaps (r q : DateRange) : Prop :=
  dateFields r.start ≤ dateFields q.stop ∧ dateFields q.start ≤ dateFields r.stop

/-- The file of an index of date ranges: the key of the global data, and keys of ranges with sound
postings. -/
structure DateRangeFile (pairs : List (List Char × IndexDatum)) : Prop where
  sorted : Sorted pairs
  globalData : ∃ pair ∈ pairs, pair.1 = GLOBAL_KEY
  keys : ∀ pair ∈ pairs, pair.1 ≠ GLOBAL_KEY →
    ∃ r : DateRange, pair.1 = r.key ∧ ∃ block, pair.2 = .postings block ∧ block.Sound

def HasRange (pairs : List (List Char × IndexDatum)) (record : ℤ) (r : DateRange) : Prop :=
  HasKey pairs record r.key

theorem paddedInt_append_lt_iff {width : ℕ} {m n : ℤ} {xs ys : List Char} (hwidth : 0 < width)
    (hm : 0 ≤ m) (hm' : m < 10 ^ width) (hn : 0 ≤ n) (hn' : n < 10 ^ width) :
    paddedInt width m ++ xs < paddedInt width n ++ ys ↔ m < n ∨ m = n ∧ xs < ys := by
  have hmlt : m.natAbs < 10 ^ width := by zify; rwa [abs_of_nonneg hm]
  have hnlt : n.natAbs < 10 ^ width := by zify; rwa [abs_of_nonneg hn]
  have hlength : (zeroPadded width m.natAbs).length = (zeroPadded width n.natAbs).length := by
    rw [length_zeroPadded hwidth hmlt, length_zeroPadded hwidth hnlt]
  have hlt : m.natAbs < n.natAbs ↔ m < n := by
    clear hmlt hnlt hm' hn' hlength
    omega
  have heq : m.natAbs = n.natAbs ↔ m = n := by
    clear hmlt hnlt hm' hn' hlength hlt
    omega
  rw [paddedInt_of_nonneg hm, paddedInt_of_nonneg hn, append_lt_append_iff hlength,
    zeroPadded_lt_iff hwidth hmlt hnlt, zeroPadded_inj, hlt, heq]

theorem blank_cons_lt_iff {xs ys : List Char} : ' ' :: xs < ' ' :: ys ↔ xs < ys := by
  simp

section Keys

variable {d e : DateTime} (hd : IsDate d) (he : IsDate e) {xs ys : List Char}

include hd he

theorem dateKey_append_lt_iff (hyear : 0 ≤ d.year) (hyear' : 0 ≤ e.year) :
    dateKey d ++ xs < dateKey e ++ ys ↔ dateFields d < dateFields e ∨ d = e ∧ xs < ys := by
  obtain ⟨hbound, hmonth, hday, hhour, hminute⟩ := hd
  obtain ⟨hbound', hmonth', hday', hhour', hminute'⟩ := he
  have htwo : (0 : ℕ) < 2 := by decide
  simp only [dateKey, List.append_assoc, List.cons_append]
  rw [paddedInt_append_lt_iff (by decide) hyear (by omega) hyear' (by omega), blank_cons_lt_iff,
    paddedInt_append_lt_iff htwo hmonth.1 (by omega) hmonth'.1 (by omega), blank_cons_lt_iff,
    paddedInt_append_lt_iff htwo hday.1 (by omega) hday'.1 (by omega), blank_cons_lt_iff,
    paddedInt_append_lt_iff htwo hhour.1 (by omega) hhour'.1 (by omega), blank_cons_lt_iff,
    paddedInt_append_lt_iff htwo hminute.1 (by omega) hminute'.1 (by omega)]
  obtain ⟨year, month, day, hour, minute⟩ := d
  obtain ⟨year', month', day', hour', minute'⟩ := e
  simp only [dateFields, List.cons_lt_cons_iff, DateTime.mk.injEq, List.not_lt_nil, and_false, or_false,
    and_or_left, or_assoc, and_assoc]

omit hd he in
theorem dateKey_append_lt_of_neg (hyear : d.year < 0) (hyear' : 0 ≤ e.year) :
    dateKey d ++ xs < dateKey e ++ ys := by
  simp only [dateKey, List.append_assoc, List.cons_append]
  exact paddedInt_append_lt_of_sign hyear hyear'

omit hd he in
theorem dateFields_lt_of_year_lt (h : d.year < e.year) : dateFields d < dateFields e := by
  rw [dateFields, dateFields, List.cons_lt_cons_iff]
  exact .inl h

omit hd he in
theorem year_le_of_dateFields_le (h : dateFields d ≤ dateFields e) : d.year ≤ e.year :=
  not_lt.mp fun hlt ↦ absurd (dateFields_lt_of_year_lt hlt) (not_lt.mpr h)

end Keys

theorem scale_lt_year_iff {scale year : ℤ} {xs : List Char} (hscale : 0 ≤ scale ∧ scale < 10 ^ 5)
    (hyear : 0 ≤ year ∧ year ≤ 2 ^ 31 - 1) :
    paddedInt 5 scale < paddedInt 10 year ++ xs ↔ ¬year / 100000 < scale := by
  have hdigits : ∀ c ∈ zeroPadded 10 year.natAbs, c.isDigit = true := fun c ↦ isDigit_of_mem_zeroPadded
  have hten : (zeroPadded 10 year.natAbs).length = 10 := length_zeroPadded (by decide) (by omega)
  have hfive : (zeroPadded 5 scale.natAbs).length = 5 := length_zeroPadded (by decide) (by omega)
  -- the first five digits and the others
  obtain ⟨first, others, hsplit, hfirst⟩ : ∃ first others,
      zeroPadded 10 year.natAbs = first ++ others ∧ first.length = 5 :=
    ⟨_, _, (List.take_append_drop 5 _).symm, by rw [List.length_take, hten]; rfl⟩
  rw [hsplit, List.forall_mem_append] at hdigits
  have hothers : others.length = 5 := by
    rw [hsplit, List.length_append] at hten
    omega
  have hvalue : 10 ^ 5 * Nat.ofDigitChars 10 first 0 + Nat.ofDigitChars 10 others 0 = year.natAbs := by
    have hparts : Nat.ofDigitChars 10 others (Nat.ofDigitChars 10 first 0) =
        10 ^ others.length * Nat.ofDigitChars 10 first 0 + Nat.ofDigitChars 10 others 0 :=
      Nat.ofDigitChars_eq_ofDigitChars_zero
    rw [← ofDigitChars_zeroPadded 10 year.natAbs, hsplit, Nat.ofDigitChars_append, hparts, hothers]
  have hsmall := ofDigitChars_lt others hdigits.2
  rw [hothers] at hsmall
  have hlength : (zeroPadded 5 scale.natAbs).length = first.length := hfive.trans hfirst.symm
  have hlt := digits_lt_iff (fun c hc ↦ isDigit_of_mem_zeroPadded hc) hdigits.1 hlength
  have hgt := digits_lt_iff hdigits.1 (fun c hc ↦ isDigit_of_mem_zeroPadded hc) hlength.symm
  have heq := eq_iff_of_lt_iff hlt hgt
  rw [ofDigitChars_zeroPadded] at hlt heq
  have hrest : [] < others ++ xs := by
    obtain ⟨c, others', rfl⟩ := List.exists_cons_of_length_eq_add_one hothers
    exact List.nil_lt_cons c _
  rw [← List.append_nil (paddedInt 5 scale), paddedInt_of_nonneg hscale.1, paddedInt_of_nonneg hyear.1,
    hsplit, List.append_assoc, append_lt_append_iff hlength, hlt, heq]
  simp only [hrest, and_true]
  omega

theorem length_dateKey {date : DateTime} (hdate : IsDate date) :
    (dateKey date).length = (paddedInt 10 date.year).length + 12 := by
  have htwo : ∀ value : ℤ, 0 ≤ value ∧ value ≤ 99 → (paddedInt 2 value).length = 2 := by
    intro value hvalue
    rw [paddedInt_of_nonneg hvalue.1]
    exact length_zeroPadded (by decide) (by omega)
  obtain ⟨-, hmonth, hday, hhour, hminute⟩ := hdate
  simp only [dateKey, List.length_append, List.length_cons, htwo date.month (by omega),
    htwo date.day (by omega), htwo date.hour (by omega), htwo date.minute (by omega)]

theorem length_paddedInt_ten {year : ℤ} (hyear : -(2 ^ 31) ≤ year ∧ year ≤ 2 ^ 31 - 1) :
    (paddedInt 10 year).length = if -(10 ^ 9) < year then 10 else 11 := by
  rcases lt_or_ge year 0 with hneg | hnonneg
  · rw [paddedInt_of_neg hneg, List.length_cons]
    split
    · rw [length_zeroPadded (by decide) (by omega)]
    · have hlong : (decimal year.natAbs).length = 10 := by
        have hle : (decimal year.natAbs).length ≤ 10 := (length_decimal_le_iff (by decide)).mpr (by omega)
        have hgt : ¬(decimal year.natAbs).length ≤ 9 := by
          rw [length_decimal_le_iff (by decide)]
          omega
        omega
      rw [zeroPadded_of_le (by omega), hlong]
  · rw [paddedInt_of_nonneg hnonneg, length_zeroPadded (by decide) (by omega), if_pos (by omega)]

namespace DateRange

variable (r q : DateRange)

theorem key_eq : r.key =
    dateKey r.start ++ ' ' :: (dateKey r.stop ++ ' ' :: paddedInt 5 r.scale) := rfl

/-- The start of the query; a year of ten digits before the year 0 moves it. -/
def Placed : Prop := -(10 ^ 9) < q.start.year

theorem length_start_of_placed (h : q.Placed) : (dateKey q.start).length = 22 := by
  rw [length_dateKey q.start_isDate, length_paddedInt_ten q.start_isDate.year]
  exact congrArg (· + 12) (if_pos h)

theorem length_key_ge : 23 ≤ r.key.length := by
  have hlength := length_dateKey r.start_isDate
  rw [length_paddedInt_ten r.start_isDate.year] at hlength
  rw [key_eq, List.length_append, List.length_cons]
  split at hlength <;> omega

theorem take_key (h : q.Placed) : q.key.take 22 = dateKey q.start := by
  rw [key_eq, ← q.length_start_of_placed h, List.take_left]

theorem drop_key (h : q.Placed) : q.key.drop 23 = dateKey q.stop ++ ' ' :: paddedInt 5 q.scale := by
  have hlength : (dateKey q.start ++ [' ']).length = 23 := by
    rw [List.length_append, q.length_start_of_placed h]
    rfl
  rw [key_eq, List.append_cons, ← hlength, List.drop_left]

theorem drop_key_of_not_placed (h : ¬q.Placed) : ∃ others, q.key.drop 23 = ' ' :: others := by
  have hlength : (dateKey q.start).length = 23 := by
    rw [length_dateKey q.start_isDate, length_paddedInt_ten q.start_isDate.year]
    exact congrArg (· + 12) (if_neg h)
  exact ⟨_, by rw [key_eq, ← hlength, List.drop_left]⟩

variable {r q}

theorem stop_year_nonneg (hr : 0 ≤ r.start.year) : 0 ≤ r.stop.year :=
  hr.trans (year_le_of_dateFields_le r.ordered)

theorem drop_key_lt_iff (hq : q.Placed) (hr : 0 ≤ r.start.year) :
    q.key.drop 23 < r.key ↔
      ¬(dateFields r.start ≤ dateFields q.stop ∧ (r.start = q.stop → r.stop.year / 100000 < q.scale)) := by
  rw [q.drop_key hq, key_eq]
  rcases lt_or_ge q.stop.year 0 with hneg | hnonneg
  · have hlt := dateFields_lt_of_year_lt (hneg.trans_le hr)
    exact iff_of_true (dateKey_append_lt_of_neg hneg hr) fun h ↦ absurd h.1 (not_le.mpr hlt)
  · have hstop : paddedInt 5 q.scale < dateKey r.stop ++ ' ' :: paddedInt 5 r.scale ↔
        ¬r.stop.year / 100000 < q.scale := by
      simp only [dateKey, List.append_assoc, List.cons_append]
      exact scale_lt_year_iff q.scale_bounds ⟨stop_year_nonneg hr, r.stop_isDate.year.2⟩
    rw [dateKey_append_lt_iff q.stop_isDate r.start_isDate hnonneg hr, blank_cons_lt_iff, hstop, not_and_or,
      not_le, Classical.not_imp, eq_comm]

theorem take_key_le_iff (hq : q.Placed) (hr : 0 ≤ r.start.year) :
    q.key.take 22 ≤ r.key.drop 23 ↔ dateFields q.start ≤ dateFields r.stop := by
  have hplaced : r.Placed := lt_of_lt_of_le (by decide) hr
  have hstop := stop_year_nonneg hr
  rw [q.take_key hq, r.drop_key hplaced, ← not_lt, ← not_lt, not_iff_not,
    ← List.append_nil (dateKey q.start)]
  rcases lt_or_ge q.start.year 0 with hneg | hnonneg
  · have hlt := dateFields_lt_of_year_lt (hneg.trans_le hstop)
    have hkey := @dateKey_append_lt_of_neg q.start r.stop [] (' ' :: paddedInt 5 r.scale) hneg hstop
    exact iff_of_false (not_lt.mpr hkey.le) (not_lt.mpr hlt.le)
  · rw [dateKey_append_lt_iff r.stop_isDate q.start_isDate hstop hnonneg]
    simp

theorem noDate_le_key_iff : NO_DATE ≤ r.key ↔ 0 ≤ r.start.year := by
  have hzero : NO_DATE = dateKey .zero ++ [] := by decide
  have hdate : IsDate .zero := ⟨by decide, by decide, by decide, by decide, by decide⟩
  rw [← not_lt, ← not_lt, not_iff_not, hzero, key_eq]
  rcases lt_or_ge r.start.year 0 with hneg | hnonneg
  · exact iff_of_true (dateKey_append_lt_of_neg hneg le_rfl) hneg
  · rw [dateKey_append_lt_iff r.start_isDate hdate hnonneg le_rfl]
    have hle : ¬dateFields r.start < dateFields .zero := by
      obtain ⟨-, hmonth, hday, hhour, hminute⟩ := r.start_isDate
      simp only [dateFields, DateTime.zero, List.cons_lt_cons_iff, List.not_lt_nil, not_lt.mpr hnonneg,
        not_lt.mpr hmonth.1, not_lt.mpr hday.1, not_lt.mpr hhour.1, not_lt.mpr hminute.1, and_false,
        or_false, not_false_iff]
    simp [hle, hnonneg]

end DateRange

section Walk

variable {pairs : List (List Char × IndexDatum)} (hpairs : ReadablePairs pairs) {idxType : ℕ}
  {startKey endKey : List Char} {adds : List Char × IndexDatum → Bool}
  (hadd : ∀ pair ∈ pairs, okToAdd idxType .within startKey endKey pair.1 = .ok (adds pair))

include hpairs hadd

theorem rangeStep_dates {position : Position (List Char) IndexDatum} (hposition : position.pairs = pairs)
    {table : Table ℤ TempResults} {records : ℤ → Prop} (h : Gathered table records) :
    ∃ table', rangeStep idxType .within startKey endKey ⟨some position, position.pair.1, true⟩ table =
        .ok table' ∧
      Gathered table' fun record ↦ records record ∨ (adds position.pair = true ∧
        Counts position.pair record) := by
  have hmem : position.pair ∈ pairs := by
    rw [← hposition, Position.pairs]
    simp
  obtain ⟨table', hstep, hgathered⟩ :=
    rangeStep_of_okToAdd hpairs hposition (fun _ ↦ rfl) (hadd _ hmem) h
  refine ⟨table', hstep, hgathered.congr fun record ↦ ?_⟩
  simp only [and_true]

/-- The walk gathers the pairs that pass the test; behind the key at which it stops there are none. -/
theorem rangeLoop_dates (hsorted : Sorted pairs) (hend : ∀ pair, adds pair = true → ¬endKey < pair.1)
    (fuel : ℕ) {position : Position (List Char) IndexDatum} (hposition : position.pairs = pairs)
    (hfuel : position.after.length < fuel) {table : Table ℤ TempResults} {records : ℤ → Prop}
    (h : Gathered table records) :
    ∃ table', rangeLoop pairs idxType .within startKey endKey .next true fuel
        ⟨some position, position.pair.1, true⟩ table = .ok table' ∧
      Gathered table' fun record ↦ records record ∨
        ∃ pair ∈ position.pair :: position.after, adds pair = true ∧ Counts pair record := by
  induction fuel generalizing position table records with
  | zero => omega
  | succ fuel ih =>
    obtain ⟨table', hstep, hgathered⟩ := rangeStep_dates hpairs hadd hposition h
    rw [rangeLoop, hstep]
    simp only [bind, Except.bind]
    cases hmove : Cursor.move pairs .next (some position) with
    | none =>
      have hafter : position.after = [] := (position.step_eq_none_iff .next).mp hmove
      exact ⟨table', rfl, hgathered.congr fun record ↦ by simp [hafter]⟩
    | some next =>
      have hnext : position.step .next = some next := hmove
      have hafter : position.after = next.pair :: next.after := Position.ahead_of_step hnext
      simp only
      by_cases hstop : endKey < next.pair.1
      · rw [if_pos (.inr ⟨trivial, hstop⟩)]
        refine ⟨table', rfl, hgathered.congr fun record ↦ or_congr_right ?_⟩
        rw [List.exists_mem_cons_iff, or_iff_left]
        rintro ⟨pair, hpair, hadds, -⟩
        have hlast : ∀ pair ∈ next.after, next.pair.1 < pair.1 := by
          rw [← hposition, Position.pairs, hafter] at hsorted
          exact (List.pairwise_cons.mp (List.pairwise_cons.mp
            (List.pairwise_append.mp hsorted).2.1).2).1
        rw [hafter] at hpair
        rcases List.mem_cons.mp hpair with rfl | hpair
        · exact hend _ hadds hstop
        · exact hend _ hadds (hstop.trans (hlast pair hpair))
      · rw [if_neg (by simp [hstop])]
        have hpairs' : next.pairs = pairs := (Position.pairs_of_step hnext).trans hposition
        rw [hafter, List.length_cons] at hfuel
        obtain ⟨table'', hloop, hdone⟩ := ih hpairs' (by omega) hgathered
        refine ⟨table'', hloop, hdone.congr fun record ↦ ?_⟩
        rw [hafter, or_assoc]
        simp only [List.mem_cons, exists_eq_or_imp]

end Walk

namespace DateRange

variable (r q : DateRange)

/-- The walk comes to the range, and its tests let it pass where it overlaps the query. -/
def Reached : Prop :=
  0 ≤ r.start.year ∧ q.Placed ∧ (r.start = q.stop → r.stop.year / 100000 < q.scale)

def passes (pair : List Char × IndexDatum) : Bool :=
  decide ¬q.key.drop 23 < pair.1 && decide (q.key.take 22 ≤ pair.1.drop 23)

theorem head?_key : r.key.head? ≠ some '>' := by
  obtain ⟨first, others, hchars⟩ := List.exists_cons_of_ne_nil (paddedInt_ne_nil r.start.year)
  have hne := head?_paddedInt_ne r.start.year
  rw [key_eq, dateKey, List.append_assoc, List.head?_append, hchars]
  rw [hchars] at hne
  exact hne

variable {r q}

theorem drop_key_lt_of_not_placed (hq : ¬q.Placed) (hr : 0 ≤ r.start.year) : q.key.drop 23 < r.key := by
  obtain ⟨others, hdrop⟩ := q.drop_key_of_not_placed hq
  obtain ⟨first, digits, hdigits, hfirst⟩ := exists_digit_zeroPadded 10 r.start.year.natAbs
  have hbound : '0'.toNat ≤ first.toNat := (digit_bounds hfirst).1
  rw [hdrop, key_eq, dateKey, List.append_assoc, paddedInt_of_nonneg hr, hdigits, List.cons_append,
    List.cons_lt_cons_iff]
  exact .inl (lt_of_lt_of_le (by decide : ' ' < '0') hbound)

theorem passes_iff {datum : IndexDatum} (hr : 0 ≤ r.start.year) :
    q.passes (r.key, datum) = true ↔ r.Overlaps q ∧ r.Reached q := by
  rw [passes, Bool.and_eq_true, decide_eq_true_eq, decide_eq_true_eq, Overlaps, Reached]
  by_cases hq : q.Placed
  · rw [drop_key_lt_iff hq hr, take_key_le_iff hq hr, not_not]
    tauto
  · exact iff_of_false (fun h ↦ h.1 (drop_key_lt_of_not_placed hq hr)) fun h ↦ hq h.2.2.1

end DateRange

section Query

variable (idx : RangeIndex) {pairs : List (List Char × IndexDatum)} (hdb : idx.db = some pairs)
  (hdates : hasFlag idx.idxType DATE_RANGE_KEY = true) (hdate : hasFlag idx.idxType DATE_KEY = false)
  (hfile : DateRangeFile pairs) {searchstring : List Char} {q : DateRange} {count : ℤ}
  (hkey : rangeKey idx searchstring = .ok (some q.key, count))

include hdb hdates hdate hfile hkey

theorem boolRange_dates :
    ∃ set, boolRange idx (some searchstring) .within = .ok (some set) ∧
      set.recordNums.Pairwise (· < ·) ∧ ∀ record, record ∈ set.recordNums ↔
        ∃ pair ∈ pairs, NO_DATE ≤ pair.1 ∧ q.passes pair = true ∧ Counts pair record := by
  have hreadable : ReadablePairs pairs := fun pair hmem hhead ↦ by
    obtain ⟨-, -, hblock⟩ := hfile.keys pair hmem fun heq ↦ hhead (heq ▸ rfl)
    exact hblock
  have hlong : ∀ pair ∈ pairs, 23 ≤ pair.1.length := fun pair hmem ↦ by
    by_cases hglobal : pair.1 = GLOBAL_KEY
    · rw [hglobal]
      decide
    · obtain ⟨r, hr, -⟩ := hfile.keys pair hmem hglobal
      exact hr ▸ r.length_key_ge
  have hadd : ∀ pair ∈ pairs,
      okToAdd idx.idxType .within (q.key.take 22) (q.key.drop 23) pair.1 = .ok (q.passes pair) := by
    intro pair hmem
    rw [okToAdd, if_pos ⟨rfl, hdates⟩, if_pos (hlong pair hmem), DateRange.passes]
    split <;> simp [*]
  have hend : ∀ pair, q.passes pair = true → ¬q.key.drop 23 < pair.1 := fun pair hpass ↦ by
    rw [DateRange.passes, Bool.and_eq_true] at hpass
    simpa using hpass.1
  -- the walk starts at the first key from the year 0 on
  obtain ⟨position, hset⟩ : ∃ position, Cursor.setRange pairs NO_DATE = some position := by
    rw [← Option.ne_none_iff_exists', Ne, setRange_eq_none_iff]
    obtain ⟨pair, hmem, hglobal⟩ := hfile.globalData
    exact fun hall ↦ absurd (hglobal ▸ hall pair hmem) (by decide)
  have hlength : (q.key.take 22).length = 22 := by
    have hkeyLength := q.length_key_ge
    rw [List.length_take]
    omega
  have hstart : rangeStart pairs idx.idxType (q.key.take 22) .within =
      ⟨⟨some position, position.pair.1, true⟩, .next, true⟩ := by
    rw [rangeStart]
    simp only [hdates, hlength, if_true]
    rw [RangeCursor.setRange]
    have hnone : NO_DATE.take 22 = NO_DATE := rfl
    rw [hnone, hset]
    rfl
  have hat := at_of_setRange hfile.sorted hset
  have hfuel := position.length_ahead_lt .next
  rw [hat.pairs_eq] at hfuel
  obtain ⟨table, hloop, hgathered⟩ := rangeLoop_dates hreadable hadd hfile.sorted hend (pairs.length + 2)
    hat.pairs_eq (lt_trans hfuel (by omega)) gathered_empty
  obtain ⟨set, hresult, hsorted, hmem⟩ := rangeResult_spec idx (rangeKey_count_nonneg hkey) hgathered
  have hbounds : rangeBounds idx.idxType .within (some q.key) =
      .ok (some (q.key.take 22, q.key.drop 23)) := by
    rw [rangeBounds, if_pos ⟨rfl, hdate⟩]
    change (if hasFlag idx.idxType DATE_RANGE_KEY = true then _ else _) = _
    rw [if_pos hdates, if_pos q.length_key_ge]
  have hne : q.key.take 22 ≠ [] := fun hnil ↦ by
    rw [hnil] at hlength
    cases hlength
  refine ⟨set, ?_, hsorted, fun record ↦ ?_⟩
  · simp only [boolRange, hdb, hkey, hbounds, hne, hstart, hloop, hresult, bind, Except.bind, if_false]
  · rw [hmem]
    simp only [false_or, hat.mem_from_iff, and_assoc]

theorem mem_boolRange_dates :
    ∃ set, boolRange idx (some searchstring) .within = .ok (some set) ∧
      set.recordNums.Pairwise (· < ·) ∧ ∀ record, record ∈ set.recordNums ↔
        ∃ r, HasRange pairs record r ∧ r.Overlaps q ∧ r.Reached q := by
  obtain ⟨set, hset, hsorted, hmem⟩ := boolRange_dates idx hdb hdates hdate hfile hkey
  refine ⟨set, hset, hsorted, fun record ↦ ?_⟩
  rw [hmem]
  constructor
  · rintro ⟨pair, hpair, hstart, hpasses, hcounts⟩
    obtain ⟨hhas, hhead⟩ := counts_iff hcounts hpair
    obtain ⟨r, hr, -⟩ := hfile.keys pair hpair fun heq ↦ hhead (heq ▸ rfl)
    rw [hr, DateRange.noDate_le_key_iff] at hstart
    have hpassed : q.passes (r.key, pair.2) = true := hr ▸ hpasses
    rw [hr] at hhas
    exact ⟨r, hhas, (DateRange.passes_iff hstart).mp hpassed⟩
  · rintro ⟨r, hrange, hoverlaps, hreached⟩
    obtain ⟨pair, hpair, hr, hcounts⟩ := hrange.exists_counts r.head?_key
    have hpassed : q.passes (r.key, pair.2) = true :=
      (DateRange.passes_iff hreached.1).mpr ⟨hoverlaps, hreached⟩
    rw [← hr] at hpassed
    exact ⟨pair, hpair, hr ▸ DateRange.noDate_le_key_iff.mpr hreached.1, hpassed, hcounts⟩

end Query

/-- The result has the documents with a range that overlaps the query, each of them once. -/
def RangesFound (pairs : List (List Char × IndexDatum)) (q : DateRange)
    (result : Exec (Option WeightedResult)) : Prop :=
  ∃ set, result = .ok (some set) ∧ set.recordNums.Nodup ∧ ∀ record, record ∈ set.recordNums ↔
    ∃ r, HasRange pairs record r ∧ r.Overlaps q

/-- A search of date ranges is right exactly when every document with a range that overlaps the query has
one that starts in the year 0 or later, and not at the end of the query unless the digits of the scale are
above those of its last year; and the query does not start before the year -999999999. -/
theorem seBoolRange_dates_iff (spatial : Exec (Option WeightedResult)) (idx : RangeIndex)
    {pairs : List (List Char × IndexDatum)} (hdb : idx.db = some pairs)
    (hdates : hasFlag idx.idxType DATE_RANGE_KEY = true) (hdate : hasFlag idx.idxType DATE_KEY = false)
    (hfile : DateRangeFile pairs) {searchstring : List Char} {q : DateRange} {count : ℤ}
    (hkey : rangeKey idx searchstring = .ok (some q.key, count)) :
    RangesFound pairs q (seBoolRange spatial idx (some searchstring) 104) ↔
      ∀ record r, HasRange pairs record r → r.Overlaps q →
        ∃ r', HasRange pairs record r' ∧ r'.Overlaps q ∧ r'.Reached q := by
  obtain ⟨set, hset, hsorted, hmem⟩ := mem_boolRange_dates idx hdb hdates hdate hfile hkey
  constructor
  · rintro ⟨set', hset', -, hmem'⟩ record r hrange hoverlaps
    have hsame : set' = set := Option.some.inj (Except.ok.inj (hset'.symm.trans hset))
    exact (hmem record).mp (hsame ▸ (hmem' record).mpr ⟨r, hrange, hoverlaps⟩)
  · intro hreached
    refine ⟨set, hset, hsorted.imp ne_of_lt, fun record ↦ ?_⟩
    rw [hmem]
    constructor
    · exact fun ⟨r, hrange, hoverlaps, _⟩ ↦ ⟨r, hrange, hoverlaps⟩
    · exact fun ⟨r, hrange, hoverlaps⟩ ↦ hreached record r hrange hoverlaps

/-- `parse_date` with the pattern `YEAR-YEAR`. -/
def yearRangeKey (text : List Char) : Option (List Char) :=
  if h : nul ∉ text then (Dates.parseDate ⟨text, h⟩ (some "YEAR-YEAR".toList)).toOption.join else none

def dateRangeIndex (pairs : List (List Char × IndexDatum)) : RangeIndex where
  idxType := DATE_RANGE_KEY
  routines := ⟨fun _ ↦ .ok none, yearRangeKey⟩
  unstopped := ⟨fun _ ↦ .ok none, yearRangeKey⟩
  stopwordsFile := false
  compParent := none
  db := some pairs

/-- From 100 to 50 before the year 0. -/
def bcRange : DateRange where
  start := ⟨-100, 0, 0, 0, 0⟩
  stop := ⟨-50, 0, 0, 0, 0⟩
  scale := 0
  start_isDate := ⟨by decide, by decide, by decide, by decide, by decide⟩
  stop_isDate := ⟨by decide, by decide, by decide, by decide, by decide⟩
  ordered := by decide
  scale_bounds := by decide

/-- From 100 to 150 after it. -/
def adRange : DateRange where
  start := ⟨100, 0, 0, 0, 0⟩
  stop := ⟨150, 0, 0, 0, 0⟩
  scale := 0
  start_isDate := ⟨by decide, by decide, by decide, by decide, by decide⟩
  stop_isDate := ⟨by decide, by decide, by decide, by decide, by decide⟩
  ordered := by decide
  scale_bounds := by decide

/-- The document 1 has the first range and the document 2 the second. -/
def bcFile : List (List Char × IndexDatum) :=
  [(bcRange.key, onePosting 1), (adRange.key, onePosting 2), (GLOBAL_KEY, .globalData ⟨1, 1, 2⟩)]

theorem dateRangeFile_bcFile : DateRangeFile bcFile where
  sorted := by decide +kernel
  globalData := ⟨(GLOBAL_KEY, .globalData ⟨1, 1, 2⟩), by simp [bcFile], rfl⟩
  keys := by
    simp only [bcFile, List.mem_cons, List.not_mem_nil, or_false, forall_eq_or_imp, forall_eq]
    exact ⟨fun _ ↦ ⟨bcRange, rfl, sound_onePosting 1⟩, fun _ ↦ ⟨adRange, rfl, sound_onePosting 2⟩,
      fun hne ↦ absurd rfl hne⟩

/-- The search for the second range itself. -/
theorem seBoolRange_dates_ad :
    (RangesFound bcFile adRange
        (seBoolRange (.ok none) (dateRangeIndex bcFile) (some "100 AD - 150 AD".toList) 104) ↔
      ∀ record r, HasRange bcFile record r → r.Overlaps adRange →
        ∃ r', HasRange bcFile record r' ∧ r'.Overlaps adRange ∧ r'.Reached adRange) ∧
      (seBoolRange (.ok none) (dateRangeIndex bcFile) (some "100 AD - 150 AD".toList) 104).map
        (Option.map WeightedResult.recordNums) = .ok (some [2]) :=
  ⟨seBoolRange_dates_iff (.ok none) (dateRangeIndex bcFile) rfl (by decide) (by decide)
    dateRangeFile_bcFile (by decide +kernel :
      rangeKey (dateRangeIndex bcFile) "100 AD - 150 AD".toList = .ok (some adRange.key, 0)),
    by decide +kernel⟩

/-- A document whose range lies before the year 0 is not found, not even with its own range. -/
theorem not_rangesFound_bc :
    ¬RangesFound bcFile bcRange
      (seBoolRange (.ok none) (dateRangeIndex bcFile) (some "100 BC - 50 BC".toList) 104) := by
  have hrun : (seBoolRange (.ok none) (dateRangeIndex bcFile) (some "100 BC - 50 BC".toList) 104).map
      (Option.map WeightedResult.recordNums) = .ok (some []) := by
    decide +kernel
  rintro ⟨set, hset, -, hmem⟩
  rw [hset] at hrun
  have hrecords : set.recordNums = [] := Option.some.inj (Except.ok.inj hrun)
  have hrange : HasRange bcFile 1 bcRange :=
    ⟨⟨1, 1, 1, [⟨1, 1⟩]⟩, List.mem_cons_self, ⟨1, 1⟩, List.mem_cons_self, rfl, by decide⟩
  have hfound := (hmem 1).mpr ⟨bcRange, hrange, bcRange.ordered, bcRange.ordered⟩
  rw [hrecords] at hfound
  cases hfound

end Cheshire.Search
