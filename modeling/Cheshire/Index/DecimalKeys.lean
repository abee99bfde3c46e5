import Cheshire.Index.NumberKeys

/-!
# Keys of decimal numbers

The key of a decimal numeral is its integer part with leading zeros and, behind a point, its fraction
digits read as a number.  Such keys are in the order of the numbers only for some pairs of numerals.
-/

namespace Cheshire.Index

open Lib.DigitOrder

/-- A numeral of the form `[-]digits.digits`. -/
structure Numeral where
  negative : Bool
  integer : List Char
  fraction : List Char
  integer_ne : integer ≠ []
  fraction_ne : fraction ≠ []
  integer_digits : ∀ c ∈ integer, c.isDigit = true
  fraction_digits : ∀ c ∈ fraction, c.isDigit = true

namespace Numeral

def text (a : Numeral) : List Char := signChars a.negative ++ a.integer ++ '.' :: a.fraction

/-- The digits of the integer part as a number. -/
def whole (a : Numeral) : ℕ := Nat.ofDigitChars 10 a.integer 0

/-- The digits of the fraction as a number; leading zeros make no difference to it. -/
def part (a : Numeral) : ℕ := Nat.ofDigitChars 10 a.fraction 0

def intPart (a : Numeral) : ℤ := signed a.negative a.whole

def magnitude (a : Numeral) : ℚ := a.whole + a.part / 10 ^ a.fraction.length

/-- The number that the numeral denotes. -/
def value (a : Numeral) : ℚ := if a.negative then -a.magnitude else a.magnitude

/-- Both parts are values of an `int`. -/
structure InRange (a : Numeral) : Prop where
  intPart : -(2 ^ 31) ≤ a.intPart ∧ a.intPart ≤ 2 ^ 31 - 1
  part : (a.part : ℤ) ≤ 2 ^ 31 - 1

/-- What the two routines print. -/
def key (a : Numeral) : List Char := paddedInt 10 a.intPart ++ '.' :: decimal a.part

/-- The numeral is written in the way in which its key is printed. -/
def Printed (a : Numeral) : Prop := a.text = a.key

end Numeral

variable {a b : Numeral}

theorem length_zeroPadded_le {width n bound : ℕ} (hwidth : width ≤ bound) (hpos : 0 < bound)
    (hn : n < 10 ^ bound) : (zeroPadded width n).length ≤ bound := by
  have hle := (length_decimal_le_iff hpos).mpr hn
  rw [zeroPadded, List.length_append, List.length_replicate]
  omega

theorem length_paddedInt_le {value : ℤ} (hvalue : -(2 ^ 31) ≤ value ∧ value ≤ 2 ^ 31 - 1) :
    (paddedInt 10 value).length ≤ 11 := by
  rw [paddedInt]
  split
  · rw [List.length_cons]
    exact Nat.succ_le_succ (length_zeroPadded_le (by omega) (by omega) (by omega))
  · exact Nat.le_succ_of_le (length_zeroPadded_le (by omega) (by omega) (by omega))

theorem checkInt_of_inRange {value : ℤ} (h : -(2 ^ 31) ≤ value ∧ value ≤ 2 ^ 31 - 1) :
    checkInt value = .ok value := by
  rw [checkInt, if_pos h]

theorem checkInt_of_not_inRange {value : ℤ} (h : ¬(-(2 ^ 31) ≤ value ∧ value ≤ 2 ^ 31 - 1)) :
    checkInt value = .error .signedOverflow := by
  rw [checkInt, if_neg h]

theorem sscanfDecimal_text (a : Numeral) : sscanfDecimal a.text = (do
    let integerKey ← checkInt a.intPart
    let decimalPart ← checkInt a.part
    .ok (2, integerKey, decimalPart)) := by
  have hspace : a.text.dropWhile isSpace ≠ [] := by
    rw [Numeral.text, dropWhile_isSpace_digits a.integer_ne a.integer_digits]
    simp
  have hpoint : ∀ c ∈ ('.' :: a.fraction).head?, c.isDigit = false := by
    intro c hc
    cases hc
    decide
  have hwhole : scanNumber a.text = some (a.intPart, '.' :: a.fraction) :=
    scanNumber_digits a.integer_ne a.integer_digits hpoint a.negative
  have hpart : scanNumber a.fraction = some ((a.part : ℤ), []) := by
    have hscan := @scanNumber_digits a.fraction [] a.fraction_ne a.fraction_digits (by simp) false
    simpa [signChars, signed, Numeral.part] using hscan
  rw [sscanfDecimal, if_neg hspace, hwhole]
  simp only [hpart]

theorem numberKey_text (routines : KeyRoutines) (integerSize : ℕ) {decimalSize idxType : ℕ}
    (hsize : 30 ≤ decimalSize) (htype : idxType &&& NUMBER_KEYS = DECIMAL_KEY) (a : Numeral)
    (key : List Char) :
    numberKey routines integerSize decimalSize idxType a.text = .ok (some key) ↔
      a.InRange ∧ key = a.key := by
  have hinteger : DECIMAL_KEY ≠ INTEGER_KEY := by decide
  rw [numberKey, htype, if_neg hinteger, if_pos rfl, sscanfDecimal_text]
  by_cases hrange : a.InRange
  · have hpart : -(2 ^ 31) ≤ (a.part : ℤ) ∧ (a.part : ℤ) ≤ 2 ^ 31 - 1 := ⟨by omega, hrange.part⟩
    have hlength : a.key.length < decimalSize := by
      have hwhole := length_paddedInt_le hrange.intPart
      have hdigits : (decimal a.part).length ≤ 10 := (length_decimal_le_iff (by decide)).mpr (by omega)
      rw [Numeral.key, List.length_append, List.length_cons]
      omega
    have hkey : paddedInt 10 a.intPart ++ '.' :: decimalInt (a.part : ℤ) = a.key := by
      rw [Numeral.key, decimalInt, if_neg (by omega)]
      rfl
    rw [checkInt_of_inRange hrange.intPart, checkInt_of_inRange hpart]
    change sprintfKey decimalSize (paddedInt 10 a.intPart ++ '.' :: decimalInt (a.part : ℤ)) = _ ↔ _
    rw [hkey, sprintfKey, if_pos hlength, Except.ok.injEq, Option.some.injEq]
    exact ⟨fun heq ↦ ⟨hrange, heq.symm⟩, fun h ↦ h.2.symm⟩
  · apply iff_of_false
    · intro hrun
      obtain ⟨scanned, hscanned, -⟩ := bind_eq_ok.mp hrun
      obtain ⟨integerKey, hinteger, hrest⟩ := bind_eq_ok.mp hscanned
      obtain ⟨decimalPart, hdecimal, -⟩ := bind_eq_ok.mp hrest
      apply hrange
      constructor
      · by_contra hout
        rw [checkInt_of_not_inRange hout] at hinteger
        cases hinteger
      · by_contra hout
        rw [checkInt_of_not_inRange (by omega)] at hdecimal
        cases hdecimal
    · exact fun h ↦ hrange h.1

theorem decimal_inj {m n : ℕ} : decimal m = decimal n ↔ m = n := by
  constructor
  · intro h
    have hvalue := congrArg (fun digits ↦ Nat.ofDigitChars 10 digits 0) h
    simpa [decimal, Nat.ofDigitChars_ten_toDigits] using hvalue
  · exact congrArg _

theorem key_of_intPart_eq (h : a.intPart = b.intPart) :
    (a.key < b.key ↔ decimal a.part < decimal b.part) ∧ (a.key = b.key ↔ a.part = b.part) := by
  rw [Numeral.key, Numeral.key, h, append_lt_append_left]
  constructor
  · simp
  · rw [List.append_cancel_left_eq, List.cons.injEq, decimal_inj]
    simp

theorem intPart_eq (a : Numeral) :
    a.intPart = if a.negative then -(a.whole : ℤ) else a.whole := rfl

theorem negative_of_intPart_neg (h : a.intPart < 0) :
    a.negative = true ∧ a.intPart = -(a.whole : ℤ) := by
  rw [intPart_eq] at h ⊢
  split at h
  · next hnegative => exact ⟨hnegative, if_pos hnegative⟩
  · omega

theorem part_lt (a : Numeral) : (a.part : ℚ) / 10 ^ a.fraction.length < 1 := by
  rw [div_lt_one (by positivity)]
  exact_mod_cast ofDigitChars_lt a.fraction a.fraction_digits

theorem part_nonneg (a : Numeral) : (0 : ℚ) ≤ a.part / 10 ^ a.fraction.length := by positivity

theorem value_bounds_of_nonneg (h : 0 ≤ a.intPart) :
    (a.intPart : ℚ) - 1 < a.value ∧ a.value < a.intPart + 1 ∧
      (0 < a.intPart → (a.intPart : ℚ) ≤ a.value) := by
  have hlt := part_lt a
  have hnonneg := part_nonneg a
  rw [Numeral.value, Numeral.magnitude]
  rw [intPart_eq] at h ⊢
  split
  · next hnegative =>
    rw [if_pos hnegative] at h
    have hzero : a.whole = 0 := by omega
    rw [hzero]
    push_cast
    exact ⟨by linarith, by linarith, fun hpos ↦ by simp at hpos⟩
  · next hpositive =>
    push_cast
    exact ⟨by linarith, by linarith, fun _ ↦ by linarith⟩

theorem value_bounds_of_neg (h : a.intPart < 0) :
    (a.intPart : ℚ) - 1 < a.value ∧ a.value ≤ a.intPart := by
  obtain ⟨hnegative, hpart⟩ := negative_of_intPart_neg h
  have hlt := part_lt a
  have hnonneg := part_nonneg a
  rw [Numeral.value, Numeral.magnitude, if_pos hnegative, hpart]
  push_cast
  exact ⟨by linarith, by linarith⟩

theorem value_lt_of_intPart_lt (h : a.intPart < b.intPart) : a.value < b.value := by
  rcases lt_or_ge a.intPart 0 with ha | ha
  · have hle := (value_bounds_of_neg ha).2
    rcases lt_or_ge b.intPart 0 with hb | hb
    · have hlower := (value_bounds_of_neg hb).1
      have hstep : (a.intPart : ℚ) ≤ b.intPart - 1 := by exact_mod_cast Int.le_sub_one_of_lt h
      linarith
    · have hlower := (value_bounds_of_nonneg hb).1
      have hstep : (a.intPart : ℚ) ≤ b.intPart - 1 := by exact_mod_cast Int.le_sub_one_of_lt h
      linarith
  · have hupper := (value_bounds_of_nonneg ha).2.1
    have hlower := (value_bounds_of_nonneg (ha.trans h.le)).2.2 (ha.trans_lt h)
    have hstep : (a.intPart : ℚ) + 1 ≤ b.intPart := by exact_mod_cast h
    linarith

theorem key_lt_iff_of_intPart_ne (ha : a.InRange) (hb : b.InRange) (hlt : a.intPart < b.intPart) :
    a.key ≠ b.key ∧ (a.key < b.key ↔ (b.intPart < 0 →
      a.intPart ≤ -(10 ^ 9) ∧ -(10 ^ 9) < b.intPart ∧
        a.intPart.natAbs / 10 < b.intPart.natAbs)) := by
  obtain ⟨ha, ha'⟩ := ha.intPart
  obtain ⟨hb, hb'⟩ := hb.intPart
  have hpoint (c : Char) (hc : c ∈ ('.' :: decimal b.part).head?) : c < '0' := by
    cases hc
    decide
  rw [Numeral.key, Numeral.key]
  rcases lt_or_ge b.intPart 0 with hneg | hnonneg
  · rcases lt_or_ge (-(10 ^ 9)) a.intPart with hashort | halong
    · -- both of at most nine digits
      have hforward := @paddedInt_append_lt_of_short a.intPart b.intPart ('.' :: decimal a.part)
        ('.' :: decimal b.part) hashort (by omega) (by omega) hneg hlt.ne
      have hbackward := @paddedInt_append_lt_of_short b.intPart a.intPart ('.' :: decimal b.part)
        ('.' :: decimal a.part) (by omega) hneg hashort (by omega) hlt.ne'
      refine ⟨(hbackward.mpr hlt).ne', ?_⟩
      rw [hforward]
      exact iff_of_false (by omega) (by omega)
    · rcases lt_or_ge (-(10 ^ 9)) b.intPart with hbshort | hblong
      · obtain ⟨hmixed, hne⟩ := @paddedInt_append_lt_of_mixed a.intPart b.intPart
          ('.' :: decimal a.part) ('.' :: decimal b.part) halong ha hbshort hneg hpoint
        refine ⟨hne, ?_⟩
        rw [hmixed]
        exact ⟨fun h _ ↦ ⟨halong, hbshort, h⟩, fun h ↦ (h hneg).2.2⟩
      · -- both of ten digits
        have hforward := @paddedInt_append_lt_of_long a.intPart b.intPart ('.' :: decimal a.part)
          ('.' :: decimal b.part) halong ha hblong hb hlt.ne
        have hbackward := @paddedInt_append_lt_of_long b.intPart a.intPart ('.' :: decimal b.part)
          ('.' :: decimal a.part) hblong hb halong ha hlt.ne'
        refine ⟨(hbackward.mpr hlt).ne', ?_⟩
        rw [hforward]
        exact iff_of_false (by omega) (by omega)
  · have hkeys : paddedInt 10 a.intPart ++ '.' :: decimal a.part <
        paddedInt 10 b.intPart ++ '.' :: decimal b.part := by
      rcases lt_or_ge a.intPart 0 with hminus | hplus
      · exact paddedInt_append_lt_of_sign hminus hnonneg
      · exact (paddedInt_append_lt_of_nonneg hplus ha' hnonneg hb' hlt.ne).mpr hlt
    exact ⟨hkeys.ne, iff_of_true hkeys fun h ↦ absurd h (not_lt.mpr hnonneg)⟩

/-- Two numerals whose keys are in their order: either their integer parts agree and the fraction digits,
without leading zeros, compare as the numbers do; or they differ and are not both negative, or just one
of them has ten digits, the first nine of which are less than the other. -/
def OrderKept (a b : Numeral) : Prop :=
  if a.intPart = b.intPart then
    (decimal a.part < decimal b.part ↔ a.value < b.value) ∧ (a.part = b.part ↔ a.value = b.value)
  else
    max a.intPart b.intPart < 0 → min a.intPart b.intPart ≤ -(10 ^ 9) ∧
      -(10 ^ 9) < max a.intPart b.intPart ∧
        (min a.intPart b.intPart).natAbs / 10 < (max a.intPart b.intPart).natAbs

theorem orderKept_iff (ha : a.InRange) (hb : b.InRange) :
    OrderKept a b ↔ (a.key < b.key ↔ a.value < b.value) ∧ (a.key = b.key ↔ a.value = b.value) := by
  rw [OrderKept]
  split
  · next hsame => rw [(key_of_intPart_eq hsame).1, (key_of_intPart_eq hsame).2]
  · next hne =>
    rcases lt_or_gt_of_ne hne with hlt | hgt
    · obtain ⟨hkeys, hiff⟩ := key_lt_iff_of_intPart_ne ha hb hlt
      have hvalue := value_lt_of_intPart_lt hlt
      rw [max_eq_right hlt.le, min_eq_left hlt.le, ← hiff]
      simp [hkeys, hvalue, hvalue.ne]
    · obtain ⟨hkeys, hiff⟩ := key_lt_iff_of_intPart_ne hb ha hgt
      have hvalue := value_lt_of_intPart_lt hgt
      rw [max_eq_left hgt.le, min_eq_right hgt.le, ← hiff]
      simp only [hvalue.not_gt, hvalue.ne', hkeys.symm, iff_false, and_true, not_lt]
      exact ⟨le_of_lt, fun hle ↦ lt_of_le_of_ne hle hkeys⟩

/-- An index whose words are taken as they are. -/
def Verbatim (idxType : ℕ) : Prop :=
  idxType &&& NORM_DO_NOTHING = NORM_DO_NOTHING ∨ idxType &&& NORM_MIN = NORM_MIN

/-- The keys of two numerals are in their order, at indexing and in queries. -/
structure KeysInOrder (routines : KeyRoutines) (idxType : ℕ) (a b : Numeral)
    (akey bkey : List Char) : Prop where
  normalize_left : normalizeKey routines idxType a.text = .ok (some akey)
  normalize_right : normalizeKey routines idxType b.text = .ok (some bkey)
  index_left : idxnumber routines idxType a.text = .ok (some akey)
  index_right : idxnumber routines idxType b.text = .ok (some bkey)
  lt_iff : akey < bkey ↔ a.value < b.value
  eq_iff : akey = bkey ↔ a.value = b.value

section Keys

variable (routines : KeyRoutines) {idxType : ℕ} (htype : idxType &&& NUMBER_KEYS = DECIMAL_KEY)
include htype

theorem idxnumber_text (a : Numeral) (key : List Char) :
    idxnumber routines idxType a.text = .ok (some key) ↔ a.InRange ∧ key = a.key := by
  have hne : a.text ≠ [] := by simp [Numeral.text]
  rw [idxnumber, if_neg hne]
  exact numberKey_text routines 50 (by decide) htype a key

theorem normalizeKey_text (hverbatim : ¬Verbatim idxType) (a : Numeral) (key : List Char) :
    normalizeKey routines idxType a.text = .ok (some key) ↔ a.InRange ∧ key = a.key := by
  rw [Verbatim, not_or] at hverbatim
  have hzero : idxType &&& NUMBER_KEYS ≠ 0 := by
    rw [htype]
    decide
  rw [normalizeKey, if_neg hverbatim.1, if_neg hverbatim.2, if_neg hzero]
  exact numberKey_text routines 11 (by decide) htype a key

/-- The keys of two numerals keep their order if and only if an `int` holds the parts of both, the words
of a query are not taken as they are (or the numerals are written like keys), and their order is one
that is kept. -/
theorem keysInOrder_iff (a b : Numeral) :
    (∃ akey bkey, KeysInOrder routines idxType a b akey bkey) ↔
      a.InRange ∧ b.InRange ∧ (Verbatim idxType → a.Printed ∧ b.Printed) ∧ OrderKept a b := by
  constructor
  · rintro ⟨akey, bkey, h⟩
    obtain ⟨ha, hakey⟩ := (idxnumber_text routines htype a akey).mp h.index_left
    obtain ⟨hb, hbkey⟩ := (idxnumber_text routines htype b bkey).mp h.index_right
    subst hakey hbkey
    refine ⟨ha, hb, ?_, (orderKept_iff ha hb).mpr ⟨h.lt_iff, h.eq_iff⟩⟩
    intro hverbatim
    have hraw (c : Numeral) : normalizeKey routines idxType c.text = .ok (some c.text) := by
      rw [normalizeKey]
      rcases hverbatim with hnothing | hmin
      · rw [if_pos hnothing]
      · rw [if_pos hmin, ite_self]
    have hleft := h.normalize_left
    have hright := h.normalize_right
    rw [hraw] at hleft hright
    exact ⟨Option.some.inj (Except.ok.inj hleft), Option.some.inj (Except.ok.inj hright)⟩
  · rintro ⟨ha, hb, hprinted, horder⟩
    obtain ⟨hlt, heq⟩ := (orderKept_iff ha hb).mp horder
    have hnormalize (c : Numeral) (hc : c.InRange) (hwritten : Verbatim idxType → c.Printed) :
        normalizeKey routines idxType c.text = .ok (some c.key) := by
      by_cases hverbatim : Verbatim idxType
      · have htext : c.text = c.key := hwritten hverbatim
        rw [normalizeKey, htext]
        rcases hverbatim with hnothing | hmin
        · rw [if_pos hnothing]
        · rw [if_pos hmin, ite_self]
      · exact (normalizeKey_text routines htype hverbatim c c.key).mpr ⟨hc, rfl⟩
    exact ⟨a.key, b.key, hnormalize a ha fun h ↦ (hprinted h).1, hnormalize b hb fun h ↦ (hprinted h).2,
      (idxnumber_text routines htype a a.key).mpr ⟨ha, rfl⟩,
      (idxnumber_text routines htype b b.key).mpr ⟨hb, rfl⟩, hlt, heq⟩

end Keys

theorem isDigit_one : ∀ c ∈ ['1'], c.isDigit = true := by simp
theorem isDigit_five : ∀ c ∈ ['5'], c.isDigit = true := by simp
theorem isDigit_zeroFive : ∀ c ∈ ['0', '5'], c.isDigit = true := by simp

def onePointFive : Numeral :=
  ⟨false, ['1'], ['5'], List.cons_ne_nil _ _, List.cons_ne_nil _ _, isDigit_one, isDigit_five⟩

def onePointZeroFive : Numeral :=
  ⟨false, ['1'], ['0', '5'], List.cons_ne_nil _ _, List.cons_ne_nil _ _, isDigit_one,
    isDigit_zeroFive⟩

def minusOnePointFive : Numeral :=
  ⟨true, ['1'], ['5'], List.cons_ne_nil _ _, List.cons_ne_nil _ _, isDigit_one, isDigit_five⟩

theorem keysInOrder_decimal :
    (∃ akey bkey, KeysInOrder noRoutines DECIMAL_KEY minusOnePointFive onePointFive akey bkey) ↔
      minusOnePointFive.InRange ∧ onePointFive.InRange ∧
        (Verbatim DECIMAL_KEY → minusOnePointFive.Printed ∧ onePointFive.Printed) ∧
          OrderKept minusOnePointFive onePointFive :=
  keysInOrder_iff noRoutines (by decide) minusOnePointFive onePointFive

/-- The numerals 1.05 and 1.5 have one key. -/
theorem keysInOrder_leadingZero :
    ¬∃ akey bkey, KeysInOrder noRoutines DECIMAL_KEY onePointZeroFive onePointFive akey bkey := by
  rintro ⟨akey, bkey, h⟩
  have hleft := h.index_left
  have hright := h.index_right
  have hkeys : idxnumber noRoutines DECIMAL_KEY onePointZeroFive.text =
      idxnumber noRoutines DECIMAL_KEY onePointFive.text := by decide +kernel
  rw [hkeys, hright] at hleft
  have hvalue := h.eq_iff.mp (Option.some.inj (Except.ok.inj hleft)).symm
  have hless : onePointZeroFive.value ≠ onePointFive.value := by decide +kernel
  exact hless hvalue

end Cheshire.Index
