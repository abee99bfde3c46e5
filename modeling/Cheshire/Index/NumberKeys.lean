import Cheshire.Lib.DigitOrder

/-!
# Keys of numbers

An index of numbers keeps them as strings: `idxnumber` prints the number that it scans in the data, and
`normalize_key` does the same with the number of a query.  Floating-point keys and the keys of words are
left to routines that are parameters.
-/

namespace Cheshire.Index

open Lib.DigitOrder

def INTEGER_KEY : ℕ := 1 <<< 15
def DECIMAL_KEY : ℕ := 1 <<< 16
def FLOAT_KEY : ℕ := 1 <<< 17
def NORM_DO_NOTHING : ℕ := 1 <<< 25
def NORM_MIN : ℕ := 1 <<< 30

/-- `INTEGER_KEY | DECIMAL_KEY | FLOAT_KEY` -/
def NUMBER_KEYS : ℕ := INTEGER_KEY ||| DECIMAL_KEY ||| FLOAT_KEY

/-- The routines for floating-point keys and for words. -/
structure KeyRoutines where
  floatKey : List Char → Exec (Option (List Char))
  textKey : List Char → Option (List Char)

def noRoutines : KeyRoutines where
  floatKey _ := .ok none
  textKey _ := none

/-- Digits at the front of a text, and what stands behind them. -/
def scanDigits (text : List Char) : Option (ℕ × List Char) :=
  if text.takeWhile Char.isDigit = [] then none
  else some (Nat.ofDigitChars 10 (text.takeWhile Char.isDigit) 0, text.dropWhile Char.isDigit)

/-- `%d` of `sscanf`: blanks, a sign and digits. -/
def scanNumber (text : List Char) : Option (ℤ × List Char) :=
  match text.dropWhile isSpace with
  | '-' :: body => (scanDigits body).map fun scanned ↦ (-(scanned.1 : ℤ), scanned.2)
  | '+' :: body => (scanDigits body).map fun scanned ↦ ((scanned.1 : ℤ), scanned.2)
  | body => (scanDigits body).map fun scanned ↦ ((scanned.1 : ℤ), scanned.2)

/-- `sscanf(text, "%d", &integer_key)`: the result, and the value if one is stored.  A number that an
`int` does not hold has no defined conversion. -/
def sscanfInteger (text : List Char) : Exec (ℤ × Option ℤ) :=
  if text.dropWhile isSpace = [] then .ok (-1, none)
  else
    match scanNumber text with
    | none => .ok (0, none)
    | some scanned => do
      let integerKey ← checkInt scanned.1
      .ok (1, some integerKey)

/-- `sscanf(text, "%d.%d", &integer_key, &decimal_part)` with both variables 0 before. -/
def sscanfDecimal (text : List Char) : Exec (ℤ × ℤ × ℤ) :=
  if text.dropWhile isSpace = [] then .ok (-1, 0, 0)
  else
    match scanNumber text with
    | none => .ok (0, 0, 0)
    | some scanned => do
      let integerKey ← checkInt scanned.1
      match scanned.2 with
      | '.' :: rest =>
        match scanNumber rest with
        | none => .ok (1, integerKey, 0)
        | some behind => do
          let decimalPart ← checkInt behind.1
          .ok (2, integerKey, decimalPart)
      | _ => .ok (1, integerKey, 0)

/-- `%0nd`; the sign takes one of the places. -/
def paddedInt (width : ℕ) (value : ℤ) : List Char :=
  if value < 0 then '-' :: zeroPadded (width - 1) value.natAbs else zeroPadded width value.natAbs

/-- `sprintf` into a block of so many characters. -/
def sprintfKey (size : ℕ) (text : List Char) : Exec (Option (List Char)) :=
  if text.length < size then .ok (some text) else .error .outOfBounds

/-- The `switch` over the kind of number; with several kinds no case applies and the key is never
set. -/
def numberKey (routines : KeyRoutines) (integerSize decimalSize idxType : ℕ) (text : List Char) :
    Exec (Option (List Char)) :=
  if idxType &&& NUMBER_KEYS = INTEGER_KEY then do
    let scanned ← sscanfInteger text
    if scanned.1 = 0 then .ok none
    else
      match scanned.2 with
      | none => .error .uninitialized
      | some integerKey => sprintfKey integerSize (paddedInt 10 integerKey)
  else if idxType &&& NUMBER_KEYS = DECIMAL_KEY then do
    let scanned ← sscanfDecimal text
    if scanned.1 = 0 then .ok none
    else sprintfKey decimalSize (paddedInt 10 scanned.2.1 ++ '.' :: decimalInt scanned.2.2)
  else if idxType &&& NUMBER_KEYS = FLOAT_KEY then routines.floatKey text
  else .error .uninitialized

/-- `normalize_key` of a word that is there. -/
def normalizeKey (routines : KeyRoutines) (idxType : ℕ) (rawWord : List Char) :
    Exec (Option (List Char)) :=
  if idxType &&& NORM_DO_NOTHING = NORM_DO_NOTHING then .ok (some rawWord)
  else if idxType &&& NORM_MIN = NORM_MIN then .ok (some rawWord)
  else if idxType &&& NUMBER_KEYS = 0 then .ok (routines.textKey rawWord)
  else numberKey routines 11 30 idxType rawWord

/-- `idxnumber` of the text in `databuf`: the key that is put into the hash table. -/
def idxnumber (routines : KeyRoutines) (idxType : ℕ) (databuf : List Char) :
    Exec (Option (List Char)) :=
  if databuf = [] then .ok none else numberKey routines 50 50 idxType databuf

theorem scanDigits_append {digits rest : List Char} (hne : digits ≠ [])
    (hdigits : ∀ c ∈ digits, c.isDigit = true) (hrest : ∀ c ∈ rest.head?, c.isDigit = false) :
    scanDigits (digits ++ rest) = some (Nat.ofDigitChars 10 digits 0, rest) := by
  have hstop : rest.takeWhile Char.isDigit = [] ∧ rest.dropWhile Char.isDigit = rest := by
    cases rest with
    | nil => exact ⟨rfl, rfl⟩
    | cons c rest =>
      have hc : ¬c.isDigit = true := by simpa using hrest c rfl
      exact ⟨List.takeWhile_cons_of_neg hc, List.dropWhile_cons_of_neg hc⟩
  rw [scanDigits, List.takeWhile_append_of_pos hdigits, List.dropWhile_append_of_pos hdigits,
    hstop.1, hstop.2, List.append_nil, if_neg hne]

def signChars (negative : Bool) : List Char := if negative then ['-'] else []

def signed (negative : Bool) (n : ℕ) : ℤ := if negative then -(n : ℤ) else n

theorem dropWhile_isSpace_digits {digits rest : List Char} (hne : digits ≠ [])
    (hdigits : ∀ c ∈ digits, c.isDigit = true) (negative : Bool) :
    (signChars negative ++ digits ++ rest).dropWhile isSpace =
      signChars negative ++ digits ++ rest := by
  obtain ⟨first, others, rfl⟩ := List.exists_cons_of_ne_nil hne
  cases negative with
  | true => rfl
  | false =>
    have hfirst := not_isSpace_of_isDigit (hdigits first List.mem_cons_self)
    exact List.dropWhile_cons_of_neg (by simp [hfirst])

theorem scanNumber_digits {digits rest : List Char} (hne : digits ≠ [])
    (hdigits : ∀ c ∈ digits, c.isDigit = true) (hrest : ∀ c ∈ rest.head?, c.isDigit = false)
    (negative : Bool) :
    scanNumber (signChars negative ++ digits ++ rest) =
      some (signed negative (Nat.ofDigitChars 10 digits 0), rest) := by
  rw [scanNumber, dropWhile_isSpace_digits hne hdigits]
  cases negative with
  | true =>
    change (scanDigits (digits ++ rest)).map _ = _
    rw [scanDigits_append hne hdigits hrest]
    rfl
  | false =>
    have hscan := scanDigits_append hne hdigits hrest
    obtain ⟨first, others, rfl⟩ := List.exists_cons_of_ne_nil hne
    have hfirst := hdigits first List.mem_cons_self
    have hother (c : Char) (hc : c.isDigit = false) : first ≠ c := by
      rintro rfl
      rw [hc] at hfirst
      cases hfirst
    have hchars : signChars false ++ first :: others ++ rest = first :: (others ++ rest) := rfl
    rw [hchars]
    split
    · rename_i heq
      exact absurd (List.cons.inj heq).1 (hother '-' (by decide))
    · rename_i heq
      exact absurd (List.cons.inj heq).1 (hother '+' (by decide))
    · rw [← List.cons_append, hscan]
      rfl

theorem scanNumber_decimal (n : ℕ) {rest : List Char} (hrest : ∀ c ∈ rest.head?, c.isDigit = false) :
    scanNumber (decimal n ++ rest) = some ((n : ℤ), rest) := by
  have hscan := scanNumber_digits (decimal_ne_nil n) (fun _ ↦ isDigit_of_mem_decimal) hrest false
  rwa [decimal, Nat.ofDigitChars_ten_toDigits] at hscan

theorem paddedInt_of_nonneg {value : ℤ} (h : 0 ≤ value) (width : ℕ) :
    paddedInt width value = zeroPadded width value.natAbs := by
  rw [paddedInt, if_neg (not_lt.mpr h)]

theorem paddedInt_of_neg {value : ℤ} (h : value < 0) (width : ℕ) :
    paddedInt width value = '-' :: zeroPadded (width - 1) value.natAbs := by
  rw [paddedInt, if_pos h]

section Order

variable {m n : ℤ} {rest rest' : List Char}

theorem zeroPadded_append_lt_iff {width a b : ℕ} (hwidth : 0 < width) (ha : a < 10 ^ width)
    (hb : b < 10 ^ width) (hne : a ≠ b) :
    zeroPadded width a ++ rest < zeroPadded width b ++ rest' ↔ a < b := by
  have hlength : (zeroPadded width a).length = (zeroPadded width b).length := by
    rw [length_zeroPadded hwidth ha, length_zeroPadded hwidth hb]
  have hdiffer : zeroPadded width a ≠ zeroPadded width b := by
    rwa [Ne, zeroPadded_inj]
  rw [append_lt_append_of_ne hlength hdiffer, zeroPadded_lt_iff hwidth ha hb]

theorem paddedInt_append_lt_of_nonneg (hm : 0 ≤ m) (hm' : m ≤ 2 ^ 31 - 1) (hn : 0 ≤ n)
    (hn' : n ≤ 2 ^ 31 - 1) (hne : m ≠ n) :
    paddedInt 10 m ++ rest < paddedInt 10 n ++ rest' ↔ m < n := by
  rw [paddedInt_of_nonneg hm, paddedInt_of_nonneg hn,
    zeroPadded_append_lt_iff (by decide) (by omega) (by omega) (by omega)]
  omega

theorem exists_digit_zeroPadded (width k : ℕ) :
    ∃ first others, zeroPadded width k = first :: others ∧ first.isDigit = true := by
  have hne : zeroPadded width k ≠ [] := by
    rw [zeroPadded]
    exact List.append_ne_nil_of_right_ne_nil _ (decimal_ne_nil k)
  obtain ⟨first, others, hdigits⟩ := List.exists_cons_of_ne_nil hne
  refine ⟨first, others, hdigits, @isDigit_of_mem_zeroPadded width k _ ?_⟩
  rw [hdigits]
  exact List.mem_cons_self

theorem paddedInt_append_lt_of_sign (hm : m < 0) (hn : 0 ≤ n) :
    paddedInt 10 m ++ rest < paddedInt 10 n ++ rest' := by
  obtain ⟨first, others, hdigits, hfirst⟩ := exists_digit_zeroPadded 10 n.natAbs
  rw [paddedInt_of_neg hm, paddedInt_of_nonneg hn, hdigits, List.cons_append, List.cons_append,
    List.cons_lt_cons_iff]
  left
  have hbound : '0'.toNat ≤ first.toNat := (digit_bounds hfirst).1
  exact lt_of_lt_of_le (by decide : '-' < '0') hbound

theorem paddedInt_append_lt_of_short (hm : -(10 ^ 9) < m) (hm' : m < 0) (hn : -(10 ^ 9) < n)
    (hn' : n < 0) (hne : m ≠ n) :
    paddedInt 10 m ++ rest < paddedInt 10 n ++ rest' ↔ n < m := by
  rw [paddedInt_of_neg hm', paddedInt_of_neg hn', List.cons_append, List.cons_append,
    List.cons_lt_cons_iff]
  rw [zeroPadded_append_lt_iff (by decide) (by omega) (by omega) (by omega)]
  simp only [lt_self_iff_false, false_or, true_and]
  omega

theorem zeroPadded_ten_digits {k : ℕ} (hk : 10 ^ 9 ≤ k) :
    zeroPadded 9 k = decimal k ∧ zeroPadded 10 k = decimal k := by
  have hlong : ¬(decimal k).length ≤ 9 := by
    rw [length_decimal_le_iff (by decide)]
    omega
  exact ⟨zeroPadded_of_le (by omega), zeroPadded_of_le (by omega)⟩

theorem paddedInt_append_lt_of_long (hm : m ≤ -(10 ^ 9)) (hm' : -(2 ^ 31) ≤ m) (hn : n ≤ -(10 ^ 9))
    (hn' : -(2 ^ 31) ≤ n) (hne : m ≠ n) :
    paddedInt 10 m ++ rest < paddedInt 10 n ++ rest' ↔ n < m := by
  rw [paddedInt_of_neg (by omega), paddedInt_of_neg (by omega), List.cons_append, List.cons_append,
    List.cons_lt_cons_iff]
  have hm10 := zeroPadded_ten_digits (k := m.natAbs) (by omega)
  have hn10 := zeroPadded_ten_digits (k := n.natAbs) (by omega)
  change _ ∨ _ ∧ zeroPadded 9 m.natAbs ++ rest < zeroPadded 9 n.natAbs ++ rest' ↔ _
  rw [hm10.1, hn10.1, ← hm10.2, ← hn10.2,
    zeroPadded_append_lt_iff (by decide) (by omega) (by omega) (by omega)]
  simp only [lt_self_iff_false, false_or, true_and]
  omega

theorem paddedInt_append_lt_of_mixed (hm : m ≤ -(10 ^ 9)) (hm' : -(2 ^ 31) ≤ m)
    (hn : -(10 ^ 9) < n) (hn' : n < 0) (hrest' : ∀ c ∈ rest'.head?, c < '0') :
    (paddedInt 10 m ++ rest < paddedInt 10 n ++ rest' ↔ m.natAbs / 10 < n.natAbs) ∧
      paddedInt 10 m ++ rest ≠ paddedInt 10 n ++ rest' := by
  have hdigits : zeroPadded 9 m.natAbs =
      zeroPadded 9 (m.natAbs / 10) ++ [(m.natAbs % 10).digitChar] := by
    have hlong : 9 ≤ (decimal (m.natAbs / 10)).length := by
      by_contra hshort
      have hlt := (length_decimal_le_iff (n := m.natAbs / 10) (show 0 < 8 by decide)).mp (by omega)
      omega
    rw [(zeroPadded_ten_digits (by omega)).1, zeroPadded_of_le hlong]
    exact Nat.toDigits_of_base_le (by decide) (by omega)
  have hwidth : 0 < 9 := by decide
  have hmlt : m.natAbs / 10 < 10 ^ 9 := by omega
  have hnlt : n.natAbs < 10 ^ 9 := by omega
  have hlength : (zeroPadded 9 (m.natAbs / 10)).length = (zeroPadded 9 n.natAbs).length := by
    rw [length_zeroPadded hwidth hmlt, length_zeroPadded hwidth hnlt]
  have hdigit : '0' ≤ (m.natAbs % 10).digitChar := by
    have hisDigit : (m.natAbs % 10).digitChar.isDigit = true := by
      rw [Nat.isDigit_digitChar]
      exact decide_eq_true (by omega)
    exact (digit_bounds hisDigit).1
  rw [paddedInt_of_neg (by omega), paddedInt_of_neg hn', List.cons_append, List.cons_append]
  change ('-' :: (zeroPadded 9 m.natAbs ++ rest) < '-' :: (zeroPadded 9 n.natAbs ++ rest') ↔ _) ∧
    '-' :: (zeroPadded 9 m.natAbs ++ rest) ≠ '-' :: (zeroPadded 9 n.natAbs ++ rest')
  rw [List.cons_lt_cons_iff, hdigits, List.append_assoc, append_lt_append_iff hlength,
    zeroPadded_lt_iff hwidth hmlt hnlt, zeroPadded_inj]
  have hbehind : ¬[(m.natAbs % 10).digitChar] ++ rest < rest' ∧
      [(m.natAbs % 10).digitChar] ++ rest ≠ rest' := by
    cases rest' with
    | nil => simp
    | cons c rest' =>
      have hc : c < (m.natAbs % 10).digitChar := (hrest' c rfl).trans_le hdigit
      rw [List.singleton_append, List.cons_lt_cons_iff]
      constructor
      · rintro (hlt | ⟨heq, -⟩)
        · exact lt_asymm hlt hc
        · exact hc.ne' heq
      · intro heq
        exact hc.ne' (List.cons.inj heq).1
  constructor
  · simp only [lt_self_iff_false, false_or, true_and, hbehind.1, and_false, or_false]
  · intro heq
    have hparts := (append_eq_append_iff hlength).mp (List.cons.inj heq).2
    exact hbehind.2 hparts.2

end Order

end Cheshire.Index
