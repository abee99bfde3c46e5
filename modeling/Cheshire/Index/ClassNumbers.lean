import Cheshire.Index.NumberKeys

/-!
# Keys of class numbers

`normalize_classnum` reads the parts of a Library of Congress class number and prints each of them in a
width of its own.  The block for the key has room for the least width of every part, while the scanner takes
longer parts as well.
-/

namespace Cheshire.Index

open Lib.DigitOrder

/-- `for (ofs = 0; ofs < sizeof field - 1 && is...(*in); ofs++, in++)`: the characters of a field, and what
stands behind them. -/
def scanField (accepts : Char → Bool) : ℕ → List Char → List Char × List Char
  | limit + 1, c :: text =>
    if accepts c then
      let scanned := scanField accepts limit text
      (c :: scanned.1, scanned.2)
    else ([], c :: text)
  | _, text => ([], text)

/-- `while (*in && isspace(*in)) in++;` -/
def skipBlanks (text : List Char) : List Char := text.dropWhile isSpace

/-- `*in == '.'` before a character of this kind -/
def pointBefore (accepts : Char → Bool) : List Char → Bool
  | '.' :: c :: _ => accepts c
  | _ => false

/-- The parts of a class number; `decflag` says whether there is a decimal part. -/
structure ClassNumber where
  mainclass : List Char
  valmainsub : ℕ
  decflag : Bool
  decimal : List Char
  subcutter : List Char
deriving DecidableEq, Repr

/-- The decimal part, and what stands behind it. -/
def readDecimal (text : List Char) : Bool × List Char × List Char :=
  if pointBefore Char.isDigit text then
    let scanned := scanField Char.isDigit 9 (skipBlanks text.tail)
    (true, scanned.1, scanned.2)
  else (false, [], text)

/-- The cutter, in capitals. -/
def readCutter (text : List Char) : List Char :=
  let text := skipBlanks text
  let text := if pointBefore Char.isAlphanum text then text.tail else text
  (scanField Char.isAlphanum 11 text).1.map Char.toUpper

/-- The parts that are read; without class letters or a class number the text is not accepted. -/
def readClassnum (text : List Char) : Option ClassNumber :=
  let letters := scanField Char.isAlpha 3 text
  if letters.1 = [] then none
  else
    let digits := scanField Char.isDigit 9 (skipBlanks letters.2)
    if digits.1 = [] then none
    else
      let fraction := readDecimal (skipBlanks digits.2)
      some {
        mainclass := letters.1.map Char.toUpper
        valmainsub := Nat.ofDigitChars 10 digits.1 0
        decflag := fraction.1
        decimal := fraction.2.1
        subcutter := readCutter fraction.2.2 }

/-- `sprintf(out, "%-3s%05d%c%-5s %-10s", ...)` -/
def ClassNumber.printed (number : ClassNumber) : List Char :=
  blankPadded ' ' 3 number.mainclass ++ (zeroPadded 5 number.valmainsub ++
    ((if number.decflag then '.' else ' ') :: blankPadded ' ' 5 number.decimal ++
      (' ' :: blankPadded ' ' 10 number.subcutter)))

/-- `out` has room for 26 characters. -/
def normalizeClassnum (text : CString) : Exec (Option (List Char)) :=
  match readClassnum text.chars with
  | none => .ok none
  | some number => sprintfKey 26 number.printed

theorem blank_lt_of_isAlphanum {c : Char} (h : c.isAlphanum = true) : ' ' < c.toUpper ∧ ' ' < c := by
  have hall : ∀ n < 128, (Char.ofNat n).isAlphanum = true →
      ' ' < (Char.ofNat n).toUpper ∧ ' ' < Char.ofNat n := by decide
  have hsmall : c.toNat < 128 := by
    have hbelow {last : Char} (hlast : last.toNat < 128) (hle : c.val ≤ last.val) : c.toNat < 128 :=
      lt_of_le_of_lt hle hlast
    rw [Char.isAlphanum, Char.isAlpha, Char.isUpper, Char.isLower, Char.isDigit] at h
    simp only [Bool.or_eq_true, Bool.and_eq_true, decide_eq_true_eq] at h
    rcases h with (⟨-, hle⟩ | ⟨-, hle⟩) | ⟨-, hle⟩
    · exact @hbelow 'Z' (by decide) hle
    · exact @hbelow 'z' (by decide) hle
    · exact @hbelow '9' (by decide) hle
  have hc := hall c.toNat hsmall
  rw [Char.ofNat_toNat] at hc
  exact hc h

theorem scanField_spec (accepts : Char → Bool) (limit : ℕ) (text : List Char) :
    (scanField accepts limit text).1.length ≤ limit ∧
      ∀ c ∈ (scanField accepts limit text).1, accepts c = true := by
  fun_induction scanField accepts limit text with
  | case1 limit c text haccepts scanned ih =>
    refine ⟨Nat.succ_le_succ ih.1, ?_⟩
    exact List.forall_mem_cons.mpr ⟨haccepts, ih.2⟩
  | case2 => simp
  | case3 => simp

/-- The parts of a class number as they are read. -/
structure ClassNumber.WellFormed (number : ClassNumber) : Prop where
  mainclass_length : number.mainclass.length ≤ 3
  mainclass : ∀ c ∈ number.mainclass, ' ' < c
  decflag : number.decflag = true ↔ number.decimal ≠ []
  decimal : ∀ c ∈ number.decimal, ' ' < c
  subcutter : ∀ c ∈ number.subcutter, ' ' < c

theorem blank_lt_of_mem_map_toUpper {text : List Char} (h : ∀ c ∈ text, c.isAlphanum = true) :
    ∀ c ∈ text.map Char.toUpper, ' ' < c := by
  intro c hc
  obtain ⟨c, hmem, rfl⟩ := List.mem_map.mp hc
  exact (blank_lt_of_isAlphanum (h c hmem)).1

theorem readDecimal_spec (text : List Char) :
    ((readDecimal text).1 = true ↔ (readDecimal text).2.1 ≠ []) ∧
      ∀ c ∈ (readDecimal text).2.1, ' ' < c := by
  rw [readDecimal]
  split_ifs with hpoint
  · obtain ⟨c, rest, rfl, hdigit⟩ : ∃ c rest, text = '.' :: c :: rest ∧ c.isDigit = true := by
      unfold pointBefore at hpoint
      split at hpoint
      · exact ⟨_, _, rfl, hpoint⟩
      · cases hpoint
    have hskip : skipBlanks (c :: rest) = c :: rest := by
      rw [skipBlanks, List.dropWhile_cons_of_neg (by simp [not_isSpace_of_isDigit hdigit])]
    have hfield : (scanField Char.isDigit 9 (c :: rest)).1 =
        c :: (scanField Char.isDigit 8 rest).1 := by
      rw [scanField, if_pos hdigit]
    refine ⟨iff_of_true rfl ?_, ?_⟩
    · rw [List.tail_cons, hskip, hfield]
      exact List.cons_ne_nil _ _
    · intro c hc
      have hdigit := (scanField_spec Char.isDigit 9 _).2 c hc
      exact (blank_lt_of_isAlphanum (by rw [Char.isAlphanum, hdigit, Bool.or_true])).2
  · simp

theorem wellFormed_of_readClassnum {text : List Char} {number : ClassNumber}
    (h : readClassnum text = some number) : number.WellFormed := by
  simp only [readClassnum] at h
  split_ifs at h with hletters hdigits
  obtain rfl := Option.some.inj h
  obtain ⟨hlength, halpha⟩ := scanField_spec Char.isAlpha 3 text
  obtain ⟨hflag, hdecimal⟩ :=
    readDecimal_spec (skipBlanks (scanField Char.isDigit 9 (skipBlanks (scanField Char.isAlpha 3 text).2)).2)
  refine ⟨by rwa [List.length_map], ?_, hflag, hdecimal, ?_⟩
  · refine blank_lt_of_mem_map_toUpper fun c hc ↦ ?_
    rw [Char.isAlphanum, halpha c hc, Bool.true_or]
  · exact blank_lt_of_mem_map_toUpper (scanField_spec Char.isAlphanum 11 _).2

namespace ClassNumber

/-- Every part can be printed in its width. -/
structure Fits (number : ClassNumber) : Prop where
  valmainsub : number.valmainsub < 10 ^ 5
  decimal : number.decimal.length ≤ 5
  subcutter : number.subcutter.length ≤ 10

/-- The order of the shelf: class letters, class number, decimal part, cutter. -/
def Before (first second : ClassNumber) : Prop :=
  first.mainclass < second.mainclass ∨ first.mainclass = second.mainclass ∧
    (first.valmainsub < second.valmainsub ∨ first.valmainsub = second.valmainsub ∧
      (first.decimal < second.decimal ∨ first.decimal = second.decimal ∧
        first.subcutter < second.subcutter))

def SameParts (first second : ClassNumber) : Prop :=
  first.mainclass = second.mainclass ∧ first.valmainsub = second.valmainsub ∧
    first.decimal = second.decimal ∧ first.subcutter = second.subcutter

variable {number first second : ClassNumber}

def pointed (number : ClassNumber) : List Char := if number.decflag then '.' :: number.decimal else []

theorem WellFormed.decimal_eq_nil (h : number.WellFormed) (hflag : number.decflag = false) :
    number.decimal = [] := by
  by_contra hne
  rw [h.decflag.mpr hne] at hflag
  cases hflag

theorem printed_eq (h : number.WellFormed) : number.printed =
    blankPadded ' ' 3 number.mainclass ++ (zeroPadded 5 number.valmainsub ++
      (blankPadded ' ' 6 number.pointed ++ (' ' :: blankPadded ' ' 10 number.subcutter))) := by
  have hfraction : (if number.decflag = true then '.' else ' ') :: blankPadded ' ' 5 number.decimal =
      blankPadded ' ' 6 number.pointed := by
    rw [pointed]
    cases hflag : number.decflag with
    | false =>
      rw [h.decimal_eq_nil hflag]
      rfl
    | true =>
      have hwidth : 6 - (number.decimal.length + 1) = 5 - number.decimal.length := by omega
      rw [if_pos rfl, if_pos rfl, blankPadded, blankPadded, List.length_cons, hwidth]
      rfl
  rw [printed, hfraction]

theorem blank_lt_pointed (h : number.WellFormed) : ∀ c ∈ number.pointed, ' ' < c := by
  rw [pointed]
  split
  · exact List.forall_mem_cons.mpr ⟨by decide, h.decimal⟩
  · simp

theorem length_pointed_le_iff (h : number.WellFormed) :
    number.pointed.length ≤ 6 ↔ number.decimal.length ≤ 5 := by
  rw [pointed]
  cases hflag : number.decflag with
  | false => simp [h.decimal_eq_nil hflag]
  | true =>
    rw [if_pos rfl, List.length_cons]
    omega

theorem pointed_lt_iff (h1 : first.WellFormed) (h2 : second.WellFormed) :
    first.pointed < second.pointed ↔ first.decimal < second.decimal := by
  rw [pointed, pointed]
  cases hflag1 : first.decflag with
  | false =>
    rw [h1.decimal_eq_nil hflag1]
    cases hflag2 : second.decflag with
    | false => rw [h2.decimal_eq_nil hflag2]; rfl
    | true =>
      obtain ⟨c, rest, hdecimal⟩ := List.exists_cons_of_ne_nil (h2.decflag.mp hflag2)
      rw [hdecimal]
      exact iff_of_true (List.nil_lt_cons _ _) (List.nil_lt_cons _ _)
  | true =>
    cases hflag2 : second.decflag with
    | false =>
      rw [h2.decimal_eq_nil hflag2]
      exact iff_of_false (List.not_lt_nil _) (List.not_lt_nil _)
    | true =>
      rw [if_pos rfl, if_pos rfl, List.cons_lt_cons_iff]
      simp

theorem pointed_inj (h1 : first.WellFormed) (h2 : second.WellFormed) :
    first.pointed = second.pointed ↔ first.decimal = second.decimal :=
  eq_iff_of_lt_iff (pointed_lt_iff h1 h2) (pointed_lt_iff h2 h1)

theorem length_zeroPadded_eq (n : ℕ) : 5 ≤ (zeroPadded 5 n).length ∧
    ((zeroPadded 5 n).length = 5 ↔ n < 10 ^ 5) := by
  have hdecimal := @length_decimal_le_iff n 5 (by decide)
  rw [← hdecimal, zeroPadded, List.length_append, List.length_replicate]
  omega

theorem length_printed (h : number.WellFormed) :
    25 ≤ number.printed.length ∧ (number.printed.length = 25 ↔ number.Fits) := by
  have hmain := h.mainclass_length
  obtain ⟨hsub, hsub_iff⟩ := length_zeroPadded_eq number.valmainsub
  have hpointed := length_pointed_le_iff h
  have hfits : number.Fits ↔ number.valmainsub < 10 ^ 5 ∧ number.decimal.length ≤ 5 ∧
      number.subcutter.length ≤ 10 :=
    ⟨fun hfits ↦ ⟨hfits.valmainsub, hfits.decimal, hfits.subcutter⟩,
      fun hfits ↦ ⟨hfits.1, hfits.2.1, hfits.2.2⟩⟩
  rw [hfits, ← hsub_iff, ← hpointed, printed_eq h]
  simp only [List.length_append, List.length_cons, length_blankPadded]
  omega

theorem printed_lt_iff (h1 : first.WellFormed) (h2 : second.WellFormed) (hfits1 : first.Fits)
    (hfits2 : second.Fits) : first.printed < second.printed ↔ Before first second := by
  have hwidth {width : ℕ} {xs ys : List Char} (hx : xs.length ≤ width) (hy : ys.length ≤ width) :
      (blankPadded ' ' width xs).length = (blankPadded ' ' width ys).length := by
    rw [length_blankPadded, length_blankPadded, max_eq_left hx, max_eq_left hy]
  have hsub : (zeroPadded 5 first.valmainsub).length = (zeroPadded 5 second.valmainsub).length := by
    rw [length_zeroPadded (by decide) hfits1.valmainsub, length_zeroPadded (by decide) hfits2.valmainsub]
  have hpointed1 := (length_pointed_le_iff h1).mpr hfits1.decimal
  have hpointed2 := (length_pointed_le_iff h2).mpr hfits2.decimal
  rw [printed_eq h1, printed_eq h2,
    append_lt_append_iff (hwidth h1.mainclass_length h2.mainclass_length), append_lt_append_iff hsub,
    append_lt_append_iff (hwidth hpointed1 hpointed2),
    blankPadded_lt_iff h1.mainclass h2.mainclass h1.mainclass_length h2.mainclass_length,
    blankPadded_inj h1.mainclass h2.mainclass h1.mainclass_length h2.mainclass_length,
    zeroPadded_lt_iff (by decide) hfits1.valmainsub hfits2.valmainsub, zeroPadded_inj,
    blankPadded_lt_iff (blank_lt_pointed h1) (blank_lt_pointed h2) hpointed1 hpointed2,
    blankPadded_inj (blank_lt_pointed h1) (blank_lt_pointed h2) hpointed1 hpointed2,
    pointed_lt_iff h1 h2, pointed_inj h1 h2, List.cons_lt_cons_iff,
    blankPadded_lt_iff h1.subcutter h2.subcutter hfits1.subcutter hfits2.subcutter, Before]
  simp

theorem not_before_iff : ¬ Before first second ∧ ¬ Before second first ↔ SameParts first second := by
  rw [Before, Before, SameParts]
  rcases lt_trichotomy first.mainclass second.mainclass with hlt | heq | hgt
  · simp [hlt, hlt.ne]
  · rcases lt_trichotomy first.valmainsub second.valmainsub with hlt | hvalue | hgt
    · simp [hlt, hlt.ne, heq]
    · rcases lt_trichotomy first.decimal second.decimal with hlt | hdecimal | hgt
      · simp [hlt, hlt.ne, heq, hvalue]
      · simp [heq, hvalue, hdecimal, le_antisymm_iff, and_comm]
      · simp [hgt, hgt.ne', heq, hvalue]
    · simp [hgt, hgt.ne', heq]
  · simp [hgt, hgt.ne']

theorem printed_eq_iff (h1 : first.WellFormed) (h2 : second.WellFormed) (hfits1 : first.Fits)
    (hfits2 : second.Fits) : first.printed = second.printed ↔ SameParts first second := by
  rw [← not_before_iff, ← printed_lt_iff h1 h2 hfits1 hfits2, ← printed_lt_iff h2 h1 hfits2 hfits1,
    not_lt, not_lt, le_antisymm_iff, and_comm]

end ClassNumber

/-- The keys of two class numbers with these parts fill 25 places and are in the order of the shelf. -/
def InShelfOrder (first second : CString) (parts1 parts2 : ClassNumber) : Prop :=
  ∃ key1 key2, normalizeClassnum first = .ok (some key1) ∧ normalizeClassnum second = .ok (some key2) ∧
    key1.length = 25 ∧ key2.length = 25 ∧ (key1 < key2 ↔ parts1.Before parts2) ∧
      (key1 = key2 ↔ parts1.SameParts parts2)

theorem normalizeClassnum_eq_some_iff {text : CString} {number : ClassNumber} {key : List Char}
    (h : readClassnum text.chars = some number) :
    normalizeClassnum text = .ok (some key) ↔ number.Fits ∧ key = number.printed := by
  obtain ⟨hmin, hfits⟩ := ClassNumber.length_printed (wellFormed_of_readClassnum h)
  simp only [normalizeClassnum, h, sprintfKey]
  split_ifs with hlength
  · have heq : number.printed.length = 25 := by omega
    simp [hfits.mp heq, eq_comm]
  · have hnot : ¬ number.Fits := fun hfit ↦ hlength (by rw [hfits.mpr hfit]; decide)
    simp [hnot]

/-- Keys are in the order of the shelf exactly where every part of both numbers fits its width. -/
theorem inShelfOrder_iff (first second : CString) (parts1 parts2 : ClassNumber)
    (h1 : readClassnum first.chars = some parts1) (h2 : readClassnum second.chars = some parts2) :
    InShelfOrder first second parts1 parts2 ↔ parts1.Fits ∧ parts2.Fits := by
  have hwell1 := wellFormed_of_readClassnum h1
  have hwell2 := wellFormed_of_readClassnum h2
  constructor
  · rintro ⟨key1, key2, hkey1, hkey2, -⟩
    exact ⟨((normalizeClassnum_eq_some_iff h1).mp hkey1).1, ((normalizeClassnum_eq_some_iff h2).mp hkey2).1⟩
  · rintro ⟨hfits1, hfits2⟩
    exact ⟨parts1.printed, parts2.printed, (normalizeClassnum_eq_some_iff h1).mpr ⟨hfits1, rfl⟩,
      (normalizeClassnum_eq_some_iff h2).mpr ⟨hfits2, rfl⟩,
      (ClassNumber.length_printed hwell1).2.mpr hfits1, (ClassNumber.length_printed hwell2).2.mpr hfits2,
      ClassNumber.printed_lt_iff hwell1 hwell2 hfits1 hfits2,
      ClassNumber.printed_eq_iff hwell1 hwell2 hfits1 hfits2⟩

theorem nul_notMem_algebra : nul ∉ ['Q', 'A', '7', '6', '.', '5', ' ', '.', 'B', '3'] := by decide

theorem nul_notMem_algebraVolume : nul ∉ ['q', 'a', '1', '2', '3', '4', '5', '6'] := by decide

/-- `QA76.5 .B3` -/
def algebra : CString := ⟨['Q', 'A', '7', '6', '.', '5', ' ', '.', 'B', '3'], nul_notMem_algebra⟩

theorem nul_notMem_logic : nul ∉ ['q', 'a', '9', ' ', '.', 'c', '4'] := by decide

/-- `qa9 .c4` -/
def logic : CString := ⟨['q', 'a', '9', ' ', '.', 'c', '4'], nul_notMem_logic⟩

/-- `qa123456` -/
def algebraVolume : CString := ⟨['q', 'a', '1', '2', '3', '4', '5', '6'], nul_notMem_algebraVolume⟩

theorem readClassnum_algebra :
    readClassnum algebra.chars = some ⟨['Q', 'A'], 76, true, ['5'], ['B', '3']⟩ := by decide

theorem readClassnum_logic :
    readClassnum logic.chars = some ⟨['Q', 'A'], 9, false, [], ['C', '4']⟩ := by decide

theorem readClassnum_algebraVolume :
    readClassnum algebraVolume.chars = some ⟨['Q', 'A'], 123456, false, [], []⟩ := by decide

theorem inShelfOrder_algebra : InShelfOrder logic algebra ⟨['Q', 'A'], 9, false, [], ['C', '4']⟩
    ⟨['Q', 'A'], 76, true, ['5'], ['B', '3']⟩ :=
  (inShelfOrder_iff logic algebra _ _ readClassnum_logic readClassnum_algebra).mpr
    ⟨⟨by decide, by decide, by decide⟩, ⟨by decide, by decide, by decide⟩⟩

/-- A class number of six digits is accepted, and its key does not fit the block. -/
theorem not_inShelfOrder :
    normalizeClassnum algebraVolume = .error .outOfBounds ∧
      ¬ ∀ first second parts1 parts2, readClassnum first.chars = some parts1 →
        readClassnum second.chars = some parts2 → InShelfOrder first second parts1 parts2 := by
  have hoverflow : normalizeClassnum algebraVolume = .error .outOfBounds := by decide
  refine ⟨hoverflow, fun hall ↦ ?_⟩
  obtain ⟨key1, key2, hkey1, -⟩ :=
    hall algebraVolume algebraVolume _ _ readClassnum_algebraVolume readClassnum_algebraVolume
  rw [hoverflow] at hkey1
  cases hkey1

end Cheshire.Index
