import Cheshire.Index.Dates
import Cheshire.Index.DecimalKeys
import Cheshire.Search.IntegerRange

/-!
# Ranges of years

Two years with a hyphen between them are a range under the pattern `YEAR-YEAR`.  The scanner of a year
also takes hyphens, so what ends the digits of the first year decides whether there is a second one.
-/

namespace Cheshire.Dates

open Index (paddedInt scanNumber sprintfKey)

/-- The suffixes of the eras, with the sign of their years. -/
def eraSuffixes : List (List Char × ℤ) :=
  ["BC", "B.C", "B.C.", "BCE", "B.C.E", "B.C.E.", "bc", "b.c", "b.c.", "bce", "b.c.e", "b.c.e."].map
    (fun letters ↦ (letters.toList, -1)) ++
  ["AD", "A.D", "A.D.", "CE", "C.E", "C.E.", "ad", "a.d", "a.d.", "ce", "c.e", "c.e."].map
    (fun letters ↦ (letters.toList, 1))

structure Blanks where
  chars : List Char
  white : ∀ c ∈ chars, c ∈ [' ', '\t', '\n']

structure EraSuffix where
  blanks : Blanks
  letters : List Char
  sign : ℤ
  known : (letters, sign) ∈ eraSuffixes

def eraChars : Option EraSuffix → List Char
  | none => []
  | some era => era.blanks.chars ++ era.letters

def eraSign : Option EraSuffix → ℤ
  | none => 1
  | some era => era.sign

structure WrittenYear where
  number : ℕ
  era : Option EraSuffix

def WrittenYear.value (y : WrittenYear) : ℤ := y.number * eraSign y.era

def WrittenYear.chars (y : WrittenYear) : List Char := decimal y.number ++ eraChars y.era

theorem skipWhile_append {p : Char → Bool} {skipped : List Char} (hskipped : ∀ c ∈ skipped, p c = true)
    {c : Char} (hc : p c = false) (rest : List Char) :
    skipWhile p (skipped ++ c :: rest) = .ok (c :: rest) := by
  induction skipped with
  | nil => simp [skipWhile, hc]
  | cons d skipped ih =>
    rw [List.cons_append, skipWhile, if_pos (hskipped d List.mem_cons_self)]
    exact ih fun other hmem ↦ hskipped other (List.mem_cons_of_mem _ hmem)

variable {c : Char}

theorem takeWhile_append_stop {p : Char → Bool} {taken : List Char}
    (htaken : ∀ c ∈ taken, p c = true) (hc : p c = false) (rest : List Char) :
    (taken ++ c :: rest).takeWhile p = taken := by
  rw [List.takeWhile_append_of_pos htaken, List.takeWhile_cons_of_neg (by simp [hc]), List.append_nil]

theorem copyWhile_append {p : Char → Bool} {f : Char → Char} {taken : List Char}
    (htaken : ∀ c ∈ taken, p c = true) (hf : taken.map f = taken) {c : Char} (hc : p c = false)
    (rest : List Char) :
    copyWhile p f (taken ++ c :: rest) =
      if taken.length < 100 then .ok (taken, c :: rest) else .error .outOfBounds := by
  rw [copyWhile, skipWhile_append htaken hc, takeWhile_append_stop htaken hc, hf]
  rfl

/-- A character that ends the era and the blanks around it. -/
def endsEra (c : Char) : Prop := isPunctuation c = false ∧ isLetterOf "ADBCE" c = false

theorem toUpper_of_isDigit (hc : c.isDigit = true) : c.toUpper = c := by
  have hupper : ¬(c.val ≥ 'a'.val ∧ c.val ≤ 'z'.val) := by
    rintro ⟨hlower, -⟩
    have hbound := (Lib.DigitOrder.digit_bounds hc).2
    exact absurd (UInt32.le_iff_toNat_le.mp hlower) (not_le.mpr (lt_trans hbound (by decide)))
  rw [Char.toUpper, dif_neg hupper]

theorem ne_of_isDigit {c : Char} (hc : c.isDigit = true) {d : Char} (hd : d.isDigit = false) : c ≠ d := by
  rintro rfl
  rw [hd] at hc
  cases hc

theorem endsEra_of_isDigit (hc : c.isDigit = true) : endsEra c := by
  have hne := @ne_of_isDigit c hc
  constructor
  · simp [isPunctuation, hne]
  · simp [isLetterOf, toUpper_of_isDigit hc, hne]

theorem isPunctuation_of_white (hc : c ∈ [' ', '\t', '\n']) : isPunctuation c = true := by
  simp only [List.mem_cons, List.not_mem_nil, or_false] at hc
  rcases hc with rfl | rfl | rfl <;> rfl

theorem isBc_of_endsEra (hc : endsEra c) (rest : List Char) : isBc (c :: rest) = .ok false := by
  have hne : c.toUpper ≠ 'B' := by
    intro heq
    have hletter := hc.2
    simp [isLetterOf, heq] at hletter
  change (if c.toUpper = 'B' then _ else _) = _
  rw [if_neg hne]

theorem eraSuffix_spec {letters : List Char} {sign : ℤ} (hknown : (letters, sign) ∈ eraSuffixes) :
    (∃ first others, letters = first :: others ∧ isPunctuation first = false) ∧
      (∀ c ∈ letters, isPunctuation c || isLetterOf "ADBCE" c) ∧ (sign = 1 ∨ sign = -1) ∧
      ∀ rest, isBc (letters ++ rest) = .ok (sign = -1) := by
  rcases List.mem_append.mp hknown with hknown | hknown <;>
    obtain ⟨text, htext, heq⟩ := List.mem_map.mp hknown <;> cases heq <;> fin_cases htext
  all_goals exact ⟨⟨_, _, rfl, by decide⟩, List.all_eq_true.mp (by decide), by decide, fun _ ↦ rfl⟩

theorem eraSign_cases (era : Option EraSuffix) : eraSign era = 1 ∨ eraSign era = -1 := by
  cases era with
  | none => exact .inl rfl
  | some era => exact (eraSuffix_spec era.known).2.2.1

variable {rest : List Char}

theorem getEra_of_head {ptr body : List Char} {bc : Bool} {first : Char}
    (hhead : ptr.head? = some first) (hne : first ≠ nul)
    (hskip : skipWhile isPunctuation ptr = .ok body) (hbc : isBc body = .ok bc)
    (hrest : skipWhile (fun c ↦ isPunctuation c || isLetterOf "ADBCE" c) body = .ok rest) :
    getEra ptr 1 = .ok (if bc then -1 else 1, rest) := by
  obtain ⟨others, rfl⟩ : ∃ others, ptr = first :: others := by
    rw [List.head?_eq_some_iff] at hhead
    exact hhead
  change (if first = nul then _ else _) = _
  rw [if_neg hne, hskip]
  change (isBc body >>= _) = _
  rw [hbc]
  change (skipWhile _ body >>= _) = _
  rw [hrest]
  rfl

theorem isRemoved_eraChars (era : Option EraSuffix) :
    ∀ d ∈ eraChars era, isPunctuation d || isLetterOf "ADBCE" d := by
  intro d hd
  cases era with
  | none => cases hd
  | some era =>
    rcases List.mem_append.mp hd with hd | hd
    · simp [isPunctuation_of_white (era.blanks.white d hd)]
    · exact (eraSuffix_spec era.known).2.1 d hd

theorem ne_nul_of_isRemoved {d : Char} (hd : isPunctuation d || isLetterOf "ADBCE" d) : d ≠ nul := by
  rintro rfl
  exact absurd hd (by decide)

theorem getEra_spec (era : Option EraSuffix) (after : Blanks) (hc : endsEra c) (rest : List Char) :
    getEra (eraChars era ++ (after.chars ++ c :: rest)) 1 = .ok (eraSign era, c :: rest) := by
  have hstop : (isPunctuation c || isLetterOf "ADBCE" c) = false := by simp [hc.1, hc.2]
  have hafter : ∀ d ∈ after.chars, isPunctuation d || isLetterOf "ADBCE" d := fun d hd ↦ by
    simp [isPunctuation_of_white (after.white d hd)]
  have hskip := skipWhile_append (fun d hd ↦ isPunctuation_of_white (after.white d hd)) hc.1 rest
  cases era with
  | none =>
    rcases hblanks : after.chars with _ | ⟨b, blanks⟩
    · by_cases hnul : c = nul
      · subst hnul
        rfl
      · exact getEra_of_head rfl hnul (hblanks ▸ hskip) (isBc_of_endsEra hc rest)
          (@skipWhile_append _ [] (by simp) _ hstop rest)
    · have hb := ne_nul_of_isRemoved (hafter b (hblanks ▸ List.mem_cons_self))
      exact getEra_of_head rfl hb (hblanks ▸ hskip) (isBc_of_endsEra hc rest)
        (@skipWhile_append _ [] (by simp) _ hstop rest)
  | some era =>
    obtain ⟨⟨first, others, hletters, hfirst⟩, hremoved, hsign, hbc⟩ := eraSuffix_spec era.known
    have hbody : skipWhile isPunctuation (era.blanks.chars ++ (era.letters ++ (after.chars ++ c :: rest))) =
        .ok (era.letters ++ (after.chars ++ c :: rest)) := by
      rw [hletters]
      exact skipWhile_append (fun d hd ↦ isPunctuation_of_white (era.blanks.white d hd)) hfirst _
    have hrest : skipWhile (fun d ↦ isPunctuation d || isLetterOf "ADBCE" d)
        (era.letters ++ (after.chars ++ c :: rest)) = .ok (c :: rest) := by
      rw [← List.append_assoc]
      exact skipWhile_append (List.forall_mem_append.mpr ⟨hremoved, hafter⟩) hstop rest
    have hsome : eraChars (some era) ≠ [] := by simp [eraChars, hletters]
    obtain ⟨head, tail, hchars⟩ := List.exists_cons_of_ne_nil hsome
    have hhead := ne_nul_of_isRemoved
      (isRemoved_eraChars (some era) head (hchars ▸ List.mem_cons_self))
    have hfront : (eraChars (some era) ++ (after.chars ++ c :: rest)).head? = some head := by
      rw [hchars]
      rfl
    rw [getEra_of_head hfront hhead (by rw [eraChars, List.append_assoc]; exact hbody) (hbc _) hrest]
    rcases hsign with hsign | hsign <;> simp [eraSign, hsign]

/-- A character that ends the run that is read as a year. -/
def endsYear (c : Char) : Prop := (isWild c || c == '-') = false

theorem doWild_of_digit {endRange : Bool} (hc : c.isDigit = true ∨ c = '-') :
    doWild endRange c = c := by
  rcases hc with hc | rfl
  · simp [doWild, hc]
  · rfl

theorem atoi_of_scan {text : List Char} {scanned : ℤ × List Char} (h : scanNumber text = some scanned) :
    atoi text = checkInt scanned.1 := by
  rw [atoi, h]

variable {n : ℕ} {extra : List Char}

theorem atoi_run (hextra : ∀ c ∈ extra.head?, c.isDigit = false) :
    atoi (decimal n ++ extra) = checkInt n :=
  atoi_of_scan (Index.scanNumber_decimal n hextra)

theorem exists_cons_decimal (n : ℕ) : ∃ first others, decimal n = first :: others ∧ first.isDigit = true := by
  obtain ⟨first, others, hdigits⟩ := List.exists_cons_of_ne_nil (decimal_ne_nil n)
  exact ⟨first, others, hdigits, @isDigit_of_mem_decimal n first (hdigits ▸ List.mem_cons_self)⟩

/-- A year that begins with digits: they are read with the hyphens and digits behind them, and then the
era. -/
theorem readElement_year {s : Scan} (hcptr : s.cptr = decimal n ++ extra ++ c :: rest)
    (hextra : ∀ d ∈ extra, d.isDigit = true ∨ d = '-')
    (hhead : ∀ d ∈ extra.head?, d.isDigit = false) (hc : endsYear c) : readElement false s .year =
      if (decimal n ++ extra).length < 100 then (do
        let value ← checkInt n
        let era ← getEra (c :: rest) 1
        let year ← checkInt (1 * (value * era.1))
        .ok { s with cptr := era.2, now := { s.now with year := year } })
      else .error .outOfBounds := by
  obtain ⟨first, others, hdigits, hfirst⟩ := exists_cons_decimal n
  have hrun : ∀ d ∈ decimal n ++ extra, d.isDigit = true ∨ d = '-' :=
    List.forall_mem_append.mpr ⟨fun d hd ↦ .inl (isDigit_of_mem_decimal hd), hextra⟩
  have hmap : (decimal n ++ extra).map (doWild s.rangeFlag) = decimal n ++ extra :=
    (List.map_congr_left fun d hd ↦ doWild_of_digit (hrun d hd)).trans (List.map_id _)
  have htaken : ∀ d ∈ decimal n ++ extra, (isWild d || d == '-') = true := by
    intro d hd
    rcases hrun d hd with h | h <;> simp [isWild, h]
  have hcopy := @copyWhile_append (fun c ↦ isWild c || c == '-') _ _ htaken hmap c hc rest
  have hminus : first ≠ '-' := by
    rintro rfl
    cases hfirst
  have hchar : charAt s.cptr 0 = .ok first := by rw [hcptr, hdigits]; rfl
  rw [readElement, hchar]
  change (copyWhile (fun c ↦ isWild c || c == '-') (doWild s.rangeFlag)
    (if first = '-' then s.cptr.tail else s.cptr) >>= readYear 1 (if first = '-' then -1 else 1) s) = _
  rw [if_neg hminus, if_neg hminus, hcptr, hcopy]
  split
  · change (atoi (decimal n ++ extra) >>= _) = _
    rw [atoi_run hhead]
  · rfl

theorem readElement_range {s : Scan} {skipped : List Char} {c : Char} {rest : List Char}
    (hcptr : s.cptr = skipped ++ c :: rest) (hskipped : ∀ d ∈ skipped, d ∈ [' ', '\t', '\n', '-'])
    (hc : c = nul ∨ c.isDigit = true) :
    readElement false s .range = .ok { s with
      cptr := c :: rest
      now := clamp s.now
      throughFlag := true
      rangeFlag := true
      start := clamp s.now
      scale :=
        if s.decadeFlag then 10 else if s.centuryFlag then 100 else if s.millenniumFlag then 1000
        else s.scale } := by
  have hstop : (decide (c ∈ [' ', '\t', '\n', '-']) || isLetterOf "THROGU" c) = false := by
    rcases hc with rfl | hc
    · decide
    · have hupper := toUpper_of_isDigit hc
      simp [isLetterOf, hupper, ne_of_isDigit hc]
  have hskip := @skipWhile_append (fun c ↦ c ∈ [' ', '\t', '\n', '-'] || isLetterOf "THROGU" c) skipped
    (fun d hd ↦ by simp only [hskipped d hd, decide_true, Bool.true_or]) c hstop rest
  rw [readElement, hcptr]
  change (skipWhile _ (skipped ++ c :: rest) >>= _) = _
  rw [hskip]
  rfl

def ofYear (year : ℤ) : DateTime := { DateTime.zero with year := year }

/-- The key of the range from one year to another; without a second year the first one is a range. -/
def yearsKey (first last : ℤ) : Option (List Char) :=
  if last = 0 ∧ first = 0 then none
  else some (rangeKey (ofYear first) (closeRange (ofYear first) (ofYear last)) 0)

theorem notMem_paddedInt (width : ℕ) (value : ℤ) : ' ' ∉ paddedInt width value := by
  have hdigits : ∀ n, ' ' ∉ Lib.DigitOrder.zeroPadded n value.natAbs := fun n hmem ↦
    absurd (Lib.DigitOrder.isDigit_of_mem_zeroPadded hmem) (by decide)
  rw [paddedInt]
  split
  · exact List.not_mem_cons_of_ne_of_not_mem (by decide) (hdigits _)
  · exact hdigits _

theorem field_inj {xs xs' ys ys' : List Char} (hxs : ' ' ∉ xs) (hxs' : ' ' ∉ xs')
    (h : xs ++ ' ' :: ys = xs' ++ ' ' :: ys') : xs = xs' ∧ ys = ys' := by
  have hfield : ∀ zs : List Char, ' ' ∉ zs → ∀ c ∈ zs, (c != ' ') = true := fun zs hzs c hc ↦ by
    simpa using fun heq : c = ' ' ↦ hzs (heq ▸ hc)
  have hfirst := congrArg (List.takeWhile (· != ' ')) h
  rw [takeWhile_append_stop (hfield xs hxs) (by decide), takeWhile_append_stop (hfield xs' hxs') (by decide)]
    at hfirst
  subst hfirst
  exact ⟨rfl, (List.cons.inj (List.append_cancel_left h)).2⟩

theorem rangeKey_inj {start stop start' stop' : DateTime} {scale scale' : ℤ}
    (h : rangeKey start stop scale = rangeKey start' stop' scale') :
    start.year = start'.year ∧ stop.year = stop'.year := by
  simp only [rangeKey, dateKey, List.append_assoc, List.cons_append] at h
  obtain ⟨hyear, h⟩ := field_inj (notMem_paddedInt _ _) (notMem_paddedInt _ _) h
  obtain ⟨-, h⟩ := field_inj (notMem_paddedInt _ _) (notMem_paddedInt _ _) h
  obtain ⟨-, h⟩ := field_inj (notMem_paddedInt _ _) (notMem_paddedInt _ _) h
  obtain ⟨-, h⟩ := field_inj (notMem_paddedInt _ _) (notMem_paddedInt _ _) h
  obtain ⟨-, h⟩ := field_inj (notMem_paddedInt _ _) (notMem_paddedInt _ _) h
  obtain ⟨hstop, -⟩ := field_inj (notMem_paddedInt _ _) (notMem_paddedInt _ _) h
  exact ⟨Search.paddedInt_inj.mp hyear, Search.paddedInt_inj.mp hstop⟩

/-- A key with this start year and this end year. -/
def IsRangeKey (first last : ℤ) (key : List Char) : Prop :=
  ∃ start stop scale, key = rangeKey start stop scale ∧ start.year = first ∧ stop.year = last

theorem closeRange_year (first last : ℤ) :
    (closeRange (ofYear first) (ofYear last)).year = if last = 0 then first else last := by
  rw [closeRange]
  split <;> rename_i hclose
  · rcases hclose.1 with hlast | hlast
    · simp only [ofYear] at hlast ⊢
      rw [if_pos hlast]
    · simp only [ofYear] at hlast ⊢
      rw [hlast, ite_self]
  · simp only [ofYear, DateTime.zero, and_true] at hclose ⊢
    split
    · omega
    · rfl

theorem exists_isRangeKey_iff {first last year year' : ℤ} :
    (∃ key, yearsKey first last = some key ∧ IsRangeKey year year' key) ↔
      ¬(last = 0 ∧ first = 0) ∧ first = year ∧ (if last = 0 then first else last) = year' := by
  rw [yearsKey]
  split <;> rename_i hzero
  · simp [hzero]
  · constructor
    · rintro ⟨_, hkey, start, stop, scale, rfl, rfl, rfl⟩
      obtain ⟨hfirst, hlast⟩ := rangeKey_inj (Option.some.inj hkey)
      exact ⟨hzero, hfirst, closeRange_year first last ▸ hlast⟩
    · rintro ⟨-, hfirst, hlast⟩
      exact ⟨_, rfl, _, _, _, rfl, hfirst, closeRange_year first last ▸ hlast⟩

/-- The variables behind the separator. -/
def afterRange (first : ℤ) (cptr : List Char) : Scan :=
  { Scan.initial cptr with
    now := ofYear first, start := ofYear first, rangeFlag := true, throughFlag := true }

def IsInt (value : ℤ) : Prop := -(2 ^ 31) ≤ value ∧ value ≤ 2 ^ 31 - 1

theorem checkInt_of_isInt {value : ℤ} (h : IsInt value) : checkInt value = .ok value := if_pos h

variable {first last : ℤ}

theorem length_rangeKey_lt (hfirst : IsInt first) (hlast : IsInt last) :
    (rangeKey (ofYear first) (closeRange (ofYear first) (ofYear last)) 0).length < 60 := by
  have hlength := Index.length_paddedInt_le hfirst
  have hlength' := Index.length_paddedInt_le hlast
  have hsmall : (paddedInt 2 0).length = 2 ∧ (paddedInt 2 12).length = 2 ∧ (paddedInt 2 31).length = 2 ∧
      (paddedInt 2 23).length = 2 ∧ (paddedInt 2 59).length = 2 ∧ (paddedInt 5 0).length = 5 := by decide
  rw [closeRange]
  split
  · simp only [rangeKey, dateKey, ofYear, DateTime.zero, if_true, List.length_append, List.length_cons,
      hsmall]
    omega
  · simp only [rangeKey, dateKey, ofYear, DateTime.zero, List.length_append, List.length_cons, hsmall]
    omega

theorem printKey_years (hfirst : IsInt first) (hlast : IsInt last) (cptr : List Char) :
    printKey { afterRange first cptr with now := ofYear last } = .ok (yearsKey first last) := by
  have hclamp : clamp (ofYear last) = ofYear last := rfl
  have hyear : lastYear { afterRange first cptr with now := ofYear last } last = .ok last := by
    rw [lastYear]
    change (checkInt last >>= fun year ↦ checkInt year >>= fun year ↦ checkInt year) = _
    rw [checkInt_of_isInt hlast]
    change (checkInt last >>= fun year ↦ checkInt year) = _
    rw [checkInt_of_isInt hlast]
    exact checkInt_of_isInt hlast
  have hzero (year : ℤ) : ofYear year = DateTime.zero ↔ year = 0 := by simp [ofYear, DateTime.zero]
  rw [printKey]
  change (lastYear { afterRange first cptr with now := ofYear last } last >>= fun year ↦
    if ofYear year = .zero ∧ ofYear first = .zero then .ok none
    else sprintfKey 60 (rangeKey (ofYear first) (closeRange (ofYear first) (ofYear year)) 0)) = _
  rw [hyear]
  change (if ofYear last = .zero ∧ ofYear first = .zero then Except.ok none else _) = _
  simp only [hzero]
  rw [yearsKey, sprintfKey, if_pos (length_rangeKey_lt hfirst hlast)]
  split <;> rfl

section Text

variable (a b : WrittenYear) (before after : Blanks)

def rangeChars : List Char := a.chars ++ before.chars ++ '-' :: (after.chars ++ b.chars)

theorem nul_notMem_chars (y : WrittenYear) : nul ∉ y.chars := fun hmem ↦ by
  rcases List.mem_append.mp hmem with hmem | hmem
  · exact null_notMem_decimal _ hmem
  · exact ne_nul_of_isRemoved (isRemoved_eraChars y.era _ hmem) rfl

theorem nul_notMem_blanks (blanks : Blanks) : nul ∉ blanks.chars := fun hmem ↦
  absurd (blanks.white _ hmem) (by decide)

/-- `a-b`, with blanks or without them. -/
def yearRange : CString where
  chars := rangeChars a b before after
  terminated := by
    simp only [rangeChars, List.mem_append, List.mem_cons, nul_notMem_chars, nul_notMem_blanks, false_or,
      or_false]
    decide

theorem isInt_value {y : WrittenYear} (hy : y.number ≤ INT_MAX) : IsInt y.value := by
  have hbound : (y.number : ℤ) ≤ 2 ^ 31 - 1 := by
    have hcast : (y.number : ℤ) ≤ (INT_MAX : ℤ) := by exact_mod_cast hy
    exact hcast.trans (by decide)
  rcases eraSign_cases y.era with hsign | hsign
  · exact ⟨by rw [WrittenYear.value, hsign]; omega, by rw [WrittenYear.value, hsign]; omega⟩
  · exact ⟨by rw [WrittenYear.value, hsign]; omega, by rw [WrittenYear.value, hsign]; omega⟩

theorem endsYear_of_isRemoved {d : Char} (hd : isPunctuation d || isLetterOf "ADBCE" d) : endsYear d := by
  by_contra hyear
  have hcases : d.isDigit = true ∨ d = 'x' ∨ d = 'X' ∨ d = '-' := by
    simpa only [endsYear, isWild, Bool.or_eq_false_iff, not_and_or, Bool.not_eq_false, beq_iff_eq,
      or_assoc] using hyear
  rcases hcases with hdigit | rfl | rfl | rfl
  · obtain ⟨hpunctuation, hletter⟩ := endsEra_of_isDigit hdigit
    simp [hpunctuation, hletter] at hd
  all_goals exact absurd hd (by decide)

theorem parseDate_yearRange :
    parseDate (yearRange a b before after) (some "YEAR-YEAR".toList) =
      (readElement false (.initial (rangeChars a b before after ++ [nul])) .year >>= fun s ↦
        readElement false s .range >>= fun s ↦ readElement false s .year >>= printKey) := by
  obtain ⟨first, others, hdigits, hfirst⟩ := exists_cons_decimal a.number
  have hblank : decide (first ∈ [' ', '\t', '\n']) = false := by simp [ne_of_isDigit hfirst]
  have hstored : (yearRange a b before after).stored = rangeChars a b before after ++ [nul] := rfl
  obtain ⟨rest, hchars⟩ : ∃ rest, rangeChars a b before after ++ [nul] = first :: rest :=
    ⟨_, by rw [rangeChars, WrittenYear.chars, hdigits]; rfl⟩
  have hskip := @skipWhile_append (fun c ↦ c ∈ [' ', '\t', '\n']) [] (by simp) first hblank rest
  rw [parseDate, hstored, hchars]
  change (skipWhile (fun c ↦ c ∈ [' ', '\t', '\n']) ([] ++ first :: rest) >>= _) = _
  rw [hskip]
  change parseTrimmed (first :: rest) "YEAR-YEAR".toList = _
  rw [parseTrimmed, if_neg (by decide), if_neg (by decide), if_neg (by decide)]
  have helements : elements ("YEAR-YEAR".toList.map Char.toUpper) = [.year, .range, .year] := by decide
  have hiso : isOneOf ("YEAR-YEAR".toList.map Char.toUpper)
      ["YYYY-MM-DD", "YY-MM-DD", "YYYY-MM-DDTHH:MM:SS", "YYYY-MM-DD HH:MM:SS"] = false := by decide
  have hnumeric : ((["YY", "MM", "DD"] : List String).any fun word ↦
      word.toList.isPrefixOf ("YEAR-YEAR".toList.map Char.toUpper)) = false := by decide
  rw [parsePattern, helements, hiso, hnumeric]
  simp only [List.foldlM_cons, List.foldlM_nil, bind_assoc, pure_bind]
  rfl

/-- Something stands between the digits of the first year and those of the second one, with the hyphen. -/
def Separated : Prop := a.era ≠ none ∨ before.chars ≠ [] ∨ after.chars ≠ []

variable {a b before after}

theorem length_decimal_le (hn : n ≤ INT_MAX) : (decimal n).length ≤ 10 := by
  rw [Lib.DigitOrder.length_decimal_le_iff (by decide)]
  exact lt_of_le_of_lt hn (by decide)

theorem checkInt_ne_ok (hn : ¬n ≤ INT_MAX) (value : ℤ) : checkInt n ≠ .ok value := by
  have hmax : INT_MAX = 2147483647 := by decide
  have hbound : ¬(n : ℤ) ≤ 2 ^ 31 - 1 := by omega
  rw [checkInt, if_neg fun h ↦ hbound h.2]
  exact fun h ↦ by cases h

theorem readElement_year_ok {s : Scan} {y : WrittenYear} {extra : List Char} {blanks : Blanks} {c d : Char}
    {rest rest' : List Char} (hy : y.number ≤ INT_MAX)
    (hcptr : s.cptr = decimal y.number ++ extra ++ c :: rest)
    (hextra : ∀ d ∈ extra, d.isDigit = true ∨ d = '-') (hhead : ∀ d ∈ extra.head?, d.isDigit = false)
    (hlength : (decimal y.number ++ extra).length < 100) (hc : endsYear c)
    (hera : c :: rest = eraChars y.era ++ (blanks.chars ++ d :: rest')) (hd : endsEra d) :
    readElement false s .year =
      .ok { s with cptr := d :: rest', now := { s.now with year := y.value } } := by
  rw [readElement_year hcptr hextra hhead hc, if_pos hlength, checkInt_natCast hy, hera]
  change (getEra (eraChars y.era ++ (blanks.chars ++ d :: rest')) 1 >>= _) = _
  rw [getEra_spec y.era blanks hd rest']
  change (checkInt (1 * (y.number * eraSign y.era)) >>= _) = _
  rw [one_mul]
  change (checkInt y.value >>= _) = _
  rw [checkInt_of_isInt (isInt_value hy)]
  rfl

theorem readElement_year_ne_ok {s : Scan} (hn : ¬n ≤ INT_MAX)
    (hcptr : s.cptr = decimal n ++ extra ++ c :: rest)
    (hextra : ∀ d ∈ extra, d.isDigit = true ∨ d = '-')
    (hhead : ∀ d ∈ extra.head?, d.isDigit = false) (hc : endsYear c)
    (result : Scan) : readElement false s .year ≠ .ok result := by
  rw [readElement_year hcptr hextra hhead hc]
  split
  · intro h
    obtain ⟨value, hvalue, -⟩ := bind_eq_ok.mp h
    exact checkInt_ne_ok hn value hvalue
  · exact fun h ↦ by cases h

theorem endsEra_nul : endsEra nul := ⟨by decide, by decide⟩

theorem endsEra_hyphen : endsEra '-' := ⟨by decide, by decide⟩

theorem endsYear_nul : endsYear nul := by unfold endsYear; decide

theorem exists_tail (era : Option EraSuffix) (blanks : Blanks) {d : Char} (rest : List Char)
    (hd : eraChars era ++ blanks.chars = [] → endsYear d) :
    ∃ c others, eraChars era ++ (blanks.chars ++ d :: rest) = c :: others ∧ endsYear c := by
  rcases hskipped : eraChars era ++ blanks.chars with _ | ⟨c, others⟩
  · exact ⟨d, rest, by rw [← List.append_assoc, hskipped]; rfl, hd hskipped⟩
  · refine ⟨c, others ++ d :: rest, by rw [← List.append_assoc, hskipped]; rfl, ?_⟩
    have hmem : c ∈ eraChars era ++ blanks.chars := hskipped ▸ List.mem_cons_self
    rcases List.mem_append.mp hmem with hmem | hmem
    · exact endsYear_of_isRemoved (isRemoved_eraChars era c hmem)
    · exact endsYear_of_isRemoved (by simp [isPunctuation_of_white (blanks.white c hmem)])

def noBlanks : Blanks := ⟨[], by simp⟩

theorem secondYear_iff (hfirst : IsInt first) :
    (∃ key, (readElement false (afterRange first (b.chars ++ [nul])) .year >>= printKey) = .ok (some key) ∧
        IsRangeKey first last key) ↔
      b.number ≤ INT_MAX ∧ ¬(b.value = 0 ∧ first = 0) ∧ (if b.value = 0 then first else b.value) = last := by
  obtain ⟨c, others, htail, hc⟩ := exists_tail b.era noBlanks [] fun _ ↦ endsYear_nul
  have hcptr : b.chars ++ [nul] = decimal b.number ++ [] ++ c :: others := by
    rw [List.append_nil, ← htail, WrittenYear.chars, List.append_assoc]
    rfl
  by_cases hb : b.number ≤ INT_MAX
  · have hread := @readElement_year_ok (afterRange first (b.chars ++ [nul])) b [] noBlanks c nul others []
      hb hcptr (by simp) (by simp) (by simpa using lt_of_le_of_lt (length_decimal_le hb) (by decide)) hc
      htail.symm endsEra_nul
    rw [hread]
    change (∃ key, printKey { afterRange first [nul] with now := ofYear b.value } = .ok (some key) ∧ _) ↔ _
    rw [printKey_years hfirst (isInt_value hb)]
    have hiff := @exists_isRangeKey_iff first b.value first last
    simp only [Except.ok.injEq, hiff, hb, true_and]
  · constructor
    · rintro ⟨key, hkey, -⟩
      obtain ⟨s, hs, -⟩ := bind_eq_ok.mp hkey
      exact absurd hs (readElement_year_ne_ok hb hcptr (by simp) (by simp) hc s)
    · exact fun h ↦ absurd h.1 hb

/-- What the first two elements leave: the first year, and the pointer behind the separator. -/
theorem readRange_ok {y : WrittenYear} {extra skipped : List Char} {blanks : Blanks} {c d e : Char}
    {others rest rest' : List Char} (hy : y.number ≤ INT_MAX)
    (hextra : ∀ d ∈ extra, d.isDigit = true ∨ d = '-') (hhead : ∀ d ∈ extra.head?, d.isDigit = false)
    (hlength : (decimal y.number ++ extra).length < 100) (hc : endsYear c)
    (hera : c :: others = eraChars y.era ++ (blanks.chars ++ d :: rest)) (hd : endsEra d)
    (hrest : d :: rest = skipped ++ e :: rest') (hskipped : ∀ d ∈ skipped, d ∈ [' ', '\t', '\n', '-'])
    (he : e = nul ∨ e.isDigit = true) (next : Scan → Exec (Option (List Char))) :
    (readElement false (.initial (decimal y.number ++ extra ++ c :: others)) .year >>= fun s ↦
        readElement false s .range >>= next) = next (afterRange y.value (e :: rest')) := by
  have hfirst := @readElement_year_ok (.initial (decimal y.number ++ extra ++ c :: others)) y extra blanks
    c d others rest hy rfl hextra hhead hlength hc hera hd
  have hsecond := @readElement_range { Scan.initial (d :: rest) with now := ofYear y.value } skipped e rest'
    hrest hskipped he
  rw [hfirst]
  change (readElement false { Scan.initial (d :: rest) with now := ofYear y.value } .range >>= next) = _
  rw [hsecond]
  rfl

theorem exists_split (b : WrittenYear) (h : Separated a before after) :
    ∃ extra blanks c others d rest skipped,
      rangeChars a b before after ++ [nul] = decimal a.number ++ extra ++ c :: others ∧
      (extra = [] ∨ extra = ['-']) ∧ endsYear c ∧
      c :: others = eraChars a.era ++ (Blanks.chars blanks ++ d :: rest) ∧ endsEra d ∧
      d :: rest = skipped ++ (b.chars ++ [nul]) ∧ ∀ e ∈ skipped, e ∈ [' ', '\t', '\n', '-'] := by
  have hwhite (blanks : Blanks) : ∀ e ∈ blanks.chars, e ∈ [' ', '\t', '\n', '-'] := fun e he ↦
    List.mem_append_left ['-'] (blanks.white e he)
  by_cases hfront : eraChars a.era ++ before.chars = []
  · obtain ⟨heraChars, hbefore⟩ := List.append_eq_nil_iff.mp hfront
    have hera : a.era = none := by
      by_contra hsome
      obtain ⟨era, hera⟩ := Option.ne_none_iff_exists'.mp hsome
      obtain ⟨first, others, hletters, -⟩ := (eraSuffix_spec era.known).1
      simp [hera, eraChars, hletters] at heraChars
    have hafter : after.chars ≠ [] := by simpa [Separated, hera, hbefore] using h
    obtain ⟨d, others', hdigits, hd⟩ := exists_cons_decimal b.number
    obtain ⟨c, others, htail, hc⟩ := @exists_tail none after d (others' ++ eraChars b.era ++ [nul])
      fun hnil ↦ absurd hnil hafter
    refine ⟨['-'], after, c, others, d, others' ++ eraChars b.era ++ [nul], [], ?_, .inr rfl, hc, ?_,
      endsEra_of_isDigit hd, ?_, by simp⟩
    · rw [← htail, rangeChars, WrittenYear.chars, WrittenYear.chars, hbefore, hera, hdigits]
      simp [eraChars]
    · rw [hera, ← htail]
    · rw [WrittenYear.chars, hdigits]
      rfl
  · obtain ⟨c, others, htail, hc⟩ := @exists_tail a.era before '-' (after.chars ++ (b.chars ++ [nul]))
      fun hnil ↦ absurd hnil hfront
    refine ⟨[], before, c, others, '-', after.chars ++ (b.chars ++ [nul]), '-' :: after.chars, ?_, .inl rfl,
      hc, htail.symm, endsEra_hyphen, rfl, ?_⟩
    · rw [← htail, rangeChars, WrittenYear.chars]
      simp
    · exact List.forall_mem_cons.mpr ⟨by decide, hwhite after⟩

theorem separated_iff (h : Separated a before after) :
    (∃ key, parseDate (yearRange a b before after) (some "YEAR-YEAR".toList) = .ok (some key) ∧
        IsRangeKey a.value b.value key) ↔
      a.number ≤ INT_MAX ∧ b.number ≤ INT_MAX ∧ b.number ≠ 0 := by
  obtain ⟨extra, blanks, c, others, d, rest, skipped, hchars, hextra, hc, htail, hd, hrest, hskipped⟩ :=
    exists_split b h
  have hrun : ∀ e ∈ extra, e.isDigit = true ∨ e = '-' := by
    rcases hextra with rfl | rfl <;> simp
  have hhead : ∀ e ∈ extra.head?, e.isDigit = false := by
    rcases hextra with rfl | rfl
    · simp
    · rintro e ⟨rfl⟩
      rfl
  rw [parseDate_yearRange, hchars]
  by_cases ha : a.number ≤ INT_MAX
  · have hlength : (decimal a.number ++ extra).length < 100 := by
      have hdecimal := length_decimal_le ha
      have hone : extra.length ≤ 1 := by rcases hextra with rfl | rfl <;> decide
      rw [List.length_append]
      omega
    obtain ⟨first, others', hdigits, hdigit⟩ := exists_cons_decimal b.number
    have hb : b.chars ++ [nul] = first :: (others' ++ eraChars b.era ++ [nul]) := by
      rw [WrittenYear.chars, hdigits]
      rfl
    rw [readRange_ok ha hrun hhead hlength hc htail hd (hb ▸ hrest) hskipped (.inr hdigit), ← hb]
    rw [secondYear_iff (isInt_value ha)]
    have hzero : b.value = 0 ↔ b.number = 0 := by
      rcases eraSign_cases b.era with hsign | hsign <;> simp [WrittenYear.value, hsign]
    simp only [ha, true_and, hzero]
    constructor
    · rintro ⟨hb, hboth, hlast⟩
      refine ⟨hb, fun hnone ↦ ?_⟩
      rw [if_pos hnone] at hlast
      exact hboth ⟨hnone, hlast.trans (hzero.mpr hnone)⟩
    · rintro ⟨hb, hne⟩
      exact ⟨hb, fun hboth ↦ hne hboth.1, if_neg hne⟩
  · constructor
    · rintro ⟨key, hkey, -⟩
      obtain ⟨s, hs, -⟩ := bind_eq_ok.mp hkey
      exact absurd hs (readElement_year_ne_ok ha rfl hrun hhead hc s)
    · exact fun hall ↦ absurd hall.1 ha

theorem readElement_nul (first : ℤ) : readElement false (afterRange first [nul]) .year =
    .ok { afterRange first [nul] with now := ofYear 0 } := rfl

/-- Years with only the hyphen between them are read as one: its number is that of the first year, its era
that of the second one. -/
theorem glued_iff (hera : a.era = none) (hbefore : before.chars = []) (hafter : after.chars = []) :
    (∃ key, parseDate (yearRange a b before after) (some "YEAR-YEAR".toList) = .ok (some key) ∧
        IsRangeKey a.value b.value key) ↔
      a.number ≤ INT_MAX ∧ b.number ≤ INT_MAX ∧ b.number ≠ 0 ∧ a.value = b.value := by
  obtain ⟨c, others, htail, hc⟩ := exists_tail b.era noBlanks [] fun _ ↦ endsYear_nul
  have hchars : rangeChars a b before after ++ [nul] =
      decimal a.number ++ '-' :: decimal b.number ++ c :: others := by
    rw [← htail, rangeChars, WrittenYear.chars, WrittenYear.chars, hera, hbefore, hafter]
    simp [eraChars, noBlanks]
  have hrun : ∀ e ∈ '-' :: decimal b.number, e.isDigit = true ∨ e = '-' :=
    List.forall_mem_cons.mpr ⟨.inr rfl, fun e he ↦ .inl (isDigit_of_mem_decimal he)⟩
  have hhead : ∀ e ∈ ('-' :: decimal b.number).head?, e.isDigit = false := by
    rintro e ⟨rfl⟩
    rfl
  have hvalue : a.value = a.number := by rw [WrittenYear.value, hera, eraSign, mul_one]
  rw [parseDate_yearRange, hchars]
  by_cases hread : a.number ≤ INT_MAX ∧ (decimal a.number ++ '-' :: decimal b.number).length < 100
  · -- the year that is read has the era of the second one
    have hrange := @readRange_ok ⟨a.number, b.era⟩ _ [] noBlanks c nul nul others [] [] hread.1 hrun hhead
      hread.2 hc htail.symm endsEra_nul rfl (by simp) (.inl rfl)
    dsimp only at hrange
    rw [hrange]
    rw [readElement_nul]
    change (∃ key, printKey { afterRange (a.number * eraSign b.era) [nul] with now := ofYear 0 } =
      .ok (some key) ∧ _) ↔ _
    have hprint : printKey { afterRange (a.number * eraSign b.era) [nul] with now := ofYear 0 } =
        .ok (yearsKey (a.number * eraSign b.era) 0) :=
      printKey_years (isInt_value (y := ⟨a.number, b.era⟩) hread.1) ⟨by decide, by decide⟩ [nul]
    rw [hprint]
    have hiff := @exists_isRangeKey_iff (a.number * eraSign b.era) 0 a.value b.value
    have hb : b.value = b.number * eraSign b.era := rfl
    simp only [Except.ok.injEq, hiff, hread.1, true_and, if_true]
    rw [hvalue, hb]
    rcases eraSign_cases b.era with hsign | hsign
    · rw [hsign]
      omega
    · rw [hsign]
      omega
  · constructor
    · rintro ⟨key, hkey, -⟩
      obtain ⟨s, hs, -⟩ := bind_eq_ok.mp hkey
      rw [not_and_or] at hread
      rcases hread with ha | hlength
      · exact absurd hs (readElement_year_ne_ok ha rfl hrun hhead hc s)
      · rw [readElement_year rfl hrun hhead hc, if_neg hlength] at hs
        cases hs
    · rintro ⟨ha, hb, -, -⟩
      have ha10 := length_decimal_le ha
      have hb10 := length_decimal_le hb
      refine absurd ⟨ha, ?_⟩ hread
      rw [List.length_append, List.length_cons]
      omega

/-- A range of years is read exactly when an `int` holds both numbers, the second one is not 0, and something
but the hyphen stands between the digits of the years, unless they are the same year. -/
theorem isRangeKey_yearRange_iff (a b : WrittenYear) (before after : Blanks) :
    (∃ key, parseDate (yearRange a b before after) (some "YEAR-YEAR".toList) = .ok (some key) ∧
        IsRangeKey a.value b.value key) ↔
      a.number ≤ INT_MAX ∧ b.number ≤ INT_MAX ∧ b.number ≠ 0 ∧
        (Separated a before after ∨ a.value = b.value) := by
  by_cases hseparated : Separated a before after
  · rw [separated_iff hseparated]
    simp only [hseparated, true_or, and_true]
  · have hglued := hseparated
    simp only [Separated, not_or, not_not] at hglued
    rw [glued_iff hglued.1 hglued.2.1 hglued.2.2]
    simp only [hseparated, false_or]

/-- The range `100-200` is read as the year 100. -/
theorem not_isRangeKey_bareHyphen :
    ¬∀ (a b : WrittenYear) (before after : Blanks), a.value ≤ b.value →
      ∃ key, parseDate (yearRange a b before after) (some "YEAR-YEAR".toList) = .ok (some key) ∧
        IsRangeKey a.value b.value key := by
  intro h
  have hrange := h ⟨100, none⟩ ⟨200, none⟩ noBlanks noBlanks (by decide)
  rw [glued_iff rfl rfl rfl] at hrange
  exact absurd hrange.2.2.2 (by decide)

end Text

end Cheshire.Dates
