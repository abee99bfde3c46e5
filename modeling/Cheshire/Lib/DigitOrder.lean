import Cheshire.Lib.CString

/-!
# The order of printed numbers

Strings are compared character by character.  Strings of digits of one length are in the order of the
numbers they denote, so numbers printed with leading zeros in a fixed width compare like strings.
-/

namespace Cheshire.Lib.DigitOrder

section Parts

variable {α : Type*} [LinearOrder α] {xs xs' ys ys' : List α}

theorem append_lt_append_iff (h : xs.length = xs'.length) :
    xs ++ ys < xs' ++ ys' ↔ xs < xs' ∨ xs = xs' ∧ ys < ys' := by
  induction xs generalizing xs' with
  | nil =>
    have hnil : xs' = [] := List.eq_nil_of_length_eq_zero h.symm
    subst hnil
    simp
  | cons x xs ih =>
    cases xs' with
    | nil => cases h
    | cons x' xs' =>
      rw [List.cons_append, List.cons_append, List.cons_lt_cons_iff, List.cons_lt_cons_iff,
        ih (Nat.succ.inj h), List.cons.injEq]
      tauto

omit [LinearOrder α] in
theorem append_eq_append_iff (h : xs.length = xs'.length) :
    xs ++ ys = xs' ++ ys' ↔ xs = xs' ∧ ys = ys' := by
  constructor
  · exact fun heq ↦ List.append_inj heq h
  · rintro ⟨rfl, rfl⟩
    rfl

theorem append_lt_append_of_ne (h : xs.length = xs'.length) (hne : xs ≠ xs') :
    xs ++ ys < xs' ++ ys' ↔ xs < xs' := by
  rw [append_lt_append_iff h]
  simp [hne]

theorem eq_iff_of_lt_iff {β : Type*} [LinearOrder β] {x y : α} {a b : β} (h : x < y ↔ a < b)
    (h' : y < x ↔ b < a) : x = y ↔ a = b := by
  rw [le_antisymm_iff, le_antisymm_iff, ← not_lt, ← not_lt, ← not_lt, ← not_lt, h, h']

theorem append_lt_append_left (zs : List α) : zs ++ ys < zs ++ ys' ↔ ys < ys' := by
  rw [append_lt_append_iff rfl]
  simp

end Parts

theorem digit_bounds {c : Char} (hc : c.isDigit = true) :
    '0'.toNat ≤ c.toNat ∧ c.toNat < '0'.toNat + 10 := by
  rw [Char.isDigit, Bool.and_eq_true, decide_eq_true_eq, decide_eq_true_eq] at hc
  have hlower : '0'.toNat ≤ c.toNat := hc.1
  have hupper : c.toNat ≤ '9'.toNat := hc.2
  exact ⟨hlower, Nat.lt_succ_of_le hupper⟩

theorem ofDigitChars_cons_zero (c : Char) (cs : List Char) :
    Nat.ofDigitChars 10 (c :: cs) 0 =
      10 ^ cs.length * (c.toNat - '0'.toNat) + Nat.ofDigitChars 10 cs 0 := by
  rw [Nat.ofDigitChars_cons, Nat.ofDigitChars_eq_ofDigitChars_zero]
  simp

theorem ofDigitChars_lt (cs : List Char) (h : ∀ c ∈ cs, c.isDigit = true) :
    Nat.ofDigitChars 10 cs 0 < 10 ^ cs.length := by
  induction cs with
  | nil => simp
  | cons c cs ih =>
    have hrest := ih fun other hmem ↦ h other (List.mem_cons_of_mem _ hmem)
    have hdigit := digit_bounds (h c List.mem_cons_self)
    have hle : c.toNat - '0'.toNat ≤ 9 := by omega
    have hmul := Nat.mul_le_mul_left (10 ^ cs.length) hle
    rw [ofDigitChars_cons_zero, List.length_cons, pow_succ]
    omega

theorem weighted_lt_iff {power d e m n : ℕ} (hm : m < power) (hn : n < power) :
    power * d + m < power * e + n ↔ d < e ∨ d = e ∧ m < n := by
  rcases lt_trichotomy d e with hlt | rfl | hgt
  · have hmul := Nat.mul_le_mul_left power (Nat.succ_le_of_lt hlt)
    rw [Nat.mul_succ] at hmul
    exact iff_of_true (by omega) (Or.inl hlt)
  · simp
  · have hmul := Nat.mul_le_mul_left power (Nat.succ_le_of_lt hgt)
    rw [Nat.mul_succ] at hmul
    exact iff_of_false (by omega) (by omega)

theorem digits_lt_iff {ds es : List Char} (hds : ∀ c ∈ ds, c.isDigit = true)
    (hes : ∀ c ∈ es, c.isDigit = true) (hlength : ds.length = es.length) :
    ds < es ↔ Nat.ofDigitChars 10 ds 0 < Nat.ofDigitChars 10 es 0 := by
  induction ds generalizing es with
  | nil =>
    have hnil : es = [] := List.eq_nil_of_length_eq_zero hlength.symm
    subst hnil
    simp
  | cons d ds ih =>
    cases es with
    | nil => cases hlength
    | cons e es =>
      have hlength := Nat.succ.inj hlength
      have hds' : ∀ c ∈ ds, c.isDigit = true := fun c hc ↦ hds c (List.mem_cons_of_mem _ hc)
      have hes' : ∀ c ∈ es, c.isDigit = true := fun c hc ↦ hes c (List.mem_cons_of_mem _ hc)
      have hd := digit_bounds (hds d List.mem_cons_self)
      have he := digit_bounds (hes e List.mem_cons_self)
      have hlt : d < e ↔ d.toNat - '0'.toNat < e.toNat - '0'.toNat := by
        have hchar : d < e ↔ d.toNat < e.toNat := Iff.rfl
        rw [hchar]
        omega
      have heq : d = e ↔ d.toNat - '0'.toNat = e.toNat - '0'.toNat := by
        rw [← Char.toNat_inj]
        omega
      rw [List.cons_lt_cons_iff, ofDigitChars_cons_zero, ofDigitChars_cons_zero, ih hds' hes' hlength,
        hlength, weighted_lt_iff (hlength ▸ ofDigitChars_lt ds hds') (ofDigitChars_lt es hes'), hlt, heq]

/-- A number printed with leading zeros in at least so many places. -/
def zeroPadded (width n : ℕ) : List Char :=
  List.replicate (width - (decimal n).length) '0' ++ decimal n

theorem isDigit_of_mem_zeroPadded {width n : ℕ} {c : Char} (hc : c ∈ zeroPadded width n) :
    c.isDigit = true := by
  rcases List.mem_append.mp hc with hzero | hdigit
  · rw [List.eq_of_mem_replicate hzero]
    decide
  · exact isDigit_of_mem_decimal hdigit

theorem ofDigitChars_zeroPadded (width n : ℕ) :
    Nat.ofDigitChars 10 (zeroPadded width n) 0 = n := by
  rw [zeroPadded, Nat.ofDigitChars_append, Nat.ofDigitChars_replicate_zero, Nat.mul_zero]
  exact Nat.ofDigitChars_ten_toDigits

theorem length_decimal_le_iff {n width : ℕ} (hwidth : 0 < width) :
    (decimal n).length ≤ width ↔ n < 10 ^ width :=
  Nat.length_toDigits_le_iff (by decide) hwidth

theorem length_zeroPadded {width n : ℕ} (hwidth : 0 < width) (hn : n < 10 ^ width) :
    (zeroPadded width n).length = width := by
  have hle := (length_decimal_le_iff hwidth).mpr hn
  rw [zeroPadded, List.length_append, List.length_replicate]
  omega

theorem zeroPadded_of_le {width n : ℕ} (hn : width ≤ (decimal n).length) :
    zeroPadded width n = decimal n := by
  rw [zeroPadded, Nat.sub_eq_zero_of_le hn]
  rfl

theorem zeroPadded_lt_iff {width m n : ℕ} (hwidth : 0 < width) (hm : m < 10 ^ width)
    (hn : n < 10 ^ width) : zeroPadded width m < zeroPadded width n ↔ m < n := by
  have hlength : (zeroPadded width m).length = (zeroPadded width n).length := by
    rw [length_zeroPadded hwidth hm, length_zeroPadded hwidth hn]
  rw [digits_lt_iff (fun _ ↦ isDigit_of_mem_zeroPadded) (fun _ ↦ isDigit_of_mem_zeroPadded) hlength,
    ofDigitChars_zeroPadded, ofDigitChars_zeroPadded]

theorem zeroPadded_inj {width m n : ℕ} : zeroPadded width m = zeroPadded width n ↔ m = n := by
  constructor
  · intro h
    rw [← ofDigitChars_zeroPadded width m, h, ofDigitChars_zeroPadded]
  · exact congrArg _

section Blanks

variable {α : Type*}

/-- A text printed at the left of at least so many places. -/
def blankPadded (blank : α) (width : ℕ) (text : List α) : List α :=
  text ++ List.replicate (width - text.length) blank

theorem length_blankPadded (blank : α) (width : ℕ) (text : List α) :
    (blankPadded blank width text).length = max width text.length := by
  rw [blankPadded, List.length_append, List.length_replicate]
  omega

variable [LinearOrder α] {blank : α} {width : ℕ} {xs ys : List α}

theorem blankPadded_lt_iff (hxs : ∀ x ∈ xs, blank < x) (hys : ∀ y ∈ ys, blank < y)
    (hx : xs.length ≤ width) (hy : ys.length ≤ width) :
    blankPadded blank width xs < blankPadded blank width ys ↔ xs < ys := by
  induction xs generalizing ys width with
  | nil =>
    cases ys with
    | nil => simp
    | cons y ys =>
      obtain ⟨rest, rfl⟩ : ∃ rest, width = rest + 1 :=
        ⟨width - 1, by rw [List.length_cons] at hy; omega⟩
      have hblank : blankPadded blank (rest + 1) [] = blank :: List.replicate rest blank := rfl
      rw [hblank, blankPadded, List.cons_append, List.cons_lt_cons_iff]
      exact iff_of_true (Or.inl (hys y List.mem_cons_self)) (List.nil_lt_cons _ _)
  | cons x xs ih =>
    obtain ⟨rest, rfl⟩ : ∃ rest, width = rest + 1 :=
      ⟨width - 1, by rw [List.length_cons] at hx; omega⟩
    cases ys with
    | nil =>
      have hblank : blankPadded blank (rest + 1) [] = blank :: List.replicate rest blank := rfl
      have hgt := hxs x List.mem_cons_self
      rw [hblank, blankPadded, List.cons_append, List.cons_lt_cons_iff]
      refine iff_of_false ?_ (List.not_lt_nil _)
      rintro (hlt | ⟨heq, -⟩)
      · exact hlt.not_gt hgt
      · exact hgt.ne' heq
    | cons y ys =>
      have hstep (z : α) (zs : List α) :
          blankPadded blank (rest + 1) (z :: zs) = z :: blankPadded blank rest zs := by
        rw [blankPadded, List.length_cons, Nat.add_sub_add_right]
        rfl
      rw [hstep, hstep, List.cons_lt_cons_iff, List.cons_lt_cons_iff,
        ih (fun z hz ↦ hxs z (List.mem_cons_of_mem _ hz)) (fun z hz ↦ hys z (List.mem_cons_of_mem _ hz))
          (Nat.le_of_succ_le_succ hx) (Nat.le_of_succ_le_succ hy)]

theorem blankPadded_inj (hxs : ∀ x ∈ xs, blank < x) (hys : ∀ y ∈ ys, blank < y)
    (hx : xs.length ≤ width) (hy : ys.length ≤ width) :
    blankPadded blank width xs = blankPadded blank width ys ↔ xs = ys :=
  eq_iff_of_lt_iff (blankPadded_lt_iff hxs hys hx hy) (blankPadded_lt_iff hys hxs hy hx)

end Blanks

end Cheshire.Lib.DigitOrder
