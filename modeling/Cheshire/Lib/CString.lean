import Cheshire.Fault

/-!
# C strings and decimal numbers in memory

Memory is a list of characters.  A string is stored with a NUL behind it, and a reader that gets
a pointer into memory stops at the first NUL: where there is none it runs out of the block.
Numbers are printed in decimal and read back by a scanner that skips white space.
-/

namespace Cheshire

/-- The character NUL that ends a string. -/
def nul : Char := Char.ofNat 0

/-- A `char` as a number, on a machine where it has a sign. -/
def signedChar (c : Char) : ℤ := if c.toNat < 128 then c.toNat else c.toNat - 256

/-- The characters of a C string, without the NUL that ends it. -/
structure CString where
  chars : List Char
  terminated : nul ∉ chars
deriving DecidableEq

namespace CString

@[ext]
theorem ext {first second : CString} (h : first.chars = second.chars) : first = second := by
  cases first
  cases second
  simpa using h

instance : Repr CString := ⟨fun text _ ↦ repr text.chars⟩

def empty : CString := ⟨[], by simp⟩

/-- `strlen` -/
def length (text : CString) : ℕ := text.chars.length

def stored (text : CString) : List Char := text.chars ++ [nul]

@[simp]
theorem length_stored (text : CString) : text.stored.length = text.length + 1 := by
  simp [stored, length]

/-- The part of a string up to the first character with a property (`strchr`). -/
def before (stop : Char → Bool) (text : CString) : CString :=
  ⟨text.chars.takeWhile fun c ↦ !stop c,
    fun hmem ↦ text.terminated (List.takeWhile_subset _ hmem)⟩

/-- The part of a string behind the first character with a property. -/
def behind (stop : Char → Bool) (text : CString) : CString :=
  ⟨(text.chars.dropWhile fun c ↦ !stop c).tail,
    fun hmem ↦ text.terminated
      (List.dropWhile_subset _ (List.mem_of_mem_tail hmem))⟩

/-- The string a pointer into memory points at. -/
def read (memory : List Char) : Exec CString :=
  if nul ∈ memory then
    .ok ⟨memory.takeWhile (· ≠ nul), fun hmem ↦ by simpa using List.mem_takeWhile_imp hmem⟩
  else .error .outOfBounds

theorem takeWhile_stored (text : CString) (rest : List Char) :
    (text.stored ++ rest).takeWhile (· ≠ nul) = text.chars := by
  have hall : ∀ c ∈ text.chars, decide (c ≠ nul) = true := by
    intro c hc
    have hne : c ≠ nul := fun heq ↦ text.terminated (heq ▸ hc)
    simpa using hne
  unfold stored
  rw [List.append_assoc, List.takeWhile_append_of_pos hall]
  simp

@[simp]
theorem read_stored (text : CString) (rest : List Char) :
    read (text.stored ++ rest) = .ok text := by
  have hmem : nul ∈ text.stored ++ rest := by simp [stored]
  unfold read
  rw [if_pos hmem]
  exact congrArg Except.ok (CString.ext (takeWhile_stored text rest))

end CString

/-- `%d` of a number that is not negative. -/
def decimal (n : ℕ) : List Char := Nat.toDigits 10 n

/-- `%d` -/
def decimalInt (v : ℤ) : List Char :=
  if v < 0 then '-' :: decimal v.natAbs else decimal v.natAbs

theorem isDigit_of_mem_decimal {n : ℕ} {c : Char} (hc : c ∈ decimal n) : c.isDigit = true :=
  Nat.isDigit_of_mem_toDigits (by decide) (by decide) hc

theorem decimal_ne_nil (n : ℕ) : decimal n ≠ [] := Nat.toDigits_ne_nil

theorem ne_null_of_isDigit {c : Char} (hc : c.isDigit = true) : c ≠ nul := by
  rintro rfl
  exact absurd hc (by decide)

theorem null_notMem_decimal (n : ℕ) : nul ∉ decimal n :=
  fun hmem ↦ ne_null_of_isDigit (isDigit_of_mem_decimal hmem) rfl

theorem null_notMem_decimalInt (v : ℤ) : nul ∉ decimalInt v := by
  unfold decimalInt
  split
  · intro hmem
    rcases List.mem_cons.mp hmem with heq | hmem
    · exact absurd heq (by decide)
    · exact null_notMem_decimal _ hmem
  · exact null_notMem_decimal _

def isSpace (c : Char) : Bool :=
  c = ' ' || c = '\t' || c = '\n' || c = '\r' || c = Char.ofNat 11 || c = Char.ofNat 12

/-- `sscanf (text, " %d", &value)`: the number, or nothing where no digit stands. -/
def scanInt (text : List Char) : Option ℤ :=
  let scan : List Char → Option ℤ := fun body ↦
    let digits := body.takeWhile Char.isDigit
    if digits = [] then none else some (Nat.ofDigitChars 10 digits 0 : ℕ)
  match text.dropWhile isSpace with
  | '-' :: body => (scan body).map Neg.neg
  | '+' :: body => scan body
  | body => scan body

theorem not_isSpace_of_isDigit {c : Char} (hc : c.isDigit = true) : isSpace c = false := by
  have hne : ∀ other : Char, other.isDigit = false → c ≠ other := by
    rintro other hother rfl
    rw [hother] at hc
    cases hc
  simp [isSpace, hne ' ' (by decide), hne '\t' (by decide), hne '\n' (by decide),
    hne '\r' (by decide), hne (Char.ofNat 11) (by decide), hne (Char.ofNat 12) (by decide)]

theorem scanInt_decimal (n : ℕ) (rest : List Char) (hrest : ∀ c ∈ rest.head?, c.isDigit = false) :
    scanInt (decimal n ++ rest) = some (n : ℤ) := by
  obtain ⟨first, others, hdigits⟩ := List.exists_cons_of_ne_nil (decimal_ne_nil n)
  have hfirst : first.isDigit = true := isDigit_of_mem_decimal (n := n) (hdigits ▸ List.mem_cons_self)
  have hspace : (decimal n ++ rest).dropWhile isSpace = decimal n ++ rest := by
    rw [hdigits, List.cons_append, List.dropWhile_cons_of_neg]
    simp [not_isSpace_of_isDigit hfirst]
  have htake : (decimal n ++ rest).takeWhile Char.isDigit = decimal n := by
    rw [List.takeWhile_append_of_pos fun c hc ↦ isDigit_of_mem_decimal hc]
    rcases rest with _ | ⟨c, rest⟩
    · simp
    · rw [List.takeWhile_cons_of_neg (by simp [hrest c (by simp)])]
      simp
  have hminus : first ≠ '-' := by
    rintro rfl
    exact absurd hfirst (by decide)
  have hplus : first ≠ '+' := by
    rintro rfl
    exact absurd hfirst (by decide)
  have hvalue : (Nat.ofDigitChars 10 (decimal n) 0 : ℕ) = n := Nat.ofDigitChars_ten_toDigits
  unfold scanInt
  simp only [hspace]
  rw [hdigits, List.cons_append]
  split
  · rename_i heq
    exact absurd (List.cons.inj heq).1 hminus
  · rename_i heq
    exact absurd (List.cons.inj heq).1 hplus
  · rw [← List.cons_append, ← hdigits, htake, if_neg (decimal_ne_nil n), hvalue]

theorem scanInt_blank (text : List Char) : scanInt (' ' :: text) = scanInt text := by
  unfold scanInt
  rw [List.dropWhile_cons_of_pos (by decide)]

end Cheshire
