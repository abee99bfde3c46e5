import Mathlib

/-!
# Numerals written with the most significant digit first

The value of a list of digits in some base, and the lowest digits of a number in a fixed count.
-/

namespace Cheshire.Lib.Radix

/-- The number that digits denote. -/
def value (base : ℕ) (digits : List ℕ) : ℕ :=
  digits.foldl (fun total digit ↦ total * base + digit) 0

@[simp] theorem value_nil (base : ℕ) : value base [] = 0 := rfl

theorem value_concat (base : ℕ) (digits : List ℕ) (digit : ℕ) :
    value base (digits ++ [digit]) = value base digits * base + digit := by
  rw [value, List.foldl_append]
  rfl

theorem foldl_eq_value (base total : ℕ) (digits : List ℕ) :
    digits.foldl (fun total digit ↦ total * base + digit) total =
      total * base ^ digits.length + value base digits := by
  induction digits using List.reverseRecOn with
  | nil => simp
  | append_singleton digits digit ih =>
    rw [List.foldl_append, ih, value_concat, List.length_append, List.length_singleton, pow_succ]
    simp only [List.foldl_cons, List.foldl_nil]
    ring

theorem value_cons (base digit : ℕ) (digits : List ℕ) :
    value base (digit :: digits) = digit * base ^ digits.length + value base digits := by
  rw [value, List.foldl_cons, foldl_eq_value, zero_mul, zero_add]

theorem value_reverse (base : ℕ) (digits : List ℕ) :
    value base digits.reverse = Nat.ofDigits base digits := by
  induction digits with
  | nil => rfl
  | cons digit digits ih =>
    rw [List.reverse_cons, value_concat, ih, Nat.ofDigits_cons]
    ring

theorem value_lt {base : ℕ} {digits : List ℕ} (h : ∀ digit ∈ digits, digit < base) :
    value base digits < base ^ digits.length := by
  induction digits with
  | nil => simp
  | cons digit digits ih =>
    have hdigit := h digit List.mem_cons_self
    have hrest := ih fun other hmem ↦ h other (List.mem_cons_of_mem _ hmem)
    calc
      value base (digit :: digits) = digit * base ^ digits.length + value base digits :=
        value_cons ..
      _ < digit * base ^ digits.length + base ^ digits.length := by omega
      _ = (digit + 1) * base ^ digits.length := by ring
      _ ≤ base * base ^ digits.length := Nat.mul_le_mul_right _ hdigit
      _ = base ^ (digit :: digits).length := by rw [List.length_cons, pow_succ']

theorem le_value_cons_iff {base : ℕ} (digit : ℕ) {digits : List ℕ}
    (h : ∀ digit ∈ digits, digit < base) (bound : ℕ) : bound * base ^ digits.length ≤ value base (digit :: digits) ↔ bound ≤ digit := by
  have hrest := value_lt h
  rw [value_cons]
  constructor
  · intro hle
    by_contra hlt
    have hstep : (digit + 1) * base ^ digits.length ≤ bound * base ^ digits.length :=
      Nat.mul_le_mul_right _ (not_le.mp hlt)
    rw [add_mul, one_mul] at hstep
    omega
  · intro hle
    exact (Nat.mul_le_mul_right _ hle).trans (Nat.le_add_right _ _)

/-- The lowest digits of a number, `count` of them. -/
def lowDigits (base : ℕ) : ℕ → ℕ → List ℕ
  | 0, _ => []
  | count + 1, number => number / base ^ count % base :: lowDigits base count number

@[simp] theorem length_lowDigits (base count number : ℕ) :
    (lowDigits base count number).length = count := by
  induction count with
  | zero => rfl
  | succ count ih => rw [lowDigits, List.length_cons, ih]

theorem value_lowDigits (base count number : ℕ) :
    value base (lowDigits base count number) = number % base ^ count := by
  induction count with
  | zero => simp [lowDigits, Nat.mod_one]
  | succ count ih =>
    rw [lowDigits, value_cons, length_lowDigits, ih, pow_succ, Nat.mod_mul]
    ring

end Cheshire.Lib.Radix
