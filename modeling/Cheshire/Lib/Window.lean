import Mathlib

/-!
# Windows of a list

A window leaves out the first elements of a list and keeps a given number of the next ones.  A loop
that skips, keeps and then ignores what it meets computes a window, whether or not it stops early.
Two lists that are compared position by position have equal windows exactly when they agree on every
position of the window.
-/

namespace Cheshire.Lib

variable {α : Type*}

/-- The elements of the list after the first `skip`, at most `count` of them. -/
def window (count skip : ℕ) (xs : List α) : List α := (xs.drop skip).take count

section Laws

variable (count skip : ℕ) (xs : List α)

@[simp] theorem window_nil : window count skip ([] : List α) = [] := by simp [window]

theorem length_window : (window count skip xs).length = min count (xs.length - skip) := by
  rw [window, List.length_take, List.length_drop]

theorem length_window_le : (window count skip xs).length ≤ count := by
  rw [length_window]
  exact min_le_left _ _

theorem length_window_append_le (rest : List α) :
    (window count skip xs).length ≤ (window count skip (xs ++ rest)).length := by
  rw [length_window, length_window, List.length_append]
  omega

end Laws

variable {count skip : ℕ} {xs ys rest : List α}

theorem mem_of_mem_window {x : α} (hx : x ∈ window count skip xs) : x ∈ xs :=
  List.mem_of_mem_drop (List.mem_of_mem_take hx)

theorem window_append_skip (count : ℕ) (hskip : xs.length < skip) (x : α) :
    window count skip (xs ++ [x]) = window count skip xs := by
  have hlast : (xs ++ [x]).drop skip = [] := by
    rw [List.drop_eq_nil_iff, List.length_append, List.length_singleton]
    omega
  rw [window, window, hlast, List.drop_eq_nil_of_le (by omega)]

theorem window_append_keep (hskip : skip ≤ xs.length)
    (hopen : (window count skip xs).length < count) (x : α) :
    window count skip (xs ++ [x]) = window count skip xs ++ [x] := by
  rw [length_window] at hopen
  have hlength : (xs.drop skip).length < count := by
    rw [List.length_drop]
    omega
  rw [window, window, List.drop_append_of_le_length hskip, List.take_of_length_le hlength.le,
    List.take_of_length_le (by rw [List.length_append, List.length_singleton]; omega)]

theorem window_append_full (hfull : count ≤ (window count skip xs).length) :
    window count skip (xs ++ rest) = window count skip xs := by
  rcases Nat.eq_zero_or_pos count with rfl | hpos
  · simp [window]
  · rw [length_window] at hfull
    rw [window, window, List.drop_append_of_le_length (by omega),
      List.take_append_of_le_length (by rw [List.length_drop]; omega)]

theorem eq_iff_forall_agree {agree : α → Prop}
    (haligned : List.Forall₂ (fun x y ↦ x = y ↔ agree x) xs ys) :
    ys = xs ↔ ∀ x ∈ xs, agree x := by
  induction haligned with
  | nil => simp
  | cons hhead _ ih => rw [List.cons.injEq, ih, List.forall_mem_cons, eq_comm, hhead]

theorem window_eq_iff (count skip : ℕ) {agree : α → Prop}
    (haligned : List.Forall₂ (fun x y ↦ x = y ↔ agree x) xs ys) (hrest : ∀ x ∈ rest, ¬agree x) :
    window count skip ys = window count skip (xs ++ rest) ↔
      ∀ x ∈ window count skip (xs ++ rest), agree x := by
  have hsplit : window count skip (xs ++ rest) = window count skip xs ++
      (rest.drop (skip - xs.length)).take (count - (xs.length - skip)) := by
    rw [window, window, List.drop_append, List.take_append, List.length_drop]
  have hwindow : List.Forall₂ (fun x y ↦ x = y ↔ agree x) (window count skip xs)
      (window count skip ys) := List.forall₂_take _ (List.forall₂_drop _ haligned)
  have hlength : (window count skip xs).length = (window count skip ys).length :=
    hwindow.length_eq
  constructor
  · intro heq
    have hnil : (rest.drop (skip - xs.length)).take (count - (xs.length - skip)) = [] := by
      rw [← List.length_eq_zero_iff]
      have := congrArg List.length heq
      rw [hsplit, List.length_append] at this
      omega
    rw [hsplit, hnil, List.append_nil] at heq ⊢
    exact (eq_iff_forall_agree hwindow).mp heq
  · intro hall
    have hnil : (rest.drop (skip - xs.length)).take (count - (xs.length - skip)) = [] := by
      rw [List.eq_nil_iff_forall_not_mem]
      intro x hx
      refine hrest x (List.mem_of_mem_drop (List.mem_of_mem_take hx)) (hall x ?_)
      rw [hsplit]
      exact List.mem_append_right _ hx
    rw [hsplit, hnil, List.append_nil] at hall ⊢
    exact (eq_iff_forall_agree hwindow).mpr hall

end Cheshire.Lib
