import Mathlib

/-!
# Consecutive ranges of integers

Items that each cover a range of integers, the range of every item starting where that of the item
before it ends.  Together they cover an interval, and no integer is covered twice.  An allocator
that hands out numbers from a counter keeps its allocations in this form.
-/

namespace Cheshire.Lib

variable {α : Type*} (first last : α → ℤ)

/-- The items cover the integers above `low` up to `high`, each item a nonempty range, in order. -/
def Consecutive : ℤ → List α → ℤ → Prop
  | low, [], high => low = high
  | low, item :: items, high =>
    first item = low + 1 ∧ first item ≤ last item ∧ Consecutive (last item) items high

namespace Consecutive

variable {first last} {low mid high : ℤ} {items : List α}

theorem le (h : Consecutive first last low items high) : low ≤ high := by
  induction items generalizing low with
  | nil => exact h.le
  | cons item items ih =>
    obtain ⟨hfirst, hle, hrest⟩ := h
    have := ih hrest
    omega

theorem concat (h : Consecutive first last low items mid) {item : α} (hfirst : first item = mid + 1)
    (hle : first item ≤ last item) : Consecutive first last low (items ++ [item]) (last item) := by
  induction items generalizing low with
  | nil =>
    have hlow : low = mid := h
    exact ⟨by rw [hfirst, hlow], hle, rfl⟩
  | cons head items ih =>
    obtain ⟨hhead, hrange, hrest⟩ := h
    exact ⟨hhead, hrange, ih hrest⟩

theorem exists_mem_iff (h : Consecutive first last low items high) (number : ℤ) :
    (∃ item ∈ items, first item ≤ number ∧ number ≤ last item) ↔ low < number ∧ number ≤ high := by
  induction items generalizing low with
  | nil =>
    have hlow : low = high := h
    constructor
    · rintro ⟨item, hmem, -⟩
      exact absurd hmem List.not_mem_nil
    · omega
  | cons item items ih =>
    obtain ⟨hfirst, hrange, hrest⟩ := h
    have hle := hrest.le
    rw [List.exists_mem_cons_iff, ih hrest]
    omega

end Consecutive

end Cheshire.Lib
