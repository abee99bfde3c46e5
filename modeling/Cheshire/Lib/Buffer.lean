import Mathlib

/-!
# Zeroed blocks filled from the front

A block of cells is allocated zeroed and then filled one cell after another.  A store outside the
block has no result.  `Holds` says which values have been stored so far and that every other cell
still is zero, so a program that keeps it has written nothing beyond them.
-/

namespace Cheshire.Lib.Buffer

variable {α : Type*}

/-- A fresh block of `size` cells. -/
def calloc (zero : α) (size : ℕ) : List α := List.replicate size zero

/-- Store into one cell; there is no result outside the block. -/
def store? (cells : List α) (index : ℕ) (value : α) : Option (List α) :=
  if index < cells.length then some (cells.set index value) else none

/-- The first cells of a zeroed block of `size` cells hold `out`, and nothing else was stored. -/
def Holds (zero : α) (size : ℕ) (cells out : List α) : Prop :=
  out.length ≤ size ∧ cells = out ++ List.replicate (size - out.length) zero

variable {zero : α} {size : ℕ} {cells out : List α}

theorem holds_calloc (zero : α) (size : ℕ) : Holds zero size (calloc zero size) [] := by
  simp [Holds, calloc]

theorem Holds.length_le (h : Holds zero size cells out) : out.length ≤ size := h.1

@[simp] theorem Holds.length_cells (h : Holds zero size cells out) : cells.length = size := by
  rw [h.2, List.length_append, List.length_replicate]
  exact Nat.add_sub_cancel' h.1

theorem Holds.take (h : Holds zero size cells out) : cells.take out.length = out := by
  rw [h.2, List.take_left]

theorem Holds.drop (h : Holds zero size cells out) :
    cells.drop out.length = List.replicate (size - out.length) zero := by
  rw [h.2, List.drop_left]

theorem Holds.store (h : Holds zero size cells out) (hlt : out.length < size) (value : α) :
    ∃ cells', store? cells out.length value = some cells' ∧
      Holds zero size cells' (out ++ [value]) := by
  refine ⟨cells.set out.length value, ?_, ?_⟩
  · rw [store?, if_pos (by rw [h.length_cells]; exact hlt)]
  · refine ⟨by rw [List.length_append]; simpa using hlt, ?_⟩
    obtain ⟨rest, hrest⟩ : ∃ rest, size - out.length = rest + 1 :=
      ⟨size - out.length - 1, by omega⟩
    have hsize : size - (out ++ [value]).length = rest := by
      rw [List.length_append, List.length_singleton]
      omega
    rw [hsize, h.2, hrest, List.set_append_right _ _ le_rfl]
    simp [List.replicate_succ]

theorem Holds.of_store (h : Holds zero size cells out) {value : α} {cells' : List α}
    (hstore : store? cells out.length value = some cells') :
    Holds zero size cells' (out ++ [value]) := by
  have hlt : out.length < size := by
    by_contra hfull
    rw [store?, h.length_cells, if_neg hfull] at hstore
    cases hstore
  obtain ⟨cells'', hstore', hholds⟩ := h.store hlt value
  obtain rfl := Option.some.inj (hstore.symm.trans hstore')
  exact hholds

/-- Store a run of values from `index` on; there is no result where it leaves the block. -/
def storeAll? (cells : List α) (index : ℕ) (values : List α) : Option (List α) :=
  if index + values.length ≤ cells.length then
    some (cells.take index ++ values ++ cells.drop (index + values.length))
  else none

theorem Holds.storeAll (h : Holds zero size cells out) {values : List α}
    (hfits : out.length + values.length ≤ size) :
    ∃ cells', storeAll? cells out.length values = some cells' ∧
      Holds zero size cells' (out ++ values) := by
  refine ⟨cells.take out.length ++ values ++ cells.drop (out.length + values.length), ?_, ?_, ?_⟩
  · rw [storeAll?, if_pos (by rw [h.length_cells]; exact hfits)]
  · rw [List.length_append]
    exact hfits
  · have hdrop : cells.drop (out.length + values.length) =
        List.replicate (size - (out ++ values).length) zero := by
      rw [← List.drop_drop, h.drop, List.drop_replicate, List.length_append]
      congr 1
      omega
    rw [h.take, hdrop]

theorem Holds.of_storeAll (h : Holds zero size cells out) {values cells' : List α}
    (hstore : storeAll? cells out.length values = some cells') :
    out.length + values.length ≤ size ∧ Holds zero size cells' (out ++ values) := by
  have hfits : out.length + values.length ≤ size := by
    by_contra hfull
    rw [storeAll?, h.length_cells, if_neg hfull] at hstore
    cases hstore
  obtain ⟨cells'', hstore', hholds⟩ := h.storeAll hfits
  obtain rfl := Option.some.inj (hstore.symm.trans hstore')
  exact ⟨hfits, hholds⟩

end Cheshire.Lib.Buffer
