import Mathlib

/-!
# Elimination by pairs

Two nested loops run over a list of cells.  An item that is still there clears all other cells with an item
that it beats.  Where the relation is transitive, an item is cleared exactly if another one beats it; of two
items that beat each other the first one does.
-/

namespace Cheshire.Lib.Elimination

variable {α : Type*} (beats : α → α → Prop)

def item (cells : List (Option α)) (i : ℕ) : Option α := cells[i]?.join

section Loops

variable [DecidableRel beats]

/-- One pass of the inner loop: the item `x` of cell `i` is compared with that of cell `j`. -/
def strike (i : ℕ) (x : α) (cells : List (Option α)) (j : ℕ) : List (Option α) :=
  if j = i then cells
  else if (item cells j).any fun y ↦ beats x y then cells.set j none
  else cells

/-- The inner loop for cell `i`, unless that was cleared. -/
def strikeAll (size : ℕ) (cells : List (Option α)) (i : ℕ) : List (Option α) :=
  match item cells i with
  | none => cells
  | some x => (List.range size).foldl (strike beats i x) cells

def eliminate (cells : List (Option α)) : List (Option α) :=
  (List.range cells.length).foldl (strikeAll beats cells.length) cells

end Loops

/-- One of two cells clears the other. -/
structure Clears (cells : List (Option α)) (i j : ℕ) (x y : α) : Prop where
  winner : item cells i = some x
  loser : item cells j = some y
  ne : i ≠ j
  wins : beats x y
  first : beats y x → i < j

variable {i k size : ℕ} {y : α}

section Round

variable {beats} [DecidableRel beats] {cells : List (Option α)}

theorem item_set_none (i j : ℕ) :
    item (cells.set i none) j = if i = j then none else item cells j := by
  rw [item, item, List.getElem?_set]
  split_ifs <;> rfl

theorem item_strike_self (i j : ℕ) (x : α) :
    item (strike beats i x cells j) j =
      if j ≠ i ∧ (item cells j).any (fun y ↦ beats x y) = true then none else item cells j := by
  rw [strike]
  by_cases hself : j = i
  · rw [if_pos hself, if_neg fun h ↦ h.1 hself]
  · rw [if_neg hself]
    split_ifs with hbeats hboth hboth
    · rw [item_set_none, if_pos rfl]
    · exact absurd ⟨hself, hbeats⟩ hboth
    · exact absurd hboth.2 hbeats
    · rfl

theorem item_strike_other {j : ℕ} (x : α) (h : j ≠ k) :
    item (strike beats i x cells j) k = item cells k := by
  rw [strike]
  split_ifs
  · rfl
  · rw [item_set_none, if_neg h]
  · rfl

theorem item_strikes (i : ℕ) (x : α) (size k : ℕ) :
    item ((List.range size).foldl (strike beats i x) cells) k =
      if k < size ∧ k ≠ i ∧ (item cells k).any (fun y ↦ beats x y) = true then none
      else item cells k := by
  induction size with
  | zero => rw [if_neg fun h ↦ Nat.not_lt_zero k h.1]; rfl
  | succ size ih =>
    rw [List.range_succ, List.foldl_append, List.foldl_cons, List.foldl_nil]
    by_cases hk : size = k
    · subst hk
      rw [if_neg fun h ↦ lt_irrefl _ h.1] at ih
      rw [item_strike_self, ih]
      exact if_congr (and_iff_right (Nat.lt_succ_self size)).symm rfl rfl
    · rw [item_strike_other x hk, ih]
      refine if_congr (and_congr_left fun _ ↦ ?_) rfl rfl
      omega

theorem item_strikeAll (hk : k < size) (hitem : item cells k = some y) :
    item (strikeAll beats size cells i) k = none ↔
      ∃ x, item cells i = some x ∧ k ≠ i ∧ beats x y := by
  rw [strikeAll]
  split
  · rename_i hnone
    simp [hitem, hnone]
  · rename_i x hx
    rw [item_strikes, hitem, Option.any_some]
    simp [hk, hx]

theorem item_strikeAll_eq (h : item (strikeAll beats size cells i) k ≠ none) :
    item (strikeAll beats size cells i) k = item cells k := by
  rw [strikeAll] at h ⊢
  split
  · rfl
  · rename_i x hx
    rw [hx] at h
    simp only [item_strikes] at h ⊢
    split_ifs with hcleared
    · rw [if_pos hcleared] at h
      exact absurd rfl h
    · rfl

end Round

section Rounds

variable {beats} {cells : List (Option α)}

theorem lt_length_of_item (h : item cells k = some y) : k < cells.length := by
  by_contra hge
  rw [item, List.getElem?_eq_none (not_lt.mp hge)] at h
  cases h

theorem Clears.trans (htrans : ∀ x y z : α, beats x y → beats y z → beats x z) {j : ℕ} {x z : α}
    (hij : Clears beats cells i j x y)
    (hjk : Clears beats cells j k y z) : Clears beats cells i k x z where
  winner := hij.winner
  loser := hjk.loser
  ne := by
    rintro rfl
    obtain rfl : z = x := Option.some.inj (hjk.loser.symm.trans hij.winner)
    exact absurd (hij.first hjk.wins) (hjk.first hij.wins).not_gt
  wins := htrans x y z hij.wins hjk.wins
  first := fun hzx ↦
    (hij.first (htrans y z x hjk.wins hzx)).trans (hjk.first (htrans z x y hzx hij.wins))

variable [DecidableRel beats]

theorem item_rounds {m : ℕ}
    (h : item ((List.range m).foldl (strikeAll beats size) cells) k ≠ none) :
    item ((List.range m).foldl (strikeAll beats size) cells) k = item cells k := by
  induction m with
  | zero => rfl
  | succ m ih =>
    rw [List.range_succ, List.foldl_append, List.foldl_cons, List.foldl_nil] at h ⊢
    have hbefore := item_strikeAll_eq h
    rw [hbefore] at h ⊢
    exact ih h

variable (htrans : ∀ x y z : α, beats x y → beats y z → beats x z)

include htrans

theorem item_rounds_eq_none_iff {m : ℕ} (hk : item cells k = some y) :
    item ((List.range m).foldl (strikeAll beats cells.length) cells) k = none ↔
      ∃ i < m, ∃ x, Clears beats cells i k x y := by
  induction m generalizing k y with
  | zero =>
    refine iff_of_false ?_ fun h ↦ Nat.not_lt_zero _ h.choose_spec.1
    intro hnone
    cases hk.symm.trans hnone
  | succ m ih =>
    rw [List.range_succ, List.foldl_append, List.foldl_cons, List.foldl_nil]
    set before := (List.range m).foldl (strikeAll beats cells.length) cells with hbefore
    by_cases hcleared : item before k = none
    · obtain ⟨i, hi, x, hclears⟩ := (ih hk).mp hcleared
      refine iff_of_true ?_ ⟨i, hi.trans (Nat.lt_succ_self m), x, hclears⟩
      by_contra hthere
      exact hthere ((item_strikeAll_eq hthere).trans hcleared)
    · have hthere : item before k = some y := (item_rounds hcleared).trans hk
      rw [item_strikeAll (lt_length_of_item hk) hthere]
      constructor
      · rintro ⟨x, hx, hne, hwins⟩
        have hstart : item cells m = some x := by
          rw [← item_rounds (by rw [← hbefore, hx]; exact Option.some_ne_none x)]
          exact hx
        refine ⟨m, Nat.lt_succ_self m, x, hstart, hk, hne.symm, hwins, ?_⟩
        intro hback
        -- had the item come first, it would have cleared this cell
        by_contra hlt
        have hfirst : k < m := lt_of_le_of_ne (not_lt.mp hlt) hne
        have hgone := (ih hstart).mpr ⟨k, hfirst, y, hk, hstart, hne, hback, fun _ ↦ hfirst⟩
        rw [hgone] at hx
        cases hx
      · rintro ⟨i, hi, x, hclears⟩
        have hlast : i = m := by
          by_contra hne
          exact hcleared ((ih hk).mpr ⟨i, by omega, x, hclears⟩)
        subst hlast
        refine ⟨x, ?_, hclears.ne.symm, hclears.wins⟩
        -- what cleared this cell would have cleared the item
        by_contra hgone
        have hnone : item before i = none := by
          by_contra hleft
          exact hgone ((item_rounds hleft).trans hclears.winner)
        obtain ⟨i', hi', x', hclears'⟩ := (ih hclears.winner).mp hnone
        exact hcleared ((ih hk).mpr ⟨i', hi', x', Clears.trans htrans hclears' hclears⟩)

theorem item_eliminate (hk : item cells k = some y) : item (eliminate beats cells) k =
        none ∧ (∃ i x, Clears beats cells i k x y) ∨
      item (eliminate beats cells) k = some y ∧ ¬∃ i x, Clears beats cells i k x y := by
  have hiff := item_rounds_eq_none_iff (m := cells.length) htrans hk
  by_cases hnone : item (eliminate beats cells) k = none
  · obtain ⟨i, -, x, hclears⟩ := hiff.mp hnone
    exact Or.inl ⟨hnone, i, x, hclears⟩
  · refine Or.inr ⟨(item_rounds hnone).trans hk, ?_⟩
    rintro ⟨i, x, hclears⟩
    exact hnone (hiff.mpr ⟨i, lt_length_of_item hclears.winner, x, hclears⟩)

end Rounds

end Cheshire.Lib.Elimination
