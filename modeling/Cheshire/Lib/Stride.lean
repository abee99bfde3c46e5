import Mathlib

/-!
# Every so many elements of a list

A walk that passes over `s` elements after each one it takes leaves the elements whose place has one
remainder modulo `s + 1`.  In a sorted list the place of an element is the number of those below it, so
the walk is a filter.  Of two filters of one list the first elements are the same if they agree as long
as not enough elements have been taken.
-/

namespace Cheshire.Lib

variable {α β : Type*}

/-- Pass over elements, take one, and then one after every `s` others. -/
def strideFrom (s : ℕ) : ℕ → List α → List α
  | _, [] => []
  | 0, x :: xs => x :: strideFrom s s xs
  | k + 1, _ :: xs => strideFrom s k xs

theorem strideFrom_drop (s k : ℕ) (xs : List α) : strideFrom s k xs = strideFrom s 0 (xs.drop k) := by
  induction k generalizing xs with
  | zero => rw [List.drop_zero]
  | succ k ih =>
    cases xs with
    | nil => rw [List.drop_nil, strideFrom, strideFrom]
    | cons x xs => rw [strideFrom, List.drop_succ_cons, ih]

variable {xs : List α}

section Sorted

variable [LinearOrder β] {key : α → β}

/-- The number of elements below a key. -/
def rankIn (key : α → β) (xs : List α) (value : β) : ℕ := xs.countP fun x ↦ key x < value

theorem rankIn_append (xs ys : List α) (value : β) :
    rankIn key (xs ++ ys) value = rankIn key xs value + rankIn key ys value := List.countP_append

theorem rankIn_eq_length {value : β} (h : ∀ x ∈ xs, key x < value) :
    rankIn key xs value = xs.length :=
  List.countP_eq_length.mpr fun x hmem ↦ decide_eq_true (h x hmem)

theorem rankIn_eq_zero {value : β} (h : ∀ x ∈ xs, value ≤ key x) : rankIn key xs value = 0 :=
  List.countP_eq_zero.mpr fun x hmem ↦ by simpa using h x hmem

theorem rankIn_append_cons {before after : List α} {x : α}
    (hsorted : (before ++ x :: after).Pairwise fun first second ↦ key first < key second) :
    rankIn key (before ++ x :: after) (key x) = before.length := by
  obtain ⟨-, hafter, hbetween⟩ := List.pairwise_append.mp hsorted
  have hbefore (y : α) (hmem : y ∈ before) : key y < key x := hbetween y hmem x List.mem_cons_self
  have hrest (y : α) (hmem : y ∈ x :: after) : key x ≤ key y := by
    rcases List.mem_cons.mp hmem with rfl | hmem
    · exact le_rfl
    · exact ((List.pairwise_cons.mp hafter).1 y hmem).le
  rw [rankIn_append, rankIn_eq_length hbefore, rankIn_eq_zero hrest, Nat.add_zero]

theorem strideFrom_eq_filter {s k : ℕ} (hk : k ≤ s) {before : List α}
    (hsorted : (before ++ xs).Pairwise fun first second ↦ key first < key second) :
    strideFrom s k xs = xs.filter fun x ↦
      rankIn key (before ++ xs) (key x) % (s + 1) = (before.length + k) % (s + 1) := by
  induction xs generalizing before k with
  | nil => rfl
  | cons x xs ih =>
    have hrank := rankIn_append_cons hsorted
    have happend : before ++ x :: xs = before ++ [x] ++ xs := List.append_cons before x xs
    have hlength : (before ++ [x]).length = before.length + 1 := List.length_append
    cases k with
    | zero =>
      have hrest := ih (le_refl s) (happend ▸ hsorted)
      have hturn : (before.length + 1 + s) % (s + 1) = before.length % (s + 1) := by
        rw [Nat.add_assoc, Nat.add_comm 1 s, Nat.add_mod_right]
      rw [strideFrom, hrest, hlength, hturn, ← happend]
      exact (List.filter_cons_of_pos (by rw [hrank]; exact decide_eq_true rfl)).symm
    | succ k =>
      have hrest := ih (Nat.le_of_succ_le hk) (happend ▸ hsorted)
      have hother : ¬before.length % (s + 1) = (before.length + (k + 1)) % (s + 1) := by
        intro heq
        have hzero : (k + 1) % (s + 1) = 0 % (s + 1) := Nat.ModEq.add_left_cancel' before.length heq.symm
        rw [Nat.mod_eq_of_lt (by omega), Nat.zero_mod] at hzero
        exact Nat.succ_ne_zero k hzero
      rw [strideFrom, hrest, hlength, Nat.add_assoc, Nat.add_comm 1 k, ← happend]
      exact (List.filter_cons_of_neg (by rw [hrank]; simpa using hother)).symm

theorem strideFrom_drop_eq_filter (s : ℕ) {c : ℕ} (hc : c ≤ xs.length)
    (hsorted : xs.Pairwise fun first second ↦ key first < key second) :
    strideFrom s 0 (xs.drop c) = xs.filter fun x ↦
      c ≤ rankIn key xs (key x) ∧ rankIn key xs (key x) % (s + 1) = c % (s + 1) := by
  have hlength : (xs.take c).length = c := List.length_take_of_le hc
  have hwalk := strideFrom_eq_filter (Nat.zero_le s)
    (show (xs.take c ++ xs.drop c).Pairwise _ by rwa [List.take_append_drop])
  have hbelow (x : α) (hmem : x ∈ xs.take c) : rankIn key xs (key x) < c := by
    obtain ⟨before, after, heq⟩ := List.append_of_mem hmem
    have hxs : xs = before ++ x :: (after ++ xs.drop c) := by
      rw [← List.cons_append, ← List.append_assoc, ← heq, List.take_append_drop]
    have hrank := rankIn_append_cons (hxs ▸ hsorted)
    have hshort := congrArg List.length heq
    rw [hlength, List.length_append, List.length_cons] at hshort
    rw [← hxs] at hrank
    omega
  have hfrom (x : α) (hmem : x ∈ xs.drop c) : c ≤ rankIn key xs (key x) := by
    obtain ⟨before, after, heq⟩ := List.append_of_mem hmem
    have hxs : xs = (xs.take c ++ before) ++ x :: after := by
      rw [List.append_assoc, ← heq, List.take_append_drop]
    have hrank := rankIn_append_cons (hxs ▸ hsorted)
    rw [← hxs, List.length_append, hlength] at hrank
    omega
  rw [List.take_append_drop, hlength, Nat.add_zero] at hwalk
  have hsplit (p : α → Bool) : xs.filter p = (xs.take c).filter p ++ (xs.drop c).filter p := by
    rw [← List.filter_append, List.take_append_drop]
  have hnone : (xs.take c).filter (fun x ↦ decide
      (c ≤ rankIn key xs (key x) ∧ rankIn key xs (key x) % (s + 1) = c % (s + 1))) = [] := by
    refine List.filter_eq_nil_iff.mpr fun x hmem ↦ ?_
    have hlt := hbelow x hmem
    simp [hlt]
  rw [hsplit, hnone, List.nil_append, hwalk]
  refine List.filter_congr fun x hmem ↦ ?_
  simp [hfrom x hmem]

end Sorted

variable {p q : α → Bool}

theorem map_take_filter_eq_iff {f : α → β} (hnodup : (xs.map f).Nodup) (n : ℕ) :
    ((xs.filter p).take n).map f = ((xs.filter q).take n).map f ↔
      ∀ before x after, xs = before ++ x :: after → (before.filter q).length < n → p x = q x := by
  induction xs generalizing n with
  | nil =>
    refine iff_of_true rfl fun before x after heq ↦ ?_
    exact absurd heq.symm (List.append_ne_nil_of_right_ne_nil before (List.cons_ne_nil x after))
  | cons a xs ih =>
    obtain ⟨hnotmem, hrest⟩ := List.nodup_cons.mp hnodup
    have hsplit (n : ℕ) : (∀ before x after, a :: xs = before ++ x :: after →
        (before.filter q).length < n → p x = q x) ↔
          (0 < n → p a = q a) ∧ ∀ before x after, xs = before ++ x :: after →
            ((a :: before).filter q).length < n → p x = q x := by
      constructor
      · intro h
        refine ⟨fun hpos ↦ h [] a xs rfl hpos, fun before x after heq ↦ ?_⟩
        exact h (a :: before) x after (by rw [heq]; rfl)
      · rintro ⟨hhead, htail⟩ before x after heq hlt
        cases before with
        | nil =>
          obtain ⟨rfl, rfl⟩ := List.cons.inj heq
          exact hhead hlt
        | cons b before =>
          obtain ⟨rfl, rfl⟩ := List.cons.inj heq
          exact htail before x after rfl hlt
    have hout (r : α → Bool) (n : ℕ) : f a ∉ ((xs.filter r).take n).map f := by
      intro hmem
      obtain ⟨x, hx, heq⟩ := List.mem_map.mp hmem
      exact hnotmem (List.mem_map.mpr ⟨x, List.mem_of_mem_filter (List.mem_of_mem_take hx), heq⟩)
    rw [hsplit]
    cases n with
    | zero => simp
    | succ n =>
      cases hp : p a with
      | true =>
        cases hq : q a with
        | true =>
          rw [List.filter_cons_of_pos hp, List.filter_cons_of_pos hq, List.take_succ_cons,
            List.take_succ_cons, List.map_cons, List.map_cons, List.cons.injEq, and_iff_right rfl, ih hrest]
          simp [hq]
        | false =>
          rw [List.filter_cons_of_pos hp, List.filter_cons_of_neg (by simp [hq]), List.take_succ_cons,
            List.map_cons]
          refine iff_of_false (fun heq ↦ hout q (n + 1) ?_) fun h ↦ Bool.false_ne_true (h.1 n.succ_pos).symm
          rw [← heq]
          exact List.mem_cons_self
      | false =>
        cases hq : q a with
        | true =>
          rw [List.filter_cons_of_neg (by simp [hp]), List.filter_cons_of_pos hq, List.take_succ_cons,
            List.map_cons]
          refine iff_of_false (fun heq ↦ hout p (n + 1) ?_) fun h ↦ Bool.false_ne_true (h.1 n.succ_pos)
          rw [heq]
          exact List.mem_cons_self
        | false =>
          rw [List.filter_cons_of_neg (by simp [hp]), List.filter_cons_of_neg (by simp [hq]), ih hrest]
          simp [hq]

end Cheshire.Lib
