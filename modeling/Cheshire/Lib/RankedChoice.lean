import Mathlib

/-!
# Choosing from ranked lists

Two lists are gone through together: a rule says from which of the two the next element comes, until one of
them is used up.  Elements with a key that came before are passed over.  What was chosen is sorted; elements
that the order does not tell apart stay as they were chosen.
-/

namespace Cheshire.Lib.RankedChoice

variable {α κ : Type}

variable {x : α}

section AddNew

variable [DecidableEq κ] {key : α → κ}

/-- What was chosen, with the elements behind it whose keys are new. -/
def addNew (key : α → κ) : List α → List α → List α
  | chosen, [] => chosen
  | chosen, x :: xs => if key x ∈ chosen.map key then addNew key chosen xs else addNew key (chosen ++ [x]) xs

variable {chosen : List α}

theorem addNew_cons_of_mem (h : key x ∈ chosen.map key) (xs : List α) :
    addNew key chosen (x :: xs) = addNew key chosen xs := if_pos h

theorem addNew_cons_of_notMem (h : key x ∉ chosen.map key) (xs : List α) :
    addNew key chosen (x :: xs) = addNew key (chosen ++ [x]) xs := if_neg h

theorem addNew_append (chosen xs ys : List α) :
    addNew key chosen (xs ++ ys) = addNew key (addNew key chosen xs) ys := by
  induction xs generalizing chosen with
  | nil => rfl
  | cons x xs ih =>
    rw [List.cons_append]
    by_cases hold : key x ∈ chosen.map key
    · rw [addNew_cons_of_mem hold, addNew_cons_of_mem hold, ih]
    · rw [addNew_cons_of_notMem hold, addNew_cons_of_notMem hold, ih]

theorem prefix_addNew (chosen xs : List α) : chosen <+: addNew key chosen xs := by
  induction xs generalizing chosen with
  | nil => exact List.prefix_rfl
  | cons x xs ih =>
    by_cases hold : key x ∈ chosen.map key
    · rw [addNew_cons_of_mem hold]
      exact ih chosen
    · rw [addNew_cons_of_notMem hold]
      exact (List.prefix_append chosen [x]).trans (ih _)

theorem nodup_addNew (hnodup : (chosen.map key).Nodup) (xs : List α) :
    ((addNew key chosen xs).map key).Nodup := by
  induction xs generalizing chosen with
  | nil => exact hnodup
  | cons x xs ih =>
    by_cases hold : key x ∈ chosen.map key
    · rw [addNew_cons_of_mem hold]
      exact ih hnodup
    · rw [addNew_cons_of_notMem hold]
      refine ih ?_
      rw [List.map_append, List.map_singleton, ← List.concat_eq_append]
      exact hnodup.concat hold

end AddNew

/-- The elements in the order in which they were gone through, and what is left of the lists. -/
structure Contest (α : Type) where
  order : List α
  rest1 : List α
  rest2 : List α

def Contest.cons (x : α) (contest : Contest α) : Contest α :=
  ⟨x :: contest.order, contest.rest1, contest.rest2⟩

/-- All elements, those that are left at the end. -/
def Contest.all (contest : Contest α) : List α := contest.order ++ (contest.rest1 ++ contest.rest2)

/-- The rule says of two elements whether the first one comes next. -/
def contest (first : α → α → Bool) : List α → List α → Contest α
  | x :: xs, y :: ys =>
    if first x y then (contest first xs (y :: ys)).cons x else (contest first (x :: xs) ys).cons y
  | xs, ys => ⟨[], xs, ys⟩
termination_by xs ys => xs.length + ys.length

theorem contest_used_up (first : α → α → Bool) (xs ys : List α) :
    (contest first xs ys).rest1 = [] ∨ (contest first xs ys).rest2 = [] := by
  induction xs, ys using contest.induct first with
  | case1 x xs y ys h ih =>
    rw [contest, if_pos h]
    exact ih
  | case2 x xs y ys h ih =>
    rw [contest, if_neg h]
    exact ih
  | case3 xs ys h =>
    rw [contest.eq_2 first xs ys h]
    cases xs with
    | nil => exact Or.inl rfl
    | cons x xs =>
      cases ys with
      | nil => exact Or.inr rfl
      | cons y ys => exact absurd rfl fun heq ↦ h x xs y ys rfl heq

theorem contest_suffix (first : α → α → Bool) (xs ys : List α) :
    (contest first xs ys).rest1 <:+ xs ∧ (contest first xs ys).rest2 <:+ ys := by
  induction xs, ys using contest.induct first with
  | case1 x xs y ys h ih =>
    rw [contest, if_pos h]
    exact ⟨ih.1.trans (List.suffix_cons x xs), ih.2⟩
  | case2 x xs y ys h ih =>
    rw [contest, if_neg h]
    exact ⟨ih.1, ih.2.trans (List.suffix_cons y ys)⟩
  | case3 xs ys h =>
    rw [contest.eq_2 first xs ys h]
    exact ⟨List.suffix_rfl, List.suffix_rfl⟩

variable {l : List α}

theorem sublist_or_sublist {y : α} (hx : x ∈ l) (hy : y ∈ l) (hne : x ≠ y) :
    [x, y].Sublist l ∨ [y, x].Sublist l := by
  induction l with
  | nil => cases hx
  | cons z l ih =>
    rcases List.mem_cons.mp hx with rfl | hx'
    · have hy := (List.mem_cons.mp hy).resolve_left hne.symm
      exact Or.inl (List.Sublist.cons_cons x (List.singleton_sublist.mpr hy))
    · rcases List.mem_cons.mp hy with rfl | hy
      · exact Or.inr (List.Sublist.cons_cons y (List.singleton_sublist.mpr hx'))
      · exact (ih hx' hy).imp (List.Sublist.cons z) (List.Sublist.cons z)

theorem not_sublist_swap (hnodup : l.Nodup) {y : α} (h : [x, y].Sublist l) : ¬[y, x].Sublist l := by
  induction l with
  | nil => cases h
  | cons z l ih =>
    obtain ⟨hnot, hnodup⟩ := List.nodup_cons.mp hnodup
    intro hswap
    rcases List.sublist_cons_iff.mp h with hl | ⟨tail, heq, hl⟩
    · rcases List.sublist_cons_iff.mp hswap with hl' | ⟨tail', heq', -⟩
      · exact ih hnodup hl hl'
      · cases heq'
        exact hnot (hl.subset (List.mem_cons_of_mem x List.mem_cons_self))
    · cases heq
      rcases List.sublist_cons_iff.mp hswap with hl' | ⟨tail', heq', -⟩
      · exact hnot (hl'.subset (List.mem_cons_of_mem y List.mem_cons_self))
      · cases heq'
        exact hnot (hl.subset List.mem_cons_self)

theorem pairwise_insertionSort_iff {r : α → α → Prop} [DecidableRel r] [Std.Total r] [IsTrans α r]
    (hnodup : l.Nodup) (p : α → α → Prop) : (l.insertionSort r).Pairwise p ↔
      ∀ x ∈ l, ∀ y ∈ l, x ≠ y → r x y → (r y x → [x, y].Sublist l) → p x y := by
  have hsorted {x y : α} (hsub : [x, y].Sublist (l.insertionSort r)) : r x y :=
    List.pairwise_iff_forall_sublist.mp (List.pairwise_insertionSort r l) hsub
  have hperm := List.perm_insertionSort r l
  have hnodup' : (l.insertionSort r).Nodup := hperm.nodup_iff.mpr hnodup
  rw [List.pairwise_iff_forall_sublist]
  constructor
  · intro h x hx y hy hne hxy htie
    apply h
    by_cases hyx : r y x
    · exact List.sublist_insertionSort (List.pairwise_pair.mpr hxy) (htie hyx)
    · rcases sublist_or_sublist (hperm.mem_iff.mpr hx) (hperm.mem_iff.mpr hy) hne with hsub | hsub
      · exact hsub
      · exact absurd (hsorted hsub) hyx
  · intro h x y hsub
    have hx : x ∈ l := hperm.mem_iff.mp (hsub.subset (by simp))
    have hy : y ∈ l := hperm.mem_iff.mp (hsub.subset (by simp))
    have hne : x ≠ y := List.pairwise_pair.mp (hnodup'.sublist hsub)
    refine h x hx y hy hne (hsorted hsub) fun hyx ↦ ?_
    rcases sublist_or_sublist hx hy hne with hsame | hswap
    · exact hsame
    · -- the other way round they would have stayed so
      have hswapped := List.sublist_insertionSort (r := r) (List.pairwise_pair.mpr hyx) hswap
      exact absurd hswapped (not_sublist_swap hnodup' hsub)

end Cheshire.Lib.RankedChoice
