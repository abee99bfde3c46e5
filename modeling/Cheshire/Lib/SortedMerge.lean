import Mathlib

/-!
# Two-cursor operations on strictly increasing lists

Intersection, union and difference of two strictly increasing lists, each computed by advancing
the cursor that is behind.  The operations are characterised by membership, and the order and
length of their results are read off from the sublist relation.  Any program that merges two
sorted arrays can be compared with these lists one step at a time.
-/

namespace Cheshire.Lib.SortedMerge

variable {α : Type*} [LinearOrder α]

/-- Strictly increasing lists are the canonical representation of finite sets. -/
abbrev StrictlyIncreasing (xs : List α) : Prop := xs.Pairwise (· < ·)

theorem pairwise_iff_forall_lt {xs : List α} (h : StrictlyIncreasing xs) {r : α → α → Prop} :
    xs.Pairwise r ↔ ∀ a ∈ xs, ∀ b ∈ xs, a < b → r a b := by
  induction xs with
  | nil => simp
  | cons x xs ih =>
    have hhead : ∀ b ∈ xs, x < b := fun b hb ↦ List.rel_of_pairwise_cons h hb
    constructor
    · intro hr a ha b hb hlt
      rcases List.mem_cons.mp ha with rfl | ha'
      · rcases List.mem_cons.mp hb with rfl | hb'
        · exact absurd hlt (lt_irrefl _)
        · exact List.rel_of_pairwise_cons hr hb'
      · rcases List.mem_cons.mp hb with rfl | hb'
        · exact absurd hlt (hhead a ha').not_gt
        · exact (ih h.of_cons).mp hr.of_cons a ha' b hb' hlt
    · intro hr
      refine List.pairwise_cons.mpr ⟨?_, (ih h.of_cons).mpr ?_⟩
      · intro b hb
        exact hr x List.mem_cons_self b (List.mem_cons_of_mem _ hb) (hhead b hb)
      · intro a ha b hb
        exact hr a (List.mem_cons_of_mem _ ha) b (List.mem_cons_of_mem _ hb)

def inter : List α → List α → List α
  | x :: xs, y :: ys =>
    if x < y then inter xs (y :: ys)
    else if y < x then inter (x :: xs) ys
    else x :: inter xs ys
  | _, _ => []
termination_by xs ys => xs.length + ys.length

/-- Elements of either list, a common one once. -/
def union : List α → List α → List α
  | x :: xs, y :: ys =>
    if x < y then x :: union xs (y :: ys)
    else if y < x then y :: union (x :: xs) ys
    else x :: union xs ys
  | [], ys => ys
  | xs, [] => xs
termination_by xs ys => xs.length + ys.length

/-- Elements of the first list that the second one does not contain. -/
def diff : List α → List α → List α
  | x :: xs, y :: ys =>
    if x < y then x :: diff xs (y :: ys)
    else if y < x then diff (x :: xs) ys
    else diff xs ys
  | [], _ => []
  | xs, [] => xs
termination_by xs ys => xs.length + ys.length

section Steps

variable {x y : α} (xs ys : List α)

@[simp] theorem inter_nil_left : inter [] ys = [] := by simp [inter]

@[simp] theorem inter_nil_right : inter xs [] = [] := by cases xs <;> simp [inter]

@[simp] theorem union_nil_left : union [] ys = ys := by simp [union]

@[simp] theorem union_nil_right : union xs [] = xs := by cases xs <;> simp [union]

@[simp] theorem diff_nil_left : diff [] ys = [] := by simp [diff]

@[simp] theorem diff_nil_right : diff xs [] = xs := by cases xs <;> simp [diff]

theorem inter_cons_lt (h : x < y) : inter (x :: xs) (y :: ys) = inter xs (y :: ys) := by
  rw [inter, if_pos h]

theorem inter_cons_gt (h : y < x) : inter (x :: xs) (y :: ys) = inter (x :: xs) ys := by
  rw [inter, if_neg h.not_gt, if_pos h]

theorem inter_cons_eq : inter (x :: xs) (x :: ys) = x :: inter xs ys := by
  rw [inter, if_neg (lt_irrefl x), if_neg (lt_irrefl x)]

theorem union_cons_lt (h : x < y) : union (x :: xs) (y :: ys) = x :: union xs (y :: ys) := by
  rw [union, if_pos h]

theorem union_cons_gt (h : y < x) : union (x :: xs) (y :: ys) = y :: union (x :: xs) ys := by
  rw [union, if_neg h.not_gt, if_pos h]

theorem union_cons_eq : union (x :: xs) (x :: ys) = x :: union xs ys := by
  rw [union, if_neg (lt_irrefl x), if_neg (lt_irrefl x)]

theorem diff_cons_lt (h : x < y) : diff (x :: xs) (y :: ys) = x :: diff xs (y :: ys) := by
  rw [diff, if_pos h]

theorem diff_cons_gt (h : y < x) : diff (x :: xs) (y :: ys) = diff (x :: xs) ys := by
  rw [diff, if_neg h.not_gt, if_pos h]

theorem diff_cons_eq : diff (x :: xs) (x :: ys) = diff xs ys := by
  rw [diff, if_neg (lt_irrefl x), if_neg (lt_irrefl x)]

end Steps

theorem inter_sublist_left (xs ys : List α) : (inter xs ys).Sublist xs := by
  fun_induction inter xs ys with
  | case1 x xs y ys _ ih => exact ih.cons x
  | case2 x xs y ys _ _ ih => exact ih
  | case3 x xs y ys _ _ ih => exact ih.cons_cons x
  | case4 => exact List.nil_sublist _

theorem diff_sublist_left (xs ys : List α) : (diff xs ys).Sublist xs := by
  fun_induction diff xs ys with
  | case1 x xs y ys _ ih => exact ih.cons_cons x
  | case2 x xs y ys _ _ ih => exact ih
  | case3 x xs y ys _ _ ih => exact ih.cons x
  | case4 => exact List.nil_sublist _
  | case5 => exact List.Sublist.refl _

variable {a : α}

theorem mem_of_mem_inter_right {xs ys : List α} (h : a ∈ inter xs ys) : a ∈ ys := by
  fun_induction inter xs ys with
  | case1 x xs y ys _ ih => exact ih h
  | case2 x xs y ys _ _ ih => exact List.mem_cons_of_mem _ (ih h)
  | case3 x xs y ys hlt hgt ih =>
    rcases List.mem_cons.mp h with rfl | h
    · rw [le_antisymm (not_lt.mp hgt) (not_lt.mp hlt)]
      exact List.mem_cons_self
    · exact List.mem_cons_of_mem _ (ih h)
  | case4 => cases h

theorem mem_diff_of_notMem {xs ys : List α} (hxs : a ∈ xs) (hys : a ∉ ys) : a ∈ diff xs ys := by
  fun_induction diff xs ys with
  | case1 x xs y ys _ ih =>
    rcases List.mem_cons.mp hxs with rfl | hxs
    · exact List.mem_cons_self
    · exact List.mem_cons_of_mem _ (ih hxs hys)
  | case2 x xs y ys _ _ ih => exact ih hxs fun h ↦ hys (List.mem_cons_of_mem _ h)
  | case3 x xs y ys hlt hgt ih =>
    rcases List.mem_cons.mp hxs with rfl | hxs
    · rw [le_antisymm (not_lt.mp hgt) (not_lt.mp hlt)] at hys
      exact absurd List.mem_cons_self hys
    · exact ih hxs fun h ↦ hys (List.mem_cons_of_mem _ h)
  | case4 => cases hxs
  | case5 => exact hxs

section Membership

variable {xs ys : List α}

theorem not_mem_of_lt_head {x y : α} (h : x < y) (hys : StrictlyIncreasing (y :: ys)) :
    x ∉ y :: ys := by
  intro hmem
  rcases List.mem_cons.mp hmem with rfl | hmem
  · exact lt_irrefl _ h
  · exact lt_asymm h (List.rel_of_pairwise_cons hys hmem)

theorem mem_inter (hxs : StrictlyIncreasing xs) (hys : StrictlyIncreasing ys) :
    a ∈ inter xs ys ↔ a ∈ xs ∧ a ∈ ys := by
  fun_induction inter xs ys with
  | case1 x xs y ys h ih =>
    have hx := not_mem_of_lt_head h hys
    rw [ih hxs.of_cons hys]
    grind
  | case2 x xs y ys _ h ih =>
    have hy := not_mem_of_lt_head h hxs
    rw [ih hxs hys.of_cons]
    grind
  | case3 x xs y ys hxy hyx ih =>
    have heq : x = y := le_antisymm (not_lt.mp hyx) (not_lt.mp hxy)
    subst heq
    simp only [List.mem_cons, ih hxs.of_cons hys.of_cons]
    tauto
  | case4 xs ys hnil =>
    rcases xs with _ | ⟨x, xs⟩
    · simp
    · rcases ys with _ | ⟨y, ys⟩
      · simp
      · exact absurd rfl (hnil x xs y ys rfl)

theorem mem_union : a ∈ union xs ys ↔ a ∈ xs ∨ a ∈ ys := by
  fun_induction union xs ys with
  | case1 x xs y ys h ih => simp only [List.mem_cons, ih]; tauto
  | case2 x xs y ys _ h ih => simp only [List.mem_cons, ih]; tauto
  | case3 x xs y ys hxy hyx ih =>
    have heq : x = y := le_antisymm (not_lt.mp hyx) (not_lt.mp hxy)
    subst heq
    simp only [List.mem_cons, ih]
    tauto
  | case4 => simp
  | case5 => simp

theorem mem_diff (hxs : StrictlyIncreasing xs) (hys : StrictlyIncreasing ys) :
    a ∈ diff xs ys ↔ a ∈ xs ∧ a ∉ ys := by
  fun_induction diff xs ys with
  | case1 x xs y ys h ih =>
    have hx := not_mem_of_lt_head h hys
    simp only [List.mem_cons, ih hxs.of_cons hys]
    grind
  | case2 x xs y ys _ h ih =>
    have hy := not_mem_of_lt_head h hxs
    rw [ih hxs hys.of_cons]
    grind
  | case3 x xs y ys hxy hyx ih =>
    have heq : x = y := le_antisymm (not_lt.mp hyx) (not_lt.mp hxy)
    subst heq
    have hx : ∀ b ∈ xs, x < b := fun b hb ↦ List.rel_of_pairwise_cons hxs hb
    rw [ih hxs.of_cons hys.of_cons]
    grind
  | case4 => simp
  | case5 => simp

end Membership

theorem strictlyIncreasing_inter {xs : List α} (ys : List α) (hxs : StrictlyIncreasing xs) :
    StrictlyIncreasing (inter xs ys) :=
  hxs.sublist (inter_sublist_left xs ys)

theorem strictlyIncreasing_diff {xs : List α} (ys : List α) (hxs : StrictlyIncreasing xs) :
    StrictlyIncreasing (diff xs ys) :=
  hxs.sublist (diff_sublist_left xs ys)

theorem strictlyIncreasing_union {xs ys : List α}
    (hxs : StrictlyIncreasing xs) (hys : StrictlyIncreasing ys) :
    StrictlyIncreasing (union xs ys) := by
  fun_induction union xs ys with
  | case1 x xs y ys h ih =>
    refine List.pairwise_cons.mpr ⟨fun a ha ↦ ?_, ih hxs.of_cons hys⟩
    rcases mem_union.mp ha with ha | ha
    · exact List.rel_of_pairwise_cons hxs ha
    · rcases List.mem_cons.mp ha with rfl | ha
      · exact h
      · exact h.trans (List.rel_of_pairwise_cons hys ha)
  | case2 x xs y ys _ h ih =>
    refine List.pairwise_cons.mpr ⟨fun a ha ↦ ?_, ih hxs hys.of_cons⟩
    rcases mem_union.mp ha with ha | ha
    · rcases List.mem_cons.mp ha with rfl | ha
      · exact h
      · exact h.trans (List.rel_of_pairwise_cons hxs ha)
    · exact List.rel_of_pairwise_cons hys ha
  | case3 x xs y ys hxy hyx ih =>
    have heq : x = y := le_antisymm (not_lt.mp hyx) (not_lt.mp hxy)
    subst heq
    refine List.pairwise_cons.mpr ⟨fun a ha ↦ ?_, ih hxs.of_cons hys.of_cons⟩
    rcases mem_union.mp ha with ha | ha
    · exact List.rel_of_pairwise_cons hxs ha
    · exact List.rel_of_pairwise_cons hys ha
  | case4 => exact hys
  | case5 => exact hxs

end Cheshire.Lib.SortedMerge
