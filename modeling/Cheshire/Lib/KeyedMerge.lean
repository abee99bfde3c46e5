import Cheshire.Lib.SortedMerge

/-!
# Merging lists by key

Two lists with increasing keys are merged with one cursor each.  What is made of an item may depend on
whether the other list has an item with the same key, and on whether the other list has come to its end
when the item is reached.
-/

namespace Cheshire.Lib.KeyedMerge

open SortedMerge

variable {α β κ : Type*} [LinearOrder κ]

/-- What a union makes of two items with one key, of an item that is passed while the other list goes on,
and of an item behind the end of the other list. -/
structure Rules (α β : Type*) where
  both : α → α → β
  left : α → β
  right : α → β
  leftRest : α → β
  rightRest : α → β

/-- The rules for the lists in the other order. -/
def Rules.swap (rules : Rules α β) : Rules α β where
  both x y := rules.both y x
  left := rules.right
  right := rules.left
  leftRest := rules.rightRest
  rightRest := rules.leftRest

/-- What is made of an item of the first list whose key the second list does not have. -/
def Rules.onLeft (rules : Rules α β) (key : α → κ) (ys : List α) (x : α) : β :=
  if ∀ y ∈ ys, key y < key x then rules.leftRest x else rules.left x

/-- The items of either list. -/
def unionWith (key : α → κ) (rules : Rules α β) : List α → List α → List β
  | x :: xs, y :: ys =>
    if key x < key y then rules.left x :: unionWith key rules xs (y :: ys)
    else if key y < key x then rules.right y :: unionWith key rules (x :: xs) ys
    else rules.both x y :: unionWith key rules xs ys
  | [], ys => ys.map rules.rightRest
  | xs, [] => xs.map rules.leftRest
termination_by xs ys => xs.length + ys.length

/-- The items with a key of both lists. -/
def interWith (key : α → κ) (both : α → α → β) : List α → List α → List β
  | x :: xs, y :: ys =>
    if key x < key y then interWith key both xs (y :: ys)
    else if key y < key x then interWith key both (x :: xs) ys
    else both x y :: interWith key both xs ys
  | _, _ => []
termination_by xs ys => xs.length + ys.length

/-- The items of the first list whose key the second one does not have. -/
def diffBy (key : α → κ) : List α → List α → List α
  | x :: xs, y :: ys =>
    if key x < key y then x :: diffBy key xs (y :: ys)
    else if key y < key x then diffBy key (x :: xs) ys
    else diffBy key xs ys
  | [], _ => []
  | xs, [] => xs
termination_by xs ys => xs.length + ys.length

variable {key : α → κ} {rules : Rules α β} {both : α → α → β}

section Steps

variable {x y : α} (xs ys : List α)

@[simp] theorem unionWith_nil_left : unionWith key rules [] ys = ys.map rules.rightRest := by
  simp [unionWith]

@[simp] theorem unionWith_nil_right : unionWith key rules xs [] = xs.map rules.leftRest := by
  cases xs <;> simp [unionWith]

@[simp] theorem interWith_nil_left : interWith key both [] ys = [] := by simp [interWith]

@[simp] theorem interWith_nil_right : interWith key both xs [] = [] := by
  cases xs <;> simp [interWith]

@[simp] theorem diffBy_nil_left : diffBy key [] ys = [] := by simp [diffBy]

@[simp] theorem diffBy_nil_right : diffBy key xs [] = xs := by cases xs <;> simp [diffBy]

theorem unionWith_cons_lt (h : key x < key y) :
    unionWith key rules (x :: xs) (y :: ys) = rules.left x :: unionWith key rules xs (y :: ys) := by
  rw [unionWith, if_pos h]

theorem unionWith_cons_gt (h : key y < key x) :
    unionWith key rules (x :: xs) (y :: ys) = rules.right y :: unionWith key rules (x :: xs) ys := by
  rw [unionWith, if_neg h.not_gt, if_pos h]

theorem unionWith_cons_eq (h : key x = key y) :
    unionWith key rules (x :: xs) (y :: ys) = rules.both x y :: unionWith key rules xs ys := by
  rw [unionWith, if_neg h.not_lt, if_neg h.not_gt]

theorem interWith_cons_lt (h : key x < key y) :
    interWith key both (x :: xs) (y :: ys) = interWith key both xs (y :: ys) := by
  rw [interWith, if_pos h]

theorem interWith_cons_gt (h : key y < key x) :
    interWith key both (x :: xs) (y :: ys) = interWith key both (x :: xs) ys := by
  rw [interWith, if_neg h.not_gt, if_pos h]

theorem interWith_cons_eq (h : key x = key y) :
    interWith key both (x :: xs) (y :: ys) = both x y :: interWith key both xs ys := by
  rw [interWith, if_neg h.not_lt, if_neg h.not_gt]

theorem diffBy_cons_lt (h : key x < key y) :
    diffBy key (x :: xs) (y :: ys) = x :: diffBy key xs (y :: ys) := by
  rw [diffBy, if_pos h]

theorem diffBy_cons_gt (h : key y < key x) :
    diffBy key (x :: xs) (y :: ys) = diffBy key (x :: xs) ys := by
  rw [diffBy, if_neg h.not_gt, if_pos h]

theorem diffBy_cons_eq (h : key x = key y) :
    diffBy key (x :: xs) (y :: ys) = diffBy key xs ys := by
  rw [diffBy, if_neg h.not_lt, if_neg h.not_gt]

end Steps

theorem unionWith_swap (xs ys : List α) :
    unionWith key rules.swap ys xs = unionWith key rules xs ys := by
  fun_induction unionWith key rules xs ys with
  | case1 x xs y ys hlt ih => rw [unionWith_cons_gt _ _ hlt, ih]; rfl
  | case2 x xs y ys _ hgt ih => rw [unionWith_cons_lt _ _ hgt, ih]; rfl
  | case3 x xs y ys hlt hgt ih =>
    rw [unionWith_cons_eq _ _ (le_antisymm (not_lt.mp hlt) (not_lt.mp hgt)), ih]
    rfl
  | case4 ys => rw [unionWith_nil_right]; rfl
  | case5 xs _ => rw [unionWith_nil_left]; rfl

theorem interWith_swap (xs ys : List α) :
    interWith key (fun x y ↦ both y x) ys xs = interWith key both xs ys := by
  fun_induction interWith key both xs ys with
  | case1 x xs y ys hlt ih => rw [interWith_cons_gt _ _ hlt, ih]
  | case2 x xs y ys _ hgt ih => rw [interWith_cons_lt _ _ hgt, ih]
  | case3 x xs y ys hlt hgt ih =>
    rw [interWith_cons_eq _ _ (le_antisymm (not_lt.mp hlt) (not_lt.mp hgt)), ih]
  | case4 xs ys hnil =>
    cases xs with
    | nil => rw [interWith_nil_right]
    | cons x xs =>
      cases ys with
      | nil => rw [interWith_nil_left]
      | cons y ys => exact absurd rfl (hnil x xs y ys rfl)

theorem map_unionWith {f : β → κ} (hboth : ∀ x y, f (rules.both x y) = key x)
    (hleft : ∀ x, f (rules.left x) = key x) (hright : ∀ x, f (rules.right x) = key x)
    (hleftRest : ∀ x, f (rules.leftRest x) = key x) (hrightRest : ∀ x, f (rules.rightRest x) = key x)
    (xs ys : List α) :
    (unionWith key rules xs ys).map f = union (xs.map key) (ys.map key) := by
  fun_induction unionWith key rules xs ys with
  | case1 x xs y ys hlt ih =>
    rw [List.map_cons, ih, hleft, List.map_cons, List.map_cons, union_cons_lt _ _ hlt]
  | case2 x xs y ys _ hgt ih =>
    rw [List.map_cons, ih, hright, List.map_cons, List.map_cons, union_cons_gt _ _ hgt]
  | case3 x xs y ys hlt hgt ih =>
    have heq : key x = key y := le_antisymm (not_lt.mp hgt) (not_lt.mp hlt)
    rw [List.map_cons, ih, hboth, List.map_cons, List.map_cons, ← heq, union_cons_eq]
  | case4 ys =>
    rw [List.map_map, List.map_nil, union_nil_left]
    exact List.map_congr_left fun x _ ↦ hrightRest x
  | case5 xs _ =>
    rw [List.map_map, List.map_nil, union_nil_right]
    exact List.map_congr_left fun x _ ↦ hleftRest x

theorem map_interWith {f : β → κ} (hboth : ∀ x y, f (both x y) = key x) (xs ys : List α) :
    (interWith key both xs ys).map f = inter (xs.map key) (ys.map key) := by
  fun_induction interWith key both xs ys with
  | case1 x xs y ys hlt ih => rw [ih, List.map_cons, List.map_cons, inter_cons_lt _ _ hlt]
  | case2 x xs y ys _ hgt ih => rw [ih, List.map_cons, List.map_cons, inter_cons_gt _ _ hgt]
  | case3 x xs y ys hlt hgt ih =>
    have heq : key x = key y := le_antisymm (not_lt.mp hgt) (not_lt.mp hlt)
    rw [List.map_cons, ih, hboth, List.map_cons, List.map_cons, ← heq, inter_cons_eq]
  | case4 xs ys hnil =>
    cases xs with
    | nil => rw [List.map_nil, List.map_nil, inter_nil_left]
    | cons x xs =>
      cases ys with
      | nil => rw [List.map_nil, List.map_nil, inter_nil_right]
      | cons y ys => exact absurd rfl (hnil x xs y ys rfl)

section Increasing

variable {xs ys : List α}

theorem key_lt_of_mem {x y : α} (hxs : ((x :: xs).map key).Pairwise (· < ·)) (hy : y ∈ xs) :
    key x < key y :=
  List.rel_of_pairwise_cons hxs (List.mem_map_of_mem hy)

theorem key_le_of_mem {x y : α} (hxs : ((x :: xs).map key).Pairwise (· < ·)) (hy : y ∈ x :: xs) :
    key x ≤ key y := by
  rcases List.mem_cons.mp hy with rfl | hy
  · exact le_rfl
  · exact (key_lt_of_mem hxs hy).le

theorem onLeft_cons {x y : α} (hlt : key y < key x) :
    rules.onLeft key (y :: ys) x = rules.onLeft key ys x := by
  simp only [Rules.onLeft, List.forall_mem_cons, hlt, true_and]

theorem onLeft_mem_unionWith (hxs : (xs.map key).Pairwise (· < ·))
    (hys : (ys.map key).Pairwise (· < ·)) {x : α} (hx : x ∈ xs) (hfree : ∀ y ∈ ys, key y ≠ key x) :
    rules.onLeft key ys x ∈ unionWith key rules xs ys := by
  fun_induction unionWith key rules xs ys with
  | case1 a xs y ys hlt ih =>
    rcases List.mem_cons.mp hx with rfl | hx
    · have hgoes : ¬∀ y' ∈ y :: ys, key y' < key x := fun h ↦ (h y List.mem_cons_self).not_gt hlt
      rw [Rules.onLeft, if_neg hgoes]
      exact List.mem_cons_self
    · exact List.mem_cons_of_mem _ (ih hxs.of_cons hys hx hfree)
  | case2 a xs y ys _ hgt ih =>
    rw [onLeft_cons (hgt.trans_le (key_le_of_mem hxs hx))]
    exact List.mem_cons_of_mem _
      (ih hxs hys.of_cons hx fun y' hy' ↦ hfree y' (List.mem_cons_of_mem _ hy'))
  | case3 a xs y ys hlt hgt ih =>
    have heq : key a = key y := le_antisymm (not_lt.mp hgt) (not_lt.mp hlt)
    rcases List.mem_cons.mp hx with rfl | hx
    · exact absurd heq.symm (hfree y List.mem_cons_self)
    · rw [onLeft_cons (heq ▸ key_lt_of_mem hxs hx)]
      exact List.mem_cons_of_mem _
        (ih hxs.of_cons hys.of_cons hx fun y' hy' ↦ hfree y' (List.mem_cons_of_mem _ hy'))
  | case4 => cases hx
  | case5 xs _ =>
    rw [Rules.onLeft, if_pos (List.forall_mem_nil _)]
    exact List.mem_map_of_mem hx

theorem mem_diffBy {x : α} (hxs : (xs.map key).Pairwise (· < ·)) (hys : (ys.map key).Pairwise (· < ·)) :
    x ∈ diffBy key xs ys ↔ x ∈ xs ∧ ∀ y ∈ ys, key y ≠ key x := by
  fun_induction diffBy key xs ys with
  | case1 a xs y ys hlt ih =>
    have hfree (y' : α) (hy' : y' ∈ y :: ys) : key y' ≠ key a :=
      (hlt.trans_le (key_le_of_mem hys hy')).ne'
    rw [List.mem_cons, ih hxs.of_cons hys, List.mem_cons]
    constructor
    · rintro (rfl | ⟨hx, hkeys⟩)
      · exact ⟨Or.inl rfl, hfree⟩
      · exact ⟨Or.inr hx, hkeys⟩
    · rintro ⟨rfl | hx, hkeys⟩
      · exact Or.inl rfl
      · exact Or.inr ⟨hx, hkeys⟩
  | case2 a xs y ys _ hgt ih =>
    rw [ih hxs hys.of_cons, List.forall_mem_cons]
    refine and_congr_right fun hx ↦ (and_iff_right ?_).symm
    exact (hgt.trans_le (key_le_of_mem hxs hx)).ne
  | case3 a xs y ys hlt hgt ih =>
    have heq : key a = key y := le_antisymm (not_lt.mp hgt) (not_lt.mp hlt)
    rw [ih hxs.of_cons hys.of_cons, List.mem_cons, List.forall_mem_cons]
    constructor
    · rintro ⟨hx, hkeys⟩
      exact ⟨Or.inr hx, (heq ▸ key_lt_of_mem hxs hx).ne, hkeys⟩
    · rintro ⟨rfl | hx, hfirst, hkeys⟩
      · exact absurd heq.symm hfirst
      · exact ⟨hx, hkeys⟩
  | case4 => simp
  | case5 => simp

theorem interWith_eq_iff {both' : α → α → β} (hxs : (xs.map key).Pairwise (· < ·))
    (hys : (ys.map key).Pairwise (· < ·)) :
    interWith key both xs ys = interWith key both' xs ys ↔
      ∀ x ∈ xs, ∀ y ∈ ys, key x = key y → both x y = both' x y := by
  fun_induction interWith key both xs ys with
  | case1 x xs y ys hlt ih =>
    have hnone (y' : α) (hy' : y' ∈ y :: ys) : key x ≠ key y' :=
      (hlt.trans_le (key_le_of_mem hys hy')).ne
    rw [interWith_cons_lt _ _ hlt, ih hxs.of_cons hys, List.forall_mem_cons]
    exact (and_iff_right fun y' hy' h ↦ absurd h (hnone y' hy')).symm
  | case2 x xs y ys _ hgt ih =>
    have hnone (x' : α) (hx' : x' ∈ x :: xs) : key x' ≠ key y :=
      (hgt.trans_le (key_le_of_mem hxs hx')).ne'
    rw [interWith_cons_gt _ _ hgt, ih hxs hys.of_cons]
    constructor
    · intro h x' hx'
      exact List.forall_mem_cons.mpr ⟨fun heq ↦ absurd heq (hnone x' hx'), h x' hx'⟩
    · intro h x' hx'
      exact (List.forall_mem_cons.mp (h x' hx')).2
  | case3 x xs y ys hlt hgt ih =>
    have heq : key x = key y := le_antisymm (not_lt.mp hgt) (not_lt.mp hlt)
    rw [interWith_cons_eq _ _ heq, List.cons.injEq, ih hxs.of_cons hys.of_cons,
      List.forall_mem_cons]
    constructor
    · rintro ⟨hfirst, hrest⟩
      refine ⟨List.forall_mem_cons.mpr ⟨fun _ ↦ hfirst, ?_⟩, ?_⟩
      · intro y' hy' h
        exact absurd (heq.symm.trans h) (key_lt_of_mem hys hy').ne
      · intro x' hx'
        refine List.forall_mem_cons.mpr ⟨?_, hrest x' hx'⟩
        intro h
        exact absurd (heq.trans h.symm) (key_lt_of_mem hxs hx').ne
    · rintro ⟨hfirst, hrest⟩
      refine ⟨(List.forall_mem_cons.mp hfirst).1 heq, ?_⟩
      intro x' hx'
      exact (List.forall_mem_cons.mp (hrest x' hx')).2
  | case4 xs ys hnil =>
    cases xs with
    | nil => simp
    | cons x xs =>
      cases ys with
      | nil => simp
      | cons y ys => exact absurd rfl (hnil x xs y ys rfl)

theorem unionWith_eq_iff (hxs : (xs.map key).Pairwise (· < ·)) (hys : (ys.map key).Pairwise (· < ·)) :
    unionWith key rules xs ys = unionWith key { rules with both := both } xs ys ↔
      ∀ x ∈ xs, ∀ y ∈ ys, key x = key y → rules.both x y = both x y := by
  rw [← interWith_eq_iff hxs hys]
  fun_induction unionWith key rules xs ys with
  | case1 x xs y ys hlt ih =>
    rw [unionWith_cons_lt _ _ hlt, interWith_cons_lt _ _ hlt, interWith_cons_lt _ _ hlt,
      ← ih hxs.of_cons hys, List.cons.injEq]
    exact and_iff_right rfl
  | case2 x xs y ys _ hgt ih =>
    rw [unionWith_cons_gt _ _ hgt, interWith_cons_gt _ _ hgt, interWith_cons_gt _ _ hgt,
      ← ih hxs hys.of_cons, List.cons.injEq]
    exact and_iff_right rfl
  | case3 x xs y ys hlt hgt ih =>
    have heq : key x = key y := le_antisymm (not_lt.mp hgt) (not_lt.mp hlt)
    rw [unionWith_cons_eq _ _ heq, interWith_cons_eq _ _ heq, interWith_cons_eq _ _ heq,
      List.cons.injEq, List.cons.injEq, ih hxs.of_cons hys.of_cons]
  | case4 ys => simp
  | case5 xs _ => simp

end Increasing

end Cheshire.Lib.KeyedMerge
