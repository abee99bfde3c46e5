import Mathlib

/-!
# Comparisons by several keys

Two elements are compared by one key after the other, each in its own direction; a key may be
missing, and then comes last.  Such comparisons are total preorders.  A sort whose comparison may
fail, or may report that the sort is to be given up, is the ordinary one where neither happens.
-/

namespace Cheshire.Lib.KeyOrder

open Std

variable {α β : Type}

theorem transCmp_on (cmp : β → β → Ordering) [TransCmp cmp] (f : α → β) :
    TransCmp fun a b ↦ cmp (f a) (f b) where
  eq_swap {a b} := @OrientedCmp.eq_swap _ cmp _ (f a) (f b)
  isLE_trans {a b c} := @TransCmp.isLE_trans _ cmp _ (f a) (f b) (f c)

/-- A comparison in its own direction or in the other one. -/
def directed (ascending : Bool) (cmp : α → α → Ordering) (a b : α) : Ordering :=
  if ascending then cmp a b else cmp b a

theorem transCmp_directed (ascending : Bool) (cmp : α → α → Ordering) [TransCmp cmp] :
    TransCmp (directed ascending cmp) := by
  cases ascending with
  | true => exact inferInstanceAs (TransCmp cmp)
  | false => exact inferInstanceAs (TransCmp fun a b ↦ cmp b a)

/-- Missing values come after all others. -/
def missingLast (cmp : α → α → Ordering) : Option α → Option α → Ordering
  | none, none => .eq
  | none, some _ => .gt
  | some _, none => .lt
  | some a, some b => cmp a b

theorem isLE_missingLast_none {cmp : α → α → Ordering} {b : Option α}
    (h : (missingLast cmp none b).isLE) : b = none := by
  cases b with
  | none => rfl
  | some b => exact absurd h Bool.false_ne_true

instance (cmp : α → α → Ordering) [TransCmp cmp] : TransCmp (missingLast cmp) where
  eq_swap {a b} := by
    cases a <;> cases b
    · rfl
    · rfl
    · rfl
    · exact @OrientedCmp.eq_swap _ cmp _ _ _
  isLE_trans {a b c} hab hbc := by
    cases a with
    | none =>
      obtain rfl := isLE_missingLast_none hab
      exact hbc
    | some a =>
      cases b with
      | none =>
        obtain rfl := isLE_missingLast_none hbc
        rfl
      | some b =>
        cases c with
        | none => rfl
        | some c => exact @TransCmp.isLE_trans _ cmp _ _ _ _ hab hbc

section Sorting

variable {ε : Type} (compare : α → α → Except ε (ℤ × Bool))

/-- An element is put in front of the first one that it may precede; the flag says whether some
comparison gave the sort up. -/
def insertM (a : α) : List α → Except ε (List α × Bool)
  | [] => .ok ([a], false)
  | b :: bs => do
    let (order, cancelled) ← compare a b
    if order ≤ 0 then .ok (a :: b :: bs, cancelled)
    else do
      let (rest, cancelled') ← insertM a bs
      .ok (b :: rest, cancelled || cancelled')

/-- The elements are inserted one after the other. -/
def sortM : List α → Except ε (List α × Bool)
  | [] => .ok ([], false)
  | a :: as => do
    let (rest, cancelled) ← sortM as
    let (sorted, cancelled') ← insertM compare a rest
    .ok (sorted, cancelled || cancelled')

variable {compare} (r : α → α → Prop) [DecidableRel r]

theorem insertM_eq {a : α} {bs : List α}
    (hcompare : ∀ b ∈ bs, ∃ order, compare a b = .ok (order, false) ∧ (order ≤ 0 ↔ r a b)) :
    insertM compare a bs = .ok (bs.orderedInsert r a, false) := by
  induction bs with
  | nil => rfl
  | cons b bs ih =>
    obtain ⟨order, hrun, hiff⟩ := hcompare b List.mem_cons_self
    have hrest := ih fun other hmem ↦ hcompare other (List.mem_cons_of_mem _ hmem)
    simp only [insertM, hrun, hrest, bind, Except.bind, List.orderedInsert, hiff]
    split_ifs <;> rfl

theorem sortM_eq {as : List α} (hcompare : ∀ a ∈ as, ∀ b ∈ as, ∃ order,
    compare a b = .ok (order, false) ∧ (order ≤ 0 ↔ r a b)) :
    sortM compare as = .ok (as.insertionSort r, false) := by
  induction as with
  | nil => rfl
  | cons a as ih =>
    have hrest := ih fun b hb c hc ↦
      hcompare b (List.mem_cons_of_mem _ hb) c (List.mem_cons_of_mem _ hc)
    have hinsert : insertM compare a (as.insertionSort r) =
        .ok ((as.insertionSort r).orderedInsert r a, false) := by
      refine insertM_eq r fun b hb ↦ hcompare a List.mem_cons_self b (List.mem_cons_of_mem _ ?_)
      exact (List.perm_insertionSort r as).mem_iff.mp hb
    simp only [sortM, hrest, hinsert, bind, Except.bind]
    rfl

end Sorting

end Cheshire.Lib.KeyOrder
