import Mathlib

/-!
# Clusters of points

Points form a cluster when no gap between neighbours in their order is larger than a given one.  Points
that are listed in any other order and of which each is near the one before form a cluster, while a
cluster need not be such a list.
-/

namespace Cheshire.Lib.Clusters

variable {α : Type*} [AddCommGroup α] [LinearOrder α] {gap : α} {points : List α}

/-- In their order the points are near each other. -/
def Cluster (gap : α) (points : List α) : Prop :=
  ∃ sorted : List α, sorted.Perm points ∧ sorted.Pairwise (· ≤ ·) ∧ sorted.IsChain fun x y ↦ y - x ≤ gap

theorem Cluster.perm {points' : List α} (h : Cluster gap points) (hperm : points.Perm points') :
    Cluster gap points' := by
  obtain ⟨sorted, hsorted, horder, hchain⟩ := h
  exact ⟨sorted, hsorted.trans hperm, horder, hchain⟩

variable [IsOrderedAddMonoid α]

theorem isChain_orderedInsert {x y : α} (horder : points.Pairwise (· ≤ ·))
    (hchain : points.IsChain fun x y ↦ y - x ≤ gap) (hy : y ∈ points) (hnear : |y - x| ≤ gap) :
    (points.orderedInsert (· ≤ ·) x).IsChain fun x y ↦ y - x ≤ gap := by
  induction points generalizing y with
  | nil => cases hy
  | cons z points ih =>
    obtain ⟨hz, horder⟩ := List.pairwise_cons.mp horder
    rw [List.orderedInsert_cons]
    split_ifs with hle
    · -- the new point comes first
      have hzy : z ≤ y := by
        rcases List.mem_cons.mp hy with rfl | hmem
        · exact le_rfl
        · exact hz y hmem
      have hgap := (sub_le_sub_right hzy x).trans ((le_abs_self (y - x)).trans hnear)
      exact List.isChain_cons_cons.mpr ⟨hgap, hchain⟩
    have hlt := not_le.mp hle
    cases points with
    | nil =>
      obtain rfl := List.mem_singleton.mp hy
      have hgap : x - y ≤ gap := by
        rw [← neg_sub]
        exact (neg_le_abs (y - x)).trans hnear
      exact List.isChain_cons_cons.mpr ⟨hgap, List.isChain_singleton x⟩
    | cons w points =>
      obtain ⟨hzw, hchain⟩ := List.isChain_cons_cons.mp hchain
      have hle' := hz w List.mem_cons_self
      by_cases hxw : x ≤ w
      · -- between two points of the cluster
        rw [List.orderedInsert_cons, if_pos hxw]
        exact List.isChain_cons_cons.mpr ⟨(sub_le_sub_right hxw z).trans hzw,
          List.isChain_cons_cons.mpr ⟨(sub_le_sub_left hlt.le w).trans hzw, hchain⟩⟩
      · obtain ⟨near, hmem, hgap⟩ : ∃ near ∈ w :: points, |near - x| ≤ gap := by
          rcases List.mem_cons.mp hy with rfl | hmem
          · refine ⟨w, List.mem_cons_self, ?_⟩
            rw [abs_sub_comm, abs_of_nonneg (sub_nonneg.mpr hlt.le)] at hnear
            rw [abs_sub_comm, abs_of_nonneg (sub_nonneg.mpr (not_le.mp hxw).le)]
            exact (sub_le_sub_left hle' x).trans hnear
          · exact ⟨y, hmem, hnear⟩
        have hinserted := ih horder hchain hmem hgap
        rw [List.orderedInsert_cons, if_neg hxw] at hinserted ⊢
        exact List.isChain_cons_cons.mpr ⟨hzw, hinserted⟩

theorem cluster_of_isChain (h : points.IsChain fun x y ↦ |y - x| ≤ gap) : Cluster gap points := by
  induction points with
  | nil => exact ⟨[], List.Perm.refl _, List.Pairwise.nil, List.isChain_nil⟩
  | cons x points ih =>
    cases points with
    | nil => exact ⟨[x], List.Perm.refl _, List.pairwise_singleton _ x, List.isChain_singleton x⟩
    | cons y points =>
      obtain ⟨hnear, hrest⟩ := List.isChain_cons_cons.mp h
      obtain ⟨sorted, hperm, horder, hchain⟩ := ih hrest
      refine ⟨sorted.orderedInsert (· ≤ ·) x, ?_, horder.orderedInsert x sorted, ?_⟩
      · exact (List.perm_orderedInsert _ x sorted).trans (hperm.cons x)
      · exact isChain_orderedInsert horder hchain (hperm.symm.subset List.mem_cons_self) hnear

end Cheshire.Lib.Clusters
