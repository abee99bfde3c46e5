import Mathlib

/-!
# Running bounds that start at zero

A running maximum is started at zero, and zero counts as not yet set.  It is the maximum of the values that
were taken in unless that maximum is zero and the last value is not.
-/

namespace Cheshire.Lib.RunningBounds

variable {α : Type*} [LinearOrder α] [Zero α]

/-- One more value; a bound of zero is replaced. -/
def raise (bound value : α) : α :=
  if bound = 0 then value else if bound < value then value else bound

def lower (bound value : α) : α :=
  if bound = 0 then value else if value < bound then value else bound

/-- The running maximum of a list. -/
def highest (values : List α) : α := values.foldl raise 0

def lowest (values : List α) : α := values.foldl lower 0

@[simp] theorem highest_nil : highest ([] : List α) = 0 := rfl

theorem highest_concat (values : List α) (value : α) :
    highest (values ++ [value]) = raise (highest values) value := by
  rw [highest, List.foldl_append]
  rfl

theorem lowest_concat (values : List α) (value : α) :
    lowest (values ++ [value]) = lower (lowest values) value := by
  rw [lowest, List.foldl_append]
  rfl

theorem raise_eq_or (bound value : α) : raise bound value = value ∨ raise bound value = bound := by
  rw [raise]
  split_ifs <;> simp

variable {values : List α}

theorem highest_mem (hne : values ≠ []) : highest values ∈ values := by
  induction values using List.reverseRecOn with
  | nil => exact absurd rfl hne
  | append_singleton values value ih =>
    rw [highest_concat, List.mem_append, List.mem_singleton]
    by_cases hnil : values = []
    · right
      rw [hnil, highest_nil, raise, if_pos rfl]
    · rcases raise_eq_or (highest values) value with h | h
      · exact Or.inr h
      · rw [h]
        exact Or.inl (ih hnil)

theorem raise_of_pos {bound value : α} (h : 0 < bound) : raise bound value = max bound value := by
  rw [raise, if_neg h.ne']
  split_ifs with hlt
  · exact (max_eq_right hlt.le).symm
  · exact (max_eq_left (not_lt.mp hlt)).symm

theorem raise_of_neg {bound value : α} (h : bound < 0) : raise bound value = max bound value := by
  rw [raise, if_neg h.ne]
  split_ifs with hlt
  · exact (max_eq_right hlt.le).symm
  · exact (max_eq_left (not_lt.mp hlt)).symm

theorem highest_nonpos (h : ∀ value ∈ values, value ≤ 0) : highest values ≤ 0 := by
  by_cases hnil : values = []
  · rw [hnil, highest_nil]
  · exact h _ (highest_mem hnil)

theorem highest_of_pos (h : ∃ value ∈ values, 0 < value) :
    0 < highest values ∧ ∀ value ∈ values, value ≤ highest values := by
  induction values using List.reverseRecOn with
  | nil => simp at h
  | append_singleton values value ih =>
    rw [highest_concat]
    by_cases hpos : ∃ value ∈ values, 0 < value
    · obtain ⟨hlt, hle⟩ := ih hpos
      rw [raise_of_pos hlt]
      refine ⟨hlt.trans_le (le_max_left _ _), ?_⟩
      intro other hother
      rcases List.mem_append.mp hother with hold | hnew
      · exact (hle other hold).trans (le_max_left _ _)
      · rw [List.mem_singleton.mp hnew]
        exact le_max_right _ _
    · have hold : ∀ other ∈ values, other ≤ 0 := by
        intro other hother
        exact not_lt.mp fun hlt ↦ hpos ⟨other, hother, hlt⟩
      have hvalue : 0 < value := by
        obtain ⟨other, hother, hlt⟩ := h
        rcases List.mem_append.mp hother with hmem | hnew
        · exact absurd hlt (not_lt.mpr (hold other hmem))
        · rwa [List.mem_singleton.mp hnew] at hlt
      have hbound := highest_nonpos hold
      have hraise : raise (highest values) value = value := by
        rw [raise]
        split_ifs with hzero hlt
        · rfl
        · rfl
        · exact absurd (hbound.trans_lt hvalue) hlt
      rw [hraise]
      refine ⟨hvalue, ?_⟩
      intro other hother
      rcases List.mem_append.mp hother with hmem | hnew
      · exact (hold other hmem).trans hvalue.le
      · rw [List.mem_singleton.mp hnew]

theorem highest_of_neg (hne : values ≠ []) (h : ∀ value ∈ values, value < 0) :
    ∀ value ∈ values, value ≤ highest values := by
  induction values using List.reverseRecOn with
  | nil => exact absurd rfl hne
  | append_singleton values value ih =>
    rw [highest_concat]
    intro other hother
    by_cases hnil : values = []
    · subst hnil
      rw [highest_nil, raise, if_pos rfl]
      exact (List.mem_singleton.mp hother).le
    · have hold : ∀ other ∈ values, other < 0 := fun other hmem ↦ h other (List.mem_append_left _ hmem)
      rw [raise_of_neg (hold _ (highest_mem hnil))]
      rcases List.mem_append.mp hother with hmem | hnew
      · exact (ih hnil hold other hmem).trans (le_max_left _ _)
      · rw [List.mem_singleton.mp hnew]
        exact le_max_right _ _

theorem highest_eq_zero_iff {last : α}
    (h : ∀ value ∈ values ++ [last], value ≤ 0) : highest (values ++ [last]) = 0 ↔ last = 0 := by
  have hbound := highest_nonpos fun value hmem ↦ h value (List.mem_append_left _ hmem)
  have hlast := h last (by simp)
  rw [highest_concat, raise]
  split_ifs with hzero hlt
  · rfl
  · rfl
  · refine iff_of_false hzero ?_
    intro heq
    rw [heq] at hlt
    exact hzero (le_antisymm hbound (not_lt.mp hlt))

theorem highest_isGreatest_iff {values : List α} {last : α} :
    IsGreatest {value | value ∈ values ++ [last]} (highest (values ++ [last])) ↔
      (IsGreatest {value | value ∈ values ++ [last]} 0 → last = 0) := by
  have hmem : highest (values ++ [last]) ∈ values ++ [last] := highest_mem (by simp)
  constructor
  · intro hgreatest hzero
    exact (highest_eq_zero_iff fun value hvalue ↦ hzero.2 hvalue).mp (hgreatest.unique hzero)
  · intro h
    refine ⟨hmem, ?_⟩
    by_cases hpos : ∃ value ∈ values ++ [last], 0 < value
    · exact (highest_of_pos hpos).2
    · have hnonpos : ∀ value ∈ values ++ [last], value ≤ 0 :=
        fun value hvalue ↦ not_lt.mp fun hlt ↦ hpos ⟨value, hvalue, hlt⟩
      by_cases hzero : (0 : α) ∈ values ++ [last]
      · rw [(highest_eq_zero_iff hnonpos).mpr (h ⟨hzero, hnonpos⟩)]
        exact hnonpos
      · refine highest_of_neg (by simp) ?_
        intro value hvalue
        refine lt_of_le_of_ne (hnonpos value hvalue) ?_
        rintro rfl
        exact hzero hvalue

theorem lowest_isLeast_iff {last : α} :
    IsLeast {value | value ∈ values ++ [last]} (lowest (values ++ [last])) ↔
      (IsLeast {value | value ∈ values ++ [last]} 0 → last = 0) :=
  @highest_isGreatest_iff αᵒᵈ _ _ values last

/-- When the greatest or the least value is zero, so is the last one. -/
structure Settled (values : List α) : Prop where
  greatest : IsGreatest {value | value ∈ values} 0 → values.getLast? = some 0
  least : IsLeast {value | value ∈ values} 0 → values.getLast? = some 0

theorem bounds_iff_settled (hne : values ≠ []) :
    IsGreatest {value | value ∈ values} (highest values) ∧
        IsLeast {value | value ∈ values} (lowest values) ↔ Settled values := by
  obtain ⟨values, last, rfl⟩ := (List.eq_nil_or_concat' values).resolve_left hne
  rw [highest_isGreatest_iff, lowest_isLeast_iff]
  have hlast : (values ++ [last]).getLast? = some 0 ↔ last = 0 := by
    rw [List.getLast?_concat, Option.some.injEq]
  constructor
  · rintro ⟨hgreatest, hleast⟩
    exact ⟨fun h ↦ hlast.mpr (hgreatest h), fun h ↦ hlast.mpr (hleast h)⟩
  · intro h
    exact ⟨fun hzero ↦ hlast.mp (h.greatest hzero), fun hzero ↦ hlast.mp (h.least hzero)⟩

end Cheshire.Lib.RunningBounds
