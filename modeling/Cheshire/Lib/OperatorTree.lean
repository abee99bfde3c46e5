import Mathlib

/-!
# Trees of binary operators with missing operands

An operator tree is evaluated from the leaves up.  A leaf may have no value, some operators do not
look at their right operand once the left one has no value, and applying an operator may fail.  A
condition on the operands of every operator that is applied is kept apart from the value of the
tree, so that two ways of applying the operators can be compared where the condition holds.
-/

namespace Cheshire.Lib

/-- Binary operators `ω` over leaves `σ`. -/
inductive OperatorTree (ω σ : Type) where
  | leaf (operand : σ)
  | node (operator : ω) (left right : OperatorTree ω σ)

namespace OperatorTree

variable {ω σ α ε : Type}

/-- `stops` holds of the operators that have no value as soon as the left operand has none. -/
structure Semantics (ω α ε : Type) where
  stops : ω → Bool
  apply : ω → Option α → Option α → Except ε (Option α)

/-- The value of a tree; the right operand is not evaluated where the operator stops. -/
def eval (sem : Semantics ω α ε) (answer : σ → Option α) :
    OperatorTree ω σ → Except ε (Option α)
  | leaf operand => .ok (answer operand)
  | node operator left right => do
    let value1 ← eval sem answer left
    if value1.isNone && sem.stops operator then .ok none
    else do
      let value2 ← eval sem answer right
      sem.apply operator value1 value2

/-- `P` holds of the operands of every operator that the evaluation applies. -/
def AtEach (sem : Semantics ω α ε) (answer : σ → Option α)
    (P : ω → Option α → Option α → Prop) : OperatorTree ω σ → Prop
  | leaf _ => True
  | node operator left right =>
    AtEach sem answer P left ∧
      ∀ value1, eval sem answer left = .ok value1 →
        (value1.isNone && sem.stops operator) = false →
          AtEach sem answer P right ∧
            ∀ value2, eval sem answer right = .ok value2 → P operator value1 value2

variable {sem sem' : Semantics ω α ε} {answer : σ → Option α}
  {P Q : ω → Option α → Option α → Prop}

theorem AtEach.imp (himp : ∀ operator value1 value2,
    (value1.isNone && sem.stops operator) = false → P operator value1 value2 →
      Q operator value1 value2)
    (tree : OperatorTree ω σ) (h : AtEach sem answer P tree) : AtEach sem answer Q tree := by
  induction tree with
  | leaf operand => trivial
  | node operator left right ihleft ihright =>
    refine ⟨ihleft h.1, ?_⟩
    intro value1 hvalue1 hgoes
    obtain ⟨hright, hoperands⟩ := h.2 value1 hvalue1 hgoes
    exact ⟨ihright hright, fun value2 hvalue2 ↦ himp _ _ _ hgoes (hoperands value2 hvalue2)⟩

theorem atEach_congr (hiff : ∀ operator value1 value2,
    (value1.isNone && sem.stops operator) = false →
      (P operator value1 value2 ↔ Q operator value1 value2))
    (tree : OperatorTree ω σ) : AtEach sem answer P tree ↔ AtEach sem answer Q tree := by
  constructor
  · apply AtEach.imp
    intro operator value1 value2 hgoes
    exact (hiff operator value1 value2 hgoes).mp
  · apply AtEach.imp
    intro operator value1 value2 hgoes
    exact (hiff operator value1 value2 hgoes).mpr

theorem AtEach.eval_eq (hstops : sem.stops = sem'.stops)
    (happly : ∀ operator value1 value2, P operator value1 value2 →
      sem.apply operator value1 value2 = sem'.apply operator value1 value2)
    (tree : OperatorTree ω σ) (h : AtEach sem answer P tree) :
    eval sem answer tree = eval sem' answer tree := by
  induction tree with
  | leaf operand => rfl
  | node operator left right ihleft ihright =>
    have hleft := ihleft h.1
    rcases hvalue1 : eval sem answer left with fault | value1
    · rw [eval, eval, ← hleft, hvalue1]
      rfl
    rcases hgoes : value1.isNone && sem.stops operator with _ | _
    · obtain ⟨hright, hoperands⟩ := h.2 value1 hvalue1 hgoes
      have hright' := ihright hright
      rw [eval, eval, ← hleft, hvalue1]
      simp only [bind, Except.bind]
      rw [← hstops, hgoes, if_neg Bool.false_ne_true, if_neg Bool.false_ne_true, ← hright']
      rcases hvalue2 : eval sem answer right with fault | value2
      · rfl
      · exact happly _ _ _ (hoperands value2 hvalue2)
    · rw [eval, eval, ← hleft, hvalue1]
      simp only [bind, Except.bind]
      rw [← hstops, hgoes, if_pos rfl, if_pos rfl]

theorem AtEach.transfer (hstops : sem.stops = sem'.stops)
    (happly : ∀ operator value1 value2, P operator value1 value2 →
      sem.apply operator value1 value2 = sem'.apply operator value1 value2)
    (tree : OperatorTree ω σ) (h : AtEach sem answer P tree) : AtEach sem' answer P tree := by
  induction tree with
  | leaf operand => trivial
  | node operator left right ihleft ihright =>
    refine ⟨ihleft h.1, ?_⟩
    intro value1 hvalue1 hgoes
    rw [← AtEach.eval_eq hstops happly left h.1] at hvalue1
    rw [← hstops] at hgoes
    obtain ⟨hright, hoperands⟩ := h.2 value1 hvalue1 hgoes
    refine ⟨ihright hright, ?_⟩
    intro value2 hvalue2
    rw [← AtEach.eval_eq hstops happly right hright] at hvalue2
    exact hoperands value2 hvalue2

theorem atEach_transfer (hstops : sem.stops = sem'.stops)
    (happly : ∀ operator value1 value2, P operator value1 value2 →
      sem.apply operator value1 value2 = sem'.apply operator value1 value2)
    (tree : OperatorTree ω σ) : AtEach sem answer P tree ↔ AtEach sem' answer P tree :=
  ⟨AtEach.transfer hstops happly tree,
    AtEach.transfer hstops.symm (fun _ _ _ h ↦ (happly _ _ _ h).symm) tree⟩

theorem atEach_of_eval_eq_ok (tree : OperatorTree ω σ) {value : Option α}
    (h : eval sem answer tree = .ok value) :
    AtEach sem answer (fun operator value1 value2 ↦
      ∃ result, sem.apply operator value1 value2 = .ok result) tree := by
  induction tree generalizing value with
  | leaf operand => trivial
  | node operator left right ihleft ihright =>
    rcases hvalue1 : eval sem answer left with fault | value1
    · rw [eval, hvalue1] at h
      cases h
    refine ⟨ihleft hvalue1, ?_⟩
    intro value1' hvalue1' hgoes
    obtain rfl : value1 = value1' := Except.ok.inj (hvalue1.symm.trans hvalue1')
    rw [eval, hvalue1] at h
    simp only [bind, Except.bind] at h
    rw [hgoes, if_neg Bool.false_ne_true] at h
    rcases hvalue2 : eval sem answer right with fault | value2
    · rw [hvalue2] at h
      cases h
    refine ⟨ihright hvalue2, ?_⟩
    intro value2' hvalue2'
    obtain rfl : value2 = value2' := Except.ok.inj hvalue2'
    rw [hvalue2] at h
    exact ⟨value, h⟩

end OperatorTree

end Cheshire.Lib
