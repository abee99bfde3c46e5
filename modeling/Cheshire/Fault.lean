import Mathlib

/-!
# Code that leaves its defined behaviour

A routine that follows a null or freed pointer, leaves an allocated block or overflows a signed
integer has no result in C.  Its model returns a `Fault` instead, so that a theorem about a result
also says that none of this happened.
-/

namespace Cheshire

/-- The ways in which the C code leaves its defined behaviour; `unfinished` marks a loop of the
model that ran out of fuel. -/
inductive Fault where
  | nullDereference
  | outOfBounds
  | signedOverflow
  | useAfterFree
  | uninitialized
  | unfinished
deriving DecidableEq, Repr

abbrev Exec := Except Fault

/-- Following a pointer that may be null. -/
def deref {α : Type} : Option α → Exec α
  | some value => .ok value
  | none => .error .nullDereference

def INT_MAX : ℕ := 2 ^ 31 - 1

/-- The value of an `int` expression whose exact value is `value`. -/
def checkInt (value : ℤ) : Exec ℤ :=
  if -(2 ^ 31) ≤ value ∧ value ≤ 2 ^ 31 - 1 then .ok value else .error .signedOverflow

theorem checkInt_of_le {value : ℤ} (hge : -(2 ^ 31) ≤ value) (hle : value ≤ INT_MAX) :
    checkInt value = .ok value := by
  rw [INT_MAX] at hle
  exact if_pos ⟨hge, by omega⟩

theorem checkInt_natCast {n : ℕ} (hle : n ≤ INT_MAX) : checkInt n = .ok (n : ℤ) := by
  rw [INT_MAX] at hle
  exact if_pos (by constructor <;> omega)

theorem checkInt_eq_ok {value result : ℤ} (h : checkInt value = .ok result) : result = value := by
  unfold checkInt at h
  split at h
  · exact (Except.ok.inj h).symm
  · cases h

variable {α β : Type}

theorem bind_eq_ok {first : Exec α} {next : α → Exec β} {result : β} :
    (first >>= next) = .ok result ↔ ∃ value, first = .ok value ∧ next value = .ok result := by
  rcases first with fault | value
  · simp [bind, Except.bind]
  · simp [bind, Except.bind]

theorem mapM_ok {f : α → Exec β} {g : α → β} (items : List α)
    (hitems : ∀ item ∈ items, f item = .ok (g item)) : items.mapM f = .ok (items.map g) := by
  induction items with
  | nil => rfl
  | cons item items ih =>
    have hrest := ih fun other hmem ↦ hitems other (List.mem_cons_of_mem _ hmem)
    rw [List.mapM_cons, hitems item List.mem_cons_self, hrest]
    rfl

theorem exists_of_mapM {f : α → Exec β} {items : List α} {results : List β}
    (h : items.mapM f = .ok results) : ∀ result ∈ results, ∃ item ∈ items, f item = .ok result := by
  induction items generalizing results with
  | nil =>
    have hresults : [] = results := Except.ok.inj h
    simp [← hresults]
  | cons item items ih =>
    rw [List.mapM_cons] at h
    rcases hitem : f item with fault | first
    · rw [hitem] at h
      cases h
    rcases hrest : items.mapM f with fault | rest
    · rw [hitem, hrest] at h
      cases h
    · rw [hitem, hrest] at h
      have hresults : first :: rest = results := Except.ok.inj h
      intro result hmem
      rw [← hresults] at hmem
      rcases List.mem_cons.mp hmem with rfl | hmem
      · exact ⟨item, List.mem_cons_self, hitem⟩
      · obtain ⟨other, hother, hrun⟩ := ih hrest result hmem
        exact ⟨other, List.mem_cons_of_mem _ hother, hrun⟩

/-- Why a routine did not return: it left its defined behaviour, or it called `exit`. -/
inductive Stop where
  | fault (fault : Fault)
  | exit (status : ℕ)
deriving DecidableEq, Repr

/-- A call to a routine that never ends the process. -/
def call {α : Type} : Exec α → Except Stop α
  | .ok value => .ok value
  | .error fault => .error (.fault fault)

@[simp]
theorem call_ok (value : α) : call (.ok value) = .ok value := rfl

theorem call_eq_ok {run : Exec α} {value : α} : call run = .ok value ↔ run = .ok value := by
  rcases run with fault | other
  · simp [call]
  · simp [call]

theorem stop_bind_eq_ok {first : Except Stop α} {next : α → Except Stop β} {result : β} :
    (first >>= next) = .ok result ↔ ∃ value, first = .ok value ∧ next value = .ok result := by
  rcases first with stop | value
  · simp [bind, Except.bind]
  · simp [bind, Except.bind]

end Cheshire
