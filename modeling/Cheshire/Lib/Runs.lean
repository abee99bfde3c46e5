import Mathlib

/-!
# Runs of a fallible step function

A component takes operations one after another; a step may fail.  An invariant between the history
and the state is carried along a run by one step.  A specification may follow the steps: `Along`
says that a condition holds at every step of a run, and `Throughout` that every state reached is
good for what the specification says.
-/

namespace Cheshire.Lib.Runs

variable {σ α ω ε : Type*}

/-- Perform the operations in order; the first failure ends the run. -/
def run (step : σ → ω → Except ε σ) : σ → List ω → Except ε σ
  | s, [] => .ok s
  | s, op :: ops => step s op >>= fun s' ↦ run step s' ops

variable {step : σ → ω → Except ε σ}

@[simp] theorem run_nil (s : σ) : run step s [] = .ok s := rfl

variable {s : σ}

theorem run_cons_of_ok {s' : σ} {op : ω} (hstep : step s op = .ok s') (ops : List ω) :
    run step s (op :: ops) = run step s' ops := by
  rw [run, hstep]
  rfl

variable {ops : List ω}

theorem run_append {s' : σ} (hrun : run step s ops = .ok s') (more : List ω) :
    run step s (ops ++ more) = run step s' more := by
  induction ops generalizing s with
  | nil =>
    rw [run_nil, Except.ok.injEq] at hrun
    rw [hrun, List.nil_append]
  | cons op ops ih =>
    rw [List.cons_append, run]
    rw [run] at hrun
    cases hstep : step s op with
    | error fault => rw [hstep] at hrun; cases hrun
    | ok next =>
      rw [hstep] at hrun
      exact ih hrun

theorem run_history {s₀ : σ} (inv : List ω → σ → Prop) (hinit : inv [] s₀)
    (hstep : ∀ past s op, inv past s → ∃ s', step s op = .ok s' ∧ inv (past ++ [op]) s')
    (ops : List ω) : ∃ s, run step s₀ ops = .ok s ∧ inv ops s := by
  induction ops using List.reverseRecOn with
  | nil => exact ⟨s₀, rfl, hinit⟩
  | append_singleton ops op ih =>
    obtain ⟨s, hrun, hinv⟩ := ih
    obtain ⟨s', hs', hinv'⟩ := hstep ops s op hinv
    exact ⟨s', by rw [run_append hrun, run_cons_of_ok hs', run_nil], hinv'⟩

/-- A condition on state, specification and operation that holds at every step of a run. -/
def Along (step : σ → ω → Except ε σ) (spec : σ → α → ω → α) (cond : σ → α → ω → Prop) :
    σ → α → List ω → Prop
  | _, _, [] => True
  | s, a, op :: ops =>
    cond s a op ∧ ∀ s', step s op = .ok s' → Along step spec cond s' (spec s a op) ops

/-- Every state reached is good for the specification, and every step succeeds and meets a
relation between the state before and the state after it. -/
def Throughout (step : σ → ω → Except ε σ) (spec : σ → α → ω → α) (good : σ → α → Prop)
    (frame : σ → ω → σ → Prop) : σ → α → List ω → Prop
  | s, a, [] => good s a
  | s, a, op :: ops => good s a ∧ ∃ s', step s op = .ok s' ∧ frame s op s' ∧
      Throughout step spec good frame s' (spec s a op) ops

variable {spec : σ → α → ω → α} {valid cond : σ → α → ω → Prop}
  {good : σ → α → Prop} {frame : σ → ω → σ → Prop}

variable {a : α}

theorem Throughout.now (h : Throughout step spec good frame s a ops) : good s a := by
  cases ops with
  | nil => exact h
  | cons op ops => exact h.1

theorem Throughout.imp {good' : σ → α → Prop} (hgood : ∀ s a, good s a → good' s a)
    (h : Throughout step spec good frame s a ops) : Throughout step spec good' frame s a ops := by
  induction ops generalizing s a with
  | nil => exact hgood s a h
  | cons op ops ih =>
    obtain ⟨hnow, s', hs', hframe, hrest⟩ := h
    exact ⟨hgood s a hnow, s', hs', hframe, ih hrest⟩

theorem along_true (s : σ) (a : α) (ops : List ω) :
    Along step spec (fun _ _ _ ↦ True) s a ops := by
  induction ops generalizing s a with
  | nil => trivial
  | cons op ops ih => exact ⟨trivial, fun s' _ ↦ ih s' (spec s a op)⟩

theorem Along.and (hvalid : Along step spec valid s a ops) (hcond : Along step spec cond s a ops) :
    Along step spec (fun s a op ↦ valid s a op ∧ cond s a op) s a ops := by
  induction ops generalizing s a with
  | nil => trivial
  | cons op ops ih =>
    exact ⟨⟨hvalid.1, hcond.1⟩, fun s' hs' ↦ ih (hvalid.2 s' hs') (hcond.2 s' hs')⟩

/-- When every step that meets a condition meets another one too and keeps an invariant, so does a run. -/
theorem Along.of_inv (inv : σ → Prop)
    (hstep : ∀ s a op, inv s → cond s a op → valid s a op ∧ ∀ s', step s op = .ok s' → inv s')
    (hs : inv s) (hcond : Along step spec cond s a ops) : Along step spec valid s a ops := by
  induction ops generalizing s a with
  | nil => trivial
  | cons op ops ih =>
    obtain ⟨hvalid, hinv⟩ := hstep s a op hs hcond.1
    exact ⟨hvalid, fun s' hs' ↦ ih (hinv s' hs') (hcond.2 s' hs')⟩

/-- When one valid step from a good state stays good exactly under a condition, a run of valid
steps stays good throughout exactly when the condition holds along it. -/
theorem throughout_iff_along (inv : σ → Prop)
    (hinv : ∀ s a op s', inv s → good s a → valid s a op → cond s a op → step s op = .ok s' →
      inv s')
    (hstep : ∀ s a op, inv s → good s a → valid s a op →
      (cond s a op ↔ ∃ s', step s op = .ok s' ∧ frame s op s' ∧ good s' (spec s a op)))
    {s : σ} {a : α} (hs : inv s) (hgood : good s a) {ops : List ω}
    (hvalid : Along step spec valid s a ops) :
    Throughout step spec good frame s a ops ↔ Along step spec cond s a ops := by
  induction ops generalizing s a with
  | nil => exact iff_of_true hgood trivial
  | cons op ops ih =>
    constructor
    · rintro ⟨-, s', hs', hframe, hrest⟩
      have hcond := (hstep s a op hs hgood hvalid.1).mpr ⟨s', hs', hframe, hrest.now⟩
      refine ⟨hcond, ?_⟩
      intro next hnext
      rw [hs', Except.ok.injEq] at hnext
      subst hnext
      have hinv' := hinv s a op s' hs hgood hvalid.1 hcond hs'
      exact (ih hinv' hrest.now (hvalid.2 s' hs')).mp hrest
    · rintro ⟨hcond, hrest⟩
      obtain ⟨s', hs', hframe, hgood'⟩ := (hstep s a op hs hgood hvalid.1).mp hcond
      have hinv' := hinv s a op s' hs hgood hvalid.1 hcond hs'
      exact ⟨hgood, s', hs', hframe, (ih hinv' hgood' (hvalid.2 s' hs')).mpr (hrest s' hs')⟩

/-- When a good state comes with an invariant that ties the state to the specification, and every valid
step that meets the condition carries the invariant over, while a valid step to a good state met it, a
run of valid steps stays good throughout exactly when the condition holds along it. -/
theorem throughout_iff_along_of_inv (inv : σ → α → Prop) (hgood : ∀ s a, inv s a → good s a)
    (hstep : ∀ s a op, inv s a → valid s a op → cond s a op →
      ∃ s', step s op = .ok s' ∧ frame s op s' ∧ inv s' (spec s a op))
    (hcond : ∀ s a op s', inv s a → valid s a op → step s op = .ok s' → good s' (spec s a op) →
      cond s a op)
    (hinv : inv s a) (hvalid : Along step spec valid s a ops) :
    Throughout step spec good frame s a ops ↔ Along step spec cond s a ops := by
  induction ops generalizing s a with
  | nil => exact iff_of_true (hgood s a hinv) trivial
  | cons op ops ih =>
    constructor
    · rintro ⟨-, s', hs', -, hrest⟩
      have hmet := hcond s a op s' hinv hvalid.1 hs' hrest.now
      obtain ⟨next, hnext, -, hinv'⟩ := hstep s a op hinv hvalid.1 hmet
      rw [hs', Except.ok.injEq] at hnext
      subst hnext
      refine ⟨hmet, ?_⟩
      intro other hother
      rw [hs', Except.ok.injEq] at hother
      subst hother
      exact (ih hinv' (hvalid.2 s' hs')).mp hrest
    · rintro ⟨hmet, hrest⟩
      obtain ⟨s', hs', hframe, hinv'⟩ := hstep s a op hinv hvalid.1 hmet
      exact ⟨hgood s a hinv, s', hs', hframe, (ih hinv' (hvalid.2 s' hs')).mpr (hrest s' hs')⟩

/-- When every step that meets the condition carries an invariant and a good state over, a run along
which the condition holds stays good throughout. -/
theorem throughout_of_along (inv : σ → Prop)
    (hstep : ∀ s a op, inv s → good s a → cond s a op →
      ∃ s', step s op = .ok s' ∧ inv s' ∧ frame s op s' ∧ good s' (spec s a op))
    (hs : inv s) (hgood : good s a)
    (hcond : Along step spec cond s a ops) : Throughout step spec good frame s a ops := by
  induction ops generalizing s a with
  | nil => exact hgood
  | cons op ops ih =>
    obtain ⟨s', hs', hinv', hframe, hgood'⟩ := hstep s a op hs hgood hcond.1
    exact ⟨hgood, s', hs', hframe, ih hinv' hgood' (hcond.2 s' hs')⟩

end Cheshire.Lib.Runs
