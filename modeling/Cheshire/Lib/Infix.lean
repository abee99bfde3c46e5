import Mathlib

/-!
# Conditions without parentheses

A condition is a Boolean combination of comparisons.  Written down without parentheses, it is the
comparisons in their order with a connective between any two, and is read with AND before OR.  It is read
as the same combination exactly if no OR stands below an AND.

Whether two combinations are the same is asked of the values of their comparisons one by one.
-/

namespace Cheshire.Lib

inductive Condition (α : Type*) where
  | comparison (atom : α)
  | and (left right : Condition α)
  | or (left right : Condition α)
  | not (condition : Condition α)

inductive Connective where
  | and
  | or
deriving DecidableEq, Repr

namespace Condition

variable {α β : Type*}

def atoms : Condition α → List α
  | comparison atom => [atom]
  | and left right => left.atoms ++ right.atoms
  | or left right => left.atoms ++ right.atoms
  | not condition => condition.atoms

def size (condition : Condition α) : ℕ := condition.atoms.length

variable (left right : Condition α)

theorem size_and : (and left right).size = left.size + right.size :=
  List.length_append

theorem size_or : (or left right).size = left.size + right.size :=
  List.length_append

/-- The value of a condition whose comparisons have these values. -/
def holds : Condition α → List Bool → Bool
  | comparison _, values => values.headD false
  | and left right, values =>
    left.holds (values.take left.size) && right.holds (values.drop left.size)
  | or left right, values =>
    left.holds (values.take left.size) || right.holds (values.drop left.size)
  | not condition, values => !condition.holds values

/-- The same combination of the same comparisons. -/
structure Same (first second : Condition α) : Prop where
  atoms : first.atoms = second.atoms
  holds : ∀ values : List Bool, values.length = second.size → first.holds values = second.holds values

variable {values nexts : List Bool}

theorem holds_and_append (h : values.length = left.size) :
    (and left right).holds (values ++ nexts) = (left.holds values && right.holds nexts) := by
  rw [holds, ← h, List.take_left, List.drop_left]

theorem holds_or_append (h : values.length = left.size) :
    (or left right).holds (values ++ nexts) = (left.holds values || right.holds nexts) := by
  rw [holds, ← h, List.take_left, List.drop_left]

/-- What a part that was read is joined with. -/
def orElse : Option (Condition α) → Condition α → Condition α
  | none, condition => condition
  | some done, condition => .or done condition

/-- The connectives with the comparisons behind them, after a part that is complete and one that is
not. -/
def readFrom (done : Option (Condition α)) (current : Condition α) :
    List (Connective × α) → Condition α
  | [] => orElse done current
  | (.and, atom) :: rest => readFrom done (.and current (.comparison atom)) rest
  | (.or, atom) :: rest => readFrom (some (orElse done current)) (.comparison atom) rest

/-- The condition that is written without parentheses. -/
def read (first : α) (rest : List (Connective × α)) : Condition α :=
  readFrom none (.comparison first) rest

/-- The condition with other comparisons. -/
def map (f : α → β) : Condition α → Condition β
  | comparison atom => comparison (f atom)
  | and left right => and (left.map f) (right.map f)
  | or left right => or (left.map f) (right.map f)
  | not condition => not (condition.map f)

theorem map_readFrom (f : α → β) (done : Option (Condition α)) (current : Condition α)
    (rest : List (Connective × α)) :
    (readFrom done current rest).map f =
      readFrom (done.map (map f)) (current.map f) (rest.map fun step ↦ (step.1, f step.2)) := by
  have horElse (done : Option (Condition α)) (current : Condition α) :
      (orElse done current).map f = orElse (done.map (map f)) (current.map f) := by
    cases done <;> rfl
  induction rest generalizing done current with
  | nil => exact horElse done current
  | cons step rest ih =>
    rcases step with ⟨connective, atom⟩
    cases connective with
    | and => exact ih done (.and current (.comparison atom))
    | or =>
      rw [readFrom, ih, Option.map_some, horElse]
      rfl

theorem map_read (f : α → β) (first : α) (rest : List (Connective × α)) :
    (read first rest).map f = read (f first) (rest.map fun step ↦ (step.1, f step.2)) :=
  map_readFrom f none (.comparison first) rest

variable (done : Option (Condition α))

theorem atoms_orElse (current : Condition α) :
    (orElse done current).atoms = done.elim [] atoms ++ current.atoms := by
  cases done <;> rfl

theorem atoms_readFrom (current : Condition α) (rest : List (Connective × α)) :
    (readFrom done current rest).atoms =
      done.elim [] atoms ++ current.atoms ++ rest.map Prod.snd := by
  induction rest generalizing done current with
  | nil => rw [readFrom, atoms_orElse, List.map_nil, List.append_nil]
  | cons step rest ih =>
    rcases step with ⟨connective, atom⟩
    cases connective with
    | and =>
      rw [readFrom, ih]
      simp [atoms]
    | or =>
      rw [readFrom, ih]
      simp [atoms, atoms_orElse]

theorem atoms_read (first : α) (rest : List (Connective × α)) :
    (read first rest).atoms = first :: rest.map Prod.snd :=
  atoms_readFrom none (.comparison first) rest

/-- The complete part and the present one, after one more comparison. -/
def flatStep (state : Bool × Bool) (step : Connective × Bool) : Bool × Bool :=
  match step.1 with
  | .and => (state.1, state.2 && step.2)
  | .or => (state.1 || state.2, step.2)

/-- The value of comparisons with connectives between them. -/
def flatHolds (connectives : List Connective) : List Bool → Bool
  | [] => false
  | value :: values =>
    let state := (connectives.zip values).foldl flatStep (false, value)
    state.1 || state.2

theorem holds_orElse (current : Condition α) (before : List Bool)
    (hbefore : before.length = (done.elim [] atoms).length) (values : List Bool) :
    (orElse done current).holds (before ++ values) =
      (done.elim false (fun condition ↦ condition.holds before) || current.holds values) := by
  cases done with
  | none =>
    obtain rfl := List.eq_nil_of_length_eq_zero hbefore
    rfl
  | some done =>
    change before.length = done.size at hbefore
    rw [orElse, holds_or_append done current hbefore]
    rfl

theorem holds_readFrom (rest : List (Connective × α)) (done : Option (Condition α))
    (current : Condition α) (before present values : List Bool)
    (hbefore : before.length = (done.elim [] atoms).length) (hpresent : present.length = current.size)
    (hvalues : values.length = rest.length) :
    (readFrom done current rest).holds (before ++ present ++ values) =
      let state := ((rest.map Prod.fst).zip values).foldl flatStep
        (done.elim false (fun condition ↦ condition.holds before), current.holds present)
      (state.1 || state.2) := by
  induction rest generalizing done current before present values with
  | nil =>
    obtain rfl := List.eq_nil_of_length_eq_zero hvalues
    rw [readFrom, List.append_nil]
    exact holds_orElse done current before hbefore present
  | cons step rest ih =>
    cases values with
    | nil => cases hvalues
    | cons value values =>
      have hlength : values.length = rest.length := Nat.succ.inj hvalues
      rcases step with ⟨connective, atom⟩
      cases connective with
      | and =>
        have hsize : (present ++ [value]).length = (and current (comparison atom)).size := by
          rw [List.length_append, hpresent, size, size, atoms, List.length_append]
          rfl
        have hnext : (and current (comparison atom)).holds (present ++ [value]) =
            (current.holds present && value) := by
          rw [holds_and_append current _ hpresent]
          rfl
        have hih := ih done (.and current (.comparison atom)) before (present ++ [value]) values
          hbefore hsize hlength
        rw [hnext, ← List.append_assoc, List.append_assoc _ [value]] at hih
        exact hih
      | or =>
        have hsize : (before ++ present).length = (orElse done current).atoms.length := by
          rw [atoms_orElse, List.length_append, List.length_append, hbefore, hpresent]
          rfl
        have hih := ih (some (orElse done current)) (.comparison atom) (before ++ present) [value]
          values hsize rfl hlength
        rw [Option.elim_some, holds_orElse done current before hbefore, List.append_assoc _ [value]]
          at hih
        exact hih

theorem holds_read (first : α) (rest : List (Connective × α))
    (hvalues : values.length = rest.length + 1) :
    (read first rest).holds values = flatHolds (rest.map Prod.fst) values := by
  cases values with
  | nil => cases hvalues
  | cons value values =>
    exact holds_readFrom rest none (.comparison first) [] [value] values rfl rfl
      (Nat.succ.inj hvalues)

/-- There is no NOT in the condition. -/
def Positive : Condition α → Prop
  | comparison _ => True
  | and left right => left.Positive ∧ right.Positive
  | or left right => left.Positive ∧ right.Positive
  | not _ => False

def OrFree : Condition α → Prop
  | comparison _ => True
  | and left right => left.OrFree ∧ right.OrFree
  | or _ _ => False
  | not condition => condition.OrFree

/-- No OR stands below an AND. -/
def WellNested : Condition α → Prop
  | comparison _ => True
  | and left right => left.OrFree ∧ right.OrFree
  | or left right => left.WellNested ∧ right.WellNested
  | not condition => condition.WellNested

def connectives : Condition α → List Connective
  | comparison _ => []
  | and left right => left.connectives ++ .and :: right.connectives
  | or left right => left.connectives ++ .or :: right.connectives
  | not condition => condition.connectives

theorem length_connectives (condition : Condition α) :
    condition.connectives.length + 1 = condition.size := by
  induction condition with
  | comparison atom => rfl
  | and left right ihleft ihright =>
    rw [size_and, connectives, List.length_append, List.length_cons]
    omega
  | or left right ihleft ihright =>
    rw [size_or, connectives, List.length_append, List.length_cons]
    omega
  | not condition ih => exact ih

theorem flatStep_fst_of_fst {state : Bool × Bool} (h : state.1 = true)
    (steps : List (Connective × Bool)) : (steps.foldl flatStep state).1 = true := by
  induction steps generalizing state with
  | nil => exact h
  | cons step steps ih =>
    apply ih
    rcases step with ⟨connective, value⟩
    cases connective with
    | and => exact h
    | or => exact Bool.or_eq_true_iff.mpr (Or.inl h)

theorem foldl_flatStep (done value : Bool) (steps : List (Connective × Bool)) :
    (steps.foldl flatStep (done, value)).1 = (done || (steps.foldl flatStep (false, value)).1) ∧
      (steps.foldl flatStep (done, value)).2 = (steps.foldl flatStep (false, value)).2 := by
  induction steps generalizing done value with
  | nil => simp
  | cons step steps ih =>
    rcases step with ⟨connective, next⟩
    rw [List.foldl_cons, List.foldl_cons]
    cases connective with
    | and =>
      exact ih done (value && next)
    | or =>
      obtain ⟨hfirst, hsecond⟩ := ih (done || value) next
      obtain ⟨hfirst', hsecond'⟩ := ih (false || value) next
      change (steps.foldl flatStep (done || value, next)).1 = (done ||
        (steps.foldl flatStep (false || value, next)).1) ∧ _
      refine ⟨?_, hsecond.trans hsecond'.symm⟩
      rw [hfirst, hfirst', Bool.false_or, Bool.or_assoc]

/-- The state after all comparisons but the first. -/
def flatState (connectives : List Connective) (value : Bool) (values : List Bool) : Bool × Bool :=
  (connectives.zip values).foldl flatStep (false, value)

theorem flatHolds_cons (connectives : List Connective) (value : Bool) (values : List Bool) :
    flatHolds connectives (value :: values) =
      ((flatState connectives value values).1 || (flatState connectives value values).2) := rfl

variable {first second : List Connective}

theorem flatState_append {value next : Bool} (hvalues : values.length = first.length)
    (connective : Connective) :
    flatState (first ++ connective :: second) value (values ++ next :: nexts) =
      (second.zip nexts).foldl flatStep
        (flatStep (flatState first value values) (connective, next)) := by
  rw [flatState, List.zip_append hvalues.symm, List.foldl_append, List.zip_cons_cons, List.foldl_cons]
  rfl

theorem flatHolds_or (hvalues : values.length = first.length + 1)
    (hnexts : nexts.length = second.length + 1) :
    flatHolds (first ++ .or :: second) (values ++ nexts) =
      (flatHolds first values || flatHolds second nexts) := by
  cases values with
  | nil => cases hvalues
  | cons value values =>
    cases nexts with
    | nil => cases hnexts
    | cons next nexts =>
      have hlength : values.length = first.length := Nat.succ.inj hvalues
      rw [List.cons_append, flatHolds_cons, flatState_append hlength, flatHolds_cons, flatHolds_cons]
      obtain ⟨hfirst, hsecond⟩ := foldl_flatStep
        ((flatState first value values).1 || (flatState first value values).2) next
        (second.zip nexts)
      change ((List.foldl flatStep ((flatState first value values).1 ||
        (flatState first value values).2, next) (second.zip nexts)).1 || _) = _
      rw [hfirst]
      change (_ || (List.foldl flatStep ((flatState first value values).1 ||
        (flatState first value values).2, next) (second.zip nexts)).2) = _
      rw [hsecond, Bool.or_assoc]
      rfl

variable {steps : List (Connective × Bool)}

theorem foldl_flatStep_and (h : ∀ step ∈ steps, step.1 = .and) (done value : Bool) :
    steps.foldl flatStep (done, value) = (done, value && steps.all Prod.snd) := by
  induction steps generalizing value with
  | nil => simp
  | cons step steps ih =>
    obtain ⟨hstep, hrest⟩ := List.forall_mem_cons.mp h
    rcases step with ⟨connective, next⟩
    obtain rfl : connective = .and := hstep
    rw [List.foldl_cons]
    change steps.foldl flatStep (done, value && next) = _
    rw [ih hrest, List.all_cons, Bool.and_assoc]

theorem orFree_iff (condition : Condition α) :
    condition.OrFree ↔ .or ∉ condition.connectives := by
  induction condition with
  | comparison atom => simp [OrFree, connectives]
  | and left right ihleft ihright => simp [OrFree, connectives, ihleft, ihright]
  | or left right ihleft ihright => simp [OrFree, connectives]
  | not condition ih => exact ih

variable {condition : Condition α}

theorem OrFree.wellNested (h : condition.OrFree) : condition.WellNested := by
  induction condition with
  | comparison atom => trivial
  | and left right ihleft ihright => exact h
  | or left right ihleft ihright => cases h
  | not condition ih => exact ih h

theorem forall_zip_eq_and {steps : List Connective} (h : .or ∉ steps) (values : List Bool) :
    ∀ step ∈ steps.zip values, step.1 = .and := by
  intro step hstep
  have hmem : step.1 ∈ steps := (List.of_mem_zip hstep).1
  cases hconnective : step.1 with
  | and => rfl
  | or => exact absurd (hconnective ▸ hmem) h

theorem flatHolds_and (hfirst : .or ∉ first) (hsecond : .or ∉ second)
    (hvalues : values.length = first.length + 1) (hnexts : nexts.length = second.length + 1) :
    flatHolds (first ++ .and :: second) (values ++ nexts) =
      (flatHolds first values && flatHolds second nexts) := by
  cases values with
  | nil => cases hvalues
  | cons value values =>
    cases nexts with
    | nil => cases hnexts
    | cons next nexts =>
      have hlength : values.length = first.length := Nat.succ.inj hvalues
      have hleft (start : Bool) := foldl_flatStep_and (forall_zip_eq_and hfirst values) false start
      have hright (start : Bool) := foldl_flatStep_and (forall_zip_eq_and hsecond nexts) false start
      rw [List.cons_append, flatHolds_cons, flatState_append hlength, flatHolds_cons, flatHolds_cons,
        flatState, flatState, hleft, hright]
      simp only [flatStep]
      rw [hright, Bool.false_or, Bool.false_or, Bool.false_or, Bool.and_assoc]

theorem WellNested.flatHolds_eq (hpositive : condition.Positive) (h : condition.WellNested)
    (hvalues : values.length = condition.size) :
    flatHolds condition.connectives values = condition.holds values := by
  induction condition generalizing values with
  | comparison atom =>
    obtain ⟨value, rfl⟩ := List.length_eq_one_iff.mp hvalues
    simp [flatHolds, connectives, holds]
  | and left right ihleft ihright =>
    obtain ⟨hleft, hright⟩ := h
    rw [size_and] at hvalues
    have htake : (values.take left.size).length = left.size := by
      rw [List.length_take, hvalues]
      exact min_eq_left (Nat.le_add_right _ _)
    have hdrop : (values.drop left.size).length = right.size := by
      rw [List.length_drop, hvalues]
      exact Nat.add_sub_cancel_left _ _
    rw [← List.take_append_drop left.size values, holds_and_append left right htake, connectives,
      flatHolds_and ((orFree_iff left).mp hleft) ((orFree_iff right).mp hright)
        (htake.trans left.length_connectives.symm) (hdrop.trans right.length_connectives.symm),
      ihleft hpositive.1 hleft.wellNested htake, ihright hpositive.2 hright.wellNested hdrop]
  | or left right ihleft ihright =>
    rw [size_or] at hvalues
    have htake : (values.take left.size).length = left.size := by
      rw [List.length_take, hvalues]
      exact min_eq_left (Nat.le_add_right _ _)
    have hdrop : (values.drop left.size).length = right.size := by
      rw [List.length_drop, hvalues]
      exact Nat.add_sub_cancel_left _ _
    rw [← List.take_append_drop left.size values, holds_or_append left right htake, connectives,
      flatHolds_or (htake.trans left.length_connectives.symm)
        (hdrop.trans right.length_connectives.symm),
      ihleft hpositive.1 h.1 htake, ihright hpositive.2 h.2 hdrop]
  | not condition ih => cases hpositive

theorem holds_replicate_false (hpositive : condition.Positive) :
    condition.holds (List.replicate condition.size false) = false := by
  induction condition with
  | comparison atom => rfl
  | and left right ihleft ihright =>
    rw [size_and, List.replicate_add,
      holds_and_append left right List.length_replicate]
    exact Bool.and_eq_false_iff.mpr (Or.inl (ihleft hpositive.1))
  | or left right ihleft ihright =>
    rw [size_or, List.replicate_add,
      holds_or_append left right List.length_replicate]
    exact Bool.or_eq_false_iff.mpr ⟨ihleft hpositive.1, ihright hpositive.2⟩
  | not condition ih => cases hpositive

theorem foldl_flatStep_false (h : ∀ step ∈ steps, step.2 = false) :
    steps.foldl flatStep (false, false) = (false, false) := by
  induction steps with
  | nil => rfl
  | cons step steps ih =>
    obtain ⟨hstep, hrest⟩ := List.forall_mem_cons.mp h
    rcases step with ⟨connective, value⟩
    obtain rfl : value = false := hstep
    cases connective with
    | and => exact ih hrest
    | or => exact ih hrest

theorem foldl_flatStep_true (h : ∀ step ∈ steps, step.2 = true) (hor : ∃ step ∈ steps, step.1 = .or)
    (done value : Bool) : (steps.foldl flatStep (done, value)).2 = true ∧
      (steps.foldl flatStep (done, true)).1 = true := by
  have hstays {steps : List (Connective × Bool)} (h : ∀ step ∈ steps, step.2 = true) (done : Bool) :
      (steps.foldl flatStep (done, true)).2 = true := by
    induction steps generalizing done with
    | nil => rfl
    | cons step steps ih =>
      obtain ⟨hstep, hrest⟩ := List.forall_mem_cons.mp h
      rcases step with ⟨connective, next⟩
      obtain rfl : next = true := hstep
      cases connective with
      | and => exact ih hrest done
      | or => exact ih hrest _
  induction steps generalizing done value with
  | nil =>
    obtain ⟨step, hmem, -⟩ := hor
    cases hmem
  | cons step steps ih =>
    obtain ⟨hstep, hrest⟩ := List.forall_mem_cons.mp h
    rcases step with ⟨connective, next⟩
    obtain rfl : next = true := hstep
    rw [List.foldl_cons, List.foldl_cons]
    cases connective with
    | and =>
      have hrestOr : ∃ step ∈ steps, step.1 = .or := by
        obtain ⟨step, hmem, hconnective⟩ := hor
        rcases List.mem_cons.mp hmem with rfl | hmem
        · cases hconnective
        · exact ⟨step, hmem, hconnective⟩
      exact ih hrest hrestOr done (value && true)
    | or =>
      refine ⟨hstays hrest (done || value), ?_⟩
      apply flatStep_fst_of_fst
      exact Bool.or_true done

theorem snd_of_mem_zip_replicate {steps : List Connective} {count : ℕ} {value : Bool}
    {step : Connective × Bool} (h : step ∈ steps.zip (List.replicate count value)) : step.2 = value :=
  List.eq_of_mem_replicate (List.of_mem_zip h).2

theorem flatHolds_replicate_false (steps : List Connective) (count : ℕ) :
    flatHolds steps (List.replicate count false) = false := by
  cases count with
  | zero => rfl
  | succ count =>
    rw [List.replicate_succ, flatHolds_cons, flatState,
      foldl_flatStep_false fun step hstep ↦ snd_of_mem_zip_replicate hstep]
    rfl

theorem exists_mem_zip_replicate {steps : List Connective} (h : .or ∈ steps) :
    ∃ step ∈ steps.zip (List.replicate steps.length true), step.1 = Connective.or := by
  obtain ⟨i, hi, hor⟩ := List.mem_iff_getElem.mp h
  have hzip : i < (steps.zip (List.replicate steps.length true)).length := by simpa using hi
  refine ⟨_, List.getElem_mem hzip, ?_⟩
  rw [List.getElem_zip]
  exact hor

theorem wellNested_of_flatHolds_eq (hpositive : condition.Positive)
    (h : ∀ values : List Bool, values.length = condition.size →
      flatHolds condition.connectives values = condition.holds values) :
    condition.WellNested := by
  induction condition with
  | comparison atom => trivial
  | and left right ihleft ihright =>
    constructor
    · -- all of the left part is true, and all of the right part false
      rw [orFree_iff]
      intro hor
      have hvalue := h (List.replicate left.size true ++ List.replicate right.size false)
        (by rw [List.length_append, List.length_replicate, List.length_replicate, size_and])
      rw [holds_and_append left right List.length_replicate, holds_replicate_false hpositive.2,
        Bool.and_false, connectives, ← left.length_connectives, ← right.length_connectives,
        List.replicate_succ, List.replicate_succ, List.cons_append, flatHolds_cons,
        flatState_append List.length_replicate] at hvalue
      have hdone := (foldl_flatStep_true (fun step hstep ↦ snd_of_mem_zip_replicate hstep)
        (exists_mem_zip_replicate hor) false true).2
      have hstays := @flatStep_fst_of_fst (flatStep (flatState left.connectives true
        (List.replicate left.connectives.length true)) (.and, false)) hdone
        (right.connectives.zip (List.replicate right.connectives.length false))
      rw [hstays] at hvalue
      cases hvalue
    · -- all of the right part is true, and all of the left part false
      rw [orFree_iff]
      intro hor
      have hvalue := h (List.replicate left.size false ++ List.replicate right.size true)
        (by rw [List.length_append, List.length_replicate, List.length_replicate, size_and])
      rw [holds_and_append left right List.length_replicate, holds_replicate_false hpositive.1,
        Bool.false_and, connectives, ← left.length_connectives, ← right.length_connectives,
        List.replicate_succ, List.replicate_succ, List.cons_append, flatHolds_cons,
        flatState_append List.length_replicate] at hvalue
      have hlast := (foldl_flatStep_true (fun step hstep ↦ snd_of_mem_zip_replicate hstep)
        (exists_mem_zip_replicate hor) (flatState left.connectives false
          (List.replicate left.connectives.length false)).1
        ((flatState left.connectives false
          (List.replicate left.connectives.length false)).2 && true)).1
      change (_ || (List.foldl flatStep (_, _) _).2) = false at hvalue
      rw [hlast, Bool.or_true] at hvalue
      cases hvalue
  | or left right ihleft ihright =>
    have hsum (values nexts : List Bool) (hvalues : values.length = left.size)
        (hnexts : nexts.length = right.size) :
        (flatHolds left.connectives values || flatHolds right.connectives nexts) =
          (left.holds values || right.holds nexts) := by
      have hboth := h (values ++ nexts) (by rw [List.length_append, size_or, hvalues, hnexts])
      rwa [holds_or_append left right hvalues, connectives,
        flatHolds_or (hvalues.trans left.length_connectives.symm)
          (hnexts.trans right.length_connectives.symm)] at hboth
    constructor
    · apply ihleft hpositive.1
      intro values hvalues
      have hboth := hsum values (List.replicate right.size false) hvalues List.length_replicate
      rwa [flatHolds_replicate_false, holds_replicate_false hpositive.2, Bool.or_false,
        Bool.or_false] at hboth
    · apply ihright hpositive.2
      intro nexts hnexts
      have hboth := hsum (List.replicate left.size false) nexts List.length_replicate hnexts
      rwa [flatHolds_replicate_false, holds_replicate_false hpositive.1, Bool.false_or,
        Bool.false_or] at hboth
  | not condition ih => cases hpositive

theorem same_read_iff (hpositive : condition.Positive) {first : α} {rest : List (Connective × α)}
    (hatoms : condition.atoms = first :: rest.map Prod.snd)
    (hconnectives : condition.connectives = rest.map Prod.fst) :
    Same (read first rest) condition ↔ condition.WellNested := by
  have hsize : condition.size = rest.length + 1 := by
    rw [size, hatoms, List.length_cons, List.length_map]
  constructor
  · intro h
    apply wellNested_of_flatHolds_eq hpositive
    intro values hvalues
    rw [hconnectives, ← holds_read first rest (hvalues.trans hsize)]
    exact h.holds values hvalues
  · intro h
    refine ⟨(atoms_read first rest).trans hatoms.symm, ?_⟩
    intro values hvalues
    rw [holds_read first rest (hvalues.trans hsize), ← hconnectives]
    exact h.flatHolds_eq hpositive hvalues

end Condition

end Cheshire.Lib
