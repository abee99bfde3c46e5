import Mathlib

/-!
# First-fit search through lists

One value is taken from each of several lists.  The search tries the values of the first list one after
another; from each further list it takes the one value at which the scan of that list stops, without going
back, and an empty list leaves what was there before.  Values that were taken from all the lists are tested
once more.  The program may leave its defined behaviour while it scans a list and in the last test.
-/

namespace Cheshire.Lib.FirstFit

variable {ε α : Type}

/-- How the scan of a list ends. -/
inductive Scan (α : Type) where
  | fault
  | giveUp
  | take (value : α)

/-- The scan of a list that has values, from the value that was taken before; what counts as the value of
an empty list; the last test, and where it leaves the defined behaviour. -/
structure Search (α : Type) where
  scan : α → List α → Scan α
  blank : α
  Fine : List α → Prop
  FineFault : List α → Prop

variable {anchors : List α}

namespace Search

variable (search : Search α)

/-- These values are taken one after another. -/
def TakenFrom : α → List (List α) → List α → Prop
  | _, [], taken => taken = []
  | value, list :: rest, taken =>
    (list = [] ∧ ∃ more, taken = search.blank :: more ∧ TakenFrom value rest more) ∨
      list ≠ [] ∧ ∃ next more, search.scan value list = .take next ∧ taken = next :: more ∧
        TakenFrom next rest more

/-- The scan of one of the lists faults. -/
def ScanFaults : α → List (List α) → Prop
  | _, [] => False
  | value, list :: rest =>
    (list = [] ∧ ScanFaults value rest) ∨
      list ≠ [] ∧ (search.scan value list = .fault ∨
        ∃ next, search.scan value list = .take next ∧ ScanFaults next rest)

/-- From this value on, values can be taken from all lists and pass the last test. -/
def Passes (anchor : α) (rest : List (List α)) : Prop :=
  ∃ taken, search.TakenFrom anchor rest taken ∧ search.Fine (anchor :: taken)

/-- The search from this value on leaves the defined behaviour. -/
def Faults (anchor : α) (rest : List (List α)) : Prop :=
  search.ScanFaults anchor rest ∨
    ∃ taken, search.TakenFrom anchor rest taken ∧ search.FineFault (anchor :: taken)

/-- The first value of the first list that passes; up to there nothing faults. -/
structure StartsAt [LT α] [LE α] (anchors : List α) (rest : List (List α)) (anchor : α) : Prop where
  mem : anchor ∈ anchors
  passes : search.Passes anchor rest
  first : ∀ other ∈ anchors, other < anchor → ¬search.Passes other rest
  safe : ∀ other ∈ anchors, other ≤ anchor → ¬search.Faults other rest

/-- No value of the first list passes, and nothing faults. -/
def NeverStarts (anchors : List α) (rest : List (List α)) : Prop :=
  ∀ anchor ∈ anchors, ¬search.Faults anchor rest ∧ ¬search.Passes anchor rest

variable {search} {value next : α} {list taken : List α} {rest : List (List α)}

theorem takenFrom_nil_cons : search.TakenFrom value ([] :: rest) taken ↔
    ∃ more, taken = search.blank :: more ∧ search.TakenFrom value rest more := by
  rw [TakenFrom]
  constructor
  · rintro (⟨-, h⟩ | ⟨h, -⟩)
    · exact h
    · exact absurd rfl h
  · exact fun h ↦ Or.inl ⟨rfl, h⟩

theorem takenFrom_cons (hlist : list ≠ []) (h : search.scan value list = .take next) :
    search.TakenFrom value (list :: rest) taken ↔
      ∃ more, taken = next :: more ∧ search.TakenFrom next rest more := by
  rw [TakenFrom]
  constructor
  · rintro (⟨hnil, -⟩ | ⟨-, next', more, hscan, htaken, hmore⟩)
    · exact absurd hnil hlist
    · rw [h, Scan.take.injEq] at hscan
      subst hscan
      exact ⟨more, htaken, hmore⟩
  · rintro ⟨more, htaken, hmore⟩
    exact Or.inr ⟨hlist, next, more, h, htaken, hmore⟩

theorem not_takenFrom (hlist : list ≠ []) (h : ∀ next, search.scan value list ≠ .take next) :
    ¬search.TakenFrom value (list :: rest) taken := by
  rintro (⟨hnil, -⟩ | ⟨-, next, more, hscan, -⟩)
  · exact hlist hnil
  · exact h next hscan

theorem scanFaults_nil_cons : search.ScanFaults value ([] :: rest) ↔ search.ScanFaults value rest := by
  rw [ScanFaults]
  constructor
  · rintro (⟨-, h⟩ | ⟨h, -⟩)
    · exact h
    · exact absurd rfl h
  · exact fun h ↦ Or.inl ⟨rfl, h⟩

theorem scanFaults_cons (hlist : list ≠ []) (h : search.scan value list = .take next) :
    search.ScanFaults value (list :: rest) ↔ search.ScanFaults next rest := by
  rw [ScanFaults, h]
  constructor
  · rintro (⟨hnil, -⟩ | ⟨-, hfault | ⟨next', hnext, hrest⟩⟩)
    · exact absurd hnil hlist
    · cases hfault
    · rwa [Scan.take.inj hnext]
  · exact fun hrest ↦ Or.inr ⟨hlist, Or.inr ⟨next, rfl, hrest⟩⟩

theorem TakenFrom.unique {taken' : List α} (h : search.TakenFrom value rest taken)
    (h' : search.TakenFrom value rest taken') : taken = taken' := by
  induction rest generalizing value taken taken' with
  | nil => exact Eq.trans h (Eq.symm h')
  | cons list rest ih =>
    rcases h with ⟨rfl, more, rfl, h⟩ | ⟨hlist, next, more, hscan, rfl, h⟩
    · obtain ⟨more', rfl, hmore'⟩ := takenFrom_nil_cons.mp h'
      rw [ih h hmore']
    · obtain ⟨more', rfl, hmore'⟩ := (takenFrom_cons hlist hscan).mp h'
      rw [ih h hmore']

theorem TakenFrom.length_eq (h : search.TakenFrom value rest taken) : taken.length = rest.length := by
  induction rest generalizing value taken with
  | nil =>
    rw [h]
    rfl
  | cons list rest ih =>
    rcases h with ⟨-, more, rfl, h⟩ | ⟨-, next, more, -, rfl, h⟩
    · rw [List.length_cons, List.length_cons, ih h]
    · rw [List.length_cons, List.length_cons, ih h]

theorem TakenFrom.forall₂ (hscan : ∀ value list next, search.scan value list = .take next → next ∈ list)
    (hnonempty : ∀ list ∈ rest, list ≠ []) (h : search.TakenFrom value rest taken) :
    List.Forall₂ (fun list value ↦ value ∈ list) rest taken := by
  induction rest generalizing value taken with
  | nil =>
    rw [h]
    exact List.Forall₂.nil
  | cons list rest ih =>
    obtain ⟨hne, hrest⟩ := List.forall_mem_cons.mp hnonempty
    rcases h with ⟨hnil, -⟩ | ⟨-, next, more, htake, rfl, h⟩
    · exact absurd hnil hne
    · exact List.Forall₂.cons (hscan value list next htake) (ih hrest h)

theorem startsAt_cons [LinearOrder α] {anchor start : α}
    (hlater : ∀ other ∈ anchors, anchor < other) (hsafe : ¬search.Faults anchor rest)
    (hnot : ¬search.Passes anchor rest) :
    search.StartsAt (anchor :: anchors) rest start ↔ search.StartsAt anchors rest start := by
  constructor
  · rintro ⟨hmem, hpasses, hfirst, hall⟩
    have hmem' : start ∈ anchors := by
      rcases List.mem_cons.mp hmem with rfl | hmem
      · exact absurd hpasses hnot
      · exact hmem
    exact ⟨hmem', hpasses, fun other hother ↦ hfirst other (List.mem_cons_of_mem _ hother),
      fun other hother ↦ hall other (List.mem_cons_of_mem _ hother)⟩
  · rintro ⟨hmem, hpasses, hfirst, hall⟩
    exact ⟨List.mem_cons_of_mem _ hmem, hpasses,
      List.forall_mem_cons.mpr ⟨fun _ ↦ hnot, hfirst⟩, List.forall_mem_cons.mpr ⟨fun _ ↦ hsafe, hall⟩⟩

end Search

/-- The scan of a list, with a flag for failure and the value that was taken, and the last test. -/
structure Program (ε α : Type) where
  scan : α → List α → Except ε (Bool × Option α)
  fine : List α → Except ε Bool

namespace Program

variable (program : Program ε α)

/-- The loop over the further lists; the values are written into cells. -/
def fillCells : ℕ → α → List α → List (List α) → Except ε (Bool × List α)
  | _, _, cells, [] => .ok (false, cells)
  | index, value, cells, list :: rest => do
    let scanned ← program.scan value list
    if scanned.1 then .ok (true, cells)
    else
      match scanned.2 with
      | some next => fillCells (index + 1) next (cells.set index next) rest
      | none => fillCells (index + 1) value cells rest

/-- The loop over the values of the first list. -/
def tryAnchors (zero : α) (rest : List (List α)) : List α → List α → Except ε α
  | [], _ => .ok zero
  | anchor :: anchors, cells => do
    let matched ← program.fillCells 1 anchor (cells.set 0 anchor) rest
    if matched.1 then tryAnchors zero rest anchors matched.2
    else do
      if ← program.fine (matched.2.take (rest.length + 1)) then .ok anchor
      else tryAnchors zero rest anchors matched.2

end Program

/-- The result of a scan is the one of the search; a value that is taken is a good one again. -/
def Scan.Agrees (good : α → Prop) : Scan α → Except ε (Bool × Option α) → Prop
  | .fault, run => ∃ fault, run = .error fault
  | .giveUp, run => run = .ok (true, none)
  | .take next, run => good next ∧ run = .ok (false, some next)

/-- On these lists the program scans like the search, as long as the values are good ones. -/
structure ScansAs (program : Program ε α) (search : Search α) (good : α → Prop) (lists : List (List α)) :
    Prop where
  blank : good search.blank
  empty : ∀ value, program.scan value [] = .ok (false, none)
  scan : ∀ list ∈ lists, list ≠ [] → ∀ value, good value →
    (search.scan value list).Agrees good (program.scan value list)

/-- The last test as well is the one of the search. -/
structure Realizes (program : Program ε α) (search : Search α) (good : α → Prop) (lists : List (List α)) :
    Prop extends ScansAs program search good lists where
  fault : ∀ values, (∀ value ∈ values, good value) → values.length = lists.length + 1 →
    search.FineFault values → ∃ fault, program.fine values = .error fault
  fine : ∀ values, (∀ value ∈ values, good value) → values.length = lists.length + 1 →
    ¬search.FineFault values → ∃ passed, program.fine values = .ok passed ∧ (passed = true ↔ search.Fine values)

variable {program : Program ε α} {search : Search α} {good : α → Prop}

theorem ScansAs.tail {list : List α} {rest : List (List α)} (h : ScansAs program search good (list :: rest)) :
    ScansAs program search good rest where
  blank := h.blank
  empty := h.empty
  scan other hmem := h.scan other (List.mem_cons_of_mem _ hmem)

theorem ScansAs.good_of_takenFrom {lists : List (List α)} (h : ScansAs program search good lists) {value : α}
    (hvalue : good value) {taken : List α} (htaken : search.TakenFrom value lists taken) :
    ∀ other ∈ taken, good other := by
  induction lists generalizing value taken with
  | nil =>
    intro other hmem
    rw [htaken] at hmem
    cases hmem
  | cons list rest ih =>
    rcases htaken with ⟨-, more, rfl, htaken⟩ | ⟨hlist, next, more, hscan, rfl, htaken⟩
    · exact List.forall_mem_cons.mpr ⟨h.blank, ih h.tail hvalue htaken⟩
    · have hagrees := h.scan list List.mem_cons_self hlist value hvalue
      rw [hscan] at hagrees
      exact List.forall_mem_cons.mpr ⟨hagrees.1, ih h.tail hagrees.1 htaken⟩

/-- The cells of the empty lists are blank. -/
def Blank (blank : α) : List (List α) → List α → Prop
  | [], _ => True
  | _ :: _, [] => False
  | list :: rest, cell :: cells => (list = [] → cell = blank) ∧ Blank blank rest cells

theorem blank_replicate (blank : α) (lists : List (List α)) {size : ℕ} (h : lists.length ≤ size) :
    Blank blank lists (List.replicate size blank) := by
  induction lists generalizing size with
  | nil => exact trivial
  | cons list rest ih =>
    obtain ⟨size, rfl⟩ : ∃ before, size = before + 1 := ⟨size - 1, by rw [List.length_cons] at h; omega⟩
    exact ⟨fun _ ↦ rfl, ih (Nat.le_of_succ_le_succ h)⟩

theorem Search.TakenFrom.blank {value : α} {rest : List (List α)} {taken : List α}
    (h : search.TakenFrom value rest taken) (more : List α) : Blank search.blank rest (taken ++ more) := by
  induction rest generalizing value taken with
  | nil => exact trivial
  | cons list rest ih =>
    rcases h with ⟨-, values, rfl, h⟩ | ⟨hlist, next, values, -, rfl, h⟩
    · exact ⟨fun _ ↦ rfl, ih h⟩
    · exact ⟨fun hnil ↦ absurd hnil hlist, ih h⟩

/-- How the loop over the lists ends: it faults, takes values and writes them into the cells, or gives up. -/
def Outcome (search : Search α) (value : α) (lists : List (List α)) (front cells : List α)
    (run : Except ε (Bool × List α)) : Prop :=
  (search.ScanFaults value lists ∧ ∃ fault, run = .error fault) ∨
  (¬search.ScanFaults value lists ∧ ∃ taken, search.TakenFrom value lists taken ∧
    run = .ok (false, front ++ taken ++ cells.drop lists.length)) ∨
  (¬search.ScanFaults value lists ∧ (∀ taken, ¬search.TakenFrom value lists taken) ∧
    ∃ cells', Blank search.blank lists cells' ∧ run = .ok (true, front ++ cells'))

theorem Outcome.cons {value next filled cell : α} {list front cells : List α} {rest : List (List α)}
    {run : Except ε (Bool × List α)} (h : Outcome search next rest (front ++ [filled]) cells run)
    (hfaults : search.ScanFaults value (list :: rest) ↔ search.ScanFaults next rest)
    (htaken : ∀ taken, search.TakenFrom value (list :: rest) taken ↔
      ∃ more, taken = filled :: more ∧ search.TakenFrom next rest more)
    (hfilled : list = [] → filled = search.blank) :
    Outcome search value (list :: rest) front (cell :: cells) run := by
  rw [Outcome, hfaults]
  rcases h with ⟨hfault, hrun⟩ | ⟨hsafe, more, hmore, hrun⟩ | ⟨hsafe, hnone, cells', hblank, hrun⟩
  · exact Or.inl ⟨hfault, hrun⟩
  · refine Or.inr (Or.inl ⟨hsafe, filled :: more, (htaken _).mpr ⟨more, rfl, hmore⟩, ?_⟩)
    rw [hrun, List.append_assoc front, List.singleton_append]
    rfl
  · refine Or.inr (Or.inr ⟨hsafe, ?_, filled :: cells', ⟨hfilled, hblank⟩, ?_⟩)
    · intro taken htaken'
      obtain ⟨more, -, hmore⟩ := (htaken taken).mp htaken'
      exact hnone more hmore
    · rw [hrun, List.append_assoc, List.singleton_append]

theorem fillCells_outcome {lists : List (List α)} (h : ScansAs program search good lists) {value : α}
    (hvalue : good value) (front : List α) {cells : List α} (hblank : Blank search.blank lists cells) :
    Outcome search value lists front cells (program.fillCells front.length value (front ++ cells) lists) := by
  induction lists generalizing value front cells with
  | nil =>
    refine Or.inr (Or.inl ⟨id, [], rfl, ?_⟩)
    rw [List.append_nil]
    rfl
  | cons list rest ih =>
    obtain ⟨cell, cells, rfl⟩ : ∃ cell more, cells = cell :: more := by
      cases cells with
      | nil => exact absurd hblank id
      | cons cell more => exact ⟨cell, more, rfl⟩
    have hlength (filled : α) : (front ++ [filled]).length = front.length + 1 := by simp
    have hset (filled : α) : (front ++ cell :: cells).set front.length filled = front ++ [filled] ++ cells := by
      simp
    by_cases hnil : list = []
    · -- an empty list leaves everything as it is
      subst hnil
      have hcell := hblank.1 rfl
      have happend : front ++ cell :: cells = front ++ [cell] ++ cells := by simp
      have hnext := ih h.tail hvalue (front ++ [cell]) hblank.2
      rw [hlength, ← happend] at hnext
      have hrun : program.fillCells front.length value (front ++ cell :: cells) ([] :: rest) =
          program.fillCells (front.length + 1) value (front ++ cell :: cells) rest := by
        rw [Program.fillCells, h.empty]
        rfl
      rw [hrun]
      refine hnext.cons Search.scanFaults_nil_cons (fun taken ↦ ?_) fun _ ↦ hcell
      rw [hcell]
      exact Search.takenFrom_nil_cons
    have hagrees := h.scan list List.mem_cons_self hnil value hvalue
    cases hscan : search.scan value list with
    | fault =>
      rw [hscan] at hagrees
      obtain ⟨fault, hrun⟩ := hagrees
      refine Or.inl ⟨Or.inr ⟨hnil, Or.inl hscan⟩, fault, ?_⟩
      rw [Program.fillCells, hrun]
      rfl
    | giveUp =>
      rw [hscan] at hagrees
      refine Or.inr (Or.inr ⟨?_, fun taken ↦ Search.not_takenFrom hnil ?_, cell :: cells, hblank, ?_⟩)
      · rintro (⟨hempty, -⟩ | ⟨-, hfault | ⟨next, hnext, -⟩⟩)
        · exact hnil hempty
        · rw [hscan] at hfault
          cases hfault
        · rw [hscan] at hnext
          cases hnext
      · intro next hnext
        rw [hscan] at hnext
        cases hnext
      · rw [Program.fillCells, hagrees]
        rfl
    | take next =>
      rw [hscan] at hagrees
      have hnext := ih h.tail hagrees.1 (front ++ [next]) hblank.2
      rw [hlength, ← hset] at hnext
      have hrun : program.fillCells front.length value (front ++ cell :: cells) (list :: rest) =
          program.fillCells (front.length + 1) next ((front ++ cell :: cells).set front.length next) rest := by
        rw [Program.fillCells, hagrees.2]
        rfl
      rw [hrun]
      exact hnext.cons (Search.scanFaults_cons hnil hscan)
        (fun taken ↦ Search.takenFrom_cons hnil hscan) fun hempty ↦ absurd hempty hnil

theorem tryAnchors_eq_ok [LinearOrder α] {rest : List (List α)}
    (h : Realizes program search good rest) (zero : α) (hincreasing : anchors.Pairwise (· < ·))
    (hgood : ∀ anchor ∈ anchors, good anchor) {cell : α} {cells : List α}
    (hblank : Blank search.blank rest cells) (result : α) :
    program.tryAnchors zero rest anchors (cell :: cells) = .ok result ↔
      search.StartsAt anchors rest result ∨ result = zero ∧ search.NeverStarts anchors rest := by
  induction anchors generalizing cell cells with
  | nil =>
    constructor
    · intro hrun
      exact Or.inr ⟨(Except.ok.inj hrun).symm, by simp [Search.NeverStarts]⟩
    · rintro (hstart | ⟨rfl, -⟩)
      · cases hstart.mem
      · rfl
  | cons anchor anchors ih =>
    obtain ⟨hanchor, hgood⟩ := List.forall_mem_cons.mp hgood
    obtain ⟨hlater, hincreasing⟩ := List.pairwise_cons.mp hincreasing
    have hset : (cell :: cells).set 0 anchor = [anchor] ++ cells := rfl
    have houtcome := fillCells_outcome h.toScansAs hanchor [anchor] hblank
    rw [List.length_singleton, ← hset] at houtcome
    have hnext (hsafe : ¬search.Faults anchor rest) (hnot : ¬search.Passes anchor rest)
        {cell : α} {cells : List α} (hblank : Blank search.blank rest cells) :
        program.tryAnchors zero rest anchors (cell :: cells) = .ok result ↔
          search.StartsAt (anchor :: anchors) rest result ∨
            result = zero ∧ search.NeverStarts (anchor :: anchors) rest := by
      have hnever : search.NeverStarts (anchor :: anchors) rest ↔ search.NeverStarts anchors rest := by
        rw [Search.NeverStarts, List.forall_mem_cons]
        exact and_iff_right ⟨hsafe, hnot⟩
      rw [ih hincreasing hgood hblank, Search.startsAt_cons hlater hsafe hnot, hnever]
    have hfaults (hfault : search.Faults anchor rest) :
        ¬(search.StartsAt (anchor :: anchors) rest result ∨
          result = zero ∧ search.NeverStarts (anchor :: anchors) rest) := by
      rintro (hstart | ⟨-, hnever⟩)
      · have hle : anchor ≤ result := by
          rcases List.mem_cons.mp hstart.mem with rfl | hmem
          · exact le_rfl
          · exact (hlater result hmem).le
        exact hstart.safe anchor List.mem_cons_self hle hfault
      · exact (hnever anchor List.mem_cons_self).1 hfault
    rw [Program.tryAnchors]
    rcases houtcome with ⟨hfault, fault, hrun⟩ | ⟨hsafe, taken, htaken, hrun⟩ | ⟨hsafe, hnone, cells', hblank', hrun⟩
    · rw [hrun]
      exact iff_of_false (fun hok ↦ by cases hok) (hfaults (Or.inl hfault))
    · have hall : ∀ value ∈ anchor :: taken, good value :=
        List.forall_mem_cons.mpr ⟨hanchor, h.good_of_takenFrom hanchor htaken⟩
      have hcount : (anchor :: taken).length = rest.length + 1 := by
        rw [List.length_cons, htaken.length_eq]
      have hfront : ([anchor] ++ taken ++ cells.drop rest.length).take (rest.length + 1) = anchor :: taken := by
        rw [← hcount]
        exact List.take_left
      have hstep : (program.fillCells 1 anchor ((cell :: cells).set 0 anchor) rest >>= fun matched ↦
          if matched.1 then program.tryAnchors zero rest anchors matched.2
          else program.fine (matched.2.take (rest.length + 1)) >>= fun passed ↦
            if passed then .ok anchor else program.tryAnchors zero rest anchors matched.2) =
          program.fine (anchor :: taken) >>= fun passed ↦
            if passed then .ok anchor
            else program.tryAnchors zero rest anchors (anchor :: (taken ++ cells.drop rest.length)) := by
        rw [hrun, ← hfront]
        rfl
      refine (Eq.congr_left hstep).trans ?_
      by_cases hfault : search.FineFault (anchor :: taken)
      · obtain ⟨fault, hfine⟩ := h.fault _ hall hcount hfault
        rw [hfine]
        exact iff_of_false (fun hok ↦ by cases hok) (hfaults (Or.inr ⟨taken, htaken, hfault⟩))
      have hsafe' : ¬search.Faults anchor rest := by
        rintro (hscan | ⟨taken', htaken', hfine⟩)
        · exact hsafe hscan
        · exact hfault (htaken.unique htaken' ▸ hfine)
      obtain ⟨passed, hfine, hpassed⟩ := h.fine _ hall hcount hfault
      rw [hfine]
      cases passed with
      | true =>
        have hstart : search.StartsAt (anchor :: anchors) rest anchor := by
          refine ⟨List.mem_cons_self, ⟨taken, htaken, hpassed.mp rfl⟩, ?_, ?_⟩
          · exact List.forall_mem_cons.mpr ⟨fun hlt ↦ absurd hlt (lt_irrefl anchor),
              fun other hmem hlt ↦ absurd hlt (hlater other hmem).asymm⟩
          · exact List.forall_mem_cons.mpr ⟨fun _ ↦ hsafe',
              fun other hmem hle ↦ absurd hle (not_le.mpr (hlater other hmem))⟩
        constructor
        · intro hok
          rw [← Except.ok.inj hok]
          exact Or.inl hstart
        · rintro (hother | ⟨-, hnever⟩)
          · rcases List.mem_cons.mp hother.mem with rfl | hmem
            · rfl
            · exact absurd hstart.passes (hother.first anchor List.mem_cons_self (hlater result hmem))
          · exact absurd hstart.passes (hnever anchor List.mem_cons_self).2
      | false =>
        refine hnext hsafe' ?_ (htaken.blank _)
        rintro ⟨taken', htaken', hfine'⟩
        exact Bool.false_ne_true (hpassed.mpr (htaken.unique htaken' ▸ hfine'))
    · rw [hrun]
      refine hnext ?_ (fun hpasses ↦ hnone hpasses.choose hpasses.choose_spec.1) hblank'
      rintro (hscan | ⟨taken', htaken', -⟩)
      · exact hsafe hscan
      · exact hnone taken' htaken'

/-- The start says whether something wanted is there: if it is, there is a start other than zero; if not,
there is none. -/
def Search.Answers [LT α] [LE α] (search : Search α) (zero : α) (anchors : List α) (rest : List (List α))
    (wanted : Prop) : Prop :=
  (wanted → ∃ anchor, anchor ≠ zero ∧ search.StartsAt anchors rest anchor) ∧
    (¬wanted → search.StartsAt anchors rest zero ∨ search.NeverStarts anchors rest)

theorem Search.answers_iff [LT α] [LE α] {search : Search α} {zero : α} {rest : List (List α)}
    {run : Except ε α}
    (hrun : ∀ result, run = .ok result ↔
      search.StartsAt anchors rest result ∨ result = zero ∧ search.NeverStarts anchors rest)
    (wanted : Prop) :
    (∃ result, run = .ok result ∧ (result ≠ zero ↔ wanted)) ↔ search.Answers zero anchors rest wanted := by
  rw [Answers]
  by_cases hwanted : wanted
  · constructor
    · rintro ⟨result, hresult, hiff⟩
      have hne := hiff.mpr hwanted
      refine ⟨fun _ ↦ ⟨result, hne, ?_⟩, fun hnot ↦ absurd hwanted hnot⟩
      exact ((hrun result).mp hresult).resolve_right fun hzero ↦ hne hzero.1
    · intro h
      obtain ⟨anchor, hne, hstart⟩ := h.1 hwanted
      exact ⟨anchor, (hrun anchor).mpr (Or.inl hstart), iff_of_true hne hwanted⟩
  · constructor
    · rintro ⟨result, hresult, hiff⟩
      have hzero : result = zero := not_not.mp fun hne ↦ hwanted (hiff.mp hne)
      subst hzero
      exact ⟨fun h ↦ absurd h hwanted, fun _ ↦ ((hrun result).mp hresult).imp_right And.right⟩
    · intro h
      refine ⟨zero, (hrun zero).mpr ((h.2 hwanted).imp_right fun hnever ↦ ⟨rfl, hnever⟩), ?_⟩
      exact iff_of_false (fun hne ↦ hne rfl) hwanted

end Cheshire.Lib.FirstFit
