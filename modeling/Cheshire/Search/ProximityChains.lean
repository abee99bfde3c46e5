import Cheshire.Search.ProximityOrdered

/-!
# Chains of positions

Terms stand in order near each other when one position of each term can be chosen such that every
position follows the one before, no further away than the proximity length.  `se_prox_ordered` only
tries, from each position of the first term, the nearest following positions.
-/

namespace Cheshire.Search

/-- A position after another one, or at it if the terms differ. -/
def Follows (sameTerm : Bool) (previous position : ℤ) : Prop :=
  previous ≤ position ∧ (sameTerm = true → previous < position)

instance decidableFollows (sameTerm : Bool) (previous position : ℤ) :
    Decidable (Follows sameTerm previous position) :=
  inferInstanceAs (Decidable (_ ∧ _))

/-- The position of a term can be continued through the lists of further terms. -/
def ChainFrom (proxLength : ℤ) : ℤ → ℤ → List (ℤ × List ℤ) → Prop
  | _, _, [] => True
  | term, previous, next :: rest => ∃ position ∈ next.2,
      Follows (next.1 = term) previous position ∧ position - previous ≤ proxLength ∧
        ChainFrom proxLength next.1 position rest

/-- There is one position for each term, each of them near the one before. -/
def HasChain (proxLength : ℤ) : List (ℤ × List ℤ) → Prop
  | [] => False
  | first :: rest => ∃ position ∈ first.2, ChainFrom proxLength first.1 position rest

/-- What the loop reads for "the term is doubled" where a list has the position that was taken before. -/
def readsSame (terms : List ℤ) (minpos : ℤ) (positions : List ℤ) : Exec Bool :=
  if minpos ∈ positions then sameTermAt terms (positions.idxOf minpos) else .ok false

/-- The nearest position that follows as the loop reads the terms, and it is near enough. -/
def Takes (terms : List ℤ) (proxLength minpos : ℤ) (positions : List ℤ) (position : ℤ) : Prop :=
  ∃ same, readsSame terms minpos positions = .ok same ∧ position ∈ positions ∧
    Follows same minpos position ∧
    (∀ other ∈ positions, Follows same minpos other → position ≤ other) ∧
    position - minpos ≤ proxLength

/-- No position that follows as the loop reads the terms is near enough; for a negative length the terms
are not read. -/
def Misses (terms : List ℤ) (proxLength minpos : ℤ) (positions : List ℤ) : Prop :=
  positions ≠ [] ∧ (proxLength < 0 ∨ ∃ same, readsSame terms minpos positions = .ok same ∧
    ∀ position ∈ positions, Follows same minpos position → proxLength < position - minpos)

/-- A nearest position can be taken in each list; one without positions is passed over and its cell
stays 0. -/
inductive Reaches (terms : List ℤ) (proxLength : ℤ) : ℤ → List (List ℤ) → List ℤ → Prop
  | done {minpos : ℤ} : Reaches terms proxLength minpos [] []
  | passed {minpos : ℤ} {rest : List (List ℤ)} {taken : List ℤ}
      (h : Reaches terms proxLength minpos rest taken) :
      Reaches terms proxLength minpos ([] :: rest) (0 :: taken)
  | took {minpos position : ℤ} {positions : List ℤ} {rest : List (List ℤ)} {taken : List ℤ}
      (htakes : Takes terms proxLength minpos positions position)
      (h : Reaches terms proxLength position rest taken) :
      Reaches terms proxLength minpos (positions :: rest) (position :: taken)

/-- Taking the nearest positions ends at a list in which none is near enough. -/
inductive Stops (terms : List ℤ) (proxLength : ℤ) : ℤ → List (List ℤ) → Prop
  | here {minpos : ℤ} {positions : List ℤ} {rest : List (List ℤ)}
      (hmisses : Misses terms proxLength minpos positions) :
      Stops terms proxLength minpos (positions :: rest)
  | passed {minpos : ℤ} {rest : List (List ℤ)} (h : Stops terms proxLength minpos rest) :
      Stops terms proxLength minpos ([] :: rest)
  | took {minpos position : ℤ} {positions : List ℤ} {rest : List (List ℤ)}
      (htakes : Takes terms proxLength minpos positions position)
      (h : Stops terms proxLength position rest) : Stops terms proxLength minpos (positions :: rest)

/-- Neighbours are near each other. -/
def NearNeighbours (proxLength : ℤ) (positions : List ℤ) : Prop :=
  positions.IsChain fun previous position ↦ position - previous ≤ proxLength

/-- The nearest positions from the start on are near each other, with 0 for a list without positions. -/
def Matches (terms : List ℤ) (proxLength : ℤ) (rest : List (List ℤ)) (start : ℤ) : Prop :=
  ∃ taken, Reaches terms proxLength start rest taken ∧ NearNeighbours proxLength (start :: taken)

def Fails (terms : List ℤ) (proxLength : ℤ) (rest : List (List ℤ)) (start : ℤ) : Prop :=
  Stops terms proxLength start rest ∨
    ∃ taken, Reaches terms proxLength start rest taken ∧ ¬NearNeighbours proxLength (start :: taken)

/-- A match starts at the position, and the positions before it fail. -/
def MatchesFirst (terms : List ℤ) (proxLength : ℤ) : List (List ℤ) → ℤ → Prop
  | [], _ => False
  | anchors :: rest, start => start ∈ anchors ∧ Matches terms proxLength rest start ∧
      ∀ other ∈ anchors, other < start → Fails terms proxLength rest other

/-- Every position of the first term fails. -/
def FailsThroughout (terms : List ℤ) (proxLength : ℤ) : List (List ℤ) → Prop
  | [] => True
  | anchors :: rest => ∀ anchor ∈ anchors, Fails terms proxLength rest anchor

/-- The positions of a term: increasing, and values of an `int` that are not negative. -/
structure PositionList (positions : List ℤ) : Prop where
  increasing : positions.Pairwise (· < ·)
  bounds : ∀ position ∈ positions, 0 ≤ position ∧ position ≤ INT_MAX

variable {position : ℤ}

theorem checkInt_gap {previous : ℤ} (hprevious : 0 ≤ previous ∧ previous ≤ INT_MAX)
    (hposition : 0 ≤ position ∧ position ≤ INT_MAX) :
    checkInt (position - previous) = .ok (position - previous) := by
  rw [INT_MAX] at hprevious
  exact checkInt_of_le (by omega) (by omega)

theorem PositionList.tail {positions : List ℤ} (h : PositionList (position :: positions)) :
    PositionList positions :=
  ⟨(List.pairwise_cons.mp h.increasing).2, (List.forall_mem_cons.mp h.bounds).2⟩

theorem scanPositions_spec (terms : List ℤ) (proxLength : ℤ) {minpos : ℤ} {sameTerm : Bool}
    (hminpos : 0 ≤ minpos ∧ minpos ≤ INT_MAX) (positions : List ℤ) (hlist : PositionList positions)
    (j : ℕ) (fail : Bool)
    (hplaces : ∀ place, positions[place]? = some minpos →
      sameTermAt terms (j + place) = .ok sameTerm) :
    scanPositions true terms proxLength minpos j fail positions =
      .ok (match positions.find? fun position ↦ Follows sameTerm minpos position with
        | some position =>
          if position - minpos ≤ proxLength then (false, some position) else (true, none)
        | none => (if positions.isEmpty then fail else true, none)) := by
  induction positions generalizing j fail with
  | nil => rfl
  | cons position positions ih =>
    have hbounds := hlist.bounds position List.mem_cons_self
    have ih (fail : Bool) := ih hlist.tail (j + 1) fail (by
      intro place hplace
      have hlater := hplaces (place + 1) (by simpa using hplace)
      rwa [Nat.add_assoc, Nat.add_comm 1])
    rw [scanPositions, passesOver]
    by_cases hless : position < minpos
    · -- before `minpos`
      have hnot : ¬Follows sameTerm minpos position := fun h ↦ absurd h.1 (not_le.mpr hless)
      rw [if_pos hless, if_pos rfl]
      simp only [bind, Except.bind, if_true]
      rw [ih true, List.find?_cons_of_neg (by simpa using hnot)]
      cases positions.find? fun position ↦ Follows sameTerm minpos position with
      | some other => rfl
      | none => simp
    · rw [if_neg hless]
      simp only [bind, Except.bind, Bool.false_eq_true, if_false, checkInt_gap hminpos hbounds]
      by_cases hsame : position = minpos
      · have hplace := hplaces 0 (by rw [hsame]; rfl)
        rw [Nat.add_zero] at hplace
        rw [hplace]
        cases sameTerm with
        | false =>
          -- the same position of another term
          have hfollows : Follows false minpos position := ⟨hsame.ge, fun h ↦ by cases h⟩
          rw [List.find?_cons_of_pos (by simpa using hfollows)]
          by_cases hgap : position - minpos > proxLength
          · rw [if_pos hgap]
            simp only [if_neg (not_le.mpr hgap)]
          · rw [if_neg hgap, if_pos hsame]
            simp only [Bool.false_eq_true, if_false, if_pos (not_lt.mp hgap)]
        | true =>
          have hnot : ¬Follows true minpos position := fun h ↦ absurd (h.2 rfl) (by omega)
          rw [List.find?_cons_of_neg (by simpa using hnot)]
          by_cases hgap : position - minpos > proxLength
          · -- nothing is near enough for a negative length
            rw [if_pos hgap]
            cases hfind : positions.find? fun position ↦ Follows true minpos position with
            | none => simp
            | some other =>
              have hother : Follows true minpos other := by simpa using List.find?_some hfind
              have hlater := hother.2 rfl
              simp only [if_neg (show ¬other - minpos ≤ proxLength by omega)]
          · rw [if_neg hgap, if_pos hsame]
            simp only [if_true]
            rw [ih true]
            cases positions.find? fun position ↦ Follows true minpos position with
            | some other => rfl
            | none => simp
      · have hfollows : Follows sameTerm minpos position := ⟨by omega, fun _ ↦ by omega⟩
        rw [List.find?_cons_of_pos (by simpa using hfollows)]
        by_cases hgap : position - minpos > proxLength
        · rw [if_pos hgap]
          simp only [if_neg (not_le.mpr hgap)]
        · rw [if_neg hgap, if_neg hsame]
          simp only [if_pos (not_lt.mp hgap)]

theorem find?_follows_eq_some {sameTerm : Bool} {previous : ℤ} {positions : List ℤ}
    (hincreasing : positions.Pairwise (· < ·)) :
    positions.find? (fun position ↦ Follows sameTerm previous position) = some position ↔
      position ∈ positions ∧ Follows sameTerm previous position ∧
        ∀ other ∈ positions, Follows sameTerm previous other → position ≤ other := by
  induction positions with
  | nil => simp
  | cons first positions ih =>
    obtain ⟨hfirst, hrest⟩ := List.pairwise_cons.mp hincreasing
    by_cases hfollows : Follows sameTerm previous first
    · rw [List.find?_cons_of_pos (by simpa using hfollows), Option.some.injEq]
      constructor
      · rintro rfl
        refine ⟨List.mem_cons_self, hfollows, ?_⟩
        intro other hmem _
        rcases List.mem_cons.mp hmem with rfl | hmem
        · exact le_rfl
        · exact (hfirst other hmem).le
      · rintro ⟨hmem, -, hleast⟩
        have hle := hleast first List.mem_cons_self hfollows
        rcases List.mem_cons.mp hmem with heq | hmem
        · exact heq.symm
        · exact absurd hle (not_le.mpr (hfirst position hmem))
    · rw [List.find?_cons_of_neg (by simpa using hfollows), ih hrest]
      constructor
      · rintro ⟨hmem, hposition, hleast⟩
        refine ⟨List.mem_cons_of_mem _ hmem, hposition, ?_⟩
        intro other hother hothers
        rcases List.mem_cons.mp hother with rfl | hother
        · exact absurd hothers hfollows
        · exact hleast other hother hothers
      · rintro ⟨hmem, hposition, hleast⟩
        rcases List.mem_cons.mp hmem with rfl | hmem
        · exact absurd hposition hfollows
        · exact ⟨hmem, hposition, fun other hother ↦ hleast other (List.mem_cons_of_mem _ hother)⟩

theorem PositionList.nodup {positions : List ℤ} (h : PositionList positions) : positions.Nodup :=
  h.increasing.imp fun hlt ↦ hlt.ne

theorem sameTermAt_of_readsSame {terms positions : List ℤ} {minpos : ℤ} {read : Exec Bool}
    (hlist : PositionList positions) (h : readsSame terms minpos positions = read) (place : ℕ)
    (hplace : positions[place]? = some minpos) : sameTermAt terms place = read := by
  obtain ⟨hlt, hget⟩ := List.getElem?_eq_some_iff.mp hplace
  have hindex : positions.idxOf minpos = place := by
    rw [← hget]
    exact hlist.nodup.idxOf_getElem place hlt
  rwa [readsSame, if_pos (List.mem_of_getElem? hplace), hindex] at h

theorem scanPositions_negative (terms : List ℤ) {proxLength : ℤ} (hneg : proxLength < 0) {minpos : ℤ}
    (hminpos : 0 ≤ minpos ∧ minpos ≤ INT_MAX) (positions : List ℤ) (hlist : PositionList positions)
    (j : ℕ) (fail : Bool) (hfail : fail = true ∨ positions ≠ []) :
    scanPositions true terms proxLength minpos j fail positions = .ok (true, none) := by
  induction positions generalizing j fail with
  | nil =>
    rw [hfail.resolve_right fun hne ↦ hne rfl]
    rfl
  | cons position positions ih =>
    rw [scanPositions, passesOver]
    by_cases hless : position < minpos
    · rw [if_pos hless, if_pos rfl]
      simp only [bind, Except.bind, if_true]
      exact ih hlist.tail (j + 1) true (Or.inl rfl)
    · rw [if_neg hless]
      simp only [bind, Except.bind, Bool.false_eq_true, if_false,
        checkInt_gap hminpos (hlist.bounds position List.mem_cons_self)]
      rw [if_pos (by omega)]

theorem scanPositions_faults (terms : List ℤ) {proxLength : ℤ} (hlength : 0 ≤ proxLength) {minpos : ℤ}
    (hminpos : 0 ≤ minpos ∧ minpos ≤ INT_MAX) {fault : Fault} (positions : List ℤ)
    (hlist : PositionList positions) (j place : ℕ) (fail : Bool)
    (hplace : positions[place]? = some minpos) (hread : sameTermAt terms (j + place) = .error fault) :
    scanPositions true terms proxLength minpos j fail positions = .error fault := by
  induction positions generalizing j place fail with
  | nil => simp at hplace
  | cons position positions ih =>
    have hfirst := (List.pairwise_cons.mp hlist.increasing).1
    rw [scanPositions, passesOver]
    cases place with
    | zero =>
      have hsame : position = minpos := by simpa using hplace
      rw [Nat.add_zero] at hread
      rw [if_neg (by omega)]
      simp only [bind, Except.bind, Bool.false_eq_true, if_false,
        checkInt_gap hminpos (hlist.bounds position List.mem_cons_self)]
      rw [if_neg (by omega), if_pos hsame, hread]
    | succ place =>
      have hmem : positions[place]? = some minpos := by simpa using hplace
      rw [if_pos (hfirst minpos (List.mem_of_getElem? hmem)), if_pos rfl]
      simp only [bind, Except.bind, if_true]
      exact ih hlist.tail (j + 1) place true hmem (by rwa [Nat.add_assoc, Nat.add_comm 1])

section Scan

variable {terms : List ℤ} {proxLength minpos : ℤ} {positions : List ℤ}

theorem Takes.scan (h : Takes terms proxLength minpos positions position)
    (hminpos : 0 ≤ minpos ∧ minpos ≤ INT_MAX) (hlist : PositionList positions) :
    scanPositions true terms proxLength minpos 0 false positions = .ok (false, some position) := by
  obtain ⟨same, hread, hmem, hfollows, hleast, hgap⟩ := h
  have hfind := (find?_follows_eq_some hlist.increasing).mpr ⟨hmem, hfollows, hleast⟩
  rw [@scanPositions_spec terms proxLength _ same hminpos _ hlist 0 false
    fun place hplace ↦ by rw [Nat.zero_add, sameTermAt_of_readsSame hlist hread place hplace]]
  simp only [hfind, if_pos hgap]

theorem Misses.scan (h : Misses terms proxLength minpos positions)
    (hminpos : 0 ≤ minpos ∧ minpos ≤ INT_MAX) (hlist : PositionList positions) :
    scanPositions true terms proxLength minpos 0 false positions = .ok (true, none) := by
  obtain ⟨hne, hneg | ⟨same, hread, hfar⟩⟩ := h
  · exact scanPositions_negative terms hneg hminpos positions hlist 0 false (Or.inr hne)
  · rw [@scanPositions_spec terms proxLength _ same hminpos _ hlist 0 false
      fun place hplace ↦ by rw [Nat.zero_add, sameTermAt_of_readsSame hlist hread place hplace]]
    cases hfind : positions.find? fun position ↦ Follows same minpos position with
    | none => simp [hne]
    | some position =>
      obtain ⟨hmem, hfollows, -⟩ := (find?_follows_eq_some hlist.increasing).mp hfind
      simp only [if_neg (not_le.mpr (hfar position hmem hfollows))]

/-- Where a list is scanned to an end, a position is taken or none is near enough. -/
theorem takes_or_misses {scanned : Bool × Option ℤ} (hne : positions ≠ [])
    (hminpos : 0 ≤ minpos ∧ minpos ≤ INT_MAX) (hlist : PositionList positions)
    (hscan : scanPositions true terms proxLength minpos 0 false positions = .ok scanned) :
    (∃ position, Takes terms proxLength minpos positions position) ∨
      Misses terms proxLength minpos positions := by
  rcases hread : readsSame terms minpos positions with fault | same
  · by_cases hneg : proxLength < 0
    · exact Or.inr ⟨hne, Or.inl hneg⟩
    · by_cases hmem : minpos ∈ positions
      · obtain ⟨place, hlt, hget⟩ := List.mem_iff_getElem.mp hmem
        have hplace := List.getElem?_eq_some_iff.mpr ⟨hlt, hget⟩
        have hfault := scanPositions_faults terms (not_lt.mp hneg) hminpos positions hlist 0 place false
          hplace (by rw [Nat.zero_add, sameTermAt_of_readsSame hlist hread place hplace])
        cases hscan.symm.trans hfault
      · rw [readsSame, if_neg hmem] at hread
        cases hread
  · cases hfind : positions.find? fun position ↦ Follows same minpos position with
    | none =>
      refine Or.inr ⟨hne, Or.inr ⟨same, hread, fun position hmem hfollows ↦ ?_⟩⟩
      exact absurd (decide_eq_true hfollows) (List.find?_eq_none.mp hfind position hmem)
    | some position =>
      obtain ⟨hmem, hfollows, hleast⟩ := (find?_follows_eq_some hlist.increasing).mp hfind
      by_cases hgap : position - minpos ≤ proxLength
      · exact Or.inl ⟨position, same, hread, hmem, hfollows, hleast, hgap⟩
      · refine Or.inr ⟨hne, Or.inr ⟨same, hread, fun other hother hothers ↦ ?_⟩⟩
        have hle := hleast other hother hothers
        omega

theorem Takes.bounds (h : Takes terms proxLength minpos positions position)
    (hlist : PositionList positions) : 0 ≤ position ∧ position ≤ INT_MAX := by
  obtain ⟨same, -, hmem, -⟩ := h
  exact hlist.bounds position hmem

theorem Takes.ne_nil (h : Takes terms proxLength minpos positions position) : positions ≠ [] := by
  obtain ⟨same, -, hmem, -⟩ := h
  exact List.ne_nil_of_mem hmem

end Scan

/-- The cells of `matchpos` for lists without positions are those of the allocation. -/
abbrev EmptyCells (lists : List (List ℤ)) (cells : List ℤ) : Prop :=
  List.Forall₂ (fun positions cell ↦ positions = [] → cell = 0) lists cells

variable {cells spare taken : List ℤ} {cell : ℤ}

section Lists

variable {terms : List ℤ} {proxLength minpos : ℤ} {lists : List (List ℤ)}

theorem matchLists_cons {front : List ℤ} {positions : List ℤ}
    (hscan : scanPositions true terms proxLength minpos 0 false positions = .ok (false, some position)) :
    matchLists true terms proxLength front.length minpos (front ++ cell :: cells ++ spare)
        (positions :: lists) =
      matchLists true terms proxLength (front ++ [position]).length position
        (front ++ [position] ++ cells ++ spare) lists := by
  have hset : (front ++ cell :: cells ++ spare).set front.length position =
      front ++ [position] ++ cells ++ spare := by simp
  rw [matchLists, hscan, ← hset, List.length_append, List.length_singleton]
  rfl

theorem matchLists_nil {front : List ℤ} :
    matchLists true terms proxLength front.length minpos (front ++ cell :: cells ++ spare) ([] :: lists) =
      matchLists true terms proxLength (front ++ [cell]).length minpos (front ++ [cell] ++ cells ++ spare)
        lists := by
  rw [matchLists, List.length_append, List.length_singleton, List.append_assoc front [cell]]
  rfl

/-- The loop over the lists writes the nearest positions into `matchpos`. -/
theorem Reaches.run (h : Reaches terms proxLength minpos lists taken)
    (hlists : ∀ positions ∈ lists, PositionList positions) (hminpos : 0 ≤ minpos ∧ minpos ≤ INT_MAX)
    (front spare : List ℤ) (hcells : EmptyCells lists cells) :
    matchLists true terms proxLength front.length minpos (front ++ cells ++ spare) lists =
      .ok (false, front ++ taken ++ spare) := by
  induction h generalizing front cells with
  | done =>
    cases hcells
    rfl
  | passed h ih =>
    rcases hcells with _ | ⟨hcell, hrest⟩
    rw [hcell rfl, matchLists_nil, ih (List.forall_mem_cons.mp hlists).2
      hminpos (front ++ [0]) hrest, List.append_assoc front [0]]
    rfl
  | took htakes h ih =>
    rcases hcells with _ | ⟨-, hrest⟩
    have hlist := hlists _ List.mem_cons_self
    rw [matchLists_cons (htakes.scan hminpos hlist),
      ih (List.forall_mem_cons.mp hlists).2 (htakes.bounds hlist) _ hrest,
      List.append_assoc front]
    rfl

/-- Where none is near enough the loop fails, and the cells for lists without positions stay. -/
theorem Stops.run (h : Stops terms proxLength minpos lists)
    (hlists : ∀ positions ∈ lists, PositionList positions) (hminpos : 0 ≤ minpos ∧ minpos ≤ INT_MAX)
    (front spare : List ℤ) (hcells : EmptyCells lists cells) : ∃ cells', EmptyCells lists cells' ∧
      matchLists true terms proxLength front.length minpos (front ++ cells ++ spare) lists =
        .ok (true, front ++ cells' ++ spare) := by
  induction h generalizing front cells with
  | here hmisses =>
    refine ⟨cells, hcells, ?_⟩
    rw [matchLists, hmisses.scan hminpos (hlists _ List.mem_cons_self)]
    rfl
  | passed h ih =>
    rcases hcells with _ | ⟨hcell, hrest⟩
    rename_i cell cells
    obtain ⟨cells', hcells', hrun⟩ := ih
      (List.forall_mem_cons.mp hlists).2 hminpos (front ++ [cell]) hrest
    refine ⟨cell :: cells', List.Forall₂.cons hcell hcells', ?_⟩
    rw [matchLists_nil, hrun, List.append_assoc front]
    rfl
  | took htakes h ih =>
    rename_i position _ _
    rcases hcells with _ | ⟨-, hrest⟩
    have hlist := hlists _ List.mem_cons_self
    obtain ⟨cells', hcells', hrun⟩ := ih
      (List.forall_mem_cons.mp hlists).2 (htakes.bounds hlist)
      (front ++ [position]) hrest
    refine ⟨position :: cells', List.Forall₂.cons (fun h ↦ absurd h htakes.ne_nil) hcells', ?_⟩
    rw [matchLists_cons (htakes.scan hminpos hlist), hrun, List.append_assoc front]
    rfl

theorem reaches_or_stops (hlists : ∀ positions ∈ lists, PositionList positions)
    (hminpos : 0 ≤ minpos ∧ minpos ≤ INT_MAX) (front spare : List ℤ)
    (hcells : EmptyCells lists cells) {matched : Bool × List ℤ}
    (hrun : matchLists true terms proxLength front.length minpos (front ++ cells ++ spare) lists =
      .ok matched) :
    (∃ taken, Reaches terms proxLength minpos lists taken) ∨ Stops terms proxLength minpos lists := by
  induction lists generalizing minpos front cells with
  | nil => exact Or.inl ⟨[], .done⟩
  | cons positions rest ih =>
    obtain ⟨cell, cells, hcell, hrest, rfl⟩ := List.forall₂_cons_left_iff.mp hcells
    have hlist := hlists positions List.mem_cons_self
    have hlater := (List.forall_mem_cons.mp hlists).2
    by_cases hempty : positions = []
    · subst hempty
      rw [matchLists_nil] at hrun
      rcases ih hlater hminpos (front ++ [cell]) hrest hrun with ⟨taken, hreaches⟩ | hstops
      · exact Or.inl ⟨0 :: taken, hreaches.passed⟩
      · exact Or.inr hstops.passed
    · obtain ⟨scanned, hscan, -⟩ := bind_eq_ok.mp (show (scanPositions true terms proxLength minpos 0
        false positions >>= _) = _ by rwa [matchLists] at hrun)
      rcases takes_or_misses hempty hminpos hlist hscan with ⟨position, htakes⟩ | hmisses
      · rw [matchLists_cons (htakes.scan hminpos hlist)] at hrun
        rcases ih hlater (htakes.bounds hlist) (front ++ [position]) hrest hrun with
          ⟨taken, hreaches⟩ | hstops
        · exact Or.inl ⟨position :: taken, hreaches.took htakes⟩
        · exact Or.inr (hstops.took htakes)
      · exact Or.inr (.here hmisses)

theorem Reaches.bounds (h : Reaches terms proxLength minpos lists taken)
    (hlists : ∀ positions ∈ lists, PositionList positions) :
    taken.length = lists.length ∧ ∀ position ∈ taken, 0 ≤ position ∧ position ≤ INT_MAX := by
  induction h with
  | done => exact ⟨rfl, by simp⟩
  | passed h ih =>
    obtain ⟨hlength, hall⟩ := ih (List.forall_mem_cons.mp hlists).2
    exact ⟨congrArg (· + 1) hlength, List.forall_mem_cons.mpr ⟨by decide, hall⟩⟩
  | took htakes h ih =>
    obtain ⟨hlength, hall⟩ := ih (List.forall_mem_cons.mp hlists).2
    have hposition := htakes.bounds (hlists _ List.mem_cons_self)
    exact ⟨congrArg (· + 1) hlength, List.forall_mem_cons.mpr ⟨hposition, hall⟩⟩

end Lists

instance decidableNearNeighbours (proxLength : ℤ) (positions : List ℤ) :
    Decidable (NearNeighbours proxLength positions) :=
  inferInstanceAs (Decidable (List.IsChain _ _))

theorem fineTest_eq (proxLength : ℤ) (positions : List ℤ)
    (hbounds : ∀ position ∈ positions, 0 ≤ position ∧ position ≤ INT_MAX) :
    fineTest true proxLength positions = .ok (decide (NearNeighbours proxLength positions)) := by
  induction positions with
  | nil => rfl
  | cons previous positions ih =>
    cases positions with
    | nil => simp [fineTest, NearNeighbours]
    | cons position positions =>
      have hrest := ih fun other hmem ↦ hbounds other (List.mem_cons_of_mem _ hmem)
      have hcheck := checkInt_gap (hbounds previous (by simp)) (hbounds position (by simp))
      rw [fineTest, nearEnough, if_pos rfl, hcheck, hrest]
      simp [bind, Except.bind, NearNeighbours]

variable {result : ℤ}

section Anchors

variable {terms : List ℤ} {proxLength : ℤ} {rest : List (List ℤ)}

variable {anchor : ℤ}

theorem tryAnchors_reaches (hlists : ∀ positions ∈ rest, PositionList positions)
    (hanchor : 0 ≤ anchor ∧ anchor ≤ INT_MAX) (hcells : EmptyCells rest cells)
    (spare anchors : List ℤ) (h : Reaches terms proxLength anchor rest taken) :
    tryAnchors true terms proxLength rest (anchor :: anchors) (cell :: cells ++ spare) =
      if NearNeighbours proxLength (anchor :: taken) then .ok anchor
      else tryAnchors true terms proxLength rest anchors (anchor :: taken ++ spare) := by
  obtain ⟨hlength, hall⟩ := h.bounds hlists
  have hrun := h.run hlists hanchor [anchor] spare hcells
  have htake : ([anchor] ++ taken ++ spare).take (rest.length + 1) = anchor :: taken :=
    List.take_left' (by simp [hlength])
  have hfine := fineTest_eq proxLength (anchor :: taken) (List.forall_mem_cons.mpr ⟨hanchor, hall⟩)
  rw [List.length_singleton] at hrun
  rw [tryAnchors, show (cell :: cells ++ spare).set 0 anchor = [anchor] ++ cells ++ spare from rfl, hrun]
  simp only [bind, Except.bind, Bool.false_eq_true, if_false, htake, hfine, decide_eq_true_eq]
  rfl

theorem tryAnchors_stops (hlists : ∀ positions ∈ rest, PositionList positions)
    (hanchor : 0 ≤ anchor ∧ anchor ≤ INT_MAX) (hcells : EmptyCells rest cells)
    (spare anchors : List ℤ) (h : Stops terms proxLength anchor rest) :
    ∃ cells', EmptyCells rest cells' ∧
      tryAnchors true terms proxLength rest (anchor :: anchors) (cell :: cells ++ spare) =
        tryAnchors true terms proxLength rest anchors (anchor :: cells' ++ spare) := by
  obtain ⟨cells', hcells', hrun⟩ := h.run hlists hanchor [anchor] spare hcells
  refine ⟨cells', hcells', ?_⟩
  rw [List.length_singleton] at hrun
  rw [tryAnchors, show (cell :: cells ++ spare).set 0 anchor = [anchor] ++ cells ++ spare from rfl, hrun]
  rfl

theorem Reaches.emptyCells {minpos : ℤ} (h : Reaches terms proxLength minpos rest taken) :
    EmptyCells rest taken := by
  induction h with
  | done => exact .nil
  | passed h ih => exact .cons (fun _ ↦ rfl) ih
  | took htakes h ih => exact .cons (fun hempty ↦ absurd hempty htakes.ne_nil) ih

theorem Fails.run (h : Fails terms proxLength rest anchor)
    (hlists : ∀ positions ∈ rest, PositionList positions) (hanchor : 0 ≤ anchor ∧ anchor ≤ INT_MAX)
    (hcells : EmptyCells rest cells) (spare anchors : List ℤ) : ∃ cells', EmptyCells rest cells' ∧
      tryAnchors true terms proxLength rest (anchor :: anchors) (cell :: cells ++ spare) =
        tryAnchors true terms proxLength rest anchors (anchor :: cells' ++ spare) := by
  rcases h with hstops | ⟨taken, hreaches, hfar⟩
  · exact tryAnchors_stops hlists hanchor hcells spare anchors hstops
  · refine ⟨taken, hreaches.emptyCells, ?_⟩
    rw [tryAnchors_reaches hlists hanchor hcells spare anchors hreaches, if_neg hfar]

theorem Matches.run (h : Matches terms proxLength rest anchor)
    (hlists : ∀ positions ∈ rest, PositionList positions) (hanchor : 0 ≤ anchor ∧ anchor ≤ INT_MAX)
    (hcells : EmptyCells rest cells) (spare anchors : List ℤ) :
    tryAnchors true terms proxLength rest (anchor :: anchors) (cell :: cells ++ spare) = .ok anchor := by
  obtain ⟨taken, hreaches, hnear⟩ := h
  rw [tryAnchors_reaches hlists hanchor hcells spare anchors hreaches, if_pos hnear]

theorem matches_or_fails (hlists : ∀ positions ∈ rest, PositionList positions)
    (hanchor : 0 ≤ anchor ∧ anchor ≤ INT_MAX) (hcells : EmptyCells rest cells) {anchors : List ℤ}
    (hrun : tryAnchors true terms proxLength rest (anchor :: anchors) (cell :: cells ++ spare) =
      .ok result) :
    Matches terms proxLength rest anchor ∨ Fails terms proxLength rest anchor := by
  rw [tryAnchors] at hrun
  obtain ⟨matched, hmatched, -⟩ := bind_eq_ok.mp hrun
  rcases reaches_or_stops hlists hanchor [anchor] spare hcells hmatched with ⟨taken, hreaches⟩ | hstops
  · by_cases hnear : NearNeighbours proxLength (anchor :: taken)
    · exact Or.inl ⟨taken, hreaches, hnear⟩
    · exact Or.inr (Or.inr ⟨taken, hreaches, hnear⟩)
  · exact Or.inr (Or.inl hstops)

/-- The start that is returned is the first one that does not fail, or there is none. -/
theorem tryAnchors_eq_ok_iff (hlists : ∀ positions ∈ rest, PositionList positions)
    {anchors : List ℤ} (hanchors : PositionList anchors) (hcells : EmptyCells rest cells)
    (spare : List ℤ) :
    tryAnchors true terms proxLength rest anchors (cell :: cells ++ spare) = .ok result ↔
      MatchesFirst terms proxLength (anchors :: rest) result ∨
        result = 0 ∧ FailsThroughout terms proxLength (anchors :: rest) := by
  induction anchors generalizing cell cells with
  | nil =>
    simp only [tryAnchors, MatchesFirst, FailsThroughout, List.not_mem_nil, false_and, false_or,
      IsEmpty.forall_iff, implies_true, and_true, Except.ok.injEq, eq_comm]
  | cons anchor anchors ih =>
    have hfirst := (List.pairwise_cons.mp hanchors.increasing).1
    have hanchor := hanchors.bounds anchor List.mem_cons_self
    constructor
    · intro hrun
      rcases matches_or_fails hlists hanchor hcells hrun with hmatches | hfails
      · obtain rfl := Except.ok.inj ((hmatches.run hlists hanchor hcells spare anchors).symm.trans hrun)
        refine Or.inl ⟨List.mem_cons_self, hmatches, fun other hmem hless ↦ ?_⟩
        rcases List.mem_cons.mp hmem with rfl | hmem
        · exact absurd hless (lt_irrefl _)
        · exact absurd hless (hfirst other hmem).asymm
      · obtain ⟨cells', hcells', hstep⟩ := hfails.run hlists hanchor hcells spare anchors
        rw [hstep] at hrun
        rcases (ih hanchors.tail hcells').mp hrun with ⟨hmem, hmatches, hleast⟩ | ⟨hzero, hall⟩
        · refine Or.inl ⟨List.mem_cons_of_mem _ hmem, hmatches, fun other hother hless ↦ ?_⟩
          rcases List.mem_cons.mp hother with rfl | hother
          · exact hfails
          · exact hleast other hother hless
        · exact Or.inr ⟨hzero, List.forall_mem_cons.mpr ⟨hfails, hall⟩⟩
    · rintro (⟨hmem, hmatches, hleast⟩ | ⟨hzero, hall⟩)
      · rcases List.mem_cons.mp hmem with rfl | hmem
        · exact hmatches.run hlists hanchor hcells spare anchors
        · have hfails := hleast anchor List.mem_cons_self (hfirst result hmem)
          obtain ⟨cells', hcells', hstep⟩ := hfails.run hlists hanchor hcells spare anchors
          rw [hstep]
          exact (ih hanchors.tail hcells').mpr (Or.inl ⟨hmem, hmatches,
            fun other hother ↦ hleast other (List.mem_cons_of_mem _ hother)⟩)
      · obtain ⟨hfails, hall⟩ := List.forall_mem_cons.mp hall
        obtain ⟨cells', hcells', hstep⟩ := hfails.run hlists hanchor hcells spare anchors
        rw [hstep]
        exact (ih hanchors.tail hcells').mpr (Or.inr ⟨hzero, hall⟩)

end Anchors

/-- The lists of the terms in a record, each with its term. -/
def termLists (terms : List (ℤ × ProxDb)) (recordNum : ℤ) : List (ℤ × List ℤ) :=
  terms.map fun term ↦ (term.1, (term.2 term.1 recordNum).getD [])

theorem seProxOrdered_eq_ok_iff (terms : List (ℤ × ProxDb)) {recordNum proxLength : ℤ}
    (hlists : ∀ positions ∈ proxLists terms recordNum, PositionList positions) :
    seProxOrdered terms recordNum proxLength = .ok result ↔
      MatchesFirst (terms.map Prod.fst) proxLength (proxLists terms recordNum) result ∨
        result = 0 ∧ FailsThroughout (terms.map Prod.fst) proxLength (proxLists terms recordNum) := by
  have hlength : (proxLists terms recordNum).length = terms.length := List.length_map ..
  rw [seProxOrdered, seProx]
  generalize proxLists terms recordNum = lists at hlists hlength ⊢
  cases lists with
  | nil =>
    simp only [MatchesFirst, FailsThroughout, false_or, and_true, Except.ok.injEq, eq_comm]
  | cons anchors rest =>
    obtain ⟨hanchors, hrest⟩ := List.forall_mem_cons.mp hlists
    have hcells : EmptyCells rest (List.replicate rest.length 0) :=
      List.forall₂_iff_get.mpr ⟨by simp, fun _ _ _ _ ↦ by simp⟩
    have hmatchpos : List.replicate (terms.length + 1) (0 : ℤ) =
        0 :: List.replicate rest.length 0 ++ [0] := by
      rw [← hlength, List.length_cons, List.cons_append, ← List.replicate_succ', ← List.replicate_succ]
    rw [hmatchpos]
    exact tryAnchors_eq_ok_iff hrest hanchors hcells [0]

/-- The length that `ProxTest` hands on to the test of the positions. -/
def ProxTestOperator.proxLength (op : ProxTestOperator) : Option ℤ :=
  match unitLength op.proximityUnitCode.number with
  | some factor => (checkInt (factor * op.distance)).toOption
  | none => if op.proximityUnitCode.number = 7 then some 1000000 else none

theorem proxSwitch_eq (op : ProxTestOperator) (hordered : op.ordered = true) {proxLength : ℤ}
    (hlength : op.proxLength = some proxLength) (terms : List (ℤ × ProxDb)) (recNum : ℤ) :
    proxSwitch op terms recNum = seProxOrdered terms recNum proxLength := by
  rw [ProxTestOperator.proxLength] at hlength
  rw [proxSwitch]
  cases hunit : unitLength op.proximityUnitCode.number with
  | some factor =>
    rw [hunit] at hlength
    simp only at hlength ⊢
    cases hcheck : checkInt (factor * op.distance) with
    | error fault =>
      rw [hcheck] at hlength
      cases hlength
    | ok distance =>
      rw [hcheck] at hlength
      rw [hordered, ← Option.some.inj hlength]
      rfl
  | none =>
    rw [hunit] at hlength
    simp only at hlength ⊢
    split_ifs at hlength with hdocument
    rw [Option.some.injEq] at hlength
    rw [if_pos hdocument, hordered, ← hlength]
    rfl

/-- Four characters at most, in order. -/
def fourCharacters : ProxTestOperator where
  distance := 4
  relationType := 2
  proximityUnitCode := .known 1
  ordered := true
  exclusion := false

/-- The positions of three terms in every record. -/
def termsUpTo (last : ℤ) : ProxDb := fun term _ ↦
  if term = 1 then some [1] else if term = 2 then some [2, 5] else some [last]

def firstTerms (last : ℤ) : SetTerms := ⟨[1, 2, 0], [some (termsUpTo last), some (termsUpTo last)]⟩

def lastTerm (last : ℤ) : SetTerms := ⟨[3, 0], [some (termsUpTo last)]⟩

end Cheshire.Search
