import Cheshire.Search.ProximityChains
import Cheshire.Search.PositionScan
import Cheshire.Lib.Clusters

/-!
# Clusters of positions

Terms stand near each other in any order when one position of each term can be chosen such that these form
a cluster.  `se_prox_unordered` takes, from each position of the first listed term on, the first near
position of each further term, so its answer depends on the order in which the terms are listed.
-/

namespace Cheshire.Search

open Lib.Clusters Lib.FirstFit

/-- One position of each list can be chosen such that the positions form a cluster. -/
def HasCluster (proxLength : ℤ) (lists : List (List ℤ)) : Prop :=
  ∃ chosen, List.Forall₂ (fun positions position ↦ position ∈ positions) lists chosen ∧
    Cluster proxLength chosen

theorem HasCluster.perm {proxLength : ℤ} {lists lists' : List (List ℤ)} (h : HasCluster proxLength lists)
    (hperm : lists.Perm lists') : HasCluster proxLength lists' := by
  obtain ⟨chosen, hchosen, hcluster⟩ := h
  obtain ⟨chosen', hchosen', hperm'⟩ := List.perm_comp_forall₂ hperm.symm hchosen
  exact ⟨chosen', hchosen', hcluster.perm hperm'.symm⟩

/-- The scan of a list ends at the first position no further away than the proximity length. -/
def scanUnordered (terms : List ℤ) (proxLength minpos : ℤ) (positions : List ℤ) : Scan ℤ :=
  scanAt (sameTermAt terms) minpos
    (firstStop (fun position ↦ decide (|position - minpos| ≤ proxLength)) (sameTermAt terms) minpos 0 positions)

/-- Different positions near each other. -/
def Neighbours (proxLength previous position : ℤ) : Prop :=
  previous ≠ position ∧ |position - previous| ≤ proxLength

instance decidableNeighbours (proxLength previous position : ℤ) :
    Decidable (Neighbours proxLength previous position) :=
  inferInstanceAs (Decidable (_ ∧ _))

/-- The positions that are taken have to be neighbours; an empty list counts as the position 0. -/
def unorderedSearch (terms : List ℤ) (proxLength : ℤ) : Search ℤ where
  scan := scanUnordered terms proxLength
  blank := 0
  Fine positions := positions.IsChain (Neighbours proxLength)
  FineFault _ := False

variable {positions : List ℤ}

variable (terms : List ℤ)

theorem scanPositions_unordered (proxLength : ℤ) {minpos : ℤ} (hminpos : IsPosition minpos)
    (hlist : PositionList positions) (j : ℕ) (fail : Bool) (hfail : positions = [] → fail = true) :
    scanPositions false terms proxLength minpos j fail positions =
      scanResult (sameTermAt terms) minpos
        (firstStop (fun position ↦ decide (|position - minpos| ≤ proxLength)) (sameTermAt terms) minpos j
          positions) := by
  induction positions generalizing j fail with
  | nil =>
    rw [hfail rfl]
    rfl
  | cons position positions ih =>
    have hbounds := hlist.bounds position List.mem_cons_self
    have hincreasing := List.pairwise_cons.mp hlist.increasing
    have hrest : PositionList positions :=
      ⟨hincreasing.2, fun other hmem ↦ hlist.bounds other (List.mem_cons_of_mem _ hmem)⟩
    have ih := ih hrest (j + 1) true fun _ ↦ rfl
    rw [scanPositions, passesOver]
    by_cases hless : position < minpos
    · -- before `minpos`
      have habs : |position - minpos| = minpos - position := by
        rw [abs_sub_comm, abs_of_pos (by omega)]
      rw [if_pos hless, if_neg Bool.false_ne_true]
      simp only [bind, Except.bind, checkInt_gap hbounds hminpos, checkInt_gap hminpos hbounds]
      by_cases hfar : minpos - position > proxLength
      · rw [decide_eq_true hfar, firstStop_cons_far (decide_eq_false (habs ▸ not_le.mpr hfar))]
        exact ih
      · rw [decide_eq_false hfar, firstStop_cons_near (decide_eq_true (habs ▸ not_lt.mp hfar)) hless.ne,
          scanResult, if_neg hless.ne]
        simp only [Bool.false_eq_true, if_false, if_neg hless.ne]
        rw [if_neg (by omega)]
    · have habs : |position - minpos| = position - minpos := abs_of_nonneg (by omega)
      rw [if_neg hless]
      simp only [bind, Except.bind, Bool.false_eq_true, if_false, checkInt_gap hminpos hbounds]
      by_cases hgap : position - minpos > proxLength
      · have hfar : ∀ other ∈ position :: positions, decide (|other - minpos| ≤ proxLength) = false := by
          intro other hmem
          have hle : position ≤ other := by
            rcases List.mem_cons.mp hmem with rfl | hmem
            · exact le_rfl
            · exact (hincreasing.1 other hmem).le
          have hnear := le_abs_self (other - minpos)
          exact decide_eq_false (by omega)
        rw [if_pos hgap, firstStop_eq_none hfar]
        rfl
      · have hnear : decide (|position - minpos| ≤ proxLength) = true :=
          decide_eq_true (habs.trans_le (not_lt.mp hgap))
        rw [if_neg hgap]
        by_cases hsame : position = minpos
        · -- a position that both lists have
          subst hsame
          rw [if_pos rfl]
          exact scanResult_same hnear ih
        · rw [if_neg hsame, firstStop_cons_near hnear hsame, scanResult, if_neg hsame]

theorem mem_of_scanUnordered (proxLength minpos : ℤ) (positions : List ℤ) (position : ℤ)
    (h : scanUnordered terms proxLength minpos positions = .take position) :
    position ∈ positions := by
  obtain ⟨place, hstop⟩ := eq_of_scanAt h
  exact (of_firstStop hstop).1

theorem nearEnough_unordered (proxLength : ℤ) {previous position : ℤ}
    (hprevious : IsPosition previous) (hposition : IsPosition position) :
    nearEnough false proxLength previous position =
      .ok (decide (Neighbours proxLength previous position)) := by
  rw [nearEnough, if_neg Bool.false_ne_true, checkInt_gap hprevious hposition,
    checkInt_gap hposition hprevious]
  rcases lt_trichotomy previous position with hlt | rfl | hgt
  · have hiff : Neighbours proxLength previous position ↔ position - previous ≤ proxLength := by
      rw [Neighbours, abs_of_pos (sub_pos.mpr hlt)]
      exact and_iff_right hlt.ne
    rw [if_pos hlt, decide_eq_decide.mpr hiff]
    rfl
  · rw [if_neg (lt_irrefl _), if_neg (lt_irrefl _), decide_eq_false fun h ↦ h.1 rfl]
  · have hiff : Neighbours proxLength previous position ↔ previous - position ≤ proxLength := by
      rw [Neighbours, abs_sub_comm, abs_of_pos (sub_pos.mpr hgt)]
      exact and_iff_right hgt.ne'
    rw [if_neg hgt.not_gt, if_pos hgt, decide_eq_decide.mpr hiff]
    rfl

theorem fineTest_unordered (proxLength : ℤ)
    (hbounds : ∀ position ∈ positions, IsPosition position) :
    fineTest false proxLength positions = .ok (decide (positions.IsChain (Neighbours proxLength))) := by
  induction positions with
  | nil =>
    rw [decide_eq_true List.isChain_nil]
    rfl
  | cons previous positions ih =>
    obtain ⟨hprevious, hpositions⟩ := List.forall_mem_cons.mp hbounds
    cases positions with
    | nil =>
      rw [decide_eq_true (List.isChain_singleton previous)]
      rfl
    | cons position positions =>
      have hposition := hpositions position List.mem_cons_self
      rw [fineTest, nearEnough_unordered proxLength hprevious hposition, ih hpositions,
        decide_eq_decide.mpr List.isChain_cons_cons, Bool.decide_and]
      rfl

/-- The loops of `se_prox_ordered` and `se_prox_unordered` -/
def proxProgram (ordered : Bool) (terms : List ℤ) (proxLength : ℤ) : Program Fault ℤ where
  scan minpos positions := scanPositions ordered terms proxLength minpos 0 false positions
  fine := fineTest ordered proxLength

theorem matchLists_eq (ordered : Bool) (terms : List ℤ) (proxLength : ℤ) (list : ℕ) (minpos : ℤ)
    (matchpos : List ℤ) (rest : List (List ℤ)) :
    matchLists ordered terms proxLength list minpos matchpos rest =
      (proxProgram ordered terms proxLength).fillCells list minpos matchpos rest := by
  induction rest generalizing list minpos matchpos with
  | nil => rfl
  | cons positions rest ih =>
    rw [matchLists, Program.fillCells]
    refine congrArg _ (funext fun scanned ↦ ?_)
    cases scanned.2 with
    | none => simp only [ih]
    | some position => simp only [ih]

theorem tryAnchors_eq (ordered : Bool) (terms : List ℤ) (proxLength : ℤ) (rest : List (List ℤ))
    (anchors matchpos : List ℤ) :
    tryAnchors ordered terms proxLength rest anchors matchpos =
      (proxProgram ordered terms proxLength).tryAnchors 0 rest anchors matchpos := by
  induction anchors generalizing matchpos with
  | nil => rfl
  | cons anchor anchors ih =>
    rw [tryAnchors, Program.tryAnchors]
    simp only [matchLists_eq, ih]
    rfl

theorem scanUnordered_agrees (proxLength : ℤ) {minpos : ℤ} (hminpos : IsPosition minpos)
    (hlist : PositionList positions) (hnonempty : positions ≠ []) :
    (scanUnordered terms proxLength minpos positions).Agrees IsPosition
      (scanPositions false terms proxLength minpos 0 false positions) := by
  rw [scanPositions_unordered terms proxLength hminpos hlist 0 false fun hnil ↦ absurd hnil hnonempty]
  exact scanAt_agrees fun position place hstop ↦ hlist.bounds position (of_firstStop hstop).1

theorem realizes_unordered (proxLength : ℤ) {lists : List (List ℤ)}
    (hlists : ∀ positions ∈ lists, PositionList positions) :
    Realizes (proxProgram false terms proxLength) (unorderedSearch terms proxLength) IsPosition lists where
  blank := isPosition_zero
  empty _ := rfl
  scan positions hmem hnonempty _ hminpos :=
    scanUnordered_agrees terms proxLength hminpos (hlists positions hmem) hnonempty
  fault _ _ _ h := absurd h id
  fine _ hbounds _ _ := ⟨_, fineTest_unordered proxLength hbounds, decide_eq_true_iff⟩

theorem hasCluster_of_passes {terms : List ℤ} {proxLength anchor : ℤ} {anchors : List ℤ}
    {rest : List (List ℤ)} (h : (unorderedSearch terms proxLength).Passes anchor rest)
    (hanchor : anchor ∈ anchors) (hnonempty : ∀ positions ∈ rest, positions ≠ []) :
    HasCluster proxLength (anchors :: rest) := by
  obtain ⟨taken, htaken, hchain⟩ := h
  have hchosen := htaken.forall₂ (mem_of_scanUnordered terms proxLength) hnonempty
  exact ⟨anchor :: taken, List.Forall₂.cons hanchor hchosen,
    cluster_of_isChain (List.IsChain.imp (fun _ _ h ↦ h.2) hchain)⟩

/-- In this order of the lists the answer is right: if there is a cluster, the first start is not 0; else
nothing is misread, and lists of which one is empty have no start except 0. -/
def FindsCluster (terms : List ℤ) (proxLength : ℤ) : List (List ℤ) → Prop
  | [] => False
  | anchors :: rest =>
    (HasCluster proxLength (anchors :: rest) →
      ∃ anchor, anchor ≠ 0 ∧ (unorderedSearch terms proxLength).StartsAt anchors rest anchor) ∧
    (¬HasCluster proxLength (anchors :: rest) →
      if [] ∈ anchors :: rest then
        (unorderedSearch terms proxLength).StartsAt anchors rest 0 ∨
          (unorderedSearch terms proxLength).NeverStarts anchors rest
      else ∀ anchor ∈ anchors, ¬(unorderedSearch terms proxLength).Faults anchor rest)

theorem findsCluster_cons (proxLength : ℤ) (anchors : List ℤ) (rest : List (List ℤ)) :
    FindsCluster terms proxLength (anchors :: rest) ↔
      (unorderedSearch terms proxLength).Answers 0 anchors rest (HasCluster proxLength (anchors :: rest)) := by
  rw [FindsCluster, Search.Answers]
  refine and_congr_right fun _ ↦ forall_congr' fun hnone ↦ ?_
  split_ifs with hnil
  · rfl
  · -- nothing is found that is no cluster
    have hnonempty : ∀ positions ∈ rest, positions ≠ [] := fun positions hmem heq ↦
      hnil (List.mem_cons_of_mem _ (heq ▸ hmem))
    have hnot {anchor : ℤ} (hmem : anchor ∈ anchors) :
        ¬(unorderedSearch terms proxLength).Passes anchor rest :=
      fun h ↦ hnone (hasCluster_of_passes h hmem hnonempty)
    constructor
    · exact fun h ↦ Or.inr fun anchor hmem ↦ ⟨h anchor hmem, hnot hmem⟩
    · rintro (h | h) anchor hmem
      · exact absurd h.passes (hnot h.mem)
      · exact (h anchor hmem).1

theorem seProxUnordered_eq_ok (terms : List (ℤ × ProxDb)) (recordNum proxLength : ℤ) {anchors : List ℤ}
    {rest : List (List ℤ)} (hprox : proxLists terms recordNum = anchors :: rest)
    (hlists : ∀ positions ∈ proxLists terms recordNum, PositionList positions) (result : ℤ) :
    seProxUnordered terms recordNum proxLength = .ok result ↔
      (unorderedSearch (terms.map Prod.fst) proxLength).StartsAt anchors rest result ∨
        result = 0 ∧ (unorderedSearch (terms.map Prod.fst) proxLength).NeverStarts anchors rest := by
  rw [hprox, List.forall_mem_cons] at hlists
  have hlength : rest.length ≤ terms.length := by
    have hcount := congrArg List.length hprox
    rw [proxLists, List.length_map, List.length_cons] at hcount
    omega
  rw [seProxUnordered, seProx, hprox]
  simp only [tryAnchors_eq]
  exact tryAnchors_eq_ok (realizes_unordered _ proxLength hlists.2) 0 hlists.1.increasing hlists.1.bounds
    (blank_replicate 0 rest hlength) result

theorem finds_iff (terms : List (ℤ × ProxDb)) (recordNum proxLength : ℤ)
    (hlists : ∀ positions ∈ proxLists terms recordNum, PositionList positions) :
    (∃ result, seProxUnordered terms recordNum proxLength = .ok result ∧
        (result ≠ 0 ↔ HasCluster proxLength (proxLists terms recordNum))) ↔
      FindsCluster (terms.map Prod.fst) proxLength (proxLists terms recordNum) := by
  cases hprox : proxLists terms recordNum with
  | nil =>
    have hcluster : HasCluster proxLength [] :=
      ⟨[], List.Forall₂.nil, [], List.Perm.refl [], List.Pairwise.nil, List.isChain_nil⟩
    refine iff_of_false ?_ id
    rintro ⟨result, hresult, hiff⟩
    rw [seProxUnordered, seProx, hprox] at hresult
    exact hiff.mpr hcluster (Except.ok.inj hresult).symm
  | cons anchors rest =>
    rw [findsCluster_cons]
    exact Search.answers_iff (seProxUnordered_eq_ok terms recordNum proxLength hprox hlists) _

/-- Every order of the terms gives the right answer. -/
def OrderFree (terms : List (ℤ × ProxDb)) (recordNum proxLength : ℤ) : Prop :=
  ∀ order : List (ℤ × ProxDb), order.Perm terms →
    ∃ result, seProxUnordered order recordNum proxLength = .ok result ∧
      (result ≠ 0 ↔ HasCluster proxLength (proxLists terms recordNum))

/-- The answer does not depend on the order exactly if it is right in every order. -/
theorem orderFree_iff (terms : List (ℤ × ProxDb)) (recordNum proxLength : ℤ)
    (hlists : ∀ positions ∈ proxLists terms recordNum, PositionList positions) :
    OrderFree terms recordNum proxLength ↔
      ∀ order : List (ℤ × ProxDb), order.Perm terms →
        FindsCluster (order.map Prod.fst) proxLength (proxLists order recordNum) := by
  refine forall₂_congr fun order hperm ↦ ?_
  have hlistsPerm : (proxLists order recordNum).Perm (proxLists terms recordNum) := hperm.map _
  have hsame : HasCluster proxLength (proxLists terms recordNum) ↔
      HasCluster proxLength (proxLists order recordNum) :=
    ⟨fun h ↦ h.perm hlistsPerm.symm, fun h ↦ h.perm hlistsPerm⟩
  rw [hsame]
  exact finds_iff order recordNum proxLength fun positions hmem ↦
    hlists positions (hlistsPerm.subset hmem)

/-- Every term stands once, four characters behind the one before. -/
def everyFourth : ProxDb := fun term _ ↦ some [4 * term - 3]

def threeFourths : List (ℤ × ProxDb) := [(1, everyFourth), (2, everyFourth), (3, everyFourth)]

theorem positionList_threeFourths : ∀ positions ∈ proxLists threeFourths 1, PositionList positions := by
  have hlists : proxLists threeFourths 1 = [[1], [5], [9]] := rfl
  rw [hlists]
  simp only [List.mem_cons, List.not_mem_nil, or_false, forall_eq_or_imp, forall_eq]
  exact ⟨⟨by decide, by decide⟩, ⟨by decide, by decide⟩, ⟨by decide, by decide⟩⟩

theorem orderFree_threeFourths_iff : OrderFree threeFourths 1 4 ↔
    ∀ order : List (ℤ × ProxDb), order.Perm threeFourths →
      FindsCluster (order.map Prod.fst) 4 (proxLists order 1) :=
  orderFree_iff threeFourths 1 4 positionList_threeFourths

/-- The positions 1, 5 and 9 are found when the terms are listed as they stand, and are not when the last
one comes second. -/
theorem not_orderFree :
    seProxUnordered threeFourths 1 4 = .ok 1 ∧
      seProxUnordered [(1, everyFourth), (3, everyFourth), (2, everyFourth)] 1 4 = .ok 0 ∧
      ¬OrderFree threeFourths 1 4 := by
  have hnone : seProxUnordered [(1, everyFourth), (3, everyFourth), (2, everyFourth)] 1 4 = .ok 0 := by
    decide +kernel
  refine ⟨by decide +kernel, hnone, fun hfree ↦ ?_⟩
  have hcluster : HasCluster 4 (proxLists threeFourths 1) := by
    refine ⟨[1, 5, 9], ?_, [1, 5, 9], List.Perm.refl _, by decide, by decide⟩
    exact List.Forall₂.cons (by decide) (List.Forall₂.cons (by decide)
      (List.Forall₂.cons (by decide) List.Forall₂.nil))
  have hperm : [(1, everyFourth), (3, everyFourth), (2, everyFourth)].Perm threeFourths :=
    List.Perm.cons _ (List.Perm.swap _ _ _)
  obtain ⟨result, hresult, hiff⟩ := hfree _ hperm
  rw [hnone] at hresult
  exact hiff.mpr hcluster (Except.ok.inj hresult).symm

end Cheshire.Search
