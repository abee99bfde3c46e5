import Cheshire.Search.ProximityClusters

/-!
# Testing the positions of a phrase

`se_prox_phrase` looks for positions of the words of a phrase that follow each other in a record.  A scan
takes the next position of each word within the length of the whole phrase; only when there is one for each
word it tests the gaps between them.
-/

namespace Cheshire.Search

open Lib.FirstFit

/-- A word of a phrase: `proxtermidlist` and `proxtermlength` -/
structure PhraseWord where
  termid : ℤ
  termlength : ℤ
deriving DecidableEq, Repr

/-- `proxtermidlist[j] == proxtermidlist[j-1]`, where `j` is a place among the positions; nothing is stored
behind the words of the phrase. -/
def sameWordAt (words : List PhraseWord) : ℕ → Exec Bool
  | 0 => .error .outOfBounds
  | j + 1 =>
    match words[j + 1]?, words[j]? with
    | some word, some previous => .ok (word.termid = previous.termid)
    | _, _ => .error .uninitialized

/-- `for (j = 0; j < listsize[list]; j++)` -/
def scanPhrase (words : List PhraseWord) (phraseProxLength minpos : ℤ) :
    ℕ → Bool → List ℤ → Exec (Bool × Option ℤ)
  | _, fail, [] => .ok (fail, none)
  | j, _, position :: positions =>
    if position < minpos then scanPhrase words phraseProxLength minpos (j + 1) true positions
    else do
      let reach ← checkInt (minpos + phraseProxLength)
      if position > reach then .ok (true, none)
      else if position = minpos then do
        -- a doubled word
        if ← sameWordAt words j then scanPhrase words phraseProxLength minpos (j + 1) true positions
        else .ok (false, some position)
      else .ok (false, some position)

/-- The fine test: `((matchpos[j]-matchpos[j-1]) - proxtermlength[j-1]) < 4` for all neighbours -/
def finePhrase : List PhraseWord → List ℤ → Exec Bool
  | word :: words, previous :: position :: matchpos => do
    let distance ← checkInt (position - previous)
    let gap ← checkInt (distance - word.termlength)
    let rest ← finePhrase words (position :: matchpos)
    .ok (gap < 4 && rest)
  | _, _ => .ok true

/-- The loops over the lists of the words and over the positions of the first one. -/
def phraseProgram (words : List PhraseWord) (phraseProxLength : ℤ) : Program Fault ℤ where
  scan minpos positions := scanPhrase words phraseProxLength minpos 0 false positions
  fine := finePhrase words

/-- The lists of the words in a record; a word that is not there has no positions. -/
def phraseLists (dbprox : ProxDb) (words : List PhraseWord) (recordNum : ℤ) : List (List ℤ) :=
  words.map fun word ↦ (dbprox word.termid recordNum).getD []

/-- `se_prox_phrase`: the start position of the match -/
def seProxPhrase (dbprox : Option ProxDb) (words : List PhraseWord) (recordNum phraseProxLength : ℤ) :
    Exec ℤ :=
  match dbprox with
  | none => .ok 0
  | some dbprox =>
    match phraseLists dbprox words recordNum with
    | [] => .ok 0
    | anchors :: rest =>
      (phraseProgram words phraseProxLength).tryAnchors 0 rest anchors (List.replicate (words.length + 1) 0)

/-- Each position is after the one before, and what is left between them behind the word is small. -/
def FollowEach : List PhraseWord → List ℤ → Prop
  | word :: words, previous :: position :: positions =>
    previous < position ∧ position - previous - word.termlength < 4 ∧ FollowEach words (position :: positions)
  | _, _ => True

/-- The words stand in the record one after another. -/
def HasPhrase (words : List PhraseWord) (lists : List (List ℤ)) : Prop :=
  ∃ chosen, List.Forall₂ (fun positions position ↦ position ∈ positions) lists chosen ∧ FollowEach words chosen

/-- An `int` -/
def FitsInt (value : ℤ) : Prop := -(2 ^ 31) ≤ value ∧ value ≤ 2 ^ 31 - 1

instance decidableFitsInt (value : ℤ) : Decidable (FitsInt value) := inferInstanceAs (Decidable (_ ∧ _))

/-- All gaps between the positions that were taken are small. -/
def SmallGaps : List PhraseWord → List ℤ → Prop
  | word :: words, previous :: position :: positions =>
    position - previous - word.termlength < 4 ∧ SmallGaps words (position :: positions)
  | _, _ => True

/-- A gap is no `int`. -/
def GapOverflows : List PhraseWord → List ℤ → Prop
  | word :: words, previous :: position :: positions =>
    ¬FitsInt (position - previous - word.termlength) ∨ GapOverflows words (position :: positions)
  | _, _ => False

/-- The scan of a list ends at the first position from `minpos` on that is no further away than the length
of the phrase. -/
def scanWord (words : List PhraseWord) (phraseProxLength minpos : ℤ) (positions : List ℤ) : Scan ℤ :=
  if (∃ position ∈ positions, minpos ≤ position) ∧ ¬FitsInt (minpos + phraseProxLength) then .fault
  else
    scanAt (sameWordAt words) minpos (firstStop
      (fun position ↦ decide (minpos ≤ position ∧ position ≤ minpos + phraseProxLength)) (sameWordAt words)
      minpos 0 positions)

/-- The gaps behind the words have to be small; an empty list counts as the position 0. -/
def phraseSearch (words : List PhraseWord) (phraseProxLength : ℤ) : Search ℤ where
  scan := scanWord words phraseProxLength
  blank := 0
  Fine := SmallGaps words
  FineFault := GapOverflows words

theorem checkInt_eq (value : ℤ) : checkInt value = if FitsInt value then .ok value else .error .signedOverflow := rfl

variable {positions : List ℤ}

variable (words : List PhraseWord)

theorem scanPhrase_eq (phraseProxLength minpos : ℤ) (hincreasing : positions.Pairwise (· < ·))
    (j : ℕ) (fail : Bool) (hfail : positions = [] → fail = true) :
    scanPhrase words phraseProxLength minpos j fail positions =
      if (∃ position ∈ positions, minpos ≤ position) ∧ ¬FitsInt (minpos + phraseProxLength) then
        .error .signedOverflow
      else
        scanResult (sameWordAt words) minpos (firstStop
          (fun position ↦ decide (minpos ≤ position ∧ position ≤ minpos + phraseProxLength))
          (sameWordAt words) minpos j positions) := by
  induction positions generalizing j fail with
  | nil =>
    rw [hfail rfl, if_neg (by simp)]
    rfl
  | cons position positions ih =>
    obtain ⟨hlater, hincreasing⟩ := List.pairwise_cons.mp hincreasing
    have ih := ih hincreasing (j + 1) true fun _ ↦ rfl
    rw [scanPhrase]
    by_cases hless : position < minpos
    · -- before `minpos`
      have hexists : (∃ other ∈ position :: positions, minpos ≤ other) ↔
          ∃ other ∈ positions, minpos ≤ other := by
        simp [not_le.mpr hless]
      have hfar : decide (minpos ≤ position ∧ position ≤ minpos + phraseProxLength) = false :=
        decide_eq_false fun h ↦ absurd h.1 (not_le.mpr hless)
      rw [if_pos hless, ih, firstStop_cons_far hfar]
      simp only [hexists]
    · have hle := not_lt.mp hless
      have hexists : ∃ other ∈ position :: positions, minpos ≤ other := ⟨position, List.mem_cons_self, hle⟩
      rw [if_neg hless, checkInt_eq]
      by_cases hint : FitsInt (minpos + phraseProxLength)
      · have hsafe (others : List ℤ) :
            ¬((∃ other ∈ others, minpos ≤ other) ∧ ¬FitsInt (minpos + phraseProxLength)) := fun h ↦ h.2 hint
        rw [if_pos hint, if_neg (hsafe _)]
        change (if position > minpos + phraseProxLength then _ else _) = _
        by_cases hfar : position > minpos + phraseProxLength
        · have hnone : ∀ other ∈ position :: positions,
              decide (minpos ≤ other ∧ other ≤ minpos + phraseProxLength) = false := by
            intro other hmem
            have hother : position ≤ other := by
              rcases List.mem_cons.mp hmem with rfl | hmem
              · exact le_rfl
              · exact (hlater other hmem).le
            exact decide_eq_false fun h ↦ absurd (hother.trans h.2) (not_le.mpr hfar)
          rw [if_pos hfar, firstStop_eq_none hnone]
          rfl
        · have hnear : decide (minpos ≤ position ∧ position ≤ minpos + phraseProxLength) = true :=
            decide_eq_true ⟨hle, not_lt.mp hfar⟩
          rw [if_neg hfar]
          by_cases hsame : position = minpos
          · -- a position that both lists have
            subst hsame
            rw [if_neg (hsafe positions)] at ih
            rw [if_pos rfl]
            exact scanResult_same hnear ih
          · rw [if_neg hsame, firstStop_cons_near hnear hsame, scanResult, if_neg hsame]
      · have hfault : (∃ other ∈ position :: positions, minpos ≤ other) ∧ ¬FitsInt (minpos + phraseProxLength) :=
          ⟨hexists, hint⟩
        rw [if_neg hint, if_pos hfault]
        rfl

theorem mem_of_scanWord (phraseProxLength minpos : ℤ) (positions : List ℤ) (position : ℤ)
    (h : scanWord words phraseProxLength minpos positions = .take position) :
    position ∈ positions ∧ minpos ≤ position := by
  rw [scanWord] at h
  split_ifs at h
  obtain ⟨place, hstop⟩ := eq_of_scanAt h
  obtain ⟨hmem, hnear⟩ := of_firstStop hstop
  exact ⟨hmem, (of_decide_eq_true hnear).1⟩

theorem scanWord_agrees (phraseProxLength minpos : ℤ) (hlist : PositionList positions)
    (hnonempty : positions ≠ []) :
    (scanWord words phraseProxLength minpos positions).Agrees IsPosition
      (scanPhrase words phraseProxLength minpos 0 false positions) := by
  rw [scanPhrase_eq words phraseProxLength minpos hlist.increasing 0 false
    fun hnil ↦ absurd hnil hnonempty, scanWord]
  split_ifs
  · exact ⟨.signedOverflow, rfl⟩
  · exact scanAt_agrees fun position place hstop ↦ hlist.bounds position (of_firstStop hstop).1

theorem fitsInt_gap {previous position : ℤ} (hprevious : IsPosition previous) (hposition : IsPosition position) :
    FitsInt (position - previous) := by
  rw [IsPosition, INT_MAX] at hprevious hposition
  exact ⟨by omega, by omega⟩

theorem finePhrase_spec (hbounds : ∀ position ∈ positions, IsPosition position) :
    (GapOverflows words positions → ∃ fault, finePhrase words positions = .error fault) ∧
      (¬GapOverflows words positions →
        ∃ passed, finePhrase words positions = .ok passed ∧ (passed = true ↔ SmallGaps words positions)) := by
  induction words generalizing positions with
  | nil => exact ⟨fun h ↦ absurd h id, fun _ ↦ ⟨true, rfl, iff_of_true rfl trivial⟩⟩
  | cons word words ih =>
    cases positions with
    | nil => exact ⟨fun h ↦ absurd h id, fun _ ↦ ⟨true, rfl, iff_of_true rfl trivial⟩⟩
    | cons previous positions =>
      cases positions with
      | nil => exact ⟨fun h ↦ absurd h id, fun _ ↦ ⟨true, rfl, iff_of_true rfl trivial⟩⟩
      | cons position matchpos =>
        obtain ⟨hprevious, hpositions⟩ := List.forall_mem_cons.mp hbounds
        have hposition := hpositions position List.mem_cons_self
        obtain ⟨hfault, hrun⟩ := ih hpositions
        rw [finePhrase, checkInt_eq, if_pos (fitsInt_gap hprevious hposition)]
        change (_ → ∃ fault, (checkInt (position - previous - word.termlength) >>= _) = _) ∧
          (_ → ∃ passed, (checkInt (position - previous - word.termlength) >>= _) = _ ∧ _)
        rw [checkInt_eq]
        by_cases hgap : FitsInt (position - previous - word.termlength)
        · rw [if_pos hgap]
          constructor
          · rintro (hno | hlater)
            · exact absurd hgap hno
            · obtain ⟨fault, hrun⟩ := hfault hlater
              exact ⟨fault, by rw [hrun]; rfl⟩
          · intro hsafe
            obtain ⟨passed, hpassed, hiff⟩ := hrun fun hlater ↦ hsafe (Or.inr hlater)
            refine ⟨decide (position - previous - word.termlength < 4) && passed, ?_, ?_⟩
            · rw [hpassed]
              rfl
            · rw [Bool.and_eq_true, decide_eq_true_iff, hiff]
              rfl
        · rw [if_neg hgap]
          exact ⟨fun _ ↦ ⟨.signedOverflow, rfl⟩, fun hsafe ↦ absurd (Or.inl hgap) hsafe⟩

theorem realizes_phrase (phraseProxLength : ℤ) {lists : List (List ℤ)}
    (hlists : ∀ positions ∈ lists, PositionList positions) :
    Realizes (phraseProgram words phraseProxLength) (phraseSearch words phraseProxLength) IsPosition lists where
  blank := isPosition_zero
  empty _ := rfl
  scan positions hmem hnonempty minpos _ :=
    scanWord_agrees words phraseProxLength minpos (hlists positions hmem) hnonempty
  fault _ hbounds _ hfault := (finePhrase_spec words hbounds).1 hfault
  fine _ hbounds _ hsafe := (finePhrase_spec words hbounds).2 hsafe

variable {rest : List (List ℤ)}

theorem seProxPhrase_eq_ok (dbprox : ProxDb) (words : List PhraseWord)
    (recordNum phraseProxLength : ℤ) {anchors : List ℤ}
    (hphrase : phraseLists dbprox words recordNum = anchors :: rest)
    (hlists : ∀ positions ∈ phraseLists dbprox words recordNum, PositionList positions)
    (result : ℤ) : seProxPhrase (some dbprox) words recordNum phraseProxLength = .ok result ↔
      (phraseSearch words phraseProxLength).StartsAt anchors rest result ∨
        result = 0 ∧ (phraseSearch words phraseProxLength).NeverStarts anchors rest := by
  rw [hphrase, List.forall_mem_cons] at hlists
  have hlength : rest.length ≤ words.length := by
    have hcount := congrArg List.length hphrase
    rw [phraseLists, List.length_map, List.length_cons] at hcount
    omega
  rw [seProxPhrase, hphrase]
  exact tryAnchors_eq_ok (realizes_phrase words phraseProxLength hlists.2) 0 hlists.1.increasing
    hlists.1.bounds (blank_replicate 0 rest hlength) result

theorem followEach_of_isChain (hincreasing : positions.IsChain (· < ·))
    (hgaps : SmallGaps words positions) : FollowEach words positions := by
  induction words generalizing positions with
  | nil => trivial
  | cons word words ih =>
    cases positions with
    | nil => trivial
    | cons previous positions =>
      cases positions with
      | nil => trivial
      | cons position positions =>
        obtain ⟨hless, hincreasing⟩ := List.isChain_cons_cons.mp hincreasing
        exact ⟨hless, hgaps.1, ih hincreasing hgaps.2⟩

theorem isChain_of_takenFrom {words : List PhraseWord} {phraseProxLength minpos : ℤ} {list : List ℤ}
    (hminpos : minpos ∈ list) (hnonempty : ∀ positions ∈ rest, positions ≠ [])
    (hdisjoint : (list :: rest).IsChain List.Disjoint) {taken : List ℤ}
    (h : (phraseSearch words phraseProxLength).TakenFrom minpos rest taken) :
    (minpos :: taken).IsChain (· < ·) := by
  induction rest generalizing minpos list taken with
  | nil =>
    rw [h]
    exact List.isChain_singleton minpos
  | cons positions rest ih =>
    obtain ⟨hapart, hdisjoint⟩ := List.isChain_cons_cons.mp hdisjoint
    obtain ⟨hne, hnonempty⟩ := List.forall_mem_cons.mp hnonempty
    rcases h with ⟨hnil, -⟩ | ⟨-, next, more, hscan, rfl, hmore⟩
    · exact absurd hnil hne
    · obtain ⟨hnext, hle⟩ := mem_of_scanWord words phraseProxLength minpos positions next hscan
      have hdiffer : minpos ≠ next := fun heq ↦ hapart hminpos (heq ▸ hnext)
      exact List.isChain_cons_cons.mpr ⟨lt_of_le_of_ne hle hdiffer, ih hnext hnonempty hdisjoint hmore⟩

theorem hasPhrase_of_passes {words : List PhraseWord} {phraseProxLength anchor : ℤ}
    {anchors : List ℤ} (h : (phraseSearch words phraseProxLength).Passes anchor rest)
    (hanchor : anchor ∈ anchors) (hnonempty : ∀ positions ∈ rest, positions ≠ [])
    (hdisjoint : (anchors :: rest).IsChain List.Disjoint) : HasPhrase words (anchors :: rest) := by
  obtain ⟨taken, htaken, hgaps⟩ := h
  have hchosen := htaken.forall₂ (fun minpos positions position hscan ↦
    (mem_of_scanWord words phraseProxLength minpos positions position hscan).1) hnonempty
  exact ⟨anchor :: taken, List.Forall₂.cons hanchor hchosen,
    followEach_of_isChain words (isChain_of_takenFrom hanchor hnonempty hdisjoint htaken) hgaps⟩

/-- The answer is right: if the words stand one after another, the nearest next positions from some position
of the first word on have small gaps, and the first such position is not 0; if not, nothing is misread, and
lists of which one is empty, or two neighbouring ones have a position in common, have no start except 0. -/
def FindsPhrase (words : List PhraseWord) (phraseProxLength : ℤ) : List (List ℤ) → Prop
  | [] => False
  | anchors :: rest =>
    (HasPhrase words (anchors :: rest) →
      ∃ anchor, anchor ≠ 0 ∧ (phraseSearch words phraseProxLength).StartsAt anchors rest anchor) ∧
    (¬HasPhrase words (anchors :: rest) →
      ([] ∉ anchors :: rest ∧ (anchors :: rest).IsChain List.Disjoint ∧
          ∀ anchor ∈ anchors, ¬(phraseSearch words phraseProxLength).Faults anchor rest) ∨
        (([] ∈ anchors :: rest ∨ ¬(anchors :: rest).IsChain List.Disjoint) ∧
          ((phraseSearch words phraseProxLength).StartsAt anchors rest 0 ∨
            (phraseSearch words phraseProxLength).NeverStarts anchors rest)))

theorem findsPhrase_cons (phraseProxLength : ℤ) (anchors : List ℤ) (rest : List (List ℤ)) :
    FindsPhrase words phraseProxLength (anchors :: rest) ↔
      (phraseSearch words phraseProxLength).Answers 0 anchors rest (HasPhrase words (anchors :: rest)) := by
  rw [FindsPhrase, Search.Answers]
  refine and_congr_right fun _ ↦ forall_congr' fun hnone ↦ ?_
  by_cases hlists : [] ∉ anchors :: rest ∧ (anchors :: rest).IsChain List.Disjoint
  · -- nothing is found that is no phrase
    have hnonempty : ∀ positions ∈ rest, positions ≠ [] := fun positions hmem heq ↦
      hlists.1 (List.mem_cons_of_mem _ (heq ▸ hmem))
    have hnot {anchor : ℤ} (hmem : anchor ∈ anchors) :
        ¬(phraseSearch words phraseProxLength).Passes anchor rest :=
      fun h ↦ hnone (hasPhrase_of_passes h hmem hnonempty hlists.2)
    constructor
    · rintro (⟨-, -, hsafe⟩ | ⟨hother, -⟩)
      · exact Or.inr fun anchor hmem ↦ ⟨hsafe anchor hmem, hnot hmem⟩
      · rcases hother with hnil | hshared
        · exact absurd hnil hlists.1
        · exact absurd hlists.2 hshared
    · rintro (hstart | hnever)
      · exact absurd hstart.passes (hnot hstart.mem)
      · exact Or.inl ⟨hlists.1, hlists.2, fun anchor hmem ↦ (hnever anchor hmem).1⟩
  · have hother : [] ∈ anchors :: rest ∨ ¬(anchors :: rest).IsChain List.Disjoint := by
      rwa [not_and_or, not_not] at hlists
    constructor
    · rintro (⟨hnil, hdisjoint, -⟩ | ⟨-, h⟩)
      · exact absurd ⟨hnil, hdisjoint⟩ hlists
      · exact h
    · exact fun h ↦ Or.inr ⟨hother, h⟩

/-- `se_prox_phrase` says whether the words stand one after another exactly under this condition. -/
theorem phraseMatch_iff (dbprox : ProxDb) (words : List PhraseWord) (recordNum phraseProxLength : ℤ)
    (hlists : ∀ positions ∈ phraseLists dbprox words recordNum, PositionList positions) :
    (∃ result, seProxPhrase (some dbprox) words recordNum phraseProxLength = .ok result ∧
        (result ≠ 0 ↔ HasPhrase words (phraseLists dbprox words recordNum))) ↔
      FindsPhrase words phraseProxLength (phraseLists dbprox words recordNum) := by
  cases hphrase : phraseLists dbprox words recordNum with
  | nil =>
    have hempty : HasPhrase words [] := by
      refine ⟨[], List.Forall₂.nil, ?_⟩
      cases words <;> trivial
    refine iff_of_false ?_ id
    rintro ⟨result, hresult, hiff⟩
    rw [seProxPhrase, hphrase] at hresult
    exact hiff.mpr hempty (Except.ok.inj hresult).symm
  | cons anchors rest =>
    rw [findsPhrase_cons]
    exact Search.answers_iff
      (seProxPhrase_eq_ok dbprox words recordNum phraseProxLength hphrase hlists) _

/-- The record `and B b - c`, in which the second word stands twice -/
def repeatedWord : ProxDb := fun word _ ↦
  if word = 1 then some [1] else if word = 2 then some [5, 7] else some [11]

def threeWords : List PhraseWord := [⟨1, 3⟩, ⟨2, 1⟩, ⟨3, 1⟩]

theorem positionList_repeatedWord :
    ∀ positions ∈ phraseLists repeatedWord threeWords 1, PositionList positions := by
  have hlists : phraseLists repeatedWord threeWords 1 = [[1], [5, 7], [11]] := rfl
  rw [hlists]
  simp only [List.mem_cons, List.not_mem_nil, or_false, forall_eq_or_imp, forall_eq]
  exact ⟨⟨by decide, by decide⟩, ⟨by decide, by decide⟩, ⟨by decide, by decide⟩⟩

theorem phraseMatch_repeatedWord_iff :
    (∃ result, seProxPhrase (some repeatedWord) threeWords 1 8 = .ok result ∧
        (result ≠ 0 ↔ HasPhrase threeWords (phraseLists repeatedWord threeWords 1))) ↔
      FindsPhrase threeWords 8 (phraseLists repeatedWord threeWords 1) :=
  phraseMatch_iff repeatedWord threeWords 1 8 positionList_repeatedWord

/-- The first occurrence of the second word hides that the phrase is there. -/
theorem phrase_missed :
    seProxPhrase (some repeatedWord) threeWords 1 8 = .ok 0 ∧
      HasPhrase threeWords (phraseLists repeatedWord threeWords 1) ∧
      ¬∃ result, seProxPhrase (some repeatedWord) threeWords 1 8 = .ok result ∧
        (result ≠ 0 ↔ HasPhrase threeWords (phraseLists repeatedWord threeWords 1)) := by
  have hnone : seProxPhrase (some repeatedWord) threeWords 1 8 = .ok 0 := by decide +kernel
  have hphrase : HasPhrase threeWords (phraseLists repeatedWord threeWords 1) := by
    refine ⟨[1, 7, 11], ?_, by decide, by decide, by decide, by decide, trivial⟩
    exact List.Forall₂.cons (by decide) (List.Forall₂.cons (by decide)
      (List.Forall₂.cons (by decide) List.Forall₂.nil))
  refine ⟨hnone, hphrase, ?_⟩
  rintro ⟨result, hresult, hiff⟩
  rw [hnone] at hresult
  exact hiff.mpr hphrase (Except.ok.inj hresult).symm

end Cheshire.Search
