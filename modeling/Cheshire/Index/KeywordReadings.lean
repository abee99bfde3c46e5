import Cheshire.Index.KeywordExtraction

/-!
# Tokens and readings

A word with hyphens is read whole, and at each hyphen with the part before it and with all that is behind
it; its tokens are the whole and the parts.  So the loop reads every token, and beside them the rests that
have a hyphen themselves; it leaves out the expansions of all but the last parts.  Both sides are in the
order of their places, and the hash table is right when what is read too much and what is left out agree.
-/

namespace Cheshire.Index

open Lib

/-- The words in the order of their places. -/
def InOrder (words : List TextWord) : Prop :=
  words.Pairwise fun first second ↦ first.offset ≤ second.offset

theorem InOrder.flatMap {runs : List TextWord} {f : TextWord → List TextWord}
    (hruns : runs.Pairwise fun first second ↦ first.stop < second.offset)
    (hf : ∀ run, InOrder (f run) ∧ ∀ word ∈ f run, run.offset ≤ word.offset ∧ word.offset ≤ run.stop) :
    InOrder (runs.flatMap f) := by
  refine List.pairwise_flatMap.mpr ⟨fun run _ ↦ (hf run).1, ?_⟩
  refine hruns.imp fun hlt first hfirst second hsecond ↦ ?_
  exact ((hf _).2 first hfirst).2.trans (hlt.le.trans ((hf _).2 second hsecond).1)

theorem brokenUp_inOrder (run : TextWord) : InOrder (brokenUp run) ∧
    ∀ word ∈ brokenUp run, run.offset ≤ word.offset ∧ word.offset ≤ run.stop := by
  induction run using Piece.cut_induction (· = HYPHEN) with
  | last offset text hall =>
    rw [brokenUp_of_forall hall]
    refine ⟨List.pairwise_singleton _ _, fun word hmem ↦ ?_⟩
    rw [List.mem_singleton.mp hmem]
    exact ⟨le_rfl, Nat.le_add_right _ _⟩
  | cut offset first sep rest hfirst hsep ih =>
    obtain ⟨horder, hbounds⟩ := ih
    have hstop : Piece.stop ⟨offset, first ++ sep :: rest⟩ =
        Piece.stop ⟨offset + first.length + 1, rest⟩ := by
      simp only [Piece.stop, List.length_append, List.length_cons]
      omega
    have hlow : ∀ word ∈ brokenUp ⟨offset + first.length + 1, rest⟩, offset ≤ word.offset := by
      intro word hmem
      have hle : offset + first.length + 1 ≤ word.offset := (hbounds word hmem).1
      omega
    have hpast : offset ≤ Piece.stop ⟨offset + first.length + 1, rest⟩ := by
      simp only [Piece.stop]
      omega
    rw [brokenUp_append_cons hfirst hsep, hstop]
    refine ⟨?_, ?_⟩
    · exact List.pairwise_cons.mpr ⟨List.forall_mem_cons.mpr ⟨le_rfl, hlow⟩,
        List.pairwise_cons.mpr ⟨hlow, horder⟩⟩
    · refine List.forall_mem_cons.mpr ⟨⟨le_rfl, hpast⟩, List.forall_mem_cons.mpr ⟨⟨le_rfl, hpast⟩, ?_⟩⟩
      exact fun word hmem ↦ ⟨hlow word hmem, (hbounds word hmem).2⟩

theorem tokensOf_inOrder (run : TextWord) : InOrder (tokensOf run) ∧
    ∀ word ∈ tokensOf run, run.offset ≤ word.offset ∧ word.offset ≤ run.stop := by
  have hself : run.offset ≤ run.stop := Nat.le_add_right _ _
  rw [tokensOf]
  split_ifs with hmem
  · obtain ⟨hpairwise, hbounds⟩ := run.fields_ordered (· = HYPHEN)
    have hwithin : ∀ word ∈ run.fields (· = HYPHEN),
        run.offset ≤ word.offset ∧ word.offset ≤ run.stop := by
      intro word hword
      exact ⟨(hbounds word hword).1, (Nat.le_add_right _ _).trans (hbounds word hword).2⟩
    refine ⟨List.pairwise_cons.mpr ⟨fun word hword ↦ (hwithin word hword).1, ?_⟩,
      List.forall_mem_cons.mpr ⟨⟨le_rfl, hself⟩, hwithin⟩⟩
    exact hpairwise.imp fun hlt ↦ (Nat.le_add_right _ _).trans hlt.le
  · refine ⟨List.pairwise_singleton _ _, fun word hword ↦ ?_⟩
    rw [List.mem_singleton.mp hword]
    exact ⟨le_rfl, hself⟩

section Order

variable (idx : KeywordIndex) (databuf : Option Term)

theorem textRuns_ordered :
    (idx.textRuns databuf).Pairwise fun first second ↦ first.stop < second.offset := by
  cases databuf with
  | none => exact List.Pairwise.nil
  | some databuf => exact Piece.runs_ordered _ _

theorem readings_inOrder : InOrder ((idx.textRuns databuf).flatMap idx.readings) := by
  refine InOrder.flatMap (textRuns_ordered idx databuf) fun run ↦ ?_
  rw [KeywordIndex.readings]
  split_ifs
  · exact brokenUp_inOrder run
  · refine ⟨List.pairwise_singleton _ _, fun word hmem ↦ ?_⟩
    rw [List.mem_singleton.mp hmem]
    exact ⟨le_rfl, Nat.le_add_right _ _⟩

theorem wordsOf_inOrder : InOrder (idx.wordsOf databuf) := by
  have htokens := InOrder.flatMap (textRuns_ordered idx databuf) tokensOf_inOrder
  have hplace : ∀ token, ∀ word ∈ token :: idx.expansionsOf token, word.offset = token.offset := by
    intro token
    refine List.forall_mem_cons.mpr ⟨rfl, fun word hmem ↦ ?_⟩
    rw [KeywordIndex.expansionsOf] at hmem
    cases hexpansion : idx.expansionHash (token.text.map lowerChar) with
    | none => simp [hexpansion] at hmem
    | some expansion =>
      rw [hexpansion] at hmem
      obtain ⟨text, -, rfl⟩ := List.mem_map.mp hmem
      rfl
  refine List.pairwise_flatMap.mpr ⟨fun token _ ↦ ?_,
    htokens.imp fun hle first hfirst second hsecond ↦ ?_⟩
  · refine List.Pairwise.imp_of_mem (fun hfirst hsecond _ ↦ ?_)
      (List.pairwise_of_forall fun _ _ ↦ trivial)
    rw [hplace token _ hfirst, hplace token _ hsecond]
  · rw [hplace _ first hfirst, hplace _ second hsecond]
    exact hle

theorem positionsOf_pairwise {words : List TextWord} (h : InOrder words) (bufferOffset : ℤ)
    (term : Term) :
    (positionsOf (idx.occurrences bufferOffset words) term).Pairwise (· ≤ ·) := by
  rw [positionsOf, List.pairwise_map]
  refine List.Pairwise.filter _ ?_
  rw [KeywordIndex.occurrences, List.pairwise_filterMap]
  refine h.imp fun hle first hfirst second hsecond ↦ ?_
  have hposition : ∀ {word : TextWord} {occurrence : Term × ℤ},
      occurrence ∈ idx.occurrence bufferOffset word → occurrence.2 = bufferOffset + word.offset := by
    intro word occurrence hmem
    rw [KeywordIndex.occurrence] at hmem
    cases hnormal : idx.normalizeKey word.text with
    | none => simp [hnormal] at hmem
    | some resultWord =>
      simp only [hnormal] at hmem
      split_ifs at hmem
      · cases hmem
      · exact congrArg Prod.snd (Option.mem_some_iff.mp hmem).symm
  rw [hposition hfirst, hposition hsecond]
  omega

end Order

/-- The rests of a run behind a hyphen that have a hyphen themselves. -/
def hyphenatedRests (run : TextWord) : List TextWord :=
  (run.rests (· = HYPHEN)).filter fun rest ↦ HYPHEN ∈ rest.text

/-- The parts of a run that has hyphens. -/
def partsOf (run : TextWord) : List TextWord :=
  if HYPHEN ∈ run.text then run.fields (· = HYPHEN) else []

/-- What the loop reads and is no token. -/
def KeywordIndex.surplus (idx : KeywordIndex) (databuf : Option Term) : List TextWord :=
  if idx.idxType &&& PRIMARYKEY = 0 then (idx.textRuns databuf).flatMap hyphenatedRests else []

/-- The tokens and the words of expansions that the loop does not read. -/
def KeywordIndex.missing (idx : KeywordIndex) (databuf : Option Term) : List TextWord :=
  (if idx.idxType &&& PRIMARYKEY = 0 then [] else (idx.textRuns databuf).flatMap partsOf) ++
    ((idx.textRuns databuf).flatMap tokensOf).flatMap idx.expansionsOf

/-- The same terms with the same frequencies, and the same positions if the index keeps them. -/
def KeywordIndex.Agree (idx : KeywordIndex) (first second : List (Term × ℤ)) : Prop :=
  if idx.idxType &&& PROXIMITY ≠ 0 then first.Perm second
  else (first.map Prod.fst).Perm (second.map Prod.fst)

theorem hyphen_not_mem {text : Term} (h : ∀ c ∈ text, decide (c = HYPHEN) = false) : HYPHEN ∉ text :=
  fun hmem ↦ by simpa using h HYPHEN hmem

theorem tokensOf_perm (run : TextWord) : (tokensOf run).Perm ([run] ++ partsOf run) := by
  rw [tokensOf, partsOf]
  split_ifs
  · exact List.Perm.refl _
  · exact List.Perm.refl _

theorem brokenUp_perm (run : TextWord) : (brokenUp run).Perm (tokensOf run ++ hyphenatedRests run) := by
  induction run using Piece.cut_induction (· = HYPHEN) with
  | last offset text hall =>
    rw [brokenUp_of_forall hall, tokensOf, if_neg (hyphen_not_mem hall), hyphenatedRests,
      Piece.rests_of_forall hall]
    exact List.Perm.refl _
  | cut offset first sep rest hfirst hsep ih =>
    have hmem : HYPHEN ∈ first ++ sep :: rest :=
      List.mem_append_right _ (List.mem_cons.mpr (Or.inl (of_decide_eq_true hsep).symm))
    have hfields : Piece.fields (fun c ↦ decide (c = HYPHEN)) ⟨offset, first ++ sep :: rest⟩ = _ :=
      Piece.fields_append_cons hfirst hsep
    have hrests : Piece.rests (fun c ↦ decide (c = HYPHEN)) ⟨offset, first ++ sep :: rest⟩ = _ :=
      Piece.rests_append_cons hfirst hsep
    have hrest : (tokensOf ⟨offset + first.length + 1, rest⟩ ++
        hyphenatedRests ⟨offset + first.length + 1, rest⟩).Perm
        (Piece.fields (· = HYPHEN) ⟨offset + first.length + 1, rest⟩ ++
          (⟨offset + first.length + 1, rest⟩ ::
            Piece.rests (· = HYPHEN) ⟨offset + first.length + 1, rest⟩).filter
              fun rest ↦ HYPHEN ∈ rest.text) := by
      by_cases hmore : HYPHEN ∈ rest
      · have hkept : (Piece.mk (offset + first.length + 1) rest ::
            Piece.rests (· = HYPHEN) ⟨offset + first.length + 1, rest⟩).filter
              (fun rest ↦ HYPHEN ∈ rest.text) = ⟨offset + first.length + 1, rest⟩ ::
                hyphenatedRests ⟨offset + first.length + 1, rest⟩ :=
          List.filter_cons_of_pos (decide_eq_true hmore)
        rw [tokensOf, if_pos hmore, hkept]
        exact List.perm_middle.symm
      · have hall : ∀ c ∈ rest, decide (c = HYPHEN) = false := fun c hc ↦
          decide_eq_false fun heq ↦ hmore (heq ▸ hc)
        rw [tokensOf, if_neg hmore, Piece.fields_of_forall hall,
          List.filter_cons_of_neg (by simpa using hmore)]
        exact List.Perm.refl _
    rw [brokenUp_append_cons hfirst hsep, tokensOf, if_pos hmem, hfields, hyphenatedRests, hrests]
    exact ((ih.trans hrest).cons _).cons _

section Balance

variable (idx : KeywordIndex) (databuf : Option Term) (bufferOffset : ℤ)

theorem readings_perm : ∃ common, ((idx.textRuns databuf).flatMap idx.readings).Perm
      (common ++ idx.surplus databuf) ∧ (idx.wordsOf databuf).Perm (common ++ idx.missing databuf) := by
  have hself : ∀ words : List TextWord, words.flatMap (fun word ↦ [word]) = words :=
    List.flatMap_singleton'
  have hwords : (idx.wordsOf databuf).Perm ((idx.textRuns databuf).flatMap tokensOf ++
      ((idx.textRuns databuf).flatMap tokensOf).flatMap idx.expansionsOf) := by
    have hsplit := List.flatMap_append_perm ((idx.textRuns databuf).flatMap tokensOf)
      (fun token ↦ [token]) idx.expansionsOf
    rw [hself] at hsplit
    exact hsplit.symm
  by_cases hprimary : idx.idxType &&& PRIMARYKEY = 0
  · refine ⟨(idx.textRuns databuf).flatMap tokensOf, ?_, ?_⟩
    · rw [KeywordIndex.surplus, if_pos hprimary]
      refine List.Perm.trans ?_ (List.flatMap_append_perm _ tokensOf hyphenatedRests).symm
      refine List.Perm.flatMap_left _ fun run _ ↦ ?_
      rw [KeywordIndex.readings, if_pos hprimary]
      exact brokenUp_perm run
    · rwa [KeywordIndex.missing, if_pos hprimary]
  · refine ⟨idx.textRuns databuf, ?_, ?_⟩
    · rw [KeywordIndex.surplus, if_neg hprimary, List.append_nil]
      have hreadings : (idx.textRuns databuf).flatMap idx.readings =
          (idx.textRuns databuf).flatMap fun run ↦ [run] :=
        List.flatMap_congr fun run _ ↦ by rw [KeywordIndex.readings, if_neg hprimary]
      rw [hreadings, hself]
    · rw [KeywordIndex.missing, if_neg hprimary, ← List.append_assoc]
      refine hwords.trans (List.Perm.append_right _ ?_)
      have hparts := List.flatMap_append_perm (idx.textRuns databuf) (fun run ↦ [run]) partsOf
      rw [hself] at hparts
      exact (List.Perm.flatMap_left _ fun run _ ↦ tokensOf_perm run).trans hparts.symm

theorem count_fst (occurrences : List (Term × ℤ)) (term : Term) :
    (occurrences.map Prod.fst).count term = (positionsOf occurrences term).length := by
  rw [positionsOf, List.length_map, ← List.countP_eq_length_filter, List.count, List.countP_map]
  exact List.countP_congr fun occurrence _ ↦ by simp

theorem count_positionsOf (occurrences : List (Term × ℤ)) (term : Term) (position : ℤ) :
    occurrences.count (term, position) = (positionsOf occurrences term).count position := by
  rw [positionsOf, List.count, List.count, List.countP_map, List.countP_filter]
  refine List.countP_congr fun occurrence _ ↦ ?_
  rw [beq_iff_eq, Prod.ext_iff]
  simp [and_comm]

theorem RightTable.iff_agree {idx : KeywordIndex} {first second : List (Term × ℤ)} {hashTab : HashTab}
    (h : RightTable idx first hashTab)
    (hfirst : ∀ term, (positionsOf first term).Pairwise (· ≤ ·))
    (hsecond : ∀ term, (positionsOf second term).Pairwise (· ≤ ·)) :
    RightTable idx second hashTab ↔ idx.Agree first second := by
  constructor
  · intro h'
    have hsame : ∀ term, (positionsOf first term).length = (positionsOf second term).length ∧
        (idx.idxType &&& PROXIMITY ≠ 0 → positionsOf first term = positionsOf second term) := by
      intro term
      by_cases hnil : positionsOf first term = []
      · have hnil' : positionsOf second term = [] := by
          by_contra hne
          obtain ⟨htData, hsome, -⟩ := (h' term).2 hne
          rw [(h term).1 hnil] at hsome
          cases hsome
        rw [hnil, hnil']
        exact ⟨rfl, fun _ ↦ rfl⟩
      · obtain ⟨htData, hsome, hfreq, hpositions⟩ := (h term).2 hnil
        have hne : positionsOf second term ≠ [] := by
          intro hnil'
          rw [(h' term).1 hnil'] at hsome
          cases hsome
        obtain ⟨htData', hsome', hfreq', hpositions'⟩ := (h' term).2 hne
        rw [hsome, Option.some.injEq] at hsome'
        subst hsome'
        exact ⟨by omega, fun hproximity ↦ (hpositions hproximity).symm.trans (hpositions' hproximity)⟩
    rw [KeywordIndex.Agree]
    split_ifs with hproximity
    · refine List.perm_iff_count.mpr fun occurrence ↦ ?_
      rw [count_positionsOf, count_positionsOf, (hsame occurrence.1).2 hproximity]
    · refine List.perm_iff_count.mpr fun term ↦ ?_
      rw [count_fst, count_fst, (hsame term).1]
  · intro hagree term
    have hlength : (positionsOf first term).length = (positionsOf second term).length := by
      have hterms : (first.map Prod.fst).Perm (second.map Prod.fst) := by
        rw [KeywordIndex.Agree] at hagree
        split_ifs at hagree
        · exact hagree.map _
        · exact hagree
      rw [← count_fst, ← count_fst, hterms.count_eq]
    have hpositions : idx.idxType &&& PROXIMITY ≠ 0 →
        positionsOf first term = positionsOf second term := by
      intro hproximity
      rw [KeywordIndex.Agree, if_pos hproximity] at hagree
      exact ((hagree.filter _).map _).eq_of_pairwise' (hfirst term) (hsecond term)
    refine ⟨fun hnil ↦ (h term).1 ?_, fun hne ↦ ?_⟩
    · rw [hnil] at hlength
      exact List.eq_nil_of_length_eq_zero hlength
    · have hne' : positionsOf first term ≠ [] := by
        intro hnil
        rw [hnil] at hlength
        exact hne (List.eq_nil_of_length_eq_zero hlength.symm)
      obtain ⟨htData, hsome, hfreq, hplaces⟩ := (h term).2 hne'
      exact ⟨htData, hsome, by rw [hfreq, hlength], fun hproximity ↦
        (hplaces hproximity).trans (hpositions hproximity)⟩

theorem agree_append_left_iff (common first second : List (Term × ℤ)) :
    idx.Agree (common ++ first) (common ++ second) ↔ idx.Agree first second := by
  rw [KeywordIndex.Agree, KeywordIndex.Agree]
  split_ifs
  · exact List.perm_append_left_iff common
  · rw [List.map_append, List.map_append]
    exact List.perm_append_left_iff _

theorem agree_congr {first second first' second' : List (Term × ℤ)} (hfirst : first.Perm first')
    (hsecond : second.Perm second') : idx.Agree first second ↔ idx.Agree first' second' := by
  rw [KeywordIndex.Agree, KeywordIndex.Agree]
  split_ifs
  · exact (hfirst.congr_left _).trans (hsecond.congr_right _)
  · exact ((hfirst.map _).congr_left _).trans ((hsecond.map _).congr_right _)

/-- The condition: the part that is looked up is never a word of the expansion table, and the words that
are read too much have the terms of those that are left out. -/
structure ExtractFits : Prop where
  unhit : ∀ run ∈ idx.textRuns databuf, idx.expansionHash ((idx.lookedUp run).map lowerChar) = none
  balanced : idx.Agree (idx.occurrences bufferOffset (idx.surplus databuf))
    (idx.occurrences bufferOffset (idx.missing databuf))

/-- The hash table is the right one exactly when the condition holds. -/
theorem extracts_iff : Extracts idx databuf bufferOffset ↔ ExtractFits idx databuf bufferOffset := by
  by_cases hunhit : ∀ run ∈ idx.textRuns databuf,
      idx.expansionHash ((idx.lookedUp run).map lowerChar) = none
  · obtain ⟨fuel, hashTab, hrun, hright⟩ := idxdata_of_unhit idx databuf bufferOffset hunhit
    obtain ⟨common, hreadings, hwords⟩ := readings_perm idx databuf
    have hextracts : Extracts idx databuf bufferOffset ↔
        RightTable idx (idx.occurrences bufferOffset (idx.wordsOf databuf)) hashTab := by
      constructor
      · rintro ⟨fuel', hashTab', hrun', hright'⟩
        rwa [idxdata_unique idx databuf bufferOffset hrun hrun']
      · exact fun h ↦ ⟨fuel, hashTab, hrun, h⟩
    have hbalance : idx.Agree
        (idx.occurrences bufferOffset ((idx.textRuns databuf).flatMap idx.readings))
        (idx.occurrences bufferOffset (idx.wordsOf databuf)) ↔
        idx.Agree (idx.occurrences bufferOffset (idx.surplus databuf))
          (idx.occurrences bufferOffset (idx.missing databuf)) := by
      have hfirst := hreadings.filterMap (idx.occurrence bufferOffset)
      have hsecond := hwords.filterMap (idx.occurrence bufferOffset)
      rw [List.filterMap_append] at hfirst hsecond
      exact (agree_congr idx hfirst hsecond).trans (agree_append_left_iff idx _ _ _)
    rw [hextracts, hright.iff_agree
      (positionsOf_pairwise idx (readings_inOrder idx databuf) bufferOffset)
      (positionsOf_pairwise idx (wordsOf_inOrder idx databuf) bufferOffset), hbalance]
    exact ⟨fun h ↦ ⟨hunhit, h⟩, fun h ↦ h.balanced⟩
  · constructor
    · rintro ⟨fuel, hashTab, hrun, -⟩
      push Not at hunhit
      exact absurd hrun (idxdata_of_hit idx databuf bufferOffset hunhit fuel hashTab)
    · exact fun h ↦ absurd h.unhit hunhit

end Balance

/-- A keyword index whose words are only changed to lower case, with an expansion of the letter `b`. -/
def plainKeywords : KeywordIndex where
  idxType := KEYWORD
  extracted := Or.inl (by decide)
  expansionHash := fun word ↦ if word = [98] then some [99] else none
  normalizeKey := fun word ↦ if word = [] then none else some (word.map lowerChar)

/-- Of `a-c-d` the loop also reads `c-d`; and the word `b`, which has an expansion, is its end. -/
theorem not_extracts_hyphens : ¬Extracts plainKeywords (some [97, 45, 99, 45, 100]) 0 ∧
    ¬Extracts plainKeywords (some [98]) 0 := by
  constructor
  · rintro ⟨fuel, hashTab, hrun, hright⟩
    obtain ⟨fuel', hashTab', hrun', hread⟩ :=
      idxdata_of_unhit plainKeywords (some [97, 45, 99, 45, 100]) 0 (by decide)
    obtain ⟨htData, hsome, -⟩ := (hread [99, 45, 100]).2 (by decide)
    rw [← idxdata_unique plainKeywords (some [97, 45, 99, 45, 100]) 0 hrun hrun'] at hsome
    have hnone := (hright [99, 45, 100]).1 (by decide)
    rw [hnone] at hsome
    cases hsome
  · rintro ⟨fuel, hashTab, hrun, -⟩
    exact idxdata_of_hit plainKeywords (some [98]) 0 ⟨⟨0, [98]⟩, by decide, by decide⟩ fuel hashTab hrun

end Cheshire.Index
