import Cheshire.Search.NgramCounts
import Cheshire.Search.Truncation

/-!
# What a truncated search merges

The keys with a prefix follow each other, and the walk of a truncated search begins with them.  It goes
on over keys that differ from them in the case of letters, and it ends only if it meets no stop term.
-/

namespace Cheshire.Search

open Lib Lib.Cursor Lib.DigitOrder Index

/-- The frequencies of a record in postings. -/
def freqOf (postings : List IdxPostingEntry) (record : ℤ) : ℤ :=
  ((postings.filter fun posting ↦ posting.recordNo = record).map IdxPostingEntry.termFreq).sum

def totalFreq (postings : List IdxPostingEntry) : ℤ := (postings.map IdxPostingEntry.termFreq).sum

theorem freqOf_append (first second : List IdxPostingEntry) (record : ℤ) :
    freqOf (first ++ second) record = freqOf first record + freqOf second record := by
  rw [freqOf, List.filter_append, List.map_append, List.sum_append]
  rfl

theorem freqOf_singleton (posting : IdxPostingEntry) (record : ℤ) :
    freqOf [posting] record = if posting.recordNo = record then posting.termFreq else 0 := by
  by_cases h : posting.recordNo = record
  · simp [freqOf, h]
  · simp [freqOf, h]

theorem totalFreq_append (first second : List IdxPostingEntry) :
    totalFreq (first ++ second) = totalFreq first + totalFreq second := by
  rw [totalFreq, List.map_append, List.sum_append]
  rfl

def CountedFreqs (postings : List IdxPostingEntry) : Prop := ∀ posting ∈ postings, 0 ≤ posting.termFreq

variable {postings : List IdxPostingEntry}

theorem CountedFreqs.total_nonneg (h : CountedFreqs postings) : 0 ≤ totalFreq postings := by
  apply List.sum_nonneg
  intro freq hfreq
  obtain ⟨posting, hmem, rfl⟩ := List.mem_map.mp hfreq
  exact h posting hmem

theorem CountedFreqs.freqOf_nonneg (h : CountedFreqs postings) (record : ℤ) :
    0 ≤ freqOf postings record :=
  CountedFreqs.total_nonneg fun posting hmem ↦ h posting (List.mem_of_mem_filter hmem)

theorem CountedFreqs.freqOf_le (h : CountedFreqs postings) (record : ℤ) :
    freqOf postings record ≤ totalFreq postings := by
  induction postings with
  | nil => exact le_rfl
  | cons posting postings ih =>
    have hrest := ih fun other hmem ↦ h other (List.mem_cons_of_mem _ hmem)
    have hfirst := h posting List.mem_cons_self
    have hfreq := freqOf_append [posting] postings record
    have htotal := totalFreq_append [posting] postings
    rw [freqOf_singleton] at hfreq
    have hone : totalFreq [posting] = posting.termFreq := by simp [totalFreq]
    rw [List.singleton_append] at hfreq htotal
    rw [hfreq, htotal, hone]
    split_ifs
    · omega
    · omega

/-- The table has the sums of the postings. -/
structure Summed (postings : List IdxPostingEntry) (sums : TruncSums) : Prop where
  find? : ∀ record, sums.table.find? record =
    if ∃ posting ∈ postings, posting.recordNo = record then some (freqOf postings record) else none
  total : sums.sumTotFreq = totalFreq postings

theorem summed_nil : Summed [] TruncSums.zero where
  find? record := by simp [TruncSums.zero]
  total := rfl

theorem checkInt_of_nonneg {value : ℤ} (hnonneg : 0 ≤ value) :
    checkInt value = if value ≤ INT_MAX then .ok value else .error .signedOverflow := by
  rw [checkInt]
  have hiff : (-(2 ^ 31) ≤ value ∧ value ≤ 2 ^ 31 - 1) ↔ value ≤ INT_MAX := by
    rw [INT_MAX]
    omega
  simp only [hiff]

variable {sums : TruncSums}

theorem Summed.sumPosting (h : Summed postings sums) (hcounted : CountedFreqs postings)
    {entry : IdxPostingEntry} (hentry : 0 ≤ entry.termFreq) :
    (totalFreq (postings ++ [entry]) ≤ INT_MAX ∧
        ∃ sums', sumPosting sums entry = .ok sums' ∧ Summed (postings ++ [entry]) sums') ∨
      (INT_MAX < totalFreq (postings ++ [entry]) ∧
        ∃ fault, Search.sumPosting sums entry = .error fault) := by
  have htotal : totalFreq (postings ++ [entry]) = sums.sumTotFreq + entry.termFreq := by
    rw [totalFreq_append, h.total]
    simp [totalFreq]
  have hsum := hcounted.total_nonneg
  have hnonneg : 0 ≤ sums.sumTotFreq + entry.termFreq := by
    rw [h.total]
    omega
  have hcheck := checkInt_of_nonneg hnonneg
  have hfind (value : ℤ) (hvalue : value = freqOf (postings ++ [entry]) entry.recordNo) (record : ℤ) :
      (sums.table.enter entry.recordNo value).find? record =
        if ∃ posting ∈ postings ++ [entry], posting.recordNo = record then
          some (freqOf (postings ++ [entry]) record) else none := by
    rw [Table.find?_enter]
    by_cases heq : record = entry.recordNo
    · rw [if_pos heq, heq, if_pos ⟨entry, by simp, rfl⟩, hvalue]
    · have hother : (∃ posting ∈ postings ++ [entry], posting.recordNo = record) ↔
          ∃ posting ∈ postings, posting.recordNo = record := by
        simp only [List.mem_append, List.mem_singleton]
        constructor
        · rintro ⟨posting, hmem | rfl, hrecord⟩
          · exact ⟨posting, hmem, hrecord⟩
          · exact absurd hrecord.symm heq
        · rintro ⟨posting, hmem, hrecord⟩
          exact ⟨posting, Or.inl hmem, hrecord⟩
      have hfreq : freqOf (postings ++ [entry]) record = freqOf postings record := by
        rw [freqOf_append, freqOf_singleton, if_neg fun hrecord ↦ heq hrecord.symm, add_zero]
      rw [if_neg heq, h.find?, hfreq]
      simp only [hother]
  have hvalue : freqOf (postings ++ [entry]) entry.recordNo =
      freqOf postings entry.recordNo + entry.termFreq := by
    rw [freqOf_append, freqOf_singleton, if_pos rfl]
  rw [htotal, Search.sumPosting]
  by_cases hfits : sums.sumTotFreq + entry.termFreq ≤ INT_MAX
  · left
    refine ⟨hfits, ?_⟩
    rw [if_pos hfits] at hcheck
    have hold := h.find? entry.recordNo
    split_ifs at hold with hexists
    · have hfreq := hcounted.freqOf_le entry.recordNo
      have hpos := hcounted.freqOf_nonneg entry.recordNo
      have hold' : 0 ≤ freqOf postings entry.recordNo + entry.termFreq := by omega
      have htot := checkInt_of_nonneg hold'
      rw [if_pos (by rw [h.total] at hfits; omega)] at htot
      rw [hold]
      simp only [htot, hcheck, bind, Except.bind]
      exact ⟨_, rfl, hfind _ hvalue.symm, htotal.symm⟩
    · rw [hold]
      simp only [hcheck, bind, Except.bind]
      refine ⟨_, rfl, hfind _ ?_, htotal.symm⟩
      have hnone : freqOf postings entry.recordNo = 0 := by
        have hempty : postings.filter (fun posting ↦ posting.recordNo = entry.recordNo) = [] := by
          rw [List.filter_eq_nil_iff]
          intro posting hmem hrecord
          exact hexists ⟨posting, hmem, of_decide_eq_true hrecord⟩
        rw [freqOf, hempty]
        rfl
      rw [hvalue, hnone, zero_add]
  · right
    refine ⟨not_le.mp hfits, ?_⟩
    rw [if_neg hfits] at hcheck
    cases hold : sums.table.find? entry.recordNo with
    | none =>
      simp only [hcheck, bind, Except.bind]
      exact ⟨_, rfl⟩
    | some totFreq =>
      simp only [hcheck, bind, Except.bind]
      cases checkInt (totFreq + entry.termFreq) with
      | error fault => exact ⟨_, rfl⟩
      | ok totFreq => exact ⟨_, rfl⟩

theorem foldlM_sumPosting (postings : List IdxPostingEntry) {done : List IdxPostingEntry}
    (h : Summed done sums) (hcounted : CountedFreqs (done ++ postings))
    (hdone : totalFreq done ≤ INT_MAX) : (totalFreq (done ++ postings) ≤ INT_MAX ∧
        ∃ sums', postings.foldlM sumPosting sums = .ok sums' ∧ Summed (done ++ postings) sums') ∨
      (INT_MAX < totalFreq (done ++ postings) ∧
        ∃ fault, postings.foldlM sumPosting sums = .error fault) := by
  induction postings generalizing done sums with
  | nil =>
    rw [List.append_nil]
    exact Or.inl ⟨hdone, sums, rfl, h⟩
  | cons entry postings ih =>
    have hfirst : CountedFreqs done := fun posting hmem ↦ hcounted posting (List.mem_append_left _ hmem)
    have hentry : 0 ≤ entry.termFreq := hcounted entry (by simp)
    rw [List.append_cons] at hcounted ⊢
    rw [List.foldlM_cons]
    rcases h.sumPosting hfirst hentry with ⟨hfits, sums', hnext, hsummed⟩ | ⟨hlarge, fault, hfault⟩
    · rw [hnext]
      exact ih hsummed hcounted hfits
    · right
      have hrest : CountedFreqs postings := fun posting hmem ↦
        hcounted posting (List.mem_append_right _ hmem)
      have hpos := hrest.total_nonneg
      refine ⟨?_, fault, ?_⟩
      · rw [totalFreq_append]
        omega
      · rw [hfault]
        rfl

def datumPostings : IndexDatum → List IdxPostingEntry
  | .postings block => block.postings
  | .globalData _ => []

/-- A key of postings that is not a stop term. -/
def NoStop (pair : List Char × IndexDatum) : Prop :=
  ∃ block, pair.2 = .postings block ∧ block.termid ≠ 0

/-- The pairs that the walk goes through from a place on. -/
def walkedFrom (tempsearch : List Char) (position : Position (List Char) IndexDatum) :
    List (List Char × IndexDatum) :=
  (position.pair :: position.after).takeWhile fun pair ↦ matchesFolded tempsearch pair.1

variable {position : Position (List Char) IndexDatum}

section Walk

variable {pairs : List (List Char × IndexDatum)}
  (hsound : ∀ pair ∈ pairs, ∀ block, pair.2 = .postings block → block.Sound)
  {tempsearch : List Char}

theorem walkedFrom_of_not
    (h : ¬matchesFolded tempsearch position.pair.1 = true) : walkedFrom tempsearch position = [] :=
  List.takeWhile_cons_of_neg h

theorem walkedFrom_of_step {next : Position (List Char) IndexDatum}
    (h : matchesFolded tempsearch position.pair.1 = true)
    (hstep : position.step .next = some next) :
    walkedFrom tempsearch position = position.pair :: walkedFrom tempsearch next := by
  have hahead : position.after = next.pair :: next.after := Position.ahead_of_step hstep
  have htake := List.takeWhile_cons_of_pos (l := position.after)
    (p := fun pair ↦ matchesFolded tempsearch pair.1) h
  rw [walkedFrom, htake, hahead]
  rfl

theorem walkedFrom_of_last (h : matchesFolded tempsearch position.pair.1 = true)
    (hstep : position.step .next = none) : walkedFrom tempsearch position = [position.pair] := by
  have hahead : position.after = [] := (position.step_eq_none_iff .next).mp hstep
  have htake := List.takeWhile_cons_of_pos (l := position.after)
    (p := fun pair ↦ matchesFolded tempsearch pair.1) h
  rw [walkedFrom, htake, hahead]
  rfl

include hsound

theorem truncLoop_eq_ok (fuel : ℕ) (hposition : position.pairs = pairs) {sums' : TruncSums}
    (h : truncLoop tempsearch fuel position sums = .ok sums') :
    (∀ pair ∈ walkedFrom tempsearch position, NoStop pair) ∧
      ((walkedFrom tempsearch position).flatMap fun pair ↦ datumPostings pair.2).foldlM sumPosting
        sums = .ok sums' := by
  induction fuel generalizing position sums with
  | zero => cases h
  | succ fuel ih =>
    rw [truncLoop] at h
    by_cases hmatches : matchesFolded tempsearch position.pair.1 = true
    · rw [if_pos hmatches] at h
      have hmem : position.pair ∈ pairs := by
        rw [← hposition, Position.pairs]
        simp
      cases hdatum : position.pair.2 with
      | globalData info =>
        rw [hdatum] at h
        cases h
      | postings block =>
        rw [hdatum] at h
        simp only at h
        by_cases hstop : block.termid = 0
        · -- the round is repeated at the same place
          rw [if_pos hstop] at h
          exact ih hposition h
        · rw [if_neg hstop, readEntries_of_sound (hsound _ hmem block hdatum)] at h
          obtain ⟨entries, hentries, h⟩ := bind_eq_ok.mp h
          cases hentries
          obtain ⟨next, hnext, h⟩ := bind_eq_ok.mp h
          have hnoStop : NoStop position.pair := ⟨block, hdatum, hstop⟩
          cases hstep : position.step .next with
          | none =>
            rw [hstep] at h
            cases h
            rw [walkedFrom_of_last hmatches hstep]
            refine ⟨List.forall_mem_singleton.mpr hnoStop, ?_⟩
            rw [List.flatMap_singleton, hdatum]
            exact hnext
          | some place =>
            rw [hstep] at h
            obtain ⟨hrest, hfold⟩ := ih ((Position.pairs_of_step hstep).trans hposition) h
            rw [walkedFrom_of_step hmatches hstep]
            refine ⟨List.forall_mem_cons.mpr ⟨hnoStop, hrest⟩, ?_⟩
            rw [List.flatMap_cons, List.foldlM_append, hdatum]
            exact bind_eq_ok.mpr ⟨next, hnext, hfold⟩
    · rw [if_neg hmatches] at h
      rw [walkedFrom_of_not hmatches]
      exact ⟨List.forall_mem_nil _, h⟩

theorem truncLoop_of_noStop (fuel : ℕ) (hposition : position.pairs = pairs)
    (hfuel : position.after.length < fuel)
    (hnoStop : ∀ pair ∈ walkedFrom tempsearch position, NoStop pair) {sums' : TruncSums}
    (hfold : ((walkedFrom tempsearch position).flatMap fun pair ↦ datumPostings pair.2).foldlM
      sumPosting sums = .ok sums') :
    truncLoop tempsearch fuel position sums = .ok sums' := by
  induction fuel generalizing position sums with
  | zero => omega
  | succ fuel ih =>
    rw [truncLoop]
    by_cases hmatches : matchesFolded tempsearch position.pair.1 = true
    · rw [if_pos hmatches]
      have hmem : position.pair ∈ pairs := by
        rw [← hposition, Position.pairs]
        simp
      cases hstep : position.step .next with
      | none =>
        rw [walkedFrom_of_last hmatches hstep] at hnoStop hfold
        obtain ⟨block, hdatum, hstop⟩ := hnoStop position.pair (List.mem_singleton_self _)
        rw [List.flatMap_singleton, hdatum] at hfold
        have hfold : block.postings.foldlM sumPosting sums = .ok sums' := hfold
        simp only [hdatum, if_neg hstop, readEntries_of_sound (hsound _ hmem block hdatum), bind,
          Except.bind, hfold]
      | some next =>
        rw [walkedFrom_of_step hmatches hstep] at hnoStop hfold
        obtain ⟨hfirst, hrest⟩ := List.forall_mem_cons.mp hnoStop
        obtain ⟨block, hdatum, hstop⟩ := hfirst
        rw [List.flatMap_cons, List.foldlM_append, hdatum] at hfold
        obtain ⟨middle, hmiddle, hfold⟩ := bind_eq_ok.mp hfold
        have hmiddle : block.postings.foldlM sumPosting sums = .ok middle := hmiddle
        have hahead : position.after = next.pair :: next.after := Position.ahead_of_step hstep
        rw [hahead, List.length_cons] at hfuel
        simp only [hdatum, if_neg hstop, readEntries_of_sound (hsound _ hmem block hdatum), bind,
          Except.bind, hmiddle]
        exact ih ((Position.pairs_of_step hstep).trans hposition) (by omega) hrest hfold
    · rw [walkedFrom_of_not hmatches] at hfold
      rw [if_neg hmatches]
      exact hfold

end Walk

section Prefixes

variable {α : Type*} [LinearOrder α]

theorem le_append (xs ys : List α) : xs ≤ xs ++ ys := by
  rw [← not_lt]
  intro hlt
  have hnil : xs ++ ys < xs ++ [] := by rwa [List.append_nil]
  rw [append_lt_append_left] at hnil
  exact absurd hnil (List.not_lt_nil _)

theorem isPrefix_of_le_of_le {xs ys zs : List α} (hlower : xs ≤ ys) (hupper : ys ≤ xs ++ zs) :
    xs <+: ys := by
  induction xs generalizing ys with
  | nil => exact List.nil_prefix
  | cons x xs ih =>
    cases ys with
    | nil => exact absurd (List.nil_lt_cons x xs) (not_lt.mpr hlower)
    | cons y ys =>
      rw [List.cons_append, ← not_lt, List.cons_lt_cons_iff, not_or, not_and, not_lt] at hupper
      rw [← not_lt, List.cons_lt_cons_iff, not_or, not_and, not_lt] at hlower
      have heq : x = y := le_antisymm hlower.1 hupper.1
      subst heq
      exact List.cons_prefix_cons.mpr
        ⟨rfl, ih (not_lt.mp (hlower.2 rfl)) (not_lt.mp (hupper.2 rfl))⟩

end Prefixes

theorem matchesFolded_of_isPrefix {tempsearch key : List Char} (h : tempsearch <+: key) :
    matchesFolded tempsearch key = true := by
  obtain ⟨rest, rfl⟩ := h
  rw [matchesFolded, List.take_left, decide_eq_true_eq]

/-- The keys from the first one that is not below the string on, as long as they begin with it but for
the case of letters. -/
def walkedKeys (pairs : List (List Char × IndexDatum)) (tempsearch : List Char) :
    List (List Char × IndexDatum) :=
  (notBelow pairs tempsearch).takeWhile fun pair ↦ matchesFolded tempsearch pair.1

def walkedPostings (pairs : List (List Char × IndexDatum)) (tempsearch : List Char) :
    List IdxPostingEntry :=
  (walkedKeys pairs tempsearch).flatMap fun pair ↦ datumPostings pair.2

/-- A key of postings that is not a stop term, as a condition. -/
def isNoStop : IndexDatum → Bool
  | .postings block => block.termid != 0
  | .globalData _ => false

/-- The postings of the keys with the prefix, without the stop terms. -/
def prefixPostings (pairs : List (List Char × IndexDatum)) (tempsearch : List Char) :
    List IdxPostingEntry :=
  (pairs.filter fun pair ↦ tempsearch.isPrefixOf pair.1 && isNoStop pair.2).flatMap
    fun pair ↦ datumPostings pair.2

theorem mem_walkedKeys_of_isPrefix {pairs : List (List Char × IndexDatum)} (hsorted : Sorted pairs)
    {tempsearch : List Char} {pair : List Char × IndexDatum} (hmem : pair ∈ pairs)
    (h : tempsearch <+: pair.1) : pair ∈ walkedKeys pairs tempsearch := by
  obtain ⟨rest, hrest⟩ := h
  have hle : tempsearch ≤ pair.1 := hrest ▸ le_append tempsearch rest
  apply (hsorted.notBelow tempsearch).mem_takeWhile_of_forall
  · exact hsorted.mem_notBelow_iff.mpr ⟨hmem, hle⟩
  · intro other hother hupper
    rw [← hrest] at hupper
    exact matchesFolded_of_isPrefix
      (isPrefix_of_le_of_le (hsorted.mem_notBelow_iff.mp hother).2 hupper)

/-- The postings of a result; NULL stands for none. -/
def foundPostings (found : Option IdxResult) : List IdxPostingEntry := found.elim [] IdxResult.postings

/-- Each record of the postings once, with its frequencies added up. -/
structure MergedPostings (postings found : List IdxPostingEntry) : Prop where
  distinct : (found.map IdxPostingEntry.recordNo).Nodup
  mem_iff : ∀ record termFreq, ⟨record, termFreq⟩ ∈ found ↔
    (∃ posting ∈ postings, posting.recordNo = record) ∧ termFreq = freqOf postings record

/-- The entry that a record of the table becomes. -/
def sumEntry (record : ℤ × ℤ) : IdxPostingEntry := ⟨record.1, floatOfInt record.2⟩

/-- The values that `(float)` leaves to an `int`. -/
def FloatFits (value : ℤ) : Prop := -(2 ^ 31) ≤ floatOfInt value ∧ floatOfInt value ≤ 2 ^ 31 - 1

theorem foldlM_storeSum {size : ℕ} (records : List (ℤ × ℤ)) {cells out : List IdxPostingEntry}
    (hholds : Buffer.Holds IdxPostingEntry.zero size cells out)
    (hroom : out.length + records.length ≤ size) :
    ((∀ record ∈ records, FloatFits record.2) ∧
        ∃ cells', records.foldlM storeSum (cells, out.length) =
            .ok (cells', (out ++ records.map sumEntry).length) ∧
          Buffer.Holds IdxPostingEntry.zero size cells' (out ++ records.map sumEntry)) ∨
      ((∃ record ∈ records, ¬FloatFits record.2) ∧
        ∃ fault, records.foldlM storeSum (cells, out.length) = .error fault) := by
  induction records generalizing cells out with
  | nil =>
    rw [List.map_nil, List.append_nil]
    exact Or.inl ⟨List.forall_mem_nil _, cells, rfl, hholds⟩
  | cons record records ih =>
    rw [List.length_cons] at hroom
    rw [List.foldlM_cons, List.map_cons, List.append_cons]
    by_cases hfits : FloatFits record.2
    · obtain ⟨cells', hcells, hnext⟩ := hholds.store (by omega) (sumEntry record)
      have hcheck : checkInt (floatOfInt record.2) = .ok (floatOfInt record.2) := if_pos hfits
      have hstep : storeSum (cells, out.length) record = .ok (cells', (out ++ [sumEntry record]).length) := by
        rw [storeSum]
        rw [sumEntry] at hcells
        simp only [hcheck, bind, Except.bind, hcells]
        rw [List.length_append]
        rfl
      rw [hstep]
      rcases ih hnext (by rw [List.length_append, List.length_singleton]; omega) with
        ⟨hall, hdone⟩ | ⟨⟨other, hother, hnot⟩, hfault⟩
      · exact Or.inl ⟨List.forall_mem_cons.mpr ⟨hfits, hall⟩, hdone⟩
      · exact Or.inr ⟨⟨other, List.mem_cons_of_mem _ hother, hnot⟩, hfault⟩
    · right
      have hcheck : checkInt (floatOfInt record.2) = .error .signedOverflow := if_neg hfits
      refine ⟨⟨record, List.mem_cons_self, hfits⟩, .signedOverflow, ?_⟩
      rw [storeSum, hcheck]
      rfl

theorem truncResult_spec (h : Summed postings sums) :
    ((∀ posting ∈ postings, FloatFits (freqOf postings posting.recordNo)) ∧
        ∃ found, truncResult sums = .ok found ∧
          foundPostings found = sums.table.entries.map sumEntry) ∨
      ((∃ posting ∈ postings, ¬FloatFits (freqOf postings posting.recordNo)) ∧
        ∃ fault, truncResult sums = .error fault) := by
  have hentries (record totFreq : ℤ) : (record, totFreq) ∈ sums.table.entries ↔
      (∃ posting ∈ postings, posting.recordNo = record) ∧ totFreq = freqOf postings record := by
    rw [sums.table.mem_entries_iff, h.find?]
    split_ifs with hexists
    · rw [Option.some.injEq, eq_comm, and_iff_right hexists]
    · simp [hexists]
  have hfits : (∀ record ∈ sums.table.entries, FloatFits record.2) ↔
      ∀ posting ∈ postings, FloatFits (freqOf postings posting.recordNo) := by
    constructor
    · intro hall posting hmem
      exact hall (posting.recordNo, freqOf postings posting.recordNo)
        ((hentries _ _).mpr ⟨⟨posting, hmem, rfl⟩, rfl⟩)
    · intro hall record hmem
      obtain ⟨⟨posting, hposting, hrecord⟩, hfreq⟩ := (hentries record.1 record.2).mp hmem
      rw [hfreq, ← hrecord]
      exact hall posting hposting
  rw [truncResult]
  by_cases hsome : 0 < sums.table.entries.length
  · rw [if_pos hsome]
    have hnew : Buffer.Holds IdxPostingEntry.zero (sums.table.entries.length + 1)
        (Buffer.calloc IdxPostingEntry.zero (sums.table.entries.length + 1)) [] :=
      Buffer.holds_calloc _ _
    have hstore := foldlM_storeSum sums.table.entries hnew (by simp)
    rw [List.length_nil, List.nil_append] at hstore
    rcases hstore with ⟨hall, cells, hcells, hholds⟩ | ⟨hnot, fault, hfault⟩
    · left
      refine ⟨hfits.mp hall, some ⟨0, sums.table.entries.length, sums.sumTotFreq, cells⟩, ?_, ?_⟩
      · rw [hcells]
        rfl
      · have htake := hholds.take
        rw [List.length_map] at htake
        exact htake
    · right
      refine ⟨?_, fault, ?_⟩
      · by_contra hall
        simp only [not_exists, not_and, not_not] at hall
        obtain ⟨record, hrecord, hnotFits⟩ := hnot
        exact hnotFits (hfits.mpr hall record hrecord)
      · rw [hfault]
        rfl
  · rw [if_neg hsome]
    have hnil : sums.table.entries = [] := List.eq_nil_of_length_eq_zero (by omega)
    left
    refine ⟨hfits.mp (by simp [hnil]), none, rfl, ?_⟩
    rw [hnil]
    rfl

/-- The postings of the keys on the way that do not have the prefix itself. -/
def variantPostings (pairs : List (List Char × IndexDatum)) (tempsearch : List Char) :
    List IdxPostingEntry :=
  ((walkedKeys pairs tempsearch).filter fun pair ↦ ! tempsearch.isPrefixOf pair.1).flatMap
    fun pair ↦ datumPostings pair.2

theorem isNoStop_iff (pair : List Char × IndexDatum) : isNoStop pair.2 = true ↔ NoStop pair := by
  cases hdatum : pair.2 with
  | globalData info => simp [isNoStop, NoStop, hdatum]
  | postings block => simp [isNoStop, NoStop, hdatum]

theorem walkedPostings_perm {pairs : List (List Char × IndexDatum)} (hsorted : Sorted pairs)
    {tempsearch : List Char} (hnoStop : ∀ pair ∈ walkedKeys pairs tempsearch, NoStop pair) :
    (walkedPostings pairs tempsearch).Perm
      (prefixPostings pairs tempsearch ++ variantPostings pairs tempsearch) := by
  have hnodup : pairs.Nodup := List.Pairwise.imp (fun hlt heq ↦ hlt.ne (congrArg Prod.fst heq)) hsorted
  have hwalked : (walkedKeys pairs tempsearch).Sublist pairs :=
    (List.takeWhile_sublist _).trans (List.dropWhile_sublist _)
  have hfront : ((walkedKeys pairs tempsearch).filter fun pair ↦ tempsearch.isPrefixOf pair.1).Perm
      (pairs.filter fun pair ↦ tempsearch.isPrefixOf pair.1 && isNoStop pair.2) := by
    apply (List.perm_ext_iff_of_nodup ((hnodup.sublist hwalked).filter _) (hnodup.filter _)).mpr
    intro pair
    rw [List.mem_filter, List.mem_filter, Bool.and_eq_true, isNoStop_iff]
    constructor
    · rintro ⟨hmem, hpre⟩
      exact ⟨hwalked.subset hmem, hpre, hnoStop pair hmem⟩
    · rintro ⟨hmem, hpre, -⟩
      exact ⟨mem_walkedKeys_of_isPrefix hsorted hmem (List.isPrefixOf_iff_prefix.mp hpre), hpre⟩
  have hparts := List.filter_append_perm (fun pair : List Char × IndexDatum ↦
    tempsearch.isPrefixOf pair.1) (walkedKeys pairs tempsearch)
  rw [prefixPostings, variantPostings, ← List.flatMap_append]
  exact (hparts.symm.trans (hfront.append_right _)).flatMap_right _

theorem freqOf_perm {first second : List IdxPostingEntry} (h : first.Perm second) (record : ℤ) :
    freqOf first record = freqOf second record :=
  ((h.filter _).map _).sum_eq

theorem totalFreq_perm {first second : List IdxPostingEntry} (h : first.Perm second) :
    totalFreq first = totalFreq second :=
  (h.map _).sum_eq

/-- An index file of strings: sorted, each block with its postings, and the frequencies counts. -/
structure TruncFile (pairs : List (List Char × IndexDatum)) : Prop where
  sorted : Sorted pairs
  sound : ∀ pair ∈ pairs, ∀ block, pair.2 = .postings block → block.Sound
  counted : ∀ pair ∈ pairs, CountedFreqs (datumPostings pair.2)

theorem TruncFile.counted_walkedPostings {pairs : List (List Char × IndexDatum)} (h : TruncFile pairs)
    (tempsearch : List Char) : CountedFreqs (walkedPostings pairs tempsearch) := by
  intro posting hmem
  obtain ⟨pair, hpair, hposting⟩ := List.mem_flatMap.mp hmem
  have hsublist : (walkedKeys pairs tempsearch).Sublist pairs :=
    (List.takeWhile_sublist _).trans (List.dropWhile_sublist _)
  exact h.counted pair (hsublist.subset hpair) posting hposting

/-- No key of the walk is a stop term, and what other keys add disappears in the `float`. -/
structure TruncInOrder (pairs : List (List Char × IndexDatum)) (tempsearch : List Char) : Prop where
  noStop : ∀ pair ∈ walkedKeys pairs tempsearch, NoStop pair
  total : totalFreq (prefixPostings pairs tempsearch) + totalFreq (variantPostings pairs tempsearch) ≤
    INT_MAX
  listed : ∀ variant ∈ variantPostings pairs tempsearch,
    ∃ posting ∈ prefixPostings pairs tempsearch, posting.recordNo = variant.recordNo
  rounded : ∀ posting ∈ prefixPostings pairs tempsearch,
    floatOfInt (freqOf (prefixPostings pairs tempsearch) posting.recordNo +
        freqOf (variantPostings pairs tempsearch) posting.recordNo) =
      freqOf (prefixPostings pairs tempsearch) posting.recordNo

theorem walkedKeys_of_setRange {pairs : List (List Char × IndexDatum)} {tempsearch : List Char}
    (h : Cursor.setRange pairs tempsearch = some position) :
    walkedKeys pairs tempsearch = walkedFrom tempsearch position := by
  rw [walkedKeys, notBelow_of_setRange h, walkedFrom]

theorem walkedKeys_of_setRange_eq_none {pairs : List (List Char × IndexDatum)} {tempsearch : List Char}
    (h : Cursor.setRange pairs tempsearch = none) : walkedKeys pairs tempsearch = [] := by
  rw [walkedKeys, notBelow_of_setRange_eq_none h]
  rfl

theorem mergedPostings_iff {wanted : List IdxPostingEntry} (h : Summed postings sums) :
    MergedPostings wanted (sums.table.entries.map sumEntry) ↔
      (∀ record, (∃ posting ∈ wanted, posting.recordNo = record) ↔
        ∃ posting ∈ postings, posting.recordNo = record) ∧
      ∀ posting ∈ wanted, floatOfInt (freqOf postings posting.recordNo) =
        freqOf wanted posting.recordNo := by
  have hmem (record termFreq : ℤ) : ⟨record, termFreq⟩ ∈ sums.table.entries.map sumEntry ↔
      (∃ posting ∈ postings, posting.recordNo = record) ∧
        termFreq = floatOfInt (freqOf postings record) := by
    rw [List.mem_map]
    constructor
    · rintro ⟨entry, hentry, heq⟩
      rw [sumEntry, IdxPostingEntry.mk.injEq] at heq
      obtain ⟨rfl, rfl⟩ := heq
      have hfind := h.find? entry.1
      rw [sums.table.find?_of_mem hentry] at hfind
      split_ifs at hfind with hexists
      exact ⟨hexists, congrArg floatOfInt (Option.some.inj hfind)⟩
    · rintro ⟨hexists, rfl⟩
      have hfind := h.find? record
      rw [if_pos hexists, ← sums.table.mem_entries_iff] at hfind
      exact ⟨_, hfind, rfl⟩
  have hdistinct : ((sums.table.entries.map sumEntry).map IdxPostingEntry.recordNo).Nodup := by
    rw [List.map_map]
    exact sums.table.nodup
  constructor
  · intro hmerged
    have hrecords (record : ℤ) : (∃ posting ∈ wanted, posting.recordNo = record) ↔
        ∃ posting ∈ postings, posting.recordNo = record := by
      constructor
      · intro hwanted
        exact ((hmem record _).mp ((hmerged.mem_iff record _).mpr ⟨hwanted, rfl⟩)).1
      · intro hposting
        exact ((hmerged.mem_iff record _).mp ((hmem record _).mpr ⟨hposting, rfl⟩)).1
    refine ⟨hrecords, ?_⟩
    intro posting hposting
    have hentry := (hmem posting.recordNo _).mpr
      ⟨(hrecords posting.recordNo).mp ⟨posting, hposting, rfl⟩, rfl⟩
    exact ((hmerged.mem_iff _ _).mp hentry).2
  · rintro ⟨hrecords, hfreqs⟩
    refine ⟨hdistinct, ?_⟩
    intro record termFreq
    rw [hmem, ← hrecords]
    apply and_congr_right
    rintro ⟨posting, hposting, rfl⟩
    rw [hfreqs posting hposting]

theorem exists_recordNo_append (first second : List IdxPostingEntry) (record : ℤ) :
    (∃ posting ∈ first ++ second, posting.recordNo = record) ↔
      (∃ posting ∈ first, posting.recordNo = record) ∨
        ∃ posting ∈ second, posting.recordNo = record := by
  simp only [List.mem_append, or_and_right, exists_or]

section Search

variable {pairs : List (List Char × IndexDatum)} (hfile : TruncFile pairs) {tempsearch : List Char}

include hfile

theorem truncLoop_merged_iff (hset : Cursor.setRange pairs tempsearch = some position) :
    (∃ fuel sums found, truncLoop tempsearch fuel position TruncSums.zero = .ok sums ∧
        truncResult sums = .ok found ∧
        MergedPostings (prefixPostings pairs tempsearch) (foundPostings found)) ↔
      TruncInOrder pairs tempsearch := by
  have hposition : position.pairs = pairs := (at_of_setRange hfile.sorted hset).pairs_eq
  have hwalked := walkedKeys_of_setRange hset
  have hcounted := hfile.counted_walkedPostings tempsearch
  have hfold := foldlM_sumPosting (walkedPostings pairs tempsearch) summed_nil hcounted
    (by decide : totalFreq [] ≤ INT_MAX)
  rw [List.nil_append] at hfold
  constructor
  · rintro ⟨fuel, sums, found, hloop, hresult, hmerged⟩
    obtain ⟨hnoStop, hsums⟩ := truncLoop_eq_ok hfile.sound fuel hposition hloop
    rw [← hwalked] at hnoStop hsums
    change (walkedPostings pairs tempsearch).foldlM sumPosting _ = _ at hsums
    have hperm := walkedPostings_perm hfile.sorted hnoStop
    have hfreq (record : ℤ) := freqOf_perm hperm record
    rw [hsums] at hfold
    rcases hfold with ⟨hfits, sums', heq, hsummed⟩ | ⟨-, fault, hfault⟩
    · cases heq
      rcases truncResult_spec hsummed with ⟨-, found', heq, hfound⟩ | ⟨-, fault, hfault⟩
      · cases hresult.symm.trans heq
        rw [hfound, mergedPostings_iff hsummed] at hmerged
        obtain ⟨hrecords, hfreqs⟩ := hmerged
        refine ⟨hnoStop, ?_, ?_, ?_⟩
        · rwa [totalFreq_perm hperm, totalFreq_append] at hfits
        · intro variant hvariant
          exact (hrecords variant.recordNo).mpr
            ⟨variant, hperm.mem_iff.mpr (List.mem_append_right _ hvariant), rfl⟩
        · intro posting hposting
          rw [← freqOf_append, ← hfreq]
          exact hfreqs posting hposting
      · rw [hfault] at hresult
        cases hresult
    · cases hfault
  · intro horder
    have hperm := walkedPostings_perm hfile.sorted horder.noStop
    have hfreq (record : ℤ) : freqOf (walkedPostings pairs tempsearch) record =
        freqOf (prefixPostings pairs tempsearch) record +
          freqOf (variantPostings pairs tempsearch) record := by
      rw [freqOf_perm hperm, freqOf_append]
    have htotal : totalFreq (walkedPostings pairs tempsearch) ≤ INT_MAX := by
      rw [totalFreq_perm hperm, totalFreq_append]
      exact horder.total
    have hfront : CountedFreqs (prefixPostings pairs tempsearch) := fun posting hmem ↦
      hcounted posting (hperm.mem_iff.mpr (List.mem_append_left _ hmem))
    have hvariant : CountedFreqs (variantPostings pairs tempsearch) := fun posting hmem ↦
      hcounted posting (hperm.mem_iff.mpr (List.mem_append_right _ hmem))
    rcases hfold with ⟨-, sums, hsums, hsummed⟩ | ⟨hlarge, -⟩
    · have hloop : truncLoop tempsearch (position.after.length + 1) position TruncSums.zero =
          .ok sums := by
        apply truncLoop_of_noStop hfile.sound _ hposition (Nat.lt_succ_self _)
        · rw [← hwalked]
          exact horder.noStop
        · rw [← hwalked]
          exact hsums
      have hfits (posting : IdxPostingEntry) (hposting : posting ∈ walkedPostings pairs tempsearch) :
          FloatFits (freqOf (walkedPostings pairs tempsearch) posting.recordNo) := by
        have hlisted : ∃ other ∈ prefixPostings pairs tempsearch,
            other.recordNo = posting.recordNo := by
          rcases List.mem_append.mp (hperm.mem_iff.mp hposting) with hmem | hmem
          · exact ⟨posting, hmem, rfl⟩
          · exact horder.listed posting hmem
        obtain ⟨other, hother, hrecord⟩ := hlisted
        have hrounded := horder.rounded other hother
        have hnonneg := hfront.freqOf_nonneg other.recordNo
        have hle := hfront.freqOf_le other.recordNo
        have htotalVariant := hvariant.total_nonneg
        have hlimit := horder.total
        rw [INT_MAX] at hlimit
        rw [FloatFits, hfreq, ← hrecord, hrounded]
        omega
      rcases truncResult_spec hsummed with ⟨-, found, hresult, hfound⟩ | ⟨⟨posting, hmem, hnot⟩, -⟩
      · refine ⟨_, sums, found, hloop, hresult, ?_⟩
        rw [hfound, mergedPostings_iff hsummed]
        constructor
        · intro record
          simp only [hperm.mem_iff]
          rw [exists_recordNo_append, iff_self_or]
          rintro ⟨variant, hmem, rfl⟩
          exact horder.listed variant hmem
        · intro posting hposting
          rw [hfreq]
          exact horder.rounded posting hposting
      · exact absurd (hfits posting hmem) hnot
    · exact absurd htotal (not_le.mpr hlarge)

theorem truncInOrder_of_setRange_eq_none (hset : Cursor.setRange pairs tempsearch = none) :
    prefixPostings pairs tempsearch = [] ∧ TruncInOrder pairs tempsearch := by
  have hwalked := walkedKeys_of_setRange_eq_none hset
  have hnoStop : ∀ pair ∈ walkedKeys pairs tempsearch, NoStop pair := by
    rw [hwalked]
    exact List.forall_mem_nil _
  have hperm := walkedPostings_perm hfile.sorted hnoStop
  rw [walkedPostings, hwalked, List.flatMap_nil] at hperm
  obtain ⟨hfront, hvariant⟩ := List.append_eq_nil_iff.mp hperm.nil_eq.symm
  refine ⟨hfront, hnoStop, ?_, ?_, ?_⟩
  · rw [hfront, hvariant]
    decide
  · rw [hvariant]
    exact List.forall_mem_nil _
  · rw [hfront]
    exact List.forall_mem_nil _

end Search

theorem mergedPostings_nil_iff (postings : List IdxPostingEntry) :
    MergedPostings postings [] ↔ postings = [] := by
  constructor
  · intro h
    apply List.eq_nil_iff_forall_not_mem.mpr
    intro posting hmem
    exact absurd ((h.mem_iff posting.recordNo _).mpr ⟨⟨posting, hmem, rfl⟩, rfl⟩) List.not_mem_nil
  · rintro rfl
    exact ⟨List.nodup_nil, by simp⟩

/-- When a truncated search returns the postings of the keys with the prefix: the query has a normal
form, no key of the walk is a stop term, and the sums are not changed by other keys or by rounding.  For
the empty prefix nothing is found. -/
theorem seGettruncIdx_iff {idx : RangeIndex} {pairs : List (List Char × IndexDatum)}
    (hdb : idx.db = some pairs) (hfile : TruncFile pairs) (hstring : idx.idxType &&& NUMBER_KEYS = 0)
    {searchstring : List Char} {key : Option (List Char)}
    (hkey : normalizeKey idx.routines idx.idxType searchstring = .ok key) :
    (∃ text, key = some text ∧ ∃ fuel found, seGettruncIdx fuel (some idx) searchstring = .ok found ∧
        MergedPostings (prefixPostings pairs (beforeLastPound text)) (foundPostings found)) ↔
      ∃ text, key = some text ∧
        if beforeLastPound text = [] then prefixPostings pairs [] = []
        else TruncInOrder pairs (beforeLastPound text) := by
  apply exists_congr
  intro text
  apply and_congr_right
  rintro rfl
  simp only [seGettruncIdx, hdb, hstring, ne_eq, not_true_eq_false, if_false, hkey, deref, bind,
    Except.bind]
  by_cases hempty : beforeLastPound text = []
  · simp only [hempty, if_true]
    constructor
    · rintro ⟨fuel, found, heq, hmerged⟩
      cases heq
      exact (mergedPostings_nil_iff _).mp hmerged
    · intro hnone
      exact ⟨0, none, rfl, (mergedPostings_nil_iff _).mpr hnone⟩
  · simp only [if_neg hempty]
    cases hset : Cursor.setRange pairs (beforeLastPound text) with
    | none =>
      obtain ⟨hfront, horder⟩ := truncInOrder_of_setRange_eq_none hfile hset
      exact iff_of_true ⟨0, none, rfl, (mergedPostings_nil_iff _).mpr hfront⟩ horder
    | some position =>
      rw [← truncLoop_merged_iff hfile hset]
      constructor
      · rintro ⟨fuel, found, heq, hmerged⟩
        obtain ⟨sums, hloop, hresult⟩ := bind_eq_ok.mp heq
        exact ⟨fuel, sums, found, hloop, hresult, hmerged⟩
      · rintro ⟨fuel, sums, found, hloop, hresult, hmerged⟩
        refine ⟨fuel, found, ?_, hmerged⟩
        simp only [hloop]
        exact hresult

def blockOf (termid : ℤ) (postings : List IdxPostingEntry) : IndexDatum :=
  .postings ⟨termid, postings.length, totalFreq postings, postings⟩

theorem sound_blockOf {termid : ℤ} {block : IdxResult}
    (h : blockOf termid postings = .postings block) : block.Sound := by
  cases h
  exact ⟨Int.natCast_nonneg _, by rw [Int.toNat_natCast]⟩

def truncIndex (pairs : List (List Char × IndexDatum)) : RangeIndex where
  idxType := 0
  routines := ⟨fun _ ↦ .ok none, fun text ↦ some text⟩
  unstopped := ⟨fun _ ↦ .ok none, fun text ↦ some text⟩
  stopwordsFile := false
  compParent := none
  db := some pairs

/-- Two keys begin with `a`, and the document 1 has both. -/
def threeTerms : List (List Char × IndexDatum) :=
  [(['a', 'b'], blockOf 1 [⟨1, 2⟩]), (['a', 'c'], blockOf 2 [⟨1, 3⟩, ⟨2, 1⟩]),
    (['b'], blockOf 3 [⟨3, 1⟩])]

theorem truncFile_threeTerms : TruncFile threeTerms where
  sorted := by decide +kernel
  sound := by
    simp only [threeTerms, List.mem_cons, List.not_mem_nil, or_false, forall_eq_or_imp, forall_eq]
    exact ⟨fun _ ↦ sound_blockOf, fun _ ↦ sound_blockOf, fun _ ↦ sound_blockOf⟩
  counted := by
    simp [threeTerms, blockOf, datumPostings, IdxResult.postings, CountedFreqs]

/-- The search for `a#`. -/
theorem seGettruncIdx_threeTerms :
    (∃ text, some ['a', '#'] = some text ∧ ∃ fuel found,
        seGettruncIdx fuel (some (truncIndex threeTerms)) ['a', '#'] = .ok found ∧
        MergedPostings (prefixPostings threeTerms (beforeLastPound text)) (foundPostings found)) ↔
      ∃ text, some ['a', '#'] = some text ∧
        if beforeLastPound text = [] then prefixPostings threeTerms [] = []
        else TruncInOrder threeTerms (beforeLastPound text) :=
  @seGettruncIdx_iff (truncIndex threeTerms) threeTerms rfl truncFile_threeTerms (by decide) ['a', '#']
    (some ['a', '#']) rfl

/-- The first key with the prefix is a stop term. -/
def stopFirst : List (List Char × IndexDatum) :=
  [(['a'], blockOf 0 [⟨1, 2⟩]), (['a', 'b'], blockOf 1 [⟨1, 2⟩])]

theorem setRange_stopFirst :
    Cursor.setRange stopFirst ['a'] =
      some ⟨[], (['a'], blockOf 0 [⟨1, 2⟩]), [(['a', 'b'], blockOf 1 [⟨1, 2⟩])]⟩ := by
  rw [Cursor.setRange, stopFirst, List.takeWhile_cons_of_neg (by simp),
    List.dropWhile_cons_of_neg (by simp)]
  rfl

theorem seGettruncIdx_stopFirst_ne (fuel : ℕ) (found : Option IdxResult) :
    seGettruncIdx fuel (some (truncIndex stopFirst)) ['a', '#'] ≠ .ok found := by
  intro h
  have htext : beforeLastPound ['a', '#'] = ['a'] := by decide
  have hkey : normalizeKey (truncIndex stopFirst).routines (truncIndex stopFirst).idxType ['a', '#'] =
      .ok (some ['a', '#']) := rfl
  have htype : (truncIndex stopFirst).idxType &&& NUMBER_KEYS = 0 := by decide
  have hdb : (truncIndex stopFirst).db = some stopFirst := rfl
  simp only [seGettruncIdx, hdb, htype, ne_eq, not_true_eq_false, if_false, hkey, deref, bind,
    Except.bind, htext, setRange_stopFirst, List.cons_ne_nil] at h
  obtain ⟨sums, hloop, -⟩ := bind_eq_ok.mp h
  have hsound : ∀ pair ∈ stopFirst, ∀ block, pair.2 = .postings block → block.Sound := by
    simp only [stopFirst, List.mem_cons, List.not_mem_nil, or_false, forall_eq_or_imp, forall_eq]
    exact ⟨fun _ ↦ sound_blockOf, fun _ ↦ sound_blockOf⟩
  obtain ⟨hnoStop, -⟩ := truncLoop_eq_ok hsound fuel rfl hloop
  obtain ⟨block, hblock, hstop⟩ := hnoStop (['a'], blockOf 0 [⟨1, 2⟩]) List.mem_cons_self
  cases hblock
  exact hstop rfl

/-- The postings of `ab` are not found. -/
theorem seGettruncIdx_stopFirst :
    ¬∃ text, some ['a', '#'] = some text ∧ ∃ fuel found,
      seGettruncIdx fuel (some (truncIndex stopFirst)) ['a', '#'] = .ok found ∧
      MergedPostings (prefixPostings stopFirst (beforeLastPound text)) (foundPostings found) := by
  rintro ⟨text, -, fuel, found, hrun, -⟩
  exact seGettruncIdx_stopFirst_ne fuel found hrun

end Cheshire.Search
