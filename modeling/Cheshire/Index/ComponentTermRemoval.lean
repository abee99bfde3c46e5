import Cheshire.Index.ComponentIndexing

/-!
# Taking components out of one term

Every component of which a term is taken out takes one posting out of the block of the term: the only
one there is, or else the one with the number of the record, if there is one.  So the postings of the
components of a record are taken out, and no others, only in four cases: no component of the record has
the term, and none is taken out; only one component has it at all; the only component of the record that
has it carries the number of the record; or the two components that have it are of the record and one of
them does.
-/

namespace Cheshire.Index

/-- A block holds exactly these postings, whatever total it states. -/
def Holds (postings : List IdxPostingEntry) : Option IdxResult → Prop
  | none => postings = []
  | some block => postings ≠ [] ∧ block.numEntries = postings.length ∧ block.entries = postings

def totalOf (stored : Option IdxResult) : ℤ := stored.elim 0 IdxResult.totFreq

theorem storesExactly_iff (postings : List IdxPostingEntry) (stored : Option IdxResult) :
    StoresExactly postings stored ↔
      Holds postings stored ∧ totalOf stored = (postings.map IdxPostingEntry.termFreq).sum := by
  cases stored with
  | none =>
    constructor
    · intro h
      have hnil : postings = [] := h
      subst hnil
      exact ⟨rfl, rfl⟩
    · exact fun h ↦ h.1
  | some block =>
    constructor
    · intro h
      have hlength := h.length_entries
      have htake : block.entries.take block.numEntries.toNat = postings := h.2.2.1
      refine ⟨⟨h.1, h.2.1, ?_⟩, h.2.2.2.1⟩
      rwa [h.2.1, Int.toNat_natCast, ← hlength, List.take_length] at htake
    · rintro ⟨⟨hne, hcount, hentries⟩, htotal⟩
      refine ⟨hne, hcount, ?_, htotal, ?_⟩
      · rw [IdxResult.postings, hcount, Int.toNat_natCast, hentries, List.take_length]
      · rw [IdxResult.size, hentries]

variable {stored : Option IdxResult}

theorem Holds.unique {first second : List IdxPostingEntry} (h : Holds first stored)
    (h' : Holds second stored) : first = second := by
  cases stored with
  | none => exact Eq.trans h (Eq.symm h')
  | some block => exact h.2.2.symm.trans h'.2.2

/-- The postings that are left when one component is taken out. -/
def dropPosting (recnum : RecordNumber) (postings : List IdxPostingEntry) : List IdxPostingEntry :=
  if postings.length = 1 then [] else postings.eraseP (isOf recnum)

/-- What taking a component out of a term makes of its block. -/
def Drops (recnum : RecordNumber) (htData : HtData) (old new : Option IdxResult) : Prop :=
  ∀ postings, Holds postings old → Holds (dropPosting recnum postings) new ∧
    (postings.length ≠ 1 →
      if ∃ posting ∈ postings, isOf recnum posting = true then
        totalOf new = totalOf old - htData.termfreq
      else new = old)

theorem migrateEntries_holds (recnum : RecordNumber) (postings : List IdxPostingEntry) :
    ∃ foundflag entries,
      migrateEntries recnum postings.length 0 false postings = .ok (foundflag, entries) ∧
      (foundflag = true ↔ ∃ posting ∈ postings, isOf recnum posting = true) ∧
      (foundflag = true → entries.dropLast = postings.eraseP (isOf recnum)) := by
  obtain ⟨foundflag, entries, hrun, hdone⟩ := Migrated.run postings.length
    (by rw [Nat.zero_add]) (migrated_start recnum postings)
  rw [Nat.zero_add] at hdone
  have hfound := hdone.found_iff
  rw [List.take_length] at hfound
  refine ⟨foundflag, entries, hrun, hfound, ?_⟩
  intro htrue
  have hpassed := hdone.passed htrue
  rwa [List.take_length, ← hdone.length_eq, ← List.dropLast_eq_take] at hpassed

theorem delComponentTerm_spec (recnum : RecordNumber) (s : IdxListEntry × Bool)
    (item : Term × HtData) (hholds : ∀ word, ∃ postings, Holds postings (s.1.terms word)) :
    ∃ next, delComponentTerm recnum s item = .ok next ∧
      (∀ word, ∃ postings, Holds postings (next.1.terms word)) ∧
      Drops recnum item.2 (s.1.terms item.1) (next.1.terms item.1) ∧
      ∀ word ≠ item.1, next.1.terms word = s.1.terms word := by
  have hword : ∃ next, delComponentTerm recnum s item = .ok next ∧
      Drops recnum item.2 (s.1.terms item.1) (next.1.terms item.1) ∧
      ∀ word ≠ item.1, next.1.terms word = s.1.terms word := by
    obtain ⟨postings, hpostings⟩ := hholds item.1
    rw [delComponentTerm]
    cases hterm : s.1.terms item.1 with
    | none =>
      refine ⟨s, rfl, ?_, fun _ _ ↦ rfl⟩
      intro others hothers
      have hnil : others = [] := hothers
      subst hnil
      rw [hterm]
      exact ⟨rfl, fun _ ↦ by simp⟩
    | some newinfo =>
      rw [hterm] at hpostings
      obtain ⟨hne, hcount, hentries⟩ := hpostings
      have hunique {others : List IdxPostingEntry} (h : Holds others (some newinfo)) :
          others = postings := h.2.2.symm.trans hentries
      by_cases hsingle : newinfo.numEntries = 1
      · have hlength : postings.length = 1 := by omega
        simp only [if_pos hsingle]
        refine ⟨_, rfl, ?_, ?_⟩
        · intro others hothers
          rw [hunique hothers, dropPosting, if_pos hlength, terms_delTerm, if_pos rfl]
          exact ⟨rfl, fun hmany ↦ absurd hlength hmany⟩
        · intro word hne
          rw [terms_delTerm, if_neg hne]
      · have hlength : postings.length ≠ 1 := by omega
        obtain ⟨foundflag, entries, hrun, hfound, hleft⟩ := migrateEntries_holds recnum postings
        have hnumber : newinfo.numEntries.toNat = postings.length := by omega
        simp only [if_neg hsingle, hnumber, hentries, hrun]
        cases foundflag with
        | false =>
          have hnone : ¬∃ posting ∈ postings, isOf recnum posting = true := by
            rw [← hfound]
            exact Bool.false_ne_true
          refine ⟨s, rfl, ?_, fun _ _ ↦ rfl⟩
          intro others hothers
          rw [hunique hothers, dropPosting, if_neg hlength, hterm, List.eraseP_of_forall_not]
          · exact ⟨⟨hne, hcount, hentries⟩, fun _ ↦ by rw [if_neg hnone]⟩
          · intro posting hmem hof
            exact hnone ⟨posting, hmem, hof⟩
        | true =>
          refine ⟨_, rfl, ?_, ?_⟩
          · intro others hothers
            have hsome := hfound.mp rfl
            obtain ⟨posting, hmem, hof⟩ := id hsome
            have herased := List.length_eraseP_of_mem hmem hof
            have hpos := List.length_pos_of_ne_nil hne
            rw [hunique hothers, dropPosting, if_neg hlength]
            simp only [if_true, terms_putTerm, hleft rfl]
            refine ⟨⟨?_, ?_, rfl⟩, fun _ ↦ by rw [if_pos hsome]; rfl⟩
            · rw [← List.length_pos_iff, herased]
              omega
            · rw [herased]
              simp only
              omega
          · intro word hne
            simp only [if_true, terms_putTerm, if_neg hne, terms_addOccur]
  obtain ⟨next, hnext, hdrops, hother⟩ := hword
  refine ⟨next, hnext, ?_, hdrops, hother⟩
  intro word
  by_cases heq : word = item.1
  · obtain ⟨postings, hpostings⟩ := hholds item.1
    subst heq
    exact ⟨_, (hdrops postings hpostings).1⟩
  · rw [hother word heq]
    exact hholds word

/-- The global counters of an index lose at most so many occurrences and records. -/
structure LosesAtMost (idx idx' : IdxListEntry) (occurrences records : ℤ) : Prop where
  totOccur_le : idx'.globalData.totOccur ≤ idx.globalData.totOccur
  le_totOccur : idx.globalData.totOccur - occurrences ≤ idx'.globalData.totOccur
  totNumrecs_le : idx'.globalData.totNumrecs ≤ idx.globalData.totNumrecs
  le_totNumrecs : idx.globalData.totNumrecs - records ≤ idx'.globalData.totNumrecs
  recptr : idx'.globalData.recptr = idx.globalData.recptr

theorem LosesAtMost.refl (idx : IdxListEntry) : LosesAtMost idx idx 0 0 :=
  ⟨le_rfl, by omega, le_rfl, by omega, rfl⟩

theorem LosesAtMost.trans {first second third : IdxListEntry} {occur occur' records records' : ℤ}
    (h : LosesAtMost first second occur records) (h' : LosesAtMost second third occur' records') :
    LosesAtMost first third (occur + occur') (records + records') := by
  obtain ⟨h1, h2, h3, h4, h5⟩ := h
  obtain ⟨h1', h2', h3', h4', h5'⟩ := h'
  exact ⟨by omega, by omega, by omega, by omega, by omega⟩

/-- How often the terms of a hash table occur. -/
def TermHash.occurrences (hash : TermHash) : ℤ :=
  (hash.entries.map fun item ↦ (item.2.termfreq : ℤ)).sum

/-- The record counter counts a component with at least one term. -/
def TermHash.countedRecords (hash : TermHash) : ℤ := if hash.entries.isEmpty then 0 else 1

theorem delComponentTerm_loses {recnum : RecordNumber} {s next : IdxListEntry × Bool}
    {item : Term × HtData} (h : delComponentTerm recnum s item = .ok next) :
    LosesAtMost s.1 next.1 item.2.termfreq 0 := by
  have hfreq : (0 : ℤ) ≤ item.2.termfreq := Int.natCast_nonneg _
  rw [delComponentTerm] at h
  split at h
  · cases h
    exact ⟨le_rfl, by omega, le_rfl, by omega, rfl⟩
  · split at h
    · cases h
      exact ⟨le_rfl, by simp only [IdxListEntry.delTerm]; omega, le_rfl, by
        simp only [IdxListEntry.delTerm]; omega, rfl⟩
    · obtain ⟨migrated, -, hnext⟩ := bind_eq_ok.mp h
      rw [← Except.ok.inj hnext]
      split
      · constructor <;> simp only [IdxListEntry.putTerm, IdxListEntry.addOccur] <;> omega
      · exact ⟨le_rfl, by omega, le_rfl, by omega, rfl⟩

theorem foldlM_delComponentTerm_loses {recnum : RecordNumber} (items : List (Term × HtData))
    {s next : IdxListEntry × Bool} (h : items.foldlM (delComponentTerm recnum) s = .ok next) :
    LosesAtMost s.1 next.1 (items.map fun item ↦ (item.2.termfreq : ℤ)).sum 0 := by
  induction items generalizing s with
  | nil =>
    cases h
    exact .refl _
  | cons item items ih =>
    rw [List.foldlM_cons] at h
    obtain ⟨first, hfirst, hrest⟩ := bind_eq_ok.mp h
    exact (delComponentTerm_loses hfirst).trans (ih hrest)

theorem delComponentTerms_loses {recnum : RecordNumber} {hash : TermHash} {idx next : IdxListEntry}
    (h : delComponentTerms recnum hash idx = .ok next) :
    LosesAtMost idx next hash.occurrences hash.countedRecords := by
  obtain ⟨s, hs, hnext⟩ := bind_eq_ok.mp h
  have hloses : LosesAtMost idx s.1 hash.occurrences 0 :=
    foldlM_delComponentTerm_loses hash.entries hs
  obtain ⟨h1, h2, h3, h4, h5⟩ := hloses
  rw [← Except.ok.inj hnext, TermHash.countedRecords]
  cases hentries : hash.entries with
  | nil =>
    rw [hentries] at hs
    cases hs
    exact ⟨h1, h2, le_rfl, by simp, rfl⟩
  | cons item items =>
    simp only [List.isEmpty_cons, Bool.false_eq_true, if_false]
    split
    · exact ⟨h1, h2, by simp only; omega, by simp only; omega, h5⟩
    · exact ⟨h1, h2, h3, by omega, h5⟩

/-- The components of a record with a term take their postings out of its block in turn. -/
def DropRun (recnum : RecordNumber) : List HtData → Option IdxResult → Option IdxResult → Prop
  | [], old, new => new = old
  | htData :: rest, old, new => ∃ mid, Drops recnum htData old mid ∧ DropRun recnum rest mid new

theorem delComponentTerms_spec (recnum : RecordNumber) (hash : TermHash) {idx : IdxListEntry}
    (hholds : ∀ word, ∃ postings, Holds postings (idx.terms word)) :
    ∃ next, delComponentTerms recnum hash idx = .ok next ∧
      (∀ word, ∃ postings, Holds postings (next.terms word)) ∧
      ∀ word, match hash.find? word with
        | some htData => Drops recnum htData (idx.terms word) (next.terms word)
        | none => next.terms word = idx.terms word := by
  have hstart : ∀ word, ∃ postings, Holds postings ((idx, false).1.terms word) := hholds
  obtain ⟨s, hs, hdone, hall⟩ := foldlM_terms hash.entries hash.nodup
    (fun s item _ hs ↦ delComponentTerm_spec recnum s item hs) hstart
  refine ⟨if s.2 then { s.1 with globalData :=
    { s.1.globalData with totNumrecs := s.1.globalData.totNumrecs - 1 } } else s.1, ?_, ?_, ?_⟩
  · rw [delComponentTerms, hs]
    rfl
  · split
    · exact hdone
    · exact hdone
  · split
    · exact hall
    · exact hall

variable {htDatas : List HtData} {old new : Option IdxResult}

theorem DropRun.holds {recnum : RecordNumber} (h : DropRun recnum htDatas old new)
    {postings : List IdxPostingEntry} (hpostings : Holds postings old) :
    Holds ((dropPosting recnum)^[htDatas.length] postings) new := by
  induction htDatas generalizing old postings with
  | nil =>
    have hnew : new = old := h
    rwa [hnew]
  | cons htData rest ih =>
    obtain ⟨mid, hdrops, hrest⟩ := h
    exact ih hrest (hdrops postings hpostings).1

theorem dropPosting_nil (recnum : RecordNumber) : dropPosting recnum [] = [] := by
  simp [dropPosting]

theorem dropPosting_of_absent {recnum : RecordNumber} {postings : List IdxPostingEntry}
    (hlength : postings.length ≠ 1) (hnone : ∀ posting ∈ postings, ¬isOf recnum posting = true) :
    dropPosting recnum postings = postings := by
  rw [dropPosting, if_neg hlength, List.eraseP_of_forall_not hnone]

theorem iterate_dropPosting_of_absent {recnum : RecordNumber} {postings : List IdxPostingEntry}
    (hlength : postings.length ≠ 1) (hnone : ∀ posting ∈ postings, ¬isOf recnum posting = true)
    (count : ℕ) : (dropPosting recnum)^[count] postings = postings :=
  Function.iterate_fixed (dropPosting_of_absent hlength hnone) count

variable {posting : IdxPostingEntry}

theorem not_isOf_of_mem_eraseP {recnum : RecordNumber} {postings : List IdxPostingEntry}
    (hnodup : (postings.map IdxPostingEntry.recordNo).Nodup)
    (hmem : posting ∈ postings.eraseP (isOf recnum)) : ¬isOf recnum posting = true := by
  induction postings with
  | nil => simp at hmem
  | cons first postings ih =>
    rw [List.map_cons, List.nodup_cons] at hnodup
    by_cases hfirst : isOf recnum first = true
    · rw [List.eraseP_cons_of_pos hfirst] at hmem
      intro hof
      have hsame : posting.recordNo = first.recordNo :=
        (isOf_iff.mp hof).trans (isOf_iff.mp hfirst).symm
      exact hnodup.1 (hsame ▸ List.mem_map_of_mem hmem)
    · rw [List.eraseP_cons_of_neg hfirst] at hmem
      rcases List.mem_cons.mp hmem with rfl | hrest
      · exact hfirst
      · exact ih hnodup.2 hrest

/-- The postings of the components of a record can be taken out of a term, of which so many occurrences
are taken out, one component after the other: the record has none, and none is hit; or the only posting
is of the record; or its only posting carries its number, and the total loses what the posting has; or
both postings are of the record and one carries its number. -/
def Removable (recnum : RecordNumber) (own : IdxPostingEntry → Bool)
    (postings : List IdxPostingEntry) (taken : List ℤ) : Prop :=
  postings.filter own = [] ∧ (taken = [] ∨
      postings.length ≠ 1 ∧ ∀ posting ∈ postings, ¬isOf recnum posting = true) ∨
    taken ≠ [] ∧ postings.length = 1 ∧ postings.filter own = postings ∨
    (∃ freq rest, taken = freq :: rest ∧ postings.filter own = [⟨recnum.1, freq⟩] ∧
      postings.length ≠ 1 ∧ ¬(postings.length = 2 ∧ rest ≠ [])) ∨
    2 ≤ taken.length ∧ postings.length = 2 ∧ postings.filter own = postings ∧
      ∃ posting ∈ postings, isOf recnum posting = true

section Exactness

variable {recnum : RecordNumber} {own : IdxPostingEntry → Bool} {postings : List IdxPostingEntry}

theorem eraseP_eq_filter (hnodup : (postings.map IdxPostingEntry.recordNo).Nodup) :
    postings.eraseP (isOf recnum) = postings.filter fun posting ↦ !isOf recnum posting := by
  induction postings with
  | nil => rfl
  | cons first postings ih =>
    rw [List.map_cons, List.nodup_cons] at hnodup
    by_cases hfirst : isOf recnum first = true
    · have hrest : ∀ posting ∈ postings, ¬isOf recnum posting = true := by
        intro posting hmem hof
        have hsame : posting.recordNo = first.recordNo :=
          (isOf_iff.mp hof).trans (isOf_iff.mp hfirst).symm
        exact hnodup.1 (hsame ▸ List.mem_map_of_mem hmem)
      rw [List.eraseP_cons_of_pos hfirst, List.filter_cons_of_neg (by simpa using hfirst)]
      exact (List.filter_eq_self.mpr fun posting hmem ↦ by simpa using hrest posting hmem).symm
    · rw [List.eraseP_cons_of_neg hfirst, ih hnodup.2,
        List.filter_cons_of_pos (by simpa using hfirst)]

theorem filter_eq_filter_iff {α : Type} {p q : α → Bool} {l : List α} :
    l.filter p = l.filter q ↔ ∀ x ∈ l, p x = q x := by
  constructor
  · intro h x hx
    have hmem : x ∈ l.filter p ↔ x ∈ l.filter q := by rw [h]
    rw [List.mem_filter, List.mem_filter, and_iff_right hx, and_iff_right hx] at hmem
    exact Bool.eq_iff_iff.mpr hmem
  · exact List.filter_congr

theorem filter_not_eq_iff (p q : IdxPostingEntry → Bool) :
    (postings.filter fun posting ↦ !p posting) = (postings.filter fun posting ↦ !q posting) ↔
      postings.filter p = postings.filter q := by
  simp only [filter_eq_filter_iff, Bool.not_inj_iff]

theorem filter_isOf (hnodup : (postings.map IdxPostingEntry.recordNo).Nodup)
    (hmem : posting ∈ postings) (hof : isOf recnum posting = true) :
    postings.filter (isOf recnum) = [posting] := by
  have hunique : ∀ other ∈ postings, isOf recnum other = decide (other = posting) := by
    intro other hother
    rw [Bool.eq_iff_iff, decide_eq_true_eq]
    constructor
    · intro hisof
      exact List.inj_on_of_nodup_map hnodup hother hmem
        ((isOf_iff.mp hisof).trans (isOf_iff.mp hof).symm)
    · rintro rfl
      exact hof
  rw [List.filter_congr hunique]
  have hcount := List.count_eq_one_of_mem (List.Nodup.of_map _ hnodup) hmem
  rw [List.filter_eq, hcount]
  rfl

/-- The posting with the number of the record is the only one that is taken out. -/
theorem eraseP_eq_filter_iff (hnodup : (postings.map IdxPostingEntry.recordNo).Nodup)
    (hmem : posting ∈ postings) (hof : isOf recnum posting = true) :
    postings.eraseP (isOf recnum) = (postings.filter fun posting ↦ !own posting) ↔
      postings.filter own = [posting] := by
  rw [eraseP_eq_filter hnodup, filter_not_eq_iff, filter_isOf hnodup hmem hof, eq_comm]

theorem sum_filter_not (own : IdxPostingEntry → Bool) (postings : List IdxPostingEntry) :
    ((postings.filter fun posting ↦ !own posting).map IdxPostingEntry.termFreq).sum =
      (postings.map IdxPostingEntry.termFreq).sum -
        ((postings.filter own).map IdxPostingEntry.termFreq).sum := by
  have hperm := (List.filter_append_perm own postings).map IdxPostingEntry.termFreq
  have hsum := hperm.sum_eq
  rw [List.map_append, List.sum_append] at hsum
  rw [← hsum]
  ring

theorem storesExactly_nil (h : Holds [] stored) : StoresExactly [] stored := by
  cases stored with
  | none => rfl
  | some block => exact absurd rfl h.1

theorem iterate_dropPosting_single (hone : postings.length = 1) (count : ℕ) :
    (dropPosting recnum)^[count + 1] postings = [] := by
  rw [Function.iterate_succ_apply, dropPosting, if_pos hone]
  exact Function.iterate_fixed (dropPosting_nil recnum) count

theorem iterate_dropPosting_many (hnodup : (postings.map IdxPostingEntry.recordNo).Nodup)
    (hmany : postings.length ≠ 1) (hsome : ∃ posting ∈ postings, isOf recnum posting = true)
    (count : ℕ) : (dropPosting recnum)^[count + 1] postings =
      if postings.length = 2 ∧ count ≠ 0 then [] else postings.eraseP (isOf recnum) := by
  obtain ⟨posting, hmem, hof⟩ := hsome
  have hlength := List.length_eraseP_of_mem hmem hof
  rw [Function.iterate_succ_apply, dropPosting, if_neg hmany]
  split
  · next htwo =>
    obtain ⟨rest, rfl⟩ := Nat.exists_eq_succ_of_ne_zero htwo.2
    exact iterate_dropPosting_single (by omega) rest
  · next hother =>
    rcases Nat.eq_zero_or_pos count with rfl | hpos
    · rfl
    · exact iterate_dropPosting_of_absent (by omega) (fun _ ↦ not_isOf_of_mem_eraseP hnodup) count

/-- Without the number of the record among several postings the block stays as it is. -/
theorem DropRun.unchanged (hrun : DropRun recnum htDatas old new) (hholds : Holds postings old)
    (hmany : postings.length ≠ 1) (hnone : ∀ posting ∈ postings, ¬isOf recnum posting = true) :
    new = old := by
  induction htDatas generalizing old with
  | nil => exact hrun
  | cons first rest ih =>
    obtain ⟨mid, hdrops, hmid⟩ := hrun
    have hsame := (hdrops postings hholds).2 hmany
    rw [if_neg fun hsome ↦ hsome.elim fun posting h ↦ hnone posting h.1 h.2] at hsame
    subst hsame
    exact ih hmid hholds

/-- Only the first component that is taken out changes the total. -/
theorem DropRun.total (hnodup : (postings.map IdxPostingEntry.recordNo).Nodup) {first : HtData}
    {rest : List HtData} (hrun : DropRun recnum (first :: rest) old new)
    (hholds : Holds postings old) (hmany : postings.length ≠ 1)
    (hsome : ∃ posting ∈ postings, isOf recnum posting = true)
    (hpair : ¬(postings.length = 2 ∧ rest ≠ [])) : totalOf new = totalOf old - first.termfreq := by
  obtain ⟨mid, hdrops, hmid⟩ := hrun
  obtain ⟨hleft, htotal⟩ := hdrops postings hholds
  rw [dropPosting, if_neg hmany] at hleft
  have hlost := htotal hmany
  rw [if_pos hsome] at hlost
  rw [← hlost]
  cases rest with
  | nil => rw [show new = mid from hmid]
  | cons next rest =>
    obtain ⟨posting, hmem, hof⟩ := hsome
    have hlength := List.length_eraseP_of_mem hmem hof
    have hlarge : postings.length ≠ 2 := fun htwo ↦ hpair ⟨htwo, List.cons_ne_nil _ _⟩
    have hpos := List.length_pos_of_mem hmem
    rw [hmid.unchanged hleft (by omega) fun _ ↦ not_isOf_of_mem_eraseP hnodup]

theorem filter_not_eq_self_iff :
    (postings.filter fun posting ↦ !own posting) = postings ↔ postings.filter own = [] := by
  rw [List.filter_eq_self, List.filter_eq_nil_iff]
  simp only [Bool.not_eq_eq_eq_not, Bool.not_true, Bool.not_eq_true]

theorem filter_not_eq_nil_iff :
    (postings.filter fun posting ↦ !own posting) = [] ↔ postings.filter own = postings := by
  rw [List.filter_eq_self, List.filter_eq_nil_iff]
  simp only [Bool.not_eq_eq_eq_not, Bool.not_true, Bool.not_eq_false]

/-- A block that is as it was holds no posting of the record's components. -/
theorem storesExactly_same_iff (hstores : StoresExactly postings stored) :
    StoresExactly (postings.filter fun posting ↦ !own posting) stored ↔
      postings.filter own = [] := by
  rw [← filter_not_eq_self_iff]
  constructor
  · intro h
    exact ((storesExactly_iff _ _).mp h).1.unique ((storesExactly_iff _ _).mp hstores).1
  · intro hself
    rwa [hself]

/-- A block that is gone held no posting of another component. -/
theorem storesExactly_gone_iff (hgone : Holds [] stored) :
    StoresExactly (postings.filter fun posting ↦ !own posting) stored ↔
      postings.filter own = postings := by
  rw [← filter_not_eq_nil_iff]
  constructor
  · exact fun h ↦ ((storesExactly_iff _ _).mp h).1.unique hgone
  · intro hnil
    rw [hnil]
    exact storesExactly_nil hgone

theorem storesExactly_iff_removable (hnodup : (postings.map IdxPostingEntry.recordNo).Nodup)
    (hstores : StoresExactly postings old) (hrun : DropRun recnum htDatas old new) :
    StoresExactly (postings.filter fun posting ↦ !own posting) new ↔
      Removable recnum own postings (htDatas.map fun htData ↦ (htData.termfreq : ℤ)) := by
  obtain ⟨hholds, htotal⟩ := (storesExactly_iff postings old).mp hstores
  have hdone := hrun.holds hholds
  cases htDatas with
  | nil =>
    rw [show new = old from hrun, storesExactly_same_iff hstores]
    simp [Removable]
  | cons first rest =>
    rw [List.length_cons] at hdone
    by_cases hone : postings.length = 1
    · rw [iterate_dropPosting_single hone] at hdone
      rw [storesExactly_gone_iff hdone]
      simp [Removable, hone]
    by_cases hsome : ∃ posting ∈ postings, isOf recnum posting = true
    · have hfound : ¬∀ posting ∈ postings, ¬isOf recnum posting = true := by
        push Not
        exact hsome
      rw [iterate_dropPosting_many hnodup hone hsome] at hdone
      by_cases hpair : postings.length = 2 ∧ rest ≠ []
      · -- both postings are taken out
        rw [if_pos ⟨hpair.1, fun hzero ↦ hpair.2 (List.length_eq_zero_iff.mp hzero)⟩] at hdone
        have hlength := List.length_pos_of_ne_nil hpair.2
        rw [storesExactly_gone_iff hdone]
        constructor
        · exact fun hall ↦ .inr (.inr (.inr ⟨by simp; omega, hpair.1, hall, hsome⟩))
        · rintro (⟨-, hnil | hnone⟩ | ⟨-, hsingle, -⟩ | ⟨freq, others, htaken, -, -, hbad⟩ | hboth)
          · cases hnil
          · exact absurd hnone.2 hfound
          · exact absurd hsingle hone
          · rw [List.map_cons, List.cons.injEq] at htaken
            exact absurd ⟨hpair.1, fun hnil ↦ hpair.2 (by simpa [hnil] using htaken.2)⟩ hbad
          · exact hboth.2.2.1
      · -- one of several postings is taken out
        obtain ⟨posting, hmem, hof⟩ := id hsome
        rw [if_neg fun h ↦ hpair ⟨h.1, fun hnil ↦ h.2 (by rw [hnil]; rfl)⟩] at hdone
        have hlost := hrun.total hnodup hholds hone hsome hpair
        have hiff : StoresExactly (postings.filter fun posting ↦ !own posting) new ↔
            postings.filter own = [⟨recnum.1, first.termfreq⟩] := by
          have hnumber := isOf_iff.mp hof
          rw [storesExactly_iff, hlost, htotal, sum_filter_not]
          constructor
          · rintro ⟨hleft, hsum⟩
            have hown := (eraseP_eq_filter_iff hnodup hmem hof).mp (hdone.unique hleft)
            rw [hown, List.map_singleton, List.sum_singleton] at hsum
            rw [hown, ← hnumber, show (first.termfreq : ℤ) = posting.termFreq by omega]
          · intro hown
            have hin : ⟨recnum.1, first.termfreq⟩ ∈ postings.filter own := by
              rw [hown]
              exact List.mem_singleton_self _
            have hsame : posting = ⟨recnum.1, first.termfreq⟩ :=
              List.inj_on_of_nodup_map hnodup hmem (List.mem_filter.mp hin).1 hnumber
            rw [← (eraseP_eq_filter_iff hnodup hmem hof).mpr (hsame ▸ hown), hown]
            exact ⟨hdone, by simp⟩
        rw [hiff]
        constructor
        · exact fun hown ↦ .inr (.inr (.inl ⟨_, _, List.map_cons .., hown, hone,
            fun hbad ↦ hpair ⟨hbad.1, fun hnil ↦ hbad.2 (by rw [hnil]; rfl)⟩⟩))
        · rintro (⟨-, hnil | hnone⟩ | ⟨-, hsingle, -⟩ | ⟨freq, others, htaken, hown, -⟩ | hboth)
          · cases hnil
          · exact absurd hnone.2 hfound
          · exact absurd hsingle hone
          · rw [List.map_cons, List.cons.injEq] at htaken
            rw [htaken.1, hown]
          · have hlength := hboth.1
            rw [List.length_map, List.length_cons] at hlength
            refine absurd ⟨hboth.2.1, fun hnil ↦ ?_⟩ hpair
            rw [hnil] at hlength
            exact absurd hlength (by decide)
    · -- the number of the record is not among several postings
      have hnone : ∀ posting ∈ postings, ¬isOf recnum posting = true :=
        fun posting hmem hof ↦ hsome ⟨posting, hmem, hof⟩
      rw [hrun.unchanged hholds hone hnone, storesExactly_same_iff hstores]
      constructor
      · exact fun hnil ↦ .inl ⟨hnil, .inr ⟨hone, hnone⟩⟩
      · rintro (⟨hnil, -⟩ | ⟨-, hsingle, -⟩ | ⟨freq, others, -, hown, -⟩ | ⟨-, -, -, hfound⟩)
        · exact hnil
        · exact absurd hsingle hone
        · have hin : ⟨recnum.1, freq⟩ ∈ postings.filter own := by
            rw [hown]
            exact List.mem_singleton_self _
          exact absurd (isOf_iff.mpr rfl) (hnone _ (List.mem_filter.mp hin).1)
        · exact absurd hfound hsome

end Exactness

end Cheshire.Index
