import Cheshire.Index.PrimaryKey
import Cheshire.Index.BatchAgreement
import Cheshire.Lib.KeyPolicy
import Cheshire.Lib.Runs

/-!
# One record for every primary key

The specification keeps the records in the order in which they are loaded: the entry of a key is its
first record, or under `PRIMARYREPLACE` its last one, and the other indexes hold the records of the
entries and no others.  A state stands for a map from the keys to records; adding a record and
reading a line of a batch admit a record to this map.  A line whose key is in the index before the
batch always starts a new block, also where the record is reported to be ignored.
-/

namespace Cheshire.Index

open Lib Function

/-- The stored block of the record that has a key. -/
def EntryOf : Option RecordNumber → Option IdxResult → Prop
  | none, stored => stored = none
  | some recnum, stored => ∃ block termFreq, stored = some block ∧ block.numEntries = 1 ∧
      block.entries = [⟨recnum.1, termFreq⟩]

/-- The primary key index has the entries, and the other indexes hold their records. -/
structure Represents (file : KeyedFile) (replace : Bool) (s : PrimaryState)
    (entries : Term → Option RecordNumber) : Prop where
  inverted : Inverted s.idx
  replaces : s.idx.has PRIMARYREPLACE = replace
  terms : ∀ key, EntryOf (entries key) (s.idx.terms key)
  keys : ∀ key recnum, entries key = some recnum → file.key recnum = key
  live : ∀ recnum, s.indexed recnum = true ↔ entries (file.key recnum) = some recnum
  kept : ∀ key recnum, entries key = some recnum → s.deleted recnum = false

variable {block : IdxResult}

theorem EntryOf.numEntries {entry : Option RecordNumber}
    (h : EntryOf entry (some block)) : block.numEntries = 1 := by
  cases entry with
  | none => cases h
  | some recnum =>
    obtain ⟨_, _, hblock, hcount, -⟩ := h
    cases hblock
    exact hcount

theorem EntryOf.sound {entry : Option RecordNumber}
    (h : EntryOf entry (some block)) : block.Sound := by
  cases entry with
  | none => cases h
  | some recnum =>
    obtain ⟨_, _, hblock, hcount, hentries⟩ := h
    cases hblock
    exact ⟨by omega, by simp [hcount, hentries]⟩

theorem entryOf_newBlock (termid : ℤ) (recnum : RecordNumber) (termfreq : ℕ) :
    EntryOf (some recnum) (some (newBlock termid recnum termfreq)) := ⟨_, _, rfl, rfl, rfl⟩

variable {old recnum : RecordNumber} {key : Term}

section Represents

variable {file : KeyedFile} {replace : Bool} {s : PrimaryState}
  {entries : Term → Option RecordNumber}

theorem Represents.sound (h : Represents file replace s entries) (key : Term) (block : IdxResult)
    (hblock : s.idx.terms key = some block) : block.Sound :=
  (hblock ▸ h.terms key : EntryOf _ (some block)).sound

theorem recordOf_natCast (recnum : RecordNumber) : recordOf (recnum.1 : ℤ) = some recnum := by
  rw [recordOf, dif_pos (by simpa using recnum.2)]
  simp

theorem find?_hash (file : KeyedFile) (recnum : RecordNumber) (key : Term) :
    (file.hash recnum).find? key =
      if key = file.key recnum then some (file.htData recnum) else none := by
  by_cases heq : key = file.key recnum
  · simp [TermHash.find?, KeyedFile.hash, heq]
  · rw [TermHash.find?, KeyedFile.hash, List.lookup_cons, beq_eq_false_iff_ne.mpr heq, if_neg heq]
    rfl

theorem deleteOld_spec (file : KeyedFile) (s : PrimaryState) (hinverted : Inverted s.idx)
    (hsound : ∀ key block, s.idx.terms key = some block → block.Sound)
    (hkept : s.deleted old = false)
    (hsingle : ∀ block, s.idx.terms (file.key old) = some block → block.numEntries = 1) :
    ∃ idx', deleteOld file s (old.1 : ℤ) = .ok ⟨idx', update s.deleted old true,
        update s.indexed old false⟩ ∧ idx'.idxType = s.idx.idxType ∧
      ∀ key, idx'.terms key = if key = file.key old then none else s.idx.terms key := by
  obtain ⟨idx', hdel, htype, hterms⟩ := inKwdel_spec hinverted hsound old (file.hash old)
  refine ⟨idx', ?_, htype, ?_⟩
  · have hread : getSgml file s old = some (file.hash old) := by simp [getSgml, hkept]
    rw [deleteOld, recordOf_natCast]
    simp only [hread, hdel]
    rfl
  · intro key
    have hterm := hterms key
    rw [find?_hash] at hterm
    by_cases hkey : key = file.key old
    · rw [if_pos hkey] at hterm ⊢
      subst hkey
      generalize s.idx.terms (file.key old) = stored at hterm hsingle
      generalize idx'.terms (file.key old) = stored' at hterm
      cases hterm with
      | missing => rfl
      | deleted => rfl
      | absent hmany => exact absurd (hsingle _ rfl) hmany
      | taken hmany => exact absurd (hsingle _ rfl) hmany
    · rw [if_neg hkey] at hterm ⊢
      exact hterm

/-- A record that has been deleted or has the entry of its key. -/
def Known (file : KeyedFile) (s : PrimaryState) (entries : Term → Option RecordNumber)
    (recnum : RecordNumber) : Prop :=
  s.deleted recnum = true ∨ entries (file.key recnum) = some recnum

theorem kept_of_not_known (h : ¬Known file s entries recnum) : s.deleted recnum = false := by
  rw [← Bool.not_eq_true]
  exact fun hdel ↦ h (.inl hdel)

theorem known_take {s' : PrimaryState} {other : RecordNumber}
    (hdeleted : s'.deleted other = true → Known file s entries other)
    (h : Known file s' (KeyPolicy.take replace entries (file.key recnum, recnum)) other) :
    Known file s entries other ∨ other = recnum := by
  rcases h with hdel | hentry
  · exact .inl (hdeleted hdel)
  · rw [KeyPolicy.take] at hentry
    split at hentry
    · by_cases hkey : file.key other = file.key recnum
      · rw [hkey, update_self, Option.some.injEq] at hentry
        exact .inr hentry.symm
      · rw [update_of_ne hkey] at hentry
        exact .inl (.inr hentry)
    · exact .inl (.inr hentry)

theorem Represents.take (h : Represents file replace s entries) {s' : PrimaryState}
    (htype : s'.idx.idxType = s.idx.idxType)
    (hentry : EntryOf (some recnum) (s'.idx.terms (file.key recnum)))
    (hother : ∀ key ≠ file.key recnum, s'.idx.terms key = s.idx.terms key)
    (hlive : ∀ other, s'.indexed other = true ↔
      other = recnum ∨ file.key other ≠ file.key recnum ∧ s.indexed other = true)
    (hkept : s'.deleted recnum = false)
    (hdeleted : ∀ other, file.key other ≠ file.key recnum → s'.deleted other = s.deleted other) :
    Represents file replace s' (update entries (file.key recnum) (some recnum)) := by
  constructor
  · exact h.inverted.of_idxType htype
  · rw [← h.replaces]
    exact has_of_idxType htype _
  · intro key
    by_cases hkey : key = file.key recnum
    · rw [hkey, update_self]
      exact hentry
    · rw [update_of_ne hkey, hother key hkey]
      exact h.terms key
  · intro key other hother
    by_cases hkey : key = file.key recnum
    · rw [hkey, update_self, Option.some.injEq] at hother
      rw [hkey, hother]
    · rw [update_of_ne hkey] at hother
      exact h.keys key other hother
  · intro other
    rw [hlive]
    by_cases hkey : file.key other = file.key recnum
    · rw [hkey, update_self, Option.some.injEq]
      simp only [ne_eq, not_true_eq_false, false_and, or_false]
      exact eq_comm
    · rw [update_of_ne hkey, ← h.live other]
      have hne : other ≠ recnum := fun heq ↦ hkey (heq ▸ rfl)
      simp [hkey, hne]
  · intro key other hother
    by_cases hkey : key = file.key recnum
    · rw [hkey, update_self, Option.some.injEq] at hother
      rw [← hother]
      exact hkept
    · rw [update_of_ne hkey] at hother
      have hkeyOther := h.keys key other hother
      rw [hdeleted other (fun heq ↦ hkey (hkeyOther.symm.trans heq))]
      exact h.kept key other hother

theorem Appended.entryOf {termfreq : ℕ}
    (h : Appended recnum termfreq none block) : EntryOf (some recnum) (some block) := by
  have hcount := h.sound.length_postings
  have hnonneg := h.sound.nonneg
  have hpostings := h.postings
  have hsize := h.size
  rw [hpostings] at hcount
  simp only [Option.elim_none, List.nil_append, List.length_singleton] at hcount hsize hpostings
  rw [IdxResult.postings, List.take_of_length_le (by omega)] at hpostings
  exact ⟨block, termfreq, rfl, by omega, hpostings⟩

theorem Represents.inKwadd (h : Represents file replace s entries)
    (hkept : s.deleted recnum = false) (hfree : entries (file.key recnum) = none) :
    ∃ idx', Index.inKwadd s.idx recnum (file.hash recnum) = .ok idx' ∧
      Represents file replace ⟨idx', s.deleted, update s.indexed recnum true⟩
        (update entries (file.key recnum) (some recnum)) := by
  obtain ⟨idx', hadd, htype, hterms⟩ := inKwadd_spec h.inverted h.sound recnum (file.hash recnum)
  refine ⟨idx', hadd, h.take htype ?_ ?_ ?_ hkept (fun _ _ ↦ rfl)⟩
  · have hterm := hterms (file.key recnum)
    rw [find?_hash, if_pos rfl] at hterm
    obtain ⟨block, hblock, happended⟩ := hterm
    have hold := h.terms (file.key recnum)
    rw [hfree] at hold
    rw [show s.idx.terms (file.key recnum) = none from hold] at happended
    rw [hblock]
    exact happended.entryOf
  · intro key hkey
    have hterm := hterms key
    rw [find?_hash, if_neg hkey] at hterm
    exact hterm
  · intro other
    by_cases hother : other = recnum
    · simp [hother]
    · have hnot : file.key other = file.key recnum → ¬s.indexed other = true := by
        intro hkey hindexed
        rw [h.live, hkey, hfree] at hindexed
        cases hindexed
      simp only [update_of_ne hother, hother, false_or]
      constructor
      · intro hindexed
        exact ⟨fun hkey ↦ hnot hkey hindexed, hindexed⟩
      · exact And.right

theorem Represents.deleteOld (h : Represents file replace s entries)
    (hentry : entries key = some old) : ∃ s', Index.deleteOld file s (old.1 : ℤ) = .ok s' ∧
      s'.deleted = update s.deleted old true ∧
      Represents file replace s' (update entries key none) := by
  have hkey := h.keys key old hentry
  obtain ⟨idx', hdel, htype, hterms⟩ := deleteOld_spec file s h.inverted h.sound (h.kept key old hentry)
    (fun block hblock ↦ (hblock ▸ h.terms _ : EntryOf _ (some block)).numEntries)
  rw [hkey] at hterms
  refine ⟨_, hdel, rfl, ?_⟩
  constructor
  · exact h.inverted.of_idxType htype
  · rw [← h.replaces]
    exact has_of_idxType htype _
  · intro other
    by_cases hother : other = key
    · rw [hother, update_self, hterms, if_pos rfl]
      rfl
    · rw [update_of_ne hother, hterms, if_neg hother]
      exact h.terms other
  · intro other recnum hother
    by_cases heq : other = key
    · rw [heq, update_self] at hother
      cases hother
    · rw [update_of_ne heq] at hother
      exact h.keys other recnum hother
  · intro recnum
    by_cases heq : recnum = old
    · simp [heq, hkey]
    · simp only [update_of_ne heq]
      rw [h.live]
      by_cases hsame : file.key recnum = key
      · simp [hsame, hentry, Ne.symm heq]
      · rw [update_of_ne hsame]
  · intro other recnum hother
    by_cases heq : other = key
    · rw [heq, update_self] at hother
      cases hother
    · rw [update_of_ne heq] at hother
      have hne : recnum ≠ old := by
        intro hsame
        exact heq ((h.keys other recnum hother).symm.trans (hsame ▸ hkey))
      simp only [update_of_ne hne]
      exact h.kept other recnum hother

/-- One record is admitted; under `PRIMARYREPLACE` it must not be older than the one it replaces. -/
theorem Represents.inKwaddRecord (h : Represents file replace s entries)
    (hfresh : ¬Known file s entries recnum)
    (hnewer : replace = true → ∀ old, entries (file.key recnum) = some old → old.1 < recnum.1) :
    ∃ s', Index.inKwaddRecord file s recnum = .ok s' ∧
      Represents file replace s' (KeyPolicy.take replace entries (file.key recnum, recnum)) ∧
      ∀ other, s'.deleted other = true → Known file s entries other := by
  have hfreshKept := kept_of_not_known hfresh
  have hread : getSgml file s recnum = some (file.hash recnum) := by simp [getSgml, hfreshKept]
  have hterm := h.terms (file.key recnum)
  cases hentry : entries (file.key recnum) with
  | none =>
    rw [hentry] at hterm
    have hmissing : s.idx.terms (file.key recnum) = none := hterm
    have hcheck : checkPrimary file recnum (file.hash recnum).entries s = .ok (s, true) := by
      simp [KeyedFile.hash, checkPrimary, hmissing]
    obtain ⟨idx', hadd, hrep⟩ := h.inKwadd hfreshKept hentry
    refine ⟨⟨idx', s.deleted, update s.indexed recnum true⟩, ?_,
      by rwa [KeyPolicy.take, if_pos (.inr hentry)], fun _ hdel ↦ .inl hdel⟩
    simp only [Index.inKwaddRecord, hread, hcheck, bind, Except.bind, if_true, hadd]
  | some old =>
    rw [hentry] at hterm
    obtain ⟨block, termFreq, hblock, hcount, hentries⟩ := hterm
    have hfirst : postingAt block.entries 0 = .ok ⟨old.1, termFreq⟩ := by
      simp [postingAt, hentries]
    cases replace with
    | false =>
      have hcheck : checkPrimary file recnum (file.hash recnum).entries s = .ok (s, false) := by
        simp [KeyedFile.hash, checkPrimary, hblock, h.replaces]
      refine ⟨s, ?_, ?_, fun _ hdel ↦ .inl hdel⟩
      · simp [Index.inKwaddRecord, hread, hcheck, bind, Except.bind]
      · rwa [KeyPolicy.take, if_neg (by simp [hentry])]
    | true =>
      obtain ⟨s', hdel, hdeleted, hrep⟩ := h.deleteOld hentry
      have hlt := hnewer rfl old hentry
      have hcheck : checkPrimary file recnum (file.hash recnum).entries s = .ok (s', true) := by
        have hnot : ¬((old.1 : ℤ) > recnum.1) := by omega
        simp only [KeyedFile.hash, checkPrimary, hblock, h.replaces, hcount, hfirst, if_true,
          bind, Except.bind, hnot, if_false, hdel]
      have hne : recnum ≠ old := fun heq ↦ absurd hlt (heq ▸ lt_irrefl _)
      have hkept : s'.deleted recnum = false := by
        rw [hdeleted, update_of_ne hne]
        exact hfreshKept
      obtain ⟨idx', hadd, hrep'⟩ := hrep.inKwadd hkept (update_self _ _ _)
      rw [update_idem] at hrep'
      refine ⟨⟨idx', s'.deleted, update s'.indexed recnum true⟩, ?_,
        by rwa [KeyPolicy.take, if_pos (.inl rfl)], ?_⟩
      · simp only [Index.inKwaddRecord, hread, hcheck, bind, Except.bind, if_true, hadd]
      · intro other hother
        by_cases heq : other = old
        · right
          rw [heq, h.keys _ old hentry]
          exact hentry
        · left
          simpa [hdeleted, update_of_ne heq] using hother

end Represents

/-- What the loop stands for after the lines of some records: their records count as indexed unless
they are in the hash table. -/
def PrimaryBatch.after (b : PrimaryBatch) (past : List RecordNumber) : PrimaryState :=
  ⟨b.flush, b.s.deleted, fun recnum ↦
    b.s.indexed recnum || (decide (recnum ∈ past) && !decide ((recnum.1 : ℤ) ∈ b.dups))⟩

/-- The loop stands for the entries.  The accumulated block is of a record that was read, and its key
is not in the index. -/
structure BatchRepresents (file : KeyedFile) (replace : Bool) (b : PrimaryBatch)
    (entries : Term → Option RecordNumber) (past : List RecordNumber) : Prop where
  represents : Represents file replace (b.after past) entries
  missing : ∀ key block, b.pending = some (key, block) → b.s.idx.terms key = none
  current : ∀ key block, b.pending = some (key, block) → ∃ recnum ∈ past, entries key = some recnum
  read : ∀ recordNo ∈ b.dups, ∃ recnum ∈ past, recordNo = (recnum.1 : ℤ)

section Batch

variable {file : KeyedFile} {replace : Bool} {b : PrimaryBatch}
  {entries : Term → Option RecordNumber} {past : List RecordNumber}

@[simp] theorem idxType_flushPrimary : b.flush.idxType = b.s.idx.idxType := by
  rw [PrimaryBatch.flush]
  split <;> rfl

theorem terms_flushPrimary (h : b.pending = some (key, block)) (other : Term) :
    b.flush.terms other = if other = key then some block else b.s.idx.terms other := by
  rw [PrimaryBatch.flush, h]
  exact terms_putTerm _ _ _ _

theorem BatchRepresents.flush_inverted (h : BatchRepresents file replace b entries past) :
    Inverted b.s.idx :=
  h.represents.inverted.of_idxType idxType_flushPrimary.symm

theorem BatchRepresents.has_replace (h : BatchRepresents file replace b entries past) :
    b.s.idx.has PRIMARYREPLACE = replace := by
  rw [← h.represents.replaces]
  exact (has_of_idxType idxType_flushPrimary _).symm

theorem BatchRepresents.sound (h : BatchRepresents file replace b entries past) (key : Term)
    (block : IdxResult) (hblock : b.s.idx.terms key = some block) : block.Sound := by
  cases hpending : b.pending with
  | none =>
    apply h.represents.sound key block
    rw [PrimaryBatch.after, PrimaryBatch.flush, hpending]
    exact hblock
  | some pair =>
    have hne : key ≠ pair.1 := by
      intro heq
      rw [heq, h.missing pair.1 pair.2 hpending] at hblock
      cases hblock
    apply h.represents.sound key block
    change b.flush.terms key = some block
    rw [terms_flushPrimary hpending, if_neg hne, hblock]

theorem BatchRepresents.notMem_dups (h : BatchRepresents file replace b entries past)
    (hnew : recnum ∉ past) : (recnum.1 : ℤ) ∉ b.dups := by
  intro hmem
  obtain ⟨other, hother, heq⟩ := h.read _ hmem
  have hsame : recnum = other := Subtype.ext (by exact_mod_cast heq)
  exact hnew (hsame ▸ hother)

theorem after_drop (hnew : recnum ∉ past) :
    ({ b with dups := (recnum.1 : ℤ) :: b.dups } : PrimaryBatch).after (recnum :: past) =
      b.after past := by
  rw [PrimaryBatch.after, PrimaryBatch.after, PrimaryState.mk.injEq]
  refine ⟨rfl, rfl, ?_⟩
  funext other
  by_cases heq : other = recnum
  · simp [heq, hnew]
  · have hne : (other.1 : ℤ) ≠ recnum.1 := by
      intro hsame
      exact heq (Subtype.ext (by exact_mod_cast hsame))
    simp [heq, hne]

theorem BatchRepresents.drop (h : BatchRepresents file replace b entries past)
    {recnum : RecordNumber} (hnew : recnum ∉ past) :
    BatchRepresents file replace { b with dups := recnum.1 :: b.dups } entries
      (recnum :: past) where
  represents := by
    rw [after_drop hnew]
    exact h.represents
  missing := h.missing
  current key stored hstored := by
    obtain ⟨other, hother, hsome⟩ := h.current key stored hstored
    exact ⟨other, List.mem_cons_of_mem _ hother, hsome⟩
  read recordNo hmem := by
    rcases List.mem_cons.mp hmem with rfl | hmem
    · exact ⟨recnum, List.mem_cons_self, rfl⟩
    · obtain ⟨other, hother, heq⟩ := h.read recordNo hmem
      exact ⟨other, List.mem_cons_of_mem _ hother, heq⟩

theorem BatchRepresents.take (h : BatchRepresents file replace b entries past) {b' : PrimaryBatch}
    (hpending : b'.pending = some (file.key recnum, block))
    (hblock : EntryOf (some recnum) (some block)) (htype : b'.s.idx.idxType = b.s.idx.idxType)
    (hmissing : b'.s.idx.terms (file.key recnum) = none)
    (hother : ∀ key ≠ file.key recnum, b'.s.idx.terms key = b.flush.terms key)
    (hlive : ∀ other, (b'.after (recnum :: past)).indexed other = true ↔ other = recnum ∨
      file.key other ≠ file.key recnum ∧ (b.after past).indexed other = true)
    (hkept : b'.s.deleted recnum = false)
    (hdeleted : ∀ other, file.key other ≠ file.key recnum → b'.s.deleted other = b.s.deleted other)
    (hread : ∀ recordNo ∈ b'.dups, ∃ other ∈ past, recordNo = (other.1 : ℤ)) :
    BatchRepresents file replace b'
      (update entries (file.key recnum) (some recnum)) (recnum :: past) := by
  constructor
  · apply h.represents.take _ _ _ hlive hkept hdeleted
    · simp only [PrimaryBatch.after, idxType_flushPrimary]
      exact htype
    · simp only [PrimaryBatch.after]
      rw [terms_flushPrimary hpending, if_pos rfl]
      exact hblock
    · intro key hkey
      simp only [PrimaryBatch.after]
      rw [terms_flushPrimary hpending, if_neg hkey]
      exact hother key hkey
  · intro key stored hstored
    rw [hpending, Option.some.injEq, Prod.mk.injEq] at hstored
    rw [← hstored.1]
    exact hmissing
  · intro key stored hstored
    rw [hpending, Option.some.injEq, Prod.mk.injEq] at hstored
    rw [← hstored.1]
    exact ⟨recnum, List.mem_cons_self, update_self _ _ _⟩
  · intro recordNo hmem
    obtain ⟨other, hotherMem, heq⟩ := hread recordNo hmem
    exact ⟨other, List.mem_cons_of_mem _ hotherMem, heq⟩

theorem Represents.live_of_key {s : PrimaryState} (h : Represents file replace s entries)
    {other : RecordNumber} (hkey : file.key other = file.key recnum)
    (hentry : entries (file.key recnum) ≠ some other) : s.indexed other = false := by
  rw [← Bool.not_eq_true, h.live, hkey]
  exact hentry

theorem BatchRepresents.replacePending (h : BatchRepresents file true b entries past) (termfreq : ℕ)
    (hpending : b.pending = some (file.key recnum, block))
    (hentry : entries (file.key recnum) = some old) (hold : old ∈ past) (hnew : recnum ∉ past)
    (hfresh : ¬Known file (b.after past) entries recnum) :
    ∃ first s', postingAt block.entries 0 = .ok first ∧
      deleteOld file b.s first.recordNo = .ok s' ∧
      BatchRepresents file true ⟨s', some (file.key recnum, { block with
          entries := block.entries.set 0 ⟨recnum.1, termfreq⟩ }), first.recordNo :: b.dups⟩
        (update entries (file.key recnum) (some recnum)) (recnum :: past) ∧
      s'.deleted = update b.s.deleted old true ∧
      s'.idx.idxType = b.s.idx.idxType := by
  have hne : recnum ≠ old := fun heq ↦ hnew (heq ▸ hold)
  have hneNo : recnum.1 ≠ old.1 := fun hsame ↦ hne (Subtype.ext hsame)
  have hkeyOld := h.represents.keys _ _ hentry
  have hmissing := h.missing _ _ hpending
  have hkeptOld : b.s.deleted old = false := h.represents.kept _ _ hentry
  have hterm := h.represents.terms (file.key recnum)
  rw [hentry] at hterm
  obtain ⟨stored, termFreq, hstored, hcount, hentries⟩ := hterm
  change b.flush.terms (file.key recnum) = some stored at hstored
  rw [terms_flushPrimary hpending, if_pos rfl, Option.some.injEq] at hstored
  subst hstored
  obtain ⟨idx', hdel, htype, hterms⟩ := deleteOld_spec file b.s h.flush_inverted h.sound hkeptOld
    (by rw [hkeyOld, hmissing]; exact fun _ hnone ↦ nomatch hnone)
  rw [hkeyOld] at hterms
  refine ⟨⟨old.1, termFreq⟩, _, by simp [postingAt, hentries], hdel, ?_, rfl, htype⟩
  have hblock : EntryOf (some recnum) (some { block with
      entries := block.entries.set 0 ⟨recnum.1, termfreq⟩ }) :=
    ⟨_, termfreq, rfl, hcount, by simp [hentries]⟩
  apply h.take rfl hblock htype
  · rw [hterms, if_pos rfl]
  · intro key hkey
    rw [hterms, if_neg hkey, terms_flushPrimary hpending, if_neg hkey]
  · intro other
    by_cases hrecnum : other = recnum
    · have hdups := h.notMem_dups hnew
      simp [PrimaryBatch.after, hrecnum, hne, hneNo, hdups]
    · by_cases hsame : other = old
      · simp [PrimaryBatch.after, hsame, Ne.symm hne, hkeyOld]
      · have hsameNo : other.1 ≠ old.1 := fun heq ↦ hsame (Subtype.ext heq)
        have hlive : (PrimaryBatch.after ⟨⟨idx', update b.s.deleted old true,
            update b.s.indexed old false⟩, some (file.key recnum, { block with
              entries := block.entries.set 0 ⟨recnum.1, termfreq⟩ }), old.1 :: b.dups⟩
            (recnum :: past)).indexed other = (b.after past).indexed other := by
          simp [PrimaryBatch.after, hrecnum, hsame, hsameNo]
        rw [hlive]
        by_cases hkey : file.key other = file.key recnum
        · have hdead := h.represents.live_of_key hkey (by simp [hentry, Ne.symm hsame])
          simp [hdead, hrecnum]
        · simp [hkey, hrecnum]
  · change update b.s.deleted old true recnum = false
    rw [update_of_ne hne]
    exact kept_of_not_known hfresh
  · intro other hkey
    have hsame : other ≠ old := fun heq ↦ hkey (heq ▸ hkeyOld)
    change update b.s.deleted old true other = b.s.deleted other
    rw [update_of_ne hsame]
  · intro recordNo hmem
    rcases List.mem_cons.mp hmem with rfl | hmem
    · exact ⟨old, hold, rfl⟩
    · exact h.read recordNo hmem

theorem BatchRepresents.start (h : BatchRepresents file replace b entries past) (s' : PrimaryState)
    (termfreq : ℕ) (hgroup : ∀ other ∈ past, file.key other ≠ file.key recnum)
    (hnew : recnum ∉ past) (htype : s'.idx.idxType = b.s.idx.idxType)
    (hmissing : s'.idx.terms (file.key recnum) = none)
    (hother : ∀ key ≠ file.key recnum, s'.idx.terms key = b.flush.terms key)
    (hindexed : ∀ other, s'.indexed other = true ↔
      file.key other ≠ file.key recnum ∧ b.s.indexed other = true)
    (hkept : s'.deleted recnum = false)
    (hdeleted : ∀ other, file.key other ≠ file.key recnum → s'.deleted other = b.s.deleted other) :
    BatchRepresents file replace ⟨{ s' with idx := s'.idx.takeTermid.addOccur termfreq },
        some (file.key recnum, newBlock s'.idx.globalData.recptr recnum termfreq), b.dups⟩
      (update entries (file.key recnum) (some recnum)) (recnum :: past) := by
  refine h.take rfl (entryOf_newBlock _ _ _) htype hmissing hother ?_ hkept hdeleted ?_
  swap
  · exact h.read
  intro other
  by_cases hrecnum : other = recnum
  · have hdups := h.notMem_dups hnew
    simp [PrimaryBatch.after, hrecnum, hdups]
  · by_cases hkey : file.key other = file.key recnum
    · have hnot : other ∉ past := fun hmem ↦ hgroup other hmem hkey
      have hdead : s'.indexed other = false := by
        rw [← Bool.not_eq_true, hindexed]
        exact fun hboth ↦ hboth.1 hkey
      simp [PrimaryBatch.after, hrecnum, hkey, hnot, hdead]
    · have hsame : s'.indexed other = b.s.indexed other := by
        rw [Bool.eq_iff_iff, hindexed]
        simp [hkey]
      simp [PrimaryBatch.after, hrecnum, hkey, hsame]

/-- A line with another key is admitted, unless records with a key in the index are to be ignored. -/
theorem BatchRepresents.newPrimary (h : BatchRepresents file replace b entries past)
    {item : BatchItem} (hkey : file.key item.recnum = item.key)
    (hgroup : ∀ other ∈ past, file.key other ≠ item.key) (hnew : item.recnum ∉ past)
    (hfresh : ¬Known file (b.after past) entries item.recnum)
    (hfree : replace = false → entries item.key = none) :
    ∃ b', Index.newPrimary file b item = .ok b' ∧
      BatchRepresents file replace b' (KeyPolicy.take replace entries (item.key, item.recnum))
        (item.recnum :: past) ∧
      b'.pending.map Prod.fst = some item.key ∧
      (∀ other, b'.s.deleted other = true → Known file (b.after past) entries other) ∧
      b'.s.idx.idxType = b.s.idx.idxType ∧ b'.dups = b.dups := by
  rw [← hkey] at hgroup hfree
  have hkept : b.s.deleted item.recnum = false := kept_of_not_known hfresh
  have hterm : EntryOf (entries (file.key item.recnum)) (b.flush.terms (file.key item.recnum)) :=
    h.represents.terms _
  -- what was indexed before the batch, under other keys, stays so
  have hindexed (other : RecordNumber) (hsame : file.key other = file.key item.recnum)
      (hentry : entries (file.key item.recnum) ≠ some other) : b.s.indexed other = false := by
    have hdead := h.represents.live_of_key hsame hentry
    simp only [PrimaryBatch.after, Bool.or_eq_false_iff] at hdead
    exact hdead.1
  rw [← hkey]
  cases hentry : entries (file.key item.recnum) with
  | none =>
    rw [hentry] at hterm
    have hmissing : b.flush.terms (file.key item.recnum) = none := hterm
    rw [KeyPolicy.take, if_pos (.inr hentry)]
    refine ⟨_, by rw [Index.newPrimary, ← hkey]; simp only [hmissing]; rfl,
      h.start { b.s with idx := b.flush } item.termfreq hgroup hnew idxType_flushPrimary
        hmissing (fun _ _ ↦ rfl) ?_ hkept (fun _ _ ↦ rfl), rfl, fun _ hdel ↦ .inl hdel,
      idxType_flushPrimary, rfl⟩
    intro other
    rw [iff_and_self]
    intro hlive hsame
    rw [hindexed other hsame (by simp [hentry])] at hlive
    cases hlive
  | some old =>
    rw [hentry] at hterm
    obtain ⟨block, termFreq, hblock, hcount, hentries⟩ := hterm
    have hreplace : replace = true := by
      rw [← Bool.not_eq_false]
      intro hignore
      rw [hfree hignore] at hentry
      cases hentry
    have hkeyOld := h.represents.keys _ _ hentry
    have hfirst : postingAt block.entries 0 = .ok ⟨old.1, termFreq⟩ := by
      simp [postingAt, hentries]
    have hne : item.recnum ≠ old := fun heq ↦ hfresh (.inr (heq ▸ hentry))
    obtain ⟨idx', hdel, htype, hterms⟩ := deleteOld_spec file
      { b.s with idx := b.flush } h.represents.inverted h.represents.sound
      (h.represents.kept _ _ hentry)
      (fun stored hstored ↦ (hstored ▸ h.represents.terms _ :
        EntryOf _ (some stored)).numEntries)
    rw [hkeyOld] at hterms
    rw [KeyPolicy.take, if_pos (.inl hreplace)]
    refine ⟨_, ?_, h.start ⟨idx', update b.s.deleted old true,
      update b.s.indexed old false⟩ item.termfreq hgroup hnew ?_ ?_ ?_ ?_ ?_ ?_,
      rfl, ?_, htype.trans idxType_flushPrimary, rfl⟩
    · have hhas : b.flush.has PRIMARYREPLACE = true := by
        rw [has_of_idxType idxType_flushPrimary, h.has_replace, hreplace]
      rw [Index.newPrimary, ← hkey]
      simp only [hblock, foundPrimary, hhas, hcount, hfirst, if_true, hdel, bind, Except.bind]
    · exact htype.trans idxType_flushPrimary
    · rw [hterms, if_pos rfl]
    · intro key hother
      rw [hterms, if_neg hother]
    · intro other
      by_cases hother : other = old
      · simp [hother, hkeyOld]
      · simp only [update_of_ne hother]
        rw [iff_and_self]
        intro hlive hsame
        rw [hindexed other hsame (by simp [hentry, Ne.symm hother])] at hlive
        cases hlive
    · simp only [update_of_ne hne]
      exact hkept
    · intro other hother
      have hsame : other ≠ old := fun heq ↦ hother (heq ▸ hkeyOld)
      simp only [update_of_ne hsame]
    · intro other hother
      by_cases hsame : other = old
      · right
        rw [hsame, hkeyOld]
        exact hentry
      · left
        simp only [update_of_ne hsame] at hother
        exact hother

/-- A line with the key of the line before is admitted: under `PRIMARYREPLACE` it takes the block
over, otherwise its record goes into the hash table. -/
theorem BatchRepresents.samePrimary (h : BatchRepresents file replace b entries past)
    {item : BatchItem} (hkey : file.key item.recnum = item.key)
    (hpending : b.pending = some (item.key, block)) (hnew : item.recnum ∉ past)
    (hfresh : ¬Known file (b.after past) entries item.recnum) :
    ∃ b', Index.samePrimary file b block item = .ok b' ∧
      BatchRepresents file replace b' (KeyPolicy.take replace entries (item.key, item.recnum))
        (item.recnum :: past) ∧
      b'.pending.map Prod.fst = some item.key ∧
      (∀ other, b'.s.deleted other = true → Known file (b.after past) entries other) ∧
      b'.s.idx.idxType = b.s.idx.idxType := by
  obtain ⟨old, hold, hentry⟩ := h.current _ _ hpending
  rw [Index.samePrimary, h.has_replace]
  cases replace with
  | false =>
    have htake : KeyPolicy.take false entries (item.key, item.recnum) = entries := by
      rw [KeyPolicy.take, if_neg (by simp [hentry])]
    rw [htake]
    exact ⟨_, rfl, h.drop hnew, by simp [hpending], fun _ hdel ↦ .inl hdel, rfl⟩
  | true =>
    rw [← hkey] at hpending hentry
    obtain ⟨first, s', hfirst, hdel, hrep, hdeleted, htype⟩ :=
      h.replacePending item.termfreq hpending hentry hold hnew hfresh
    have htake : KeyPolicy.take true entries (file.key item.recnum, item.recnum) =
        update entries (file.key item.recnum) (some item.recnum) := by
      rw [KeyPolicy.take, if_pos (.inl rfl)]
    rw [← hkey, htake]
    refine ⟨_, by simp only [if_true]; simp only [hfirst, hdel, bind, Except.bind], hrep, rfl, ?_, htype⟩
    intro other hother
    by_cases hsame : other = old
    · right
      rw [hsame, h.represents.keys _ _ hentry]
      exact hentry
    · left
      simp only [hdeleted, update_of_ne hsame] at hother
      exact hother

theorem BatchRepresents.item (h : BatchRepresents file replace b entries past) {item : BatchItem}
    (hkey : file.key item.recnum = item.key) (hfits : lineLength b.s.idx item ≤ TEMP_BUFFER_SIZE)
    (hgroup : ∀ other ∈ past, file.key other = item.key →
      b.pending.map Prod.fst = some item.key)
    (hfree : replace = false → entries item.key ≠ none → b.pending.map Prod.fst = some item.key)
    (hnew : item.recnum ∉ past) (hfresh : ¬Known file (b.after past) entries item.recnum) :
    ∃ b', batchPrimaryItem file b item = .ok b' ∧
      BatchRepresents file replace b' (KeyPolicy.take replace entries (item.key, item.recnum))
        (item.recnum :: past) ∧
      b'.pending.map Prod.fst = some item.key ∧
      (∀ other, b'.s.deleted other = true → Known file (b.after past) entries other) ∧
      b'.s.idx.idxType = b.s.idx.idxType ∧
      (b.pending.map Prod.fst ≠ some item.key → b'.dups = b.dups) := by
  rw [batchPrimaryItem, if_neg (not_lt.mpr hfits), if_neg (h.notMem_dups hnew)]
  by_cases hsame : b.pending.map Prod.fst = some item.key
  · obtain ⟨pair, hpending, hpair⟩ := Option.map_eq_some_iff.mp hsame
    obtain ⟨key, block⟩ := pair
    simp only at hpair
    subst hpair
    obtain ⟨b', hstep, hrep, hpending', hdeleted, htype⟩ := h.samePrimary hkey hpending hnew hfresh
    refine ⟨b', ?_, hrep, hpending', hdeleted, htype, fun hne ↦ absurd hsame hne⟩
    simp only [hpending, if_true, hstep]
  · obtain ⟨b', hstep, hrep, hpending', hdeleted, htype, hdups⟩ := h.newPrimary hkey
      (fun other hother hkeys ↦ hsame (hgroup other hother hkeys)) hnew hfresh
      (fun hignore ↦ by_contra fun hsome ↦ hsame (hfree hignore hsome))
    refine ⟨b', ?_, hrep, hpending', hdeleted, htype, fun _ ↦ hdups⟩
    cases hpending : b.pending with
    | none => exact hstep
    | some pair =>
      have hne : pair.1 ≠ item.key := by
        intro heq
        rw [hpending, Option.map_some, heq] at hsame
        exact hsame rfl
      simp only [if_neg hne, hstep]

end Batch

theorem map_toNat_injective {word other : Term}
    (h : word.map UInt8.toNat = other.map UInt8.toNat) : word = other :=
  List.map_injective_iff.mpr (fun _ _ heq ↦ UInt8.toNat_inj.mp heq) h

theorem key_eq_of_between {first item last : BatchItem} (hfirst : sortKey first ≤ sortKey item)
    (hlast : sortKey item ≤ sortKey last) (hkey : first.key = last.key) : item.key = first.key := by
  have hle : first.key.map UInt8.toNat ++ [9] ≤ item.key.map UInt8.toNat ++ [9] := by
    rcases Prod.Lex.toLex_le_toLex.mp hfirst with hlt | ⟨heq, -⟩
    · exact hlt.le
    · exact heq.le
  have hge : item.key.map UInt8.toNat ++ [9] ≤ last.key.map UInt8.toNat ++ [9] := by
    rcases Prod.Lex.toLex_le_toLex.mp hlast with hlt | ⟨heq, -⟩
    · exact hlt.le
    · exact heq.le
  rw [← hkey] at hge
  exact map_toNat_injective (List.append_cancel_right (le_antisymm hge hle))

theorem sorted_sortItems (items : List BatchItem) :
    (sortItems items).Pairwise fun a b ↦ sortKey a ≤ sortKey b :=
  List.pairwise_insertionSort _ _

/-- What the lines of a batch have to be for the loop, when some of them have been read. -/
structure Lines (file : KeyedFile) (b : PrimaryBatch) (done items : List BatchItem) : Prop where
  keys : ∀ item ∈ done ++ items, file.key item.recnum = item.key
  sorted : (done ++ items).Pairwise fun a b ↦ sortKey a ≤ sortKey b
  distinct : ((done ++ items).map BatchItem.recnum).Nodup
  fits : ∀ item ∈ items, lineLength b.s.idx item ≤ TEMP_BUFFER_SIZE
  last : b.pending.map Prod.fst = done.getLast?.map BatchItem.key

theorem Lines.pending_of_mem {file : KeyedFile} {b : PrimaryBatch} {done items : List BatchItem}
    {item earlier : BatchItem} (h : Lines file b done (item :: items)) (hmem : earlier ∈ done)
    (hkey : earlier.key = item.key) : b.pending.map Prod.fst = some item.key := by
  obtain ⟨front, last, rfl⟩ : ∃ front last, done = front ++ [last] := by
    rcases List.eq_nil_or_concat done with rfl | ⟨front, last, rfl⟩
    · cases hmem
    · exact ⟨front, last, by simp⟩
  rw [h.last, List.getLast?_concat, Option.map_some, Option.some.injEq]
  have hsorted := List.pairwise_append.mp h.sorted
  have hlast := hsorted.2.2 last (by simp) item List.mem_cons_self
  rcases List.mem_append.mp hmem with hfront | hsame
  · have hfirst := (List.pairwise_append.mp hsorted.1).2.2 earlier hfront last (by simp)
    rw [key_eq_of_between hfirst hlast hkey, hkey]
  · rw [List.mem_singleton] at hsame
    rw [← hsame, hkey]

theorem Lines.next {file : KeyedFile} {b b' : PrimaryBatch} {done items : List BatchItem}
    {item : BatchItem} (h : Lines file b done (item :: items))
    (htype : b'.s.idx.idxType = b.s.idx.idxType)
    (hpending : b'.pending.map Prod.fst = some item.key) : Lines file b' (done ++ [item]) items where
  keys := by simpa using h.keys
  sorted := by simpa using h.sorted
  distinct := by simpa using h.distinct
  fits other hother := by
    rw [lineLength_of_idxType htype]
    exact h.fits other (List.mem_cons_of_mem _ hother)
  last := by
    rw [List.getLast?_concat, Option.map_some]
    exact hpending

theorem BatchRepresents.items {file : KeyedFile} {replace : Bool} (items : List BatchItem) :
    ∀ {b : PrimaryBatch} {entries : Term → Option RecordNumber} {done : List BatchItem}
    {past : List RecordNumber}, BatchRepresents file replace b entries past →
    Lines file b done items → (∀ recnum, recnum ∈ past ↔ ∃ item ∈ done, item.recnum = recnum) →
    (∀ item ∈ items, ¬Known file (b.after past) entries item.recnum) →
    (replace = false → ∀ item ∈ items, entries item.key ≠ none →
      ∃ earlier ∈ done, earlier.key = item.key) →
    ∃ b' past', batchPrimaryItems file items b = .ok b' ∧
      BatchRepresents file replace b' ((items.map fun item ↦ (item.key, item.recnum)).foldl
        (KeyPolicy.take replace) entries) past' ∧
      (∀ recnum, recnum ∈ past' ↔ ∃ item ∈ done ++ items, item.recnum = recnum) ∧
      (∀ other, b'.s.deleted other = true → Known file (b.after past) entries other ∨
        ∃ item ∈ items, item.recnum = other) ∧
      (((done ++ items).map BatchItem.key).Nodup → b'.dups = b.dups) := by
  induction items with
  | nil =>
    intro b entries done past h _ hpast _ _
    exact ⟨b, past, rfl, h, by simpa using hpast, fun _ hdel ↦ .inl (.inl hdel), fun _ ↦ rfl⟩
  | cons item items ih =>
    intro b entries done past h hlines hpast hfresh hfree
    have hkey := hlines.keys item (by simp)
    have hnew : item.recnum ∉ past := by
      rw [hpast]
      intro hmem
      obtain ⟨earlier, hearlier, heq⟩ := hmem
      have hdistinct := hlines.distinct
      rw [List.map_append, List.map_cons, List.nodup_append] at hdistinct
      exact hdistinct.2.2 _ (List.mem_map_of_mem hearlier) _ List.mem_cons_self heq
    obtain ⟨next, hstep, hrep, hpending, hdeleted, htype, hdups⟩ := h.item hkey
      (hlines.fits item List.mem_cons_self)
      (by
        intro other hother hsame
        obtain ⟨earlier, hearlier, rfl⟩ := (hpast other).mp hother
        apply hlines.pending_of_mem hearlier
        rw [← hsame, hlines.keys earlier (by simp [hearlier])])
      (by
        intro hignore hsome
        obtain ⟨earlier, hearlier, hsame⟩ := hfree hignore item List.mem_cons_self hsome
        exact hlines.pending_of_mem hearlier hsame)
      hnew (hfresh item List.mem_cons_self)
    have hpast' (recnum : RecordNumber) : recnum ∈ item.recnum :: past ↔
        ∃ other ∈ done ++ [item], other.recnum = recnum := by
      rw [List.mem_cons, hpast]
      constructor
      · intro hmem
        rcases hmem with rfl | ⟨earlier, hearlier, rfl⟩
        · exact ⟨item, by simp, rfl⟩
        · exact ⟨earlier, by simp [hearlier], rfl⟩
      · intro hmem
        obtain ⟨other, hother, rfl⟩ := hmem
        rcases List.mem_append.mp hother with hother | hother
        · exact .inr ⟨other, hother, rfl⟩
        · rw [List.mem_singleton] at hother
          exact .inl (congrArg _ hother)
    have hknown (other : RecordNumber)
        (hother : Known file (next.after (item.recnum :: past))
          (KeyPolicy.take replace entries (item.key, item.recnum)) other) :
        Known file (b.after past) entries other ∨ other = item.recnum := by
      rw [← hkey] at hother
      exact known_take (hdeleted other) hother
    obtain ⟨b', past', hrest, hrep', hpast'', hdeleted', hdups'⟩ := ih hrep
      (hlines.next htype hpending) hpast'
      (by
        intro later hlater hlaterKnown
        rcases hknown _ hlaterKnown with hbefore | hsame
        · exact hfresh later (List.mem_cons_of_mem _ hlater) hbefore
        · have hdistinct := hlines.distinct
          rw [List.map_append, List.map_cons] at hdistinct
          have htail := (List.nodup_append.mp hdistinct).2.1
          rw [List.nodup_cons] at htail
          exact htail.1 (hsame ▸ List.mem_map_of_mem hlater))
      (by
        intro hignore later hlater hsome
        by_cases hsame : later.key = item.key
        · exact ⟨item, by simp, hsame.symm⟩
        · have hbefore : entries later.key ≠ none := by
            rw [KeyPolicy.take] at hsome
            split at hsome
            · rwa [update_of_ne hsame] at hsome
            · exact hsome
          obtain ⟨earlier, hearlier, heq⟩ :=
            hfree hignore later (List.mem_cons_of_mem _ hlater) hbefore
          exact ⟨earlier, by simp [hearlier], heq⟩)
    refine ⟨b', past', by rw [batchPrimaryItems, hstep]; exact hrest, hrep',
      by simpa using hpast'', ?_, ?_⟩
    · intro other hother
      rcases hdeleted' other hother with hbefore | ⟨later, hlater, heq⟩
      · rcases hknown other hbefore with hbefore | hsame
        · exact .inl hbefore
        · exact .inr ⟨item, List.mem_cons_self, hsame.symm⟩
      · exact .inr ⟨later, List.mem_cons_of_mem _ hlater, heq⟩
    · intro hkeys
      rw [hdups' (by simpa using hkeys)]
      apply hdups
      rw [hlines.last]
      intro hsame
      obtain ⟨last, hlast, heq⟩ := Option.map_eq_some_iff.mp hsame
      rw [List.map_append, List.map_cons, List.nodup_append] at hkeys
      exact hkeys.2.2 _ (List.mem_map_of_mem (List.mem_of_getLast? hlast)) _ List.mem_cons_self
        heq

section BatchLoad

variable {file : KeyedFile} {replace : Bool} {s : PrimaryState}
  {entries : Term → Option RecordNumber} {recnums : List RecordNumber}

def primaryLine (file : KeyedFile) (s : PrimaryState) (recnum : RecordNumber) : BatchItem :=
  batchItem s.idx recnum (file.key recnum, file.htData recnum)

/-- What the records of a batch have to be for their lines to be read back. -/
structure Loadable (file : KeyedFile) (s : PrimaryState) (recnums : List RecordNumber) : Prop where
  ascending : recnums.Pairwise fun a b ↦ a.1 < b.1
  separator : ∀ recnum ∈ recnums, 1 ∉ file.key recnum
  fits : ∀ recnum ∈ recnums, lineLength s.idx (primaryLine file s recnum) ≤ TEMP_BUFFER_SIZE

theorem key_primaryLine (h : Loadable file s recnums)
    (hmem : recnum ∈ recnums) : (primaryLine file s recnum).key = file.key recnum :=
  replaceSeparator_eq (h.separator recnum hmem)

theorem primaryLines_eq (hinverted : Inverted s.idx)
    (hkept : ∀ recnum ∈ recnums, s.deleted recnum = false) :
    primaryLines file s recnums = recnums.map (primaryLine file s) := by
  rw [primaryLines, ← List.flatMap_pure_eq_map]
  apply List.flatMap_congr
  intro recnum hmem
  have hread : getSgml file s recnum = some (file.hash recnum) := by
    simp [getSgml, hkept recnum hmem]
  rw [hread, Option.elim_some, inKwaddBatch,
    if_neg (by simp [hinverted.not_paged, hinverted.not_freq])]
  rfl

theorem orderedByRecord_lines (h : Loadable file s recnums) :
    OrderedByRecord (recnums.map (primaryLine file s)) := by
  rw [OrderedByRecord, List.pairwise_map]
  apply h.ascending.imp
  intro a b hlt _
  exact hlt

theorem valuesOf_sorted (h : Loadable file s recnums) (key : Term) :
    KeyPolicy.valuesOf ((sortItems (recnums.map (primaryLine file s))).map
        fun item ↦ (item.key, item.recnum)) key =
      recnums.filter fun recnum ↦ file.key recnum = key := by
  calc
    _ = ((sortItems (recnums.map (primaryLine file s))).filter fun item ↦ item.key = key).map
        BatchItem.recnum := by
      rw [KeyPolicy.valuesOf, List.filter_map, List.map_map]
      rfl
    _ = ((recnums.map (primaryLine file s)).filter fun item ↦ item.key = key).map
        BatchItem.recnum := by
      rw [filter_sortItems (orderedByRecord_lines h)]
    _ = (recnums.filter fun recnum ↦ (primaryLine file s recnum).key = key).map
        (fun recnum ↦ recnum) := by
      rw [List.filter_map, List.map_map]
      rfl
    _ = _ := by
      rw [List.map_id']
      apply List.filter_congr
      intro recnum hmem
      rw [key_primaryLine h hmem]

/-- A batch admits its records in their order, unless one of them is to be ignored for a record of the
index or a duplicate goes into a bitmapped index. -/
theorem Represents.inBatchLoadRecords (h : Represents file replace s entries)
    (hfresh : ∀ recnum ∈ recnums, ¬Known file s entries recnum) (hload : Loadable file s recnums)
    (hfree : replace = false → ∀ recnum ∈ recnums, entries (file.key recnum) = none)
    (hbitmapped : file.bitmapped = true → (recnums.map file.key).Nodup) :
    ∃ s', Index.inBatchLoadRecords file s recnums = .ok s' ∧
      Represents file replace s' (fun key ↦ KeyPolicy.chosen replace (entries key)
        (recnums.filter fun recnum ↦ file.key recnum = key)) ∧
      ∀ other, s'.deleted other = true → Known file s entries other ∨ other ∈ recnums := by
  have hkept : ∀ recnum ∈ recnums, s.deleted recnum = false := by
    intro recnum hmem
    exact kept_of_not_known (hfresh recnum hmem)
  let b : PrimaryBatch := ⟨s, none, []⟩
  have hafter : b.after [] = s := by
    simp [b, PrimaryBatch.after, PrimaryBatch.flush]
  have hstart : BatchRepresents file replace b entries [] := by
    constructor
    · rw [hafter]
      exact h
    · intro _ _ hnone
      cases hnone
    · intro _ _ hnone
      cases hnone
    · intro _ hmem
      cases hmem
  have hperm := perm_sortItems (recnums.map (primaryLine file s))
  have hmem_line {item : BatchItem} (hitem : item ∈ sortItems (recnums.map (primaryLine file s))) :
      ∃ recnum ∈ recnums, primaryLine file s recnum = item :=
    List.mem_map.mp (hperm.mem_iff.mp hitem)
  have hlines : Lines file b [] (sortItems (recnums.map (primaryLine file s))) := by
    constructor
    · intro item hitem
      obtain ⟨recnum, hrecnum, rfl⟩ := hmem_line hitem
      exact (key_primaryLine hload hrecnum).symm
    · exact sorted_sortItems _
    · rw [List.nil_append, (hperm.map BatchItem.recnum).nodup_iff, List.map_map]
      have hid : (BatchItem.recnum ∘ primaryLine file s) = id := rfl
      rw [hid, List.map_id]
      apply hload.ascending.imp
      intro first second hlt heq
      rw [heq] at hlt
      exact lt_irrefl _ hlt
    · intro item hitem
      obtain ⟨recnum, hrecnum, rfl⟩ := hmem_line hitem
      exact hload.fits recnum hrecnum
    · rfl
  obtain ⟨b', past', hrun, hrep, hpast, hdeleted, hdups⟩ := hstart.items
    (sortItems (recnums.map (primaryLine file s))) hlines (by simp)
    (by
      intro item hitem
      obtain ⟨recnum, hrecnum, rfl⟩ := hmem_line hitem
      rw [hafter]
      exact hfresh recnum hrecnum)
    (by
      intro hignore item hitem hsome
      obtain ⟨recnum, hrecnum, rfl⟩ := hmem_line hitem
      rw [key_primaryLine hload hrecnum] at hsome
      exact absurd (hfree hignore recnum hrecnum) hsome)
  have hpast_iff (recnum : RecordNumber) : recnum ∈ past' ↔ recnum ∈ recnums := by
    rw [hpast, List.nil_append]
    constructor
    · intro hmem
      obtain ⟨item, hitem, rfl⟩ := hmem
      obtain ⟨recnum, hrecnum, rfl⟩ := hmem_line hitem
      exact hrecnum
    · intro hmem
      exact ⟨_, hperm.mem_iff.mpr (List.mem_map_of_mem hmem), rfl⟩
  have hothers : loadOthers file s recnums b' = (b'.after past').indexed := by
    funext recnum
    by_cases hmem : recnum ∈ recnums
    · have hdup : (file.bitmapped || !decide ((recnum.1 : ℤ) ∈ b'.dups)) =
          !decide ((recnum.1 : ℤ) ∈ b'.dups) := by
        cases hkind : file.bitmapped with
        | false => rfl
        | true =>
          rw [hdups]
          · simp [b]
          · rw [List.nil_append, (hperm.map BatchItem.key).nodup_iff, List.map_map]
            have hkeys : recnums.map (BatchItem.key ∘ primaryLine file s) =
                recnums.map file.key :=
              List.map_congr_left fun other hother ↦ key_primaryLine hload hother
            rw [hkeys]
            exact hbitmapped hkind
      simp [loadOthers, PrimaryBatch.after, hpast_iff, hmem, hkept recnum hmem, hdup]
    · simp [loadOthers, PrimaryBatch.after, hpast_iff, hmem]
  refine ⟨b'.after past', ?_, ?_, ?_⟩
  · rw [Index.inBatchLoadRecords, primaryLines_eq h.inverted hkept, hrun]
    simp only [bind, Except.bind, hothers]
    rfl
  · have hentries : ((sortItems (recnums.map (primaryLine file s))).map
        fun item ↦ (item.key, item.recnum)).foldl (KeyPolicy.take replace) entries =
        fun key ↦ KeyPolicy.chosen replace (entries key)
          (recnums.filter fun recnum ↦ file.key recnum = key) := by
      funext key
      rw [KeyPolicy.foldl_take, valuesOf_sorted hload]
    rw [← hentries]
    exact hrep.represents
  · intro other hother
    rcases hdeleted other hother with hknown | ⟨item, hitem, rfl⟩
    · rw [hafter] at hknown
      exact .inl hknown
    · obtain ⟨recnum, hrecnum, rfl⟩ := hmem_line hitem
      exact .inr hrecnum

end BatchLoad

/-- The record that has the entry of a key after the records were loaded in this order. -/
def policyEntries (file : KeyedFile) (replace : Bool) (loaded : List RecordNumber) (key : Term) :
    Option RecordNumber :=
  KeyPolicy.chosen replace none (loaded.filter fun recnum ↦ file.key recnum = key)

def specLoad (loaded : List RecordNumber) : LoadOp → List RecordNumber
  | .single recnum => loaded ++ [recnum]
  | .batch recnums => loaded ++ recnums

/-- The primary key index has the entry of every key, and of the records of a key the other indexes
hold that of the entry and no other. -/
structure PolicyHolds (file : KeyedFile) (replace : Bool) (s : PrimaryState)
    (loaded : List RecordNumber) : Prop where
  entry : ∀ key, EntryOf (policyEntries file replace loaded key) (s.idx.terms key)
  live : ∀ recnum, s.indexed recnum = true ↔
    policyEntries file replace loaded (file.key recnum) = some recnum
  atMostOne : ∀ recnum other, s.indexed recnum = true → s.indexed other = true →
    file.key recnum = file.key other → recnum = other

/-- The record is loaded for the first time, and it is newer than one that it replaces.  The records
of a batch come in ascending order with lines that can be read back; none of them is to be ignored
for a record that was loaded before, and a bitmapped index gets no duplicates. -/
def PolicyFollows (file : KeyedFile) (replace : Bool) (s : PrimaryState)
    (loaded : List RecordNumber) : LoadOp → Prop
  | .single recnum => recnum ∉ loaded ∧ (replace = true → ∀ old,
      policyEntries file replace loaded (file.key recnum) = some old → old.1 < recnum.1)
  | .batch recnums => (∀ recnum ∈ recnums, recnum ∉ loaded) ∧ Loadable file s recnums ∧
      (replace = false → ∀ recnum ∈ recnums, ∀ old ∈ loaded, file.key old ≠ file.key recnum) ∧
      (file.bitmapped = true → (recnums.map file.key).Nodup)

/-- The state stands for the entries of the records loaded, and it knows no others. -/
structure LoadInvariant (file : KeyedFile) (replace : Bool) (s : PrimaryState)
    (loaded : List RecordNumber) : Prop where
  represents : Represents file replace s (policyEntries file replace loaded)
  deleted : ∀ recnum, s.deleted recnum = true → recnum ∈ loaded

section LoadInvariant

variable {file : KeyedFile} {replace : Bool} {s : PrimaryState} {loaded : List RecordNumber}

theorem mem_of_policyEntries
    (h : policyEntries file replace loaded key = some recnum) : recnum ∈ loaded :=
  (List.mem_filter.mp (KeyPolicy.mem_of_chosen h)).1

theorem policyEntries_append (more : List RecordNumber) (key : Term) :
    policyEntries file replace (loaded ++ more) key =
      KeyPolicy.chosen replace (policyEntries file replace loaded key)
        (more.filter fun recnum ↦ file.key recnum = key) := by
  rw [policyEntries, policyEntries, List.filter_append, KeyPolicy.chosen_append]

theorem LoadInvariant.mem_of_known (h : LoadInvariant file replace s loaded)
    (hknown : Known file s (policyEntries file replace loaded) recnum) : recnum ∈ loaded := by
  rcases hknown with hdel | hentry
  · exact h.deleted recnum hdel
  · exact mem_of_policyEntries hentry

theorem LoadInvariant.policyHolds (h : LoadInvariant file replace s loaded) :
    PolicyHolds file replace s loaded where
  entry := h.represents.terms
  live := h.represents.live
  atMostOne recnum other hrecnum hother hkey := by
    rw [h.represents.live] at hrecnum hother
    rw [hkey, hother, Option.some.injEq] at hrecnum
    exact hrecnum.symm

theorem LoadInvariant.single (h : LoadInvariant file replace s loaded)
    (hfollow : PolicyFollows file replace s loaded (.single recnum)) :
    ∃ s', inKwaddRecord file s recnum = .ok s' ∧
      LoadInvariant file replace s' (loaded ++ [recnum]) := by
  obtain ⟨hnew, hnewer⟩ := hfollow
  obtain ⟨s', hadd, hrep, hdeleted⟩ :=
    h.represents.inKwaddRecord (fun hknown ↦ hnew (h.mem_of_known hknown)) hnewer
  refine ⟨s', hadd, ?_, ?_⟩
  · have hentries : policyEntries file replace (loaded ++ [recnum]) =
        KeyPolicy.take replace (policyEntries file replace loaded) (file.key recnum, recnum) := by
      funext key
      rw [policyEntries_append, KeyPolicy.take_apply, KeyPolicy.valuesOf]
      congr 1
      by_cases hkey : file.key recnum = key <;> simp [hkey]
    rw [hentries]
    exact hrep
  · intro other hother
    exact List.mem_append_left _ (h.mem_of_known (hdeleted other hother))

theorem LoadInvariant.batch (h : LoadInvariant file replace s loaded)
    {recnums : List RecordNumber} (hfollow : PolicyFollows file replace s loaded (.batch recnums)) :
    ∃ s', inBatchLoadRecords file s recnums = .ok s' ∧
      LoadInvariant file replace s' (loaded ++ recnums) := by
  obtain ⟨hnew, hload, hfree, hbitmapped⟩ := hfollow
  obtain ⟨s', hrun, hrep, hdeleted⟩ := h.represents.inBatchLoadRecords
    (fun recnum hmem hknown ↦ hnew recnum hmem (h.mem_of_known hknown)) hload
    (by
      intro hignore recnum hmem
      rw [policyEntries, KeyPolicy.chosen_eq_none_iff]
      refine ⟨rfl, ?_⟩
      rw [List.filter_eq_nil_iff]
      intro old hold
      simpa using hfree hignore recnum hmem old hold)
    hbitmapped
  refine ⟨s', hrun, ?_, ?_⟩
  · have hentries : policyEntries file replace (loaded ++ recnums) = fun key ↦
        KeyPolicy.chosen replace (policyEntries file replace loaded key)
          (recnums.filter fun recnum ↦ file.key recnum = key) := by
      funext key
      exact policyEntries_append recnums key
    rw [hentries]
    exact hrep
  · intro other hother
    rw [List.mem_append]
    rcases hdeleted other hother with hknown | hmem
    · exact .inl (h.mem_of_known hknown)
    · exact .inr hmem

end LoadInvariant

theorem loadInvariant_created (file : KeyedFile) (idxType : ℕ)
    (hinverted : Inverted (IdxListEntry.created idxType)) :
    LoadInvariant file ((IdxListEntry.created idxType).has PRIMARYREPLACE)
      (PrimaryState.created idxType) [] where
  represents := by
    have hnone (key : Term) : policyEntries file
        ((IdxListEntry.created idxType).has PRIMARYREPLACE) [] key = none := by
      simp [policyEntries]
    constructor
    · exact hinverted
    · rfl
    · intro key
      rw [hnone]
      rfl
    · intro key recnum hentry
      rw [hnone] at hentry
      cases hentry
    · intro recnum
      rw [hnone]
      simp [PrimaryState.created]
    · intro key recnum _
      rfl
  deleted recnum hdel := by cases hdel

/-- After every operation of a history the policy of the primary key holds. -/
def PolicyHistory (file : KeyedFile) (idxType : ℕ) (ops : List LoadOp) : Prop :=
  Runs.Throughout (stepLoad file) (fun _ ↦ specLoad)
    (PolicyHolds file ((IdxListEntry.created idxType).has PRIMARYREPLACE)) (fun _ _ _ ↦ True)
    (PrimaryState.created idxType) [] ops

/-- Along every history of single records and batches that follow the policy it holds in every
state. -/
theorem policyHistory_of_follows (file : KeyedFile) (idxType : ℕ)
    (hinverted : Inverted (IdxListEntry.created idxType)) (ops : List LoadOp)
    (hfollow : Runs.Along (stepLoad file) (fun _ ↦ specLoad)
      (PolicyFollows file ((IdxListEntry.created idxType).has PRIMARYREPLACE))
      (PrimaryState.created idxType) [] ops) : PolicyHistory file idxType ops := by
  apply Runs.Throughout.imp fun _ _ h ↦ LoadInvariant.policyHolds h
  apply Runs.throughout_of_along (fun _ ↦ True) _ trivial
    (loadInvariant_created file idxType hinverted) hfollow
  intro s loaded op _ h hcond
  cases op with
  | single recnum =>
    obtain ⟨s', hstep, h'⟩ := h.single hcond
    exact ⟨s', hstep, trivial, trivial, h'⟩
  | batch recnums =>
    obtain ⟨s', hstep, h'⟩ := h.batch hcond
    exact ⟨s', hstep, trivial, trivial, h'⟩

/-- A file whose records all have the same key. -/
def oneKeyFile : KeyedFile := ⟨fun _ ↦ [97], fun _ ↦ ⟨1, []⟩, false⟩

theorem lineLength_oneKeyFile {s : PrimaryState} (htype : s.idx.idxType = PRIMARYREPLACE)
    (recnum : RecordNumber) :
    lineLength s.idx (primaryLine oneKeyFile s recnum) ≤ TEMP_BUFFER_SIZE := by
  have hproximity : s.idx.has PROXIMITY = false := by
    rw [IdxListEntry.has, htype]
    rfl
  have hprinted : printedLength 1 = 1 := by decide
  rw [lineLength, hproximity, primaryLine, batchItem]
  simp [replaceSeparator, oneKeyFile, TEMP_BUFFER_SIZE, hprinted]

/-- A batch of two records with the key of a record that was loaded before: the last one replaces the
others. -/
theorem policyHistory_replace : PolicyHistory oneKeyFile PRIMARYREPLACE
    [.single ⟨1, by decide, by decide⟩,
      .batch [⟨2, by decide, by decide⟩, ⟨3, by decide, by decide⟩]] := by
  apply policyHistory_of_follows _ _ ⟨rfl, rfl, rfl⟩
  refine ⟨⟨by simp, by simp [policyEntries]⟩, fun s hstep ↦ ⟨?_, fun _ _ ↦ trivial⟩⟩
  cases hstep
  refine ⟨by simp [specLoad], ⟨by simp, by simp [oneKeyFile], ?_⟩, ?_, by simp [oneKeyFile]⟩
  · intro recnum _
    exact lineLength_oneKeyFile rfl recnum
  · intro hignore
    exact absurd hignore (by decide)

/-- Under `PRIMARYIGNORE` a batch of one record with the key of a record that was loaded before: the
new record takes the entry over. -/
theorem policyHistory_ignored : ¬∀ (file : KeyedFile) (idxType : ℕ) (ops : List LoadOp),
    Inverted (IdxListEntry.created idxType) → PolicyHistory file idxType ops := by
  intro hall
  have hhistory := hall oneKeyFile PRIMARYIGNORE
    [.single ⟨1, by decide, by decide⟩, .batch [⟨2, by decide, by decide⟩]] ⟨rfl, rfl, rfl⟩
  obtain ⟨-, s, hfirst, -, -, s', hsecond, -, hholds⟩ := hhistory
  cases hfirst
  cases hsecond
  have hentry := hholds.entry [97]
  have hpolicy : policyEntries oneKeyFile ((IdxListEntry.created PRIMARYIGNORE).has PRIMARYREPLACE)
      (specLoad (specLoad [] (.single ⟨1, by decide, by decide⟩))
        (.batch [⟨2, by decide, by decide⟩])) [97] = some ⟨1, by decide, by decide⟩ := rfl
  rw [hpolicy] at hentry
  obtain ⟨block, termFreq, hblock, -, hentries⟩ := hentry
  cases hblock
  cases hentries

end Cheshire.Index
