import Cheshire.Search.ComponentDocuments

/-!
# Searches for what is not equal

`se_bool_element` answers a search for NOT EQUAL with the records that the search for EQUAL does not
find.  It goes through the numbers of the records and through the sorted hits at the same time, but its
last loop ends before the last record.
-/

namespace Cheshire.Search

open Lib

/-- What a file says about its number of records: the maximum record number of a datastore, the files of
a virtual database, or the number at the start of the association file. -/
inductive DocumentFile where
  | dbms
  | datastore (maximumRecordNumber : Option ℤ)
  | virtual (othernames : List DocumentFile)
  | ordinary (maxtermid : Option ℤ)

mutual

/-- `cf_getnumdocs`; a number that is not there counts as 0, and a `long` is cut to an `int`. -/
def cfGetnumdocs : DocumentFile → Exec ℤ
  | .dbms => .ok 0
  | .datastore maximumRecordNumber => .ok ((maximumRecordNumber.getD 0).bmod (2 ^ 32))
  | .virtual othernames => cfGetnumVdocs othernames 0
  | .ordinary maxtermid => .ok ((maxtermid.getD 0).bmod (2 ^ 32))

def cfGetnumVdocs : List DocumentFile → ℤ → Exec ℤ
  | [], totalRecs => .ok totalRecs
  | file :: files, totalRecs => do
    let count ← cfGetnumdocs file
    let totalRecs ← checkInt (totalRecs + count)
    cfGetnumVdocs files totalRecs

end

/-- The records that are searched: the components of a component index, else those of the file. -/
def searchedRecords (maxComponentId : Option ℤ) (file : DocumentFile) : Exec ℤ :=
  match maxComponentId with
  | some maxComponentId => checkInt maxComponentId
  | none => do
    let ndocs ← cfGetnumdocs file
    checkInt ndocs

/-- A loop that lists record after record from `m` on. -/
def listRecords : ℕ → List WeightedEntry → ℕ → ℤ → Exec (List WeightedEntry × ℕ × ℤ)
  | 0, cells, i, m => .ok (cells, i, m)
  | passes + 1, cells, i, m => do
    let cells ← storeDoc cells i m 1
    let next ← checkInt (m + 1)
    listRecords passes cells (i + 1) next

/-- `while (n < wt_res->num_hits)` -/
def skipHits (wtRes : WeightedResult) : ℕ → List WeightedEntry → ℕ → ℤ → ℕ →
    Exec (List WeightedEntry × ℕ × ℤ)
  | 0, _, _, _, _ => .error .unfinished
  | fuel + 1, cells, i, m, n =>
    if (n : ℤ) < wtRes.numHits then do
      let entry ← wtRes.entryAt n
      if entry.recordNum = m then do
        let next ← checkInt (m + 1)
        skipHits wtRes fuel cells i next (n + 1)
      else do
        let cells ← storeDoc cells i m 1
        let next ← checkInt (m + 1)
        skipHits wtRes fuel cells (i + 1) next n
    else .ok (cells, i, m)

/-- `tmp_wt_res` with so many records. -/
def unhitSet (wtRes : WeightedResult) (cells : List WeightedEntry) (result : ℕ) :
    WeightedResult where
  setid := ""
  filename := ""
  resultType := wtRes.resultType
  component := wtRes.component
  termid := []
  numHits := result
  resultWeight := 0
  maxWeight := 0
  minWeight := 0
  entries := cells

/-- The set of the records that are not hits.  Without hits the first entry is set to `ndocs` first; the
counter `result` goes along with `i`. -/
def notEqual (ndocs : ℤ) (wtRes : WeightedResult) : Exec WeightedResult :=
  -- a negative size is an allocation that fails
  if ndocs < 0 then .error .nullDereference
  else do
    let first ← wtRes.entryAt 0
    let bound := if wtRes.numHits = 0 then ndocs else first.recordNum
    let before ← listRecords (bound - 1).toNat
      (Buffer.calloc WeightedEntry.zero (ndocs.toNat + 1)) 0 1
    let between ← skipHits wtRes (wtRes.numHits.toNat + ndocs.toNat + 2) before.1 before.2.1
      before.2.2 0
    let behind ← listRecords (ndocs - between.2.2).toNat between.1 between.2.1 between.2.2
    .ok (unhitSet wtRes behind.1 behind.2.1)

/-- The NOT EQUAL branch of `se_bool_element` after the search for EQUAL. -/
def seNotEqual (maxComponentId : Option ℤ) (file : DocumentFile) (wtRes : WeightedResult) :
    Exec WeightedResult := do
  let ndocs ← searchedRecords maxComponentId file
  notEqual ndocs wtRes

/-- The records from 1 up to, but without, `m`. -/
def recordsBelow (m : ℤ) : List ℤ := (List.range (m - 1).toNat).map fun k : ℕ ↦ (k : ℤ) + 1

theorem recordsBelow_succ {m : ℤ} (hm : 1 ≤ m) :
    recordsBelow (m + 1) = recordsBelow m ++ [m] := by
  have hcount : (m + 1 - 1).toNat = (m - 1).toNat + 1 := by omega
  have hlast : ((m - 1).toNat : ℤ) + 1 = m := by omega
  rw [recordsBelow, hcount, List.range_succ, List.map_append, List.map_singleton, hlast]
  rfl

theorem mem_recordsBelow {m record : ℤ} : record ∈ recordsBelow m ↔ 1 ≤ record ∧ record < m := by
  rw [recordsBelow, List.mem_map]
  constructor
  · rintro ⟨k, hk, rfl⟩
    rw [List.mem_range] at hk
    omega
  · intro h
    exact ⟨(record - 1).toNat, List.mem_range.mpr (by omega), by omega⟩

theorem length_recordsBelow (m : ℤ) : (recordsBelow m).length = (m - 1).toNat := by
  rw [recordsBelow, List.length_map, List.length_range]

/-- The records below `m` that are not hits. -/
def unhit (hits : List ℤ) (m : ℤ) : List ℤ := (recordsBelow m).filter fun record ↦ record ∉ hits

theorem unhit_succ_of_notMem {hits : List ℤ} {m : ℤ} (hm : 1 ≤ m) (hmem : m ∉ hits) :
    unhit hits (m + 1) = unhit hits m ++ [m] := by
  simp [unhit, recordsBelow_succ hm, hmem]

theorem unhit_succ_of_mem {hits : List ℤ} {m : ℤ} (hm : 1 ≤ m) (hmem : m ∈ hits) :
    unhit hits (m + 1) = unhit hits m := by
  simp [unhit, recordsBelow_succ hm, hmem]

theorem length_unhit_le (hits : List ℤ) (m : ℤ) : (unhit hits m).length ≤ (m - 1).toNat := by
  rw [← length_recordsBelow]
  exact List.length_filter_le _ _

/-- The block lists the records below `m` that are not hits. -/
structure ListsUnhit (ndocs : ℤ) (hits : List ℤ) (cells : List WeightedEntry) (i : ℕ) (m : ℤ) :
    Prop where
  pos : 1 ≤ m
  holds : Buffer.Holds WeightedEntry.zero (ndocs.toNat + 1) cells
    ((unhit hits m).map fun record ↦ ⟨record, 0, 1⟩)
  count : i = (unhit hits m).length

section Loops

variable {ndocs m : ℤ} {hits : List ℤ} {cells : List WeightedEntry} {i : ℕ}

theorem listed_start (ndocs : ℤ) (hits : List ℤ) :
    ListsUnhit ndocs hits (Buffer.calloc WeightedEntry.zero (ndocs.toNat + 1)) 0 1 where
  pos := le_rfl
  holds := Buffer.holds_calloc WeightedEntry.zero _
  count := rfl

theorem ListsUnhit.store (h : ListsUnhit ndocs hits cells i m) (hm : m ≤ ndocs) (hmem : m ∉ hits) :
    ∃ cells', storeDoc cells i m 1 = .ok cells' ∧ ListsUnhit ndocs hits cells' (i + 1) (m + 1) := by
  have hpos := h.pos
  have hle := length_unhit_le hits m
  have hunhit := unhit_succ_of_notMem hpos hmem
  obtain ⟨cells', hstore, hholds⟩ := h.holds.store (by rw [List.length_map]; omega) ⟨m, 0, 1⟩
  rw [List.length_map, ← h.count] at hstore
  refine ⟨cells', by rw [storeDoc, hstore], by omega, ?_, ?_⟩
  · rw [hunhit, List.map_append]
    exact hholds
  · rw [hunhit, List.length_append, ← h.count]
    rfl

theorem ListsUnhit.skip (h : ListsUnhit ndocs hits cells i m) (hmem : m ∈ hits) :
    ListsUnhit ndocs hits cells i (m + 1) := by
  have hpos := h.pos
  have hunhit := unhit_succ_of_mem hpos hmem
  exact ⟨by omega, hunhit ▸ h.holds, hunhit ▸ h.count⟩

theorem listRecords_spec (passes : ℕ) (h : ListsUnhit ndocs hits cells i m)
    (hlast : m + passes ≤ ndocs + 1) (hint : passes = 0 ∨ m + passes ≤ INT_MAX)
    (hout : ∀ record, m ≤ record → record < m + passes → record ∉ hits) :
    ∃ cells' i', listRecords passes cells i m = .ok (cells', i', m + passes) ∧
      ListsUnhit ndocs hits cells' i' (m + passes) := by
  induction passes generalizing cells i m with
  | zero =>
    rw [Nat.cast_zero, add_zero]
    exact ⟨cells, i, rfl, h⟩
  | succ passes ih =>
    have hpos := h.pos
    have hint := hint.resolve_left (Nat.succ_ne_zero passes)
    push_cast at hlast hint hout
    obtain ⟨cells', hstore, hnext⟩ := h.store (by omega) (hout m le_rfl (by omega))
    have hcheck : checkInt (m + 1) = .ok (m + 1) := checkInt_of_le (by omega) (by omega)
    obtain ⟨cells'', i'', hrun, hdone⟩ := ih hnext (by omega) (Or.inr (by omega))
      fun record hlow hhigh ↦ hout record (by omega) (by omega)
    have hsum : m + 1 + (passes : ℤ) = m + (passes + 1 : ℕ) := by push_cast; ring
    rw [hsum] at hrun hdone
    exact ⟨cells'', i'', bind_eq_ok.mpr ⟨cells', hstore, bind_eq_ok.mpr ⟨m + 1, hcheck, hrun⟩⟩, hdone⟩

theorem mem_of_mem_ahead {set : WeightedResult} {n : ℕ} {record : ℤ} (h : record ∈ set.ahead n) :
    record ∈ set.recordNums := by
  rw [WeightedResult.ahead, List.map_drop] at h
  exact List.mem_of_mem_drop h

theorem skipHits_spec {wtRes : WeightedResult} (halloc : wtRes.Allocated) (hint : ndocs ≤ INT_MAX)
    (hwithin : ∀ hit ∈ wtRes.recordNums, hit ≤ ndocs) (fuel n : ℕ)
    (h : ListsUnhit ndocs wtRes.recordNums cells i m) (hm : m ≤ ndocs + 1)
    (hsorted : (wtRes.ahead n).Pairwise (· < ·)) (hahead : ∀ hit ∈ wtRes.ahead n, m ≤ hit)
    (hbehind : ∀ hit ∈ wtRes.recordNums, hit ∉ wtRes.ahead n → hit < m)
    (hfuel : (wtRes.ahead n).length + (ndocs + 1 - m).toNat < fuel) :
    (∃ cells' i' m', skipHits wtRes fuel cells i m n = .ok (cells', i', m') ∧
        ListsUnhit ndocs wtRes.recordNums cells' i' m' ∧ m' ≤ ndocs + 1 ∧
        (∀ hit ∈ wtRes.recordNums, hit < m') ∧
        (m' = m ∨ (m' - 1 ∈ wtRes.recordNums ∧ m' ≤ INT_MAX))) ∨
      (∃ fault, skipHits wtRes fuel cells i m n = .error fault) ∧
        (INT_MAX : ℤ) ∈ wtRes.recordNums := by
  induction fuel generalizing cells i m n with
  | zero => omega
  | succ fuel ih =>
    rw [skipHits]
    by_cases hn : (n : ℤ) < wtRes.numHits
    · obtain ⟨entry, hentry, hcons⟩ := halloc.ahead_cons hn
      rw [hcons, List.pairwise_cons] at hsorted
      rw [hcons] at hahead hfuel
      rw [List.length_cons] at hfuel
      have hpos := h.pos
      have hfirst : entry.recordNum ∈ wtRes.recordNums :=
        mem_of_mem_ahead (n := n) (hcons ▸ List.mem_cons_self)
      have hle := hwithin _ hfirst
      rw [if_pos hn, hentry]
      simp only [bind, Except.bind]
      by_cases hsame : entry.recordNum = m
      · rw [if_pos hsame]
        rw [hsame] at hfirst hle hsorted
        by_cases hmax : m = INT_MAX
        · -- the number behind the largest `int`
          right
          have hcheck : checkInt (m + 1) = .error .signedOverflow := by
            rw [INT_MAX] at hmax
            rw [checkInt, if_neg (by omega)]
          exact ⟨⟨.signedOverflow, by rw [hcheck]⟩, hmax ▸ hfirst⟩
        · have hcheck : checkInt (m + 1) = .ok (m + 1) := checkInt_of_le (by omega) (by omega)
          rw [hcheck]
          have hrest := ih (n + 1) (h.skip hfirst) (by omega) hsorted.2 (fun hit hmem ↦ hsorted.1 hit hmem)
            (by
              intro hit hmem hnot
              by_cases heq : hit = m
              · omega
              · have hlt := hbehind hit hmem (by rw [hcons, hsame]; simp [heq, hnot])
                omega)
            (by omega)
          rcases hrest with ⟨cells', i', m', hrun, hdone, hbound, hall, hwhich⟩ | hfault
          · left
            refine ⟨cells', i', m', hrun, hdone, hbound, hall, Or.inr ?_⟩
            rcases hwhich with rfl | hreached
            · refine ⟨by rwa [add_sub_cancel_right], ?_⟩
              rw [INT_MAX] at hint hmax ⊢
              omega
            · exact hreached
          · exact Or.inr hfault
      · have hlt : m < entry.recordNum :=
          lt_of_le_of_ne (hahead _ List.mem_cons_self) (Ne.symm hsame)
        have hnotMem : m ∉ wtRes.recordNums := by
          intro hmem
          by_cases hin : m ∈ wtRes.ahead n
          · rw [hcons] at hin
            rcases List.mem_cons.mp hin with heq | hrest
            · exact hsame heq.symm
            · exact absurd (hsorted.1 m hrest) (not_lt.mpr hlt.le)
          · exact lt_irrefl m (hbehind m hmem hin)
        obtain ⟨cells', hstore, hnext⟩ := h.store (by omega) hnotMem
        have hcheck : checkInt (m + 1) = .ok (m + 1) := checkInt_of_le (by omega) (by omega)
        rw [if_neg hsame, hstore, hcheck]
        have hrest := ih n hnext (by omega) (by rw [hcons, List.pairwise_cons]; exact hsorted)
          (by
            intro hit hmem
            rw [hcons] at hmem
            rcases List.mem_cons.mp hmem with rfl | hmem
            · omega
            · have := hsorted.1 hit hmem
              omega)
          (fun hit hmem hnot ↦ (hbehind hit hmem hnot).trans (lt_add_one m))
          (by rw [hcons, List.length_cons]; omega)
        rcases hrest with ⟨cells'', i', m', hrun, hdone, hbound, hall, hwhich⟩ | hfault
        · left
          refine ⟨cells'', i', m', hrun, hdone, hbound, hall, Or.inr ?_⟩
          rcases hwhich with rfl | hmem
          · -- the hit ahead was reached
            have hreached := hall _ hfirst
            omega
          · exact hmem
        · exact Or.inr hfault
    · rw [if_neg hn]
      have hnil : wtRes.ahead n = [] := halloc.ahead_nil hn
      left
      refine ⟨cells, i, m, rfl, h, hm, ?_, Or.inl rfl⟩
      intro hit hmem
      exact hbehind hit hmem (by simp [hnil])

end Loops

/-- The set lists exactly the records up to `ndocs` that another one does not list, in their order. -/
structure IsComplement (ndocs : ℤ) (wtRes docs : WeightedResult) : Prop where
  recordNums : docs.recordNums = unhit wtRes.recordNums (ndocs + 1)
  numHits : docs.numHits = ndocs - wtRes.numHits

theorem searchedRecords_inRange {maxComponentId : Option ℤ} {file : DocumentFile} {ndocs : ℤ}
    (h : searchedRecords maxComponentId file = .ok ndocs) : ndocs ≤ INT_MAX := by
  have hcheck : ∃ value, checkInt value = .ok ndocs := by
    cases maxComponentId with
    | some value => exact ⟨value, h⟩
    | none =>
      obtain ⟨value, -, hvalue⟩ := bind_eq_ok.mp h
      exact ⟨value, hvalue⟩
  obtain ⟨value, hvalue⟩ := hcheck
  have hsame := checkInt_eq_ok hvalue
  unfold checkInt at hvalue
  split at hvalue
  · rw [INT_MAX]
    omega
  · cases hvalue

theorem length_unhit {hits : List ℤ} {ndocs : ℤ} (hnodup : hits.Nodup)
    (hwithin : ∀ hit ∈ hits, 1 ≤ hit ∧ hit ≤ ndocs) :
    (unhit hits (ndocs + 1)).length + hits.length = ndocs.toNat := by
  have hrecords : (recordsBelow (ndocs + 1)).Nodup := by
    rw [recordsBelow]
    apply List.nodup_range.map
    intro first second h
    simpa using h
  have hperm : ((recordsBelow (ndocs + 1)).filter fun record ↦ record ∈ hits).Perm hits := by
    rw [List.perm_ext_iff_of_nodup (hrecords.filter _) hnodup]
    intro record
    rw [List.mem_filter, mem_recordsBelow, decide_eq_true_eq]
    constructor
    · exact And.right
    · intro hmem
      have hbounds := hwithin record hmem
      exact ⟨⟨hbounds.1, Int.lt_add_one_of_le hbounds.2⟩, hmem⟩
  have hsplit := List.length_eq_length_filter_add (l := recordsBelow (ndocs + 1))
    fun record ↦ decide (record ∈ hits)
  rw [hperm.length_eq, length_recordsBelow, add_sub_cancel_right] at hsplit
  have hrest : (unhit hits (ndocs + 1)) =
      (recordsBelow (ndocs + 1)).filter fun record ↦ !decide (record ∈ hits) := by
    rw [unhit]
    apply List.filter_congr
    intro record _
    exact decide_not
  rw [hrest]
  omega

section Complement

variable {ndocs : ℤ} {wtRes : WeightedResult}

theorem notEqual_spec (halloc : wtRes.Allocated) (hcell : 0 < wtRes.entries.length)
    (hsorted : wtRes.recordNums.Pairwise (· < ·))
    (hwithin : ∀ hit ∈ wtRes.recordNums, 1 ≤ hit ∧ hit ≤ ndocs) (hndocs : 0 ≤ ndocs)
    (hint : ndocs ≤ INT_MAX) :
    (∃ docs m, notEqual ndocs wtRes = .ok docs ∧
        docs.recordNums = unhit wtRes.recordNums m ∧ docs.numHits = (unhit wtRes.recordNums m).length ∧
        (ndocs ∈ wtRes.recordNums → ndocs < INT_MAX) ∧
        m = if ndocs = 0 ∨ ndocs ∈ wtRes.recordNums then ndocs + 1 else ndocs) ∨
      (∃ fault, notEqual ndocs wtRes = .error fault) ∧ (INT_MAX : ℤ) ∈ wtRes.recordNums := by
  obtain ⟨first, hfirst⟩ : ∃ first, wtRes.entryAt 0 = .ok first :=
    ⟨wtRes.entries[0], by simp [WeightedResult.entryAt, hcell]⟩
  set bound := if wtRes.numHits = 0 then ndocs else first.recordNum with hbound
  have hahead : wtRes.ahead 0 = wtRes.recordNums := WeightedResult.ahead_zero wtRes
  have hstart : bound ≤ ndocs ∧ (ndocs = 0 ∨ 1 ≤ bound) ∧ ∀ hit ∈ wtRes.recordNums, bound ≤ hit := by
    by_cases hzero : wtRes.numHits = 0
    · have hnil : wtRes.recordNums = [] := by
        rw [← hahead]
        exact halloc.ahead_nil (by omega)
      rw [hbound, if_pos hzero, hnil]
      exact ⟨le_rfl, by omega, List.forall_mem_nil _⟩
    · have hnonneg := halloc.nonneg
      obtain ⟨entry, hentry, hcons⟩ :=
        @WeightedResult.Allocated.ahead_cons _ halloc 0 (by push_cast; omega)
      rw [hfirst] at hentry
      have hsame := Except.ok.inj hentry
      rw [hahead, ← hsame] at hcons
      rw [hcons] at hsorted hwithin
      have hbounds := hwithin _ List.mem_cons_self
      rw [hbound, if_neg hzero, hcons]
      refine ⟨hbounds.2, Or.inr hbounds.1, ?_⟩
      rw [List.forall_mem_cons]
      exact ⟨le_rfl, fun hit hmem ↦ ((List.pairwise_cons.mp hsorted).1 hit hmem).le⟩
  obtain ⟨hle, hlow, hall⟩ := hstart
  obtain ⟨cells1, i1, hrun1, hlisted1⟩ := listRecords_spec (bound - 1).toNat
    (listed_start ndocs wtRes.recordNums) (by omega) (by omega) (by
      intro record hfrom hto hmem
      have hhit := hall record hmem
      omega)
  have hlength : wtRes.recordNums.length = wtRes.numHits.toNat := halloc.length_recordNums
  have hskip := skipHits_spec halloc hint (fun hit hmem ↦ (hwithin hit hmem).2)
    (wtRes.numHits.toNat + ndocs.toNat + 2) 0 hlisted1 (by omega) (hahead ▸ hsorted)
    (by
      intro hit hmem
      rw [hahead] at hmem
      have hhit := hall hit hmem
      have hbounds := hwithin hit hmem
      omega)
    (fun hit hmem hnot ↦ absurd (hahead ▸ hmem) hnot) (by rw [hahead]; omega)
  rcases hskip with ⟨cells2, i2, m2, hrun2, hlisted2, hupper, hbelow, hwhich⟩ | ⟨⟨fault, hfault⟩, hmax⟩
  · left
    obtain ⟨cells3, i3, hrun3, hlisted3⟩ := listRecords_spec (ndocs - m2).toNat hlisted2 (by omega)
      (by omega) (by
        intro record hfrom hto hmem
        have hreached := hbelow record hmem
        omega)
    have hm : m2 + ((ndocs - m2).toNat : ℤ) =
        if ndocs = 0 ∨ ndocs ∈ wtRes.recordNums then ndocs + 1 else ndocs := by
      have hpos := hlisted2.pos
      split
      · next hlast =>
        rcases hlast with hzero | hmem
        · omega
        · have hreached := hbelow ndocs hmem
          omega
      · next hlast =>
        rw [not_or] at hlast
        rcases hwhich with heq | ⟨hmem, -⟩
        · omega
        · have hbounds := hwithin _ hmem
          have hne : m2 - 1 ≠ ndocs := fun heq ↦ hlast.2 (heq ▸ hmem)
          omega
    have hfits : ndocs ∈ wtRes.recordNums → ndocs < INT_MAX := by
      intro hmem
      have hreached := hbelow ndocs hmem
      have hbounds := hwithin ndocs hmem
      rcases hwhich with heq | ⟨-, hle⟩
      · omega
      · omega
    refine ⟨unhitSet wtRes cells3 i3, _, ?_, ?_, ?_, hfits, hm⟩
    · rw [notEqual, if_neg (by omega)]
      exact bind_eq_ok.mpr ⟨first, hfirst, bind_eq_ok.mpr ⟨_, hrun1, bind_eq_ok.mpr ⟨_, hrun2,
        bind_eq_ok.mpr ⟨_, hrun3, rfl⟩⟩⟩⟩
    · rw [WeightedResult.recordNums, WeightedResult.hits]
      simp only [unhitSet, Int.toNat_natCast, hlisted3.count]
      have htake := hlisted3.holds.take
      rw [List.length_map] at htake
      rw [htake, List.map_map]
      exact List.map_id _
    · exact congrArg Nat.cast hlisted3.count
  · right
    refine ⟨⟨fault, ?_⟩, hmax⟩
    rw [notEqual, if_neg (by omega), hfirst]
    simp only [bind, Except.bind, ← hbound, hrun1, hfault]

/-- For sorted hits between 1 and `ndocs` the branch lists their complement if and only if the last record
is a hit, or there is none. -/
theorem seNotEqual_iff {maxComponentId : Option ℤ} {file : DocumentFile}
    (hdocs : searchedRecords maxComponentId file = .ok ndocs) (halloc : wtRes.Allocated)
    (hcell : 0 < wtRes.entries.length) (hsorted : wtRes.recordNums.Pairwise (· < ·))
    (hwithin : ∀ hit ∈ wtRes.recordNums, 1 ≤ hit ∧ hit ≤ ndocs) :
    (∃ docs, seNotEqual maxComponentId file wtRes = .ok docs ∧ IsComplement ndocs wtRes docs) ↔
      ndocs = 0 ∨ (ndocs ∈ wtRes.recordNums ∧ ndocs < INT_MAX) := by
  have hint := searchedRecords_inRange hdocs
  have hrun : seNotEqual maxComponentId file wtRes = notEqual ndocs wtRes := by
    rw [seNotEqual, hdocs]
    rfl
  rw [hrun]
  rcases lt_or_ge ndocs 0 with hneg | hnonneg
  · apply iff_of_false
    · rintro ⟨docs, hdone, -⟩
      rw [notEqual, if_pos hneg] at hdone
      cases hdone
    · rintro (hzero | ⟨hmem, -⟩)
      · omega
      · have hbounds := hwithin ndocs hmem
        omega
  have hnodup : wtRes.recordNums.Nodup := hsorted.imp fun hlt ↦ hlt.ne
  have hcount := length_unhit hnodup hwithin
  have hlength := halloc.length_recordNums
  have hhits := halloc.nonneg
  rcases notEqual_spec halloc hcell hsorted hwithin hnonneg hint with
    ⟨docs, m, hdone, hrecords, hnumHits, hfits, hm⟩ | ⟨⟨fault, hfault⟩, hmax⟩
  · rw [hdone]
    constructor
    · rintro ⟨docs', hdocs', hcomplement⟩
      have hsame := Except.ok.inj hdocs'
      subst hsame
      by_contra hlast
      have hmiss : ¬(ndocs = 0 ∨ ndocs ∈ wtRes.recordNums) := by
        rintro (hzero | hmem)
        · exact hlast (Or.inl hzero)
        · exact hlast (Or.inr ⟨hmem, hfits hmem⟩)
      rw [not_or] at hmiss
      -- one record is missing
      have hlists := hcomplement.recordNums
      rw [hrecords, hm, if_neg (not_or.mpr hmiss), unhit_succ_of_notMem (by omega) hmiss.2] at hlists
      have hlengths := congrArg List.length hlists
      rw [List.length_append, List.length_singleton] at hlengths
      omega
    · intro hlast
      refine ⟨docs, rfl, ?_, ?_⟩
      · rw [hrecords, hm, if_pos (hlast.imp_right And.left)]
      · rw [hnumHits, hm, if_pos (hlast.imp_right And.left)]
        omega
  · rw [hfault]
    apply iff_of_false
    · rintro ⟨docs, hdone, -⟩
      cases hdone
    · rintro (hzero | ⟨-, hlt⟩)
      · have hbounds := hwithin _ hmax
        rw [INT_MAX] at hbounds
        omega
      · have hbounds := hwithin _ hmax
        omega

end Complement

theorem searchedRecords_three : searchedRecords none (.ordinary (some 3)) = .ok 3 := by
  decide +kernel

theorem seNotEqual_lastHit :
    (∃ docs, seNotEqual none (.ordinary (some 3)) (.ofRecords "DB" [1, 3]) = .ok docs ∧
      IsComplement 3 (.ofRecords "DB" [1, 3]) docs) ↔
        (3 : ℤ) = 0 ∨ (3 ∈ (WeightedResult.ofRecords "DB" [1, 3]).recordNums ∧ (3 : ℤ) < INT_MAX) :=
  seNotEqual_iff searchedRecords_three ⟨by decide, by decide⟩ (by decide) (by decide) (by decide)

/-- Of three records the last one is missing when only the first one is a hit. -/
theorem seNotEqual_lastRecord : ∃ docs,
    seNotEqual none (.ordinary (some 3)) (.ofRecords "DB" [1]) = .ok docs ∧
      docs.recordNums = [2] ∧ unhit [1] 4 = [2, 3] ∧
        ¬IsComplement 3 (.ofRecords "DB" [1]) docs := by
  refine ⟨unhitSet (.ofRecords "DB" [1]) [⟨2, 0, 1⟩, .zero, .zero, .zero] 1, ?_, ?_, ?_, ?_⟩
  · decide +kernel
  · decide +kernel
  · decide
  · intro hcomplement
    exact absurd hcomplement.numHits (by decide)

end Cheshire.Search
