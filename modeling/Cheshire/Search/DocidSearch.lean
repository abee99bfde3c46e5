import Cheshire.Search.WeightedResult

/-!
# Searches by document number

A search for a document number makes its result set itself, without an index.  The first and the last
record and the allocation are worked out apart for each relation.  Whether a record is deleted is asked
for the number of the search only, and of an unsigned offset, which is never negative.
-/

namespace Cheshire.Search

open Lib.Buffer

/-- What the search returns: a result set, or NULL with or without a diagnostic. -/
inductive DocidAnswer where
  | null
  | diagnosed (code : ℕ) (addInfo : String)
  | found (set : WeightedResult)

/-- The records that are entered, and the entries that are allocated beside the first one. -/
structure DocidRange where
  allocrecs : ℤ
  first : ℤ
  last : ℤ

def lessThanOne : String := "Document number less than one"
def startTooLarge : String := "Document start number larger than database size"
def numberTooLarge : String := "Document number larger than database size"
def notConverted : String := "Could not convert doc-id to number (or was 0)"

/-- The range of a relation, or the text of the diagnostic.  No branch sets it for another relation. -/
def docidRange (numrecs relation idnum : ℤ) : Exec (Except String DocidRange) :=
  if relation = 0 then .ok (.ok ⟨0, idnum, idnum⟩)
  else if relation = 1 then
    let range : DocidRange :=
      if idnum > numrecs then ⟨numrecs, 1, numrecs⟩ else ⟨idnum - 1, 1, idnum⟩
    .ok (if range.allocrecs = 0 then .error lessThanOne else .ok range)
  else if relation = 2 then
    let range : DocidRange := if idnum > numrecs then ⟨numrecs, 1, numrecs⟩ else ⟨idnum, 1, idnum⟩
    .ok (if range.allocrecs = 0 then .error lessThanOne else .ok range)
  else if relation = 4 then
    .ok (if idnum > numrecs then .error startTooLarge
      else .ok ⟨numrecs - (idnum - 1), idnum, numrecs⟩)
  else if relation = 5 then
    checkInt (idnum + 1) >>= fun start ↦
      .ok (if start > numrecs then .error startTooLarge else .ok ⟨numrecs - idnum, start, numrecs⟩)
  else .error .uninitialized

def docidEntry (recnum : ℤ) : WeightedEntry := ⟨recnum, 0, 1⟩

def enterRecord (entries : List WeightedEntry) (i : ℕ) (recnum : ℤ) : Exec (List WeightedEntry) :=
  match store? entries i (docidEntry recnum) with
  | none => .error .outOfBounds
  | some entries => .ok entries

/-- The loop over the records of the range; `i` is the entry that is filled next. -/
def fillRecords : ℕ → ℤ → ℕ → List WeightedEntry → Exec (List WeightedEntry)
  | 0, _, _, entries => .ok entries
  | count + 1, recnum, i, entries =>
    enterRecord entries i recnum >>= fun entries ↦
      checkInt (recnum + 1) >>= fun recnum ↦ fillRecords count recnum (i + 1) entries

/-- A fresh result set of a file. -/
def freshDocids (file : String) (numHits : ℤ) (entries : List WeightedEntry) : WeightedResult where
  setid := ""
  filename := file
  resultType := 0
  component := none
  termid := []
  numHits := numHits
  resultWeight := 0
  maxWeight := 0
  minWeight := 0
  entries := entries

def docidResult (file : String) (range : DocidRange) (idnum : ℤ) : Exec WeightedResult := do
  let allocrecs := if range.allocrecs < 0 then 0 else range.allocrecs
  let entries := calloc WeightedEntry.zero (allocrecs.toNat + 1)
  if allocrecs = 0 then
    let entries ← enterRecord entries 0 idnum
    return freshDocids file 1 entries
  else
    let entries ← fillRecords (range.last + 1 - range.first).toNat range.first 0 entries
    return freshDocids file allocrecs entries

def answerRange (file : String) (idnum : ℤ) : Except String DocidRange → Exec DocidAnswer
  | .error addInfo => .ok (.diagnosed 10 addInfo)
  | .ok range => docidResult file range idnum >>= fun set ↦ .ok (.found set)

/-- The search by document number of `se_process_terms`; `relationAttr` is the relation attribute of
the search, and `offset` is that of the associator record, an `unsigned int`. -/
def docidSearch (file : String) (numrecs : ℤ) (offset : ℤ → BitVec 32) (relationAttr idnum : ℤ) :
    Exec DocidAnswer :=
  let relation := if relationAttr ≠ 0 ∧ relationAttr ≠ 3 then relationAttr else 0
  if idnum = 0 then .ok (.diagnosed 10 notConverted)
  else if idnum > 0 ∧
      (idnum ≤ numrecs ∨ relation = 1 ∨ relation = 2 ∨ relation = 4 ∨ relation = 5) then
    let assocOffset := if idnum < numrecs then offset idnum else 0#32
    if assocOffset < 0#32 then .ok .null
    else docidRange numrecs relation idnum >>= answerRange file idnum
  else .ok (.diagnosed 10 numberTooLarge)

/-- A record number stands in the relation to the number of the search. -/
def relatedTo (relationAttr idnum recnum : ℤ) : Bool :=
  if relationAttr = 1 then recnum < idnum
  else if relationAttr = 2 then recnum ≤ idnum
  else if relationAttr = 4 then recnum ≥ idnum
  else if relationAttr = 5 then recnum > idnum
  else recnum = idnum

/-- The record numbers from `first` on, `count` of them. -/
def recnumsFrom (first : ℤ) : ℕ → List ℤ
  | 0 => []
  | count + 1 => first :: recnumsFrom (first + 1) count

/-- The records of the database in the relation, deleted or not. -/
def relatedRecords (numrecs : ℕ) (relationAttr idnum : ℤ) : List ℤ :=
  (recnumsFrom 1 numrecs).filter (relatedTo relationAttr idnum)

/-- The set has one entry for each record, in this order, and no other entry is filled. -/
structure ListsDocids (set : WeightedResult) (records : List ℤ) : Prop where
  numHits : set.numHits = records.length
  entries : ∃ spare, set.entries = records.map docidEntry ++ List.replicate spare WeightedEntry.zero

/-- The search finds the records, and is NULL where there is none. -/
def FindsDocids (records : List ℤ) : Exec DocidAnswer → Prop
  | .ok (.found set) => records ≠ [] ∧ ListsDocids set records
  | .ok _ => records = []
  | .error _ => False

/-- The mark that `fil_del` leaves: an offset that is negative as an `int`. -/
def isDeleted (offset : ℤ → BitVec 32) (recnum : ℤ) : Bool := (offset recnum).toInt < 0

/-- The records of the search: those that are not deleted. -/
def undeleted (offset : ℤ → BitVec 32) (records : List ℤ) : List ℤ :=
  records.filter fun recnum ↦ !isDeleted offset recnum

variable {first recnum : ℤ} {count : ℕ}

theorem mem_recnumsFrom :
    recnum ∈ recnumsFrom first count ↔ first ≤ recnum ∧ recnum < first + count := by
  induction count generalizing first with
  | zero => simp [recnumsFrom]
  | succ count ih =>
    rw [recnumsFrom, List.mem_cons, ih]
    push_cast
    omega

theorem pairwise_recnumsFrom (first : ℤ) (count : ℕ) : (recnumsFrom first count).Pairwise (· < ·) := by
  induction count generalizing first with
  | zero => exact List.Pairwise.nil
  | succ count ih =>
    refine List.Pairwise.cons (fun recnum hmem ↦ ?_) (ih (first + 1))
    have hle := (mem_recnumsFrom.mp hmem).1
    omega

@[simp] theorem length_recnumsFrom (first : ℤ) (count : ℕ) :
    (recnumsFrom first count).length = count := by
  induction count generalizing first with
  | zero => rfl
  | succ count ih => rw [recnumsFrom, List.length_cons, ih]

variable {relationAttr : ℤ}

theorem related_eq_recnumsFrom {numrecs : ℕ} {idnum : ℤ}
    (h : ∀ recnum : ℤ, 1 ≤ recnum ∧ recnum ≤ numrecs ∧ relatedTo relationAttr idnum recnum = true ↔
      first ≤ recnum ∧ recnum < first + count) :
    relatedRecords numrecs relationAttr idnum = recnumsFrom first count := by
  have hsorted := (pairwise_recnumsFrom 1 numrecs).filter (relatedTo relationAttr idnum)
  have hsorted' := pairwise_recnumsFrom first count
  have hperm : (relatedRecords numrecs relationAttr idnum).Perm (recnumsFrom first count) := by
    have hnodup := hsorted.imp fun hlt ↦ hlt.ne
    have hnodup' := hsorted'.imp fun hlt ↦ hlt.ne
    refine (List.perm_ext_iff_of_nodup hnodup hnodup').mpr ?_
    intro recnum
    rw [mem_recnumsFrom, ← h, List.mem_filter, mem_recnumsFrom]
    constructor
    · rintro ⟨⟨hlow, hhigh⟩, hrelated⟩
      exact ⟨hlow, by omega, hrelated⟩
    · rintro ⟨hlow, hhigh, hrelated⟩
      exact ⟨⟨hlow, by omega⟩, hrelated⟩
  exact hperm.eq_of_pairwise (fun _ _ _ _ hlt hlt' ↦ absurd hlt hlt'.not_gt) hsorted hsorted'

variable {entries : List WeightedEntry}

theorem enterRecord_spec {size : ℕ} {out : List WeightedEntry}
    (h : Holds WeightedEntry.zero size entries out) (hroom : out.length < size) (recnum : ℤ) :
    ∃ filled, enterRecord entries out.length recnum = .ok filled ∧
      Holds WeightedEntry.zero size filled (out ++ [docidEntry recnum]) := by
  obtain ⟨filled, hstore, hholds⟩ := h.store hroom (docidEntry recnum)
  refine ⟨filled, ?_, hholds⟩
  rw [enterRecord, hstore]

theorem fillRecords_spec {size : ℕ} {out : List WeightedEntry}
    (h : Holds WeightedEntry.zero size entries out) (hroom : out.length + count ≤ size)
    (hpos : 1 ≤ recnum) (hmax : recnum + count ≤ INT_MAX) :
    ∃ filled, fillRecords count recnum out.length entries = .ok filled ∧
      Holds WeightedEntry.zero size filled (out ++ (recnumsFrom recnum count).map docidEntry) := by
  induction count generalizing recnum entries out with
  | zero => exact ⟨entries, rfl, by simpa [recnumsFrom] using h⟩
  | succ count ih =>
    rw [INT_MAX] at hmax
    push_cast at hmax
    obtain ⟨entries', henter, hholds⟩ := enterRecord_spec h (by omega) recnum
    have hnext : checkInt (recnum + 1) = .ok (recnum + 1) := if_pos (by omega)
    have hlength : (out ++ [docidEntry recnum]).length = out.length + 1 := List.length_append
    obtain ⟨filled, hfilled, hall⟩ :=
      ih hholds (by omega) (show 1 ≤ recnum + 1 by omega) (by rw [INT_MAX]; push_cast; omega)
    refine ⟨filled, ?_, ?_⟩
    · rw [fillRecords, henter, ← hfilled, hlength]
      exact congrArg (· >>= fun recnum ↦ fillRecords count recnum (out.length + 1) entries') hnext
    · rw [recnumsFrom, List.map_cons]
      rwa [List.append_assoc] at hall

theorem le_of_fillRecords {i : ℕ} {filled : List WeightedEntry}
    (h : fillRecords count recnum i entries = .ok filled) (hpos : 0 < count) :
    recnum + count ≤ INT_MAX := by
  induction count generalizing recnum i entries with
  | zero => exact absurd hpos (Nat.lt_irrefl 0)
  | succ count ih =>
    obtain ⟨entries', -, hrest⟩ := bind_eq_ok.mp h
    obtain ⟨next, hnext, hloop⟩ := bind_eq_ok.mp hrest
    obtain rfl := checkInt_eq_ok hnext
    rcases Nat.eq_zero_or_pos count with rfl | hcount
    · rw [checkInt] at hnext
      split at hnext
      · rw [INT_MAX]
        push_cast
        omega
      · cases hnext
    · have hle := ih hloop hcount
      push_cast
      omega

variable {last : ℤ}

theorem docidResult_spec (file : String) {allocrecs : ℕ} (hpos : 0 < allocrecs)
    (hroom : count ≤ allocrecs + 1) (idnum : ℤ) (hlast : last = first + count - 1)
    (hfirst : 1 ≤ first) (hmax : last < INT_MAX) :
    ∃ set, docidResult file ⟨allocrecs, first, last⟩ idnum = .ok set ∧ set.numHits = allocrecs ∧
      set.entries = (recnumsFrom first count).map docidEntry ++
        List.replicate (allocrecs + 1 - count) WeightedEntry.zero := by
  obtain ⟨filled, hfilled, hholds⟩ := fillRecords_spec (holds_calloc WeightedEntry.zero (allocrecs + 1))
    (show [].length + count ≤ allocrecs + 1 by simpa using hroom) hfirst (by omega)
  have hcount : (last + 1 - first).toNat = count := by omega
  refine ⟨freshDocids file allocrecs filled, ?_, rfl, ?_⟩
  · rw [docidResult]
    simp only [show ¬(allocrecs : ℤ) < 0 by omega, if_false, show ¬(allocrecs : ℤ) = 0 by omega, hcount,
      Int.toNat_natCast]
    exact bind_eq_ok.mpr ⟨filled, hfilled, rfl⟩
  · rw [freshDocids, hholds.2]
    simp

variable {allocrecs : ℤ}

theorem last_lt_of_docidResult {file : String} {idnum : ℤ} {set : WeightedResult}
    (h : docidResult file ⟨allocrecs, first, last⟩ idnum = .ok set) (hpos : 0 < allocrecs)
    (hle : first ≤ last) : last < INT_MAX := by
  rw [docidResult] at h
  simp only [show ¬allocrecs < 0 by omega, if_false, show ¬allocrecs = 0 by omega] at h
  obtain ⟨filled, hfilled, -⟩ := bind_eq_ok.mp h
  have hmax := le_of_fillRecords hfilled (by omega)
  omega

theorem FindsDocids.unique {run : Exec DocidAnswer} {records records' : List ℤ} (h : FindsDocids records run)
    (h' : FindsDocids records' run) : records = records' := by
  rcases run with fault | answer
  · exact h.elim
  cases answer with
  | null =>
    change records = [] at h
    change records' = [] at h'
    rw [h, h']
  | diagnosed code addInfo =>
    change records = [] at h
    change records' = [] at h'
    rw [h, h']
  | found set =>
    obtain ⟨-, hhits, spare, hentries⟩ := h
    obtain ⟨-, hhits', spare', hentries'⟩ := h'
    have hlength : records.length = records'.length := by
      have hcast := hhits.symm.trans hhits'
      exact_mod_cast hcast
    have hmap := (List.append_inj (hentries.symm.trans hentries') (by simpa using hlength)).1
    exact (List.map_injective_iff.mpr fun first second heq ↦ congrArg WeightedEntry.recordNum heq) hmap

theorem undeleted_eq_self_iff {offset : ℤ → BitVec 32} {records : List ℤ} :
    undeleted offset records = records ↔ ∀ recnum ∈ records, isDeleted offset recnum = false := by
  rw [undeleted, List.filter_eq_self]
  exact forall₂_congr fun recnum _ ↦ Bool.not_eq_eq_eq_not.trans Iff.rfl

theorem finds_diagnosed {file : String} {idnum : ℤ} {text : String} {records : List ℤ} :
    FindsDocids records (answerRange file idnum (.error text)) ↔ records = [] := Iff.rfl

theorem finds_of_docidResult {file : String} {idnum : ℤ} {range : DocidRange} {records : List ℤ}
    (h : FindsDocids records (answerRange file idnum (.ok range))) :
    ∃ set, docidResult file range idnum = .ok set ∧ records ≠ [] ∧ ListsDocids set records := by
  rw [answerRange] at h
  rcases hrun : docidResult file range idnum with fault | set
  · rw [hrun] at h
    exact h.elim
  · rw [hrun] at h
    exact ⟨set, rfl, h⟩

theorem finds_range_iff {file : String} {records : List ℤ} {idnum : ℤ} (hpos : 0 < count)
    (hfirst : 1 ≤ first) (halloc : allocrecs = count) (hlast : last = first + count - 1) :
    FindsDocids records (answerRange file idnum (.ok ⟨allocrecs, first, last⟩)) ↔
      (∀ recnum ∈ recnumsFrom first count, recnum < INT_MAX) ∧ records = recnumsFrom first count := by
  subst halloc
  have hfinds (hmax : last < INT_MAX) :
      FindsDocids (recnumsFrom first count) (answerRange file idnum (.ok ⟨count, first, last⟩)) := by
    obtain ⟨set, hrun, hhits, hentries⟩ :=
      docidResult_spec file hpos (Nat.le_succ count) idnum hlast hfirst hmax
    rw [answerRange, hrun]
    refine ⟨List.ne_nil_of_length_pos (by rwa [length_recnumsFrom]), ?_, _, hentries⟩
    rw [hhits, length_recnumsFrom]
  have hall : (∀ recnum ∈ recnumsFrom first count, recnum < INT_MAX) ↔ last < INT_MAX := by
    constructor
    · intro h
      exact h last (mem_recnumsFrom.mpr (by omega))
    · intro hmax recnum hmem
      have hlt := (mem_recnumsFrom.mp hmem).2
      omega
  rw [hall]
  constructor
  · intro h
    obtain ⟨set, hrun, -⟩ := finds_of_docidResult h
    have hmax := last_lt_of_docidResult hrun (by omega) (by omega)
    exact ⟨hmax, h.unique (hfinds hmax)⟩
  · intro h
    rw [h.2]
    exact hfinds h.1

/-- The records below a number of the database do not fill the block right: its entry is made, too. -/
theorem not_finds_below {file : String} {records : List ℤ} {idnum : ℤ} (h : 2 ≤ idnum) :
    ¬FindsDocids records (answerRange file idnum (.ok ⟨idnum - 1, 1, idnum⟩)) := by
  intro hfinds
  obtain ⟨set, hrun, -, hhits, spare, hentries⟩ := finds_of_docidResult hfinds
  have hmax := last_lt_of_docidResult hrun (by omega) (by omega)
  obtain ⟨alloc, halloc⟩ : ∃ alloc : ℕ, idnum - 1 = alloc := ⟨(idnum - 1).toNat, by omega⟩
  obtain ⟨other, hother, hhits', hentries'⟩ :=
    docidResult_spec file (show 0 < alloc by omega) (le_refl (alloc + 1)) idnum
      (show idnum = 1 + ((alloc + 1 : ℕ) : ℤ) - 1 by push_cast; omega) (le_refl 1) hmax
  rw [← halloc, hrun] at hother
  obtain rfl := Except.ok.inj hother
  have hlength : records.length = alloc := by
    have hcast := hhits.symm.trans hhits'
    exact_mod_cast hcast
  rw [hentries, Nat.sub_self, List.replicate_zero, List.append_nil] at hentries'
  have hspare : spare = 1 := by
    have hlengths := congrArg List.length hentries'
    rw [List.length_append, List.length_map, List.length_replicate, List.length_map,
      length_recnumsFrom] at hlengths
    omega
  have hzero : WeightedEntry.zero ∈ (recnumsFrom 1 (alloc + 1)).map docidEntry := by
    rw [← hentries', hspare]
    exact List.mem_append_right _ List.mem_cons_self
  obtain ⟨recnum, -, heq⟩ := List.mem_map.mp hzero
  have hweight : (1 : ℚ) = 0 := congrArg WeightedEntry.weight heq
  exact one_ne_zero hweight

section Relations

variable {file : String} {numrecs : ℕ} {offset : ℤ → BitVec 32} {idnum : ℤ} {records : List ℤ}

/-- What the ranges are right for: not for less than a number of the database from 2 on, and not where
the counter of the loop or its start leaves the `int`s. -/
structure RangeFits (numrecs : ℕ) (relation idnum : ℤ) : Prop where
  less : ¬(relation = 1 ∧ 2 ≤ idnum ∧ idnum ≤ numrecs)
  start : relation = 5 → idnum < INT_MAX
  counter : relation ≠ 0 → ∀ recnum ∈ relatedRecords numrecs relation idnum, recnum < INT_MAX

variable {relation : ℤ}

theorem fits_of_related_nil (h : relatedRecords numrecs relation idnum = [])
    (hless : ¬(relation = 1 ∧ 2 ≤ idnum ∧ idnum ≤ numrecs))
    (hstart : relation = 5 → idnum < INT_MAX) : RangeFits numrecs relation idnum := by
  refine ⟨hless, hstart, fun _ recnum hmem ↦ ?_⟩
  rw [h] at hmem
  exact absurd hmem List.not_mem_nil

theorem related_eq_nil
    (h : ∀ recnum : ℤ, 1 ≤ recnum → recnum ≤ numrecs → ¬relatedTo relation idnum recnum = true) :
    relatedRecords numrecs relation idnum = [] := by
  rw [relatedRecords, List.filter_eq_nil_iff]
  intro recnum hmem
  obtain ⟨hlow, hhigh⟩ := mem_recnumsFrom.mp hmem
  exact h recnum hlow (by omega)

theorem finds_diagnosed_iff (file : String) {text : String}
    (h : relatedRecords numrecs relation idnum = [])
    (hless : ¬(relation = 1 ∧ 2 ≤ idnum ∧ idnum ≤ numrecs))
    (hstart : relation = 5 → idnum < INT_MAX) :
    FindsDocids records (answerRange file idnum (.error text)) ↔
      RangeFits numrecs relation idnum ∧ records = relatedRecords numrecs relation idnum := by
  rw [finds_diagnosed, h, and_iff_right (fits_of_related_nil h hless hstart)]

theorem finds_range_related_iff (count : ℕ) (hrelation : relation ≠ 0)
    (hless : ¬(relation = 1 ∧ 2 ≤ idnum ∧ idnum ≤ numrecs))
    (hstart : relation = 5 → idnum < INT_MAX) (hpos : 0 < count) (hfirst : 1 ≤ first)
    (halloc : allocrecs = count) (hlast : last = first + count - 1)
    (hrelated : ∀ recnum : ℤ,
      1 ≤ recnum ∧ recnum ≤ numrecs ∧ relatedTo relation idnum recnum = true ↔
        first ≤ recnum ∧ recnum < first + count) :
    FindsDocids records (answerRange file idnum (.ok ⟨allocrecs, first, last⟩)) ↔
      RangeFits numrecs relation idnum ∧ records = relatedRecords numrecs relation idnum := by
  rw [finds_range_iff hpos hfirst halloc hlast, ← related_eq_recnumsFrom hrelated]
  refine and_congr_left fun _ ↦ ?_
  constructor
  · intro h
    exact ⟨hless, hstart, fun _ ↦ h⟩
  · intro h
    exact h.counter hrelation

theorem finds_equal_iff (hpos : 1 ≤ idnum) (hle : idnum ≤ numrecs) :
    FindsDocids records (docidRange numrecs 0 idnum >>= answerRange file idnum) ↔
      RangeFits numrecs 0 idnum ∧ records = relatedRecords numrecs 0 idnum := by
  have hrecords : relatedRecords numrecs 0 idnum = recnumsFrom idnum 1 :=
    related_eq_recnumsFrom fun recnum ↦ by
      have hrelated : relatedTo 0 idnum recnum = true ↔ recnum = idnum := by simp [relatedTo]
      rw [hrelated]
      push_cast
      omega
  obtain ⟨filled, hfilled, hholds⟩ :=
    enterRecord_spec (holds_calloc WeightedEntry.zero 1) Nat.one_pos idnum
  have hresult : docidResult file ⟨0, idnum, idnum⟩ idnum = .ok (freshDocids file 1 filled) :=
    bind_eq_ok.mpr ⟨filled, hfilled, rfl⟩
  have hfinds : FindsDocids (recnumsFrom idnum 1)
      (docidRange numrecs 0 idnum >>= answerRange file idnum) := by
    change FindsDocids _ (answerRange file idnum (.ok ⟨0, idnum, idnum⟩))
    rw [answerRange, hresult]
    exact ⟨List.cons_ne_nil _ _, rfl, 0, hholds.2⟩
  have hfits : RangeFits numrecs 0 idnum :=
    ⟨fun h ↦ absurd h.1 (by decide), fun h ↦ absurd h (by decide), fun h ↦ absurd rfl h⟩
  rw [and_iff_right hfits, hrecords]
  constructor
  · exact fun h ↦ h.unique hfinds
  · intro h
    rwa [h]

theorem finds_less_iff (hpos : 1 ≤ idnum) :
    FindsDocids records (docidRange numrecs 1 idnum >>= answerRange file idnum) ↔
      RangeFits numrecs 1 idnum ∧ records = relatedRecords numrecs 1 idnum := by
  have hrelated (recnum : ℤ) : relatedTo 1 idnum recnum = true ↔ recnum < idnum := by simp [relatedTo]
  have hstart : (1 : ℤ) = 5 → idnum < INT_MAX := fun h ↦ absurd h (by decide)
  have hrange : docidRange numrecs 1 idnum = .ok
      (if (if idnum > numrecs then (⟨numrecs, 1, numrecs⟩ : DocidRange)
          else ⟨idnum - 1, 1, idnum⟩).allocrecs = 0
        then .error lessThanOne
        else .ok (if idnum > numrecs then ⟨numrecs, 1, numrecs⟩ else ⟨idnum - 1, 1, idnum⟩)) := rfl
  rw [hrange]
  by_cases hlarge : idnum > numrecs
  · rw [if_pos hlarge]
    by_cases hempty : numrecs = 0
    · have hnil : relatedRecords numrecs 1 idnum = [] := related_eq_nil fun recnum hlow hhigh ↦ by omega
      rw [if_pos (by rw [hempty]; rfl)]
      exact finds_diagnosed_iff file hnil (by omega) hstart
    · rw [if_neg (by simpa using hempty)]
      exact finds_range_related_iff numrecs one_ne_zero (by omega) hstart (by omega) le_rfl rfl (by omega)
        fun recnum ↦ by rw [hrelated]; omega
  · rw [if_neg hlarge]
    by_cases hone : idnum = 1
    · have hnil : relatedRecords numrecs 1 idnum = [] :=
        related_eq_nil fun recnum hlow _ ↦ by rw [hrelated]; omega
      rw [if_pos (by rw [hone]; rfl)]
      exact finds_diagnosed_iff file hnil (by omega) hstart
    · rw [if_neg (show ¬idnum - 1 = 0 by omega)]
      refine iff_of_false (not_finds_below (by omega)) fun h ↦ h.1.less ⟨rfl, by omega, by omega⟩

theorem finds_atMost_iff (hpos : 1 ≤ idnum) :
    FindsDocids records (docidRange numrecs 2 idnum >>= answerRange file idnum) ↔
      RangeFits numrecs 2 idnum ∧ records = relatedRecords numrecs 2 idnum := by
  have hrelated (recnum : ℤ) : relatedTo 2 idnum recnum = true ↔ recnum ≤ idnum := by simp [relatedTo]
  have hless : ¬((2 : ℤ) = 1 ∧ 2 ≤ idnum ∧ idnum ≤ numrecs) := fun h ↦ absurd h.1 (by decide)
  have hstart : (2 : ℤ) = 5 → idnum < INT_MAX := fun h ↦ absurd h (by decide)
  have hrange : docidRange numrecs 2 idnum = .ok
      (if (if idnum > numrecs then (⟨numrecs, 1, numrecs⟩ : DocidRange)
          else ⟨idnum, 1, idnum⟩).allocrecs = 0
        then .error lessThanOne
        else .ok (if idnum > numrecs then ⟨numrecs, 1, numrecs⟩ else ⟨idnum, 1, idnum⟩)) := rfl
  rw [hrange]
  by_cases hlarge : idnum > numrecs
  · rw [if_pos hlarge]
    by_cases hempty : numrecs = 0
    · have hnil : relatedRecords numrecs 2 idnum = [] := related_eq_nil fun recnum hlow hhigh ↦ by omega
      rw [if_pos (by rw [hempty]; rfl)]
      exact finds_diagnosed_iff file hnil hless hstart
    · rw [if_neg (by simpa using hempty)]
      exact finds_range_related_iff numrecs two_ne_zero hless hstart (by omega) le_rfl rfl (by omega)
        fun recnum ↦ by rw [hrelated]; omega
  · rw [if_neg hlarge, if_neg (show ¬idnum = 0 by omega)]
    exact finds_range_related_iff idnum.toNat two_ne_zero hless hstart (by omega) le_rfl (by omega)
      (by omega) fun recnum ↦ by rw [hrelated]; omega

theorem finds_atLeast_iff (hpos : 1 ≤ idnum) :
    FindsDocids records (docidRange numrecs 4 idnum >>= answerRange file idnum) ↔
      RangeFits numrecs 4 idnum ∧ records = relatedRecords numrecs 4 idnum := by
  have hrelated (recnum : ℤ) : relatedTo 4 idnum recnum = true ↔ recnum ≥ idnum := by simp [relatedTo]
  have hless : ¬((4 : ℤ) = 1 ∧ 2 ≤ idnum ∧ idnum ≤ numrecs) := fun h ↦ absurd h.1 (by decide)
  have hstart : (4 : ℤ) = 5 → idnum < INT_MAX := fun h ↦ absurd h (by decide)
  have hrange : docidRange numrecs 4 idnum = .ok (if idnum > numrecs then .error startTooLarge
      else .ok ⟨numrecs - (idnum - 1), idnum, numrecs⟩) := rfl
  rw [hrange]
  by_cases hlarge : idnum > numrecs
  · have hnil : relatedRecords numrecs 4 idnum = [] :=
      related_eq_nil fun recnum _ hhigh ↦ by rw [hrelated]; omega
    rw [if_pos hlarge]
    exact finds_diagnosed_iff file hnil hless hstart
  · rw [if_neg hlarge]
    exact finds_range_related_iff (numrecs - (idnum - 1)).toNat (by decide) hless hstart (by omega)
      hpos (by omega) (by omega) fun recnum ↦ by rw [hrelated]; omega

theorem finds_greater_iff (hpos : 1 ≤ idnum) (hint : idnum ≤ INT_MAX) :
    FindsDocids records (docidRange numrecs 5 idnum >>= answerRange file idnum) ↔
      RangeFits numrecs 5 idnum ∧ records = relatedRecords numrecs 5 idnum := by
  have hrelated (recnum : ℤ) : relatedTo 5 idnum recnum = true ↔ recnum > idnum := by simp [relatedTo]
  have hless : ¬((5 : ℤ) = 1 ∧ 2 ≤ idnum ∧ idnum ≤ numrecs) := fun h ↦ absurd h.1 (by decide)
  have hrange : docidRange numrecs 5 idnum = checkInt (idnum + 1) >>= fun start ↦
      .ok (if start > numrecs then .error startTooLarge else .ok ⟨numrecs - idnum, start, numrecs⟩) := rfl
  rw [hrange]
  rw [INT_MAX] at hint
  by_cases hmax : idnum < INT_MAX
  · have hnext : checkInt (idnum + 1) = .ok (idnum + 1) := by
      rw [INT_MAX] at hmax
      exact if_pos (by push_cast at hmax; omega)
    rw [hnext]
    change FindsDocids records (answerRange file idnum (if idnum + 1 > numrecs then .error startTooLarge
      else .ok ⟨numrecs - idnum, idnum + 1, numrecs⟩)) ↔ _
    by_cases hlarge : idnum + 1 > numrecs
    · have hnil : relatedRecords numrecs 5 idnum = [] :=
        related_eq_nil fun recnum _ hhigh ↦ by rw [hrelated]; omega
      rw [if_pos hlarge]
      exact finds_diagnosed_iff file hnil hless fun _ ↦ hmax
    · rw [if_neg hlarge]
      exact finds_range_related_iff (numrecs - idnum).toNat (by decide) hless (fun _ ↦ hmax) (by omega)
        (by omega) (by omega) (by omega) fun recnum ↦ by rw [hrelated]; omega
  · have hnext : checkInt (idnum + 1) = .error .signedOverflow := by
      rw [INT_MAX] at hmax
      exact if_neg (by push_cast at hmax; omega)
    rw [hnext]
    exact iff_of_false (fun h ↦ h) fun h ↦ hmax (h.1.start rfl)

/-- What the right answer depends on: the range fits, and none of the related records is deleted. -/
def DocidRight (numrecs : ℕ) (offset : ℤ → BitVec 32) (relation idnum : ℤ) : Prop :=
  RangeFits numrecs relation idnum ∧
    ∀ recnum ∈ relatedRecords numrecs relation idnum, isDeleted offset recnum = false

/-- A relation without a number is that for equality. -/
def docidRelation (relationAttr : ℤ) : ℤ :=
  if relationAttr ≠ 0 ∧ relationAttr ≠ 3 then relationAttr else 0

theorem related_docidRelation (relationAttr : ℤ) :
    relatedRecords numrecs (docidRelation relationAttr) idnum =
      relatedRecords numrecs relationAttr idnum := by
  rw [docidRelation]
  split_ifs with h
  · rfl
  · have hattr : relationAttr = 0 ∨ relationAttr = 3 := by omega
    rcases hattr with rfl | rfl
    · rfl
    · rfl

theorem docidRelation_cases (hattr : 0 ≤ relationAttr ∧ relationAttr ≤ 5) :
    docidRelation relationAttr = 0 ∨ docidRelation relationAttr = 1 ∨ docidRelation relationAttr = 2 ∨
      docidRelation relationAttr = 4 ∨ docidRelation relationAttr = 5 := by
  rw [docidRelation]
  split_ifs with h
  · omega
  · exact Or.inl rfl

theorem finds_docidRange_iff
    (hrelation : relation = 0 ∨ relation = 1 ∨ relation = 2 ∨ relation = 4 ∨ relation = 5)
    (hpos : 1 ≤ idnum) (hint : idnum ≤ INT_MAX) (hguard : relation = 0 → idnum ≤ numrecs) :
    FindsDocids records (docidRange numrecs relation idnum >>= answerRange file idnum) ↔
      RangeFits numrecs relation idnum ∧ records = relatedRecords numrecs relation idnum := by
  rcases hrelation with rfl | rfl | rfl | rfl | rfl
  · exact finds_equal_iff hpos (hguard rfl)
  · exact finds_less_iff hpos
  · exact finds_atMost_iff hpos
  · exact finds_atLeast_iff hpos
  · exact finds_greater_iff hpos hint

theorem docidSearch_eq (file : String) (hpos : 1 ≤ idnum)
    (hguard : docidRelation relationAttr = 0 → idnum ≤ numrecs)
    (hattr : 0 ≤ relationAttr ∧ relationAttr ≤ 5) :
    docidSearch file numrecs offset relationAttr idnum =
      docidRange numrecs (docidRelation relationAttr) idnum >>= answerRange file idnum := by
  have hentered : idnum > 0 ∧ (idnum ≤ numrecs ∨ docidRelation relationAttr = 1 ∨
      docidRelation relationAttr = 2 ∨ docidRelation relationAttr = 4 ∨ docidRelation relationAttr = 5) := by
    refine ⟨by omega, ?_⟩
    rcases docidRelation_cases hattr with hzero | hrest
    · exact Or.inl (hguard hzero)
    · exact Or.inr hrest
  have hunsigned : ¬(if idnum < numrecs then offset idnum else 0#32) < 0#32 := BitVec.not_lt_zero
  rw [docidSearch, if_neg (by omega)]
  exact (if_pos hentered).trans (if_neg hunsigned)

/-- The records of a search by document number are right in just these cases. -/
theorem docidSearch_iff (file : String) (numrecs : ℕ) (offset : ℤ → BitVec 32) {relationAttr idnum : ℤ}
    (hattr : 0 ≤ relationAttr ∧ relationAttr ≤ 5) (hpos : 1 ≤ idnum) (hint : idnum ≤ INT_MAX) :
    FindsDocids (undeleted offset (relatedRecords numrecs relationAttr idnum))
        (docidSearch file numrecs offset relationAttr idnum) ↔
      DocidRight numrecs offset (docidRelation relationAttr) idnum := by
  rw [← related_docidRelation relationAttr]
  by_cases hguard : docidRelation relationAttr = 0 → idnum ≤ numrecs
  · rw [docidSearch_eq file hpos hguard hattr,
      finds_docidRange_iff (docidRelation_cases hattr) hpos hint hguard, undeleted_eq_self_iff]
    exact Iff.rfl
  · have hzero : docidRelation relationAttr = 0 := by
      by_contra hne
      exact hguard fun h ↦ absurd h hne
    have hlarge : (numrecs : ℤ) < idnum := by
      by_contra hle
      exact hguard fun _ ↦ not_lt.mp hle
    have hnil : relatedRecords numrecs 0 idnum = [] := related_eq_nil fun recnum _ hhigh hrelated ↦ by
      have heq : recnum = idnum := by simpa [relatedTo] using hrelated
      omega
    have hsearch : docidSearch file numrecs offset relationAttr idnum =
        .ok (.diagnosed 10 numberTooLarge) := by
      have hrelation := hzero
      rw [docidRelation] at hrelation
      rw [docidSearch, if_neg (by omega)]
      simp only [hrelation]
      exact if_neg (by omega)
    rw [hsearch, hzero, hnil]
    refine iff_of_true rfl ⟨?_, ?_⟩
    · exact fits_of_related_nil hnil (by omega) (by omega)
    · rw [hnil]
      exact fun recnum hmem ↦ absurd hmem List.not_mem_nil

end Relations

/-- Of three records the second one is deleted; the search is for those from the third one on. -/
theorem docidSearch_iff_atLeast :
    (0 ≤ (4 : ℤ) ∧ (4 : ℤ) ≤ 5) ∧ 1 ≤ (3 : ℤ) ∧ (3 : ℤ) ≤ INT_MAX ∧
      (FindsDocids (undeleted (fun recnum ↦ if recnum = 2 then -1#32 else 0#32) (relatedRecords 3 4 3))
          (docidSearch "docs" (3 : ℕ) (fun recnum ↦ if recnum = 2 then -1#32 else 0#32) 4 3) ↔
        DocidRight 3 (fun recnum ↦ if recnum = 2 then -1#32 else 0#32) (docidRelation 4) 3) :=
  ⟨by decide, by decide, by decide, docidSearch_iff "docs" 3 _ (by decide) (by decide) (by decide)⟩

/-- Of two records, none of them deleted, the record below the second one is asked for. -/
theorem not_finds_two :
    ¬FindsDocids (undeleted (fun _ ↦ 0#32) (relatedRecords 2 1 2))
      (docidSearch "docs" (2 : ℕ) (fun _ ↦ 0#32) 1 2) := by
  have hsearch : docidSearch "docs" (2 : ℕ) (fun _ ↦ 0#32) 1 2 =
      answerRange "docs" 2 (.ok ⟨2 - 1, 1, 2⟩) := rfl
  rw [hsearch]
  exact not_finds_below le_rfl

end Cheshire.Search
