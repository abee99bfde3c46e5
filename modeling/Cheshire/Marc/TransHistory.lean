import Cheshire.Marc.Trans

/-!
# The associator along a history

The specification is the list of the records converted so far.  The associator agrees with it after
every run as long as the first run converts a record and later runs convert none: a later run starts
the sum of the lengths from zero again, and a first run without a record leaves the bytes of a string
as the header.
-/

namespace Cheshire.Marc

open FileIo Lib

variable (callees : MarcCallees) (behind : BehindLiteral)

/-- The records that a run converts, by the routines for one record alone. -/
def conversions : ℕ → RecBuffer → ℤ → Bytes → Exec (List FileIo.CString)
  | 0, _, _, _ => .error .unfinished
  | fuel + 1, recbuffer, marcrecsin, marcin => do
    match ← readMarc2 recbuffer marcin with
    | none => .ok []
    | some (recbuffer, lrecl, marcin) => do
      let marcrecsin ← checkInt (marcrecsin + 1)
      match ← callees.getMarc recbuffer lrecl with
      | (recbuffer, none) => conversions fuel recbuffer marcrecsin marcin
      | (recbuffer, some marcrec) => do
        match ← callees.marc2sgml marcrec recbuffer marcrecsin with
        | (recbuffer, none) => conversions fuel recbuffer marcrecsin marcin
        | (recbuffer, some sgmlrec) => do
          let records ← conversions fuel recbuffer marcrecsin marcin
          .ok (sgmlrec :: records)

/-- The records that a run converts, where it starts with these files. -/
def runConversions (files : ConversionFiles) (run : ConversionRun) : Exec (List FileIo.CString) :=
  conversions callees (run.marcin.length + 1) (fun _ ↦ 0) (startNumber files run) run.marcin

variable {callees behind}

theorem transLoop_eq_ok {fuel : ℕ} {recbuffer : RecBuffer} {marcrecsin : ℤ} {marcin : Bytes}
    {t t' : TransState} :
    transLoop callees fuel recbuffer marcrecsin marcin t = .ok t' ↔
      ∃ records, conversions callees fuel recbuffer marcrecsin marcin = .ok records ∧
        records.foldlM storeRecord t = .ok t' := by
  induction fuel generalizing recbuffer marcrecsin marcin t with
  | zero => simp [transLoop, conversions]
  | succ fuel ih =>
    rw [transLoop, conversions]
    cases readMarc2 recbuffer marcin with
    | error fault => simp [bind, Except.bind]
    | ok read =>
      rcases read with _ | ⟨recbuffer, lrecl, marcin⟩
      · simp [bind, Except.bind, pure, Except.pure]
      cases checkInt (marcrecsin + 1) with
      | error fault => simp [bind, Except.bind]
      | ok marcrecsin =>
        rcases hmarc : callees.getMarc recbuffer lrecl with fault | ⟨recbuffer, _ | marcrec⟩
        · simp [bind, Except.bind, hmarc]
        · simpa [bind, Except.bind, hmarc] using ih
        rcases hsgml : callees.marc2sgml marcrec recbuffer marcrecsin with
          fault | ⟨recbuffer, _ | sgmlrec⟩
        · simp [bind, Except.bind, hmarc, hsgml]
        · simpa [bind, Except.bind, hmarc, hsgml] using ih
        rcases hrest : conversions callees fuel recbuffer marcrecsin marcin with fault | records
        · rcases hstore : storeRecord t sgmlrec with fault | next
          · simp [bind, Except.bind, hmarc, hsgml, hrest, hstore]
          · simp [bind, Except.bind, hmarc, hsgml, hrest, hstore, ih]
        · rcases hstore : storeRecord t sgmlrec with fault | next
          · simp [bind, Except.bind, hmarc, hsgml, hrest, hstore, List.foldlM_cons]
          · simp [bind, Except.bind, hmarc, hsgml, hrest, hstore, ih, List.foldlM_cons]

/-- Offset and length of records that stand one after another from a position on. -/
def entriesFrom : ℕ → List FileIo.CString → List ℤ
  | _, [] => []
  | position, record :: records =>
    (position : ℤ) :: (record.bytes.length : ℤ) ::
      entriesFrom (position + (record.bytes.length + 1)) records

def sgmlText (records : List FileIo.CString) : Bytes :=
  records.flatMap fun record ↦ record.bytes ++ [newline]

def totalLength (records : List FileIo.CString) : ℕ :=
  (records.map fun record ↦ record.bytes.length).sum

/-- The files hold these records: the header their number and the sum of their lengths, then an entry
for each of them.  Before the first run there are no files. -/
def Associates (files : ConversionFiles) (converted : List FileIo.CString) : Prop :=
  match files.assocfile, files.sgmlout with
  | some assocfile, some sgmlout =>
    assocfile = (converted.length : ℤ) :: (totalLength converted : ℤ) :: entriesFrom 0 converted ∧
      sgmlout = sgmlText converted
  | none, none => converted = []
  | _, _ => False

theorem totalLength_append (first second : List FileIo.CString) :
    totalLength (first ++ second) = totalLength first + totalLength second := by
  simp [totalLength]

theorem entriesFrom_append (position : ℕ) (first second : List FileIo.CString) :
    entriesFrom position (first ++ second) =
      entriesFrom position first ++ entriesFrom (position + (sgmlText first).length) second := by
  induction first generalizing position with
  | nil => rfl
  | cons record first ih =>
    rw [List.cons_append, entriesFrom, entriesFrom, ih, List.cons_append, List.cons_append]
    simp only [sgmlText, List.flatMap_cons, List.length_append, List.length_singleton]
    rw [Nat.add_assoc]

/-- Where the files end, what the sum is and which number comes next, all as they are. -/
structure Started (t : TransState) (sum nrecs : ℕ) : Prop where
  header : 2 ≤ t.assocfile.length
  position : t.position = t.sgmlout.length
  offset : t.offset = toInt32 t.position
  sumMarclen : t.sumMarclen = sum
  nrecs : t.nrecs = nrecs

/-- Offsets, the sum of the lengths and the number of records stay values of an `int`. -/
def Fits : ℕ → ℕ → ℕ → List FileIo.CString → Prop
  | _, _, _, [] => True
  | position, sum, nrecs, record :: records =>
    position ≤ INT_MAX ∧ sum + record.bytes.length ≤ INT_MAX ∧ nrecs + 1 ≤ INT_MAX ∧
      Fits (position + (record.bytes.length + 1)) (sum + record.bytes.length) (nrecs + 1) records

theorem le_of_checkInt {n : ℕ} {value : ℤ} (h : checkInt n = .ok value) : n ≤ INT_MAX := by
  unfold checkInt at h
  split at h
  · rw [INT_MAX]
    omega
  · cases h

variable {t t' : TransState} {sum nrecs : ℕ} {record : FileIo.CString} {records : List FileIo.CString}

theorem storeRecord_entries (h : storeRecord t record = .ok t') (hheader : 2 ≤ t.assocfile.length) :
    t'.assocfile.drop 2 = t.assocfile.drop 2 ++ [t.offset, toInt32 record.bytes.length] := by
  obtain ⟨sumMarclen, -, h⟩ := bind_eq_ok.mp h
  obtain ⟨nrecs, -, h⟩ := bind_eq_ok.mp h
  rw [← Except.ok.inj h]
  exact List.drop_append_of_le_length hheader

theorem foldlM_entries (h : records.foldlM storeRecord t = .ok t') (hheader : 2 ≤ t.assocfile.length) :
    ∃ more, t'.assocfile.drop 2 = t.assocfile.drop 2 ++ more := by
  induction records generalizing t with
  | nil => exact ⟨[], by rw [← Except.ok.inj h, List.append_nil]⟩
  | cons record records ih =>
    rw [List.foldlM_cons] at h
    obtain ⟨next, hstore, hrest⟩ := bind_eq_ok.mp h
    have hentries := storeRecord_entries hstore hheader
    have hnext : 2 ≤ next.assocfile.length := by
      have hlength := congrArg List.length hentries
      simp only [List.length_drop, List.length_append, List.length_cons, List.length_nil] at hlength
      omega
    obtain ⟨more, hmore⟩ := ih hrest hnext
    exact ⟨_, by rw [hmore, hentries, List.append_assoc]⟩

theorem Started.storeRecord (h : Started t sum nrecs) (hsum : sum + record.bytes.length ≤ INT_MAX)
    (hnrecs : nrecs + 1 ≤ INT_MAX) :
    ∃ t', storeRecord t record = .ok t' ∧ Started t' (sum + record.bytes.length) (nrecs + 1) ∧
      t'.position = t.position + (record.bytes.length + 1) ∧
      t'.sgmlout = t.sgmlout ++ (record.bytes ++ [newline]) ∧
      t'.assocfile = (nrecs : ℤ) :: ((sum + record.bytes.length : ℕ) : ℤ) ::
        (t.assocfile.drop 2 ++ [t.offset, (record.bytes.length : ℤ)]) := by
  have hlength : toInt32 record.bytes.length = record.bytes.length := toInt32_of_le (by omega)
  have hsumMarclen : checkInt (t.sumMarclen + toInt32 record.bytes.length) =
      .ok ((sum + record.bytes.length : ℕ) : ℤ) := by
    rw [h.sumMarclen, hlength, ← Nat.cast_add]
    exact checkInt_natCast hsum
  have hnext : checkInt (t.nrecs + 1) = .ok ((nrecs + 1 : ℕ) : ℤ) := by
    rw [h.nrecs, ← Nat.cast_succ]
    exact checkInt_natCast hnrecs
  have hout : writeAt t.sgmlout t.position (record.bytes ++ [newline]) =
      t.sgmlout ++ (record.bytes ++ [newline]) := by rw [h.position, writeAt_end]
  have hstore : Marc.storeRecord t record = .ok
      { assocfile := (nrecs : ℤ) :: ((sum + record.bytes.length : ℕ) : ℤ) ::
          (t.assocfile.drop 2 ++ [t.offset, (record.bytes.length : ℤ)])
        sgmlout := t.sgmlout ++ (record.bytes ++ [newline])
        position := t.position + (record.bytes.length + 1)
        nrecs := ((nrecs + 1 : ℕ) : ℤ)
        offset := toInt32 ((t.position + (record.bytes.length + 1) : ℕ) : ℤ)
        sumMarclen := ((sum + record.bytes.length : ℕ) : ℤ) } := by
    rw [Marc.storeRecord, hsumMarclen, hnext, hout, hlength, h.nrecs,
      List.drop_append_of_le_length h.header]
    rfl
  refine ⟨_, hstore, ⟨?_, ?_, ?_, ?_, ?_⟩, rfl, rfl, rfl⟩
  · simp
  · simp [h.position]
  all_goals dsimp only

theorem Started.entries_iff (h : Started t sum nrecs) :
    (∃ t', records.foldlM Marc.storeRecord t = .ok t' ∧
        t'.assocfile.drop 2 = t.assocfile.drop 2 ++ entriesFrom t.position records) ↔
      Fits t.position sum nrecs records := by
  induction records generalizing t sum nrecs with
  | nil =>
    refine iff_of_true ⟨t, rfl, ?_⟩ trivial
    rw [entriesFrom, List.append_nil]
  | cons record records ih =>
    rw [Fits]
    constructor
    · intro hfold
      obtain ⟨t', hfold, hentries⟩ := hfold
      rw [List.foldlM_cons] at hfold
      obtain ⟨next, hstore, hrest⟩ := bind_eq_ok.mp hfold
      have hfirst := storeRecord_entries hstore h.header
      have hheader : 2 ≤ next.assocfile.length := by
        have hlength := congrArg List.length hfirst
        simp only [List.length_drop, List.length_append, List.length_cons, List.length_nil]
          at hlength
        have := h.header
        omega
      obtain ⟨more, hmore⟩ := foldlM_entries hrest hheader
      -- the first entry is already there after the first record
      rw [hmore, hfirst, List.append_assoc, List.append_cancel_left_eq, entriesFrom,
        List.cons_append, List.cons_append, List.nil_append, List.cons.injEq, List.cons.injEq]
        at hentries
      obtain ⟨hoffset, hlength, hmore'⟩ := hentries
      rw [h.offset, toInt32_eq_iff] at hoffset
      obtain ⟨sumMarclen, hsum, hstore'⟩ := bind_eq_ok.mp hstore
      obtain ⟨number, hnrecs, -⟩ := bind_eq_ok.mp hstore'
      rw [h.sumMarclen, hlength, ← Nat.cast_add] at hsum
      rw [h.nrecs, ← Nat.cast_succ] at hnrecs
      have hsum' := le_of_checkInt hsum
      have hnrecs' := le_of_checkInt hnrecs
      obtain ⟨next', hnext, hstarted, hposition, -, -⟩ := h.storeRecord hsum' hnrecs'
      rw [hstore, Except.ok.injEq] at hnext
      subst hnext
      refine ⟨hoffset, hsum', hnrecs', ?_⟩
      rw [← hposition]
      refine (ih hstarted).mp ⟨t', hrest, ?_⟩
      rw [hmore, hmore', hposition]
    · intro hfits
      obtain ⟨hoffset, hsum, hnrecs, hrest⟩ := hfits
      obtain ⟨next, hstore, hstarted, hposition, -, hassoc⟩ := h.storeRecord hsum hnrecs
      rw [← hposition] at hrest
      obtain ⟨t', hfold, hentries⟩ := (ih hstarted).mpr hrest
      refine ⟨t', by rw [List.foldlM_cons, hstore]; exact hfold, ?_⟩
      rw [hentries, hassoc, h.offset, toInt32_of_le hoffset, hposition, entriesFrom]
      simp

theorem Started.foldlM (h : Started t sum nrecs) (hfits : Fits t.position sum nrecs records) :
    ∃ t', records.foldlM Marc.storeRecord t = .ok t' ∧
      t'.sgmlout = t.sgmlout ++ sgmlText records ∧
      t'.assocfile = if records = [] then t.assocfile
        else ((nrecs + records.length - 1 : ℕ) : ℤ) :: ((sum + totalLength records : ℕ) : ℤ) ::
          (t.assocfile.drop 2 ++ entriesFrom t.position records) := by
  induction records generalizing t sum nrecs with
  | nil => exact ⟨t, rfl, by simp [sgmlText], (if_pos rfl).symm⟩
  | cons record records ih =>
    obtain ⟨hoffset, hsum, hnrecs, hrest⟩ := hfits
    obtain ⟨next, hstore, hstarted, hposition, hout, hassoc⟩ := h.storeRecord hsum hnrecs
    rw [← hposition] at hrest
    obtain ⟨t', hfold, hout', hassoc'⟩ := ih hstarted hrest
    refine ⟨t', by rw [List.foldlM_cons, hstore]; exact hfold, ?_, ?_⟩
    · rw [hout', hout, sgmlText, sgmlText, List.flatMap_cons, List.append_assoc]
    · rw [hassoc', hassoc, h.offset, toInt32_of_le hoffset, if_neg (List.cons_ne_nil _ _), entriesFrom,
        ← hposition]
      split_ifs with hnil
      · subst hnil
        simp [totalLength, entriesFrom]
      · have htotal : totalLength (record :: records) =
            record.bytes.length + totalLength records := by simp [totalLength]
        have hpos := List.length_pos_iff.mpr hnil
        have hcount : nrecs + 1 + records.length - 1 = nrecs + (record :: records).length - 1 := by
          rw [List.length_cons]
          omega
        rw [htotal, hcount, ← Nat.add_assoc]
        simp

/-- What a run does to the records converted so far. -/
def specConversion (callees : MarcCallees) (files : ConversionFiles) (converted : List FileIo.CString)
    (run : ConversionRun) : List FileIo.CString :=
  converted ++ ((runConversions callees files run).toOption.getD [])

/-- The run comes to the end of its file.  The first one converts a record; a later one converts none,
unless no record before it has a byte.  What is converted fits. -/
def Summed (callees : MarcCallees) (files : ConversionFiles) (converted : List FileIo.CString)
    (run : ConversionRun) : Prop :=
  ∃ records, runConversions callees files run = .ok records ∧
    if files.assocfile = none then records ≠ [] ∧ Fits 0 0 1 records
    else records = [] ∨ totalLength converted = 0 ∧
      Fits (sgmlText converted).length 0 (converted.length + 1) records

/-- The files after every run agree with the records converted so far. -/
def AssociatesThroughout (callees : MarcCallees) (behind : BehindLiteral)
    (runs : List ConversionRun) : Prop :=
  Runs.Throughout (trans callees behind) (specConversion callees) Associates (fun _ _ _ ↦ True)
    ConversionFiles.none [] runs

theorem BehindLiteral.first_ne_zero (behind : BehindLiteral) : behind.first ≠ 0 := by
  intro hzero
  have hmod := Int.bmod_emod (x := 48 + 65536 * behind.upper) (m := 2 ^ 32)
  rw [BehindLiteral.first, toInt32] at hzero
  rw [hzero] at hmod
  omega

theorem trans_eq_ok {files files' : ConversionFiles} {run : ConversionRun} {start : TransState}
    (hstart : transStart behind files = .ok start) :
    trans callees behind files run = .ok files' ↔
      ∃ records t, runConversions callees files run = .ok records ∧
        records.foldlM storeRecord start = .ok t ∧ files' = ⟨some t.assocfile, some t.sgmlout⟩ := by
  rw [trans, hstart]
  simp only [bind_eq_ok, Except.ok.injEq, existsAndEq, true_and, transLoop_eq_ok]
  grind [runConversions]

/-- There is a number for the next record. -/
def Numberable (files : ConversionFiles) : Prop :=
  ∀ assocfile, files.assocfile = some assocfile → assocfile.headD 1 < INT_MAX

theorem numberable_none : Numberable ConversionFiles.none := by
  intro assocfile hassoc
  cases hassoc

theorem Fits.nrecs_le {position sum nrecs : ℕ} {records : List FileIo.CString}
    (h : Fits position sum nrecs records) (hnrecs : nrecs ≤ INT_MAX) :
    nrecs + records.length ≤ INT_MAX := by
  induction records generalizing position sum nrecs with
  | nil => exact hnrecs
  | cons record records ih =>
    obtain ⟨-, -, hnext, hrest⟩ := h
    have := ih hrest hnext
    rw [List.length_cons]
    omega

variable {files files' : ConversionFiles} {converted : List FileIo.CString} {run : ConversionRun}

theorem transStart_none :
    ∃ start, transStart behind ConversionFiles.none = .ok start ∧ Started start 0 1 ∧
      start.assocfile = [behind.first, behind.second] ∧ start.sgmlout = [] ∧ start.position = 0 := by
  have hzero : toInt32 ((0 : ℕ) : ℤ) = 0 := toInt32_of_le (Nat.zero_le _)
  refine ⟨_, rfl, ⟨?_, ?_, ?_, ?_, ?_⟩, rfl, rfl, rfl⟩
  · simp
  · rfl
  · exact hzero.symm
  · rfl
  · rfl

theorem transStart_exists (assocfile : List ℤ) (sgmlout : Bytes) :
    transStart behind ⟨some assocfile, some sgmlout⟩ =
      checkInt (assocfile.headD 1 + 1) >>= fun nrecs ↦ .ok
        { assocfile
          sgmlout
          position := sgmlout.length
          nrecs
          offset := toInt32 sgmlout.length
          sumMarclen := 0 } := rfl

theorem transStart_some {assocfile : List ℤ} {sgmlout : Bytes}
    (h : Associates ⟨some assocfile, some sgmlout⟩ converted)
    (hnumber : Numberable ⟨some assocfile, some sgmlout⟩) :
    ∃ start, transStart behind ⟨some assocfile, some sgmlout⟩ = .ok start ∧
      Started start 0 (converted.length + 1) ∧ start.assocfile = assocfile ∧
      start.sgmlout = sgmlout ∧ start.position = sgmlout.length := by
  have hhead : assocfile.headD 1 = converted.length := by
    rw [h.1]
    rfl
  have hlt := hnumber assocfile rfl
  rw [hhead] at hlt
  have hnrecs : checkInt (assocfile.headD 1 + 1) = .ok ((converted.length + 1 : ℕ) : ℤ) := by
    rw [hhead, ← Nat.cast_succ]
    exact checkInt_natCast (by omega)
  refine ⟨_, by rw [transStart_exists, hnrecs]; rfl, ⟨?_, ?_, ?_, ?_, ?_⟩, rfl, rfl, rfl⟩
  · simp [h.1]
  · rfl
  · dsimp only
  · rfl
  · rfl

theorem trans_first_iff :
    Summed callees ConversionFiles.none [] run ↔
      ∃ files', trans callees behind ConversionFiles.none run = .ok files' ∧
        Associates files' (specConversion callees ConversionFiles.none [] run) := by
  obtain ⟨start, hstart, hstarted, hassoc, hout, hposition⟩ := @transStart_none behind
  have hfirst := behind.first_ne_zero
  simp only [trans_eq_ok hstart, Summed, specConversion]
  constructor
  · intro hsummed
    obtain ⟨records, hrecords, hcond⟩ := hsummed
    obtain ⟨hne, hfits⟩ := (if_pos rfl ▸ hcond : _ ∧ _)
    obtain ⟨t, hfold, hout', hassoc'⟩ :=
      hstarted.foldlM (show Fits start.position 0 1 records by rwa [hposition])
    refine ⟨_, ⟨records, t, hrecords, hfold, rfl⟩, ?_, ?_⟩
    · rw [hrecords, hassoc', if_neg hne, hassoc, hposition]
      simp [Except.toOption]
    · rw [hrecords, hout', hout]
      rfl
  · intro hgood
    obtain ⟨files', ⟨records, t, hrecords, hfold, rfl⟩, hassoc', -⟩ := hgood
    rw [hrecords] at hassoc'
    simp only [Except.toOption, Option.getD_some, List.nil_append] at hassoc'
    have hfits : Fits start.position 0 1 records := by
      refine hstarted.entries_iff.mp ⟨t, hfold, ?_⟩
      rw [hassoc', hassoc, hposition]
      rfl
    rw [hposition] at hfits
    refine ⟨records, hrecords, (if_pos rfl).mpr ⟨?_, hfits⟩⟩
    intro hnil
    subst hnil
    rw [← Except.ok.inj hfold, hassoc] at hassoc'
    exact hfirst (List.cons.inj hassoc').1

theorem trans_later_iff {assocfile : List ℤ} {sgmlout : Bytes}
    (h : Associates ⟨some assocfile, some sgmlout⟩ converted)
    (hnumber : Numberable ⟨some assocfile, some sgmlout⟩) :
    Summed callees ⟨some assocfile, some sgmlout⟩ converted run ↔
      ∃ files', trans callees behind ⟨some assocfile, some sgmlout⟩ run = .ok files' ∧
        Associates files' (specConversion callees ⟨some assocfile, some sgmlout⟩ converted run) := by
  obtain ⟨start, hstart, hstarted, hassoc, hout, hposition⟩ := @transStart_some behind _ _ _ h hnumber
  obtain ⟨hwords, htext⟩ := id h
  have hdrop : start.assocfile.drop 2 = entriesFrom 0 converted := by
    rw [hassoc, hwords]
    rfl
  have hwhere : start.position = (sgmlText converted).length := by rw [hposition, htext]
  have hentries (records : List FileIo.CString) : entriesFrom 0 (converted ++ records) =
      start.assocfile.drop 2 ++ entriesFrom start.position records := by
    rw [entriesFrom_append, hdrop, Nat.zero_add, hwhere]
  simp only [trans_eq_ok hstart, Summed, specConversion, reduceCtorEq, if_false]
  constructor
  · intro hsummed
    obtain ⟨records, hrecords, hcond⟩ := hsummed
    by_cases hnil : records = []
    · subst hnil
      refine ⟨_, ⟨[], start, hrecords, rfl, rfl⟩, ?_⟩
      rw [hrecords, hassoc, hout]
      simpa [Except.toOption] using h
    · obtain ⟨hzero, hfits⟩ := hcond.resolve_left hnil
      rw [← hwhere] at hfits
      obtain ⟨t, hfold, hout', hassoc'⟩ := hstarted.foldlM hfits
      refine ⟨_, ⟨records, t, hrecords, hfold, rfl⟩, ?_, ?_⟩
      · have hcount : converted.length + 1 + records.length - 1 =
            (converted ++ records).length := by
          rw [List.length_append]
          omega
        rw [hrecords, hassoc', if_neg hnil, hcount, ← hentries]
        simp [Except.toOption, totalLength_append, hzero]
      · rw [hrecords, hout', hout, htext]
        simp [Except.toOption, sgmlText]
  · intro hgood
    obtain ⟨files', ⟨records, t, hrecords, hfold, rfl⟩, hassoc', -⟩ := hgood
    rw [hrecords] at hassoc'
    simp only [Except.toOption, Option.getD_some] at hassoc'
    refine ⟨records, hrecords, or_iff_not_imp_left.mpr fun hnil ↦ ?_⟩
    have hfits : Fits start.position 0 (converted.length + 1) records := by
      refine hstarted.entries_iff.mp ⟨t, hfold, ?_⟩
      rw [← hentries, hassoc']
      rfl
    obtain ⟨t', hfold', -, hsum⟩ := hstarted.foldlM hfits
    rw [hfold, Except.ok.injEq] at hfold'
    subst hfold'
    rw [if_neg hnil, hassoc'] at hsum
    have htotal := (List.cons.inj (List.cons.inj hsum).2).1
    rw [totalLength_append] at htotal
    exact ⟨by omega, hwhere ▸ hfits⟩

theorem trans_iff (hgood : Associates files converted) (hnumber : Numberable files)
    (run : ConversionRun) : Summed callees files converted run ↔
      ∃ files', trans callees behind files run = .ok files' ∧ True ∧
        Associates files' (specConversion callees files converted run) := by
  simp only [true_and]
  rcases files with ⟨_ | assocfile, _ | sgmlout⟩
  · have hnil : converted = [] := hgood
    subst hnil
    exact trans_first_iff
  · exact hgood.elim
  · exact hgood.elim
  · exact trans_later_iff hgood hnumber

theorem Summed.numberable (hgood : Associates files converted) (hnumber : Numberable files)
    (hsummed : Summed callees files converted run)
    (hrun : trans callees behind files run = .ok files') : Numberable files' := by
  obtain ⟨next, hnext, -, hgood'⟩ := (@trans_iff callees behind _ _ hgood hnumber run).mp hsummed
  rw [hrun, Except.ok.injEq] at hnext
  subst hnext
  obtain ⟨records, hrecords, hcond⟩ := hsummed
  have hspec : specConversion callees files converted run = converted ++ records := by
    rw [specConversion, hrecords]
    rfl
  have hcount : converted.length + records.length < INT_MAX := by
    rcases files with ⟨_ | assocfile, _ | sgmlout⟩
    · have hnil : converted = [] := hgood
      have hle := ((if_pos rfl).mp hcond).2.nrecs_le (by decide)
      rw [hnil, List.length_nil]
      omega
    · exact hgood.elim
    · exact hgood.elim
    · have hlt := hnumber assocfile rfl
      rw [hgood.1, List.headD_cons] at hlt
      rcases (if_neg (Option.some_ne_none _)).mp hcond with rfl | ⟨-, hfits⟩
      · rw [List.length_nil]
        omega
      · have := hfits.nrecs_le (by omega)
        omega
  rw [hspec] at hgood'
  intro assocfile hassoc
  rcases files' with ⟨_ | words, _ | sgmlout⟩
  · cases hassoc
  · cases hassoc
  · exact hgood'.elim
  · rw [Option.some.injEq] at hassoc
    rw [← hassoc, hgood'.1, List.headD_cons, List.length_append]
    omega

/-- After every run the associator gives the place of every record converted so far, their number and
the sum of their lengths, if and only if the first run converts a record and the later ones convert
none, or nothing but empty ones before, and everything fits. -/
theorem associatorHistory_iff (callees : MarcCallees) (behind : BehindLiteral)
    (runs : List ConversionRun) :
    AssociatesThroughout callees behind runs ↔
      Runs.Along (trans callees behind) (specConversion callees) (Summed callees)
        ConversionFiles.none [] runs := by
  have hfresh : Associates ConversionFiles.none [] := rfl
  refine @Runs.throughout_iff_along _ _ _ _ _ _ (fun _ _ _ ↦ True) _ _ _ Numberable ?_ ?_ _ _
    ?_ hfresh runs ?_
  · intro files converted run files' hnumber hgood _ hsummed hrun
    exact hsummed.numberable hgood hnumber hrun
  · intro files converted run hnumber hgood _
    exact trans_iff hgood hnumber run
  · exact numberable_none
  · exact Runs.along_true _ _ runs

theorem letterA_nonzero : ∀ byte ∈ [(97 : UInt8)], byte ≠ 0 := by simp

def letterA : FileIo.CString := ⟨[97], letterA_nonzero⟩

/-- Every record is converted to one letter. -/
def letterCallees : MarcCallees where
  MarcRec := Unit
  getMarc recbuffer _ := .ok (recbuffer, some ())
  marc2sgml _ recbuffer _ := .ok (recbuffer, some letterA)

def oneRecord : ConversionRun := ⟨[48, RECTERM], some 1⟩

theorem runConversions_oneRecord (files : ConversionFiles) :
    runConversions letterCallees files oneRecord = .ok [letterA] := by
  have hstart : startNumber files oneRecord = 0 := toInt32_of_le (Nat.zero_le _)
  rw [runConversions, hstart]
  rfl

theorem specConversion_oneRecord (files : ConversionFiles) (converted : List FileIo.CString) :
    specConversion letterCallees files converted oneRecord = converted ++ [letterA] := by
  rw [specConversion, runConversions_oneRecord]
  rfl

/-- After a second run the header has the sum of that run alone. -/
theorem associatorHistory_appended :
    ¬∀ callees behind runs, AssociatesThroughout callees behind runs := by
  intro hall
  obtain ⟨-, files₁, hfirst, -, hgood₁, files₂, hsecond, -, hgood₂⟩ :=
    hall letterCallees ⟨0, 0⟩ [oneRecord, oneRecord]
  have hsummed : Summed letterCallees ConversionFiles.none [] oneRecord :=
    ⟨[letterA], runConversions_oneRecord _, (if_pos rfl).mpr ⟨by decide, by decide, by decide,
      by decide, trivial⟩⟩
  have hfresh : Associates ConversionFiles.none [] := rfl
  have hnumber := hsummed.numberable hfresh numberable_none hfirst
  rw [specConversion_oneRecord] at hgood₁ hgood₂
  obtain ⟨records, hrecords, hcond⟩ :=
    (trans_iff hgood₁ hnumber oneRecord).mpr ⟨files₂, hsecond, trivial, hgood₂⟩
  rw [runConversions_oneRecord, Except.ok.injEq] at hrecords
  subst hrecords
  split_ifs at hcond with hnone
  · rcases files₁ with ⟨_ | words, _ | sgmlout⟩
    · cases hgood₁
    · exact hgood₁.elim
    · cases hnone
    · cases hnone
  · rcases hcond with hnil | ⟨htotal, -⟩
    · cases hnil
    · revert htotal
      decide

end Cheshire.Marc
