import Cheshire.Index.PagedIndex

/-!
# The records of pages

`idxpages` writes one record behind the others for each page, and `page_file_delete` marks the first
records of a document that stand together.
-/

namespace Cheshire.Index

def SoundTerms (idx : IdxListEntry) : Prop :=
  ∀ word info, idx.terms word = some info → info.Sound

variable {idx : IdxListEntry}

theorem SoundTerms.putTerm (h : SoundTerms idx) {block : IdxResult} (hblock : block.Sound)
    (word : Term) : SoundTerms (idx.putTerm word block) := by
  intro other info hinfo
  rw [terms_putTerm] at hinfo
  split at hinfo
  · cases hinfo
    exact hblock
  · exact h other info hinfo

theorem SoundTerms.putProximity (h : SoundTerms idx) (recnum : RecordNumber) (termid : ℤ)
    (htData : HtData) : SoundTerms (putProximity idx recnum termid htData) := by
  intro word info hinfo
  rw [terms_putProximity] at hinfo
  exact h word info hinfo

theorem SoundTerms.idxpagesTerm (h : SoundTerms idx) (page : RecordNumber) (item : Term × HtData) :
    ∃ idx', Index.idxpagesTerm page idx item = .ok idx' ∧ SoundTerms idx' := by
  rw [Index.idxpagesTerm]
  cases hinfo : idx.terms item.1 with
  | some info =>
    obtain ⟨newinfo, hnewinfo, happended⟩ := (h item.1 info hinfo).addPosting page item.2.termfreq
    have hoccur : SoundTerms (idx.addOccur item.2.termfreq) := h
    refine ⟨_, ?_, (hoccur.putTerm happended.sound item.1).putProximity page newinfo.termid item.2⟩
    simp only [hnewinfo, bind, Except.bind]
  | none =>
    have hoccur : SoundTerms (idx.takeTermid.addOccur item.2.termfreq) := h
    have happended := appended_newBlock idx.globalData.recptr page item.2.termfreq
    exact ⟨_, rfl, (hoccur.putTerm happended.sound item.1).putProximity page _ item.2⟩

theorem SoundTerms.idxpagesTerms (h : SoundTerms idx) (page : RecordNumber)
    (items : List (Term × HtData)) :
    ∃ idx', Index.idxpagesTerms page items idx = .ok idx' ∧ SoundTerms idx' := by
  induction items generalizing idx with
  | nil => exact ⟨idx, rfl, h⟩
  | cons item items ih =>
    obtain ⟨next, hnext, hsound⟩ := h.idxpagesTerm page item
    obtain ⟨idx', hidx', hsound'⟩ := ih hsound
    refine ⟨idx', ?_, hsound'⟩
    rw [Index.idxpagesTerms, hnext]
    exact hidx'

/-- The words of a page leave the page map alone. -/
structure WordsOnly (s s' : PagedIndex) : Prop where
  header : s'.header = s.header
  records : s'.records = s.records
  visible : s'.visible = s.visible
  highest : s'.highestPageNumber = s.highestPageNumber
  batchFile : s'.batchFile = none ↔ s.batchFile = none

variable {page : RecordNumber} {batch : Bool} {s s' : PagedIndex}

theorem wordsOnly_of_outputTerms {hash : TermHash}
    (h : outputTerms page batch hash s = .ok s') : WordsOnly s s' := by
  rw [outputTerms] at h
  split at h
  · cases h
    exact ⟨rfl, rfl, rfl, rfl, by simp⟩
  · obtain ⟨idx, -, h⟩ := bind_eq_ok.mp h
    cases h
    exact ⟨rfl, rfl, rfl, rfl, Iff.rfl⟩

theorem exists_outputTerms (h : SoundTerms s.idx) (page : RecordNumber) (batch : Bool)
    (hash : TermHash) : ∃ s', outputTerms page batch hash s = .ok s' ∧ SoundTerms s'.idx := by
  rw [outputTerms]
  split
  · exact ⟨_, rfl, h⟩
  · obtain ⟨idx, hidx, hsound⟩ := h.idxpagesTerms page hash.entries
    rw [hidx]
    refine ⟨_, rfl, ?_⟩
    change SoundTerms (if hash.entries ≠ [] then _ else idx)
    split
    · exact hsound
    · exact hsound

/-- The number in the name of a file. -/
def namedPage (name : Term) : Option ℕ :=
  if name = [46] ∨ name = [46, 46] ∨ pageDigits name = [] then none
  else some (digitsValue (pageDigits name))

/-- The page numbers of a directory, up to the first file that cannot be opened. -/
def pageNumbers : List DirEntry → List ℕ
  | [] => []
  | entry :: entries =>
    match namedPage entry.name with
    | none => pageNumbers entries
    | some page => if entry.opened then page :: pageNumbers entries else []

/-- The numbers in the names fit into the buffer and into an `int`. -/
def NamesFit : List DirEntry → Prop
  | [] => True
  | entry :: entries =>
    match namedPage entry.name with
    | none => NamesFit entries
    | some page => (pageDigits entry.name).length < PAGENUM_BUFFER ∧ page ≤ INT_MAX ∧
        (entry.opened = true → NamesFit entries)

theorem pageNumber_eq_none {name : Term} (h : namedPage name = none) : pageNumber name = .ok none := by
  rw [namedPage] at h
  rw [pageNumber]
  split at h
  · next hskip =>
    rcases hskip with hdot | hdots | hdigits
    · rw [if_pos (Or.inl hdot)]
    · rw [if_pos (Or.inr hdots)]
    · rw [if_pos hdigits, ite_self]
  · cases h

theorem pageNumber_eq_ok_iff {name : Term} {page : ℕ} (h : namedPage name = some page)
    {result : Option ℤ} :
    pageNumber name = .ok result ↔
      ((pageDigits name).length < PAGENUM_BUFFER ∧ page ≤ INT_MAX) ∧ result = some (page : ℤ) := by
  rw [namedPage] at h
  split at h
  · cases h
  · next hskip =>
    obtain rfl := Option.some.inj h
    rw [not_or, not_or] at hskip
    have hdots : ¬(name = [46] ∨ name = [46, 46]) := not_or.mpr ⟨hskip.1, hskip.2.1⟩
    rw [pageNumber, if_neg hdots, if_neg hskip.2.2]
    by_cases hlength : (pageDigits name).length < PAGENUM_BUFFER
    · rw [if_pos hlength, checkInt]
      by_cases hle : digitsValue (pageDigits name) ≤ INT_MAX
      · have hbounds : -(2 ^ 31) ≤ (digitsValue (pageDigits name) : ℤ) ∧
            (digitsValue (pageDigits name) : ℤ) ≤ 2 ^ 31 - 1 := by
          rw [INT_MAX] at hle
          omega
        rw [if_pos hbounds]
        simp [Except.map, hlength, hle, eq_comm]
      · have hbounds : ¬(-(2 ^ 31) ≤ (digitsValue (pageDigits name) : ℤ) ∧
            (digitsValue (pageDigits name) : ℤ) ≤ 2 ^ 31 - 1) := by
          rw [INT_MAX] at hle
          omega
        rw [if_neg hbounds]
        simp [Except.map, hle]
    · rw [if_neg hlength]
      simp [hlength]

/-- The document and the page number of a record. -/
def PageAssocRec.link (record : PageAssocRec) : ℤ × ℤ := (record.parentid, record.pagenum)

/-- The next page has the number behind the records. -/
structure PagedIndex.Numbered (s : PagedIndex) : Prop where
  highest : s.highestPageNumber = s.records.length
  small : s.records.length ≤ INT_MAX
  visible : s.visible ≤ s.records.length + 1
  sound : SoundTerms s.idx

theorem nextPage_eq_ok_iff :
    nextPage s = .ok page ↔ s.highestPageNumber + 1 ≤ INT_MAX ∧ page.1 = s.highestPageNumber + 1 := by
  rw [nextPage]
  split
  · next hle =>
    rw [Except.ok.injEq, Subtype.ext_iff]
    constructor
    · intro heq
      exact ⟨hle, heq.symm⟩
    · intro heq
      exact heq.2.symm
  · next hle =>
    constructor
    · intro heq
      cases heq
    · intro heq
      exact absurd heq.1 hle

theorem records_linkPage (hpage : page.1 = s.records.length + 1) (recnum : RecordNumber)
    (pagenum : ℤ) (entry : DirEntry) : (linkPage recnum page pagenum entry s).records =
      s.records ++ [⟨recnum.1, pagenum, totalWords entry.hash, toInt s.pageFileNames.length⟩] := by
  rw [linkPage]
  simp only [PagedIndex.writeRecord, PagedIndex.seek, hpage, Nat.add_sub_cancel, lt_irrefl, if_false,
    Nat.sub_self, List.replicate_zero, List.append_nil]

/-- What the pages of a document add. -/
structure PagesAdded (recnum : RecordNumber) (numbers : List ℕ) (s s' : PagedIndex) : Prop where
  numbered : s'.Numbered
  records : ∃ added, s'.records = s.records ++ added ∧
    added.map PageAssocRec.link = numbers.map fun number : ℕ ↦ ((recnum.1 : ℤ), (number : ℤ))

/-- A batch run has its file. -/
def BatchReady (batch : Bool) (s : PagedIndex) : Prop := batch = true → s.batchFile ≠ none

structure PageAdded (recnum : RecordNumber) (number : ℤ) (s s' : PagedIndex) : Prop where
  numbered : s'.Numbered
  records : ∃ record : PageAssocRec, s'.records = s.records ++ [record] ∧ record.link = ((recnum.1 : ℤ), number)
  batchFile : s'.batchFile = none ↔ s.batchFile = none

theorem PagedIndex.Numbered.linkPage (h : s.Numbered) (hpage : page.1 = s.highestPageNumber + 1)
    {entry : DirEntry}
    (hwords : outputTerms page batch entry.hash { s with highestPageNumber := page.1 } = .ok s')
    (hsound : SoundTerms s'.idx) (recnum : RecordNumber) (number : ℤ) :
    PageAdded recnum number s (Index.linkPage recnum page number entry s') := by
  have hwords' := wordsOnly_of_outputTerms hwords
  have hrecords : s'.records = s.records := hwords'.records
  have hhighest : s'.highestPageNumber = page.1 := hwords'.highest
  have hplace : page.1 = s'.records.length + 1 := by
    rw [hpage, h.highest, hrecords]
  have hlinked := records_linkPage hplace recnum number entry
  refine ⟨⟨?_, ?_, ?_, hsound⟩, ⟨_, by rw [hlinked, hrecords], rfl⟩, hwords'.batchFile⟩
  · rw [hlinked, List.length_append, List.length_singleton, ← hplace]
    exact hhighest
  · rw [hlinked, List.length_append, List.length_singleton, ← hplace]
    exact page.2.2
  · rw [hlinked, List.length_append, List.length_singleton]
    exact Nat.le_succ _

theorem exists_idxpagesLoop {recnum : RecordNumber} {batch : Bool} {entries : List DirEntry}
    {s : PagedIndex} (h : s.Numbered) (hnames : NamesFit entries)
    (hroom : s.records.length + (pageNumbers entries).length ≤ INT_MAX)
    (hbatch : pageNumbers entries = [] ∨ BatchReady batch s) :
    ∃ s', idxpagesLoop recnum batch entries s = .ok s' ∧
      PagesAdded recnum (pageNumbers entries) s s' := by
  induction entries generalizing s with
  | nil => exact ⟨s, rfl, h, [], (List.append_nil _).symm, rfl⟩
  | cons entry entries ih =>
    rw [idxpagesLoop]
    cases hname : namedPage entry.name with
    | none =>
      rw [NamesFit, hname] at hnames
      rw [pageNumbers, hname] at hroom hbatch ⊢
      rw [pageNumber_eq_none hname]
      exact ih h hnames hroom hbatch
    | some number =>
      rw [NamesFit, hname] at hnames
      rw [pageNumbers, hname] at hroom hbatch ⊢
      obtain ⟨hlength, hle, hrest⟩ := hnames
      have hnumber := (pageNumber_eq_ok_iff hname).mpr ⟨⟨hlength, hle⟩, rfl⟩
      rw [hnumber]
      simp only [bind, Except.bind]
      by_cases hopened : entry.opened = true
      · simp only [if_pos hopened] at hroom hbatch ⊢
        rw [List.length_cons] at hroom
        have hready := hbatch.resolve_left (List.cons_ne_nil _ _)
        have hhighest : s.highestPageNumber + 1 ≤ INT_MAX := by
          rw [h.highest]
          omega
        have hnext : nextPage s = .ok ⟨s.highestPageNumber + 1, Nat.succ_pos _, hhighest⟩ :=
          nextPage_eq_ok_iff.mpr ⟨hhighest, rfl⟩
        obtain ⟨s1, hs1, hsound⟩ := exists_outputTerms (s := { s with
          highestPageNumber := s.highestPageNumber + 1 }) h.sound ⟨s.highestPageNumber + 1,
          Nat.succ_pos _, hhighest⟩ batch entry.hash
        have hadded := h.linkPage rfl hs1 hsound recnum number
        obtain ⟨record, hrecords, hlink⟩ := hadded.records
        have hroom' : (linkPage recnum ⟨s.highestPageNumber + 1, Nat.succ_pos _, hhighest⟩ number entry
            s1).records.length + (pageNumbers entries).length ≤ INT_MAX := by
          rw [hrecords, List.length_append, List.length_singleton]
          omega
        have hready' : BatchReady batch (linkPage recnum ⟨s.highestPageNumber + 1, Nat.succ_pos _,
            hhighest⟩ number entry s1) := by
          intro hbatch hnone
          exact hready hbatch (hadded.batchFile.mp hnone)
        obtain ⟨s', hs', hpages⟩ := ih hadded.numbered (hrest hopened) hroom' (Or.inr hready')
        obtain ⟨added, hadds, hlinks⟩ := hpages.records
        refine ⟨s', ?_, hpages.numbered, record :: added, ?_, ?_⟩
        · have hgo : ¬(batch = true ∧ s.batchFile = none) := fun hstop ↦ hready hstop.1 hstop.2
          simp only [hnext, if_neg hgo, hs1]
          exact hs'
        · rw [hadds, hrecords, List.append_assoc]
          rfl
        · rw [List.map_cons, List.map_cons, hlink, hlinks]
      · simp only [if_neg hopened]
        exact ⟨s, rfl, h, [], (List.append_nil _).symm, rfl⟩

theorem of_idxpagesLoop {recnum : RecordNumber} {entries : List DirEntry} (h : s.Numbered)
    (hrun : idxpagesLoop recnum batch entries s = .ok s')
    (hall : s'.records.length = s.records.length + (pageNumbers entries).length) :
    NamesFit entries ∧ s.records.length + (pageNumbers entries).length ≤ INT_MAX ∧
      (pageNumbers entries = [] ∨ BatchReady batch s) := by
  induction entries generalizing s with
  | nil => exact ⟨trivial, h.small, Or.inl rfl⟩
  | cons entry entries ih =>
    rw [idxpagesLoop] at hrun
    obtain ⟨read, hread, hrun⟩ := bind_eq_ok.mp hrun
    cases hname : namedPage entry.name with
    | none =>
      rw [pageNumber_eq_none hname] at hread
      cases hread
      rw [pageNumbers, hname] at hall ⊢
      rw [NamesFit, hname]
      exact ih h hrun hall
    | some number =>
      obtain ⟨⟨hlength, hle⟩, rfl⟩ := (pageNumber_eq_ok_iff hname).mp hread
      rw [pageNumbers, hname] at hall ⊢
      rw [NamesFit, hname]
      simp only at hrun hall ⊢
      by_cases hopened : entry.opened = true
      · simp only [if_pos hopened] at hrun hall ⊢
        rw [List.length_cons] at hall ⊢
        obtain ⟨page, hpage, hrun⟩ := bind_eq_ok.mp hrun
        obtain ⟨-, hnumber⟩ := nextPage_eq_ok_iff.mp hpage
        by_cases hstop : batch = true ∧ s.batchFile = none
        · -- the page has no record
          rw [if_pos hstop] at hrun
          cases hrun
          change s.records.length = _ at hall
          omega
        · rw [if_neg hstop] at hrun
          obtain ⟨s1, hs1, hrun⟩ := bind_eq_ok.mp hrun
          obtain ⟨s2, hs2, hsound⟩ := exists_outputTerms (s := { s with highestPageNumber := page.1 })
            h.sound page batch entry.hash
          obtain rfl := Except.ok.inj (hs1.symm.trans hs2)
          have hadded := h.linkPage hnumber hs1 hsound recnum number
          obtain ⟨record, hrecords, -⟩ := hadded.records
          have hlinked : (linkPage recnum page number entry s1).records.length = s.records.length + 1 := by
            rw [hrecords, List.length_append, List.length_singleton]
          obtain ⟨hnames, hroom, -⟩ := ih hadded.numbered hrun (by omega)
          have hready : BatchReady batch s := fun hbatch hnone ↦ hstop ⟨hbatch, hnone⟩
          exact ⟨⟨hlength, hle, fun _ ↦ hnames⟩, by omega, Or.inr hready⟩
      · simp only [if_neg hopened]
        exact ⟨⟨hlength, hle, fun hopen ↦ absurd hopen hopened⟩, h.small, Or.inl trivial⟩

/-- Behind the first elements with a property and those that follow directly there are none with it. -/
def Together {α : Type} (test : α → Bool) (items : List α) : Prop :=
  ∀ item ∈ (items.dropWhile fun item ↦ ! test item).dropWhile test, test item = false

theorem together_map {α β : Type} {f : α → β} {test : β → Bool} {items : List α} :
    Together test (items.map f) ↔ Together (fun item ↦ test (f item)) items := by
  rw [Together, List.dropWhile_map, List.dropWhile_map, List.forall_mem_map]
  rfl

/-- A record of the document is marked. -/
def markDeleted (recnum : ℤ) (record : PageAssocRec) : PageAssocRec :=
  if record.parentid = recnum then { record with parentid := record.parentid * -1 } else record

theorem deleteLoop_found (recnum : ℤ) (records : List PageAssocRec) :
    deleteLoop recnum true records =
      (records.takeWhile fun record ↦ record.parentid = recnum).map (markDeleted recnum) ++
        records.dropWhile fun record ↦ record.parentid = recnum := by
  induction records with
  | nil => rfl
  | cons record records ih =>
    rw [deleteLoop]
    by_cases hof : record.parentid = recnum
    · have hmark : markDeleted recnum record = { record with parentid := record.parentid * -1 } :=
        if_pos hof
      rw [if_pos hof, ih, List.takeWhile_cons_of_pos (by simpa using hof),
        List.dropWhile_cons_of_pos (by simpa using hof), List.map_cons, hmark]
      rfl
    · rw [if_neg hof, if_pos rfl, List.takeWhile_cons_of_neg (by simpa using hof),
        List.dropWhile_cons_of_neg (by simpa using hof)]
      rfl

theorem deleteLoop_search (recnum : ℤ) (records : List PageAssocRec) :
    deleteLoop recnum false records =
      (records.takeWhile fun record ↦ ! decide (record.parentid = recnum)) ++
        deleteLoop recnum true
          (records.dropWhile fun record ↦ ! decide (record.parentid = recnum)) := by
  induction records with
  | nil => rfl
  | cons record records ih =>
    by_cases hof : record.parentid = recnum
    · rw [List.takeWhile_cons_of_neg (by simpa using hof), List.dropWhile_cons_of_neg (by simpa using hof),
        List.nil_append, deleteLoop, deleteLoop, if_pos hof, if_pos hof]
    · rw [List.takeWhile_cons_of_pos (by simpa using hof), List.dropWhile_cons_of_pos (by simpa using hof),
        List.cons_append, ← ih, deleteLoop, if_neg hof, if_neg Bool.false_ne_true]

variable {recnum : ℤ} {records : List PageAssocRec}

theorem map_markDeleted (h : ∀ record ∈ records, record.parentid ≠ recnum) :
    records.map (markDeleted recnum) = records := by
  have hsame : records.map (markDeleted recnum) = records.map id :=
    List.map_congr_left fun record hrecord ↦ if_neg (h record hrecord)
  rw [hsame, List.map_id]

/-- The records behind those that are marked. -/
def behindMarked (recnum : ℤ) (records : List PageAssocRec) : List PageAssocRec :=
  (records.dropWhile fun record ↦ ! decide (record.parentid = recnum)).dropWhile
    fun record ↦ record.parentid = recnum

theorem together_records_iff :
    Together (fun record : PageAssocRec ↦ decide (record.parentid = recnum)) records ↔
      ∀ record ∈ behindMarked recnum records, record.parentid ≠ recnum := by
  simp only [Together, behindMarked, decide_eq_false_iff_not, ne_eq]

theorem deleteLoop_split (recnum : ℤ) (records : List PageAssocRec) :
    ∃ marked, deleteLoop recnum false records = marked ++ behindMarked recnum records ∧
      records.map (markDeleted recnum) =
        marked ++ (behindMarked recnum records).map (markDeleted recnum) := by
  refine ⟨(records.takeWhile fun record ↦ ! decide (record.parentid = recnum)) ++
    ((records.dropWhile fun record ↦ ! decide (record.parentid = recnum)).takeWhile
      fun record ↦ record.parentid = recnum).map (markDeleted recnum), ?_, ?_⟩
  · rw [deleteLoop_search, deleteLoop_found, List.append_assoc]
    rfl
  · have hbefore : ∀ record ∈ records.takeWhile fun record ↦ ! decide (record.parentid = recnum),
        record.parentid ≠ recnum := by
      intro record hrecord
      simpa using List.mem_takeWhile_imp hrecord
    have hwhole : records = (records.takeWhile fun record ↦ ! decide (record.parentid = recnum)) ++
        (((records.dropWhile fun record ↦ ! decide (record.parentid = recnum)).takeWhile
          fun record ↦ record.parentid = recnum) ++ behindMarked recnum records) := by
      rw [behindMarked, List.takeWhile_append_dropWhile, List.takeWhile_append_dropWhile]
    conv_lhs => rw [hwhole]
    rw [List.map_append, List.map_append, map_markDeleted hbefore, List.append_assoc]

theorem deleteLoop_eq_map
    (h : Together (fun record : PageAssocRec ↦ decide (record.parentid = recnum)) records) :
    deleteLoop recnum false records = records.map (markDeleted recnum) := by
  obtain ⟨marked, hdeleted, hmarked⟩ := deleteLoop_split recnum records
  rw [hdeleted, hmarked, map_markDeleted (together_records_iff.mp h)]

theorem together_of_deleteLoop (hpos : 0 < recnum)
    (h : (deleteLoop recnum false records).map PageAssocRec.link =
      (records.map (markDeleted recnum)).map PageAssocRec.link) :
    Together (fun record : PageAssocRec ↦ decide (record.parentid = recnum)) records := by
  obtain ⟨marked, hdeleted, hmarked⟩ := deleteLoop_split recnum records
  rw [hdeleted, hmarked, List.map_append, List.map_append, List.map_map] at h
  have hbehind := List.map_inj_left.mp (List.append_cancel_left h)
  rw [together_records_iff]
  intro record hrecord hof
  have hlink := congrArg Prod.fst (hbehind record hrecord)
  rw [Function.comp_apply, markDeleted, if_pos hof] at hlink
  change record.parentid = record.parentid * -1 at hlink
  omega

end Cheshire.Index
