import Cheshire.Search.WordSearch

/-!
# Subsets of a result set

`se_get_result_subset` reads a list of record numbers and ranges, and takes the entries at these positions
into a new set.  Behind the word `FIND` the list goes on with regular expressions, with which the new set is
searched.  The positions are kept in a block with one place for each hit of the set, and the expressions in
an array of thirty.
-/

namespace Cheshire.Search

open Lib
open Index (scanNumber)

/-- `strcasecmp(recnumber,"FIND") == 0` -/
def isFind (recnumber : List Char) : Bool := recnumber.map Char.toUpper = ['F', 'I', 'N', 'D']

def atoi (text : List Char) : Exec ℤ :=
  match scanNumber text with
  | none => .ok 0
  | some scanned => checkInt scanned.1

/-- `sscanf(recnumber,"%d-%d",&start,&end)`; there is no range unless both numbers are read. -/
def scanRange (recnumber : List Char) : Exec (Option (ℤ × ℤ)) :=
  match scanNumber recnumber with
  | none => .ok none
  | some first => do
    let start ← checkInt first.1
    match first.2 with
    | '-' :: rest =>
      match scanNumber rest with
      | none => .ok none
      | some second => do
        let last ← checkInt second.1
        .ok (some (start, last))
    | _ => .ok none

/-- The end of a range, which is brought into the set and not before the start. -/
def rangeEnd (numHits start last : ℤ) : ℤ :=
  let last := if last > numHits then numHits else last
  if last < start then start else last

/-- The values of `i` in `for (i = start-1; i < end; i++)`. -/
def rangeIndexes (first last : ℤ) : List ℤ :=
  (List.range (last - first).toNat).map fun k : ℕ ↦ first + (k : ℤ)

/-- The indexes that an element adds to `recno_list`; with a range that is not in the set or ill-formed
the routine returns `NULL`. -/
def readRecnumber (numHits : ℤ) (recnumber : List Char) : Exec (Option (List ℤ)) :=
  if '-' ∈ recnumber then do
    match ← scanRange recnumber with
    | none => .ok none
    | some (start, last) =>
      if start > numHits then .ok none
      else do
        let first ← checkInt (start - 1)
        .ok (some (rangeIndexes first (rangeEnd numHits start last)))
  else do
    let number ← atoi recnumber
    let indx ← checkInt (number - 1)
    .ok (some [indx])

/-- A number asks for the place before it. -/
theorem readRecnumber_decimal (numHits : ℤ) {n : ℕ} (hn : n ≤ INT_MAX) :
    readRecnumber numHits (decimal n) = .ok (some [(n : ℤ) - 1]) := by
  have hscan := @Index.scanNumber_decimal n [] (by simp)
  have hplain : '-' ∉ decimal n := fun hmem ↦ absurd (isDigit_of_mem_decimal hmem) (by decide)
  rw [List.append_nil] at hscan
  rw [readRecnumber, if_neg hplain, atoi, hscan]
  simp only [checkInt_natCast hn, bind, Except.bind]
  rw [checkInt, if_pos]
  rw [INT_MAX] at hn
  omega

/-- A range asks for the places up to its end, as far as they are in the set. -/
theorem readRecnumber_range {numHits : ℤ} {start last : ℕ} (hstart : start ≤ INT_MAX)
    (hlast : last ≤ INT_MAX) (hin : start ≤ numHits) :
    readRecnumber numHits (decimal start ++ '-' :: decimal last) =
      .ok (some (rangeIndexes (start - 1) (rangeEnd numHits start last))) := by
  have hscan := @Index.scanNumber_decimal last [] (by simp)
  rw [List.append_nil] at hscan
  rw [readRecnumber, if_pos (by simp), scanRange, Index.scanNumber_decimal start (by simp)]
  simp only [hscan, checkInt_natCast hstart, checkInt_natCast hlast, bind, Except.bind]
  rw [if_neg hin.not_gt, checkInt, if_pos]
  rw [INT_MAX] at hstart
  omega

/-- The two arrays, and how far they are filled. -/
structure SubsetScan where
  recnoList : List ℤ
  newRecs : ℕ
  searchKeys : Bool
  regex : List (List Char)
  regexcount : ℕ

/-- `recno_list[new_recs++] = indx` -/
def SubsetScan.pushRecno (scan : SubsetScan) (indx : ℤ) : Exec SubsetScan :=
  match Buffer.store? scan.recnoList scan.newRecs indx with
  | some cells => .ok { scan with recnoList := cells, newRecs := scan.newRecs + 1 }
  | none => .error .outOfBounds

/-- `regex[regexcount++] = recnumber` -/
def SubsetScan.pushRegex (scan : SubsetScan) (recnumber : List Char) : Exec SubsetScan :=
  match Buffer.store? scan.regex scan.regexcount recnumber with
  | some cells => .ok { scan with regex := cells, regexcount := scan.regexcount + 1 }
  | none => .error .outOfBounds

/-- `while (recnumber != NULL)` -/
def subsetLoop (numHits : ℤ) : List (List Char) → SubsetScan → Exec (Option SubsetScan)
  | [], scan => .ok (some scan)
  | recnumber :: rest, scan =>
    if scan.searchKeys then
      if scan.regexcount > 30 then .ok (some scan)
      else do
        let scan ← scan.pushRegex recnumber
        subsetLoop numHits rest scan
    else if isFind recnumber then subsetLoop numHits rest { scan with searchKeys := true }
    else do
      match ← readRecnumber numHits recnumber with
      | none => .ok none
      | some indexes => do
        let scan ← indexes.foldlM SubsetScan.pushRecno scan
        subsetLoop numHits rest scan

/-- `for (i = 0; i < new_recs; i++)`; with an index outside the set the routine returns `NULL`. -/
def copySubset (inRes : WeightedResult) :
    List ℤ → ℕ → List WeightedEntry → Exec (Option (List WeightedEntry))
  | [], _, cells => .ok (some cells)
  | indx :: rest, i, cells =>
    if indx ≥ 0 ∧ indx < inRes.numHits then do
      let entry ← inRes.entryAt indx.toNat
      let cells ← putHit cells i entry
      copySubset inRes rest (i + 1) cells
    else .ok none

/-- `char setid[200]` -/
def SETID_SIZE : ℕ := 200

/-- `strcat(wt_res->setid, "_kwscan")` or `wt_res->setid[0] = '\0'` -/
def subsetSetid (setid : String) (searchKeys : Bool) : Exec String :=
  if searchKeys then
    if setid.utf8ByteSize + "_kwscan".utf8ByteSize < SETID_SIZE then .ok (setid ++ "_kwscan")
    else .error .outOfBounds
  else .ok ""

/-- The new set starts as a copy of the header of the old one, which holds the first entry. -/
def seGetResultSubset (seRegexScan : WeightedResult → List (List Char) → Exec (Option WeightedResult))
    (inRes : WeightedResult) (recnos : List Char) : Exec (Option WeightedResult) := do
  let scanned ← subsetLoop inRes.numHits (tokens [','] recnos)
    ⟨Buffer.calloc 0 inRes.numHits.toNat, 0, false, Buffer.calloc [] 30, 0⟩
  match scanned with
  | none => .ok none
  | some scan => do
    let setid ← subsetSetid inRes.setid scan.searchKeys
    let copied ← copySubset inRes (scan.recnoList.take scan.newRecs) 0
      (inRes.entries.headD WeightedEntry.zero :: Buffer.calloc WeightedEntry.zero scan.newRecs)
    match copied with
    | none => .ok none
    | some cells => do
      let wtRes := { inRes with setid := setid, numHits := scan.newRecs, entries := cells }
      if scan.searchKeys && scan.regexcount ≥ 1 then
        seRegexScan wtRes (scan.regex.take scan.regexcount)
      else .ok (some wtRes)

/-- What the elements of a specification say, until one of them makes the routine return `NULL`. -/
structure SubsetReading where
  indexes : List ℤ
  words : Option (List (List Char))
  finished : Bool
deriving DecidableEq, Repr

def readSubset (numHits : ℤ) : List (List Char) → Exec SubsetReading
  | [] => .ok ⟨[], none, true⟩
  | recnumber :: rest =>
    if isFind recnumber then .ok ⟨[], some rest, true⟩
    else do
      match ← readRecnumber numHits recnumber with
      | none => .ok ⟨[], none, false⟩
      | some indexes => do
        let reading ← readSubset numHits rest
        .ok { reading with indexes := indexes ++ reading.indexes }

/-- The hit at an index, when there is one. -/
def hitAt (inRes : WeightedResult) (indx : ℤ) : Option WeightedEntry :=
  if 0 ≤ indx then inRes.hits[indx.toNat]? else none

/-- The hits at the requested positions, unless one of these is outside the set. -/
def requestedHits (inRes : WeightedResult) (indexes : List ℤ) : Option (List WeightedEntry) :=
  indexes.mapM (hitAt inRes)

/-- No write leaves the arrays, and without a search the new set lists the hits at the requested positions
with all that they carry, if there is a new set. -/
def ReturnsSubset (seRegexScan : WeightedResult → List (List Char) → Exec (Option WeightedResult))
    (inRes : WeightedResult) (recnos : List Char) : Prop :=
  ∃ result, seGetResultSubset seRegexScan inRes recnos = .ok result ∧
    ∀ newset ∈ result, ∀ reading, readSubset inRes.numHits (tokens [','] recnos) = .ok reading →
      reading.words = none → some newset.hits = requestedHits inRes reading.indexes

/-- The first cells of both arrays are filled. -/
structure SubsetScan.Holds (scan : SubsetScan) (numHits : ℕ) (indexes : List ℤ)
    (words : List (List Char)) : Prop where
  recnoList : Buffer.Holds 0 numHits scan.recnoList indexes
  newRecs : scan.newRecs = indexes.length
  regex : Buffer.Holds [] 30 scan.regex words
  regexcount : scan.regexcount = words.length

section Arrays

variable {scan : SubsetScan} {numHits : ℕ} {indexes : List ℤ} {words : List (List Char)}

theorem SubsetScan.Holds.pushRecno (h : scan.Holds numHits indexes words) (indx : ℤ)
    (hroom : indexes.length < numHits) :
    ∃ scan', scan.pushRecno indx = .ok scan' ∧ scan'.Holds numHits (indexes ++ [indx]) words ∧
      scan'.searchKeys = scan.searchKeys := by
  obtain ⟨cells, hstore, hcells⟩ := h.recnoList.store hroom indx
  refine ⟨{ scan with recnoList := cells, newRecs := scan.newRecs + 1 }, ?_, ?_, rfl⟩
  · rw [SubsetScan.pushRecno, h.newRecs, hstore]
  · exact ⟨hcells, by simp [h.newRecs], h.regex, h.regexcount⟩

theorem SubsetScan.Holds.pushRecno_full (h : scan.Holds numHits indexes words) (indx : ℤ)
    (hfull : ¬indexes.length < numHits) : scan.pushRecno indx = .error .outOfBounds := by
  rw [SubsetScan.pushRecno, h.newRecs, Buffer.store?, h.recnoList.length_cells, if_neg hfull]

theorem SubsetScan.Holds.pushAll (h : scan.Holds numHits indexes words) (more : List ℤ)
    (hroom : (indexes ++ more).length ≤ numHits) :
    ∃ scan', more.foldlM SubsetScan.pushRecno scan = .ok scan' ∧
      scan'.Holds numHits (indexes ++ more) words ∧ scan'.searchKeys = scan.searchKeys := by
  induction more generalizing scan indexes with
  | nil => exact ⟨scan, rfl, by simpa using h, rfl⟩
  | cons indx more ih =>
    rw [List.append_cons] at hroom ⊢
    have hlt : indexes.length < numHits := by
      simp only [List.length_append, List.length_singleton] at hroom
      omega
    obtain ⟨next, hpush, hnext, hkeys⟩ := h.pushRecno indx hlt
    obtain ⟨scan', hrest, hdone, hkeys'⟩ := ih hnext hroom
    refine ⟨scan', ?_, hdone, hkeys'.trans hkeys⟩
    rw [List.foldlM_cons, hpush]
    exact hrest

theorem SubsetScan.Holds.pushAll_full (h : scan.Holds numHits indexes words) (more : List ℤ)
    (hfull : ¬(indexes ++ more).length ≤ numHits) :
    more.foldlM SubsetScan.pushRecno scan = .error .outOfBounds := by
  induction more generalizing scan indexes with
  | nil => exact absurd (by simpa using h.recnoList.length_le) hfull
  | cons indx more ih =>
    rw [List.foldlM_cons]
    by_cases hlt : indexes.length < numHits
    · obtain ⟨next, hpush, hnext, -⟩ := h.pushRecno indx hlt
      rw [hpush]
      exact ih hnext (by rwa [← List.append_cons])
    · rw [h.pushRecno_full indx hlt]
      rfl

theorem SubsetScan.Holds.pushRegex (h : scan.Holds numHits indexes words) (word : List Char)
    (hroom : words.length < 30) :
    ∃ scan', scan.pushRegex word = .ok scan' ∧ scan'.Holds numHits indexes (words ++ [word]) ∧
      scan'.searchKeys = scan.searchKeys := by
  obtain ⟨cells, hstore, hcells⟩ := h.regex.store hroom word
  refine ⟨{ scan with regex := cells, regexcount := scan.regexcount + 1 }, ?_, ?_, rfl⟩
  · rw [SubsetScan.pushRegex, h.regexcount, hstore]
  · exact ⟨h.recnoList, h.newRecs, hcells, by simp [h.regexcount]⟩

theorem SubsetScan.Holds.pushRegex_full (h : scan.Holds numHits indexes words) (word : List Char)
    (hfull : ¬words.length < 30) : scan.pushRegex word = .error .outOfBounds := by
  rw [SubsetScan.pushRegex, h.regexcount, Buffer.store?, h.regex.length_cells, if_neg hfull]

/-- Behind `FIND` every element is an expression; the test for the end of the array comes too late. -/
theorem subsetLoop_words (hits : ℤ) (rest : List (List Char)) (h : scan.Holds numHits indexes words)
    (hkeys : scan.searchKeys = true) :
    if (words ++ rest).length ≤ 30 then
      ∃ scan', subsetLoop hits rest scan = .ok (some scan') ∧
        scan'.Holds numHits indexes (words ++ rest) ∧ scan'.searchKeys = true
    else subsetLoop hits rest scan = .error .outOfBounds := by
  induction rest generalizing scan words with
  | nil =>
    rw [List.append_nil, if_pos h.regex.length_le]
    exact ⟨scan, rfl, h, hkeys⟩
  | cons word rest ih =>
    have hcount : ¬scan.regexcount > 30 := by
      have hle := h.regex.length_le
      rw [h.regexcount]
      omega
    rw [subsetLoop, if_pos hkeys, if_neg hcount, List.append_cons]
    by_cases hlt : words.length < 30
    · obtain ⟨next, hpush, hnext, hkeys'⟩ := h.pushRegex word hlt
      rw [hpush]
      exact ih hnext (hkeys'.trans hkeys)
    · rw [h.pushRegex_full word hlt, if_neg]
      · rfl
      · simp only [List.length_append, List.length_singleton]
        omega

/-- What is read fits the arrays. -/
structure SubsetReading.Fits (reading : SubsetReading) (numHits used : ℕ) : Prop where
  indexes : used + reading.indexes.length ≤ numHits
  words : ∀ words ∈ reading.words, words.length ≤ 30

/-- The state that the loop leaves. -/
def SubsetReading.Leaves (reading : SubsetReading) (numHits : ℕ) (before : List ℤ) :
    Option SubsetScan → Prop
  | none => reading.finished = false
  | some scan => reading.finished = true ∧
      scan.Holds numHits (before ++ reading.indexes) (reading.words.getD []) ∧
      scan.searchKeys = reading.words.isSome

theorem subsetLoop_fits {hits : ℤ} {rest : List (List Char)} {reading : SubsetReading}
    (hread : readSubset hits rest = .ok reading) (h : scan.Holds numHits indexes [])
    (hkeys : scan.searchKeys = false) (hfits : reading.Fits numHits indexes.length) :
    ∃ left, subsetLoop hits rest scan = .ok left ∧ reading.Leaves numHits indexes left := by
  induction rest generalizing scan indexes reading with
  | nil =>
    cases hread
    exact ⟨some scan, rfl, rfl, by simpa using h, hkeys⟩
  | cons recnumber rest ih =>
    rw [readSubset] at hread
    rw [subsetLoop, hkeys, if_neg Bool.false_ne_true]
    by_cases hfind : isFind recnumber = true
    · rw [if_pos hfind] at hread ⊢
      cases hread
      have hwords := @subsetLoop_words { scan with searchKeys := true } numHits indexes [] hits rest
        ⟨h.recnoList, h.newRecs, h.regex, h.regexcount⟩ rfl
      rw [List.nil_append, if_pos (hfits.words rest rfl)] at hwords
      obtain ⟨scan', hrun, hscan, hkeys'⟩ := hwords
      exact ⟨some scan', hrun, rfl, by simpa using hscan, hkeys'⟩
    · rw [if_neg hfind] at hread ⊢
      obtain ⟨element, helement, hread⟩ := bind_eq_ok.mp hread
      rw [helement]
      simp only [bind, Except.bind]
      cases element with
      | none =>
        cases hread
        exact ⟨none, rfl, rfl⟩
      | some more =>
        obtain ⟨later, hlater, hread⟩ := bind_eq_ok.mp hread
        cases hread
        have hroom := hfits.indexes
        simp only [List.length_append] at hroom
        obtain ⟨next, hpush, hnext, hkeys'⟩ := h.pushAll more (by rw [List.length_append]; omega)
        have hfits' : later.Fits numHits (indexes ++ more).length :=
          ⟨by rw [List.length_append]; omega, hfits.words⟩
        obtain ⟨left, hrun, hleaves⟩ := ih hlater hnext (hkeys'.trans hkeys) hfits'
        refine ⟨left, ?_, ?_⟩
        · simp only [hpush]
          exact hrun
        · cases left with
          | none => exact hleaves
          | some scan' => exact ⟨hleaves.1, by simpa using hleaves.2.1, hleaves.2.2⟩

theorem fits_of_subsetLoop {hits : ℤ} {rest : List (List Char)} {left : Option SubsetScan}
    (hrun : subsetLoop hits rest scan = .ok left) (h : scan.Holds numHits indexes [])
    (hkeys : scan.searchKeys = false) :
    ∃ reading, readSubset hits rest = .ok reading ∧ reading.Fits numHits indexes.length := by
  induction rest generalizing scan indexes with
  | nil => exact ⟨_, rfl, by simpa using h.recnoList.length_le, by simp⟩
  | cons recnumber rest ih =>
    rw [subsetLoop, hkeys, if_neg Bool.false_ne_true] at hrun
    rw [readSubset]
    by_cases hfind : isFind recnumber = true
    · rw [if_pos hfind] at hrun ⊢
      refine ⟨_, rfl, by simpa using h.recnoList.length_le, ?_⟩
      intro words hwords
      obtain rfl : rest = words := Option.some.inj hwords
      have hloop := @subsetLoop_words { scan with searchKeys := true } numHits indexes [] hits rest
        ⟨h.recnoList, h.newRecs, h.regex, h.regexcount⟩ rfl
      by_contra hfull
      rw [List.nil_append, if_neg hfull, hrun] at hloop
      cases hloop
    · rw [if_neg hfind] at hrun ⊢
      obtain ⟨element, helement, hrun⟩ := bind_eq_ok.mp hrun
      rw [helement]
      simp only [bind, Except.bind]
      cases element with
      | none => exact ⟨_, rfl, by simpa using h.recnoList.length_le, by simp⟩
      | some more =>
        obtain ⟨next, hpush, hrun⟩ := bind_eq_ok.mp hrun
        by_cases hroom : (indexes ++ more).length ≤ numHits
        · obtain ⟨next', hpush', hnext, hkeys'⟩ := h.pushAll more hroom
          obtain rfl : next = next' := Except.ok.inj (hpush.symm.trans hpush')
          obtain ⟨later, hlater, hfits⟩ := ih hrun hnext (hkeys'.trans hkeys)
          simp only [hlater]
          refine ⟨_, rfl, ?_, hfits.words⟩
          have hlength := hfits.indexes
          simp only [List.length_append] at hlength ⊢
          omega
        · rw [h.pushAll_full more hroom] at hpush
          cases hpush

end Arrays

/-- What is copied of an entry; the extra data stays what it was. -/
def fillCell (cell entry : WeightedEntry) : WeightedEntry :=
  { cell with recordNum := entry.recordNum, weight := entry.weight }

section Copy

variable {inRes : WeightedResult}

theorem requestedHits_cons (indx : ℤ) (rest : List ℤ) :
    requestedHits inRes (indx :: rest) =
      (hitAt inRes indx).bind fun entry ↦ (requestedHits inRes rest).map fun entries ↦
        entry :: entries := by
  rw [requestedHits, List.mapM_cons]
  cases hitAt inRes indx with
  | none => rfl
  | some entry =>
    rw [requestedHits]
    cases rest.mapM (hitAt inRes) <;> rfl

theorem length_requestedHits {indexes : List ℤ} {entries : List WeightedEntry}
    (h : requestedHits inRes indexes = some entries) : entries.length = indexes.length := by
  induction indexes generalizing entries with
  | nil =>
    cases h
    rfl
  | cons indx rest ih =>
    rw [requestedHits_cons] at h
    obtain ⟨entry, -, hrest⟩ := Option.bind_eq_some_iff.mp h
    obtain ⟨entries, hentries, rfl⟩ := Option.map_eq_some_iff.mp hrest
    rw [List.length_cons, List.length_cons, ih hentries]

theorem hitAt_of_entryAt {indx : ℤ} {entry : WeightedEntry} (hnonneg : 0 ≤ indx)
    (hdrop : inRes.hits.drop indx.toNat = entry :: inRes.hits.drop (indx.toNat + 1)) :
    hitAt inRes indx = some entry := by
  rw [hitAt, if_pos hnonneg, ← List.head?_drop, hdrop, List.head?_cons]

theorem hitAt_eq_none (halloc : inRes.Allocated) {indx : ℤ} (h : ¬(indx ≥ 0 ∧ indx < inRes.numHits)) :
    hitAt inRes indx = none := by
  rw [hitAt]
  split_ifs with hnonneg
  · rw [List.getElem?_eq_none_iff, halloc.length_hits]
    omega
  · rfl

theorem copySubset_eq (halloc : inRes.Allocated) (indexes : List ℤ) (i : ℕ)
    (cells : List WeightedEntry) (hroom : i + indexes.length ≤ cells.length) :
    copySubset inRes indexes i cells = .ok ((requestedHits inRes indexes).map fun entries ↦
      cells.take i ++ (List.zipWith fillCell (cells.drop i) entries ++
        cells.drop (i + indexes.length))) := by
  induction indexes generalizing i cells with
  | nil =>
    have hnone : requestedHits inRes [] = some [] := rfl
    rw [copySubset, hnone, Option.map_some, List.zipWith_nil_right, List.nil_append, List.length_nil,
      Nat.add_zero, List.take_append_drop]
  | cons indx rest ih =>
    rw [List.length_cons] at hroom ⊢
    rw [copySubset, requestedHits_cons]
    by_cases hvalid : indx ≥ 0 ∧ indx < inRes.numHits
    · obtain ⟨entry, hentry, hdrop⟩ := halloc.entryAt (show (indx.toNat : ℤ) < inRes.numHits by omega)
      have hcell : i < cells.length := by omega
      rw [if_pos hvalid, hentry, hitAt_of_entryAt hvalid.1 hdrop]
      simp only [bind, Except.bind, putHit, List.getElem?_eq_getElem hcell, Option.bind_some]
      rw [ih (i + 1) _ (by rw [List.length_set]; omega), Option.map_map]
      congr 2
      funext entries
      have htake : (cells.set i (fillCell cells[i] entry)).take (i + 1) =
          cells.take i ++ [fillCell cells[i] entry] := by
        rw [List.take_add_one, List.take_set_of_le le_rfl, List.getElem?_set_self hcell]
        rfl
      have hset : ({ cells[i] with recordNum := entry.recordNum, weight := entry.weight } :
          WeightedEntry) = fillCell cells[i] entry := rfl
      have hplace : i + 1 + rest.length = i + (rest.length + 1) := by omega
      rw [Function.comp_apply, hset, htake, List.drop_set_of_lt (Nat.lt_succ_self i),
        List.drop_set_of_lt (by omega), List.drop_eq_getElem_cons hcell, List.zipWith_cons_cons,
        hplace, List.append_assoc]
      rfl
    · rw [if_neg hvalid, hitAt_eq_none halloc hvalid]
      rfl

/-- Extra data is not copied: the first entry brings what the first entry of the set has, and the other
ones bring none. -/
def KeepsExtra (xtra : ℕ) : List WeightedEntry → Prop
  | [] => True
  | first :: rest => first.xtra = xtra ∧ ∀ entry ∈ rest, entry.xtra = 0

theorem fillCell_eq_iff (cell entry : WeightedEntry) :
    fillCell cell entry = entry ↔ entry.xtra = cell.xtra := by
  cases entry
  simp [fillCell, eq_comm]

theorem zipWith_fillCell_zero (entries : List WeightedEntry) (n : ℕ) (hle : entries.length ≤ n) :
    List.zipWith fillCell (List.replicate n WeightedEntry.zero) entries = entries ↔
      ∀ entry ∈ entries, entry.xtra = 0 := by
  induction entries generalizing n with
  | nil => simp
  | cons entry entries ih =>
    obtain ⟨m, rfl⟩ : ∃ m, n = m + 1 := ⟨n - 1, by rw [List.length_cons] at hle; omega⟩
    rw [List.replicate_succ, List.zipWith_cons_cons, List.cons.injEq, List.forall_mem_cons,
      ih m (by simpa using hle)]
    exact and_congr_left fun _ ↦ fillCell_eq_iff _ _

theorem zipWith_fillCell_iff (first : WeightedEntry) (entries : List WeightedEntry) (n : ℕ)
    (hle : entries.length ≤ n) :
    List.zipWith fillCell (first :: Buffer.calloc WeightedEntry.zero n) entries = entries ↔
      KeepsExtra first.xtra entries := by
  cases entries with
  | nil => simp [KeepsExtra]
  | cons entry entries =>
    rw [List.zipWith_cons_cons, List.cons.injEq, KeepsExtra, Buffer.calloc,
      zipWith_fillCell_zero entries n (by rw [List.length_cons] at hle; omega)]
    exact and_congr_left fun _ ↦ fillCell_eq_iff _ _

end Copy

/-- The specification can be read, what is read fits the arrays, the name of the set has room for its
ending, and the requested hits bring no extra data that would be lost. -/
def SafeSubset (inRes : WeightedResult) (recnos : List Char) : Prop :=
  ∃ reading, readSubset inRes.numHits (tokens [','] recnos) = .ok reading ∧
    reading.Fits inRes.numHits.toNat 0 ∧
    (reading.finished = true → reading.words ≠ none →
      inRes.setid.utf8ByteSize + "_kwscan".utf8ByteSize < SETID_SIZE) ∧
    (reading.finished = true → reading.words = none →
      ∀ entries ∈ requestedHits inRes reading.indexes,
        KeepsExtra (inRes.entries.headD WeightedEntry.zero).xtra entries)

section Main

variable {seRegexScan : WeightedResult → List (List Char) → Exec (Option WeightedResult)}
  {inRes : WeightedResult}

/-- The new set with these hits. -/
def subsetOf (inRes : WeightedResult) (setid : String) (entries : List WeightedEntry) : WeightedResult :=
  { inRes with
    setid := setid
    numHits := entries.length
    entries := List.zipWith fillCell (inRes.entries.headD WeightedEntry.zero ::
        Buffer.calloc WeightedEntry.zero entries.length) entries ++
      (inRes.entries.headD WeightedEntry.zero ::
        Buffer.calloc WeightedEntry.zero entries.length).drop entries.length }

theorem hits_subsetOf (setid : String) (entries : List WeightedEntry) :
    (subsetOf inRes setid entries).hits = List.zipWith fillCell
      (inRes.entries.headD WeightedEntry.zero :: Buffer.calloc WeightedEntry.zero entries.length)
      entries := by
  have hlength : (List.zipWith fillCell (inRes.entries.headD WeightedEntry.zero ::
      Buffer.calloc WeightedEntry.zero entries.length) entries).length = entries.length := by
    simp [Buffer.calloc]
  exact List.take_left' hlength

/-- The routine behind the loop over the specification. -/
def finishSubset (seRegexScan : WeightedResult → List (List Char) → Exec (Option WeightedResult))
    (inRes : WeightedResult) (reading : SubsetReading) : Exec (Option WeightedResult) := do
  let setid ← subsetSetid inRes.setid reading.words.isSome
  match requestedHits inRes reading.indexes with
  | none => .ok none
  | some entries =>
    if (reading.words.getD []).length ≥ 1 then
      seRegexScan (subsetOf inRes setid entries) (reading.words.getD [])
    else .ok (some (subsetOf inRes setid entries))

theorem seGetResultSubset_eq (halloc : inRes.Allocated) {recnos : List Char} {reading : SubsetReading}
    (hread : readSubset inRes.numHits (tokens [','] recnos) = .ok reading)
    (hfits : reading.Fits inRes.numHits.toNat 0) :
    seGetResultSubset seRegexScan inRes recnos =
      if reading.finished then finishSubset seRegexScan inRes reading else .ok none := by
  obtain ⟨left, hloop, hleaves⟩ := @subsetLoop_fits
    ⟨Buffer.calloc 0 inRes.numHits.toNat, 0, false, Buffer.calloc [] 30, 0⟩ inRes.numHits.toNat []
    inRes.numHits _ _ hread ⟨Buffer.holds_calloc _ _, rfl, Buffer.holds_calloc _ _, rfl⟩ rfl hfits
  rw [seGetResultSubset, hloop]
  simp only [bind, Except.bind]
  cases left with
  | none =>
    have hfinished : reading.finished = false := hleaves
    rw [hfinished]
    rfl
  | some scan =>
    obtain ⟨hfinished, hscan, hkeys⟩ := hleaves
    rw [List.nil_append] at hscan
    have hcells : reading.indexes.length ≤ (inRes.entries.headD WeightedEntry.zero ::
        Buffer.calloc WeightedEntry.zero reading.indexes.length).length := by
      simp [Buffer.calloc]
    simp only [hfinished, if_true, hkeys, hscan.newRecs, hscan.recnoList.take, hscan.regexcount,
      hscan.regex.take, finishSubset, bind, Except.bind, Bool.and_eq_true, decide_eq_true_eq]
    cases subsetSetid inRes.setid reading.words.isSome with
    | error fault => rfl
    | ok setid =>
      simp only
      rw [copySubset_eq halloc reading.indexes 0 _ (by rwa [Nat.zero_add])]
      cases hhits : requestedHits inRes reading.indexes with
      | none => rfl
      | some entries =>
        have hlength := length_requestedHits hhits
        simp only [Option.map_some, List.take_zero, List.nil_append, List.drop_zero, Nat.zero_add,
          ← hlength]
        refine if_congr ?_ rfl rfl
        cases reading.words <;> simp

/-- The routine keeps to its arrays and returns the requested hits exactly for the safe specifications. -/
theorem returnsSubset_iff (halloc : inRes.Allocated)
    (hscan : ∀ set words, ∃ result, seRegexScan set words = .ok result) (recnos : List Char) :
    ReturnsSubset seRegexScan inRes recnos ↔ SafeSubset inRes recnos := by
  constructor
  · rintro ⟨result, hrun, hexact⟩
    obtain ⟨scanned, hloop, -⟩ := bind_eq_ok.mp hrun
    obtain ⟨reading, hread, hfits⟩ := @fits_of_subsetLoop
      ⟨Buffer.calloc 0 inRes.numHits.toNat, 0, false, Buffer.calloc [] 30, 0⟩ inRes.numHits.toNat []
      _ _ _ hloop ⟨Buffer.holds_calloc _ _, rfl, Buffer.holds_calloc _ _, rfl⟩ rfl
    have hexact := fun newset hnewset ↦ hexact newset hnewset reading hread
    rw [seGetResultSubset_eq halloc hread hfits] at hrun
    refine ⟨reading, hread, hfits, ?_, ?_⟩
    · intro hfinished hwords
      rw [if_pos hfinished] at hrun
      obtain ⟨setid, hsetid, -⟩ := bind_eq_ok.mp hrun
      rw [subsetSetid, if_pos (Option.isSome_iff_ne_none.mpr hwords)] at hsetid
      by_contra hlong
      rw [if_neg hlong] at hsetid
      cases hsetid
    · intro hfinished hwords entries hentries
      have hentries : requestedHits inRes reading.indexes = some entries := hentries
      rw [if_pos hfinished, finishSubset, hwords, hentries] at hrun
      have hresult : some (subsetOf inRes "" entries) = result := Except.ok.inj hrun
      have hhits := hexact _ hresult.symm hwords
      rw [hentries, hits_subsetOf, Option.some.injEq] at hhits
      exact (zipWith_fillCell_iff _ entries _ le_rfl).mp hhits
  · rintro ⟨reading, hread, hfits, hsetid, hextra⟩
    have hrun := @seGetResultSubset_eq seRegexScan _ halloc _ _ hread hfits
    have hreturns (result : Option WeightedResult) (hresult : seGetResultSubset seRegexScan inRes recnos =
        .ok result) (hexact : reading.words = none → ∀ newset ∈ result,
          some newset.hits = requestedHits inRes reading.indexes) :
        ReturnsSubset seRegexScan inRes recnos := by
      refine ⟨result, hresult, fun newset hnewset reading' hread' hwords ↦ ?_⟩
      obtain rfl : reading = reading' := Except.ok.inj (hread.symm.trans hread')
      exact hexact hwords newset hnewset
    have hnull (newset : WeightedResult) (h : newset ∈ (none : Option WeightedResult)) :
        some newset.hits = requestedHits inRes reading.indexes := absurd h (Option.not_mem_none newset)
    by_cases hfinished : reading.finished = true
    · rw [if_pos hfinished, finishSubset] at hrun
      cases hwords : reading.words with
      | none =>
        rw [hwords] at hrun
        cases hentries : requestedHits inRes reading.indexes with
        | none =>
          rw [hentries] at hrun
          exact hreturns none hrun fun _ ↦ hnull
        | some entries =>
          rw [hentries] at hrun
          refine hreturns _ hrun fun _ newset hnewset ↦ ?_
          obtain rfl := Option.some.inj hnewset
          rw [hentries, hits_subsetOf, Option.some.injEq]
          exact (zipWith_fillCell_iff _ entries _ le_rfl).mpr (hextra hfinished hwords entries hentries)
      | some words =>
        have hsearch (result : Option WeightedResult)
            (hresult : seGetResultSubset seRegexScan inRes recnos = .ok result) :
            ReturnsSubset seRegexScan inRes recnos :=
          hreturns result hresult fun hnone ↦ absurd (hwords.symm.trans hnone) (Option.some_ne_none words)
        have hname := hsetid hfinished (by rw [hwords]; exact Option.some_ne_none words)
        rw [hwords, subsetSetid, if_pos Option.isSome_some, if_pos hname] at hrun
        cases hentries : requestedHits inRes reading.indexes with
        | none =>
          rw [hentries] at hrun
          exact hsearch none hrun
        | some entries =>
          simp only [hentries, bind, Except.bind] at hrun
          split_ifs at hrun
          · obtain ⟨result, hresult⟩ := hscan (subsetOf inRes (inRes.setid ++ "_kwscan") entries)
              ((some words).getD [])
            exact hsearch result (hrun.trans hresult)
          · exact hsearch _ hrun
    · rw [if_neg hfinished] at hrun
      exact hreturns none hrun fun _ ↦ hnull

end Main

/-- The second of two hits. -/
theorem returnsSubset_second : ReturnsSubset (fun set _ ↦ .ok (some set))
    (WeightedResult.ofRecords "docs" [3, 5]) ['2'] := by
  have halloc : (WeightedResult.ofRecords "docs" [3, 5]).Allocated := ⟨by decide, by decide⟩
  refine (returnsSubset_iff halloc (fun set _ ↦ ⟨some set, rfl⟩) ['2']).mpr
    ⟨⟨[1], none, true⟩, by decide +kernel, ⟨by decide, fun _ h ↦ absurd h (Option.not_mem_none _)⟩,
      fun _ h ↦ absurd rfl h, ?_⟩
  intro _ _ entries hentries
  obtain rfl : [⟨5, 0, 1⟩] = entries := Option.some.inj hentries
  exact ⟨rfl, fun _ h ↦ absurd h List.not_mem_nil⟩

/-- The first of two hits three times: the third place is behind the end of `recno_list`. -/
theorem not_returnsSubset : ∃ inRes : WeightedResult, inRes.Allocated ∧ ∃ recnos,
    ¬ReturnsSubset (fun set _ ↦ .ok (some set)) inRes recnos := by
  refine ⟨WeightedResult.ofRecords "docs" [3, 5], ⟨by decide, by decide⟩, ['1', ',', '1', ',', '1'], ?_⟩
  have hrun : seGetResultSubset (fun set _ ↦ .ok (some set)) (WeightedResult.ofRecords "docs" [3, 5])
      ['1', ',', '1', ',', '1'] = .error .outOfBounds := by decide +kernel
  rintro ⟨result, hresult, -⟩
  rw [hrun] at hresult
  cases hresult

end Cheshire.Search
