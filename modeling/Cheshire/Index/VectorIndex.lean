import Cheshire.Index.BitmapLoaders

/-!
# Vector indexes

The postings of an index are written out as lines, sorted by their record and read back, and at each
change of the record a vector is put for the record before.  After the last line one more vector is put,
also when there was no line; a put does not overwrite what is there, so a file that is built again keeps
the vectors it has.
-/

namespace Cheshire.Index

open Lib.Buffer

variable {R : Type}

structure VecTermInfo where
  termid : ℤ
  termfreq : ℤ
deriving DecidableEq

def VecTermInfo.zero : VecTermInfo := ⟨0, 0⟩

structure VectorDataInfo (R : Type) where
  sqrtSumTfidfSq : R
  avgTermFreq : ℚ
  maxTermFreq : ℤ
  numTerms : ℕ
  entries : List VecTermInfo

structure VecTermOverlay where
  collFreq : ℤ
  term : Term

/-- The vectors by their record and the terms by their number. -/
structure VectorFile (R : Type) where
  vectors : ℤ → Option (VectorDataInfo R)
  terms : ℤ → Option VecTermOverlay

def VectorFile.empty : VectorFile R := ⟨fun _ ↦ none, fun _ ↦ none⟩

/-- `dbvect->put` of a vector with `DB_NOOVERWRITE` -/
def VectorFile.putVector (file : VectorFile R) (recnum : ℤ) (vector : VectorDataInfo R) :
    VectorFile R :=
  { file with vectors := fun other ↦
      if other = recnum then (file.vectors other).or (some vector) else file.vectors other }

/-- `dbvect->put` of a term with `DB_NOOVERWRITE` -/
def VectorFile.putTerm (file : VectorFile R) (termid : ℤ) (overlay : VecTermOverlay) :
    VectorFile R :=
  { file with terms := fun other ↦
      if other = termid then (file.terms other).or (some overlay) else file.terms other }

/-- The weight of a posting as it is printed and read again, for the number of records, the entries of
the term and the frequency; and the square root. -/
structure VectorWeights (R : Type) where
  tfidf : ℤ → ℤ → ℤ → R
  sqrt : R → R

/-- A line of the temporary file. -/
structure VectorLine (R : Type) where
  recnum : ℤ
  termnum : ℤ
  termfreq : ℤ
  tfidf : R

/-- What is read of an `idx_list_entry`; `recptr` is that of its global data. -/
structure VectorSource where
  idxType : ℕ
  recptr : ℕ
  pairs : List (Term × CursorData)

/-- The postings that are read of a copy with room for one posting more than the block. -/
def readPostings (block : IdxResult) : Exec (List IdxPostingEntry) :=
  if block.numEntries.toNat ≤ block.entries.length + 1 then
    .ok ((block.entries ++ [IdxPostingEntry.zero]).take block.numEntries.toNat)
  else .error .outOfBounds

def linesOf (weights : VectorWeights R) (numrecs : ℤ) (block : IdxResult)
    (entries : List IdxPostingEntry) : List (VectorLine R) :=
  entries.map fun entry ↦ ⟨entry.recordNo, block.termid, entry.termFreq,
    weights.tfidf numrecs block.numEntries entry.termFreq⟩

def extract (weights : VectorWeights R) (numrecs : ℤ) (idxType : ℕ) :
    List (Term × CursorData) → VectorFile R → Exec (List (VectorLine R) × VectorFile R)
  | [], file => .ok ([], file)
  | (key, data) :: pairs, file =>
    if idxType &&& BITMAPPED_TYPE ≠ 0 ∨ data.size < SIZEOF_IDX_RESULT then
      extract weights numrecs idxType pairs file
    else
      match data with
      | .totals _ => extract weights numrecs idxType pairs file
      | .postings block =>
        readPostings block >>= fun entries ↦
          extract weights numrecs idxType pairs
              (file.putTerm block.termid ⟨block.numEntries, key⟩) >>= fun rest ↦
            .ok (linesOf weights numrecs block entries ++ rest.1, rest.2)

/-- What is kept between two lines; `cells` is `temp_term_info`. -/
structure VectorState (R : Type) where
  file : VectorFile R
  lastrecnum : ℤ
  cells : List VecTermInfo
  countTerms : ℕ
  sumtfidf : R
  sumtf : ℚ
  maxtf : ℤ

/-- `temp_term_info[index] = ...` -/
def storeTerm (cells : List VecTermInfo) (index : ℕ) (line : VectorLine R) : Exec (List VecTermInfo) :=
  match store? cells index ⟨line.termnum, line.termfreq⟩ with
  | none => .error .outOfBounds
  | some cells => .ok cells

/-- `memset` of the cells in front. -/
def clearCells (cells : List VecTermInfo) (count : ℕ) : Exec (List VecTermInfo) :=
  if count ≤ cells.length then .ok (List.replicate count VecTermInfo.zero ++ cells.drop count)
  else .error .outOfBounds

/-- The first line of a record. -/
def VectorState.begin [Semiring R] (state : VectorState R) (line : VectorLine R) :
    Exec (VectorState R) :=
  storeTerm state.cells 0 line >>= fun cells ↦
    .ok { state with
      lastrecnum := line.recnum
      cells := cells
      countTerms := 1
      sumtfidf := line.tfidf * line.tfidf
      sumtf := line.termfreq
      maxtf := line.termfreq }

def VectorState.put (weights : VectorWeights R) (state : VectorState R) : VectorFile R :=
  state.file.putVector state.lastrecnum
    { sqrtSumTfidfSq := weights.sqrt state.sumtfidf
      avgTermFreq := state.sumtf / state.countTerms
      maxTermFreq := state.maxtf
      numTerms := state.countTerms
      entries := (state.cells.take state.countTerms).filter fun info ↦ info.termid ≠ 0 }

def accumulate [Semiring R] (weights : VectorWeights R) (state : VectorState R) (line : VectorLine R) :
    Exec (VectorState R) :=
  if line.recnum ≠ state.lastrecnum then
    if state.lastrecnum = 0 then state.begin line
    else
      clearCells state.cells (state.countTerms + 1) >>= fun cells ↦
        { state with file := state.put weights, cells := cells }.begin line
  else
    storeTerm state.cells state.countTerms line >>= fun cells ↦
      .ok { state with
        cells := cells
        countTerms := state.countTerms + 1
        sumtfidf := state.sumtfidf + line.tfidf * line.tfidf
        sumtf := state.sumtf + line.termfreq
        maxtf := if state.maxtf < line.termfreq then line.termfreq else state.maxtf }

def accumulateAll [Semiring R] (weights : VectorWeights R) :
    VectorState R → List (VectorLine R) → Exec (VectorState R)
  | state, [] => .ok state
  | state, line :: lines =>
    accumulate weights state line >>= fun state ↦ accumulateAll weights state lines

/-- `BuildVectors`; `sort` is the program that sorts the lines. -/
def buildVectors [Semiring R] (weights : VectorWeights R)
    (sort : List (VectorLine R) → List (VectorLine R)) (numrecs : ℤ) (source : VectorSource)
    (file : VectorFile R) : Exec (VectorFile R) :=
  extract weights numrecs source.idxType source.pairs file >>= fun lines ↦
    let cells := calloc VecTermInfo.zero (source.recptr + 1)
    accumulateAll weights ⟨lines.2, 0, cells, 0, 0, 0, 0⟩ (sort lines.1) >>= fun state ↦
      .ok (state.put weights)

/-- `sort -n`: the lines in the order of their records. -/
structure SortsByRecord (sort : List (VectorLine R) → List (VectorLine R)) : Prop where
  perm : ∀ lines, (sort lines).Perm lines
  sorted : ∀ lines, (sort lines).Pairwise fun first second ↦ first.recnum ≤ second.recnum

/-- The terms of an index with their postings. -/
def VectorSource.blocks (source : VectorSource) : List (Term × IdxResult) :=
  source.pairs.filterMap fun pair ↦
    match pair.2 with
    | .totals _ => none
    | .postings block => some (pair.1, block)

/-- An index: a block has one posting at least, whether it is used or not, no record twice, and a number
below the next one to be given, which no other block has. -/
structure PostingIndex extends VectorSource where
  head : ∀ pair ∈ toVectorSource.blocks, 1 ≤ pair.2.entries.length
  numEntries : ∀ pair ∈ toVectorSource.blocks,
    0 ≤ pair.2.numEntries ∧ pair.2.numEntries ≤ pair.2.entries.length
  termid : ∀ pair ∈ toVectorSource.blocks, 1 ≤ pair.2.termid ∧ pair.2.termid < recptr
  termids : (toVectorSource.blocks.map fun pair ↦ pair.2.termid).Nodup
  records : ∀ pair ∈ toVectorSource.blocks, (pair.2.postings.map IdxPostingEntry.recordNo).Nodup ∧
    ∀ entry ∈ pair.2.postings, 1 ≤ entry.recordNo

/-- The terms of a record with their frequencies. -/
def VectorSource.postingsOf (source : VectorSource) (recnum : ℤ) : List VecTermInfo :=
  source.blocks.flatMap fun pair ↦
    (pair.2.postings.filter fun entry ↦ entry.recordNo = recnum).map fun entry ↦
      ⟨pair.2.termid, entry.termFreq⟩

/-- The vector lists the terms, with their number and the greatest and the mean frequency. -/
structure RightVector (postings : List VecTermInfo) (vector : VectorDataInfo R) : Prop where
  entries : vector.entries.Perm postings
  numTerms : vector.numTerms = postings.length
  maximum : (∃ info ∈ postings, info.termfreq = vector.maxTermFreq) ∧
    ∀ info ∈ postings, info.termfreq ≤ vector.maxTermFreq
  mean : vector.avgTermFreq = (postings.map fun info ↦ (info.termfreq : ℚ)).sum / postings.length

/-- The file has the transpose of the posting lists. -/
structure Transposes (source : VectorSource) (file : VectorFile R) : Prop where
  vectors : ∀ recnum vector, file.vectors recnum = some vector →
    source.postingsOf recnum ≠ [] ∧ RightVector (source.postingsOf recnum) vector
  records : ∀ recnum, source.postingsOf recnum ≠ [] → ∃ vector, file.vectors recnum = some vector
  terms : ∀ pair ∈ source.blocks, file.terms pair.2.termid = some ⟨pair.2.numEntries, pair.1⟩

section Lines

variable {weights : VectorWeights R} {numrecs : ℤ}

/-- What of a line goes into a vector. -/
def VectorLine.info (line : VectorLine R) : VecTermInfo := ⟨line.termnum, line.termfreq⟩

def ofRecord (recnum : ℤ) (lines : List (VectorLine R)) : List (VectorLine R) :=
  lines.filter fun line ↦ line.recnum = recnum

/-- The terms of a list of pairs of an index. -/
def blocksOf (pairs : List (Term × CursorData)) : List (Term × IdxResult) :=
  pairs.filterMap fun pair ↦
    match pair.2 with
    | .totals _ => none
    | .postings block => some (pair.1, block)

theorem readPostings_eq {block : IdxResult} (hle : block.numEntries ≤ block.entries.length) :
    readPostings block = .ok block.postings := by
  have hcount : block.numEntries.toNat ≤ block.entries.length := by omega
  rw [readPostings, if_pos (Nat.le_succ_of_le hcount), List.take_append_of_le_length hcount,
    IdxResult.postings]

theorem extract_spec {idxType : ℕ} (hplain : idxType &&& BITMAPPED_TYPE = 0)
    {pairs : List (Term × CursorData)} (hhead : ∀ pair ∈ blocksOf pairs, 1 ≤ pair.2.entries.length)
    (hentries : ∀ pair ∈ blocksOf pairs, pair.2.numEntries ≤ pair.2.entries.length)
    (file : VectorFile R) :
    ∃ file', extract weights numrecs idxType pairs file = .ok
        ((blocksOf pairs).flatMap fun pair ↦ linesOf weights numrecs pair.2 pair.2.postings, file') ∧
      file'.vectors = file.vectors ∧ ∀ termid, file'.terms termid = (file.terms termid).or
        (((blocksOf pairs).find? fun pair ↦ pair.2.termid = termid).map fun pair ↦
          ⟨pair.2.numEntries, pair.1⟩) := by
  induction pairs generalizing file with
  | nil => exact ⟨file, rfl, rfl, fun termid ↦ by simp [blocksOf]⟩
  | cons pair pairs ih =>
    obtain ⟨key, data⟩ := pair
    cases data with
    | totals info =>
      have hskip : idxType &&& BITMAPPED_TYPE ≠ 0 ∨ (CursorData.totals info).size < SIZEOF_IDX_RESULT :=
        Or.inr (show 12 < SIZEOF_IDX_RESULT by decide)
      rw [extract, if_pos hskip]
      exact ih hhead hentries file
    | postings block =>
      have hfirst : (key, block) ∈ blocksOf ((key, .postings block) :: pairs) := List.mem_cons_self
      have hread : ¬(idxType &&& BITMAPPED_TYPE ≠ 0 ∨
          (CursorData.postings block).size < SIZEOF_IDX_RESULT) := by
        have hpos : 1 ≤ block.entries.length := hhead _ hfirst
        rw [not_or, not_not, CursorData.size, IdxResult.size, SIZEOF_IDX_RESULT, HEADER_SIZE,
          POSTING_SIZE]
        exact ⟨hplain, by omega⟩
      obtain ⟨file', hrun, hvectors, hterms⟩ :=
        ih (fun other hmem ↦ hhead other (List.mem_cons_of_mem _ hmem))
          (fun other hmem ↦ hentries other (List.mem_cons_of_mem _ hmem))
          (file.putTerm block.termid ⟨block.numEntries, key⟩)
      refine ⟨file', ?_, hvectors, fun termid ↦ ?_⟩
      · rw [extract, if_neg hread]
        rw [readPostings_eq (hentries _ hfirst), hrun]
        rfl
      · rw [hterms]
        change (if termid = block.termid then _ else _ : Option VecTermOverlay).or _ =
          (file.terms termid).or ((((key, block) :: blocksOf pairs).find? _).map _)
        by_cases heq : termid = block.termid
        · rw [if_pos heq, List.find?_cons_of_pos (by simpa using heq.symm), Option.or_assoc]
          rfl
        · rw [if_neg heq, List.find?_cons_of_neg (by simpa using fun h ↦ heq h.symm)]

theorem extract_bitmapped {idxType : ℕ} (hbitmapped : idxType &&& BITMAPPED_TYPE ≠ 0)
    (pairs : List (Term × CursorData)) (file : VectorFile R) :
    extract weights numrecs idxType pairs file = .ok ([], file) := by
  induction pairs with
  | nil => rfl
  | cons pair pairs ih =>
    obtain ⟨key, data⟩ := pair
    cases data with
    | totals info => rw [extract, if_pos (Or.inl hbitmapped), ih]
    | postings block => rw [extract, if_pos (Or.inl hbitmapped), ih]

theorem ofRecord_lines (blocks : List (Term × IdxResult)) (recnum : ℤ) :
    (ofRecord recnum (blocks.flatMap fun pair ↦ linesOf weights numrecs pair.2 pair.2.postings)).map
        VectorLine.info =
      blocks.flatMap fun pair ↦
        (pair.2.postings.filter fun entry ↦ entry.recordNo = recnum).map fun entry ↦
          ⟨pair.2.termid, entry.termFreq⟩ := by
  rw [ofRecord, List.filter_flatMap, List.map_flatMap]
  refine List.flatMap_congr fun pair _ ↦ ?_
  rw [linesOf, List.filter_map, List.map_map]
  rfl

end Lines

theorem termids_sublist {blocks : List (Term × IdxResult)} (recnum : ℤ)
    (hrecords : ∀ pair ∈ blocks, (pair.2.postings.map IdxPostingEntry.recordNo).Nodup) :
    ((blocks.flatMap fun pair ↦
      (pair.2.postings.filter fun entry ↦ entry.recordNo = recnum).map fun entry ↦
        (⟨pair.2.termid, entry.termFreq⟩ : VecTermInfo)).map VecTermInfo.termid).Sublist
      (blocks.map fun pair ↦ pair.2.termid) := by
  induction blocks with
  | nil => exact List.Sublist.slnil
  | cons pair blocks ih =>
    have hrest := ih fun other hmem ↦ hrecords other (List.mem_cons_of_mem _ hmem)
    have hone : (pair.2.postings.filter fun entry ↦ entry.recordNo = recnum).length ≤ 1 := by
      have hnodup := hrecords pair List.mem_cons_self
      have hcount : (pair.2.postings.map IdxPostingEntry.recordNo).count recnum =
          (pair.2.postings.filter fun entry ↦ entry.recordNo = recnum).length := by
        rw [← List.countP_eq_length_filter, List.count, List.countP_map]
        exact List.countP_congr fun entry _ ↦ by simp
      rw [← hcount]
      exact List.nodup_iff_count_le_one.mp hnodup recnum
    rw [List.flatMap_cons, List.map_append, List.map_map, List.map_cons]
    rcases hfilter : pair.2.postings.filter fun entry ↦ entry.recordNo = recnum with _ | ⟨entry, more⟩
    · rw [hfilter]
      exact List.Sublist.cons _ hrest
    · rw [hfilter, List.length_cons] at hone
      have hmore : more = [] := List.eq_nil_of_length_eq_zero (by omega)
      rw [hfilter, hmore]
      exact List.Sublist.cons_cons _ hrest

theorem length_le_of_nodup_ico {numbers : List ℤ} {bound : ℕ} (hnodup : numbers.Nodup)
    (hmem : ∀ number ∈ numbers, 1 ≤ number ∧ number < bound) : numbers.length ≤ bound := by
  have hsubset : numbers.toFinset ⊆ Finset.Ico 1 (bound : ℤ) := by
    intro number h
    exact Finset.mem_Ico.mpr (hmem number (List.mem_toFinset.mp h))
  have hcard := Finset.card_le_card hsubset
  rw [List.toFinset_card_of_nodup hnodup, Int.card_Ico] at hcard
  omega

variable (index : PostingIndex)

theorem PostingIndex.length_postingsOf_le (recnum : ℤ) :
    (index.postingsOf recnum).length ≤ index.recptr := by
  have hsublist := termids_sublist recnum fun pair hmem ↦ (index.records pair hmem).1
  have hlength := hsublist.length_le
  rw [List.length_map, List.length_map] at hlength
  refine hlength.trans ?_
  have hrange : ∀ number ∈ index.blocks.map fun pair ↦ pair.2.termid,
      1 ≤ number ∧ number < (index.recptr : ℤ) := by
    intro number hmem
    obtain ⟨pair, hpair, rfl⟩ := List.mem_map.mp hmem
    exact index.termid pair hpair
  have hbound := length_le_of_nodup_ico index.termids hrange
  rwa [List.length_map] at hbound

variable {recnum : ℤ}

theorem PostingIndex.termid_pos {info : VecTermInfo}
    (hmem : info ∈ index.postingsOf recnum) : info.termid ≠ 0 := by
  obtain ⟨pair, hpair, hinfo⟩ := List.mem_flatMap.mp hmem
  obtain ⟨entry, -, rfl⟩ := List.mem_map.mp hinfo
  have hpos := (index.termid pair hpair).1
  change pair.2.termid ≠ 0
  omega

theorem PostingIndex.postingsOf_eq_nil (h : recnum < 1) : index.postingsOf recnum = [] := by
  refine List.eq_nil_iff_forall_not_mem.mpr fun info hmem ↦ ?_
  obtain ⟨pair, hpair, hinfo⟩ := List.mem_flatMap.mp hmem
  obtain ⟨entry, hentry, -⟩ := List.mem_map.mp hinfo
  obtain ⟨hused, hrecord⟩ := List.mem_filter.mp hentry
  have hpos := (index.records pair hpair).2 entry hused
  have heq := of_decide_eq_true hrecord
  omega

theorem RightVector.perm {postings postings' : List VecTermInfo} {vector : VectorDataInfo R}
    (h : RightVector postings vector) (hperm : postings.Perm postings') :
    RightVector postings' vector where
  entries := h.entries.trans hperm
  numTerms := h.numTerms.trans hperm.length_eq
  maximum := ⟨by
      obtain ⟨info, hmem, heq⟩ := h.maximum.1
      exact ⟨info, hperm.mem_iff.mp hmem, heq⟩,
    fun info hmem ↦ h.maximum.2 info (hperm.mem_iff.mpr hmem)⟩
  mean := by rw [h.mean, (hperm.map _).sum_eq, hperm.length_eq]

/-- The counters are those of the lines of one record. -/
structure Summed (capacity : ℕ) (own : List (VectorLine R)) (state : VectorState R) : Prop where
  holds : Lib.Buffer.Holds VecTermInfo.zero capacity state.cells (own.map VectorLine.info)
  count : state.countTerms = own.length
  sumtf : state.sumtf = (own.map fun line ↦ (line.termfreq : ℚ)).sum
  maximum : (∃ line ∈ own, line.termfreq = state.maxtf) ∧ ∀ line ∈ own, line.termfreq ≤ state.maxtf

variable {line : VectorLine R}

section Counters

variable {capacity : ℕ} {state : VectorState R} {own : List (VectorLine R)}

theorem storeTerm_spec {cells : List VecTermInfo} {out : List VecTermInfo}
    (h : Lib.Buffer.Holds VecTermInfo.zero capacity cells out) (hroom : out.length < capacity)
    (line : VectorLine R) :
    ∃ cells', storeTerm cells out.length line = .ok cells' ∧
      Lib.Buffer.Holds VecTermInfo.zero capacity cells' (out ++ [line.info]) := by
  obtain ⟨cells', hstore, hholds⟩ := h.store hroom ⟨line.termnum, line.termfreq⟩
  refine ⟨cells', ?_, hholds⟩
  rw [storeTerm, hstore]

theorem begin_spec [Semiring R]
    (hcells : Lib.Buffer.Holds VecTermInfo.zero capacity state.cells []) (hpos : 0 < capacity)
    (line : VectorLine R) :
    ∃ state', state.begin line = .ok state' ∧ Summed capacity [line] state' ∧
      state'.file = state.file ∧ state'.lastrecnum = line.recnum := by
  obtain ⟨cells, hterm, hholds⟩ := storeTerm_spec hcells hpos line
  refine ⟨_, bind_eq_ok.mpr ⟨cells, hterm, rfl⟩, ⟨hholds, rfl, ?_, ?_⟩, rfl, rfl⟩
  · simp
  · exact ⟨⟨line, List.mem_cons_self, rfl⟩, fun other hmem ↦ by rw [List.mem_singleton.mp hmem]⟩

theorem Summed.add [Semiring R] (weights : VectorWeights R) (h : Summed capacity own state)
    (hroom : own.length < capacity) (hsame : line.recnum = state.lastrecnum) :
    ∃ state', accumulate weights state line = .ok state' ∧ Summed capacity (own ++ [line]) state' ∧
      state'.file = state.file ∧ state'.lastrecnum = state.lastrecnum := by
  obtain ⟨cells, hterm, hholds⟩ := storeTerm_spec h.holds (by simpa using hroom) line
  rw [List.length_map, ← h.count] at hterm
  rw [accumulate, if_neg (not_not.mpr hsame)]
  refine ⟨_, bind_eq_ok.mpr ⟨cells, hterm, rfl⟩, ⟨?_, ?_, ?_, ?_, ?_⟩, rfl, rfl⟩
  · rw [List.map_append]
    exact hholds
  · rw [List.length_append, ← h.count]
    rfl
  · rw [List.map_append, List.sum_append, ← h.sumtf]
    simp
  · obtain ⟨⟨greatest, hmem, heq⟩, -⟩ := h.maximum
    by_cases hlt : state.maxtf < line.termfreq
    · exact ⟨line, List.mem_append_right _ List.mem_cons_self, (if_pos hlt).symm⟩
    · exact ⟨greatest, List.mem_append_left _ hmem, heq.trans (if_neg hlt).symm⟩
  · intro other hmem
    change other.termfreq ≤ if state.maxtf < line.termfreq then line.termfreq else state.maxtf
    rcases List.mem_append.mp hmem with hmem | hmem
    · have hle := h.maximum.2 other hmem
      split_ifs with hlt
      · exact hle.trans hlt.le
      · exact hle
    · rw [List.mem_singleton.mp hmem]
      split_ifs with hlt
      · exact le_rfl
      · exact not_lt.mp hlt

theorem clearCells_spec {cells : List VecTermInfo} {out : List VecTermInfo}
    (h : Lib.Buffer.Holds VecTermInfo.zero capacity cells out) (hroom : out.length < capacity) :
    ∃ cells', clearCells cells (out.length + 1) = .ok cells' ∧
      Lib.Buffer.Holds VecTermInfo.zero capacity cells' [] := by
  refine ⟨_, if_pos (by rwa [h.length_cells]), Nat.zero_le _, ?_⟩
  have hdrop : cells.drop (out.length + 1) =
      List.replicate (capacity - (out.length + 1)) VecTermInfo.zero := by
    rw [← List.drop_drop, h.drop, List.drop_replicate, Nat.sub_sub]
  rw [hdrop, List.replicate_append_replicate, List.nil_append, List.length_nil, Nat.sub_zero]
  congr 1
  omega

theorem Summed.put (weights : VectorWeights R) (h : Summed capacity own state)
    (hown : ∀ line ∈ own, line.termnum ≠ 0) :
    ∃ vector, RightVector (own.map VectorLine.info) vector ∧
      state.put weights = state.file.putVector state.lastrecnum vector := by
  have hlength : state.countTerms = (own.map VectorLine.info).length := by
    rw [h.count, List.length_map]
  have hentries : ((state.cells.take state.countTerms).filter fun info ↦ info.termid ≠ 0) =
      own.map VectorLine.info := by
    rw [hlength, h.holds.take, List.filter_eq_self]
    intro info hmem
    obtain ⟨line, hline, rfl⟩ := List.mem_map.mp hmem
    exact decide_eq_true (hown line hline)
  refine ⟨_, ⟨List.Perm.of_eq hentries, hlength, ⟨?_, ?_⟩, ?_⟩, rfl⟩
  · obtain ⟨line, hmem, heq⟩ := h.maximum.1
    exact ⟨line.info, List.mem_map_of_mem hmem, heq⟩
  · intro info hmem
    obtain ⟨line, hline, rfl⟩ := List.mem_map.mp hmem
    exact h.maximum.2 line hline
  · change state.sumtf / state.countTerms = _
    rw [h.sumtf, hlength, List.map_map]
    rfl

end Counters

/-- The vectors of the records of some lines have been put. -/
def Recorded (before : VectorFile R) (lines : List (VectorLine R)) (file : VectorFile R) : Prop :=
  file.terms = before.terms ∧ ∀ recnum,
    (ofRecord recnum lines = [] → file.vectors recnum = before.vectors recnum) ∧
    (ofRecord recnum lines ≠ [] → ∃ vector,
      RightVector ((ofRecord recnum lines).map VectorLine.info) vector ∧
      file.vectors recnum = (before.vectors recnum).or (some vector))

/-- After some lines, the last record is in hand and the ones before it have been put. -/
structure Accumulated (before : VectorFile R) (capacity : ℕ) (past : List (VectorLine R))
    (state : VectorState R) : Prop where
  nonempty : ofRecord state.lastrecnum past ≠ []
  last : ∀ line ∈ past, 1 ≤ line.recnum ∧ line.recnum ≤ state.lastrecnum
  summed : Summed capacity (ofRecord state.lastrecnum past) state
  recorded : Recorded before (past.filter fun line ↦ line.recnum ≠ state.lastrecnum) state.file

section Break

variable {weights : VectorWeights R} {before : VectorFile R} {capacity : ℕ} {past : List (VectorLine R)}
  {state : VectorState R}

theorem ofRecord_append (recnum : ℤ) (lines more : List (VectorLine R)) :
    ofRecord recnum (lines ++ more) = ofRecord recnum lines ++ ofRecord recnum more :=
  List.filter_append _ _

theorem ofRecord_singleton (h : line.recnum = recnum) :
    ofRecord recnum [line] = [line] := List.filter_cons_of_pos (decide_eq_true h)

theorem ofRecord_filter_self (recnum : ℤ) (lines : List (VectorLine R)) :
    ofRecord recnum (lines.filter fun line ↦ line.recnum ≠ recnum) = [] := by
  rw [ofRecord, List.filter_eq_nil_iff]
  intro line hmem
  have hne := (List.mem_filter.mp hmem).2
  simpa using hne

theorem ofRecord_filter_ne {other : ℤ} (hne : other ≠ recnum) (lines : List (VectorLine R)) :
    ofRecord other (lines.filter fun line ↦ line.recnum ≠ recnum) = ofRecord other lines := by
  rw [ofRecord, List.filter_filter, ofRecord]
  refine List.filter_congr fun line _ ↦ ?_
  by_cases heq : line.recnum = other
  · simp [heq, hne]
  · simp [heq]

theorem Accumulated.put (h : Accumulated before capacity past state)
    (hterms : ∀ line ∈ past, line.termnum ≠ 0) : Recorded before past (state.put weights) := by
  obtain ⟨vector, hright, hput⟩ := h.summed.put weights fun line hmem ↦
    hterms line (List.mem_of_mem_filter hmem)
  obtain ⟨hsame, hvectors⟩ := h.recorded
  rw [hput]
  refine ⟨hsame, fun recnum ↦ ?_⟩
  by_cases hlast : recnum = state.lastrecnum
  · subst hlast
    refine ⟨fun hnil ↦ absurd hnil h.nonempty, fun _ ↦ ⟨vector, hright, ?_⟩⟩
    have hold := (hvectors state.lastrecnum).1 (ofRecord_filter_self _ past)
    change (if state.lastrecnum = state.lastrecnum then _ else _) = _
    rw [if_pos rfl, hold]
  · have hother : (state.file.putVector state.lastrecnum vector).vectors recnum =
        state.file.vectors recnum := if_neg hlast
    have hrecord := hvectors recnum
    rw [ofRecord_filter_ne hlast] at hrecord
    rw [hother]
    exact hrecord

theorem accumulated_first [Semiring R]
    (hcells : Lib.Buffer.Holds VecTermInfo.zero capacity state.cells []) (hcapacity : 0 < capacity)
    (hzero : state.lastrecnum = 0) (hfile : state.file = before) {line : VectorLine R}
    (hpos : 1 ≤ line.recnum) :
    ∃ state', accumulate weights state line = .ok state' ∧ state'.lastrecnum = line.recnum ∧
      Accumulated before capacity [line] state' := by
  obtain ⟨state', hbegin, hsummed, hfile', hlast⟩ := begin_spec hcells hcapacity line
  have hone := ofRecord_singleton hlast.symm
  refine ⟨state', ?_, hlast, ?_, ?_, ?_, ?_⟩
  · rw [accumulate, if_pos (by omega), if_pos hzero]
    exact hbegin
  · rw [hone]
    exact List.cons_ne_nil line []
  · intro other hmem
    rw [List.mem_singleton.mp hmem, hlast]
    exact ⟨hpos, le_rfl⟩
  · rwa [hone]
  · rw [hfile', hfile, List.filter_cons_of_neg (by simpa using hlast.symm)]
    exact ⟨rfl, fun recnum ↦ ⟨fun _ ↦ rfl, fun h ↦ absurd rfl h⟩⟩

theorem Accumulated.same [Semiring R] (weights : VectorWeights R)
    (h : Accumulated before capacity past state) (hsame : line.recnum = state.lastrecnum)
    (hroom : (ofRecord state.lastrecnum past).length < capacity) :
    ∃ state', accumulate weights state line = .ok state' ∧ state'.lastrecnum = state.lastrecnum ∧
      Accumulated before capacity (past ++ [line]) state' := by
  obtain ⟨state', hrun, hsummed, hfile, hlast⟩ := h.summed.add weights hroom hsame
  have hown : ofRecord state'.lastrecnum (past ++ [line]) =
      ofRecord state.lastrecnum past ++ [line] := by
    rw [hlast, ofRecord_append, ofRecord_singleton hsame]
  refine ⟨state', hrun, hlast, ?_, ?_, ?_, ?_⟩
  · rw [hown]
    exact List.append_ne_nil_of_right_ne_nil _ (List.cons_ne_nil line [])
  · intro other hmem
    rw [hlast]
    rcases List.mem_append.mp hmem with hmem | hmem
    · exact h.last other hmem
    · rw [List.mem_singleton.mp hmem, hsame]
      obtain ⟨first, hfirst⟩ := List.exists_mem_of_ne_nil _ h.nonempty
      obtain ⟨hpast, heq⟩ := List.mem_filter.mp hfirst
      exact ⟨of_decide_eq_true heq ▸ (h.last first hpast).1, le_rfl⟩
  · rwa [hown]
  · rw [hfile, hlast, List.filter_append, List.filter_cons_of_neg (by simpa using hsame),
      List.filter_nil, List.append_nil]
    exact h.recorded

theorem Accumulated.next [Semiring R] (h : Accumulated before capacity past state)
    (hlater : state.lastrecnum < line.recnum)
    (hroom : (ofRecord state.lastrecnum past).length < capacity)
    (hterms : ∀ line ∈ past, line.termnum ≠ 0) :
    ∃ state', accumulate weights state line = .ok state' ∧ state'.lastrecnum = line.recnum ∧
      Accumulated before capacity (past ++ [line]) state' := by
  have hpositive : 1 ≤ state.lastrecnum := by
    obtain ⟨first, hfirst⟩ := List.exists_mem_of_ne_nil _ h.nonempty
    obtain ⟨hpast, heq⟩ := List.mem_filter.mp hfirst
    exact of_decide_eq_true heq ▸ (h.last first hpast).1
  obtain ⟨cells, hclear, hcells⟩ := clearCells_spec h.summed.holds (by simpa using hroom)
  rw [List.length_map, ← h.summed.count] at hclear
  obtain ⟨state', hbegin, hsummed, hfile, hlast⟩ := @begin_spec R capacity
    { state with file := state.put weights, cells := cells } _ hcells (by omega) line
  have hnone : ofRecord line.recnum past = [] := by
    refine List.filter_eq_nil_iff.mpr fun other hmem heq ↦ ?_
    have hle := (h.last other hmem).2
    have hsame := of_decide_eq_true heq
    omega
  have hown : ofRecord state'.lastrecnum (past ++ [line]) = [line] := by
    rw [hlast, ofRecord_append, hnone, ofRecord_singleton rfl, List.nil_append]
  have hothers : (past ++ [line]).filter (fun other ↦ other.recnum ≠ state'.lastrecnum) = past := by
    rw [hlast, List.filter_append, List.filter_cons_of_neg (by simp), List.filter_nil, List.append_nil,
      List.filter_eq_self]
    intro other hmem
    have hle := (h.last other hmem).2
    exact decide_eq_true (show other.recnum ≠ line.recnum by omega)
  refine ⟨state', ?_, hlast, ?_, ?_, ?_, ?_⟩
  · rw [accumulate, if_pos (by omega), if_neg (by omega)]
    exact bind_eq_ok.mpr ⟨cells, hclear, hbegin⟩
  · rw [hown]
    exact List.cons_ne_nil line []
  · intro other hmem
    rw [hlast]
    rcases List.mem_append.mp hmem with hmem | hmem
    · exact ⟨(h.last other hmem).1, (h.last other hmem).2.trans hlater.le⟩
    · rw [List.mem_singleton.mp hmem]
      exact ⟨by omega, le_rfl⟩
  · rwa [hown]
  · rw [hothers, hfile]
    exact h.put hterms

theorem Accumulated.all [Semiring R] {rest : List (VectorLine R)}
    (h : Accumulated before capacity past state)
    (hsorted : rest.Pairwise fun first second ↦ first.recnum ≤ second.recnum)
    (hlater : ∀ line ∈ rest, state.lastrecnum ≤ line.recnum)
    (hroom : ∀ recnum, (ofRecord recnum (past ++ rest)).length < capacity)
    (hterms : ∀ line ∈ past ++ rest, line.termnum ≠ 0) :
    ∃ state', accumulateAll weights state rest = .ok state' ∧
      Accumulated before capacity (past ++ rest) state' := by
  induction rest generalizing past state with
  | nil => exact ⟨state, rfl, by rwa [List.append_nil]⟩
  | cons line rest ih =>
    obtain ⟨hfirst, hrest⟩ := List.pairwise_cons.mp hsorted
    have happend : past ++ line :: rest = past ++ [line] ++ rest := List.append_cons past line rest
    have hfits : (ofRecord state.lastrecnum past).length < capacity := by
      have hall := hroom state.lastrecnum
      rw [ofRecord_append, List.length_append] at hall
      omega
    have hstep : ∃ state', accumulate weights state line = .ok state' ∧
        state'.lastrecnum = line.recnum ∧ Accumulated before capacity (past ++ [line]) state' := by
      rcases (hlater line List.mem_cons_self).eq_or_lt with hsame | hlt
      · obtain ⟨state', hrun, hlast, hstate'⟩ := h.same weights hsame.symm hfits
        exact ⟨state', hrun, hlast.trans hsame, hstate'⟩
      · exact h.next hlt hfits fun other hmem ↦ hterms other (List.mem_append_left _ hmem)
    obtain ⟨state', hrun, hlast, hstate'⟩ := hstep
    obtain ⟨final, hfinal, haccumulated⟩ := ih hstate' hrest
      (fun other hmem ↦ hlast ▸ hfirst other hmem) (happend ▸ hroom) (happend ▸ hterms)
    rw [happend]
    exact ⟨final, bind_eq_ok.mpr ⟨state', hrun, hfinal⟩, haccumulated⟩

end Break

theorem accumulateAll_sorted [Semiring R] (weights : VectorWeights R) (before : VectorFile R)
    {capacity : ℕ} {lines : List (VectorLine R)} (hne : lines ≠ [])
    (hsorted : lines.Pairwise fun first second ↦ first.recnum ≤ second.recnum)
    (hpos : ∀ line ∈ lines, 1 ≤ line.recnum) (hterms : ∀ line ∈ lines, line.termnum ≠ 0)
    (hroom : ∀ recnum, (ofRecord recnum lines).length < capacity) :
    ∃ state, accumulateAll weights ⟨before, 0, calloc VecTermInfo.zero capacity, 0, 0, 0, 0⟩ lines =
        .ok state ∧ Recorded before lines (state.put weights) := by
  cases lines with
  | nil => exact absurd rfl hne
  | cons line rest =>
    obtain ⟨hfirst, hrest⟩ := List.pairwise_cons.mp hsorted
    have hcapacity : 0 < capacity := (Nat.zero_le _).trans_lt (hroom 0)
    obtain ⟨state, hrun, hlast, hstate⟩ := @accumulated_first R weights before capacity
      ⟨before, 0, calloc VecTermInfo.zero capacity, 0, 0, 0, 0⟩ _ (Lib.Buffer.holds_calloc _ _)
      hcapacity rfl rfl line (hpos line List.mem_cons_self)
    have hlater : ∀ other ∈ rest, state.lastrecnum ≤ other.recnum := by
      rw [hlast]
      exact hfirst
    have hwhole : ∃ final, accumulateAll weights state rest = .ok final ∧
        Accumulated before capacity (line :: rest) final := hstate.all hrest hlater hroom hterms
    obtain ⟨final, hfinal, hall⟩ := hwhole
    exact ⟨final, bind_eq_ok.mpr ⟨state, hrun, hfinal⟩, hall.put hterms⟩

def VectorSource.lines (weights : VectorWeights R) (numrecs : ℤ) (source : VectorSource) :
    List (VectorLine R) :=
  source.blocks.flatMap fun pair ↦ linesOf weights numrecs pair.2 pair.2.postings

section Build

variable {sort : List (VectorLine R) → List (VectorLine R)} (weights : VectorWeights R) (numrecs : ℤ)

theorem ofRecord_sort (hsort : SortsByRecord sort) (source : VectorSource) (recnum : ℤ) :
    ((ofRecord recnum (sort (source.lines weights numrecs))).map VectorLine.info).Perm
      (source.postingsOf recnum) := by
  have hperm := ((hsort.perm (source.lines weights numrecs)).filter fun line ↦ line.recnum = recnum).map
    VectorLine.info
  rw [VectorSource.postingsOf, ← @ofRecord_lines R weights numrecs]
  exact hperm

theorem ofRecord_sort_ne_nil (hsort : SortsByRecord sort) (source : VectorSource) (recnum : ℤ) :
    ofRecord recnum (sort (source.lines weights numrecs)) ≠ [] ↔ source.postingsOf recnum ≠ [] := by
  have hperm := ofRecord_sort weights numrecs hsort source recnum
  rw [not_iff_not, ← @List.map_eq_nil_iff _ _ VectorLine.info]
  exact ⟨fun h ↦ List.nil_perm.mp (h ▸ hperm), fun h ↦ List.perm_nil.mp (h ▸ hperm)⟩

theorem info_mem_postingsOf (hsort : SortsByRecord sort) (source : VectorSource)
    (hmem : line ∈ sort (source.lines weights numrecs)) :
    line.info ∈ source.postingsOf line.recnum := by
  refine (ofRecord_sort weights numrecs hsort source line.recnum).mem_iff.mp (List.mem_map_of_mem ?_)
  exact List.mem_filter.mpr ⟨hmem, decide_eq_true rfl⟩

theorem PostingIndex.not_transposes_put [Semiring R] (file : VectorFile R)
    (cells : List VecTermInfo) :
    ¬Transposes index.toVectorSource (VectorState.put weights ⟨file, 0, cells, 0, 0, 0, 0⟩) := by
  intro h
  have hnone : (VectorState.put weights ⟨file, 0, cells, 0, 0, 0, 0⟩).vectors 0 = none := by
    refine Option.eq_none_iff_forall_not_mem.mpr fun vector hvector ↦ ?_
    exact (h.vectors 0 vector hvector).1 (index.postingsOf_eq_nil (by decide))
  simp [VectorState.put, VectorFile.putVector] at hnone

theorem find_termid {blocks : List (Term × IdxResult)}
    (hnodup : (blocks.map fun pair ↦ pair.2.termid).Nodup) {pair : Term × IdxResult}
    (hmem : pair ∈ blocks) :
    (blocks.find? fun other ↦ other.2.termid = pair.2.termid) = some pair := by
  have hfound : (blocks.find? fun other ↦ other.2.termid = pair.2.termid).isSome :=
    List.find?_isSome.mpr ⟨pair, hmem, decide_eq_true rfl⟩
  obtain ⟨other, hother⟩ := Option.isSome_iff_exists.mp hfound
  have hsame : other.2.termid = pair.2.termid := by
    have hdecide := List.find?_some hother
    exact of_decide_eq_true hdecide
  rw [hother, List.inj_on_of_nodup_map hnodup (List.mem_of_find?_eq_some hother) hmem hsame]

theorem PostingIndex.buildVectors_eq [Semiring R] (hsort : SortsByRecord sort)
    (hplain : index.idxType &&& BITMAPPED_TYPE = 0) (hsome : ∃ recnum, index.postingsOf recnum ≠ [])
    (file : VectorFile R) :
    ∃ file', buildVectors weights sort numrecs index.toVectorSource file = .ok file' ∧
      (∀ recnum, (index.postingsOf recnum = [] → file'.vectors recnum = file.vectors recnum) ∧
        (index.postingsOf recnum ≠ [] → ∃ vector, RightVector (index.postingsOf recnum) vector ∧
          file'.vectors recnum = (file.vectors recnum).or (some vector))) ∧
      ∀ pair ∈ index.blocks, file'.terms pair.2.termid =
        (file.terms pair.2.termid).or (some ⟨pair.2.numEntries, pair.1⟩) := by
  obtain ⟨before, hextract, hvectors, hterms⟩ := @extract_spec R weights numrecs _ hplain _
    index.head (fun pair hmem ↦ (index.numEntries pair hmem).2) file
  have hrecnum : ∀ line ∈ sort (index.lines weights numrecs), 1 ≤ line.recnum := by
    intro line hmem
    by_contra hlow
    have hposting := info_mem_postingsOf weights numrecs hsort index.toVectorSource hmem
    rw [index.postingsOf_eq_nil (by omega)] at hposting
    exact List.not_mem_nil hposting
  have htermnum : ∀ line ∈ sort (index.lines weights numrecs), line.termnum ≠ 0 := fun line hmem ↦
    index.termid_pos (info_mem_postingsOf weights numrecs hsort index.toVectorSource hmem)
  have hroom : ∀ recnum,
      (ofRecord recnum (sort (index.lines weights numrecs))).length < index.recptr + 1 := by
    intro recnum
    have hlength := (ofRecord_sort weights numrecs hsort index.toVectorSource recnum).length_eq
    have hle := index.length_postingsOf_le recnum
    rw [List.length_map] at hlength
    omega
  have hne : sort (index.lines weights numrecs) ≠ [] := by
    obtain ⟨recnum, hposting⟩ := hsome
    intro hnil
    refine (ofRecord_sort_ne_nil weights numrecs hsort index.toVectorSource recnum).mpr hposting ?_
    rw [hnil]
    rfl
  obtain ⟨state, hrun, hrecorded⟩ := accumulateAll_sorted weights before hne (hsort.sorted _)
    hrecnum htermnum hroom
  refine ⟨state.put weights, bind_eq_ok.mpr ⟨_, hextract, bind_eq_ok.mpr ⟨state, hrun, rfl⟩⟩, ?_, ?_⟩
  · intro recnum
    have hiff := ofRecord_sort_ne_nil weights numrecs hsort index.toVectorSource recnum
    obtain ⟨hsame, hput⟩ := hrecorded.2 recnum
    rw [hvectors] at hsame hput
    refine ⟨fun hnil ↦ hsame (not_not.mp (hiff.not.mpr (not_not.mpr hnil))), fun hposting ↦ ?_⟩
    obtain ⟨vector, hright, hvector⟩ := hput (hiff.mpr hposting)
    have hperm := ofRecord_sort weights numrecs hsort index.toVectorSource recnum
    exact ⟨vector, hright.perm hperm, hvector⟩
  · intro pair hmem
    have hfind : ((blocksOf index.pairs).find? fun other ↦ other.2.termid = pair.2.termid) =
        some pair := find_termid index.termids hmem
    rw [hrecorded.1, hterms, hfind]
    rfl

theorem PostingIndex.buildVectors_eq_put [Semiring R] (hsort : SortsByRecord sort)
    (hnone : index.idxType &&& BITMAPPED_TYPE ≠ 0 ∨ ∀ recnum, index.postingsOf recnum = [])
    (file : VectorFile R) :
    ∃ before, buildVectors weights sort numrecs index.toVectorSource file = .ok
      (VectorState.put weights ⟨before, 0, calloc VecTermInfo.zero (index.recptr + 1), 0, 0, 0, 0⟩) := by
  have hsortnil : sort [] = [] := List.perm_nil.mp (hsort.perm [])
  have hextract : ∃ before,
      extract weights numrecs index.idxType index.pairs file = .ok ([], before) := by
    by_cases hplain : index.idxType &&& BITMAPPED_TYPE = 0
    · obtain ⟨before, hrun, -, -⟩ := @extract_spec R weights numrecs _ hplain _ index.head
        (fun pair hmem ↦ (index.numEntries pair hmem).2) file
      refine ⟨before, hrun.trans ?_⟩
      have hempty := hnone.resolve_left (not_not.mpr hplain)
      have hlines : index.lines weights numrecs = [] := by
        refine List.eq_nil_iff_forall_not_mem.mpr fun line hmem ↦ ?_
        have hposting := info_mem_postingsOf weights numrecs hsort index.toVectorSource
          ((hsort.perm _).mem_iff.mpr hmem)
        rw [hempty] at hposting
        exact List.not_mem_nil hposting
      exact congrArg (fun lines ↦ Except.ok (lines, before)) hlines
    · exact ⟨file, extract_bitmapped hplain index.pairs file⟩
  obtain ⟨before, hextract⟩ := hextract
  refine ⟨before, bind_eq_ok.mpr ⟨_, hextract, ?_⟩⟩
  rw [hsortnil]
  rfl

end Build

/-- The condition: the index is not bitmapped and has a posting, and what the file has of an earlier
run is right for it. -/
structure BuildFits (source : VectorSource) (file : VectorFile R) : Prop where
  plain : source.idxType &&& BITMAPPED_TYPE = 0
  posting : ∃ recnum, source.postingsOf recnum ≠ []
  vectors : ∀ recnum vector, file.vectors recnum = some vector →
    source.postingsOf recnum ≠ [] ∧ RightVector (source.postingsOf recnum) vector
  terms : ∀ pair ∈ source.blocks, ∀ overlay, file.terms pair.2.termid = some overlay →
    overlay = ⟨pair.2.numEntries, pair.1⟩

/-- The run writes the transpose exactly when the condition holds. -/
theorem buildVectors_iff [Semiring R] {sort : List (VectorLine R) → List (VectorLine R)}
    (hsort : SortsByRecord sort) (weights : VectorWeights R) (numrecs : ℤ) (index : PostingIndex)
    (file : VectorFile R) :
    (∃ file', buildVectors weights sort numrecs index.toVectorSource file = .ok file' ∧
      Transposes index.toVectorSource file') ↔ BuildFits index.toVectorSource file := by
  by_cases hpostings : index.idxType &&& BITMAPPED_TYPE = 0 ∧ ∃ recnum, index.postingsOf recnum ≠ []
  · obtain ⟨hplain, hsome⟩ := hpostings
    obtain ⟨file', hrun, hvectors, hterms⟩ :=
      index.buildVectors_eq weights numrecs hsort hplain hsome file
    have hbuilt : (∃ other, buildVectors weights sort numrecs index.toVectorSource file = .ok other ∧
        Transposes index.toVectorSource other) ↔ Transposes index.toVectorSource file' := by
      constructor
      · rintro ⟨other, hother, htransposes⟩
        rw [hrun, Except.ok.injEq] at hother
        rwa [hother]
      · exact fun htransposes ↦ ⟨file', hrun, htransposes⟩
    rw [hbuilt]
    constructor
    · intro h
      refine ⟨hplain, hsome, fun recnum vector hold ↦ ?_, fun pair hmem overlay hold ↦ ?_⟩
      · have hkept : file'.vectors recnum = some vector := by
          by_cases hnil : index.postingsOf recnum = []
          · rw [(hvectors recnum).1 hnil, hold]
          · obtain ⟨new, -, hnew⟩ := (hvectors recnum).2 hnil
            rw [hnew, hold, Option.some_or]
        exact h.vectors recnum vector hkept
      · have hkept := hterms pair hmem
        rw [hold, Option.some_or, h.terms pair hmem] at hkept
        exact (Option.some.inj hkept).symm
    · intro h
      refine ⟨fun recnum vector hnow ↦ ?_, fun recnum hposting ↦ ?_, fun pair hmem ↦ ?_⟩
      · by_cases hnil : index.postingsOf recnum = []
        · rw [(hvectors recnum).1 hnil] at hnow
          exact h.vectors recnum vector hnow
        · obtain ⟨new, hright, hnew⟩ := (hvectors recnum).2 hnil
          cases hold : file.vectors recnum with
          | none =>
            rw [hnew, hold, Option.none_or, Option.some.injEq] at hnow
            exact ⟨hnil, hnow ▸ hright⟩
          | some old =>
            rw [hnew, hold, Option.some_or] at hnow
            exact h.vectors recnum vector (hold.trans hnow)
      · obtain ⟨new, -, hnew⟩ := (hvectors recnum).2 hposting
        cases hold : file.vectors recnum with
        | none => exact ⟨new, by rw [hnew, hold, Option.none_or]⟩
        | some old => exact ⟨old, by rw [hnew, hold, Option.some_or]⟩
      · cases hold : file.terms pair.2.termid with
        | none => rw [hterms pair hmem, hold, Option.none_or]
        | some old => rw [hterms pair hmem, hold, Option.some_or, h.terms pair hmem old hold]
  · constructor
    · rintro ⟨file', hrun, htransposes⟩
      have hnone : index.idxType &&& BITMAPPED_TYPE ≠ 0 ∨ ∀ recnum, index.postingsOf recnum = [] := by
        rw [not_and_or, not_exists] at hpostings
        exact hpostings.imp_right fun h recnum ↦ not_not.mp (h recnum)
      obtain ⟨before, hput⟩ := index.buildVectors_eq_put weights numrecs hsort hnone file
      rw [hrun, Except.ok.injEq] at hput
      exact absurd (hput ▸ htransposes) (index.not_transposes_put weights before _)
    · exact fun h ↦ absurd ⟨h.plain, h.posting⟩ hpostings

/-- The weight of `%f` without rounding. -/
noncomputable def realWeights : VectorWeights ℝ :=
  ⟨fun numrecs numEntries termFreq ↦ termFreq * Real.log (numrecs / numEntries), Real.sqrt⟩

def sortByRecord (lines : List (VectorLine ℝ)) : List (VectorLine ℝ) :=
  lines.mergeSort fun first second ↦ first.recnum ≤ second.recnum

theorem sortsByRecord_sortByRecord : SortsByRecord sortByRecord where
  perm lines := List.mergeSort_perm lines _
  sorted lines := by
    have hsorted := @List.pairwise_mergeSort (VectorLine ℝ)
      (fun first second ↦ decide (first.recnum ≤ second.recnum))
      (fun _ _ _ hfirst hsecond ↦
        decide_eq_true ((of_decide_eq_true hfirst).trans (of_decide_eq_true hsecond)))
      (fun first second ↦ by simpa using le_total first.recnum second.recnum) lines
    exact hsorted.imp fun h ↦ of_decide_eq_true h

/-- Two terms in three records. -/
def twoTermIndex : PostingIndex where
  idxType := 0
  recptr := 3
  pairs := [([97], .postings ⟨2, 2, 3, [⟨1, 2⟩, ⟨3, 1⟩]⟩),
    ([98], .postings ⟨1, 2, 5, [⟨2, 1⟩, ⟨3, 4⟩]⟩)]
  head := by decide
  numEntries := by decide
  termid := by decide
  termids := by decide
  records := by decide

def withoutPosting : PostingIndex where
  idxType := 0
  recptr := 1
  pairs := []
  head := by decide
  numEntries := by decide
  termid := by decide
  termids := by decide
  records := by decide

theorem buildVectors_iff_twoTerms :
    ∃ file', buildVectors realWeights sortByRecord 3 twoTermIndex.toVectorSource VectorFile.empty =
      .ok file' ∧
      Transposes twoTermIndex.toVectorSource file' :=
  (buildVectors_iff sortsByRecord_sortByRecord realWeights 3 twoTermIndex VectorFile.empty).mpr
    { plain := rfl
      posting := ⟨1, by decide⟩
      vectors := fun _ _ h ↦ absurd h (Option.some_ne_none _).symm
      terms := fun _ _ _ h ↦ absurd h (Option.some_ne_none _).symm }

/-- An index without postings gets a vector, that of record 0. -/
theorem not_transposes_withoutPosting :
    ¬∃ file', buildVectors realWeights sortByRecord 1 withoutPosting.toVectorSource VectorFile.empty =
      .ok file' ∧
      Transposes withoutPosting.toVectorSource file' := by
  rintro ⟨file', hrun, htransposes⟩
  obtain ⟨before, hput⟩ := withoutPosting.buildVectors_eq_put realWeights 1 sortsByRecord_sortByRecord
    (Or.inr fun _ ↦ rfl) VectorFile.empty
  rw [hrun, Except.ok.injEq] at hput
  exact withoutPosting.not_transposes_put realWeights before _ (hput ▸ htransposes)

end Cheshire.Index
