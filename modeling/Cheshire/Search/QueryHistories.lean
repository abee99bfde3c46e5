import Cheshire.Index.BatchAgreement
import Cheshire.Search.WordIntersection

/-!
# Queries over an index that changes

Records are added to a keyword index one by one or in a batch, and taken out of it; a query connects
searches for words by AND, OR and AND-NOT.  What a query says of one record is a formula over the terms of
the record.  As long as the index is exact, the posting lists, the hash table of a search and the merges
give the live records for which the formula holds.
-/

namespace Cheshire.Search

open Lib Lib.OperatorTree Index

structure TermSearch where
  text : List Char
  relation : ℤ
  structureAttr : ℤ

def RpnOperator.isBoolean : RpnOperator → Prop
  | .and | .or | .andNot => True
  | .prox _ => False

/-- What an operator makes of two statements. -/
def RpnOperator.holds : RpnOperator → Prop → Prop → Prop
  | .and, left, right => left ∧ right
  | .or, left, right => left ∨ right
  | .andNot, left, right => left ∧ ¬right
  | .prox _, _, _ => False

def termChars (term : Term) : List Char := term.map fun octet ↦ Char.ofNat octet.toNat

section Formulas

variable (range : RangeIndex)

/-- `normalize_key` leaves nothing of a stop word. -/
def Stopped (word : List Char) : Prop := normalizeKey range.routines range.idxType word = .ok none

def TermSearch.words (oper : TermSearch) : List (List Char) :=
  (breakletters range.idxType).elim [] fun letters ↦ tokens letters oper.text

/-- The search goes word by word, without phrases; the words are not all stop words, and none is
normalised to a key like that of the global data. -/
structure TermSearch.Searchable (oper : TermSearch) : Prop where
  equal : oper.relation = 0 ∨ oper.relation = 3
  list : isWordList range.idxType oper.structureAttr = true
  marks : ∀ word ∈ oper.words range, '$' ∉ word
  normal : ∀ word ∈ oper.words range, ∃ key, normalizeKey range.routines range.idxType word = .ok key ∧
    ∀ text ∈ key, text.head? ≠ some '>'
  going : ∃ word ∈ oper.words range, ¬Stopped range word

/-- A record with these terms has a word. -/
def HasWord (hash : TermHash) (word : List Char) : Prop :=
  ∃ term, normalizeKey range.routines range.idxType word = .ok (some (termChars term)) ∧
    (hash.find? term).isSome

/-- The formula of a query over the terms of a record. -/
def Satisfies (hash : TermHash) : RpnStructure TermSearch → Prop
  | .leaf oper => ∀ word ∈ oper.words range, ¬Stopped range word → HasWord range hash word
  | .node operator left right => operator.holds (Satisfies hash left) (Satisfies hash right)

def WellPosed : RpnStructure TermSearch → Prop
  | .leaf oper => oper.Searchable range
  | .node operator left right => operator.isBoolean ∧ WellPosed left ∧ WellPosed right

end Formulas

/-- The file has the block of every term under its characters, and nothing else but keys that are passed
over. -/
structure FileOf (idx : IdxListEntry) (pairs : List (List Char × IndexDatum)) : Prop where
  kept : ∀ term block, idx.terms term = some block → (termChars term, .postings block) ∈ pairs
  only : ∀ pair ∈ pairs, pair.1.head? ≠ some '>' →
    ∃ term block, pair = (termChars term, .postings block) ∧ idx.terms term = some block

/-- An index of documents, as a search reads it. -/
structure Opened (idx : IdxListEntry) (range : RangeIndex) : Prop where
  idxType_eq : range.idxType = idx.idxType
  documents : hasFlag range.idxType COMPONENT_INDEX = false
  file : ∃ pairs, range.db = some pairs ∧ FileOf idx pairs

theorem termChars_injective : Function.Injective termChars := by
  have hall : ∀ i : Fin 256, (Char.ofNat i).toNat = i := by decide +kernel
  apply List.map_injective_iff.mpr
  intro octet other heq
  have hnat := congrArg Char.toNat heq
  rw [hall ⟨octet.toNat, octet.toNat_lt⟩, hall ⟨other.toNat, other.toNat_lt⟩] at hnat
  exact UInt8.toNat_inj.mp hnat

theorem FileOf.lookup {idx : IdxListEntry} {pairs : List (List Char × IndexDatum)} (h : FileOf idx pairs)
    {key : List Char} (hkey : key.head? ≠ some '>') (datum : IndexDatum) :
    pairs.lookup key = some datum ↔
      ∃ term block, key = termChars term ∧ datum = .postings block ∧ idx.terms term = some block := by
  have hstored {found : IndexDatum} (hfound : pairs.lookup key = some found) :
      ∃ term block, key = termChars term ∧ found = .postings block ∧ idx.terms term = some block := by
    obtain ⟨before, after, rfl, -⟩ := List.lookup_eq_some_iff.mp hfound
    obtain ⟨term, block, hpair, hblock⟩ :=
      h.only (key, found) (List.mem_append_right _ List.mem_cons_self) hkey
    exact ⟨term, block, congrArg Prod.fst hpair, congrArg Prod.snd hpair, hblock⟩
  constructor
  · exact hstored
  · rintro ⟨term, block, rfl, rfl, hblock⟩
    cases hlookup : pairs.lookup (termChars term) with
    | none =>
      have hnone := List.lookup_eq_none_iff.mp hlookup _ (h.kept term block hblock)
      simp at hnone
    | some found =>
      obtain ⟨other, block', htext, rfl, hblock'⟩ := hstored hlookup
      rw [← termChars_injective htext, hblock] at hblock'
      rw [Option.some.inj hblock']

section Postings

variable {live : Live} {term : Term} {block : IdxResult}

theorem sublist_livePostings (live : Live) (term : Term) :
    ((livePostings live term).map IdxPostingEntry.recordNo).Sublist
      (live.map fun entry ↦ (entry.1.1 : ℤ)) := by
  induction live with
  | nil => exact List.Sublist.refl _
  | cons entry live ih =>
    rw [livePostings, List.filterMap_cons, List.map_cons]
    cases entry.2.find? term with
    | none => exact ih.cons _
    | some htData => exact ih.cons_cons _

/-- A live record whose terms are as `P` says has this number. -/
def LiveWith (live : Live) (record : ℤ) (P : TermHash → Prop) : Prop :=
  ∃ entry ∈ live, (entry.1.1 : ℤ) = record ∧ P entry.2

theorem hasRecord_iff (h : StoresExactly (livePostings live term) (some block)) (record : ℤ) :
    HasRecord block record ↔ LiveWith live record fun hash ↦ (hash.find? term).isSome := by
  rw [HasRecord, liveRecords, h.2.2.1, List.mem_filter, List.mem_map]
  constructor
  · rintro ⟨⟨posting, hposting, rfl⟩, -⟩
    obtain ⟨entry, hentry, htData, hfind, rfl⟩ := mem_livePostings.mp hposting
    exact ⟨entry, hentry, rfl, Option.isSome_of_eq_some hfind⟩
  · rintro ⟨entry, hentry, rfl, hsome⟩
    obtain ⟨htData, hfind⟩ := Option.isSome_iff_exists.mp hsome
    have hpos := entry.1.2.1
    exact ⟨⟨_, mem_livePostings.mpr ⟨entry, hentry, htData, hfind, rfl⟩, rfl⟩,
      decide_eq_true (by exact_mod_cast hpos)⟩

def LiveOnce (live : Live) : Prop := (live.map Prod.fst).Nodup

theorem LiveOnce.oncePosted (hlive : LiveOnce live)
    (h : StoresExactly (livePostings live term) (some block)) : OncePosted block := by
  have hrecords : (live.map fun entry ↦ (entry.1.1 : ℤ)).Nodup := by
    have hinjective : Function.Injective fun recnum : RecordNumber ↦ (recnum.1 : ℤ) :=
      fun recnum other heq ↦ Subtype.ext (Int.ofNat.inj heq)
    have hmapped := List.Nodup.map hinjective hlive
    rwa [List.map_map] at hmapped
  refine ⟨h.sound, ?_⟩
  rw [liveRecords, h.2.2.1]
  exact (hrecords.sublist (sublist_livePostings live term)).filter _

theorem LiveOnce.liveWith_iff (hlive : LiveOnce live) {entry : RecordNumber × TermHash}
    (hentry : entry ∈ live) (P : TermHash → Prop) : LiveWith live entry.1.1 P ↔ P entry.2 := by
  constructor
  · rintro ⟨other, hother, hnum, hP⟩
    have hfst : other.1 = entry.1 := Subtype.ext (by exact_mod_cast hnum)
    rwa [← List.inj_on_of_nodup_map hlive hother hentry hfst]
  · intro hP
    exact ⟨entry, hentry, rfl, hP⟩

end Postings

/-- A plain set that does not ask for fuzzy merging, as it is built: without a name, and with an entry
to spare. -/
structure WeightedResult.Crisp (set : WeightedResult) : Prop extends Plain set where
  not_fuzzy : set.has FUZZY_REQUEST = false
  spare : set.numHits.toNat + 1 ≤ set.entries.length
  unnamed : set.setid = ""

theorem MergedExactly.crisp {set : WeightedResult} {total : ℕ} {records : List ℤ}
    (h : MergedExactly set total records) (hincreasing : records.Pairwise (· < ·))
    (hheader : set.resultType = 0 ∧ set.setid = "") : set.Crisp := by
  obtain ⟨htype, hunnamed⟩ := hheader
  have hspare : set.numHits.toNat + 1 ≤ set.entries.length := by
    have hdrop := congrArg List.length h.untouched
    have hwithin := h.within
    rw [List.length_drop, List.length_replicate] at hdrop
    rw [h.numHits_eq, Int.toNat_natCast]
    omega
  refine ⟨⟨⟨?_, Nat.le_of_succ_le hspare⟩, ?_, ?_⟩, ?_, hspare, hunnamed⟩
  · rw [h.numHits_eq]
    exact Int.natCast_nonneg _
  · rwa [h.recordNums_eq]
  · rw [htype, Nat.zero_and]
  · rw [WeightedResult.has, htype, Nat.zero_and, bne_self_eq_false]

section Merges

variable {callees : RpnCallees} {set1 set2 merged : WeightedResult}

theorem header_merges (h1 : set1.Crisp) (h2 : set2.Crisp)
    (h : seAndmerge callees.merges (some set1) (some set2) = .ok (some merged) ∨
      seOrmerge callees.merges (some set1) (some set2) 0 = .ok (some merged) ∨
      seNotmerge callees.merges (some set1) (some set2) = .ok (some merged)) :
    merged.resultType = 0 ∧ merged.setid = "" := by
  have hplain1 := h1.toUnflagged
  have hplain2 := h2.toUnflagged
  have hvirtual1 := h1.not_has VIRTUAL_RESULT (by decide)
  have hvirtual2 := h2.not_has VIRTUAL_RESULT (by decide)
  have hbitmap1 := h1.not_has BITMAP_RESULT (by decide)
  have hbitmap2 := h2.not_has BITMAP_RESULT (by decide)
  have hpaged := pagedOperands_unflagged callees.merges hplain1 hplain2
  have hcomponent := componentOperands_unflagged callees.merges set1 set2 hplain1 hplain2
  have hcomponentOr := componentOperandsOr_unflagged callees.merges set1 set2 hplain1 hplain2
  have hflags := probFlag_unflagged hplain1 hplain2
  rcases h with h | h | h
  all_goals
    simp only [seAndmerge, seOrmerge, seNotmerge, hvirtual1, hvirtual2, hbitmap1, hbitmap2, hpaged,
      hcomponent, hcomponentOr, hflags, h1.not_fuzzy, bind, Except.bind, Bool.or_self,
      Bool.false_eq_true, if_false] at h
    repeat' split at h
    all_goals cases h
    all_goals simp [ranked, NewSet.finish, mergedType]

/-- An operator merges crisp sets into a crisp set of the records for which it holds. -/
theorem processOperator_crisp {operator : RpnOperator} (hboolean : operator.isBoolean) (h1 : set1.Crisp)
    (h2 : set2.Crisp) :
    ∃ set, processOperator callees operator (some set1) (some set2) = .ok (some set) ∧ set.Crisp ∧
      ∀ record, record ∈ set.recordNums ↔
        operator.holds (record ∈ set1.recordNums) (record ∈ set2.recordNums) := by
  obtain ⟨merged, total, records, hrun, hheader, hmerged, hincreasing, hmem⟩ :
      ∃ merged total records,
        processOperator callees operator (some set1) (some set2) = .ok (some merged) ∧
          (merged.resultType = 0 ∧ merged.setid = "") ∧ MergedExactly merged total records ∧
          records.Pairwise (· < ·) ∧ ∀ record, record ∈ records ↔
            operator.holds (record ∈ set1.recordNums) (record ∈ set2.recordNums) := by
    cases operator with
    | and =>
      obtain ⟨merged, hmerge, hexact⟩ :=
        seAndmerge_unflagged callees.merges h1.toUnflagged h2.toUnflagged
      refine ⟨merged, _, _, ?_, header_merges h1 h2 (Or.inl hmerge), hexact, ?_, fun record ↦ ?_⟩
      · simp [processOperator, hmerge, deref, bind, Except.bind]
      · exact SortedMerge.strictlyIncreasing_inter _ h1.increasing
      · exact SortedMerge.mem_inter h1.increasing h2.increasing
    | or =>
      obtain ⟨merged, hmerge, hexact⟩ :=
        seOrmerge_unflagged callees.merges h1.toUnflagged h2.toUnflagged 0
      refine ⟨merged, _, _, hmerge, header_merges h1 h2 (Or.inr (Or.inl hmerge)), hexact, ?_,
        fun record ↦ ?_⟩
      · exact SortedMerge.strictlyIncreasing_union h1.increasing h2.increasing
      · exact SortedMerge.mem_union
    | andNot =>
      obtain ⟨merged, hmerge, hexact⟩ :=
        seNotmerge_unflagged callees.merges h1.toUnflagged h2.toUnflagged
      refine ⟨merged, _, _, ?_, header_merges h1 h2 (Or.inr (Or.inr hmerge)), hexact, ?_,
        fun record ↦ ?_⟩
      · simp [processOperator, hmerge, deref, bind, Except.bind]
      · exact SortedMerge.strictlyIncreasing_diff _ h1.increasing
      · exact SortedMerge.mem_diff h1.increasing h2.increasing
    | prox op => exact hboolean.elim
  refine ⟨merged, hrun, hmerged.crisp hincreasing hheader, ?_⟩
  rwa [hmerged.recordNums_eq]

end Merges

/-- `se_bool_element` for an operand. -/
def searchTerm (routines : ElementRoutines) (fuel : ℕ) (range : RangeIndex) (oper : TermSearch) :
    Exec (Option WeightedResult) :=
  seBoolElement routines fuel range (some oper.text) oper.relation oper.structureAttr 0

theorem header_foldlM_storeWord {proxPhrase : List (ℤ × ℤ) → ℤ → ℤ → Exec Bool} {s : WordSearch}
    {records : List (ℤ × TempResults)} {wtRes result : WeightedResult}
    (h : records.foldlM (storeWord proxPhrase s) wtRes = .ok result) :
    result.resultType = wtRes.resultType ∧ result.setid = wtRes.setid := by
  induction records generalizing wtRes with
  | nil =>
    cases h
    exact ⟨rfl, rfl⟩
  | cons record records ih =>
    rw [List.foldlM_cons] at h
    obtain ⟨next, hnext, h⟩ := bind_eq_ok.mp h
    rw [(ih h).1, (ih h).2]
    simp only [storeWord, bind, Except.bind] at hnext
    repeat' split at hnext
    all_goals cases hnext
    all_goals exact ⟨rfl, rfl⟩

/-- The result has an entry more than the word with the fewest postings has records. -/
theorem spare_foldlM_storeWord {proxPhrase : List (ℤ × ℤ) → ℤ → ℤ → Exec Bool} {idx : RangeIndex}
    {done : List (Option IdxResult × ℤ)} {s : WordSearch} (h : Intersected done s)
    (hanswers : ∀ found ∈ done, Answer found) (hpos : 0 < s.numSearchWords - s.stopwordCount)
    {wtRes : WeightedResult}
    (hwtRes : s.table.entries.foldlM (storeWord proxPhrase s) (newWordResult idx s) = .ok wtRes) :
    (seSortwtset wtRes).numHits.toNat + 1 ≤ (seSortwtset wtRes).entries.length := by
  have hroom := length_keptEntries_le_maxHits h hanswers hpos
  have hnew : Buffer.Holds WeightedEntry.zero (s.maxHits.toNat + 2) (newWordResult idx s).entries [] :=
    Buffer.holds_calloc _ _
  obtain ⟨next, hnext, hholds, hhits⟩ :=
    @foldlM_storeWord proxPhrase s h.phrase _ s.table.entries _ _ hnew rfl (by
      rw [List.length_nil]
      change 0 + (keptEntries s).length ≤ _
      omega)
  rw [hwtRes, Except.ok.injEq] at hnext
  subst hnext
  change wtRes.numHits = (wordHits (keptEntries s)).length at hhits
  rw [wordHits, List.length_map] at hhits
  have hlength := hholds.length_cells
  change wtRes.numHits.toNat + 1 ≤ _
  simp only [seSortwtset, WeightedResult.qsort, WeightedResult.hits, List.length_append,
    List.length_insertionSort, List.length_take, List.length_drop]
  omega

theorem pos_of_going {done : List (Option IdxResult × ℤ)} {found : Option IdxResult × ℤ}
    (hanswer : Answer found) (hmem : found ∈ done) (hgoing : found ≠ (none, 1)) :
    0 < (blocks done).length + missing done := by
  obtain ⟨result, stops⟩ := found
  obtain rfl : stops = 0 := hanswer.counted.resolve_right hgoing
  cases result with
  | none =>
    have hmissing : 0 < missing done := List.countP_pos_iff.mpr ⟨_, hmem, decide_eq_true rfl⟩
    omega
  | some block =>
    have hblock : block ∈ blocks done := List.mem_filterMap.mpr ⟨_, hmem, rfl⟩
    have hblocks := List.length_pos_of_mem hblock
    omega

/-- A word was looked up: what is found are the live records that have it. -/
structure LooksUp (fuel : ℕ) (range : RangeIndex) (live : Live) (word : List Char)
    (found : Option IdxResult × ℤ) : Prop where
  returns : lookUpWord fuel range 0 word = .ok found
  answer : Answer found
  stopped : found = (none, 1) ↔ Stopped range word
  records : ∀ record, (∃ block, found.1 = some block ∧ HasRecord block record) ↔
    LiveWith live record fun hash ↦ HasWord range hash word

section Searching

variable {idx : IdxListEntry} {live : Live} {range : RangeIndex} (hexact : Exact idx live)
  (hlive : LiveOnce live) (hopened : Opened idx range)

include hexact hlive hopened

theorem lookUpWord_stored (fuel : ℕ) {word : List Char}
    (hnormal : ∃ key, normalizeKey range.routines range.idxType word = .ok key ∧
      ∀ text ∈ key, text.head? ≠ some '>') :
    ∃ found, LooksUp fuel range live word found := by
  obtain ⟨key, hkey, hhead⟩ := hnormal
  obtain ⟨pairs, hdb, hfile⟩ := hopened.file
  have huntruncated : ¬isTruncated 0 word = true := by
    simp [isTruncated, PROCESS_POUND, RIGHT_TRUNC]
  have hreturns : lookUpWord fuel range 0 word = seGettermIdx range word := if_neg huntruncated
  simp only [seGettermIdx, hdb, hkey, bind, Except.bind] at hreturns
  cases key with
  | none =>
    refine ⟨(none, 1), hreturns, ⟨Or.inr rfl, by simp⟩, iff_of_true rfl hkey, fun record ↦ ?_⟩
    simp [LiveWith, HasWord, hkey]
  | some text =>
    have hgoing : ¬Stopped range word := by
      simp [Stopped, hkey]
    have hword (hash : TermHash) :
        HasWord range hash word ↔ ∃ term, text = termChars term ∧ (hash.find? term).isSome := by
      simp [HasWord, hkey]
    cases hlookup : pairs.lookup text with
    | none =>
      simp only [hlookup] at hreturns
      refine ⟨(none, 0), hreturns, ⟨Or.inl rfl, by simp⟩, iff_of_false (by simp) hgoing,
        fun record ↦ iff_of_false (by simp) ?_⟩
      rintro ⟨entry, hentry, -, hhas⟩
      obtain ⟨term, rfl, hsome⟩ := (hword _).mp hhas
      -- a term of a live record has a posting, and so it is in the file
      obtain ⟨htData, hfind⟩ := Option.isSome_iff_exists.mp hsome
      have hposting := mem_livePostings.mpr ⟨entry, hentry, htData, hfind, rfl⟩
      have hterm := hexact.terms term
      cases hblock : idx.terms term with
      | none =>
        rw [hblock] at hterm
        rw [show livePostings live term = [] from hterm] at hposting
        cases hposting
      | some block =>
        have hfound := (hfile.lookup (hhead _ rfl) _).mpr ⟨term, block, rfl, rfl, hblock⟩
        cases hlookup.symm.trans hfound
    | some datum =>
      obtain ⟨term, block, rfl, rfl, hblock⟩ := (hfile.lookup (hhead _ rfl) _).mp hlookup
      have hstores := hexact.terms term
      rw [hblock] at hstores
      simp only [hlookup] at hreturns
      refine ⟨(some block, 0), hreturns, ⟨Or.inl rfl, ?_⟩, iff_of_false (by simp) hgoing,
        fun record ↦ ?_⟩
      · rintro other ⟨⟩
        exact hlive.oncePosted hstores
      · simp [hword, hasRecord_iff hstores, termChars_injective.eq_iff]

/-- The search for the words of an operand returns the live records that have them all. -/
theorem searchTerm_spec (routines : ElementRoutines) (fuel : ℕ) {oper : TermSearch}
    (hoper : oper.Searchable range) :
    ∃ set, searchTerm routines fuel range oper = .ok (some set) ∧ set.Crisp ∧
      ∀ record, record ∈ set.recordNums ↔
        LiveWith live record fun hash ↦ Satisfies range hash (.leaf oper) := by
  obtain ⟨going, hgoing, hnotStopped⟩ := hoper.going
  have hrelation := hoper.equal
  have hequal : ¬(oper.relation ≠ 0 ∧ oper.relation ≠ 3 ∧ oper.relation ≠ 6) := by omega
  have hnotSix : ¬oper.relation = 6 := by omega
  obtain ⟨letters, hletters, hwords⟩ : ∃ letters, breakletters range.idxType = some letters ∧
      tokens letters oper.text = oper.words range := by
    cases hletters : breakletters range.idxType with
    | none =>
      rw [TermSearch.words, hletters] at hgoing
      cases hgoing
    | some letters =>
      rw [TermSearch.words, hletters]
      exact ⟨letters, rfl, rfl⟩
  have hanswer (word : List Char) :
      ∃ found, word ∈ oper.words range → LooksUp fuel range live word found := by
    by_cases hmem : word ∈ oper.words range
    · obtain ⟨found, hfound⟩ := lookUpWord_stored hexact hlive hopened fuel (hoper.normal word hmem)
      exact ⟨found, fun _ ↦ hfound⟩
    · exact ⟨(none, 1), fun hword ↦ absurd hword hmem⟩
  choose answer hanswer using hanswer
  obtain ⟨s, hs, hinv⟩ := intersected_nil.words_loop (oper.words range) hoper.marks
    (fun word hmem ↦ (hanswer word hmem).returns) (fun word hmem ↦ (hanswer word hmem).answer)
  rw [List.nil_append] at hinv
  have hanswers : ∀ found ∈ (oper.words range).map answer, Answer found := by
    intro found hfound
    obtain ⟨word, hword, rfl⟩ := List.mem_map.mp hfound
    exact (hanswer word hword).answer
  have hpos : 0 < s.numSearchWords - s.stopwordCount := by
    have hsome := pos_of_going (hanswer going hgoing).answer (List.mem_map_of_mem hgoing)
      fun hstop ↦ hnotStopped ((hanswer going hgoing).stopped.mp hstop)
    rw [hinv.words, hinv.stops, length_sub_sum hanswers]
    exact_mod_cast hsome
  obtain ⟨wtRes, hwtRes, hallocated, hincreasing, hmem, -⟩ :=
    @storeWords_spec routines.proxPhrase range _ s hinv hanswers hpos
  have htype : (seSortwtset wtRes).resultType = 0 ∨ (seSortwtset wtRes).resultType = PROXIMITY_RESULT := by
    have hpaged : hasFlag range.idxType PAGEDINDEX = false := by
      rw [hopened.idxType_eq]
      exact hexact.inverted.not_paged
    change wtRes.resultType = 0 ∨ wtRes.resultType = PROXIMITY_RESULT
    rw [(header_foldlM_storeWord hwtRes).1]
    simp only [newWordResult, hpaged, hopened.documents, Bool.false_eq_true, if_false]
    split_ifs
    · exact Or.inr rfl
    · exact Or.inl rfl
  refine ⟨seSortwtset wtRes, ?_, ⟨⟨hallocated, hincreasing, ?_⟩, ?_,
    spare_foldlM_storeWord hinv hanswers hpos hwtRes, (header_foldlM_storeWord hwtRes).2⟩, fun record ↦ ?_⟩
  · rw [searchTerm, seBoolElement, if_neg hequal, if_pos hoper.list, boolWords, hletters]
    simp only [hwords, if_neg (List.ne_nil_of_mem hgoing), hs, bind, Except.bind,
      if_neg (not_le.mpr hpos), hwtRes, orderedHits, if_neg hnotSix]
  · rcases htype with htype | htype <;> rw [htype] <;> decide
  · rcases htype with htype | htype <;> rw [WeightedResult.has, htype] <;> decide
  · calc
      record ∈ (seSortwtset wtRes).recordNums ↔ InAll ((oper.words range).map answer) record :=
        hmem record
      _ ↔ ∀ word ∈ oper.words range, ¬Stopped range word →
          LiveWith live record fun hash ↦ HasWord range hash word := by
        rw [InAll, List.forall_mem_map]
        apply forall₂_congr
        intro word hword
        rw [ne_eq, (hanswer word hword).stopped, (hanswer word hword).records]
      _ ↔ LiveWith live record fun hash ↦ Satisfies range hash (.leaf oper) := by
        constructor
        · intro hall
          -- all the words are those of the one live record with the number
          obtain ⟨entry, hentry, rfl, -⟩ := hall going hgoing hnotStopped
          refine ⟨entry, hentry, rfl, fun word hword hnot ↦ ?_⟩
          exact (hlive.liveWith_iff hentry _).mp (hall word hword hnot)
        · rintro ⟨entry, hentry, hnum, hsatisfies⟩ word hword hnot
          exact ⟨entry, hentry, hnum, hsatisfies word hword hnot⟩

end Searching

/-- `se_process_rpn_structure` with the searches that its leaves call; a fault of a search stays one. -/
def seProcessRpnSearches (callees : RpnCallees) (routines : ElementRoutines) (fuel : ℕ)
    (range : RangeIndex) : RpnStructure TermSearch → Exec (Option WeightedResult)
  | .leaf oper => searchTerm routines fuel range oper
  | .node operator rpn1 rpn2 => do
    let leftRes ← seProcessRpnSearches callees routines fuel range rpn1
    if leftRes.isNone && stopsAtLeft operator then .ok none
    else do
      let rightRes ← seProcessRpnSearches callees routines fuel range rpn2
      processOperator callees operator leftRes rightRes

theorem not_holds_false (operator : RpnOperator) : ¬operator.holds False False := by
  cases operator <;> simp [RpnOperator.holds]

theorem LiveOnce.holds_iff {live : Live} (hlive : LiveOnce live) (operator : RpnOperator)
    (P Q : TermHash → Prop) (record : ℤ) :
    operator.holds (LiveWith live record P) (LiveWith live record Q) ↔
      LiveWith live record fun hash ↦ operator.holds (P hash) (Q hash) := by
  by_cases hsome : ∃ entry ∈ live, (entry.1.1 : ℤ) = record
  · obtain ⟨entry, hentry, rfl⟩ := hsome
    rw [hlive.liveWith_iff hentry, hlive.liveWith_iff hentry, hlive.liveWith_iff hentry]
  · have hnone (R : TermHash → Prop) : LiveWith live record R = False := by
      apply eq_false
      rintro ⟨entry, hentry, hnum, -⟩
      exact hsome ⟨entry, hentry, hnum⟩
    rw [hnone P, hnone Q, hnone]
    exact iff_of_false (not_holds_false operator) id

theorem seProcessRpnSearches_spec {idx : IdxListEntry} {live : Live} {range : RangeIndex}
    (hexact : Exact idx live) (hlive : LiveOnce live) (hopened : Opened idx range) (callees : RpnCallees)
    (routines : ElementRoutines) (fuel : ℕ) {query : RpnStructure TermSearch}
    (hquery : WellPosed range query) :
    ∃ set, seProcessRpnSearches callees routines fuel range query = .ok (some set) ∧
      set.Crisp ∧ ∀ record, record ∈ set.recordNums ↔
        LiveWith live record fun hash ↦ Satisfies range hash query := by
  induction query with
  | leaf oper =>
    exact searchTerm_spec hexact hlive hopened routines fuel hquery
  | node operator left right ihleft ihright =>
    obtain ⟨hboolean, hleft, hright⟩ := hquery
    obtain ⟨set1, heval1, hcrisp1, hmem1⟩ := ihleft hleft
    obtain ⟨set2, heval2, hcrisp2, hmem2⟩ := ihright hright
    obtain ⟨set, hset, hcrisp, hmem⟩ := @processOperator_crisp callees _ _ _ hboolean hcrisp1 hcrisp2
    refine ⟨set, ?_, hcrisp, fun record ↦ ?_⟩
    · simp only [seProcessRpnSearches, heval1, heval2, bind, Except.bind, Option.isNone_some,
        Bool.false_and, if_neg Bool.false_ne_true]
      exact hset
    · rw [hmem, hmem1, hmem2]
      exact hlive.holds_iff operator _ _ record

/-- A query returns, in increasing order, the live records whose terms satisfy its formula. -/
def ReturnsSatisfying (callees : RpnCallees) (routines : ElementRoutines) (fuel : ℕ) (range : RangeIndex)
    (live : Live) (query : RpnStructure TermSearch) : Prop :=
  ∃ set, seProcessRpnSearches callees routines fuel range query = .ok (some set) ∧
    set.recordNums.Pairwise (· < ·) ∧
    ∀ record, record ∈ set.recordNums ↔ LiveWith live record fun hash ↦ Satisfies range hash query

theorem returnsSatisfying {idx : IdxListEntry} {live : Live} (hexact : Exact idx live) (hlive : LiveOnce live)
    (callees : RpnCallees) (routines : ElementRoutines) (fuel : ℕ) {range : RangeIndex}
    {query : RpnStructure TermSearch} (hopened : Opened idx range) (hquery : WellPosed range query) :
    ReturnsSatisfying callees routines fuel range live query := by
  obtain ⟨set, hset, hcrisp, hmem⟩ :=
    seProcessRpnSearches_spec hexact hlive hopened callees routines fuel hquery
  exact ⟨set, hset, hcrisp.increasing, hmem⟩

theorem LiveOnce.specKw {live : Live} (hlive : LiveOnce live) {op : KwOp} (hvalid : ValidKw live op) :
    LiveOnce (specKw live op) := by
  cases op with
  | add recnum hash =>
    rw [LiveOnce, Index.specKw, List.map_append, List.nodup_append]
    refine ⟨hlive, List.nodup_singleton _, ?_⟩
    rintro recno hrecno other hother
    obtain ⟨entry, hentry, rfl⟩ := List.mem_map.mp hrecno
    rw [List.mem_singleton.mp hother]
    exact hvalid entry hentry
  | del recnum hash => exact hlive.sublist (List.filter_sublist.map _)

/-- An operation that is valid and removes cleanly. -/
def CleanKw (idx : IdxListEntry) (live : Live) (op : KwOp) : Prop := ValidKw live op ∧ CleanRemoval idx op

theorem exact_run {idx : IdxListEntry} {live : Live} (hexact : Exact idx live) (hlive : LiveOnce live)
    {ops : List KwOp} (hclean : Runs.Along stepKw (fun _ ↦ specKw) CleanKw idx live ops) :
    ∃ idx', Runs.run stepKw idx ops = .ok idx' ∧ Exact idx' (ops.foldl specKw live) ∧
      LiveOnce (ops.foldl specKw live) := by
  induction ops generalizing idx live with
  | nil => exact ⟨idx, rfl, hexact, hlive⟩
  | cons op ops ih =>
    obtain ⟨⟨hvalid, hremoval⟩, hrest⟩ := hclean
    obtain ⟨next, hnext, -, hexact'⟩ := (stepKw_iff idx live op hexact hvalid).mp hremoval
    rw [Runs.run_cons_of_ok hnext, List.foldl_cons]
    exact ih hexact' (hlive.specKw hvalid) (hrest next hnext)

/-- After any history of a keyword index whose removals are clean, every query of AND, OR and AND-NOT
returns the live records that satisfy it. -/
theorem queryHistory (callees : RpnCallees) (routines : ElementRoutines) (fuel idxType : ℕ)
    (hinverted : Inverted (IdxListEntry.created idxType)) (ops : List KwOp)
    (hclean : Runs.Along stepKw (fun _ ↦ specKw) CleanKw (IdxListEntry.created idxType) [] ops) :
    ∃ idx, Runs.run stepKw (IdxListEntry.created idxType) ops = .ok idx ∧
      ∀ range query, Opened idx range → WellPosed range query →
        ReturnsSatisfying callees routines fuel range (ops.foldl specKw []) query := by
  obtain ⟨idx, hrun, hexact, hlive⟩ := exact_run (exact_created idxType hinverted) List.nodup_nil hclean
  exact ⟨idx, hrun, fun _ _ ↦ returnsSatisfying hexact hlive callees routines fuel⟩

theorem itemPostings_map_directItem (idxType : ℕ) (recnum : RecordNumber) {items : List (Term × HtData)}
    (hnodup : (items.map Prod.fst).Nodup) (term : Term) :
    itemPostings (items.map (directItem idxType recnum)) term =
      ((items.lookup term).map fun htData ↦ ⟨recnum.1, (htData.termfreq : ℤ)⟩).toList := by
  induction items with
  | nil => rfl
  | cons item items ih =>
    rw [List.map_cons, List.nodup_cons] at hnodup
    have hrest := ih hnodup.2
    rw [itemPostings] at hrest
    rw [List.map_cons, itemPostings, List.filter_cons, List.lookup_cons]
    by_cases heq : item.1 = term
    · subst heq
      rw [lookup_eq_none hnodup.1] at hrest
      simp only [directItem, decide_true, if_true, beq_self_eq_true, List.map_cons] at hrest ⊢
      rw [hrest]
      rfl
    · rw [if_neg (by simpa [directItem] using heq), beq_eq_false_iff_ne.mpr (Ne.symm heq)]
      exact hrest

theorem itemPostings_directItems (idxType : ℕ) (records : Records) (term : Term) :
    itemPostings (directItems idxType records) term = livePostings records term := by
  induction records with
  | nil => rfl
  | cons record records ih =>
    have hrecord := itemPostings_map_directItem idxType record.1 record.2.nodup term
    rw [directItems] at ih
    rw [directItems, List.flatMap_cons, itemPostings, List.filter_append, List.map_append, ← itemPostings,
      ← itemPostings, hrecord, ih, livePostings, livePostings, List.filterMap_cons, TermHash.find?]
    cases record.2.entries.lookup term <;> rfl

/-- After records were loaded in a batch, every query of AND, OR and AND-NOT returns those that satisfy
it, as if they had been added one by one. -/
theorem queryBatch (callees : RpnCallees) (routines : ElementRoutines) (fuel idxType : ℕ)
    (hinverted : Inverted (IdxListEntry.created idxType)) (records : Records)
    (hincreasing : Increasing records) (hbatchable : Batchable idxType records) :
    ∃ idx, indexBatch records (IdxListEntry.created idxType) = .ok idx ∧
      ∀ range query, Opened idx range → WellPosed range query →
        ReturnsSatisfying callees routines fuel range records query := by
  obtain ⟨idx, hbatch, -, hfilled⟩ := indexBatch_spec hinverted hincreasing hbatchable
  have hexact : Exact idx records := by
    refine ⟨hfilled.inverted, fun term ↦ ?_⟩
    have hterm := hfilled.terms term
    rwa [itemPostings, filter_sortItems (orderedByRecord_directItems idxType hincreasing), ← itemPostings,
      itemPostings_directItems] at hterm
  have hlive : LiveOnce records := by
    apply List.pairwise_map.mpr
    refine hincreasing.imp fun hlt heq ↦ ?_
    rw [heq] at hlt
    exact lt_irrefl _ hlt
  exact ⟨idx, hbatch, fun _ _ ↦ returnsSatisfying hexact hlive callees routines fuel⟩

theorem inRange_recordTwo : 0 < 2 ∧ 2 ≤ INT_MAX := by decide

def recordTwo : RecordNumber := ⟨2, inRange_recordTwo⟩

/-- A record with the word `dog`. -/
def dogRecord : RecordNumber × TermHash := (recordTwo, singleHash [100, 111, 103])

def dogFile : List (List Char × IndexDatum) := [(['d', 'o', 'g'], .postings ⟨0, 1, 1, [⟨2, 1⟩]⟩)]

theorem opened_dogFile {idx : IdxListEntry} (htype : idx.idxType = KEYWORD)
    (hterms : idx.terms = Function.update (fun _ ↦ none) [100, 111, 103] (some ⟨0, 1, 1, [⟨2, 1⟩]⟩)) :
    Opened idx (wordIndex dogFile) := by
  refine ⟨htype.symm, rfl, dogFile, rfl, ?_, ?_⟩
  · intro term block hblock
    rw [hterms, Function.update_apply] at hblock
    split_ifs at hblock with hterm
    rw [hterm, ← Option.some.inj hblock]
    exact List.mem_singleton_self _
  · intro pair hpair hne
    obtain rfl := List.mem_singleton.mp hpair
    refine ⟨[100, 111, 103], _, rfl, ?_⟩
    rw [hterms, Function.update_self]

/-- `dog` without `cat` -/
def dogNotCat : RpnStructure TermSearch :=
  .node .andNot (.leaf ⟨['d', 'o', 'g'], 3, WORD_LIST⟩) (.leaf ⟨['c', 'a', 't'], 3, WORD_LIST⟩)

theorem wellPosed_dogNotCat : WellPosed (wordIndex dogFile) dogNotCat := by
  have hword {text : List Char} (hwords : tokens keywordletters text = [text]) (hmark : '$' ∉ text)
      (hkey : normalizeKey (wordIndex dogFile).routines KEYWORD text = .ok (some text))
      (hhead : text.head? ≠ some '>') :
      TermSearch.Searchable (wordIndex dogFile) ⟨text, 3, WORD_LIST⟩ := by
    have hletters : TermSearch.words (wordIndex dogFile) ⟨text, 3, WORD_LIST⟩ = [text] := hwords
    constructor
    · exact Or.inr rfl
    · exact (by decide +kernel : isWordList KEYWORD WORD_LIST = true)
    · rw [hletters]
      simpa using hmark
    · rw [hletters]
      simpa using ⟨some text, hkey, by simpa using hhead⟩
    · rw [hletters]
      exact ⟨text, List.mem_singleton_self _, fun hstop ↦ nomatch hkey.symm.trans hstop⟩
  exact ⟨trivial, hword (by decide +kernel) (by decide) rfl (by decide),
    hword (by decide +kernel) (by decide) rfl (by decide)⟩

theorem queryHistory_dogNotCat :
    ReturnsSatisfying noCallees noPhrases 0 (wordIndex dogFile) [dogRecord] dogNotCat := by
  obtain ⟨idx, hrun, hqueries⟩ := queryHistory noCallees noPhrases 0 KEYWORD ⟨rfl, rfl, rfl⟩
    [.add recordTwo dogRecord.2] ⟨⟨nofun, trivial⟩, fun _ _ ↦ trivial⟩
  cases hrun
  exact hqueries _ _ (opened_dogFile rfl rfl) wellPosed_dogNotCat

theorem queryBatch_dogNotCat :
    ReturnsSatisfying noCallees noPhrases 0 (wordIndex dogFile) [dogRecord] dogNotCat := by
  have hbatchable : Batchable KEYWORD [dogRecord] := by
    constructor
    · intro record hrecord item hitem
      obtain rfl := List.mem_singleton.mp hrecord
      obtain rfl := List.mem_singleton.mp hitem
      decide
    · intro item hitem
      obtain rfl := List.mem_singleton.mp hitem
      exact ⟨by decide, nofun⟩
  obtain ⟨idx, hrun, hqueries⟩ := queryBatch noCallees noPhrases 0 KEYWORD ⟨rfl, rfl, rfl⟩ [dogRecord]
    (List.pairwise_singleton _ _) hbatchable
  cases hrun
  exact hqueries _ _ (opened_dogFile rfl rfl) wellPosed_dogNotCat

end Cheshire.Search
