import Cheshire.Search.NgramCounts

/-!
# The result of a search of an n-gram index

The records of the hash table with more than half of the n-grams are stored into the result, which is
then ranked by weight.  An n-gram index lists each record once under an n-gram.  So a search finds each
record once, with the share of the n-grams that it was counted for as its weight.
-/

namespace Cheshire.Search

open Lib Index FileIo

/-- The entries that the records of a hash table become. -/
def ngramHits (total : ℕ) (records : List (ℤ × ℕ)) : List WeightedEntry :=
  (records.filter fun record ↦ (record.2 / total : ℚ) > 1 / 2).map fun record ↦
    ⟨record.1, 0, record.2 / total⟩

theorem foldlM_storeHit {size : ℕ} (total : ℕ) (records : List (ℤ × ℕ)) {wtRes : WeightedResult}
    {out : List WeightedEntry} (hholds : Buffer.Holds WeightedEntry.zero size wtRes.entries out)
    (hhits : wtRes.numHits = out.length) (hroom : out.length + records.length ≤ size) :
    ∃ next, records.foldlM (storeHit total) wtRes = .ok next ∧
      Buffer.Holds WeightedEntry.zero size next.entries (out ++ ngramHits total records) ∧
      next.numHits = (out ++ ngramHits total records).length := by
  induction records generalizing wtRes out with
  | nil => exact ⟨wtRes, rfl, by simpa [ngramHits] using hholds, by simpa [ngramHits] using hhits⟩
  | cons record records ih =>
    rw [List.length_cons] at hroom
    rw [List.foldlM_cons]
    by_cases hmany : (record.2 / total : ℚ) > 1 / 2
    · obtain ⟨cells, hcells, hnext⟩ :=
        hholds.store (by omega) ⟨record.1, 0, record.2 / total⟩
      have hstored : ngramHits total (record :: records) =
          ⟨record.1, 0, record.2 / total⟩ :: ngramHits total records := by
        rw [ngramHits, List.filter_cons_of_pos (by simpa using hmany), List.map_cons]
        rfl
      rw [hstored, List.append_cons]
      have hindex : wtRes.numHits.toNat = out.length := by rw [hhits, Int.toNat_natCast]
      simp only [storeHit, hmany, if_true, hindex, hcells]
      exact ih hnext (by simp [hhits]) (by rw [List.length_append, List.length_singleton]; omega)
    · have hskipped : ngramHits total (record :: records) = ngramHits total records := by
        rw [ngramHits, List.filter_cons_of_neg (by simpa using hmany)]
        rfl
      rw [hskipped]
      simp only [storeHit, hmany, if_false]
      exact ih hholds hhits (by omega)

theorem ngramResult_spec (s : NgramSearch) : ∃ wtRes, ngramResult s = .ok wtRes ∧
    wtRes.hits.Perm (ngramHits s.lookedUp.length s.hash.entries) := by
  have hnew : Buffer.Holds WeightedEntry.zero (s.hash.entries.length + 1)
      (newNgramResult s).entries [] := Buffer.holds_calloc _ _
  obtain ⟨next, hnext, hholds, hcount⟩ :=
    foldlM_storeHit s.lookedUp.length s.hash.entries hnew rfl (by simp)
  rw [List.nil_append] at hholds hcount
  have hlength : next.numHits.toNat = (ngramHits s.lookedUp.length s.hash.entries).length := by
    rw [hcount, Int.toNat_natCast]
  have hallocated : next.Allocated := by
    constructor
    · rw [hcount]
      exact Int.natCast_nonneg _
    · rw [hlength, hholds.length_cells]
      exact hholds.length_le
  refine ⟨seRankDocs next, ?_, ?_⟩
  · rw [ngramResult, hnext]
    rfl
  · rw [seRankDocs, hallocated.hits_qsort]
    apply (List.perm_insertionSort _ _).trans
    rw [WeightedResult.hits, hlength, hholds.take]

theorem nodup_ngramHits (total : ℕ) (table : Tally ℤ) :
    ((ngramHits total table.entries).map WeightedEntry.recordNum).Nodup := by
  rw [ngramHits, List.map_map]
  exact table.nodup.sublist (List.filter_sublist.map _)

theorem mem_ngramHits_iff {total : ℕ} (table : Tally ℤ) (record : ℤ) (weight : ℚ)
    (hle : table.get record ≤ total) :
    (∃ entry ∈ ngramHits total table.entries,
        entry.recordNum = record ∧ entry.weight = weight) ↔
      total < 2 * table.get record ∧ weight = table.get record / total := by
  have hhalf (count : ℕ) (hpos : 0 < total) :
      ((count / total : ℚ) > 1 / 2) ↔ total < 2 * count := by
    have hpos' : (0 : ℚ) < total := Nat.cast_pos.mpr hpos
    rw [gt_iff_lt, div_lt_div_iff₀ two_pos hpos', one_mul]
    rw [← Nat.cast_ofNat, ← Nat.cast_mul, Nat.cast_lt, Nat.mul_comm]
  simp only [ngramHits, List.mem_map, List.mem_filter, decide_eq_true_eq]
  constructor
  · rintro ⟨entry, ⟨⟨number, count⟩, ⟨hmem, hmany⟩, rfl⟩, rfl, rfl⟩
    obtain ⟨hget, hpos⟩ := (table.mem_entries_iff number count).mp hmem
    simp only at hle hmany ⊢
    rw [hget] at hle ⊢
    exact ⟨(hhalf count (by omega)).mp hmany, rfl⟩
  · rintro ⟨hmany, rfl⟩
    have hmem := (table.mem_entries_iff record _).mpr ⟨rfl, by omega⟩
    exact ⟨_, ⟨_, ⟨hmem, (hhalf _ (by omega)).mpr hmany⟩, rfl⟩, rfl, rfl⟩

theorem nodup_livePostings {live : Live} (hlive : (live.map Prod.fst).Nodup) (word : Term) :
    ((livePostings live word).map IdxPostingEntry.recordNo).Nodup := by
  induction live with
  | nil => exact List.nodup_nil
  | cons entry live ih =>
    rw [List.map_cons, List.nodup_cons] at hlive
    cases hfind : entry.2.find? word with
    | none => simpa [livePostings, hfind] using ih hlive.2
    | some htData =>
      have hcons : livePostings (entry :: live) word =
          ⟨entry.1.1, htData.termfreq⟩ :: livePostings live word := by
        simp [livePostings, hfind]
      rw [hcons, List.map_cons, List.nodup_cons]
      refine ⟨?_, ih hlive.2⟩
      intro hmem
      obtain ⟨posting, hposting, hnumber⟩ := List.mem_map.mp hmem
      obtain ⟨other, hother, _, -, rfl⟩ := mem_livePostings.mp hposting
      have hsame : other.1 = entry.1 := by
        have hcast : (other.1.1 : ℤ) = entry.1.1 := hnumber
        exact Subtype.ext (by exact_mod_cast hcast)
      exact hlive.1 (hsame ▸ List.mem_map_of_mem hother)

theorem distinct_of_exact {idx : IdxListEntry} {live : Live} (h : Exact idx live)
    (hlive : (live.map Prod.fst).Nodup) : Distinct idx where
  sound := h.sound
  nodup ngram block hblock := by
    have hstores : StoresExactly _ (some block) := hblock ▸ h.terms ngram
    rw [hstores.2.2.1]
    exact nodup_livePostings hlive ngram

theorem weightOf_le_length (idx : IdxListEntry) (steps : List (Term × Bool)) (record : ℤ) :
    weightOf idx steps record ≤ steps.length :=
  List.countP_le_length.trans (List.dropWhile_sublist _).length_le

/-- The hits of a search; there are none without a result. -/
def resultHits (found : Option WeightedResult) : List WeightedEntry :=
  found.elim [] WeightedResult.hits

section Search

variable (normalizeKey : Term → Option FileIo.CString) (snowballStemType : ℤ) (idx : IdxListEntry)

/-- The n-grams of a search string as they are looked up. -/
def searchSteps (insearchstring : Term) (relation : ℤ) : List (Term × Bool) :=
  wordsSteps normalizeKey idx (ngramSize snowballStemType) (basePoolNum relation)
    (strtok KEYWORD_LETTERS insearchstring)

theorem two_le_ngramSize : 2 ≤ ngramSize snowballStemType := by
  unfold ngramSize
  split <;> omega

theorem basePoolNum_pos (relation : ℤ) : 0 < basePoolNum relation := by
  unfold basePoolNum
  split <;> omega

variable {idx}

theorem normalizeKey_eq_none {words : List Term}
    (hstop : (words.length : ℤ) - words.countP (fun word ↦ (normalizeKey word).isNone) ≤ 0) :
    ∀ word ∈ words, normalizeKey word = none := by
  have hle := words.countP_le_length (p := fun word ↦ (normalizeKey word).isNone)
  have heq : words.countP (fun word ↦ (normalizeKey word).isNone) = words.length := by omega
  exact fun word hword ↦ Option.isNone_iff_eq_none.mp (List.countP_eq_length.mp heq word hword)

theorem seBoolngrams_spec (hidx : Distinct idx) (hbuffer : ngramSize snowballStemType < NGRAM_BUFFER)
    (beyond : ℕ → ℕ → UInt8) (insearchstring : Term) (relation : ℤ) :
    ∃ found, seBoolngrams normalizeKey snowballStemType idx beyond insearchstring relation =
        .ok found ∧
      ((resultHits found).map WeightedEntry.recordNum).Nodup ∧
      ∀ record weight, (∃ entry ∈ resultHits found,
          entry.recordNum = record ∧ entry.weight = weight) ↔
        let steps := searchSteps normalizeKey snowballStemType idx insearchstring relation
        0 < record ∧ steps.length < 2 * weightOf idx steps record ∧
          weight = weightOf idx steps record / steps.length := by
  have hnone (hsteps : searchSteps normalizeKey snowballStemType idx insearchstring relation = [])
      (record : ℤ) (weight : ℚ) : (∃ entry ∈ resultHits none,
        entry.recordNum = record ∧ entry.weight = weight) ↔
      let steps := searchSteps normalizeKey snowballStemType idx insearchstring relation
      0 < record ∧ steps.length < 2 * weightOf idx steps record ∧
        weight = weightOf idx steps record / steps.length := by
    simp [resultHits, hsteps, weightOf]
  unfold seBoolngrams
  by_cases hwords : strtok KEYWORD_LETTERS insearchstring = []
  · refine ⟨none, by simp only [hwords, if_true], List.nodup_nil, hnone ?_⟩
    simp [searchSteps, hwords, wordsSteps]
  obtain ⟨s, hs, hcounted⟩ := queryWords_spec normalizeKey hidx (basePoolNum_pos relation)
    (two_le_ngramSize snowballStemType) hbuffer beyond (strtok KEYWORD_LETTERS insearchstring) 0
    counted_empty
  simp only [hwords, if_false, hs]
  by_cases hstop : ((strtok KEYWORD_LETTERS insearchstring).length : ℤ) -
      (strtok KEYWORD_LETTERS insearchstring).countP (fun word ↦ (normalizeKey word).isNone) ≤ 0
  · refine ⟨none, if_pos hstop, List.nodup_nil, hnone ?_⟩
    have hall := normalizeKey_eq_none normalizeKey hstop
    rw [searchSteps, wordsSteps, List.filterMap_eq_nil_iff.mpr hall, List.flatMap_nil]
  · obtain ⟨wtRes, hresult, hperm⟩ := ngramResult_spec s
    refine ⟨some wtRes, ?_, ?_, ?_⟩
    · refine (if_neg hstop).trans ?_
      rw [hresult]
      rfl
    · exact ((hperm.map _).nodup_iff).mpr (nodup_ngramHits _ _)
    · intro record weight
      have hlength : s.lookedUp.length =
          (searchSteps normalizeKey snowballStemType idx insearchstring relation).length := by
        rw [hcounted.lookedUp, List.length_map]
        rfl
      have hget := hcounted.hash record
      rw [List.nil_append] at hget
      have hle : s.hash.get record ≤ s.lookedUp.length := by
        rw [hget, hlength]
        split
        · exact weightOf_le_length _ _ _
        · exact Nat.zero_le _
      have hiff := mem_ngramHits_iff s.hash record weight hle
      rw [hlength] at hiff hperm
      have hmem : (∃ entry ∈ wtRes.hits, entry.recordNum = record ∧ entry.weight = weight) ↔ _ :=
        (exists_congr fun entry ↦ and_congr_left' hperm.mem_iff).trans hiff
      rw [resultHits, Option.elim_some, hmem, hget]
      by_cases hpos : 0 < record
      · simp only [hpos, if_true, true_and]
        rfl
      · simp [hpos]

theorem lookedUp_of_stored (hidx : Distinct idx) (hbuffer : ngramSize snowballStemType < NGRAM_BUFFER)
    (beyond : ℕ → UInt8) (relation : ℤ) (word : FileIo.CString) :
    ∃ stored searched,
      indexWord (ngramSize snowballStemType) NgramTable.empty word = .ok stored ∧
      queryWord idx (ngramSize snowballStemType) (basePoolNum relation) word beyond
        NgramSearch.empty = .ok searched ∧
      ∀ ngram, searched.lookedUp.count ngram =
        if ngram ∈ FILTER_NGRAMS then 0 else stored.hash.get ngram := by
  have hsize := two_le_ngramSize snowballStemType
  obtain ⟨stored, hstored, hhash⟩ := indexWord_spec hsize hbuffer NgramTable.empty word
  obtain ⟨searched, hsearched, hcounted⟩ := queryWord_spec hidx (basePoolNum_pos relation) hsize
    hbuffer beyond word counted_empty
  refine ⟨stored, searched, hstored, hsearched, ?_⟩
  intro ngram
  have hempty : NgramTable.empty.hash.get ngram = 0 := rfl
  rw [hcounted.lookedUp, List.nil_append, wordSteps, map_fst_pooled, queryNgrams, hhash,
    Tally.get_foldl_bump, hempty, Nat.zero_add]
  by_cases hfilter : ngram ∈ FILTER_NGRAMS
  · rw [if_pos hfilter, List.count_eq_zero]
    intro hmem
    simpa [hfilter] using (List.mem_filter.mp hmem).2
  · rw [if_neg hfilter, List.count_filter (by simpa using hfilter)]

/-- An index of records that were each added once is searched under the n-grams that it stores, but
for those left out.  A search finds exactly the records with more than half of its n-grams, counted from
the first in an open pool on, each once and with its share as the weight. -/
theorem ngramSearch_iff {live : Live} (hexact : Exact idx live) (hlive : (live.map Prod.fst).Nodup)
    (hbuffer : ngramSize snowballStemType < NGRAM_BUFFER) :
    (∀ word beyond relation, ∃ stored searched,
      indexWord (ngramSize snowballStemType) NgramTable.empty word = .ok stored ∧
      queryWord idx (ngramSize snowballStemType) (basePoolNum relation) word beyond
        NgramSearch.empty = .ok searched ∧
      ∀ ngram, searched.lookedUp.count ngram =
        if ngram ∈ FILTER_NGRAMS then 0 else stored.hash.get ngram) ∧
    ∀ beyond insearchstring relation, ∃ found,
      seBoolngrams normalizeKey snowballStemType idx beyond insearchstring relation = .ok found ∧
      ((resultHits found).map WeightedEntry.recordNum).Nodup ∧
      (∀ entry ∈ resultHits found, entry.weight ≤ 1) ∧
      ∀ record weight, (∃ entry ∈ resultHits found,
          entry.recordNum = record ∧ entry.weight = weight) ↔
        let steps := searchSteps normalizeKey snowballStemType idx insearchstring relation
        0 < record ∧ steps.length < 2 * weightOf idx steps record ∧
          weight = weightOf idx steps record / steps.length := by
  have hidx := distinct_of_exact hexact hlive
  constructor
  · intro word beyond relation
    exact lookedUp_of_stored snowballStemType hidx hbuffer beyond relation word
  · intro beyond insearchstring relation
    obtain ⟨found, hfound, hnodup, hiff⟩ := seBoolngrams_spec normalizeKey snowballStemType hidx
      hbuffer beyond insearchstring relation
    refine ⟨found, hfound, hnodup, ?_, hiff⟩
    intro entry hentry
    obtain ⟨-, -, hweight⟩ := (hiff _ _).mp ⟨entry, hentry, rfl, rfl⟩
    rw [hweight]
    apply div_le_one_of_le₀
    · exact_mod_cast weightOf_le_length _ _ _
    · exact Nat.cast_nonneg _

end Search

/-- The normalization of an index that keeps its words as they are. -/
def keepWord (word : Term) : Option FileIo.CString :=
  if h : ∀ byte ∈ word, byte ≠ 0 then some ⟨word, h⟩ else none

theorem docNumbers_valid : (0 < 1 ∧ 1 ≤ INT_MAX) ∧ 0 < 2 ∧ 2 ≤ INT_MAX := by decide

def firstDoc : RecordNumber := ⟨1, docNumbers_valid.1⟩

def secondDoc : RecordNumber := ⟨2, docNumbers_valid.2⟩

/-- An index of the words `abc` and `bcde`, one in each record. -/
def twoDocs : List NgramDoc := [(firstDoc, [[97, 98, 99]]), (secondDoc, [[98, 99, 100, 101]])]

theorem ngramSearch_twoDocs : ∃ idx found, buildNgrams keepWord 3 0 twoDocs = .ok idx ∧
    seBoolngrams keepWord 3 idx (fun _ _ ↦ 0) [97, 98, 99] 3 = .ok found ∧
      ∀ entry ∈ resultHits found, entry.weight ≤ 1 := by
  obtain ⟨idx, hbuild, hexact⟩ := buildNgrams_exact keepWord (by decide : 2 ≤ 3)
    (by decide) inverted_created_zero twoDocs
  have hlive : ((liveNgrams keepWord 3 twoDocs).map Prod.fst).Nodup := by decide
  obtain ⟨-, hsearch⟩ := ngramSearch_iff keepWord 3 hexact hlive (by decide)
  obtain ⟨found, hfound, -, hweight, -⟩ := hsearch (fun _ _ ↦ 0) [97, 98, 99] 3
  exact ⟨idx, found, hbuild, hfound, hweight⟩

/-- A search for `abcde`: the number of hits, and how many of its n-grams list the second record. -/
def searchTwoDocs : Exec (Option ℤ × ℕ × ℕ) := do
  let idx ← buildNgrams keepWord 3 0 twoDocs
  let found ← seBoolngrams keepWord 3 idx (fun _ _ ↦ 0) [97, 98, 99, 100, 101] 3
  let ngrams := (keepWord [97, 98, 99, 100, 101]).elim [] (queryNgrams 3)
  .ok (found.map WeightedResult.numHits, ngrams.countP (lists idx 2), ngrams.length)

/-- The second record has three of the five n-grams, but the pool is closed when it first comes. -/
theorem ngramSearch_lateRecord : searchTwoDocs = .ok (some 0, 3, 5) := by decide +kernel

end Cheshire.Search
