import Cheshire.Search.WeightedResult
import Cheshire.Zserver.SortComparison

/-!
# Sorting a result set

`SortResults` makes a sort entry of every hit, sorts the entries and writes a new set.  The sort is the
one by all the keys as long as, of every two entries, the key at which the comparison stops orders
them as the keys do together.
-/

namespace Cheshire.Zserver

open Lib Lib.KeyOrder Search
open Std (TransCmp OrientedCmp ReflCmp)

def SORTED_RESULT_SET : ℕ := 1 <<< 8

/-- What is read for a hit, its rank and a key: nothing when a diagnostic is set, else a value or none. -/
abbrev KeyReader := WeightedEntry → ℕ → SortKeySpec → Option (Option CString)

/-- The keys are put into an array of 100; a relation other than ascending and descending is
refused. -/
def gatherKeySpecs : List SortKeySpec → ℕ → Exec Bool
  | [], _ => .ok true
  | spec :: specs, numberOfKeys =>
    if numberOfKeys > 100 then .ok false
    else if spec.sortRelation > 1 then .ok false
    else if numberOfKeys < 100 then gatherKeySpecs specs (numberOfKeys + 1)
    else .error .outOfBounds

section

variable (reader : KeyReader) (specs : List SortKeySpec) (finalSet : WeightedResult)

def sortKey (entry : WeightedEntry) (rank : ℕ) (keys : List (Option CString)) : ResultSortKey :=
  ⟨entry.recordNum, entry.weight, entry.xtra, rank, keyEntries specs keys⟩

/-- The sort fails, too, where a sort field has no value, whatever is to be done for missing values. -/
def readKey (entry : WeightedEntry) (rank : ℕ) (spec : SortKeySpec) : Option (Option CString) := do
  let keydata ← reader entry rank spec
  if spec.sortElement = .sortfield ∧ keydata = none then none else some keydata

/-- `key_list[i]` -/
def buildKey (entry : WeightedEntry) (rank : ℕ) : Option ResultSortKey := do
  let keys ← specs.mapM (readKey reader entry rank)
  some (sortKey specs entry rank keys)

def buildKeyList : List ℕ → Exec (Option (List ResultSortKey))
  | [] => .ok (some [])
  | rank :: ranks => do
    let entry ← finalSet.entryAt rank
    match buildKey reader specs entry rank with
    | none => .ok none
    | some key => do
      let rest ← buildKeyList ranks
      .ok (rest.map (key :: ·))

def sortEntries : Exec (Option (List ResultSortKey)) := do
  let _ ← checkInt (finalSet.numHits + 1)
  buildKeyList reader specs finalSet (List.range finalSet.numHits.toNat)

/-- The hit that a sort entry stands for. -/
def ResultSortKey.entry (key : ResultSortKey) : WeightedEntry :=
  ⟨key.docid, key.vdbPtr, key.docWeight⟩

/-- The new set; its header is copied together with an entry. -/
def sortedResult (sorted : List ResultSortKey) : WeightedResult :=
  { finalSet with
    setid := ""
    resultType := finalSet.resultType ||| SORTED_RESULT_SET
    entries := sorted.map ResultSortKey.entry ++
      (finalSet.entries.take 1 ++ Buffer.calloc WeightedEntry.zero
        (finalSet.numHits + 1).toNat).drop sorted.length }

/-- `SortResults` of one set, up to its storing. -/
def sortResults : Exec (Option WeightedResult) := do
  let accepted ← gatherKeySpecs specs 0
  if accepted = false then .ok none
  else
    match ← sortEntries reader specs finalSet with
    | none => .ok none
    | some keyList => do
      let (sorted, cancelled) ← sortM compareResSrtEntries keyList
      -- after a diagnostic the hits of `out_set` are counted, which was not set
      if cancelled then .error .uninitialized else .ok (some (sortedResult finalSet sorted))

end

section

variable {reader : KeyReader} {specs : List SortKeySpec} {finalSet : WeightedResult}

def ResultSortKey.values (key : ResultSortKey) : List (Option CString) :=
  key.keys.map SortKeyEntry.key

/-- A sort entry has one value, or none, for every key. -/
def Keyed (specs : List SortKeySpec) (key : ResultSortKey) : Prop :=
  key.keys = keyEntries specs key.values

theorem map_key_keyEntries {specs : List SortKeySpec} {keys : List (Option CString)}
    (hlength : keys.length = specs.length) : (keyEntries specs keys).map SortKeyEntry.key = keys := by
  induction specs generalizing keys with
  | nil =>
    rw [List.length_nil, List.length_eq_zero_iff] at hlength
    rw [hlength]
    rfl
  | cons spec specs ih =>
    cases keys with
    | nil => cases hlength
    | cons key keys =>
      rw [List.length_cons, List.length_cons, Nat.add_right_cancel_iff] at hlength
      have hrest := ih hlength
      rw [keyEntries] at hrest ⊢
      rw [List.zipWith_cons_cons, List.map_cons, hrest]

theorem length_of_mapM {α β : Type} {f : α → Option β} {items : List α} {results : List β}
    (h : items.mapM f = some results) : results.length = items.length := by
  induction items generalizing results with
  | nil =>
    rw [List.mapM_nil, Option.pure_def, Option.some.injEq] at h
    rw [← h]
    rfl
  | cons item items ih =>
    rw [List.mapM_cons] at h
    simp only [Option.bind_eq_bind, Option.bind_eq_some_iff, Option.pure_def,
      Option.some.injEq] at h
    obtain ⟨result, -, rest, hrest, rfl⟩ := h
    rw [List.length_cons, List.length_cons, ih hrest]

/-- The sort entries of the hits, each with what is read for it. -/
def keyListOf (reader : KeyReader) (specs : List SortKeySpec) (finalSet : WeightedResult) :
    Option (List ResultSortKey) :=
  finalSet.hits.zipIdx.mapM fun hit ↦ (specs.mapM (reader hit.1 hit.2)).map (sortKey specs hit.1 hit.2)

/-- No sort field is without a value. -/
def Filled : List SortKeySpec → List (Option CString) → Prop :=
  List.Forall₂ fun spec key ↦ spec.sortElement = .sortfield → key ≠ none

theorem mapM_guarded {α β : Type} {f g : α → Option β} {kept : α → β → Prop}
    (h : ∀ item result, f item = some result ↔ g item = some result ∧ kept item result)
    (items : List α) {results : List β} :
    items.mapM f = some results ↔ items.mapM g = some results ∧ List.Forall₂ kept items results := by
  induction items generalizing results with
  | nil =>
    rw [List.mapM_nil, List.mapM_nil, iff_self_and]
    rintro ⟨⟩
    exact .nil
  | cons item items ih =>
    simp only [List.mapM_cons, Option.bind_eq_bind, Option.bind_eq_some_iff, Option.pure_def,
      Option.some.injEq, h, ih]
    constructor
    · rintro ⟨result, ⟨hresult, hkept⟩, rest, ⟨hrest, hall⟩, rfl⟩
      exact ⟨⟨result, hresult, rest, hrest, rfl⟩, .cons hkept hall⟩
    · rintro ⟨⟨result, hresult, rest, hrest, rfl⟩, hall⟩
      obtain ⟨hkept, hall⟩ := List.forall₂_cons.mp hall
      exact ⟨result, ⟨hresult, hkept⟩, rest, ⟨hrest, hall⟩, rfl⟩

theorem readKey_eq_some_iff (entry : WeightedEntry) (rank : ℕ) (spec : SortKeySpec)
    (key : Option CString) :
    readKey reader entry rank spec = some key ↔
      reader entry rank spec = some key ∧ (spec.sortElement = .sortfield → key ≠ none) := by
  rw [readKey, Option.bind_eq_bind, Option.bind_eq_some_iff]
  constructor
  · rintro ⟨keydata, hread, hkey⟩
    split_ifs at hkey with hmissing
    obtain rfl := Option.some.inj hkey
    exact ⟨hread, fun hfield hnone ↦ hmissing ⟨hfield, hnone⟩⟩
  · rintro ⟨hread, hfilled⟩
    exact ⟨key, hread, if_neg fun hmissing ↦ hfilled hmissing.1 hmissing.2⟩

theorem values_sortKey {entry : WeightedEntry} {rank : ℕ} {keys : List (Option CString)}
    (hlength : keys.length = specs.length) : (sortKey specs entry rank keys).values = keys :=
  map_key_keyEntries hlength

theorem buildKey_eq_some_iff (hit : WeightedEntry × ℕ) (key : ResultSortKey) :
    buildKey reader specs hit.1 hit.2 = some key ↔
      (specs.mapM (reader hit.1 hit.2)).map (sortKey specs hit.1 hit.2) = some key ∧
        Filled specs key.values := by
  rw [buildKey, Option.bind_eq_bind, Option.bind_eq_some_iff, Option.map_eq_some_iff]
  simp only [mapM_guarded (readKey_eq_some_iff hit.1 hit.2), Option.some.injEq]
  constructor
  · rintro ⟨keys, ⟨hkeys, hfilled⟩, rfl⟩
    refine ⟨⟨keys, hkeys, rfl⟩, ?_⟩
    rwa [values_sortKey (length_of_mapM hkeys)]
  · rintro ⟨⟨keys, hkeys, rfl⟩, hfilled⟩
    rw [values_sortKey (length_of_mapM hkeys)] at hfilled
    exact ⟨keys, ⟨hkeys, hfilled⟩, rfl⟩

theorem buildKeyList_eq (hset : finalSet.Allocated) (count : ℕ) {first : ℕ}
    (hcount : first + count = finalSet.numHits.toNat) :
    buildKeyList reader specs finalSet (List.range' first count) =
      .ok (((finalSet.hits.drop first).zipIdx first).mapM fun hit ↦ buildKey reader specs hit.1 hit.2) := by
  induction count generalizing first with
  | zero =>
    rw [hset.drop_eq_nil (by omega)]
    rfl
  | succ count ih =>
    obtain ⟨entry, hentry, hdrop⟩ := hset.entryAt (show (first : ℤ) < finalSet.numHits by omega)
    rw [List.range'_succ, buildKeyList, hentry, hdrop, List.zipIdx_cons, List.mapM_cons]
    simp only [bind, Except.bind, @ih (first + 1) (by omega)]
    cases buildKey reader specs entry first with
    | none => rfl
    | some key =>
      cases ((finalSet.hits.drop (first + 1)).zipIdx (first + 1)).mapM
        fun hit ↦ buildKey reader specs hit.1 hit.2 <;> rfl

theorem forall₂_right_iff {α β : Type} {kept : β → Prop} {items : List α} {results : List β}
    (hlength : items.length = results.length) :
    List.Forall₂ (fun _ result ↦ kept result) items results ↔ ∀ result ∈ results, kept result := by
  rw [List.forall₂_iff_get]
  constructor
  · rintro ⟨-, hkept⟩ result hmem
    obtain ⟨index, rfl⟩ := List.mem_iff_get.mp hmem
    exact hkept index.1 (by rw [hlength]; exact index.2) index.2
  · exact fun hkept ↦ ⟨hlength, fun index _ hlt ↦ hkept _ (List.get_mem results ⟨index, hlt⟩)⟩

theorem sortEntries_eq (hset : finalSet.Allocated) (hcounted : finalSet.numHits < INT_MAX) :
    sortEntries reader specs finalSet =
      .ok (finalSet.hits.zipIdx.mapM fun hit ↦ buildKey reader specs hit.1 hit.2) := by
  have hnonneg := hset.nonneg
  have hcheck := checkInt_of_le (by omega) (Int.add_one_le_of_lt hcounted)
  rw [sortEntries, hcheck, List.range_eq_range']
  exact buildKeyList_eq hset _ (Nat.zero_add _)

/-- The sort entries are built where every value is read and no sort field is without one. -/
theorem sortEntries_eq_some_iff (hset : finalSet.Allocated) (hcounted : finalSet.numHits < INT_MAX)
    (keyList : List ResultSortKey) :
    sortEntries reader specs finalSet = .ok (some keyList) ↔
      keyListOf reader specs finalSet = some keyList ∧ ∀ t ∈ keyList, Filled specs t.values := by
  rw [keyListOf, sortEntries_eq hset hcounted, Except.ok.injEq, mapM_guarded buildKey_eq_some_iff]
  refine and_congr_right fun hkeys ↦ forall₂_right_iff (length_of_mapM hkeys).symm

theorem keyed_of_keyListOf {keyList : List ResultSortKey}
    (hkeys : keyListOf reader specs finalSet = some keyList) :
    (∀ key ∈ keyList, Keyed specs key) ∧ keyList.map ResultSortKey.entry = finalSet.hits := by
  have hspec {hits : List (WeightedEntry × ℕ)} {keys : List ResultSortKey}
      (hkeys : (hits.mapM fun hit ↦ (specs.mapM (reader hit.1 hit.2)).map (sortKey specs hit.1 hit.2)) =
        some keys) :
      (∀ key ∈ keys, Keyed specs key) ∧ keys.map ResultSortKey.entry = hits.map Prod.fst := by
    induction hits generalizing keys with
    | nil =>
      obtain rfl : [] = keys := Option.some.inj hkeys
      exact ⟨List.forall_mem_nil _, rfl⟩
    | cons hit hits ih =>
      rw [List.mapM_cons] at hkeys
      simp only [Option.bind_eq_bind, Option.bind_eq_some_iff, Option.pure_def, Option.some.injEq,
        Option.map_eq_some_iff] at hkeys
      obtain ⟨key, ⟨values, hvalues, rfl⟩, rest, hrest, rfl⟩ := hkeys
      obtain ⟨hkeyed, hentries⟩ := ih hrest
      have hfirst : Keyed specs (sortKey specs hit.1 hit.2 values) := by
        rw [Keyed, values_sortKey (length_of_mapM hvalues)]
        rfl
      exact ⟨List.forall_mem_cons.mpr ⟨hfirst, hkeyed⟩, congrArg (hit.1 :: ·) hentries⟩
  obtain ⟨hkeyed, hentries⟩ := hspec hkeys
  exact ⟨hkeyed, hentries.trans (List.zipIdx_map_fst ..)⟩

theorem gatherKeySpecs_spec : ∀ {specs : List SortKeySpec} {numberOfKeys : ℕ},
    numberOfKeys ≤ 100 → (∀ spec ∈ specs, spec.sortRelation ≤ 1) →
    gatherKeySpecs specs numberOfKeys =
      if specs.length + numberOfKeys ≤ 100 then .ok true else .error .outOfBounds
  | [], numberOfKeys, hnumber, _ => by
    rw [gatherKeySpecs, List.length_nil, Nat.zero_add, if_pos hnumber]
  | spec :: specs, numberOfKeys, hnumber, hdirections => by
    have hrelation := hdirections spec List.mem_cons_self
    rw [gatherKeySpecs, if_neg (by omega), if_neg (by omega), List.length_cons]
    by_cases hroom : numberOfKeys < 100
    · rw [if_pos hroom, gatherKeySpecs_spec (by omega)
        fun other hmem ↦ hdirections other (List.mem_cons_of_mem _ hmem)]
      simp only [show specs.length + (numberOfKeys + 1) = specs.length + 1 + numberOfKeys by omega]
    · rw [if_neg hroom, if_neg (by omega)]

end

section

variable (reader : KeyReader) (specs : List SortKeySpec) (finalSet : WeightedResult)
  (keyList : List ResultSortKey)

/-- The comparison of the entries is a total preorder, the one by all the keys. -/
structure Consistent (comparison : ResultSortKey → ResultSortKey → ℤ) : Prop where
  returned : ∀ t1 ∈ keyList, ∀ t2 ∈ keyList,
    compareResSrtEntries t1 t2 = .ok (comparison t1 t2, false)
  lexicographic : ∀ t1 ∈ keyList, ∀ t2 ∈ keyList,
    compare (comparison t1 t2) 0 = lexOrder specs t1.values t2.values
  refl : ∀ t ∈ keyList, comparison t t = 0
  antisymm : ∀ t1 ∈ keyList, ∀ t2 ∈ keyList,
    compare (comparison t1 t2) 0 = (compare (comparison t2 t1) 0).swap
  trans : ∀ t1 ∈ keyList, ∀ t2 ∈ keyList, ∀ t3 ∈ keyList, comparison t1 t2 ≤ 0 →
    comparison t2 t3 ≤ 0 → comparison t1 t3 ≤ 0

/-- The new set lists the hits, each as it was, in the order by all the keys. -/
def SortedRight : Prop :=
  ∃ out, ∃ sorted : List ResultSortKey,
    sortResults reader specs finalSet = .ok (some out) ∧ sorted.Perm keyList ∧
    sorted.Pairwise (fun t1 t2 ↦ (lexOrder specs t1.values t2.values).isLE) ∧
    out.hits = sorted.map ResultSortKey.entry ∧ out.hits.Perm finalSet.hits

/-- Where every value is read and none is missing that is to end the sort, the comparison is consistent
and the set is sorted; elsewhere the sort fails. -/
structure SortsRight : Prop where
  sorts : ∀ keyList, keyListOf reader specs finalSet = some keyList →
    (∀ t ∈ keyList, Complete specs t.values) →
    (∃ comparison, Consistent specs keyList comparison) ∧ SortedRight reader specs finalSet keyList
  fails : (∀ keyList, keyListOf reader specs finalSet = some keyList →
    ¬∀ t ∈ keyList, Complete specs t.values) → sortResults reader specs finalSet = .ok none

/-- Of every two entries the key at which the comparison stops, or the last key where it stops at none,
orders them as the keys do together. -/
def Agrees : Prop :=
  ∀ t1 ∈ keyList, ∀ t2 ∈ keyList,
    (stopOrder specs t1.values t2.values).or (lastOrder specs t1.values t2.values none) =
      some (lexOrder specs t1.values t2.values)

/-- There are no more keys than fit into the array, and one entry more than hits can be counted.  Where
no value is missing that is to end the sort, no sort field is without a value and the stopping keys
agree with all the keys; where one is missing, some sort field is. -/
structure SortCondition : Prop where
  atMost : specs.length ≤ 100
  counted : finalSet.numHits < INT_MAX
  complete : ∀ keyList, keyListOf reader specs finalSet = some keyList →
    (∀ t ∈ keyList, Complete specs t.values) →
    (∀ t ∈ keyList, Filled specs t.values) ∧ Agrees specs keyList
  incomplete : ∀ keyList, keyListOf reader specs finalSet = some keyList →
    ¬(∀ t ∈ keyList, Complete specs t.values) → ¬∀ t ∈ keyList, Filled specs t.values

end

section

variable {reader : KeyReader} {specs : List SortKeySpec} {finalSet : WeightedResult}
  {keyList : List ResultSortKey}

/-- The value of a comparison that returns. -/
def comparisonOf (t1 t2 : ResultSortKey) : ℤ :=
  match compareResSrtEntries t1 t2 with
  | .ok (compresult, _) => compresult
  | .error _ => 0

theorem le_zero_iff_isLE (value : ℤ) : value ≤ 0 ↔ (compare value 0).isLE := by
  rw [← compare_le_iff_le]
  cases compare value 0 <;> simp

theorem consistent_comparisonOf
    (hreturns : ∀ t1 ∈ keyList, ∀ t2 ∈ keyList, ∃ compresult,
      compareResSrtEntries t1 t2 = .ok (compresult, false) ∧
        compare compresult 0 = lexOrder specs t1.values t2.values) :
    Consistent specs keyList comparisonOf := by
  have hreturned : ∀ t1 ∈ keyList, ∀ t2 ∈ keyList,
      compareResSrtEntries t1 t2 = .ok (comparisonOf t1 t2, false) ∧
        compare (comparisonOf t1 t2) 0 = lexOrder specs t1.values t2.values := by
    intro t1 ht1 t2 ht2
    obtain ⟨compresult, hrun, hsign⟩ := hreturns t1 ht1 t2 ht2
    have hvalue : comparisonOf t1 t2 = compresult := by
      rw [comparisonOf, hrun]
    rw [hvalue]
    exact ⟨hrun, hsign⟩
  have hsign := fun t1 ht1 t2 ht2 ↦ (hreturned t1 ht1 t2 ht2).2
  refine ⟨fun t1 ht1 t2 ht2 ↦ (hreturned t1 ht1 t2 ht2).1, hsign, ?_, ?_, ?_⟩
  · intro t ht
    rw [← compare_eq_iff_eq, hsign t ht t ht]
    exact @ReflCmp.compare_self _ (lexOrder specs) _ _
  · intro t1 ht1 t2 ht2
    rw [hsign t1 ht1 t2 ht2, hsign t2 ht2 t1 ht1]
    exact @OrientedCmp.eq_swap _ (lexOrder specs) _ _ _
  · intro t1 ht1 t2 ht2 t3 ht3
    rw [le_zero_iff_isLE, le_zero_iff_isLE, le_zero_iff_isLE, hsign t1 ht1 t2 ht2,
      hsign t2 ht2 t3 ht3, hsign t1 ht1 t3 ht3]
    exact @TransCmp.isLE_trans _ (lexOrder specs) _ _ _ _

theorem compareResSrtEntries_spec {t1 t2 : ResultSortKey} (hkeyed1 : Keyed specs t1)
    (hkeyed2 : Keyed specs t2) (h1 : Complete specs t1.values) (h2 : Complete specs t2.values) :
    Compares (compareResSrtEntries t1 t2) ((stopOrder specs t1.values t2.values).or
      (lastOrder specs t1.values t2.values none)) := by
  rw [compareResSrtEntries, hkeyed1, hkeyed2]
  exact compareKeys_spec h1 h2 none

theorem sortResults_ne_none (hdirections : ∀ spec ∈ specs, spec.sortRelation ≤ 1)
    (hbuilt : sortEntries reader specs finalSet = .ok (some keyList)) :
    sortResults reader specs finalSet ≠ .ok none := by
  rw [sortResults, gatherKeySpecs_spec (Nat.zero_le _) hdirections]
  split_ifs with hroom
  · simp only [hbuilt, bind, Except.bind, Bool.true_eq_false, if_false]
    cases sortM compareResSrtEntries keyList with
    | error fault => simp
    | ok result =>
      obtain ⟨sorted, cancelled⟩ := result
      cases cancelled <;> simp
  · simp [bind, Except.bind]

theorem isLE_total (keys1 keys2 : List (Option CString)) :
    (lexOrder specs keys1 keys2).isLE ∨ (lexOrder specs keys2 keys1).isLE := by
  rw [@OrientedCmp.eq_swap _ (lexOrder specs) _ keys2 keys1]
  cases lexOrder specs keys1 keys2 <;> simp

theorem sortedRight_of_comparisons (hset : finalSet.Allocated)
    (hdirections : ∀ spec ∈ specs, spec.sortRelation ≤ 1) (hroom : specs.length ≤ 100)
    (hbuilt : sortEntries reader specs finalSet = .ok (some keyList))
    (hentries : keyList.map ResultSortKey.entry = finalSet.hits)
    (hreturns : ∀ t1 ∈ keyList, ∀ t2 ∈ keyList, ∃ compresult,
      compareResSrtEntries t1 t2 = .ok (compresult, false) ∧
        compare compresult 0 = lexOrder specs t1.values t2.values) :
    SortedRight reader specs finalSet keyList := by
  let precedes (t1 t2 : ResultSortKey) : Prop := (lexOrder specs t1.values t2.values).isLE
  have hsort : sortM compareResSrtEntries keyList =
      .ok (keyList.insertionSort precedes, false) := by
    refine sortM_eq precedes fun t1 ht1 t2 ht2 ↦ ?_
    obtain ⟨compresult, hrun, hsign⟩ := hreturns t1 ht1 t2 ht2
    exact ⟨compresult, hrun, by rw [le_zero_iff_isLE, hsign]⟩
  have hgather : gatherKeySpecs specs 0 = .ok true := by
    rw [gatherKeySpecs_spec (Nat.zero_le _) hdirections]
    exact if_pos hroom
  have hperm := List.perm_insertionSort precedes keyList
  have hlength : (keyList.insertionSort precedes).length = finalSet.numHits.toNat := by
    rw [hperm.length_eq, ← hset.length_hits, ← hentries, List.length_map]
  have hhits : (sortedResult finalSet (keyList.insertionSort precedes)).hits =
      (keyList.insertionSort precedes).map ResultSortKey.entry := by
    rw [WeightedResult.hits, sortedResult]
    exact List.take_left' (by rw [List.length_map, hlength])
  refine ⟨_, keyList.insertionSort precedes, ?_, hperm, ?_, hhits, ?_⟩
  · simp only [sortResults, hgather, hbuilt, hsort, bind, Except.bind, Bool.true_eq_false, if_false,
      Bool.false_eq_true]
  · have htotal : Std.Total precedes := ⟨fun t1 t2 ↦ isLE_total t1.values t2.values⟩
    have htrans : IsTrans ResultSortKey precedes :=
      ⟨fun t1 t2 t3 ↦ @TransCmp.isLE_trans _ (lexOrder specs) _ _ _ _⟩
    exact List.pairwise_insertionSort precedes keyList
  · rw [hhits, ← hentries]
    exact hperm.map _

theorem sortResults_eq_none (hdirections : ∀ spec ∈ specs, spec.sortRelation ≤ 1)
    (hroom : specs.length ≤ 100) (hbuilt : sortEntries reader specs finalSet = .ok none) :
    sortResults reader specs finalSet = .ok none := by
  have hgather : gatherKeySpecs specs 0 = .ok true := by
    rw [gatherKeySpecs_spec (Nat.zero_le _) hdirections]
    exact if_pos hroom
  rw [sortResults, hgather, hbuilt]
  rfl

/-- A sort that returns has an array for its keys and counts its entries. -/
theorem room_of_sortResults (hdirections : ∀ spec ∈ specs, spec.sortRelation ≤ 1)
    {result : Option WeightedResult} (hrun : sortResults reader specs finalSet = .ok result) :
    specs.length ≤ 100 ∧ finalSet.numHits < INT_MAX := by
  rw [sortResults, gatherKeySpecs_spec (Nat.zero_le _) hdirections, Nat.add_zero] at hrun
  split_ifs at hrun with hroom
  · refine ⟨hroom, ?_⟩
    obtain ⟨accepted, haccepted, hrun⟩ := bind_eq_ok.mp hrun
    obtain rfl := Except.ok.inj haccepted
    obtain ⟨built, hbuilt, -⟩ := bind_eq_ok.mp hrun
    obtain ⟨size, hsize, -⟩ := bind_eq_ok.mp hbuilt
    rw [checkInt] at hsize
    split_ifs at hsize with hfits
    rw [INT_MAX]
    omega
  · cases hrun

theorem sortsRight_returns (h : SortsRight reader specs finalSet) :
    ∃ result, sortResults reader specs finalSet = .ok result := by
  by_cases hkeys : ∃ keyList, keyListOf reader specs finalSet = some keyList ∧
      ∀ t ∈ keyList, Complete specs t.values
  · obtain ⟨keyList, hkeys, hcomplete⟩ := hkeys
    obtain ⟨-, out, -, hout, -⟩ := h.sorts keyList hkeys hcomplete
    exact ⟨some out, hout⟩
  · exact ⟨none, h.fails fun keyList hlist hcomplete ↦ hkeys ⟨keyList, hlist, hcomplete⟩⟩

/-- Where the comparisons return what the keys say, the stopping keys agree with all the keys. -/
theorem agrees_of_consistent {comparison : ResultSortKey → ResultSortKey → ℤ}
    (hkeyed : ∀ t ∈ keyList, Keyed specs t) (hcomplete : ∀ t ∈ keyList, Complete specs t.values)
    (hconsistent : Consistent specs keyList comparison) : Agrees specs keyList := by
  intro t1 ht1 t2 ht2
  have hspec := compareResSrtEntries_spec (hkeyed t1 ht1) (hkeyed t2 ht2) (hcomplete t1 ht1)
    (hcomplete t2 ht2)
  have hrun := hconsistent.returned t1 ht1 t2 ht2
  cases horder : (stopOrder specs t1.values t2.values).or
      (lastOrder specs t1.values t2.values none) with
  | none =>
    rw [horder, Compares, hrun] at hspec
    cases hspec
  | some order =>
    rw [horder] at hspec
    obtain ⟨compresult, hrun', hsign⟩ := hspec
    rw [hrun, Except.ok.injEq, Prod.mk.injEq] at hrun'
    rw [← hconsistent.lexicographic t1 ht1 t2 ht2, hrun'.1, hsign]

theorem comparisons_of_agrees (hkeyed : ∀ t ∈ keyList, Keyed specs t)
    (hcomplete : ∀ t ∈ keyList, Complete specs t.values) (hagrees : Agrees specs keyList) :
    ∀ t1 ∈ keyList, ∀ t2 ∈ keyList, ∃ compresult,
      compareResSrtEntries t1 t2 = .ok (compresult, false) ∧
        compare compresult 0 = lexOrder specs t1.values t2.values := by
  intro t1 ht1 t2 ht2
  have hspec := compareResSrtEntries_spec (hkeyed t1 ht1) (hkeyed t2 ht2) (hcomplete t1 ht1)
    (hcomplete t2 ht2)
  rwa [hagrees t1 ht1 t2 ht2] at hspec

theorem sortEntries_returns (hset : finalSet.Allocated) (hcounted : finalSet.numHits < INT_MAX) :
    ∃ built, sortEntries reader specs finalSet = .ok built :=
  ⟨_, sortEntries_eq hset hcounted⟩

/-- Sorting is right if and only if the condition holds. -/
theorem sortResults_right_iff (reader : KeyReader) (specs : List SortKeySpec)
    (hdirections : ∀ spec ∈ specs, spec.sortRelation ≤ 1) (finalSet : WeightedResult)
    (hset : finalSet.Allocated) :
    SortsRight reader specs finalSet ↔ SortCondition reader specs finalSet := by
  constructor
  · intro hright
    obtain ⟨result, hrun⟩ := sortsRight_returns hright
    obtain ⟨hroom, hcounted⟩ := room_of_sortResults hdirections hrun
    have hbuilt (keyList : List ResultSortKey) :=
      @sortEntries_eq_some_iff reader specs _ hset hcounted keyList
    refine ⟨hroom, hcounted, fun keyList hkeys hcomplete ↦ ⟨?_, ?_⟩, fun keyList hkeys hmissing hfilled ↦ ?_⟩
    · obtain ⟨-, out, sorted, hout, -⟩ := hright.sorts keyList hkeys hcomplete
      obtain ⟨built, hentries⟩ := @sortEntries_returns reader specs _ hset hcounted
      cases built with
      | none =>
        rw [sortResults_eq_none hdirections hroom hentries] at hout
        cases hout
      | some built =>
        obtain ⟨hlist, hfilled⟩ := (hbuilt built).mp hentries
        obtain rfl := Option.some.inj (hlist.symm.trans hkeys)
        exact hfilled
    · obtain ⟨⟨comparison, hconsistent⟩, -⟩ := hright.sorts keyList hkeys hcomplete
      exact agrees_of_consistent (keyed_of_keyListOf hkeys).1 hcomplete hconsistent
    · refine sortResults_ne_none hdirections ((hbuilt keyList).mpr ⟨hkeys, hfilled⟩)
        (hright.fails fun other hother hcomplete ↦ ?_)
      obtain rfl := Option.some.inj (hkeys.symm.trans hother)
      exact hmissing hcomplete
  · intro hcond
    have hbuilt (keyList : List ResultSortKey) :=
      @sortEntries_eq_some_iff reader specs _ hset hcond.counted keyList
    refine ⟨fun keyList hkeys hcomplete ↦ ?_, fun hnone ↦ ?_⟩
    · obtain ⟨hfilled, hagrees⟩ := hcond.complete keyList hkeys hcomplete
      obtain ⟨hkeyed, hentries⟩ := keyed_of_keyListOf hkeys
      have hreturns := comparisons_of_agrees hkeyed hcomplete hagrees
      exact ⟨⟨_, consistent_comparisonOf hreturns⟩, sortedRight_of_comparisons hset hdirections
        hcond.atMost ((hbuilt keyList).mpr ⟨hkeys, hfilled⟩) hentries hreturns⟩
    · apply sortResults_eq_none hdirections hcond.atMost
      obtain ⟨built, hentries⟩ := @sortEntries_returns reader specs _ hset hcond.counted
      cases built with
      | none => exact hentries
      | some built =>
        obtain ⟨hkeys, hfilled⟩ := (hbuilt built).mp hentries
        exact absurd hfilled (hcond.incomplete built hkeys (hnone built hkeys))

end

def ascendingKey (caseSensitivity : ℤ) : SortKeySpec := ⟨.sortAttributes, 0, caseSensitivity, .nullVal⟩

/-- Under the first key all records have one value, under the second the record 1 comes after the
others. -/
def exampleReader : KeyReader := fun entry _ spec ↦
  some (some (if spec.caseSensitivity = 0 ∧ entry.recordNum = 1 then ⟨[98], by decide⟩
    else ⟨[97], by decide⟩))

def twoRecords : WeightedResult := WeightedResult.ofRecords "DB" [1, 2]

theorem allocated_twoRecords : twoRecords.Allocated := by
  constructor <;> simp [twoRecords, WeightedResult.ofRecords]

def exampleKey (specs : List SortKeySpec) (entry : WeightedEntry) (rank : ℕ) : ResultSortKey :=
  sortKey specs entry rank (specs.map fun spec ↦ (exampleReader entry rank spec).join)

theorem sortResults_right_oneKey : SortsRight exampleReader [ascendingKey 0] twoRecords := by
  refine (sortResults_right_iff exampleReader [ascendingKey 0] (by decide) twoRecords
    allocated_twoRecords).mpr ⟨by decide, by decide, fun keyList hkeys _ ↦ ?_, fun keyList hkeys hnot ↦ ?_⟩
  · obtain rfl : [exampleKey [ascendingKey 0] ⟨1, 0, 1⟩ 0, exampleKey [ascendingKey 0] ⟨2, 0, 1⟩ 1] =
        keyList := Option.some.inj hkeys
    refine ⟨?_, by rw [Agrees]; decide⟩
    simp only [List.mem_cons, List.not_mem_nil, or_false, forall_eq_or_imp, forall_eq]
    exact ⟨.cons (fun _ hnone ↦ by cases hnone) .nil, .cons (fun _ hnone ↦ by cases hnone) .nil⟩
  · obtain rfl : [exampleKey [ascendingKey 0] ⟨1, 0, 1⟩ 0, exampleKey [ascendingKey 0] ⟨2, 0, 1⟩ 1] =
        keyList := Option.some.inj hkeys
    refine absurd ?_ hnot
    simp only [List.mem_cons, List.not_mem_nil, or_false, forall_eq_or_imp, forall_eq]
    exact ⟨.cons (fun _ hnone ↦ by cases hnone) .nil, .cons (fun _ hnone ↦ by cases hnone) .nil⟩

/-- A tie under the first key is returned, whatever the second one says. -/
theorem sortResults_wrong_twoKeys :
    ¬SortsRight exampleReader [ascendingKey 1, ascendingKey 0] twoRecords := by
  intro hright
  have hkeys : keyListOf exampleReader [ascendingKey 1, ascendingKey 0] twoRecords =
      some [exampleKey [ascendingKey 1, ascendingKey 0] ⟨1, 0, 1⟩ 0,
        exampleKey [ascendingKey 1, ascendingKey 0] ⟨2, 0, 1⟩ 1] := rfl
  have hcomplete : ∀ t ∈ [exampleKey [ascendingKey 1, ascendingKey 0] ⟨1, 0, 1⟩ 0,
      exampleKey [ascendingKey 1, ascendingKey 0] ⟨2, 0, 1⟩ 1],
      Complete [ascendingKey 1, ascendingKey 0] t.values := by
    simp only [List.mem_cons, List.not_mem_nil, or_false, forall_eq_or_imp, forall_eq]
    refine ⟨.cons ?_ (.cons ?_ .nil), .cons ?_ (.cons ?_ .nil)⟩ <;>
      exact fun _ hnone ↦ by cases hnone
  obtain ⟨⟨comparison, hconsistent⟩, -⟩ := hright.sorts _ hkeys hcomplete
  have hreturned := hconsistent.returned _ List.mem_cons_self _
    (List.mem_cons_of_mem _ List.mem_cons_self)
  have hsign := hconsistent.lexicographic _ List.mem_cons_self _
    (List.mem_cons_of_mem _ List.mem_cons_self)
  have htie : compareResSrtEntries (exampleKey [ascendingKey 1, ascendingKey 0] ⟨1, 0, 1⟩ 0)
      (exampleKey [ascendingKey 1, ascendingKey 0] ⟨2, 0, 1⟩ 1) = .ok (0, false) := by
    decide
  rw [htie, Except.ok.injEq, Prod.mk.injEq] at hreturned
  rw [← hreturned.1] at hsign
  exact absurd hsign (by decide)

end Cheshire.Zserver
