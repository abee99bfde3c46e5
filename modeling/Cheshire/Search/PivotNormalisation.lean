import Cheshire.Search.MergeBounds
import Cheshire.Search.ProximityMerge

/-!
# The weights of the pivot merge

`se_pivot_doc_normalize` gives each entry of its first set a mean of its own normalised weight and
of the normalised weight of its document in the second set.  Both are taken between the bounds of
their sets, and the document of a component that its file does not have is the one that was looked
for before.
-/

namespace Cheshire.Search

open Lib
open Index (ComponentKey ComponentDataItem)

/-- The operands: ranked sets with true bounds, the second one of documents of one database. -/
structure PivotOperands (compset inset2 : WeightedResult) : Prop where
  compset_allocated : compset.Allocated
  compset_ranked : compset.has RANKED_FLAGS = true
  compset_bounds : HasBounds compset
  compset_component : compset.has COMPONENT_RESULT = true → compset.component ≠ none
  docs_allocated : inset2.Allocated
  docs_ranked : inset2.has RANKED_FLAGS = true
  docs_bounds : HasBounds inset2
  docs_distinct : inset2.recordNums.Nodup
  docs_plain : ∀ entry ∈ inset2.hits, entry.xtra = 0

/-- The component definition whose file names the documents of the entries. -/
def componentOf (compset : WeightedResult) : Option ℕ :=
  if compset.has COMPONENT_RESULT then compset.component else none

/-- The document of an entry; a component that its file does not have is in none. -/
def ownDocument (get : ℕ → ComponentKey → DbReply) (component : Option ℕ) (entry : WeightedEntry) :
    Option ℤ :=
  match component with
  | some comp =>
    match get comp (.component entry.recordNum) with
    | .found compData => some compData.recordId
    | _ => none
  | none => some entry.recordNum

/-- The normalised weight of a document in a set, zero when it is not there. -/
def documentScore (docset : WeightedResult) (document : Option ℤ) : ℚ :=
  match document.bind fun record ↦ docset.hits.find? fun entry ↦ entry.recordNum = record with
  | none => 0
  | some entry => (entry.weight - docset.minWeight) / (docset.maxWeight - docset.minWeight)

/-- The mean of the scores of an entry and of a document. -/
def pivotMean (distance : ℤ) (compset docset : WeightedResult) (document : Option ℤ)
    (entry : WeightedEntry) : ℚ :=
  pivotVal distance * documentScore docset document +
    (1 - pivotVal distance) * seMinMaxNorm compset entry

/-- The divisors of the divisions that the run makes, in order. -/
def pivotDivisors (get : ℕ → ComponentKey → DbReply) (component : Option ℕ)
    (compset docset : WeightedResult) : List WeightedEntry → ℤ → List ℚ
  | [], _ => []
  | entry :: entries, recordId =>
    (if compset.has RANKED_FLAGS then [compset.maxWeight - compset.minWeight] else []) ++
      match pivotRecord get component entry recordId with
      | none => []
      | some recordId =>
        (match docset.hits.find? fun entry ↦ entry.recordNum = recordId ∧ entry.xtra = 0 with
          | none => []
          | some _ => [docset.maxWeight - docset.minWeight]) ++
          pivotDivisors get component compset docset entries recordId

/-- The new set has the entries of the first one in their order, each with the mean for its own
document and inside the unit interval, and nothing was divided by zero. -/
structure PivotNormalised (get : ℕ → ComponentKey → DbReply) (distance : ℤ)
    (compset inset2 newset : WeightedResult) : Prop where
  numHits_eq : newset.numHits = compset.numHits
  scores_eq : newset.hits.map (fun entry ↦ (entry.recordNum, entry.weight)) =
    compset.hits.map fun entry ↦ (entry.recordNum,
      pivotMean distance compset inset2 (ownDocument get (componentOf compset) entry) entry)
  unit : ∀ entry ∈ newset.hits, entry.weight ∈ Set.Icc 0 1
  defined : ∀ divisor ∈ pivotDivisors get (componentOf compset) compset (seSortwtset inset2)
    compset.hits 0, divisor ≠ 0

/-- Along the entries: the file answers, the second set has two weights whenever the document that
is looked for is in it, and the document looked for in place of a missing one does not count. -/
def PivotSound (get : ℕ → ComponentKey → DbReply) (component : Option ℕ)
    (docset : WeightedResult) : List WeightedEntry → ℤ → Prop
  | [], _ => True
  | entry :: entries, recordId =>
    match pivotRecord get component entry recordId with
    | none => False
    | some recordId =>
      (recordId ∈ docset.recordNums → docset.minWeight ≠ docset.maxWeight) ∧
        (ownDocument get component entry = none →
          ∀ doc ∈ docset.hits, doc.recordNum = recordId → doc.weight = docset.minWeight) ∧
        PivotSound get component docset entries recordId

theorem pivotVal_mem (distance : ℤ) : pivotVal distance ∈ Set.Ioo 0 1 := by
  unfold pivotVal
  split
  · rename_i h
    have hpos : (0 : ℚ) < distance := by exact_mod_cast h.1
    have hlt : (distance : ℚ) < 100 := by exact_mod_cast h.2
    constructor
    · positivity
    · rw [div_lt_one (by norm_num)]
      exact hlt
  · split
    · rename_i h
      have hpos : (100 : ℚ) < distance := by exact_mod_cast h.1
      have hlt : (distance : ℚ) < 1000 := by exact_mod_cast h.2
      constructor
      · have : (0 : ℚ) < distance := by linarith only [hpos]
        positivity
      · rw [div_lt_one (by norm_num)]
        exact hlt
    · constructor <;> norm_num

section Search

variable {set : WeightedResult}

theorem hit_unique (hdistinct : set.recordNums.Nodup) {first second : WeightedEntry}
    (hfirst : first ∈ set.hits) (hsecond : second ∈ set.hits)
    (heq : first.recordNum = second.recordNum) : first = second :=
  List.inj_on_of_nodup_map hdistinct hfirst hsecond heq

theorem find?_hits_eq_some (hdistinct : set.recordNums.Nodup) {record : ℤ} {doc : WeightedEntry} :
    (set.hits.find? fun entry ↦ entry.recordNum = record) = some doc ↔
      doc ∈ set.hits ∧ doc.recordNum = record := by
  constructor
  · intro h
    exact ⟨List.mem_of_find?_eq_some h, by simpa using List.find?_some h⟩
  · rintro ⟨hmem, hrecord⟩
    have hfound : (set.hits.find? fun entry ↦ entry.recordNum = record).isSome := by
      rw [List.find?_isSome]
      exact ⟨doc, hmem, by simpa using hrecord⟩
    obtain ⟨other, hother⟩ := Option.isSome_iff_exists.mp hfound
    have hrecord' : other.recordNum = record := by simpa using List.find?_some hother
    rw [hother, hit_unique hdistinct (List.mem_of_find?_eq_some hother) hmem
      (hrecord'.trans hrecord.symm)]

theorem find?_seSortwtset (halloc : set.Allocated) (hdistinct : set.recordNums.Nodup)
    (hplain : ∀ entry ∈ set.hits, entry.xtra = 0) (record : ℤ) :
    ((seSortwtset set).hits.find? fun entry ↦ entry.recordNum = record ∧ entry.xtra = 0) =
      set.hits.find? fun entry ↦ entry.recordNum = record := by
  have hperm : (seSortwtset set).hits.Perm set.hits := by
    rw [seSortwtset, halloc.hits_qsort]
    exact List.perm_insertionSort _ _
  have hsorted : (seSortwtset set).recordNums.Nodup :=
    (halloc.perm_recordNums_qsort compareWtEntries).nodup_iff.mpr hdistinct
  have hfind : ((seSortwtset set).hits.find? fun entry ↦
      entry.recordNum = record ∧ entry.xtra = 0) =
      (seSortwtset set).hits.find? fun entry ↦ entry.recordNum = record := by
    apply List.find?_congr
    intro entry hentry
    simp [hplain entry (hperm.mem_iff.mp hentry)]
  rw [hfind]
  apply List.find?_eq_find?_of_perm hperm
  intro first hfirst second hsecond
  apply hit_unique hsorted hfirst.1 hsecond.1
  exact (by simpa using hfirst.2 : first.recordNum = record).trans
    (by simpa using hsecond.2 : second.recordNum = record).symm

end Search

variable {recordId : ℤ}

section Loop

variable {get : ℕ → ComponentKey → DbReply} {component : Option ℕ} {distance : ℤ}
  {compset docset : WeightedResult} {total : ℕ}

/-- The entries that the loop writes for these entries of the first set, unless the file fails. -/
def pivotEntries (get : ℕ → ComponentKey → DbReply) (distance : ℤ) (component : Option ℕ)
    (compset docset : WeightedResult) : List WeightedEntry → ℤ → Option (List WeightedEntry)
  | [], _ => some []
  | entry :: entries, recordId =>
    (pivotRecord get component entry recordId).bind fun recordId ↦
      (pivotEntries get distance component compset docset entries recordId).map fun rest ↦
        ⟨entry.recordNum, 0, pivotWeight docset distance recordId (seMinMaxNorm compset entry)⟩ ::
          rest

theorem pivotLoop_spec (halloc : compset.Allocated) (n i : ℕ) (hn : i + n = compset.numHits.toNat)
    (recordId : ℤ) {newset : NewSet} {out : List WeightedEntry} (hfilled : newset.Filled total out)
    (htotal : out.length + n ≤ total) :
    match pivotEntries get distance component compset docset (compset.hits.drop i) recordId with
    | none => pivotLoop get distance component compset docset (List.range' i n) recordId newset =
        .ok none
    | some entries => ∃ result, pivotLoop get distance component compset docset (List.range' i n)
        recordId newset = .ok (some result) ∧ result.Filled total (out ++ entries) := by
  induction n generalizing i recordId newset out with
  | zero =>
    have hnil := halloc.drop_eq_nil (show ¬(i : ℤ) < compset.numHits by omega)
    rw [hnil]
    exact ⟨newset, rfl, by simpa using hfilled⟩
  | succ n ih =>
    obtain ⟨entry, hentry, hdrop⟩ := halloc.entryAt (show (i : ℤ) < compset.numHits by omega)
    rw [hdrop, pivotEntries, List.range'_succ, pivotLoop, hentry]
    simp only [bind, Except.bind]
    cases hrecord : pivotRecord get component entry recordId with
    | none => rfl
    | some searched =>
      simp only [Option.bind_some]
      obtain ⟨stored, hstore, hstored⟩ := hfilled.put (by omega)
        ⟨entry.recordNum, 0, pivotWeight docset distance searched (seMinMaxNorm compset entry)⟩
      have hrest := ih (i + 1) (by omega) searched (hstored.bound
        (pivotWeight docset distance searched (seMinMaxNorm compset entry)))
        (by rw [List.length_append, List.length_singleton]; omega)
      rw [hstore]
      cases hentries : pivotEntries get distance component compset docset
          (compset.hits.drop (i + 1)) searched with
      | none =>
        rw [hentries] at hrest
        exact hrest
      | some rest =>
        rw [hentries] at hrest
        obtain ⟨result, hrun, hresult⟩ := hrest
        exact ⟨result, hrun, by simpa using hresult⟩

theorem length_pivotEntries {entries results : List WeightedEntry}
    (h : pivotEntries get distance component compset docset entries recordId = some results) :
    results.length = entries.length := by
  induction entries generalizing results recordId with
  | nil =>
    obtain rfl : [] = results := Option.some.inj h
    rfl
  | cons entry entries ih =>
    obtain ⟨searched, -, h⟩ := Option.bind_eq_some_iff.mp h
    obtain ⟨rest, hrest, rfl⟩ := Option.map_eq_some_iff.mp h
    rw [List.length_cons, List.length_cons, ih hrest]

theorem pivotComponent_eq (hcomponent : compset.has COMPONENT_RESULT = true →
    compset.component ≠ none) : pivotComponent compset = .ok (componentOf compset) := by
  unfold pivotComponent componentOf
  split
  · rename_i hflag
    obtain ⟨comp, hcomp⟩ := Option.ne_none_iff_exists'.mp (hcomponent hflag)
    rw [hcomp]
    rfl
  · rfl

theorem pivotNormalize_spec {op : ProximityOperator} {inset2 : WeightedResult}
    (h : PivotOperands compset inset2) :
    match pivotEntries get op.distance (componentOf compset) compset (seSortwtset inset2)
      compset.hits 0 with
    | none => pivotNormalize get op compset inset2 = .ok none
    | some entries => ∃ newset, pivotNormalize get op compset inset2 = .ok (some newset) ∧
        newset.hits = entries ∧ newset.numHits = compset.numHits := by
  have halloc := h.compset_allocated
  have hrun := @pivotLoop_spec get (componentOf compset) op.distance compset
    (seSortwtset inset2) _ halloc compset.numHits.toNat 0
    (by omega) 0 _ _ (NewSet.filled_alloc (compset.numHits.toNat + 1)) (by simp)
  unfold pivotNormalize
  rw [pivotComponent_eq h.compset_component, List.range_eq_range']
  simp only [bind, Except.bind]
  rw [List.drop_zero] at hrun
  cases hentries : pivotEntries get op.distance (componentOf compset) compset (seSortwtset inset2)
      compset.hits 0 with
  | none =>
    rw [hentries] at hrun
    rw [hrun]
  | some entries =>
    rw [hentries] at hrun
    obtain ⟨result, hloop, hfilled⟩ := hrun
    rw [hloop]
    refine ⟨_, rfl, ?_, ?_⟩
    · simp only [WeightedResult.hits, NewSet.finish, hfilled.index_eq, Int.toNat_natCast]
      exact hfilled.holds.take
    · have hlength := length_pivotEntries hentries
      rw [halloc.length_hits] at hlength
      have hnonneg := halloc.nonneg
      simp only [NewSet.finish, hfilled.index_eq, List.nil_append, hlength]
      omega

end Loop

variable {entry : WeightedEntry} {searched : ℤ}

section Entry

variable {get : ℕ → ComponentKey → DbReply} {component : Option ℕ} {distance : ℤ}
  {compset inset2 : WeightedResult}

theorem HasBounds.weight_mem {set : WeightedResult} (h : HasBounds set)
    (hentry : entry ∈ set.hits) : set.minWeight ≤ entry.weight ∧ entry.weight ≤ set.maxWeight := by
  have hweight : entry.weight ∈ set.weights := List.mem_map_of_mem hentry
  have hbounds := h (List.ne_nil_of_mem hentry)
  exact ⟨hbounds.2.2 hweight, hbounds.1.2 hweight⟩

theorem documentScore_mem (hbounds : HasBounds inset2) (document : Option ℤ) :
    documentScore inset2 document ∈ Set.Icc 0 1 := by
  unfold documentScore
  split
  · exact ⟨le_rfl, zero_le_one⟩
  · rename_i doc hdoc
    obtain ⟨record, -, hfind⟩ := Option.bind_eq_some_iff.mp hdoc
    obtain ⟨hmin, hmax⟩ := hbounds.weight_mem (List.mem_of_find?_eq_some hfind)
    have hle := sub_nonneg.mpr (hmin.trans hmax)
    exact ⟨div_nonneg (sub_nonneg.mpr hmin) hle,
      div_le_one_of_le₀ (sub_le_sub_right hmax _) hle⟩

theorem documentScore_eq_zero_iff (hdistinct : inset2.recordNums.Nodup) {record : ℤ}
    (hspread : record ∈ inset2.recordNums → inset2.minWeight ≠ inset2.maxWeight) :
    documentScore inset2 (some record) = 0 ↔
      ∀ doc ∈ inset2.hits, doc.recordNum = record → doc.weight = inset2.minWeight := by
  unfold documentScore
  rw [Option.bind_some]
  split
  · rename_i hnone
    refine iff_of_true rfl fun doc hdoc hrecord ↦ ?_
    have hne := List.find?_eq_none.mp hnone doc hdoc
    exact absurd (by simpa using hrecord) hne
  · rename_i doc hfind
    obtain ⟨hdoc, hrecord⟩ := (find?_hits_eq_some hdistinct).mp hfind
    have hmem : record ∈ inset2.recordNums := List.mem_map.mpr ⟨doc, hdoc, hrecord⟩
    rw [div_eq_zero_iff, or_iff_left (sub_ne_zero.mpr (hspread hmem).symm), sub_eq_zero]
    constructor
    · intro hweight other hother hother'
      rw [hit_unique hdistinct hother hdoc (hother'.trans hrecord.symm)]
      exact hweight
    · intro hall
      exact hall doc hdoc hrecord

theorem pivotWeight_eq (h : PivotOperands compset inset2) (record : ℤ) (compScore : ℚ) :
    pivotWeight (seSortwtset inset2) distance record compScore =
      pivotVal distance * documentScore inset2 (some record) +
        (1 - pivotVal distance) * compScore := by
  unfold pivotWeight documentScore
  rw [find?_seSortwtset h.docs_allocated h.docs_distinct h.docs_plain, Option.bind_some]
  cases hfind : inset2.hits.find? fun entry ↦ entry.recordNum = record with
  | none => simp only [mul_zero, zero_add]
  | some entry => rfl

theorem ownDocument_of_pivotRecord (h : pivotRecord get component entry recordId = some searched) :
    ownDocument get component entry = some searched ∨ ownDocument get component entry = none := by
  cases component with
  | none => exact Or.inl h
  | some comp =>
    simp only [pivotRecord] at h
    simp only [ownDocument]
    cases hget : get comp (.component entry.recordNum) with
    | found compData => exact Or.inl (by rw [hget] at h; exact h)
    | notFound => exact Or.inr rfl
    | failed => rw [hget] at h; cases h

theorem pivotWeight_eq_mean_iff (h : PivotOperands compset inset2)
    (hrecord : pivotRecord get component entry recordId = some searched)
    (hspread : searched ∈ inset2.recordNums → inset2.minWeight ≠ inset2.maxWeight) :
    pivotWeight (seSortwtset inset2) distance searched (seMinMaxNorm compset entry) =
        pivotMean distance compset inset2 (ownDocument get component entry) entry ↔
      (ownDocument get component entry = none →
        ∀ doc ∈ inset2.hits, doc.recordNum = searched → doc.weight = inset2.minWeight) := by
  have hpivot := (pivotVal_mem distance).1.ne'
  rw [pivotWeight_eq h, pivotMean, add_left_inj, mul_right_inj' hpivot]
  rcases ownDocument_of_pivotRecord hrecord with hown | hown
  · rw [hown]
    exact iff_of_true rfl fun hnone ↦ absurd hnone (Option.some_ne_none _)
  · have hzero : documentScore inset2 none = 0 := rfl
    rw [hown, hzero, documentScore_eq_zero_iff h.docs_distinct hspread]
    exact ⟨fun hweights _ ↦ hweights, fun hweights ↦ hweights rfl⟩

theorem searchDivisors_iff (h : PivotOperands compset inset2) (searched : ℤ) (rest : List ℚ) :
    (∀ divisor ∈ (match (seSortwtset inset2).hits.find? fun entry ↦
          entry.recordNum = searched ∧ entry.xtra = 0 with
        | none => []
        | some _ => [(seSortwtset inset2).maxWeight - (seSortwtset inset2).minWeight]) ++ rest,
        divisor ≠ 0) ↔
      (searched ∈ inset2.recordNums → inset2.minWeight ≠ inset2.maxWeight) ∧
        ∀ divisor ∈ rest, divisor ≠ 0 := by
  rw [find?_seSortwtset h.docs_allocated h.docs_distinct h.docs_plain]
  split
  · rename_i hnone
    have hlisted : searched ∉ inset2.recordNums := by
      intro hmem
      obtain ⟨doc, hdoc, hrecord⟩ := List.mem_map.mp hmem
      exact absurd (by simpa using hrecord) (List.find?_eq_none.mp hnone doc hdoc)
    rw [List.nil_append, and_iff_right fun hmem ↦ absurd hmem hlisted]
  · rename_i doc hfind
    obtain ⟨hdoc, hrecord⟩ := (find?_hits_eq_some h.docs_distinct).mp hfind
    have hlisted : searched ∈ inset2.recordNums := List.mem_map.mpr ⟨doc, hdoc, hrecord⟩
    have hrange : (seSortwtset inset2).maxWeight - (seSortwtset inset2).minWeight ≠ 0 ↔
        inset2.minWeight ≠ inset2.maxWeight := by
      rw [sub_ne_zero]
      exact ne_comm
    rw [List.singleton_append, List.forall_mem_cons, hrange, forall_prop_of_true hlisted]

end Entry

section Run

variable {get : ℕ → ComponentKey → DbReply} {compset inset2 : WeightedResult}

/-- What the run over these entries gives: the means for their own documents, and no division by
zero. -/
def MeansFrom (get : ℕ → ComponentKey → DbReply) (distance : ℤ) (component : Option ℕ)
    (compset inset2 : WeightedResult) (entries : List WeightedEntry) (recordId : ℤ) : Prop :=
  ∃ results,
    pivotEntries get distance component compset (seSortwtset inset2) entries recordId =
      some results ∧
    results.map (fun entry ↦ (entry.recordNum, entry.weight)) =
      entries.map (fun entry ↦ (entry.recordNum,
        pivotMean distance compset inset2 (ownDocument get component entry) entry)) ∧
    ∀ divisor ∈ pivotDivisors get component compset (seSortwtset inset2) entries recordId,
      divisor ≠ 0

theorem meansFrom_cons_iff (h : PivotOperands compset inset2) {distance : ℤ} {component : Option ℕ}
    {entries : List WeightedEntry}
    (hrecord : pivotRecord get component entry recordId = some searched) :
    MeansFrom get distance component compset inset2 (entry :: entries) recordId ↔
      compset.minWeight ≠ compset.maxWeight ∧
        (searched ∈ inset2.recordNums → inset2.minWeight ≠ inset2.maxWeight) ∧
        (ownDocument get component entry = none →
          ∀ doc ∈ inset2.hits, doc.recordNum = searched → doc.weight = inset2.minWeight) ∧
        MeansFrom get distance component compset inset2 entries searched := by
  have hdivisors : (∀ divisor ∈ pivotDivisors get component compset (seSortwtset inset2)
      (entry :: entries) recordId, divisor ≠ 0) ↔
      compset.minWeight ≠ compset.maxWeight ∧
        (searched ∈ inset2.recordNums → inset2.minWeight ≠ inset2.maxWeight) ∧
        ∀ divisor ∈ pivotDivisors get component compset (seSortwtset inset2) entries searched,
          divisor ≠ 0 := by
    rw [pivotDivisors, if_pos h.compset_ranked, List.singleton_append, List.forall_mem_cons,
      sub_ne_zero, ne_comm]
    simp only [hrecord]
    rw [searchDivisors_iff h]
  unfold MeansFrom
  simp only [pivotEntries, hrecord, Option.bind_some]
  constructor
  · rintro ⟨results, hresults, hscores, hdefined⟩
    obtain ⟨rest, hrest, rfl⟩ := Option.map_eq_some_iff.mp hresults
    obtain ⟨hown, hspread, hdefined⟩ := hdivisors.mp hdefined
    rw [List.map_cons, List.map_cons, List.cons.injEq, Prod.mk.injEq] at hscores
    have hsound := (pivotWeight_eq_mean_iff h hrecord hspread).mp hscores.1.2
    exact ⟨hown, hspread, hsound, rest, hrest, hscores.2, hdefined⟩
  · rintro ⟨hown, hspread, hsound, rest, hrest, hscores, hdefined⟩
    refine ⟨_, by rw [hrest, Option.map_some], ?_, hdivisors.mpr ⟨hown, hspread, hdefined⟩⟩
    rw [List.map_cons, List.map_cons, hscores,
      (pivotWeight_eq_mean_iff h hrecord hspread).mpr hsound]

theorem meansFrom_iff (h : PivotOperands compset inset2) (distance : ℤ) (component : Option ℕ)
    (entries : List WeightedEntry) (recordId : ℤ) :
    MeansFrom get distance component compset inset2 entries recordId ↔
      (entries ≠ [] → compset.minWeight ≠ compset.maxWeight) ∧
        PivotSound get component inset2 entries recordId := by
  induction entries generalizing recordId with
  | nil =>
    refine iff_of_true ⟨[], rfl, rfl, ?_⟩ ⟨fun hne ↦ absurd rfl hne, trivial⟩
    intro divisor hdivisor
    exact absurd hdivisor List.not_mem_nil
  | cons entry entries ih =>
    cases hrecord : pivotRecord get component entry recordId with
    | none =>
      apply iff_of_false
      · rintro ⟨results, hresults, -⟩
        rw [pivotEntries, hrecord] at hresults
        cases hresults
      · rintro ⟨-, hsound⟩
        simp only [PivotSound, hrecord] at hsound
    | some searched =>
      rw [meansFrom_cons_iff h hrecord, ih searched]
      simp only [PivotSound, hrecord]
      constructor
      · rintro ⟨hown, hspread, hmissing, -, hsound⟩
        exact ⟨fun _ ↦ hown, hspread, hmissing, hsound⟩
      · rintro ⟨hown, hspread, hmissing, hsound⟩
        have hown := hown (List.cons_ne_nil _ _)
        exact ⟨hown, hspread, hmissing, fun _ ↦ hown, hsound⟩

theorem pivotMean_mem (h : PivotOperands compset inset2) (hspread : Spread compset) (distance : ℤ)
    (document : Option ℤ) (hentry : entry ∈ compset.hits) :
    pivotMean distance compset inset2 document entry ∈ Set.Icc 0 1 := by
  obtain ⟨hpos, hlt⟩ := pivotVal_mem distance
  have hdoc := documentScore_mem h.docs_bounds document
  have hown := ((normal_iff_spread h.compset_ranked h.compset_bounds).mpr hspread entry hentry).2
  exact (convex_Icc (0 : ℚ) 1) hdoc hown hpos.le (sub_pos.mpr hlt).le (add_sub_cancel _ _)

/-- `se_pivot_doc_normalize` gives the means in order and divides by no zero exactly when the first
set has two weights or no entries and the search for the documents is sound. -/
theorem pivotNormalised_iff (get : ℕ → ComponentKey → DbReply) (op : ProximityOperator)
    (compset inset2 : WeightedResult) (h : PivotOperands compset inset2) :
    (∃ newset, pivotNormalize get op compset inset2 = .ok (some newset) ∧
        PivotNormalised get op.distance compset inset2 newset) ↔
      Spread compset ∧ PivotSound get (componentOf compset) inset2 compset.hits 0 := by
  have hrun := @pivotNormalize_spec get _ op _ h
  have hmeans := @meansFrom_iff get _ _ h op.distance (componentOf compset) compset.hits 0
  rw [Spread, ← hmeans]
  constructor
  · rintro ⟨newset, hnewset, hnormal⟩
    cases hentries : pivotEntries get op.distance (componentOf compset) compset
        (seSortwtset inset2) compset.hits 0 with
    | none =>
      rw [hentries] at hrun
      rw [hrun] at hnewset
      cases hnewset
    | some entries =>
      rw [hentries] at hrun
      obtain ⟨newset', hnewset', hhits, -⟩ := hrun
      obtain rfl : newset' = newset :=
        Option.some.inj (Except.ok.inj (hnewset'.symm.trans hnewset))
      exact ⟨entries, hentries, hhits ▸ hnormal.scores_eq, hnormal.defined⟩
  · intro hfrom
    have hspread : Spread compset := (hmeans.mp hfrom).1
    obtain ⟨entries, hentries, hscores, hdefined⟩ := hfrom
    rw [hentries] at hrun
    obtain ⟨newset, hnewset, hhits, hnum⟩ := hrun
    refine ⟨newset, hnewset, hnum, hhits ▸ hscores, ?_, hdefined⟩
    intro entry hentry
    have hmem : (entry.recordNum, entry.weight) ∈
        entries.map fun entry ↦ (entry.recordNum, entry.weight) :=
      List.mem_map_of_mem (hhits ▸ hentry)
    rw [hscores] at hmem
    obtain ⟨own, hown, heq⟩ := List.mem_map.mp hmem
    rw [← (Prod.mk.inj heq).2]
    exact pivotMean_mem h hspread _ _ hown

end Run

/-- Documents 1 to 3, the second one ranked highest. -/
def pivotDocs : WeightedResult where
  setid := ""
  filename := "docs"
  resultType := PROBABILISTIC_RESULT
  component := none
  termid := []
  numHits := 3
  resultWeight := 0
  maxWeight := 4
  minWeight := 2
  entries := [⟨2, 0, 4⟩, ⟨1, 0, 3⟩, ⟨3, 0, 2⟩]

/-- A component file in which component 7 is missing. -/
def pivotFile : ℕ → ComponentKey → DbReply
  | _, .component number => if number = 7 then .notFound else .found ⟨number, 0, 0⟩
  | _, .doc _ => .notFound

/-- Components of documents 1, 3 and of none. -/
def pivotComps : WeightedResult where
  setid := ""
  filename := "docs"
  resultType := PROBABILISTIC_RESULT ||| COMPONENT_RESULT
  component := some 0
  termid := []
  numHits := 3
  resultWeight := 0
  maxWeight := 9
  minWeight := 5
  entries := [⟨1, 0, 9⟩, ⟨3, 0, 6⟩, ⟨7, 0, 5⟩]

theorem hasBounds_of_mem {set : WeightedResult}
    (hmax : set.maxWeight ∈ set.weights ∧ ∀ weight ∈ set.weights, weight ≤ set.maxWeight)
    (hmin : set.minWeight ∈ set.weights ∧ ∀ weight ∈ set.weights, set.minWeight ≤ weight) :
    HasBounds set := fun _ ↦ ⟨hmax, hmin⟩

theorem pivotOperands_comps : PivotOperands pivotComps pivotDocs where
  compset_allocated := ⟨by decide, by decide⟩
  compset_ranked := by decide
  compset_bounds := by apply hasBounds_of_mem <;> decide +kernel
  compset_component := fun _ ↦ by decide
  docs_allocated := ⟨by decide, by decide⟩
  docs_ranked := by decide
  docs_bounds := by apply hasBounds_of_mem <;> decide +kernel
  docs_distinct := by decide
  docs_plain := by decide +kernel

/-- The missing component comes after one of a document that has the least weight. -/
theorem pivotNormalised_comps :
    ∃ newset, pivotNormalize pivotFile ⟨40, 0, .privateVar 12⟩ pivotComps pivotDocs =
        .ok (some newset) ∧
      PivotNormalised pivotFile 40 pivotComps pivotDocs newset := by
  apply (pivotNormalised_iff pivotFile ⟨40, 0, .privateVar 12⟩ pivotComps pivotDocs
    pivotOperands_comps).mpr
  constructor
  · intro _
    decide +kernel
  · have hhits : pivotComps.hits = [⟨1, 0, 9⟩, ⟨3, 0, 6⟩, ⟨7, 0, 5⟩] := rfl
    have hdocs : pivotDocs.minWeight ≠ pivotDocs.maxWeight := by decide +kernel
    have hlast : ∀ doc ∈ pivotDocs.hits, doc.recordNum = 3 → doc.weight = pivotDocs.minWeight := by
      decide +kernel
    rw [hhits]
    refine ⟨fun _ ↦ hdocs, fun hnone ↦ ?_, fun _ ↦ hdocs, fun hnone ↦ ?_, fun _ ↦ hdocs,
      fun _ ↦ hlast, trivial⟩
    · exact absurd hnone (by decide)
    · exact absurd hnone (by decide)

/-- The score of the only hit of a set is divided by zero. -/
theorem not_pivotNormalised_oneHit : ∃ get op compset inset2, PivotOperands compset inset2 ∧
    ¬∃ newset, pivotNormalize get op compset inset2 = .ok (some newset) ∧
      PivotNormalised get op.distance compset inset2 newset := by
  refine ⟨pivotFile, ⟨40, 0, .privateVar 12⟩, oneRanked, pivotDocs, ?_, ?_⟩
  · exact {
      compset_allocated := ⟨by decide, by decide⟩
      compset_ranked := by decide
      compset_bounds := hasBounds_twoRanked oneRanked (by simp)
      compset_component := fun hflag ↦ absurd hflag (by decide)
      docs_allocated := ⟨by decide, by decide⟩
      docs_ranked := by decide
      docs_bounds := pivotOperands_comps.docs_bounds
      docs_distinct := by decide
      docs_plain := by decide +kernel }
  · rintro ⟨newset, -, hnormal⟩
    have hrange : oneRanked.maxWeight - oneRanked.minWeight = 0 := by decide +kernel
    exact hnormal.defined _ (List.mem_append_left _ (by
      rw [if_pos (by decide)]
      exact List.mem_singleton_self _)) hrange

end Cheshire.Search
