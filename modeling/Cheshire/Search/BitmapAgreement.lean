import Cheshire.Search.BitmapIntersection
import Cheshire.Search.RankedMerge

/-!
# Bitmap merges against merges of lists

Each operand of `se_bitmap_merge` is a bitmap or an ordinary sorted set.  Testing the records of an
ordinary set gives the result of the list merge; combining two bitmaps does so outside the multiples
of 65536 and within the common blocks; converting a bitmap loses a record and is right only where
the other operand or the header makes up for it.
-/

namespace Cheshire.Search

open Lib Lib.SortedMerge Index

section Test

variable {idx : IdxListEntry} {bitmapSet normalSet : WeightedResult} {records others : List ℤ}
  {last : ℕ}

theorem fst_seFetchBitmapBlock (idx : IdxListEntry) (set : WeightedResult) (recordno : ℕ)
    (currentBlockno : ℤ) : (seFetchBitmapBlock idx set recordno currentBlockno none).1 =
      operandBlock idx set (recordno / 65536) := by
  simp only [operandBlock, seFetchBitmapBlock, bitblockId_first]
  rw [← bitblockId_eq]

theorem BitmapOperand.bitmapTest (h : BitmapOperand (some idx) bitmapSet records last) {x : ℤ}
    (hpos : 0 < x) (hmax : x ≤ INT_MAX) (currentBlockno : ℤ) :
    ∃ next, Search.bitmapTest (some idx) bitmapSet x currentBlockno =
      .ok (decide (x ∈ records), next) := by
  refine ⟨(seFetchBitmapBlock idx bitmapSet x.toNat currentBlockno none).2, ?_⟩
  have hmem := h.bit_operandBlock hpos hmax (b := x.toNat / 65536) (by omega)
  have hbit : bitblockBit x.toNat = ((x - 1) % 65536).toNat := by
    rw [bitblockBit_eq]
    omega
  have htest : bitblockTest (operandBlock idx bitmapSet (x.toNat / 65536)) x.toNat =
      decide (x ∈ records) := by
    rw [bitblockTest_eq, hbit]
    apply Bool.eq_iff_iff.mpr
    rw [hmem, decide_eq_true_eq]
  rw [← fst_seFetchBitmapBlock idx bitmapSet x.toNat currentBlockno] at htest
  rw [← htest]
  rfl

/-- The records that are copied. -/
def isCopied (oper : ℕ) (records : List ℤ) (x : ℤ) : Bool :=
  decide (oper = BOOLEAN_AND ∧ x ∈ records ∨ oper = BOOLEAN_NOT ∧ x ∉ records)

theorem isCopied_and (records : List ℤ) (x : ℤ) : isCopied BOOLEAN_AND records x = true ↔ x ∈ records := by
  simp [isCopied, BOOLEAN_AND, BOOLEAN_NOT]

theorem isCopied_not (records : List ℤ) (x : ℤ) : isCopied BOOLEAN_NOT records x = true ↔ x ∉ records := by
  simp [isCopied, BOOLEAN_AND, BOOLEAN_NOT]

theorem BitmapOperand.testLoop_spec (h : BitmapOperand (some idx) bitmapSet records last)
    (hnormal : normalSet.Allocated) (hrecords : ∀ x ∈ normalSet.recordNums, 0 < x ∧ x ≤ INT_MAX)
    (oper : ℕ) (fuel : ℕ) : ∀ (i : ℕ) (currentBlockno : ℤ) {newset : NewSet} {total : ℕ}
    {out : List WeightedEntry}, normalSet.numHits.toNat - i < fuel → newset.Filled total out →
    out.length + (normalSet.ahead i).length ≤ total →
    ∃ newset' out', testLoop (some idx) bitmapSet normalSet oper fuel i currentBlockno newset =
        .ok newset' ∧ newset'.Filled total out' ∧ out'.length ≤ total ∧
      out'.map WeightedEntry.recordNum =
        out.map WeightedEntry.recordNum ++ (normalSet.ahead i).filter (isCopied oper records) := by
  induction fuel with
  | zero =>
    intro i _ newset total out hfuel
    omega
  | succ fuel ih =>
    intro i currentBlockno newset total out hfuel hfilled htotal
    rw [testLoop]
    by_cases hcond : (i : ℤ) < normalSet.numHits
    · obtain ⟨entry, hentry, hahead⟩ := hnormal.ahead_cons hcond
      have hmem : entry.recordNum ∈ normalSet.recordNums := by
        rw [← normalSet.ahead_zero, WeightedResult.ahead, List.drop_zero]
        have hin : entry.recordNum ∈ normalSet.ahead i := by
          rw [hahead]
          exact List.mem_cons_self
        obtain ⟨other, hother, heq⟩ := List.mem_map.mp hin
        exact List.mem_map.mpr ⟨other, List.mem_of_mem_drop hother, heq⟩
      obtain ⟨hpos, hmax⟩ := hrecords _ hmem
      obtain ⟨next, htest⟩ := h.bitmapTest hpos hmax currentBlockno
      rw [hahead, List.length_cons] at htotal
      rw [if_pos hcond, hentry]
      simp only [bind, Except.bind, htest, decide_eq_true_eq, decide_eq_false_iff_not]
      rw [hahead, List.filter_cons]
      by_cases hcopy : oper = BOOLEAN_AND ∧ entry.recordNum ∈ records ∨
          oper = BOOLEAN_NOT ∧ entry.recordNum ∉ records
      · obtain ⟨newset₁, hput, hfilled₁⟩ := hfilled.put (by omega) entry
        obtain ⟨newset', out', hrun, hfilled', hle, hout⟩ := ih (i + 1) next (by omega) hfilled₁
          (by rw [List.length_append, List.length_singleton]; omega)
        refine ⟨newset', out', ?_, hfilled', hle, ?_⟩
        · rw [if_pos hcopy, hput]
          exact hrun
        · rw [isCopied, decide_eq_true hcopy, if_pos rfl, hout]
          simp
      · obtain ⟨newset', out', hrun, hfilled', hle, hout⟩ := ih (i + 1) next (by omega) hfilled
          (by omega)
        refine ⟨newset', out', ?_, hfilled', hle, ?_⟩
        · rw [if_neg hcopy]
          exact hrun
        · rw [isCopied, decide_eq_false hcopy, if_neg Bool.false_ne_true, hout]
    · rw [if_neg hcond, hnormal.ahead_nil hcond]
      exact ⟨newset, out, rfl, hfilled, by omega, by simp⟩

theorem WeightedResult.Plain.probFlag_eq {set : WeightedResult} (h : set.Plain) :
    set.resultType &&& BITMAP_PROB_FLAGS = 0 := by
  have hflags : (STRUCTURED_FLAGS ||| RANKED_FLAGS) &&& BITMAP_PROB_FLAGS = BITMAP_PROB_FLAGS := by
    decide
  rw [← hflags, ← Nat.land_assoc, h.unflagged, Nat.zero_and]

theorem BitmapOperand.bitmapAndNormal_iff {index : Option IdxListEntry}
    (h : BitmapOperand index bitmapSet records last) (hnormal : normalSet.Plain)
    (hothers : normalSet.recordNums = others) (hlist : RecordList others) (callees : MergeCallees)
    (addweights : ℕ) {oper : ℕ} (hoper : oper = BOOLEAN_AND ∨ oper = BOOLEAN_NOT) :
    (∃ res, bitmapAndNormal callees addweights index bitmapSet normalSet oper = .ok (some res) ∧
      ∀ y, y ∈ res.recordNums ↔ y ∈ others ∧ isCopied oper records y = true) ↔
    (index.isSome ∨ others = []) ∧ others.length < INT_MAX := by
  have hnonneg := hnormal.nonneg
  have hlength := hnormal.length_recordNums
  rw [hothers] at hlength
  have hor : oper ≠ BOOLEAN_OR := by
    rcases hoper with rfl | rfl <;> decide
  have hrun : bitmapAndNormal callees addweights index bitmapSet normalSet oper = (do
      let size ← checkInt (normalSet.numHits + 1)
      let newset ← testLoop index bitmapSet normalSet oper (normalSet.numHits.toNat + 1) 0 0
        (NewSet.alloc size.toNat)
      .ok (some (newset.finish normalSet.filename none 0 0))) := by
    rw [bitmapAndNormal, if_neg hor, hnormal.probFlag_eq]
    rfl
  rw [hrun]
  by_cases hsize : normalSet.numHits + 1 ≤ 2 ^ 31 - 1
  · have hcheck : checkInt (normalSet.numHits + 1) = .ok (normalSet.numHits + 1) :=
      if_pos ⟨by omega, hsize⟩
    have hsmall : others.length < INT_MAX := by
      rw [INT_MAX]
      omega
    rw [hcheck]
    simp only [bind, Except.bind, hsmall, and_true]
    rcases index with _ | idx
    · obtain ⟨hnil, -⟩ := h.unindexed rfl
      simp only [Option.isSome_none, Bool.false_eq_true, false_or]
      by_cases hothers' : others = []
      · have hzero : ¬((0 : ℕ) : ℤ) < normalSet.numHits := by
          rw [hothers', List.length_nil] at hlength
          omega
        rw [testLoop, if_neg hzero]
        refine iff_of_true ⟨_, rfl, fun y ↦ ?_⟩ hothers'
        rw [(NewSet.filled_alloc _).recordNums_finish, hothers']
        simp
      · have hpos : ((0 : ℕ) : ℤ) < normalSet.numHits := by
          have hlen := List.length_pos_of_ne_nil hothers'
          omega
        obtain ⟨entry, hentry, -⟩ := hnormal.toAllocated.ahead_cons hpos
        rw [testLoop, if_pos hpos, hentry]
        refine iff_of_false ?_ hothers'
        rintro ⟨res, hres, -⟩
        cases hres
    · obtain ⟨newset, out, hloop, hfilled, -, hout⟩ := h.testLoop_spec hnormal.toAllocated
        (by rw [hothers]; exact hlist.inRange) oper (normalSet.numHits.toNat + 1) 0 0 (by omega)
        (NewSet.filled_alloc (normalSet.numHits + 1).toNat)
        (by rw [WeightedResult.ahead_zero, hothers, List.length_nil]; omega)
      rw [WeightedResult.ahead_zero, hothers, List.map_nil, List.nil_append] at hout
      rw [hloop]
      refine iff_of_true ⟨_, rfl, fun y ↦ ?_⟩ (.inl rfl)
      rw [hfilled.recordNums_finish, hout, List.mem_filter]
  · have hcheck : checkInt (normalSet.numHits + 1) = .error .signedOverflow :=
      if_neg fun hand ↦ hsize hand.2
    rw [hcheck]
    refine iff_of_false ?_ ?_
    · rintro ⟨res, hres, -⟩
      cases hres
    · rintro ⟨-, hsmall⟩
      rw [INT_MAX] at hsmall
      omega

end Test

/-- The conversion passes a record on: another one is decoded before it, and its block begins below
the record in the header. -/
def PassedOn (records : List ℤ) (last : ℕ) (x : ℤ) : Prop :=
  (∃ x' ∈ records, decoded x' < decoded x) ∧ x / 65536 * 65536 + 1 < last

/-- Outside the other operand nothing is lost and nothing added: a record is passed on under its own
number, or is the number that the preceding multiple of 65536 is passed on under; and the number of
a multiple that is passed on is a record too. -/
structure SurvivesOutside (records : List ℤ) (last : ℕ) (others : List ℤ) : Prop where
  kept : ∀ x ∈ records, x ∉ others → PassedOn records last x ∧ ¬65536 ∣ x ∨
    65536 ∣ x ∧ x - 65536 ∈ records ∧ PassedOn records last (x - 65536)
  harmless : ∀ x ∈ records, 65536 ∣ x → PassedOn records last x → x + 65536 ∉ others →
    x + 65536 ∈ records

theorem decoded_not_least_iff {records : List ℤ} {last : ℕ} {y : ℤ} :
    Decoded records last y ∧ ¬IsLeast {z | Decoded records last z} y ↔
      ∃ x ∈ records, PassedOn records last x ∧ y = decoded x := by
  constructor
  · rintro ⟨⟨x, hx, hvisited, rfl⟩, hleast⟩
    refine ⟨x, hx, ⟨?_, hvisited⟩, rfl⟩
    by_contra hnone
    refine hleast ⟨⟨x, hx, hvisited, rfl⟩, ?_⟩
    rintro z ⟨x', hx', -, rfl⟩
    by_contra hlt
    exact hnone ⟨x', hx', not_le.mp hlt⟩
  · rintro ⟨x, hx, ⟨⟨x', hx', hlt⟩, hvisited⟩, rfl⟩
    refine ⟨⟨x, hx, hvisited, rfl⟩, fun hleast ↦ not_le.mpr hlt (hleast.2 ⟨x', hx', ?_, rfl⟩)⟩
    -- a smaller number is decoded from the same block or from an earlier one
    rw [decoded, decoded] at hlt
    omega

theorem survivesOutside_iff {records others : List ℤ} {last : ℕ} :
    SurvivesOutside records last others ↔ ∀ y ∉ others, y ∈ records ↔
      Decoded records last y ∧ ¬IsLeast {z | Decoded records last z} y := by
  simp only [decoded_not_least_iff]
  constructor
  · intro h y hy
    constructor
    · intro hmem
      rcases h.kept y hmem hy with ⟨hpassed, hdvd⟩ | ⟨hdvd, hprevious, hpassed⟩
      · exact ⟨y, hmem, hpassed, (decoded_of_not_dvd hdvd).symm⟩
      · exact ⟨y - 65536, hprevious, hpassed, by rw [decoded_of_dvd (by omega)]; omega⟩
    · rintro ⟨x, hx, hpassed, rfl⟩
      by_cases hdvd : 65536 ∣ x
      · rw [decoded_of_dvd hdvd] at hy ⊢
        exact h.harmless x hx hdvd hpassed hy
      · rwa [decoded_of_not_dvd hdvd]
  · intro hall
    refine ⟨fun y hmem hy ↦ ?_, fun x hx hdvd hpassed hy ↦ ?_⟩
    · obtain ⟨x, hx, hpassed, rfl⟩ := (hall y hy).mp hmem
      by_cases hdvd : 65536 ∣ x
      · rw [decoded_of_dvd hdvd, add_sub_cancel_right]
        exact .inr ⟨by omega, hx, hpassed⟩
      · rw [decoded_of_not_dvd hdvd]
        exact .inl ⟨hpassed, hdvd⟩
    · exact (hall _ hy).mpr ⟨x, hx, hpassed, (decoded_of_dvd hdvd).symm⟩

/-- The converted bitmap can stand for its records beside the other operand: it does not overflow,
and either it is counted and has one record, or the skipped record does no harm. -/
def ConvertsBeside (set : WeightedResult) (records : List ℤ) (last : ℕ) (others : List ℤ) : Prop :=
  last ≤ 2147418113 ∧
    if 0 < set.numHits then records.length = 1 else SurvivesOutside records last others

section Convert

variable {set normal res : WeightedResult} {records others : List ℤ} {last : ℕ}

/-- Outside the other operand, the result of the conversion has the right records only under this
condition: several counted records leave a zero behind. -/
theorem Converted.outside_iff (h : Converted set records last res) (hrecords : RecordList records)
    (hothers : RecordList others) :
    (∀ y ∉ others, y ∈ res.recordNums ↔ y ∈ records) ↔
      if 0 < set.numHits then records.length = 1 else SurvivesOutside records last others := by
  by_cases hpos : 0 < set.numHits
  · rw [if_pos hpos]
    by_cases hone : records.length = 1
    · rw [h.single hpos hone]
      simp [hone]
    · refine iff_of_false (fun hall ↦ ?_) hone
      exact hrecords.zero_notMem ((hall 0 hothers.zero_notMem).mp (h.several hpos hone))
  · rw [if_neg hpos, survivesOutside_iff]
    have hmem := (h.uncounted (not_lt.mp hpos)).2
    refine forall₂_congr fun y _ ↦ ?_
    rw [hmem]
    exact ⟨fun hiff ↦ hiff.symm, fun hiff ↦ hiff.symm⟩

theorem union_iff {left right : ℤ → Prop} :
    (∀ y, (y ∈ others ∨ left y) ↔ (y ∈ others ∨ right y)) ↔
      ∀ y ∉ others, left y ↔ right y := by
  refine forall_congr' fun y ↦ ?_
  by_cases hy : y ∈ others <;> simp [hy]

theorem difference_iff {left right : ℤ → Prop} :
    (∀ y, (left y ∧ y ∉ others) ↔ (right y ∧ y ∉ others)) ↔
      ∀ y ∉ others, left y ↔ right y := by
  refine forall_congr' fun y ↦ ?_
  by_cases hy : y ∈ others <;> simp [hy]

theorem zero_mem_diff {xs ys : List ℤ} (hxs : (0 : ℤ) ∈ xs) (hys : ∀ y ∈ ys, 0 < y) :
    (0 : ℤ) ∈ diff xs ys := by
  fun_induction diff xs ys with
  | case1 x xs y ys hlt ih =>
    rcases List.mem_cons.mp hxs with rfl | hxs
    · exact List.mem_cons_self
    · exact List.mem_cons_of_mem _ (ih hxs hys)
  | case2 x xs y ys _ _ ih => exact ih hxs fun z hz ↦ hys z (List.mem_cons_of_mem _ hz)
  | case3 x xs y ys hxy hyx ih =>
    have hpos := hys y List.mem_cons_self
    rcases List.mem_cons.mp hxs with rfl | hxs
    · omega
    · exact ih hxs fun z hz ↦ hys z (List.mem_cons_of_mem _ hz)
  | case4 => exact absurd hxs List.not_mem_nil
  | case5 => exact hxs

theorem Converted.diff_iff (h : Converted set records last res) (hrecords : RecordList records)
    (hothers : RecordList others) :
    (∀ y, y ∈ diff res.recordNums others ↔ y ∈ records ∧ y ∉ others) ↔
      if 0 < set.numHits then records.length = 1 else SurvivesOutside records last others := by
  rw [← h.outside_iff hrecords hothers]
  by_cases hseveral : 0 < set.numHits ∧ records.length ≠ 1
  · -- the zero left behind survives the difference
    have hzero := h.several hseveral.1 hseveral.2
    refine iff_of_false (fun hall ↦ ?_) fun hall ↦ ?_
    · have hdiff := zero_mem_diff hzero fun y hy ↦ (hothers.inRange y hy).1
      exact hrecords.zero_notMem ((hall 0).mp hdiff).1
    · exact hrecords.zero_notMem ((hall 0 hothers.zero_notMem).mp hzero)
  · have hincreasing : res.recordNums.Pairwise (· < ·) := by
      by_cases hpos : 0 < set.numHits
      · have hone : records.length = 1 := by
          by_contra hne
          exact hseveral ⟨hpos, hne⟩
        rw [h.single hpos hone]
        exact hrecords.increasing
      · exact (h.uncounted (not_lt.mp hpos)).1
    simp only [mem_diff hincreasing hothers.increasing]
    exact difference_iff

theorem seOrmerge_members (callees : MergeCallees) {set1 set2 : WeightedResult}
    (h1 : set1.Unflagged) (h2 : set2.Unflagged) (addweights : ℕ) :
    ∃ merged, seOrmerge callees (some set1) (some set2) addweights = .ok (some merged) ∧
      ∀ y, y ∈ merged.recordNums ↔ y ∈ set1.recordNums ∨ y ∈ set2.recordNums := by
  obtain ⟨merged, hrun, hmerged⟩ := seOrmerge_unflagged callees h1 h2 addweights
  refine ⟨merged, hrun, fun y ↦ ?_⟩
  rw [hmerged.recordNums_eq, mem_union]

theorem BitmapOperand.bitmapOr_iff {index : Option IdxListEntry}
    (h : BitmapOperand index set records last) (hnormal : normal.Plain)
    (hothers : normal.recordNums = others) (hlist : RecordList others) (callees : MergeCallees)
    (addweights : ℕ) :
    (∃ res, bitmapAndNormal callees addweights index set normal BOOLEAN_OR = .ok (some res) ∧
      ∀ y, y ∈ res.recordNums ↔ y ∈ others ∨ y ∈ records) ↔
    ConvertsBeside set records last others := by
  rw [bitmapAndNormal, if_pos rfl, ConvertsBeside]
  by_cases hlast : last ≤ 2147418113
  · obtain ⟨converted, hconvert, hconverted⟩ := h.bitmapToResult_ok hlast
    obtain ⟨merged, hrun, hmem⟩ := seOrmerge_members callees hnormal.toUnflagged
      hconverted.toUnflagged addweights
    rw [hothers] at hmem
    rw [hconvert]
    simp only [bind, Except.bind, hrun, Except.ok.injEq, Option.some.injEq, exists_eq_left', hmem,
      hlast, true_and]
    rw [← hconverted.outside_iff h.toRecordList hlist]
    exact union_iff
  · refine iff_of_false ?_ fun hand ↦ hlast hand.1
    rintro ⟨res, hres, -⟩
    obtain ⟨converted, hconvert, -⟩ := bind_eq_ok.mp hres
    exact h.bitmapToResult_fault hlast converted hconvert

theorem BitmapOperand.bitmapNot_iff {index : Option IdxListEntry}
    (h : BitmapOperand index set records last) (hnormal : normal.Plain)
    (hothers : normal.recordNums = others) (hlist : RecordList others) (callees : MergeCallees) :
    (∃ res, (do
        let converted ← bitmapToResult index set
        seNotmerge callees converted (some normal)) = .ok (some res) ∧
      ∀ y, y ∈ res.recordNums ↔ y ∈ records ∧ y ∉ others) ↔
    ConvertsBeside set records last others := by
  rw [ConvertsBeside]
  by_cases hlast : last ≤ 2147418113
  · obtain ⟨converted, hconvert, hconverted⟩ := h.bitmapToResult_ok hlast
    obtain ⟨merged, hrun, hmerged⟩ := seNotmerge_unflagged callees hconverted.toUnflagged
      hnormal.toUnflagged
    rw [hconvert]
    simp only [bind, Except.bind, hrun, Except.ok.injEq, Option.some.injEq, exists_eq_left', hlast,
      true_and, hmerged.recordNums_eq, hothers]
    exact hconverted.diff_iff h.toRecordList hlist
  · refine iff_of_false ?_ fun hand ↦ hlast hand.1
    rintro ⟨res, hres, -⟩
    obtain ⟨converted, hconvert, -⟩ := bind_eq_ok.mp hres
    exact h.bitmapToResult_fault hlast converted hconvert

end Convert

/-- Both converted bitmaps together have the right records. -/
structure BothConvert (set1 set2 : WeightedResult) (records1 records2 : List ℤ)
    (last1 last2 : ℕ) : Prop where
  last1_le : last1 ≤ 2147418113
  last2_le : last2 ≤ 2147418113
  single1 : 0 < set1.numHits → records1.length = 1
  single2 : 0 < set2.numHits → records2.length = 1
  survives1 : set1.numHits ≤ 0 → 0 < set2.numHits → SurvivesOutside records1 last1 records2
  survives2 : 0 < set1.numHits → set2.numHits ≤ 0 → SurvivesOutside records2 last2 records1
  empty : set1.numHits ≤ 0 → set2.numHits ≤ 0 → records1 = [] ∧ records2 = []

theorem not_survives_of_le {records : List ℤ} {last : ℕ} {m : ℤ} (hle : ∀ x ∈ records, m ≤ x) :
    ¬(Decoded records last m ∧ ¬IsLeast {z | Decoded records last z} m) := by
  rintro ⟨hdecoded, hleast⟩
  refine hleast ⟨hdecoded, ?_⟩
  rintro z ⟨x, hx, -, rfl⟩
  exact (hle x hx).trans (le_decoded x)

variable {index1 index2 : Option IdxListEntry}

section Both

variable {set1 set2 res1 res2 : WeightedResult} {records1 records2 : List ℤ} {last1 last2 : ℕ}

theorem uncounted_union_iff
    (h1 : ∀ y, y ∈ res1.recordNums ↔
      Decoded records1 last1 y ∧ ¬IsLeast {z | Decoded records1 last1 z} y)
    (h2 : ∀ y, y ∈ res2.recordNums ↔
      Decoded records2 last2 y ∧ ¬IsLeast {z | Decoded records2 last2 z} y) :
    (∀ y, (y ∈ res1.recordNums ∨ y ∈ res2.recordNums) ↔ (y ∈ records1 ∨ y ∈ records2)) ↔
      records1 = [] ∧ records2 = [] := by
  constructor
  · intro hall
    rw [← List.append_eq_nil_iff]
    by_contra hne
    obtain ⟨m, hmem, hmin⟩ := (records1 ++ records2).toFinset.exists_min_image id
      (List.toFinset_nonempty_iff _ |>.mpr hne)
    simp only [List.mem_toFinset, List.mem_append, id_eq] at hmem hmin
    rcases (hall m).mpr hmem with hin | hin
    · exact not_survives_of_le (fun x hx ↦ hmin x (.inl hx)) ((h1 m).mp hin)
    · exact not_survives_of_le (fun x hx ↦ hmin x (.inr hx)) ((h2 m).mp hin)
  · rintro ⟨rfl, rfl⟩ y
    rw [h1, h2]
    simp [Decoded]

theorem Converted.union_iff (h1 : Converted set1 records1 last1 res1)
    (h2 : Converted set2 records2 last2 res2) (hrecords1 : RecordList records1)
    (hrecords2 : RecordList records2) (hlast1 : last1 ≤ 2147418113) (hlast2 : last2 ≤ 2147418113) :
    (∀ y, (y ∈ res1.recordNums ∨ y ∈ res2.recordNums) ↔ (y ∈ records1 ∨ y ∈ records2)) ↔
      BothConvert set1 set2 records1 records2 last1 last2 := by
  have hzero := not_or.mpr ⟨hrecords1.zero_notMem, hrecords2.zero_notMem⟩
  by_cases hseveral1 : 0 < set1.numHits ∧ records1.length ≠ 1
  · refine iff_of_false (fun hall ↦ hzero ((hall 0).mp (.inl ?_))) fun hboth ↦ ?_
    · exact h1.several hseveral1.1 hseveral1.2
    · exact hseveral1.2 (hboth.single1 hseveral1.1)
  by_cases hseveral2 : 0 < set2.numHits ∧ records2.length ≠ 1
  · refine iff_of_false (fun hall ↦ hzero ((hall 0).mp (.inr ?_))) fun hboth ↦ ?_
    · exact h2.several hseveral2.1 hseveral2.2
    · exact hseveral2.2 (hboth.single2 hseveral2.1)
  have hsingle1 (hpos : 0 < set1.numHits) : records1.length = 1 := by
    by_contra hne
    exact hseveral1 ⟨hpos, hne⟩
  have hsingle2 (hpos : 0 < set2.numHits) : records2.length = 1 := by
    by_contra hne
    exact hseveral2 ⟨hpos, hne⟩
  have houtside1 := h1.outside_iff hrecords1 hrecords2
  have houtside2 := h2.outside_iff hrecords2 hrecords1
  rcases lt_or_ge 0 set1.numHits with hpos1 | hneg1
  · rcases lt_or_ge 0 set2.numHits with hpos2 | hneg2
    · rw [h1.single hpos1 (hsingle1 hpos1), h2.single hpos2 (hsingle2 hpos2)]
      exact iff_of_true (fun _ ↦ Iff.rfl) ⟨hlast1, hlast2, hsingle1, hsingle2,
        fun hneg ↦ absurd hpos1 (not_lt.mpr hneg), fun _ hneg ↦ absurd hpos2 (not_lt.mpr hneg),
        fun hneg ↦ absurd hpos1 (not_lt.mpr hneg)⟩
    · rw [if_neg (not_lt.mpr hneg2)] at houtside2
      rw [h1.single hpos1 (hsingle1 hpos1), Search.union_iff, houtside2]
      exact ⟨fun hsurvives ↦ ⟨hlast1, hlast2, hsingle1, hsingle2,
        fun hneg ↦ absurd hpos1 (not_lt.mpr hneg), fun _ _ ↦ hsurvives,
        fun hneg ↦ absurd hpos1 (not_lt.mpr hneg)⟩, fun hboth ↦ hboth.survives2 hpos1 hneg2⟩
  · rcases lt_or_ge 0 set2.numHits with hpos2 | hneg2
    · rw [if_neg (not_lt.mpr hneg1)] at houtside1
      rw [h2.single hpos2 (hsingle2 hpos2)]
      have hswap : (∀ y, (y ∈ res1.recordNums ∨ y ∈ records2) ↔ (y ∈ records1 ∨ y ∈ records2)) ↔
          ∀ y, (y ∈ records2 ∨ y ∈ res1.recordNums) ↔ (y ∈ records2 ∨ y ∈ records1) := by
        refine forall_congr' fun y ↦ ?_
        rw [or_comm, or_comm (a := y ∈ records1)]
      rw [hswap, Search.union_iff, houtside1]
      exact ⟨fun hsurvives ↦ ⟨hlast1, hlast2, hsingle1, hsingle2, fun _ _ ↦ hsurvives,
        fun hpos ↦ absurd hpos (not_lt.mpr hneg1),
        fun _ hneg ↦ absurd hpos2 (not_lt.mpr hneg)⟩, fun hboth ↦ hboth.survives1 hneg1 hpos2⟩
    · rw [uncounted_union_iff (h1.uncounted hneg1).2 (h2.uncounted hneg2).2]
      exact ⟨fun hempty ↦ ⟨hlast1, hlast2, hsingle1, hsingle2,
        fun _ hpos ↦ absurd hpos (not_lt.mpr hneg2), fun hpos ↦ absurd hpos (not_lt.mpr hneg1),
        fun _ _ ↦ hempty⟩, fun hboth ↦ hboth.empty hneg1 hneg2⟩

theorem bitmapsOr_iff (h1 : BitmapOperand index1 set1 records1 last1)
    (h2 : BitmapOperand index2 set2 records2 last2) (callees : MergeCallees) (addweights : ℕ) :
    (∃ res, (do
        let converted1 ← bitmapToResult index1 set1
        let converted2 ← bitmapToResult index2 set2
        seOrmerge callees converted1 converted2 addweights) = .ok (some res) ∧
      ∀ y, y ∈ res.recordNums ↔ y ∈ records1 ∨ y ∈ records2) ↔
    BothConvert set1 set2 records1 records2 last1 last2 := by
  by_cases hlast1 : last1 ≤ 2147418113
  · by_cases hlast2 : last2 ≤ 2147418113
    · obtain ⟨converted1, hconvert1, hconverted1⟩ := h1.bitmapToResult_ok hlast1
      obtain ⟨converted2, hconvert2, hconverted2⟩ := h2.bitmapToResult_ok hlast2
      obtain ⟨merged, hrun, hmem⟩ := seOrmerge_members callees hconverted1.toUnflagged
        hconverted2.toUnflagged addweights
      rw [hconvert1, hconvert2]
      simp only [bind, Except.bind, hrun, Except.ok.injEq, Option.some.injEq, exists_eq_left', hmem]
      exact hconverted1.union_iff hconverted2 h1.toRecordList h2.toRecordList hlast1 hlast2
    · refine iff_of_false ?_ fun hboth ↦ hlast2 hboth.last2_le
      rintro ⟨res, hres, -⟩
      obtain ⟨converted1, -, hrest⟩ := bind_eq_ok.mp hres
      obtain ⟨converted2, hconvert2, -⟩ := bind_eq_ok.mp hrest
      exact h2.bitmapToResult_fault hlast2 converted2 hconvert2
  · refine iff_of_false ?_ fun hboth ↦ hlast1 hboth.last1_le
    rintro ⟨res, hres, -⟩
    obtain ⟨converted1, hconvert1, -⟩ := bind_eq_ok.mp hres
    exact h1.bitmapToResult_fault hlast1 converted1 hconvert1

end Both

theorem seBitmapsAnd_unindexed {set1 set2 : WeightedResult} {records1 records2 : List ℤ}
    {last1 last2 : ℕ} (h1 : BitmapOperand index1 set1 records1 last1)
    (h2 : BitmapOperand index2 set2 records2 last2) (hindex : index1 = none ∨ index2 = none)
    (oper : ℕ) (res : WeightedResult) : seBitmapsAnd index1 index2 set1 set2 oper ≠ .ok res := by
  intro hrun
  have hrange : ∃ rest, List.range (min (bitblockId last1 + 1) (bitblockId last2 + 1)) = 0 :: rest :=
    ⟨_, by rw [Nat.add_min_add_right, List.range_succ_eq_map]⟩
  obtain ⟨rest, hrest⟩ := hrange
  rw [seBitmapsAnd, h1.header, h2.header] at hrun
  simp only [bind, Except.bind, Int.toNat_natCast, hrest] at hrun
  cases hsize : checkInt (maxResult oper set1.numHits set2.numHits last1 + 1) with
  | error fault =>
    rw [hsize] at hrun
    cases hrun
  | ok size =>
    rw [hsize] at hrun
    rcases hindex with rfl | rfl
    · cases hrun
    · cases index1 <;> cases hrun

/-- The operators, by the constants that `se_bitmap_merge` is called with. -/
inductive MergeOperator where
  | and
  | or
  | not

namespace MergeOperator

def code : MergeOperator → ℕ
  | and => BOOLEAN_AND
  | or => BOOLEAN_OR
  | not => BOOLEAN_NOT

/-- The merge of ordinary results. -/
def merge (callees : MergeCallees) : MergeOperator → Option WeightedResult →
    Option WeightedResult → Exec (Option WeightedResult)
  | and, inset1, inset2 => seAndmerge callees inset1 inset2
  | or, inset1, inset2 => seOrmerge callees inset1 inset2 0
  | not, inset1, inset2 => seNotmerge callees inset1 inset2

def denotes : MergeOperator → Prop → Prop → Prop
  | and, p, q => p ∧ q
  | or, p, q => p ∨ q
  | not, p, q => p ∧ ¬q

end MergeOperator

/-- An operand of `se_bitmap_merge`: an ordinary result, or a bitmap result with its index and the
record in its header. -/
inductive Operand where
  | list (set : WeightedResult)
  | bitmap (index : Option IdxListEntry) (set : WeightedResult) (last : ℕ)

namespace Operand

def set : Operand → WeightedResult
  | list set => set
  | bitmap _ set _ => set

def index : Operand → Option IdxListEntry
  | list _ => none
  | bitmap index _ _ => index

def isBitmap : Operand → Bool
  | list _ => false
  | bitmap _ _ _ => true

/-- The operand represents a set of records. -/
def Represents : Operand → List ℤ → Prop
  | list set, records => set.Plain ∧ set.recordNums = records ∧ RecordList records
  | bitmap index set last, records => BitmapOperand index set records last

theorem Represents.recordList {operand : Operand} {records : List ℤ}
    (h : operand.Represents records) : RecordList records := by
  cases operand with
  | list set => exact h.2.2
  | bitmap index set last => exact h.toRecordList

end Operand

/-- `se_bitmap_merge` returns the records that the merge of the two sorted lists returns. -/
def MergesAlike (callees : MergeCallees) (addweights : ℕ) (oper : MergeOperator)
    (operand1 operand2 : Operand) (records1 records2 : List ℤ) : Prop :=
  ∃ res reference,
    seBitmapMerge callees addweights operand1.index operand2.index (some operand1.set)
      (some operand2.set) oper.code = .ok (some res) ∧
    oper.merge callees (some (WeightedResult.ofRecords "" records1))
      (some (WeightedResult.ofRecords "" records2)) = .ok (some reference) ∧
    ∀ x, x ∈ res.recordNums ↔ x ∈ reference.recordNums

theorem RecordList.plain {records : List ℤ} (h : RecordList records) :
    (WeightedResult.ofRecords "" records).Plain ∧
      (WeightedResult.ofRecords "" records).recordNums = records := by
  have hnums : (WeightedResult.ofRecords "" records).recordNums = records := by
    simp [WeightedResult.recordNums, WeightedResult.hits, WeightedResult.ofRecords, Function.comp_def]
  refine ⟨⟨⟨?_, ?_⟩, by rw [hnums]; exact h.increasing, Nat.zero_and _⟩, hnums⟩
  · simp [WeightedResult.ofRecords]
  · simp [WeightedResult.ofRecords]

theorem MergeOperator.merge_spec (callees : MergeCallees) (oper : MergeOperator)
    {records1 records2 : List ℤ} (h1 : RecordList records1) (h2 : RecordList records2) :
    ∃ reference, oper.merge callees (some (WeightedResult.ofRecords "" records1))
      (some (WeightedResult.ofRecords "" records2)) = .ok (some reference) ∧
      ∀ x, x ∈ reference.recordNums ↔ oper.denotes (x ∈ records1) (x ∈ records2) := by
  obtain ⟨hplain1, hnums1⟩ := h1.plain
  obtain ⟨hplain2, hnums2⟩ := h2.plain
  cases oper with
  | and =>
    obtain ⟨merged, hrun, hmerged⟩ := seAndmerge_unflagged callees hplain1.toUnflagged
      hplain2.toUnflagged
    refine ⟨merged, hrun, fun x ↦ ?_⟩
    rw [hmerged.recordNums_eq, hnums1, hnums2, mem_inter h1.increasing h2.increasing]
    rfl
  | or =>
    obtain ⟨merged, hrun, hmem⟩ := seOrmerge_members callees hplain1.toUnflagged
      hplain2.toUnflagged 0
    rw [hnums1, hnums2] at hmem
    exact ⟨merged, hrun, hmem⟩
  | not =>
    obtain ⟨merged, hrun, hmerged⟩ := seNotmerge_unflagged callees hplain1.toUnflagged
      hplain2.toUnflagged
    refine ⟨merged, hrun, fun x ↦ ?_⟩
    rw [hmerged.recordNums_eq, hnums1, hnums2, mem_diff h1.increasing h2.increasing]
    rfl

section Merge

variable (callees : MergeCallees) (addweights : ℕ) (oper : MergeOperator)
  {operand1 operand2 : Operand} {records1 records2 : List ℤ}

theorem mergesAlike_iff_members (h1 : operand1.Represents records1)
    (h2 : operand2.Represents records2) :
    MergesAlike callees addweights oper operand1 operand2 records1 records2 ↔
      ∃ res, seBitmapMerge callees addweights operand1.index operand2.index (some operand1.set)
          (some operand2.set) oper.code = .ok (some res) ∧
        ∀ x, x ∈ res.recordNums ↔ oper.denotes (x ∈ records1) (x ∈ records2) := by
  obtain ⟨reference, hreference, hmem⟩ := oper.merge_spec callees h1.recordList h2.recordList
  unfold MergesAlike
  simp only [hreference, Except.ok.injEq, Option.some.injEq]
  constructor
  · rintro ⟨res, _, hrun, rfl, hiff⟩
    exact ⟨res, hrun, fun x ↦ (hiff x).trans (hmem x)⟩
  · rintro ⟨res, hrun, hiff⟩
    exact ⟨res, reference, hrun, rfl, fun x ↦ (hiff x).trans (hmem x).symm⟩

/-- The records of a list can be tested against a bitmap. -/
def CanTest (index : Option IdxListEntry) (others : List ℤ) : Prop :=
  (index.isSome ∨ others = []) ∧ others.length < INT_MAX

/-- Two bitmaps can be combined block by block. -/
structure CanCombine (oper : ℕ) (index1 index2 : Option IdxListEntry)
    (set1 set2 : WeightedResult) (records1 records2 : List ℤ) (last1 last2 : ℕ) : Prop where
  indexed1 : index1.isSome
  indexed2 : index2.isSome
  room : RoomFor oper set1.numHits set2.numHits last1 (keptRecords oper records1 records2).length
  common : ∀ x ∈ keptRecords oper records1 records2, ¬65536 ∣ x ∧ x / 65536 ≤ (last2 : ℤ) / 65536

/-- When the merge of the operands agrees with the merge of the lists. -/
def MergeCondition : MergeOperator → Operand → Operand → List ℤ → List ℤ → Prop
  | .or, .bitmap _ set1 last1, .bitmap _ set2 last2, records1, records2 =>
    BothConvert set1 set2 records1 records2 last1 last2
  | oper, .bitmap index1 set1 last1, .bitmap index2 set2 last2, records1, records2 =>
    CanCombine oper.code index1 index2 set1 set2 records1 records2 last1 last2
  | .and, .bitmap index _ _, .list _, _, records2 => CanTest index records2
  | _, .bitmap _ set last, .list _, records1, records2 => ConvertsBeside set records1 last records2
  | .or, .list _, .bitmap _ set last, records1, records2 =>
    ConvertsBeside set records2 last records1
  | _, .list _, .bitmap index _ _, records1, _ => CanTest index records1
  | _, .list _, .list _, _, _ => False

theorem bitmapsCombine_iff {set1 set2 : WeightedResult} {last1 last2 : ℕ}
    (h1 : BitmapOperand index1 set1 records1 last1) (h2 : BitmapOperand index2 set2 records2 last2)
    {oper : ℕ} (hoper : oper = BOOLEAN_AND ∨ oper = BOOLEAN_NOT) : (∃ res, (do
        let wtRes ← seBitmapsAnd index1 index2 set1 set2 oper
        .ok (some wtRes)) = Except.ok (some res) ∧
      ∀ x, x ∈ res.recordNums ↔ kept oper records1 records2 x) ↔
    CanCombine oper index1 index2 set1 set2 records1 records2 last1 last2 := by
  have hbind (res : WeightedResult) : (do
      let wtRes ← seBitmapsAnd index1 index2 set1 set2 oper
      .ok (some wtRes)) = Except.ok (some res) ↔
        seBitmapsAnd index1 index2 set1 set2 oper = .ok res := by
    cases seBitmapsAnd index1 index2 set1 set2 oper <;> simp [bind, Except.bind]
  simp only [hbind]
  rcases index1 with _ | idx1
  · refine iff_of_false ?_ fun hcombine ↦ Bool.false_ne_true hcombine.indexed1
    rintro ⟨res, hrun, -⟩
    exact seBitmapsAnd_unindexed h1 h2 (.inl rfl) oper res hrun
  rcases index2 with _ | idx2
  · refine iff_of_false ?_ fun hcombine ↦ Bool.false_ne_true hcombine.indexed2
    rintro ⟨res, hrun, -⟩
    exact seBitmapsAnd_unindexed h1 h2 (.inr rfl) oper res hrun
  rw [seBitmapsAnd_iff h1 h2 hoper]
  constructor
  · rintro ⟨hroom, hcommon⟩
    exact ⟨rfl, rfl, hroom, fun x hx ↦ hcommon x (mem_keptRecords.mp hx)⟩
  · intro hcombine
    exact ⟨hcombine.room, fun x hx ↦ hcombine.common x (mem_keptRecords.mpr hx)⟩

variable {index : Option IdxListEntry} {set normal : WeightedResult} {records others : List ℤ}
  {last : ℕ}

theorem seBitmapMerge_bitmaps {set1 set2 : WeightedResult} {last1 last2 : ℕ}
    (h1 : BitmapOperand index1 set1 records1 last1)
    (h2 : BitmapOperand index2 set2 records2 last2) :
    (∃ res, seBitmapMerge callees addweights index1 index2 (some set1) (some set2) oper.code =
        .ok (some res) ∧
      ∀ x, x ∈ res.recordNums ↔ oper.denotes (x ∈ records1) (x ∈ records2)) ↔
    MergeCondition oper (.bitmap index1 set1 last1) (.bitmap index2 set2 last2) records1
      records2 := by
  have hboth : (set1.has BITMAP_RESULT && set2.has BITMAP_RESULT) = true := by
    rw [h1.has, h2.has]
    rfl
  rw [seBitmapMerge, if_pos hboth]
  cases oper with
  | and => exact bitmapsCombine_iff h1 h2 (.inl rfl)
  | or => exact bitmapsOr_iff h1 h2 callees addweights
  | not => exact bitmapsCombine_iff h1 h2 (.inr rfl)

theorem seBitmapMerge_bitmap_list (h : BitmapOperand index set records last)
    (hnormal : normal.Plain) (hothers : normal.recordNums = others) (hlist : RecordList others) :
    (∃ res, seBitmapMerge callees addweights index none (some set) (some normal) oper.code =
        .ok (some res) ∧
      ∀ x, x ∈ res.recordNums ↔ oper.denotes (x ∈ records) (x ∈ others)) ↔
    MergeCondition oper (.bitmap index set last) (.list normal) records others := by
  have hplain := hnormal.not_has BITMAP_RESULT (by decide)
  have hboth : ¬(set.has BITMAP_RESULT && normal.has BITMAP_RESULT) = true := by
    rw [hplain, Bool.and_false]
    exact Bool.false_ne_true
  rw [seBitmapMerge, if_neg hboth, if_pos h.has]
  cases oper with
  | and =>
    refine Iff.trans (exists_congr fun res ↦ and_congr_right fun _ ↦ forall_congr' fun x ↦ ?_)
      (h.bitmapAndNormal_iff hnormal hothers hlist callees addweights (.inl rfl))
    exact iff_congr Iff.rfl (and_comm.trans (and_congr_right' (isCopied_and records x).symm))
  | or =>
    refine Iff.trans (exists_congr fun res ↦ and_congr_right fun _ ↦ forall_congr' fun x ↦ ?_)
      (h.bitmapOr_iff hnormal hothers hlist callees addweights)
    rw [MergeOperator.denotes, or_comm]
  | not => exact h.bitmapNot_iff hnormal hothers hlist callees

theorem seBitmapMerge_list_bitmap (hnormal : normal.Plain) (hothers : normal.recordNums = others)
    (hlist : RecordList others) (h : BitmapOperand index set records last) :
    (∃ res, seBitmapMerge callees addweights none index (some normal) (some set) oper.code =
        .ok (some res) ∧
      ∀ x, x ∈ res.recordNums ↔ oper.denotes (x ∈ others) (x ∈ records)) ↔
    MergeCondition oper (.list normal) (.bitmap index set last) others records := by
  have hplain := hnormal.not_has BITMAP_RESULT (by decide)
  have hboth : ¬(normal.has BITMAP_RESULT && set.has BITMAP_RESULT) = true := by
    rw [hplain, Bool.false_and]
    exact Bool.false_ne_true
  have hfirst : ¬normal.has BITMAP_RESULT = true := by
    rw [hplain]
    exact Bool.false_ne_true
  rw [seBitmapMerge, if_neg hboth, if_neg hfirst, if_pos h.has]
  cases oper with
  | and =>
    refine Iff.trans (exists_congr fun res ↦ and_congr_right fun _ ↦ forall_congr' fun x ↦ ?_)
      (h.bitmapAndNormal_iff hnormal hothers hlist callees addweights (.inl rfl))
    exact iff_congr Iff.rfl (and_congr_right' (isCopied_and records x).symm)
  | or => exact h.bitmapOr_iff hnormal hothers hlist callees addweights
  | not =>
    refine Iff.trans (exists_congr fun res ↦ and_congr_right fun _ ↦ forall_congr' fun x ↦ ?_)
      (h.bitmapAndNormal_iff hnormal hothers hlist callees addweights (.inr rfl))
    exact iff_congr Iff.rfl (and_congr_right' (isCopied_not records x).symm)

/-- `se_bitmap_merge` agrees with the merges of sorted lists exactly under the condition of the
operator and of the kinds of its operands. -/
theorem bitmapMerge_agrees_iff (h1 : operand1.Represents records1)
    (h2 : operand2.Represents records2) (hbitmap : operand1.isBitmap || operand2.isBitmap) :
    MergesAlike callees addweights oper operand1 operand2 records1 records2 ↔
      MergeCondition oper operand1 operand2 records1 records2 := by
  rw [mergesAlike_iff_members callees addweights oper h1 h2]
  cases operand1 with
  | list set1 =>
    cases operand2 with
    | list set2 => exact absurd hbitmap Bool.false_ne_true
    | bitmap index2 set2 last2 =>
      exact seBitmapMerge_list_bitmap callees addweights oper h1.1 h1.2.1 h1.2.2 h2
  | bitmap index1 set1 last1 =>
    cases operand2 with
    | list set2 => exact seBitmapMerge_bitmap_list callees addweights oper h1 h2.1 h2.2.1 h2.2.2
    | bitmap index2 set2 last2 => exact seBitmapMerge_bitmaps callees addweights oper h1 h2

end Merge

/-- The records 5 and 9, added one after the other. -/
def fiveNine : List Addition := [.single ⟨5, by decide, by decide⟩, .single ⟨9, by decide, by decide⟩]

theorem fiveNine_operand : ∃ idx,
    Runs.run (stepAddition [97]) (IdxListEntry.created BITMAPPED_TYPE) fiveNine = .ok idx ∧
    Operand.Represents (.bitmap (some idx) (seBitmap idx false [97]) 9) (ascending fiveNine) ∧
    0 < (seBitmap idx false [97]).numHits := by
  obtain ⟨idx, hrun, hloaded⟩ := loaded_run BITMAPPED_TYPE [97] fiveNine
  refine ⟨idx, hrun, ?_, ?_⟩
  · exact hloaded.bitmapOperand false (by simp [fiveNine]) (by decide) (by decide)
  · rw [(hloaded.seBitmap false).1]
    decide

/-- AND of the bitmap 5, 9 with the list 7, 9. -/
theorem bitmapMerge_agrees_and :
    let callees : MergeCallees := ⟨fun _ _ _ _ ↦ .ok none, fun _ _ _ ↦ .ok none,
      fun _ _ ↦ .ok none, fun _ ↦ .ok none, id, id⟩
    ∃ idx, MergesAlike callees 0 .and (.bitmap (some idx) (seBitmap idx false [97]) 9)
      (.list (WeightedResult.ofRecords "DB" [7, 9])) (ascending fiveNine) [7, 9] := by
  obtain ⟨idx, -, hoperand, -⟩ := fiveNine_operand
  have hlist : Operand.Represents (.list (WeightedResult.ofRecords "DB" [7, 9])) [7, 9] :=
    ⟨⟨⟨by decide, by decide⟩, by decide, by decide⟩, rfl, ⟨by decide, by decide⟩⟩
  refine ⟨idx, (bitmapMerge_agrees_iff _ 0 .and hoperand hlist rfl).mpr ?_⟩
  exact ⟨.inl rfl, by decide⟩

/-- OR of the bitmap 5, 9 with the list 7 loses the record 5. -/
theorem bitmapMerge_agrees_or : ¬∀ (callees : MergeCallees) (addweights : ℕ)
    (oper : MergeOperator) (operand1 operand2 : Operand) (records1 records2 : List ℤ),
    operand1.Represents records1 → operand2.Represents records2 →
    (operand1.isBitmap || operand2.isBitmap) = true →
      MergesAlike callees addweights oper operand1 operand2 records1 records2 := by
  intro hall
  let callees : MergeCallees := ⟨fun _ _ _ _ ↦ .ok none, fun _ _ _ ↦ .ok none,
    fun _ _ ↦ .ok none, fun _ ↦ .ok none, id, id⟩
  obtain ⟨idx, -, hoperand, hcounted⟩ := fiveNine_operand
  have hlist : Operand.Represents (.list (WeightedResult.ofRecords "DB" [7])) [7] :=
    ⟨⟨⟨by decide, by decide⟩, by decide, by decide⟩, rfl, ⟨by decide, by decide⟩⟩
  have halike := hall callees 0 .or _ _ _ _ hoperand hlist rfl
  rw [mergesAlike_iff_members callees 0 .or hoperand hlist] at halike
  have hconverts : ConvertsBeside (seBitmap idx false [97]) (ascending fiveNine) 9 [7] :=
    (seBitmapMerge_bitmap_list callees 0 .or hoperand hlist.1 hlist.2.1 hlist.2.2).mp halike
  -- two counted records do not survive the conversion
  have hone := hconverts.2
  rw [if_pos hcounted, ascending, Finset.length_sort] at hone
  revert hone
  decide

end Cheshire.Search
