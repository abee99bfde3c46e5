import Cheshire.Lib.Stride
import Cheshire.Lib.Cursor
import Cheshire.Index.BitmapLoaders

/-!
# Scanning an index

A scan sets a cursor to the first key that is not below the start term, moves it back and lists every so
many keys from there.  Keys that do not belong to a term, those of the totals and of bitmap blocks, are
passed over, but they count as steps; where no key is found for the start term, the term itself is
listed and the cursor is not set.
-/

namespace Cheshire.Zserver

open Lib Lib.Cursor Index

def globalDataKey : List Char := ">>>Global Data Values<<<".toList

inductive ScanData where
  | stored (data : CursorData)
  | bitblock (block : Block)

/-- `dataval.size` -/
def ScanData.size : ScanData → ℕ
  | stored data => data.size
  | bitblock _ => BITMAP_BLOCKSIZE_BYTES

/-- `num_entries` of the `idx_result` at the front of the value. -/
def ScanData.numEntries : ScanData → ℤ
  | stored (.postings block) => block.numEntries
  | _ => 0

def ScanData.isTerm : ScanData → Bool
  | stored (.postings _) => true
  | _ => false

abbrev ScanPair := List Char × ScanData

/-- `idx->type & BITMAPPED_TYPE` as a condition. -/
def isBitmapped (idxType : ℕ) : Bool := idxType &&& BITMAPPED_TYPE != 0

/-- An index, with its keys in order.  The value of a term holds one posting at least; bitmap blocks are
kept in the file of a bitmapped index, in which the values of terms have another size than a block. -/
structure ScanIndex where
  idxType : ℕ
  pairs : List ScanPair
  sorted : Sorted pairs
  totals : ∀ pair ∈ pairs, pair.1 = globalDataKey ↔ ∃ info, pair.2 = .stored (.totals info)
  head : ∀ pair ∈ pairs, pair.2.isTerm = true → SIZEOF_IDX_RESULT ≤ pair.2.size
  termSize : ∀ pair ∈ pairs, pair.2.isTerm = true → isBitmapped idxType = true →
    pair.2.size ≠ BITMAP_BLOCKSIZE_BYTES
  bitmapped : ∀ pair ∈ pairs, ∀ block, pair.2 = .bitblock block → isBitmapped idxType = true

/-- `TermInfo`; the count is what `CALLOC` left where it is not set. -/
structure TermInfo where
  term : List Char
  globalOccurrences : ℤ
deriving DecidableEq

/-- `keyval`, `dataval` and the cursor, and the counters of the scan.  A cursor that is not set gives no
data. -/
structure ScanState where
  cursor : Option (Position (List Char) ScanData)
  key : List Char
  data : Option ScanData
  more : ℕ
  status : ℕ

/-- `dbcursor->c_get` in a direction; it fails where there is no key. -/
def ScanState.get (state : ScanState) (pairs : List ScanPair) (direction : Direction) : Option ScanState :=
  (move pairs direction state.cursor).map fun position ↦
    { state with cursor := some position, key := position.pair.1, data := some position.pair.2 }

/-- `c_get` with `DB_SET_RANGE`, whose failure is not looked at. -/
def scanStart (pairs : List ScanPair) (term : List Char) (numberOfTermsRequested : ℕ) : ScanState :=
  match setRange pairs term with
  | some position => ⟨some position, position.pair.1, some position.pair.2, numberOfTermsRequested, 0⟩
  | none => ⟨none, term, none, numberOfTermsRequested, 0⟩

def stepBack (pairs : List ScanPair) (state : ScanState) : ScanState :=
  (state.get pairs .prev).getD { state with status := 5 }

/-- The two loops that back up. -/
def backUp (pairs : List ScanPair) (steps positions : ℕ) (state : ScanState) : ScanState :=
  (fun state ↦ (stepBack pairs)^[steps] state)^[positions] state

def stepOn (pairs : List ScanPair) (state : ScanState) : ScanState :=
  (state.get pairs .next).getD { state with more := 0, status := 5 }

/-- The key in hand is not that of a term. -/
def ScanState.isInternal (state : ScanState) (idxType : ℕ) : Bool :=
  (isBitmapped idxType && (state.data.elim 0 ScanData.size) = BITMAP_BLOCKSIZE_BYTES) ||
    state.key = globalDataKey

def ScanState.termInfo (state : ScanState) : TermInfo :=
  ⟨state.key, state.data.elim 0 fun data ↦
    if data.size < SIZEOF_IDX_RESULT then 0 else data.numEntries⟩

/-- `do ... while (more)` -/
def scanLoop (idx : ScanIndex) (steps : ℕ) : ℕ → ScanState → Exec (List TermInfo × ℕ)
  | 0, _ => .error .unfinished
  | fuel + 1, state =>
    let entry := if state.isInternal idx.idxType then [] else [state.termInfo]
    let more := if state.isInternal idx.idxType then state.more else state.more - 1
    let state := (stepOn idx.pairs)^[steps] { state with more := more }
    if state.more = 0 then .ok (entry, state.status)
    else scanLoop idx steps fuel state >>= fun rest ↦ .ok (entry ++ rest.1, rest.2)

/-- What a scan returns: a diagnostic, or the entries with the status and the step size. -/
inductive ScanAnswer where
  | diagnosed (code : ℕ) (addInfo : String) (status : ℕ)
  | listed (entries : List TermInfo) (status : ℕ) (stepUsed : ℤ)

/-- `CheshireScan` of one index; the counters of the inner loops run up to `stepSize + 1`. -/
def cheshireScan (fuel : ℕ) (idx : ScanIndex) (term : List Char)
    (stepSize numberOfTermsRequested preferredPositionInResponse : ℤ) : Exec ScanAnswer :=
  if stepSize < 0 then .ok (.diagnosed 206 "Negative Stepsize" 5)
  else if numberOfTermsRequested > 0 then
    if term.length < 1 then .ok (.diagnosed 9 "Null term in scan" 6)
    else
      checkInt (stepSize + 1) >>= fun steps ↦
        let state := scanStart idx.pairs term numberOfTermsRequested.toNat
        let state := backUp idx.pairs steps.toNat (preferredPositionInResponse - 1).toNat state
        scanLoop idx steps.toNat fuel state >>= fun listing ↦
          .ok (.listed listing.1 listing.2 stepSize)
  else .ok (.listed [] 0 stepSize)

def ScanIndex.terms (idx : ScanIndex) : List ScanPair := idx.pairs.filter fun pair ↦ pair.2.isTerm

/-- The place of a key among pairs. -/
def rank (pairs : List ScanPair) (key : List Char) : ℕ := rankIn Prod.fst pairs key

/-- A term is at so many steps from the first one that is not below the start term, and at most
`positions` steps before it. -/
def OnGrid (idx : ScanIndex) (start : List Char) (stepSize positions : ℕ) (pair : ScanPair) : Bool :=
  rank idx.terms start ≤ rank idx.terms pair.1 + positions * (stepSize + 1) ∧
    rank idx.terms pair.1 % (stepSize + 1) = rank idx.terms start % (stepSize + 1)

/-- A term with the number of its postings. -/
def occurrences (pair : ScanPair) : TermInfo := ⟨pair.1, pair.2.numEntries⟩

/-- The scan lists the first terms of the grid. -/
def ScanRight (idx : ScanIndex) (start : List Char) (stepSize numberOfTerms position : ℕ) :
    Exec ScanAnswer → Prop
  | .ok (.listed entries _ _) =>
    entries =
      ((idx.terms.filter (OnGrid idx start stepSize (position - 1))).take numberOfTerms).map occurrences
  | _ => False

section Keys

variable {idx : ScanIndex} {pair : ScanPair}

theorem isInternal_eq (hmem : pair ∈ idx.pairs) {state : ScanState} (hkey : state.key = pair.1)
    (hdata : state.data = some pair.2) : state.isInternal idx.idxType = !pair.2.isTerm := by
  have hsize : state.data.elim 0 ScanData.size = pair.2.size := by rw [hdata, Option.elim_some]
  rw [ScanState.isInternal, hsize, hkey]
  cases hdatum : pair.2 with
  | bitblock block => simp [ScanData.isTerm, ScanData.size, idx.bitmapped pair hmem block hdatum]
  | stored data =>
    cases data with
    | totals info =>
      have htotals := (idx.totals pair hmem).mpr ⟨info, hdatum⟩
      simp [ScanData.isTerm, htotals]
    | postings block =>
      have hterm : pair.2.isTerm = true := by rw [hdatum]; rfl
      have hkey' : pair.1 ≠ globalDataKey := by
        intro heq
        obtain ⟨info, htotals⟩ := (idx.totals pair hmem).mp heq
        rw [hdatum] at htotals
        cases htotals
      have hblock := idx.termSize pair hmem hterm
      rw [hdatum] at hblock
      cases hbitmapped : isBitmapped idx.idxType with
      | false => simp [ScanData.isTerm, hkey']
      | true => simp [ScanData.isTerm, hkey', hblock hbitmapped]

theorem termInfo_eq (hmem : pair ∈ idx.pairs) (hterm : pair.2.isTerm = true) {state : ScanState}
    (hkey : state.key = pair.1) (hdata : state.data = some pair.2) : state.termInfo = occurrences pair := by
  rw [ScanState.termInfo, hkey, hdata, Option.elim_some, if_neg (not_lt.mpr (idx.head pair hmem hterm)),
    occurrences]

end Keys

variable {rest : List ScanPair}

section Steps

variable {pairs : List ScanPair} {state : ScanState}

/-- The pairs that the next steps come to. -/
def upcoming (pairs : List ScanPair) (state : ScanState) : List ScanPair :=
  state.cursor.elim pairs Position.after

/-- A pair is in hand, and so many follow. -/
structure Shows (pairs : List ScanPair) (state : ScanState) (pair : ScanPair) (rest : List ScanPair) :
    Prop where
  key : state.key = pair.1
  data : state.data = some pair.2
  rest : upcoming pairs state = rest

theorem stepOn_nil (h : upcoming pairs state = []) :
    stepOn pairs state = { state with more := 0, status := 5 } := by
  have hget : state.get pairs .next = none := by
    rw [upcoming] at h
    rw [ScanState.get, Option.map_eq_none_iff]
    cases hcursor : state.cursor with
    | none =>
      rw [hcursor] at h
      change pairs = [] at h
      rw [h]
      rfl
    | some position =>
      rw [hcursor] at h
      exact (position.step_eq_none_iff .next).mpr h
  rw [stepOn, hget, Option.getD_none]

theorem stepOn_cons {pair : ScanPair} (h : upcoming pairs state = pair :: rest) :
    Shows pairs (stepOn pairs state) pair rest ∧ (stepOn pairs state).more = state.more := by
  obtain ⟨before, hmove⟩ : ∃ before, move pairs .next state.cursor = some ⟨before, pair, rest⟩ := by
    rw [upcoming] at h
    cases hcursor : state.cursor with
    | none =>
      rw [hcursor] at h
      change pairs = pair :: rest at h
      rw [h]
      exact ⟨[], rfl⟩
    | some position =>
      rw [hcursor] at h
      obtain ⟨before, own, after⟩ := position
      change after = pair :: rest at h
      rw [h]
      exact ⟨own :: before, rfl⟩
  rw [stepOn, ScanState.get, hmove]
  exact ⟨⟨rfl, rfl, rfl⟩, rfl⟩

theorem stepOn_iterate_nil (s : ℕ) (h : (upcoming pairs state).drop s = []) :
    ((stepOn pairs)^[s + 1] state).more = 0 := by
  induction s generalizing state with
  | zero =>
    rw [List.drop_zero] at h
    rw [Function.iterate_one, stepOn_nil h]
  | succ s ih =>
    rw [Function.iterate_succ_apply]
    cases hrest : upcoming pairs state with
    | nil =>
      rw [stepOn_nil hrest]
      apply ih
      change (upcoming pairs state).drop s = []
      rw [hrest, List.drop_nil]
    | cons pair rest =>
      apply ih
      rw [(stepOn_cons hrest).1.rest]
      rwa [hrest, List.drop_succ_cons] at h

theorem stepOn_iterate_cons (s : ℕ) {pair : ScanPair}
    (h : (upcoming pairs state).drop s = pair :: rest) :
    Shows pairs ((stepOn pairs)^[s + 1] state) pair rest ∧
      ((stepOn pairs)^[s + 1] state).more = state.more := by
  induction s generalizing state with
  | zero =>
    rw [List.drop_zero] at h
    rw [Function.iterate_one]
    exact stepOn_cons h
  | succ s ih =>
    cases hrest : upcoming pairs state with
    | nil =>
      rw [hrest, List.drop_nil] at h
      cases h
    | cons first others =>
      obtain ⟨hshows, hmore⟩ := stepOn_cons hrest
      rw [hrest, List.drop_succ_cons, ← hshows.rest] at h
      obtain ⟨hshows', hmore'⟩ := ih h
      rw [Function.iterate_succ_apply]
      exact ⟨hshows', hmore'.trans hmore⟩

end Steps

section Loop

variable (idx : ScanIndex)

def listedNow (state : ScanState) : List TermInfo :=
  if state.isInternal idx.idxType then [] else [state.termInfo]

/-- What the loop lists of pairs of the index. -/
def listedOf (pairs : List ScanPair) : List TermInfo :=
  (pairs.filter fun pair ↦ pair.2.isTerm).map occurrences

variable {idx}

theorem listedNow_of_shows {state : ScanState} {pair : ScanPair}
    (h : Shows idx.pairs state pair rest) (hmem : pair ∈ idx.pairs) :
    listedNow idx state = listedOf [pair] := by
  rw [listedNow, isInternal_eq hmem h.key h.data, listedOf]
  cases hterm : pair.2.isTerm with
  | false => simp [hterm]
  | true => simp [hterm, termInfo_eq hmem hterm h.key h.data]

theorem listedOf_cons (pair : ScanPair) (pairs : List ScanPair) :
    listedOf (pair :: pairs) = listedOf [pair] ++ listedOf pairs := by
  rw [listedOf, listedOf, listedOf, ← List.map_append, ← List.filter_append, List.singleton_append]

theorem scanLoop_spec (s : ℕ) {fuel : ℕ} {state : ScanState} {rest : List ScanPair}
    (hrest : upcoming idx.pairs state = rest) (hfuel : rest.length < fuel) (hmore : 0 < state.more)
    (hsub : ∀ pair ∈ rest, pair ∈ idx.pairs) :
    ∃ status, scanLoop idx (s + 1) fuel state =
      .ok ((listedNow idx state ++ listedOf (strideFrom s s rest)).take state.more, status) := by
  induction fuel generalizing state rest with
  | zero => exact absurd hfuel (Nat.not_lt_zero _)
  | succ fuel ih =>
    have hone : (listedNow idx state).length ≤ 1 := by
      rw [listedNow]
      split_ifs
      · exact Nat.zero_le 1
      · exact le_refl 1
    have hcount : state.more = (listedNow idx state).length +
        if state.isInternal idx.idxType then state.more else state.more - 1 := by
      rw [listedNow]
      split_ifs
      · exact (Nat.zero_add _).symm
      · rw [List.length_singleton]
        omega
    generalize hleft :
      (if state.isInternal idx.idxType then state.more else state.more - 1) = left at hcount
    rw [scanLoop, hleft]
    change ∃ status, (if ((stepOn idx.pairs)^[s + 1] { state with more := left }).more = 0 then
        Except.ok (listedNow idx state, ((stepOn idx.pairs)^[s + 1] { state with more := left }).status)
      else scanLoop idx (s + 1) fuel ((stepOn idx.pairs)^[s + 1] { state with more := left }) >>=
        fun other ↦ .ok (listedNow idx state ++ other.1, other.2)) = _
    have hupcoming : upcoming idx.pairs { state with more := left } = rest := hrest
    rw [strideFrom_drop]
    cases hdrop : rest.drop s with
    | nil =>
      rw [if_pos (stepOn_iterate_nil s (by rw [hupcoming, hdrop])), strideFrom]
      refine ⟨_, congrArg Except.ok (Prod.ext ?_ rfl)⟩
      change listedNow idx state = (listedNow idx state ++ []).take state.more
      rw [List.append_nil, List.take_of_length_le (hone.trans hmore)]
    | cons pair after =>
      obtain ⟨hshows, hmore'⟩ := stepOn_iterate_cons s (by rw [hupcoming, hdrop])
      rw [strideFrom, listedOf_cons]
      rcases Nat.eq_zero_or_pos left with hzero | hpos
      · rw [if_pos (hmore'.trans hzero)]
        refine ⟨_, congrArg Except.ok (Prod.ext ?_ rfl)⟩
        rw [hcount, hzero, Nat.add_zero]
        exact List.take_left.symm
      · rw [if_neg (by rw [hmore']; exact hpos.ne')]
        have hmem : pair ∈ rest := List.mem_of_mem_drop (by rw [hdrop]; exact List.mem_cons_self)
        have hshorter : after.length < fuel := by
          have hlength := congrArg List.length hdrop
          rw [List.length_drop, List.length_cons] at hlength
          omega
        obtain ⟨status, hrun⟩ := ih hshows.rest hshorter (by rw [hmore']; exact hpos) fun other hother ↦
          hsub other (List.mem_of_mem_drop (by rw [hdrop]; exact List.mem_cons_of_mem _ hother))
        refine ⟨status, ?_⟩
        rw [hrun, listedNow_of_shows hshows (hsub pair hmem), hmore', hcount, List.take_length_add_append]
        rfl

end Loop

variable {place : ℕ}

section Place

variable {pairs : List ScanPair} {state : ScanState}

/-- The cursor is at the pair of a place. -/
structure AtPlace (pairs : List ScanPair) (place : ℕ) (state : ScanState) : Prop where
  position : ∃ position, state.cursor = some position ∧ position.pairs = pairs ∧
    position.before.length = place ∧ state.key = position.pair.1 ∧ state.data = some position.pair.2

theorem AtPlace.shows (h : AtPlace pairs place state) :
    ∃ pair rest, Shows pairs state pair rest ∧ pairs.drop place = pair :: rest := by
  obtain ⟨position, hcursor, hpairs, hlength, hkey, hdata⟩ := h.position
  refine ⟨position.pair, position.after, ⟨hkey, hdata, ?_⟩, ?_⟩
  · rw [upcoming, hcursor, Option.elim_some]
  · rw [← hpairs, Position.pairs, ← hlength, ← List.length_reverse, List.drop_left]

theorem AtPlace.stepBack (h : AtPlace pairs place state) :
    AtPlace pairs (place - 1) (stepBack pairs state) ∧ (stepBack pairs state).more = state.more := by
  obtain ⟨⟨before, pair, after⟩, hcursor, hpairs, hlength, hkey, hdata⟩ := h.position
  cases before with
  | nil =>
    have hget : state.get pairs .prev = none := by
      rw [ScanState.get, hcursor]
      rfl
    rw [Zserver.stepBack, hget, Option.getD_none]
    refine ⟨⟨⟨[], pair, after⟩, hcursor, hpairs, ?_, hkey, hdata⟩, rfl⟩
    rw [← hlength]
    rfl
  | cons previous before =>
    have hget : state.get pairs .prev = some { state with
        cursor := some ⟨before, previous, pair :: after⟩
        key := previous.1
        data := some previous.2 } := by
      rw [ScanState.get, hcursor]
      rfl
    rw [Zserver.stepBack, hget, Option.getD_some]
    refine ⟨⟨⟨before, previous, pair :: after⟩, rfl, ?_, ?_, rfl, rfl⟩, rfl⟩
    · rw [← hpairs]
      simp [Position.pairs]
    · rw [← hlength, List.length_cons, Nat.add_sub_cancel]

theorem AtPlace.stepBack_iterate (h : AtPlace pairs place state) (m : ℕ) :
    AtPlace pairs (place - m) ((Zserver.stepBack pairs)^[m] state) ∧
      ((Zserver.stepBack pairs)^[m] state).more = state.more := by
  induction m generalizing state place with
  | zero => exact ⟨h, rfl⟩
  | succ m ih =>
    obtain ⟨hback, hmore⟩ := h.stepBack
    obtain ⟨hplace, hmore'⟩ := ih hback
    rw [Function.iterate_succ_apply, Nat.add_comm m 1, ← Nat.sub_sub]
    exact ⟨hplace, hmore'.trans hmore⟩

theorem stepBack_unset (hcursor : state.cursor = none) (hne : pairs ≠ []) :
    AtPlace pairs (pairs.length - 1) (stepBack pairs state) ∧
      (stepBack pairs state).more = state.more := by
  obtain ⟨pair, before, hreverse⟩ := List.exists_cons_of_ne_nil (List.reverse_ne_nil_iff.mpr hne)
  have hpairs : before.reverse ++ [pair] = pairs := by
    rw [← List.reverse_cons, ← hreverse, List.reverse_reverse]
  have hget : state.get pairs .prev =
      some { state with cursor := some ⟨before, pair, []⟩, key := pair.1, data := some pair.2 } := by
    rw [ScanState.get, hcursor, move, last, hreverse]
    rfl
  rw [Zserver.stepBack, hget, Option.getD_some]
  refine ⟨⟨⟨before, pair, []⟩, rfl, hpairs, ?_, rfl, rfl⟩, rfl⟩
  rw [← hpairs, List.length_append, List.length_reverse, List.length_singleton, Nat.add_sub_cancel]

theorem stepBack_unset_nil (key : List Char) (data : Option ScanData) (more status m : ℕ) :
    ∃ status', (stepBack [])^[m] ⟨none, key, data, more, status⟩ = ⟨none, key, data, more, status'⟩ := by
  induction m generalizing status with
  | zero => exact ⟨status, rfl⟩
  | succ m ih =>
    rw [Function.iterate_succ_apply]
    exact ih 5

theorem backUp_eq (steps positions : ℕ) :
    backUp pairs steps positions state = (stepBack pairs)^[steps * positions] state := by
  rw [backUp, Function.iterate_mul]

theorem scanStart_at (hsorted : Sorted pairs) {term : List Char} (n : ℕ)
    (h : ∃ pair ∈ pairs, term ≤ pair.1) :
    AtPlace pairs (rank pairs term) (scanStart pairs term n) ∧ (scanStart pairs term n).more = n := by
  cases hset : setRange pairs term with
  | none =>
    obtain ⟨pair, hmem, hle⟩ := h
    exact absurd hle (not_le.mpr (setRange_eq_none_iff.mp hset pair hmem))
  | some position =>
    have hat := at_of_setRange hsorted hset
    rw [scanStart, hset]
    refine ⟨⟨position, rfl, hat.pairs_eq, ?_, rfl, rfl⟩, rfl⟩
    have hbefore : rankIn Prod.fst position.before.reverse term = position.before.reverse.length :=
      rankIn_eq_length fun pair hmem ↦ hat.before_lt pair (List.mem_reverse.mp hmem)
    have hfrom : rankIn Prod.fst (position.pair :: position.after) term = 0 :=
      rankIn_eq_zero fun pair hmem ↦ (hat.mem_from_iff.mp hmem).2
    rw [rank, ← hat.pairs_eq, Position.pairs, rankIn_append, hbefore, hfrom, Nat.add_zero,
      List.length_reverse]

theorem scanStart_unset {term : List Char} (n : ℕ) (h : ∀ pair ∈ pairs, pair.1 < term) :
    scanStart pairs term n = ⟨none, term, none, n, 0⟩ := by
  rw [scanStart, setRange_eq_none_iff.mpr h]

theorem rank_eq_length {term : List Char} (h : ∀ pair ∈ pairs, pair.1 < term) :
    rank pairs term = pairs.length := rankIn_eq_length h

/-- The cursor is set when the counting of steps back is over. -/
def SetAfterBackUp (pairs : List ScanPair) (term : List Char) (positions : ℕ) : Prop :=
  (∃ pair ∈ pairs, term ≤ pair.1) ∨ 1 ≤ positions ∧ pairs ≠ []

theorem backUp_at (hsorted : Sorted pairs) {term : List Char} (n s positions : ℕ)
    (h : SetAfterBackUp pairs term positions) :
    AtPlace pairs (rank pairs term - positions * (s + 1))
        (backUp pairs (s + 1) positions (scanStart pairs term n)) ∧
      (backUp pairs (s + 1) positions (scanStart pairs term n)).more = n := by
  rw [backUp_eq, Nat.mul_comm (s + 1)]
  by_cases hfound : ∃ pair ∈ pairs, term ≤ pair.1
  · obtain ⟨hplace, hmore⟩ := scanStart_at hsorted n hfound
    obtain ⟨hback, hmore'⟩ := hplace.stepBack_iterate (positions * (s + 1))
    exact ⟨hback, hmore'.trans hmore⟩
  · obtain ⟨hpositions, hne⟩ := h.resolve_left hfound
    have hbelow (pair : ScanPair) (hmem : pair ∈ pairs) : pair.1 < term :=
      not_le.mp fun hle ↦ hfound ⟨pair, hmem, hle⟩
    obtain ⟨m, hm⟩ := Nat.exists_eq_succ_of_ne_zero (Nat.mul_pos hpositions (Nat.succ_pos s)).ne'
    have hcursor : (scanStart pairs term n).cursor = none := by rw [scanStart_unset n hbelow]
    obtain ⟨hlast, hmore⟩ := stepBack_unset hcursor hne
    obtain ⟨hback, hmore'⟩ := hlast.stepBack_iterate m
    rw [rank_eq_length hbelow, hm, Function.iterate_succ_apply, Nat.succ_eq_one_add, ← Nat.sub_sub]
    refine ⟨hback, hmore'.trans (hmore.trans ?_)⟩
    rw [scanStart_unset n hbelow]

end Place

section Listing

variable (idx : ScanIndex) (term : List Char) (s positions : ℕ)

/-- The grid of the code: the steps are counted among all keys, and the place before which there is no
key is the first one. -/
def AmongKeys (pair : ScanPair) : Bool :=
  rank idx.pairs term - positions * (s + 1) ≤ rank idx.pairs pair.1 ∧
    rank idx.pairs pair.1 % (s + 1) = (rank idx.pairs term - positions * (s + 1)) % (s + 1)

variable {idx term s positions}

theorem mem_terms {pair : ScanPair} : pair ∈ idx.terms ↔ pair ∈ idx.pairs ∧ pair.2.isTerm = true :=
  List.mem_filter

theorem sorted_terms : Sorted idx.terms := idx.sorted.filter _

theorem nodup_occurrences : (idx.terms.map occurrences).Nodup := by
  rw [List.Nodup, List.pairwise_map]
  exact sorted_terms.imp fun hlt heq ↦ hlt.ne (congrArg TermInfo.term heq)

theorem scanLoop_at {fuel n : ℕ} {state : ScanState} (h : AtPlace idx.pairs place state)
    (hplace : place ≤ idx.pairs.length) (hmore : state.more = n) (hn : 1 ≤ n)
    (hfuel : idx.pairs.length < fuel) : ∃ status, scanLoop idx (s + 1) fuel state = .ok
      (((idx.terms.filter fun pair ↦ place ≤ rank idx.pairs pair.1 ∧
        rank idx.pairs pair.1 % (s + 1) = place % (s + 1)).take n).map occurrences, status) := by
  obtain ⟨pair, rest, hshows, hdrop⟩ := h.shows
  have hmem (other : ScanPair) (hother : other ∈ pair :: rest) : other ∈ idx.pairs :=
    List.mem_of_mem_drop (hdrop ▸ hother)
  have hlength := congrArg List.length hdrop
  rw [List.length_drop, List.length_cons] at hlength
  obtain ⟨status, hrun⟩ := scanLoop_spec s hshows.rest (show rest.length < fuel by omega)
    (by rw [hmore]; exact hn) fun other hother ↦ hmem other (List.mem_cons_of_mem _ hother)
  refine ⟨status, ?_⟩
  have hwalk : listedNow idx state ++ listedOf (strideFrom s s rest) =
      listedOf (strideFrom s 0 (idx.pairs.drop place)) := by
    rw [hdrop, strideFrom, listedOf_cons, listedNow_of_shows hshows (hmem pair List.mem_cons_self)]
  rw [hrun, hwalk, hmore, strideFrom_drop_eq_filter s hplace idx.sorted, listedOf, ← List.map_take,
    List.filter_comm]
  rfl

theorem cheshireScan_eq {fuel n p : ℕ} (hterm : term ≠ []) (hn : 1 ≤ n) (hs : s < INT_MAX) :
    cheshireScan fuel idx term s n p =
      scanLoop idx (s + 1) fuel (backUp idx.pairs (s + 1) (p - 1) (scanStart idx.pairs term n)) >>=
        fun listing ↦ .ok (.listed listing.1 listing.2 s) := by
  have hlength : ¬term.length < 1 := by
    rw [Nat.lt_one_iff]
    exact fun hzero ↦ hterm (List.eq_nil_of_length_eq_zero hzero)
  have hsteps : checkInt ((s : ℤ) + 1) = .ok ((s : ℤ) + 1) := by
    rw [INT_MAX] at hs
    exact if_pos (by omega)
  have hcount : ((s : ℤ) + 1).toNat = s + 1 := by omega
  have hpositions : ((p : ℤ) - 1).toNat = p - 1 := by omega
  rw [cheshireScan, if_neg (by omega), if_pos (by omega), if_neg hlength, hsteps]
  change (scanLoop idx ((s : ℤ) + 1).toNat fuel (backUp idx.pairs ((s : ℤ) + 1).toNat ((p : ℤ) - 1).toNat
    (scanStart idx.pairs term (n : ℤ).toNat)) >>= _) = _
  rw [hcount, hpositions, Int.toNat_natCast]

end Listing

section Right

variable (idx : ScanIndex) (term : List Char) (s n positions : ℕ)

/-- What the right answer depends on.  Where the cursor is set, each term up to which not enough terms
of the grid have been listed is on the grid of all keys if and only if it is on that of the terms.  Where
it is not set, nothing may be listed. -/
structure ScanFits : Prop where
  nonempty : term ≠ []
  stepSize : s < INT_MAX
  grids : SetAfterBackUp idx.pairs term positions → ∀ before pair after,
    idx.terms = before ++ pair :: after →
      (before.filter (OnGrid idx term s positions)).length < n →
        AmongKeys idx term s positions pair = OnGrid idx term s positions pair
  unset : ¬SetAfterBackUp idx.pairs term positions → term = globalDataKey ∧
    ∀ pair ∈ idx.terms, ¬s + 1 ∣ rank idx.pairs pair.1 + 1

variable {idx term s n positions}

theorem filter_onGrid_unset (h : ¬SetAfterBackUp idx.pairs term positions) :
    idx.terms.filter (OnGrid idx term s positions) = [] := by
  rw [SetAfterBackUp, not_or] at h
  refine List.filter_eq_nil_iff.mpr fun pair hmem ↦ ?_
  have hpairs := (mem_terms.mp hmem).1
  have hzero : positions = 0 := by
    by_contra hne
    exact h.2 ⟨Nat.pos_of_ne_zero hne, List.ne_nil_of_mem hpairs⟩
  have hbelow (other : ScanPair) (hother : other ∈ idx.terms) : other.1 < term :=
    not_le.mp fun hle ↦ h.1 ⟨other, (mem_terms.mp hother).1, hle⟩
  obtain ⟨before, after, hsplit⟩ := List.append_of_mem hmem
  have hrank : rank idx.terms pair.1 = before.length := by
    have hsorted : Sorted idx.terms := sorted_terms
    rw [hsplit] at hsorted
    rw [rank, hsplit]
    exact rankIn_append_cons hsorted
  have hlength := congrArg List.length hsplit
  rw [List.length_append, List.length_cons] at hlength
  rw [OnGrid, rank_eq_length hbelow, hrank, hzero, decide_eq_true_iff]
  omega

theorem backUp_unset (n : ℕ) (h : ¬SetAfterBackUp idx.pairs term positions) :
    ∃ status, backUp idx.pairs (s + 1) positions (scanStart idx.pairs term n) =
      ⟨none, term, none, n, status⟩ := by
  rw [SetAfterBackUp, not_or] at h
  have hstart : scanStart idx.pairs term n = ⟨none, term, none, n, 0⟩ :=
    scanStart_unset n fun pair hmem ↦ not_le.mp fun hle ↦ h.1 ⟨pair, hmem, hle⟩
  rw [backUp_eq, hstart]
  rcases Nat.eq_zero_or_pos positions with rfl | hpos
  · exact ⟨0, rfl⟩
  · have hnil : idx.pairs = [] := by
      by_contra hne
      exact h.2 ⟨hpos, hne⟩
    rw [hnil]
    exact stepBack_unset_nil term none n 0 _

theorem scanLoop_unset {fuel : ℕ} (status : ℕ) (hn : 1 ≤ n) (hfuel : idx.pairs.length < fuel) :
    ∃ status', scanLoop idx (s + 1) fuel ⟨none, term, none, n, status⟩ = .ok
      (((if term = globalDataKey then [] else [(⟨term, 0⟩ : TermInfo)]) ++
        listedOf (strideFrom s s idx.pairs)).take n, status') := by
  obtain ⟨status', hrun⟩ := @scanLoop_spec idx s fuel ⟨none, term, none, n, status⟩ idx.pairs rfl hfuel hn
    fun pair hmem ↦ hmem
  have hnow : listedNow idx ⟨none, term, none, n, status⟩ =
      if term = globalDataKey then [] else [⟨term, 0⟩] := by
    have hsize : ¬0 = BITMAP_BLOCKSIZE_BYTES := by decide
    rw [listedNow]
    simp [ScanState.isInternal, ScanState.termInfo, hsize]
  rw [hnow] at hrun
  exact ⟨status', hrun⟩

theorem mod_eq_iff_dvd (s r : ℕ) : r % (s + 1) = s ↔ s + 1 ∣ r + 1 := by
  constructor
  · intro h
    refine ⟨r / (s + 1) + 1, ?_⟩
    have hdivision := Nat.div_add_mod r (s + 1)
    rw [h] at hdivision
    rw [Nat.mul_add, Nat.mul_one, ← Nat.add_assoc, hdivision]
  · rintro ⟨k, hk⟩
    obtain ⟨q, rfl⟩ := Nat.exists_eq_succ_of_ne_zero (show k ≠ 0 by
      rintro rfl
      exact Nat.succ_ne_zero r hk)
    have hr : r = (s + 1) * q + s := Nat.succ_injective hk
    rw [hr, Nat.mul_add_mod, Nat.mod_eq_of_lt (Nat.lt_succ_self s)]

theorem listedOf_strideFrom_eq_nil_iff :
    listedOf (strideFrom s s idx.pairs) = [] ↔ ∀ pair ∈ idx.terms, ¬s + 1 ∣ rank idx.pairs pair.1 + 1 := by
  have hwalk := strideFrom_eq_filter (le_refl s) (show ([] ++ idx.pairs).Pairwise _ from idx.sorted)
  rw [hwalk, listedOf, List.map_eq_nil_iff, List.filter_comm, List.filter_eq_nil_iff]
  refine forall₂_congr fun pair _ ↦ not_congr ?_
  rw [decide_eq_true_iff, List.length_nil, Nat.zero_add, Nat.mod_eq_of_lt (Nat.lt_succ_self s)]
  exact mod_eq_iff_dvd s _

/-- The scan lists the terms at the steps that are asked for just where the grid of the keys allows it. -/
theorem cheshireScan_iff (idx : ScanIndex) (term : List Char) (s p : ℕ) {n fuel : ℕ} (hn : 1 ≤ n)
    (hfuel : idx.pairs.length < fuel) :
    ScanRight idx term s n p (cheshireScan fuel idx term s n p) ↔ ScanFits idx term s n (p - 1) := by
  by_cases hterm : term = []
  · have hrefused : cheshireScan fuel idx term s n p = .ok (.diagnosed 9 "Null term in scan" 6) := by
      rw [cheshireScan, if_neg (by omega), if_pos (by omega), if_pos (by rw [hterm]; exact Nat.one_pos)]
    rw [hrefused]
    exact iff_of_false (fun h ↦ h) fun h ↦ h.nonempty hterm
  by_cases hs : s < INT_MAX
  · rw [cheshireScan_eq hterm hn hs]
    by_cases hset : SetAfterBackUp idx.pairs term (p - 1)
    · obtain ⟨hplace, hmore⟩ := backUp_at idx.sorted n s (p - 1) hset
      have hle : rank idx.pairs term - (p - 1) * (s + 1) ≤ idx.pairs.length :=
        (Nat.sub_le _ _).trans List.countP_le_length
      obtain ⟨status, hrun⟩ := scanLoop_at hplace hle hmore hn hfuel
      rw [hrun]
      refine (map_take_filter_eq_iff nodup_occurrences n).trans ?_
      constructor
      · intro h
        exact ⟨hterm, hs, fun _ ↦ h, fun hnot ↦ absurd hset hnot⟩
      · intro h
        exact h.grids hset
    · obtain ⟨status, hback⟩ := backUp_unset (s := s) n hset
      obtain ⟨status', hrun⟩ := @scanLoop_unset idx term s n fuel status hn hfuel
      rw [hback, hrun]
      change _ = ((idx.terms.filter (OnGrid idx term s (p - 1))).take n).map occurrences ↔ _
      rw [filter_onGrid_unset hset, List.take_nil, List.map_nil, List.take_eq_nil_iff,
        or_iff_right (by omega), List.append_eq_nil_iff, listedOf_strideFrom_eq_nil_iff]
      have hnow : (if term = globalDataKey then [] else [(⟨term, 0⟩ : TermInfo)]) = [] ↔
          term = globalDataKey := by
        by_cases hkey : term = globalDataKey
        · rw [if_pos hkey]
          exact iff_of_true rfl hkey
        · rw [if_neg hkey]
          exact iff_of_false (List.cons_ne_nil _ _) hkey
      rw [hnow]
      constructor
      · intro h
        exact ⟨hterm, hs, fun hset' ↦ absurd hset' hset, fun _ ↦ h⟩
      · intro h
        exact h.unset hset
  · have hoverflow : checkInt ((s : ℤ) + 1) = .error .signedOverflow := by
      rw [INT_MAX] at hs
      exact if_neg (by omega)
    have hfault : cheshireScan fuel idx term s n p = .error .signedOverflow := by
      rw [cheshireScan, if_neg (by omega), if_pos (by omega), if_neg ?_, hoverflow]
      · rfl
      · rw [Nat.lt_one_iff]
        exact fun hzero ↦ hterm (List.eq_nil_of_length_eq_zero hzero)
    rw [hfault]
    exact iff_of_false (fun h ↦ h) fun h ↦ hs h.stepSize

end Right

/-- Every word in the first record, behind the totals. -/
def inFirstRecord (words : List (List Char)) : List ScanPair :=
  (globalDataKey, .stored (.totals ⟨1, words.length, words.length⟩)) ::
    words.map fun word ↦ (word, .stored (.postings ⟨1, 1, 1, [⟨1, 1⟩]⟩))

section Words

variable {words : List (List Char)} {pair : ScanPair}

theorem mem_inFirstRecord (h : pair ∈ inFirstRecord words) :
    (pair.1 = globalDataKey ∧ ∃ info, pair.2 = .stored (.totals info)) ∨
      pair.1 ∈ words ∧ pair.2 = .stored (.postings ⟨1, 1, 1, [⟨1, 1⟩]⟩) := by
  rcases List.mem_cons.mp h with rfl | h
  · exact Or.inl ⟨rfl, _, rfl⟩
  · obtain ⟨word, hmem, rfl⟩ := List.mem_map.mp h
    exact Or.inr ⟨hmem, rfl⟩

theorem sorted_inFirstRecord (h : (globalDataKey :: words).Pairwise (· < ·)) :
    Sorted (inFirstRecord words) :=
  have ⟨hfirst, hrest⟩ := List.pairwise_cons.mp h
  List.pairwise_cons.mpr ⟨List.forall_mem_map.mpr hfirst, List.pairwise_map.mpr hrest⟩

theorem totals_inFirstRecord (h : globalDataKey ∉ words) (hmem : pair ∈ inFirstRecord words) :
    pair.1 = globalDataKey ↔ ∃ info, pair.2 = .stored (.totals info) := by
  rcases mem_inFirstRecord hmem with ⟨hkey, htotals⟩ | ⟨hword, hdata⟩
  · exact iff_of_true hkey htotals
  · refine iff_of_false (fun heq ↦ h (heq ▸ hword)) ?_
    rw [hdata]
    rintro ⟨info, hinfo⟩
    cases hinfo

theorem head_inFirstRecord (hmem : pair ∈ inFirstRecord words) (hterm : pair.2.isTerm = true) :
    SIZEOF_IDX_RESULT ≤ pair.2.size := by
  rcases mem_inFirstRecord hmem with ⟨-, info, hdata⟩ | ⟨-, hdata⟩
  · rw [hdata] at hterm
    cases hterm
  · rw [hdata]
    exact le_rfl

theorem not_bitblock_inFirstRecord (hmem : pair ∈ inFirstRecord words) (block : Block) :
    pair.2 ≠ .bitblock block := by
  rcases mem_inFirstRecord hmem with ⟨-, info, hdata⟩ | ⟨-, hdata⟩
  · rw [hdata]
    exact fun h ↦ ScanData.noConfusion h
  · rw [hdata]
    exact fun h ↦ ScanData.noConfusion h

theorem not_isBitmapped_zero : isBitmapped 0 ≠ true := by decide

/-- An index of words that is not bitmapped. -/
def wordScanIndex (words : List (List Char)) (hsorted : (globalDataKey :: words).Pairwise (· < ·))
    (hglobal : globalDataKey ∉ words) : ScanIndex where
  idxType := 0
  pairs := inFirstRecord words
  sorted := sorted_inFirstRecord hsorted
  totals := fun _ hmem ↦ totals_inFirstRecord hglobal hmem
  head := fun _ hmem hterm ↦ head_inFirstRecord hmem hterm
  termSize := fun _ _ _ hbitmapped ↦ absurd hbitmapped not_isBitmapped_zero
  bitmapped := fun _ hmem block hblock ↦ absurd hblock (not_bitblock_inFirstRecord hmem block)

end Words

theorem sorted_ab : (globalDataKey :: [['a'], ['b']]).Pairwise (· < ·) := by decide

theorem globalDataKey_notMem_ab : globalDataKey ∉ [['a'], ['b']] := by decide

def twoWords : ScanIndex := wordScanIndex [['a'], ['b']] sorted_ab globalDataKey_notMem_ab

theorem cheshireScan_iff_twoWords :
    1 ≤ 3 ∧ twoWords.pairs.length < 4 ∧
      (ScanRight twoWords ['b'] 0 3 2 (cheshireScan 4 twoWords ['b'] (0 : ℕ) (3 : ℕ) (2 : ℕ)) ↔
        ScanFits twoWords ['b'] 0 3 (2 - 1)) :=
  ⟨by decide, by decide, cheshireScan_iff twoWords ['b'] 0 2 (by decide) (by decide)⟩

/-- Beyond the last word the start term itself is listed, and the first word after it. -/
theorem not_scanRight_twoWords :
    ¬ScanRight twoWords ['c'] 0 2 1 (cheshireScan 4 twoWords ['c'] 0 2 1) := by
  have hscan : cheshireScan 4 twoWords ['c'] 0 2 1 = .ok (.listed [⟨['c'], 0⟩, ⟨['a'], 1⟩] 0 0) := rfl
  have hgrid : twoWords.terms.filter (OnGrid twoWords ['c'] 0 (1 - 1)) = [] := rfl
  rw [hscan, ScanRight, hgrid]
  exact List.cons_ne_nil _ _

end Cheshire.Zserver
