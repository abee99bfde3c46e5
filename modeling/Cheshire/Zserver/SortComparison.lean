import Cheshire.Fault
import Cheshire.Lib.KeyOrder

/-!
# Comparing sort entries

`compare_ResSrt_entries` goes through the sort keys of two entries and leaves the loop at the first
key at which it stops.  The keys in their order make up a total preorder; which of two entries comes
first in it is decided by the first key that distinguishes them, and that need not be the key at which
the loop stops.
-/

namespace Cheshire.Zserver

open Lib Lib.KeyOrder
open Std (TransCmp OrientedCmp ReflCmp)

/-- A string, without the zero at its end. -/
abbrev CString := {bytes : List UInt8 // 0 ∉ bytes}

def strcmpBytes : List UInt8 → List UInt8 → ℤ
  | [], [] => 0
  | [], y :: _ => -(y.toNat : ℤ)
  | x :: _, [] => x.toNat
  | x :: xs, y :: ys => if x = y then strcmpBytes xs ys else (x.toNat : ℤ) - y.toNat

def strcmp (s1 s2 : CString) : ℤ := strcmpBytes s1.1 s2.1

/-- `tolower` of a byte. -/
def toLower (byte : UInt8) : UInt8 := if 65 ≤ byte ∧ byte ≤ 90 then byte + 32 else byte

theorem toLower_ne_zero {byte : UInt8} (hne : byte ≠ 0) : toLower byte ≠ 0 := by
  rw [toLower]
  split_ifs with hupper
  · obtain ⟨hlow, hhigh⟩ := hupper
    rw [UInt8.le_iff_toNat_le] at hlow hhigh
    intro hzero
    have hsum := congrArg UInt8.toNat hzero
    rw [UInt8.toNat_add] at hsum
    simp only [UInt8.reduceToNat] at hlow hhigh hsum
    omega
  · exact hne

def lowered (s : CString) : CString :=
  ⟨s.1.map toLower, fun hmem ↦ by
    obtain ⟨byte, hbyte, hzero⟩ := List.mem_map.mp hmem
    refine toLower_ne_zero ?_ hzero
    rintro rfl
    exact s.2 hbyte⟩

def strcasecmp (s1 s2 : CString) : ℤ := strcmp (lowered s1) (lowered s2)

def byteOrder (s1 s2 : CString) : Ordering := List.compareLex compare s1.1 s2.1

instance : TransCmp byteOrder :=
  transCmp_on (List.compareLex (compare : UInt8 → UInt8 → Ordering)) Subtype.val

theorem pos_of_not_mem {y : UInt8} {ys : List UInt8} (hys : 0 ∉ y :: ys) : 0 < y.toNat := by
  rw [Nat.pos_iff_ne_zero, ← UInt8.toNat_zero, Ne, UInt8.toNat_inj]
  exact fun heq ↦ hys (heq ▸ List.mem_cons_self)

theorem strcmpBytes_sign {xs ys : List UInt8} (hxs : 0 ∉ xs) (hys : 0 ∉ ys) :
    compare (strcmpBytes xs ys) 0 = List.compareLex compare xs ys := by
  induction xs generalizing ys with
  | nil =>
    cases ys with
    | nil => rfl
    | cons y ys =>
      have hpos := pos_of_not_mem hys
      rw [strcmpBytes, List.compareLex_nil_cons, compare_lt_iff_lt]
      omega
  | cons x xs ih =>
    cases ys with
    | nil =>
      have hpos := pos_of_not_mem hxs
      rw [strcmpBytes, List.compareLex_cons_nil, compare_gt_iff_gt]
      omega
    | cons y ys =>
      rw [strcmpBytes, List.compareLex_cons_cons]
      by_cases heq : x = y
      · subst heq
        rw [if_pos rfl, @ReflCmp.compare_self UInt8 compare _, Ordering.eq_then]
        exact ih (fun hmem ↦ hxs (List.mem_cons_of_mem _ hmem))
          fun hmem ↦ hys (List.mem_cons_of_mem _ hmem)
      · rw [if_neg heq]
        rcases lt_or_gt_of_ne fun hval ↦ heq (UInt8.toNat_inj.mp hval) with hlt | hgt
        · have hfirst : compare x y = .lt := compareOfLessAndEq_eq_lt.mpr (UInt8.lt_iff_toNat_lt.mpr hlt)
          rw [hfirst, Ordering.lt_then, compare_lt_iff_lt]
          omega
        · have hless : y < x := UInt8.lt_iff_toNat_lt.mpr hgt
          have hfirst : compare x y = .gt := by
            rw [OrientedCmp.gt_iff_lt]
            exact compareOfLessAndEq_eq_lt.mpr hless
          rw [hfirst, Ordering.gt_then, compare_gt_iff_gt]
          omega

theorem strcmp_sign (s1 s2 : CString) : compare (strcmp s1 s2) 0 = byteOrder s1 s2 :=
  strcmpBytes_sign s1.2 s2.2

inductive MissingValueAction where
  | abort
  | nullVal
  | missingValueData (data : CString)

/-- How a sort key names what is read of a record. -/
inductive SortElement where
  | sortfield
  | elementSpec
  | sortAttributes
deriving DecidableEq

structure SortKeySpec where
  sortElement : SortElement
  sortRelation : ℤ
  caseSensitivity : ℤ
  missingValueAction : MissingValueAction

structure SortKeyEntry where
  key : Option CString
  spec : SortKeySpec

/-- `strcmp` or `strcasecmp` -/
def compareStrings (casesensitive : ℤ) (s1 s2 : CString) : ℤ :=
  if casesensitive ≠ 0 then strcmp s1 s2 else strcasecmp s1 s2

/-- The comparison of two values; one is left as it is. -/
def compareValues (casesensitive : ℤ) (s1 s2 : CString) : ℤ :=
  let compresult := compareStrings casesensitive s1 s2
  if compresult > 1 then 1 else if compresult < 0 then -1 else compresult

/-- The comparison of a value with the one for missing values. -/
def compareMissing (casesensitive : ℤ) (s1 s2 : CString) : ℤ :=
  let compresult := compareStrings casesensitive s1 s2
  if compresult > 0 then 1 else if compresult < 0 then -1 else compresult

/-- `spec->missingValueAction.u.missingValueData`, which only a key of that kind has. -/
def missingData (spec : SortKeySpec) : Exec CString :=
  match spec.missingValueAction with
  | .missingValueData data => .ok data
  | _ => .error .nullDereference

/-- The loop of `compare_ResSrt_entries`; `compresult` is without a value at first, and `cancelled`
says that the diagnostic for missing values was set. -/
def compareKeys : List SortKeyEntry → List SortKeyEntry → Option ℤ → Bool → Exec (ℤ × Bool)
  | [], _, compresult, cancelled =>
    match compresult with
    | some compresult => .ok (compresult, cancelled)
    | none => .error .uninitialized
  | _ :: _, [], _, _ => .error .outOfBounds
  | k1 :: keys1, k2 :: keys2, compresult, cancelled =>
    let relation := k1.spec.sortRelation
    let casesensitive := k1.spec.caseSensitivity
    match k1.key, k2.key with
    | some s1, some s2 =>
      let compresult := compareValues casesensitive s1 s2
      -- `relation == 0 & compresult != 0` is one condition, so a tie is returned, too
      if relation = 0 ∧ compresult ≠ 0 then .ok (compresult, cancelled)
      else .ok (compresult * -1, cancelled)
    | key1, key2 =>
      match k1.spec.missingValueAction with
      | .abort => compareKeys keys1 keys2 compresult true
      | .nullVal =>
        match key1, key2 with
        | none, none => compareKeys keys1 keys2 (some 0) cancelled
        | none, some _ => .ok (if relation = 0 then 1 else -1, cancelled)
        | some _, _ => .ok (if relation = 0 then -1 else 1, cancelled)
      | .missingValueData data =>
        match key1, key2 with
        | none, none => compareKeys keys1 keys2 (some 0) cancelled
        -- only the other branch returns the result of its comparison
        | none, some s2 =>
          compareKeys keys1 keys2 (some (compareMissing casesensitive data s2)) cancelled
        | some s1, _ => do
          let data ← missingData k2.spec
          let compresult := compareMissing casesensitive s1 data
          if compresult ≠ 0 then
            .ok (if relation = 0 then compresult else compresult * -1, cancelled)
          else compareKeys keys1 keys2 (some compresult) cancelled

structure ResultSortKey where
  docid : ℤ
  docWeight : ℚ
  vdbPtr : ℕ
  origRank : ℕ
  keys : List SortKeyEntry

def compareResSrtEntries (t1 t2 : ResultSortKey) : Exec (ℤ × Bool) :=
  compareKeys t1.keys t2.keys none false

/-- A string as it is compared. -/
def folded (spec : SortKeySpec) (s : CString) : CString :=
  if spec.caseSensitivity ≠ 0 then s else lowered s

/-- Where an entry is placed under a key: without a value it takes the one for missing values, or
else comes last. -/
def placedAt (spec : SortKeySpec) : Option CString → Option CString
  | some s => some (folded spec s)
  | none =>
    match spec.missingValueAction with
    | .missingValueData data => some (folded spec data)
    | _ => none

/-- The order under one key, without its direction. -/
def valueOrder (spec : SortKeySpec) (key1 key2 : Option CString) : Ordering :=
  missingLast byteOrder (placedAt spec key1) (placedAt spec key2)

def keyOrder (spec : SortKeySpec) : Option CString → Option CString → Ordering :=
  directed (spec.sortRelation = 0) (valueOrder spec)

/-- The order under all the keys, the first of which is the most significant. -/
def lexOrder : List SortKeySpec → List (Option CString) → List (Option CString) → Ordering
  | [], _, _ => .eq
  | spec :: specs, keys1, keys2 =>
    (keyOrder spec keys1.head?.join keys2.head?.join).then (lexOrder specs keys1.tail keys2.tail)

instance (spec : SortKeySpec) : TransCmp (valueOrder spec) :=
  transCmp_on (missingLast byteOrder) (placedAt spec)

instance (spec : SortKeySpec) : TransCmp (keyOrder spec) := transCmp_directed _ _

/-- The order under all the keys is a total preorder. -/
instance transCmp_lexOrder (specs : List SortKeySpec) : TransCmp (lexOrder specs) := by
  induction specs with
  | nil => exact { eq_swap := rfl, isLE_trans := fun _ _ ↦ rfl }
  | cons spec specs ih =>
    have hfirst : TransCmp fun keys1 keys2 : List (Option CString) ↦
        keyOrder spec keys1.head?.join keys2.head?.join :=
      transCmp_on (keyOrder spec) fun keys : List (Option CString) ↦ keys.head?.join
    have hrest : TransCmp fun keys1 keys2 : List (Option CString) ↦
        lexOrder specs keys1.tail keys2.tail := transCmp_on (lexOrder specs) List.tail
    exact inferInstanceAs (TransCmp (compareLex _ _))

/-- The loop stops at a key where both entries have a value, where one has none and comes last, and
where the second has none and the one for missing values differs. -/
def stopsAt (spec : SortKeySpec) : Option CString → Option CString → Bool
  | some _, some _ => true
  | none, none => false
  | none, some _ =>
    match spec.missingValueAction with
    | .nullVal => true
    | _ => false
  | some s1, none =>
    match spec.missingValueAction with
    | .nullVal => true
    | .missingValueData data => byteOrder (folded spec s1) (folded spec data) ≠ .eq
    | .abort => false

/-- The order under the first key at which the loop stops. -/
def stopOrder : List SortKeySpec → List (Option CString) → List (Option CString) → Option Ordering
  | [], _, _ => none
  | spec :: specs, keys1, keys2 =>
    if stopsAt spec keys1.head?.join keys2.head?.join then
      some (keyOrder spec keys1.head?.join keys2.head?.join)
    else stopOrder specs keys1.tail keys2.tail

/-- The order under the last key, without its direction, or an earlier one when there is no key. -/
def lastOrder : List SortKeySpec → List (Option CString) → List (Option CString) →
    Option Ordering → Option Ordering
  | [], _, _, earlier => earlier
  | spec :: specs, keys1, keys2, _ =>
    lastOrder specs keys1.tail keys2.tail
      (some (valueOrder spec keys1.head?.join keys2.head?.join))

/-- Every key has its place in the list, and no value is missing where that is to end the sort. -/
def Complete : List SortKeySpec → List (Option CString) → Prop :=
  List.Forall₂ fun spec key ↦ spec.missingValueAction = .abort → key ≠ none

def keyEntries (specs : List SortKeySpec) (keys : List (Option CString)) : List SortKeyEntry :=
  List.zipWith (fun spec key ↦ ⟨key, spec⟩) specs keys

/-- A comparison returns a value of the given sign, or has no value to return. -/
def Compares (outcome : Exec (ℤ × Bool)) : Option Ordering → Prop
  | some order => ∃ compresult, outcome = .ok (compresult, false) ∧ compare compresult 0 = order
  | none => outcome = .error .uninitialized

section

variable (spec : SortKeySpec) (s1 s2 : CString)

theorem compareStrings_sign :
    compare (compareStrings spec.caseSensitivity s1 s2) 0 =
      byteOrder (folded spec s1) (folded spec s2) := by
  rw [compareStrings, folded, folded]
  split_ifs
  · exact strcmp_sign s1 s2
  · exact strcmp_sign (lowered s1) (lowered s2)

theorem compareValues_sign :
    compare (compareValues spec.caseSensitivity s1 s2) 0 =
      byteOrder (folded spec s1) (folded spec s2) := by
  rw [← compareStrings_sign, compareValues]
  generalize compareStrings spec.caseSensitivity s1 s2 = value
  split_ifs with hpos hneg
  · rw [eq_comm, compare_gt_iff_gt.mpr (show value > 0 by omega)]
    rfl
  · rw [eq_comm, compare_lt_iff_lt.mpr hneg]
    rfl
  · rfl

theorem compareMissing_sign :
    compare (compareMissing spec.caseSensitivity s1 s2) 0 =
      byteOrder (folded spec s1) (folded spec s2) := by
  rw [← compareStrings_sign, compareMissing]
  generalize compareStrings spec.caseSensitivity s1 s2 = value
  split_ifs with hpos hneg
  · rw [eq_comm, compare_gt_iff_gt.mpr hpos]
    rfl
  · rw [eq_comm, compare_lt_iff_lt.mpr hneg]
    rfl
  · rfl

theorem compare_neg_sign (value : ℤ) : compare (value * -1) 0 = (compare value 0).swap := by
  rcases lt_trichotomy value 0 with hneg | rfl | hpos
  · rw [compare_lt_iff_lt.mpr hneg, compare_gt_iff_gt.mpr (show value * -1 > 0 by omega)]
    rfl
  · rfl
  · rw [compare_gt_iff_gt.mpr hpos, compare_lt_iff_lt.mpr (show value * -1 < 0 by omega)]
    rfl

theorem keyOrder_ascending {spec : SortKeySpec} (hrelation : spec.sortRelation = 0)
    (key1 key2 : Option CString) : keyOrder spec key1 key2 = valueOrder spec key1 key2 := by
  rw [keyOrder, directed, decide_eq_true hrelation, if_pos rfl]

theorem keyOrder_descending {spec : SortKeySpec} (hrelation : spec.sortRelation ≠ 0)
    (key1 key2 : Option CString) : keyOrder spec key1 key2 = (valueOrder spec key1 key2).swap := by
  rw [keyOrder, directed, decide_eq_false hrelation, if_neg Bool.false_ne_true,
    @OrientedCmp.eq_swap _ (valueOrder spec) _ key2]

theorem sign_of_direction {spec : SortKeySpec} {value : ℤ} {key1 key2 : Option CString}
    (hsign : compare value 0 = valueOrder spec key1 key2) :
    compare (if spec.sortRelation = 0 then value else value * -1) 0 = keyOrder spec key1 key2 := by
  split_ifs with hrelation
  · rw [keyOrder_ascending hrelation, hsign]
  · rw [keyOrder_descending hrelation, compare_neg_sign, hsign]

theorem compareKeys_spec {specs : List SortKeySpec} {keys1 keys2 : List (Option CString)}
    (h1 : Complete specs keys1) (h2 : Complete specs keys2) (compresult : Option ℤ) :
    Compares (compareKeys (keyEntries specs keys1) (keyEntries specs keys2) compresult false)
      ((stopOrder specs keys1 keys2).or
        (lastOrder specs keys1 keys2 (compresult.map fun value ↦ compare value 0))) := by
  induction h1 generalizing keys2 compresult with
  | nil =>
    cases compresult with
    | none => rfl
    | some value => exact ⟨value, rfl, rfl⟩
  | @cons spec key1 specs keys1 hkey1 h1 ih =>
    cases h2 with
    | @cons _ key2 _ keys2 hkey2 h2 =>
    -- the loop goes on with the remaining keys
    have hnext {value : ℤ} (hstop : stopsAt spec key1 key2 = false)
        (hsign : compare value 0 = valueOrder spec key1 key2) :
        Compares (compareKeys (keyEntries specs keys1) (keyEntries specs keys2) (some value) false)
          ((stopOrder (spec :: specs) (key1 :: keys1) (key2 :: keys2)).or
            (lastOrder (spec :: specs) (key1 :: keys1) (key2 :: keys2)
              (compresult.map fun value ↦ compare value 0))) := by
      have hrest := ih h2 (some value)
      rw [Option.map_some, hsign] at hrest
      simpa only [stopOrder, lastOrder, List.head?_cons, Option.join_some, List.tail_cons, hstop,
        Bool.false_eq_true, if_false] using hrest
    -- the loop stops here
    have hreturn {outcome : Exec (ℤ × Bool)} {value : ℤ} (hstop : stopsAt spec key1 key2 = true)
        (hrun : outcome = .ok (value, false)) (hsign : compare value 0 = keyOrder spec key1 key2) :
        Compares outcome ((stopOrder (spec :: specs) (key1 :: keys1) (key2 :: keys2)).or
          (lastOrder (spec :: specs) (key1 :: keys1) (key2 :: keys2)
            (compresult.map fun value ↦ compare value 0))) := by
      simp only [stopOrder, List.head?_cons, Option.join_some, hstop, if_true, Option.some_or]
      exact ⟨value, hrun, hsign⟩
    simp only [keyEntries, List.zipWith_cons_cons] at hnext ⊢
    cases key1 with
    | some s1 =>
      cases key2 with
      | some s2 =>
        have hsign : compare (compareValues spec.caseSensitivity s1 s2) 0 =
            valueOrder spec (some s1) (some s2) := compareValues_sign spec s1 s2
        refine hreturn rfl ?_ (sign_of_direction hsign)
        rw [compareKeys]
        by_cases hrelation : spec.sortRelation = 0
        · by_cases hzero : compareValues spec.caseSensitivity s1 s2 = 0
          · simp [hrelation, hzero]
          · simp [hrelation, hzero]
        · simp [hrelation]
      | none =>
        cases haction : spec.missingValueAction with
        | abort => exact absurd rfl (hkey2 haction)
        | nullVal =>
          have hsign : compare (-1 : ℤ) 0 = valueOrder spec (some s1) none := by
            rw [valueOrder, placedAt, placedAt, haction]
            rfl
          refine hreturn (by simp [stopsAt, haction]) ?_ (sign_of_direction hsign)
          rw [compareKeys]
          simp [haction]
        | missingValueData data =>
          have hsign : compare (compareMissing spec.caseSensitivity s1 data) 0 =
              valueOrder spec (some s1) none := by
            rw [compareMissing_sign, valueOrder, placedAt, placedAt, haction]
            rfl
          have hdata : missingData spec = .ok data := by
            rw [missingData, haction]
          rw [compareKeys]
          simp only [haction, hdata, bind, Except.bind]
          by_cases hzero : compareMissing spec.caseSensitivity s1 data = 0
          · rw [if_neg (not_not.mpr hzero)]
            refine hnext ?_ hsign
            have htie : byteOrder (folded spec s1) (folded spec data) = .eq := by
              rw [← compareMissing_sign, hzero]
              rfl
            simp [stopsAt, haction, htie]
          · rw [if_pos hzero]
            refine hreturn ?_ rfl (sign_of_direction hsign)
            have hdiffers : byteOrder (folded spec s1) (folded spec data) ≠ .eq := by
              rw [← compareMissing_sign, Ne, compare_eq_iff_eq]
              exact hzero
            simp [stopsAt, haction, hdiffers]
    | none =>
      cases haction : spec.missingValueAction with
      | abort => exact absurd rfl (hkey1 haction)
      | nullVal =>
        cases key2 with
        | none =>
          rw [compareKeys]
          simp only [haction]
          refine hnext (by simp [stopsAt]) ?_
          exact (@ReflCmp.compare_self _ (valueOrder spec) _ none).symm
        | some s2 =>
          have hsign : compare (1 : ℤ) 0 = valueOrder spec none (some s2) := by
            rw [valueOrder, placedAt, placedAt, haction]
            rfl
          refine hreturn (by simp [stopsAt, haction]) ?_ (sign_of_direction hsign)
          rw [compareKeys]
          simp [haction]
      | missingValueData data =>
        cases key2 with
        | none =>
          rw [compareKeys]
          simp only [haction]
          refine hnext (by simp [stopsAt]) ?_
          exact (@ReflCmp.compare_self _ (valueOrder spec) _ none).symm
        | some s2 =>
          rw [compareKeys]
          simp only [haction]
          refine hnext (by simp [stopsAt, haction]) ?_
          rw [compareMissing_sign, valueOrder, placedAt, placedAt, haction]
          rfl

end

end Cheshire.Zserver
