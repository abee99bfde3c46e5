import Mathlib

/-!
# Attribute maps

The maps of a configuration say for which combinations of attributes an index is meant.  The code
collects the matches of the requested attributes as bits over the maps one after another, and does not
start again for the next map; of two strings it takes those that differ.
-/

namespace Cheshire.Config

/-- The text of a string or of an object identifier. -/
abbrev AttrText := List Char

def maxAttrType : ℕ := 13

def useAttr : ℕ := 1

/-- `attr_map`; the entries of its arrays by the type of the attribute. -/
structure AttrMap (ι : Type) where
  attrNums : ℕ → ℕ
  attrString : ℕ → Option AttrText
  attrSetOid : ℕ → Option AttrText
  attributeSetOID : AttrText
  idxEntry : ι

/-- What a search for an index reads of a `config_file_info`. -/
structure AttrConfig (ι : Type) where
  bib1AttrMap : List (AttrMap ι)
  indexNames : AttrText → Option ι

/-- `strcasecmp(first, second) == 0` -/
def sameText (first second : AttrText) : Bool := first.map Char.toLower = second.map Char.toLower

variable {ι : Type}

def findIndexName (cf : AttrConfig ι) (indexname : Option AttrText) : Option ι :=
  indexname.bind fun name ↦ (cf.indexNames name).or (cf.indexNames (name.map Char.toUpper))

/-- The arrays of a search: an attribute of number 0 is not requested, one of number -1 has a string. -/
structure AttrArrays where
  inAttr : ℕ → ℤ
  inStrattr : ℕ → Option AttrText
  inOid : ℕ → Option AttrText

/-- The mask of the requested types, one bit for each. -/
def testmask (arrays : AttrArrays) : ℕ :=
  (List.range maxAttrType).foldl
    (fun mask i ↦ if i ≠ maxAttrType - 1 ∧ arrays.inAttr (i + 1) ≠ 0 then mask ||| 1 <<< i else mask) 0

/-- `strcasecmp` as a condition: the strings are there and differ. -/
def strcasecmpHolds : Option AttrText → Option AttrText → Bool
  | some wanted, some configured => !sameText wanted configured
  | _, _ => false

/-- The condition for a match of one type. -/
def typeMatches (arrays : AttrArrays) (map : AttrMap ι) (type : ℕ) : Bool :=
  (arrays.inOid type = none ||
      (map.attrSetOid type = none && arrays.inOid type = some map.attributeSetOID) ||
      (map.attrSetOid type ≠ none && arrays.inOid type = map.attrSetOid type)) &&
    ((arrays.inAttr type ≠ 0 && map.attrNums type ≠ 0 && arrays.inAttr type = map.attrNums type) ||
      strcasecmpHolds (arrays.inStrattr type) (map.attrString type))

/-- The loop over the types of one map; `bits` is what was matched so far. -/
def collectMatches (arrays : AttrArrays) (map : AttrMap ι) (bits : ℕ) : ℕ :=
  (List.range maxAttrType).foldl
    (fun bits i ↦
      if (testmask arrays).testBit i ∧ typeMatches arrays map (i + 1) then bits ||| 1 <<< i else bits)
    bits

def mapattrLoop (arrays : AttrArrays) (use : ℤ) : List (AttrMap ι) → ℕ → Option ι
  | [], _ => none
  | map :: maps, bits =>
    if map.attrNums useAttr = use ∨ use = 0 then
      if testmask arrays = 0 ∧ use = 0 ∧ map.attrNums useAttr = 0 then some map.idxEntry
      else
        let bits := collectMatches arrays map bits
        if bits &&& testmask arrays = testmask arrays then some map.idxEntry
        else mapattrLoop arrays use maps bits
    else mapattrLoop arrays use maps bits

/-- The index, or NULL, and the diagnostic that is set. -/
def cfGetidxMapattr (cf : Option (AttrConfig ι)) (arrays : AttrArrays) : Option ι × Option ℕ :=
  let use := arrays.inAttr useAttr
  if use = -1 then (cf.bind fun cf ↦ findIndexName cf (arrays.inStrattr useAttr), none)
  else
    let arrays := if use = -2 then { arrays with inAttr := Function.update arrays.inAttr useAttr 0 }
      else arrays
    let use := if use = -2 then 0 else use
    let idx := cf.bind fun cf ↦ mapattrLoop arrays use cf.bib1AttrMap 0
    (idx, if idx.isSome then none else some 123)

/-- The value of an attribute; numbers of the protocol are positive. -/
inductive AttrValue where
  | numeric (number : ℕ+)
  | string (text : AttrText)

/-- A requested attribute, with the identifier of its attribute set if it has one. -/
structure Requested where
  value : AttrValue
  set : Option AttrText

/-- The requested attributes by their type. -/
abbrev AttrRequest := ℕ → Option Requested

def AttrValue.number : AttrValue → ℤ
  | numeric number => (number : ℕ)
  | string _ => -1

def AttrValue.text : AttrValue → Option AttrText
  | numeric _ => none
  | string text => some text

/-- The arrays as the search fills them from the attributes. -/
def AttrRequest.arrays (request : AttrRequest) : AttrArrays where
  inAttr type := ((request type).map fun requested ↦ requested.value.number).getD 0
  inStrattr type := (request type).bind fun requested ↦ requested.value.text
  inOid type := (request type).bind Requested.set

/-- A map has the value of an attribute, where strings are compared by `compare`. -/
def HasValue (compare : AttrText → AttrText → Prop) (map : AttrMap ι) (type : ℕ) : AttrValue → Prop
  | .numeric number => map.attrNums type = number
  | .string wanted => ∃ configured ∈ map.attrString type, compare wanted configured

/-- A map agrees with a requested attribute in the attribute set and in the value. -/
def Agrees (compare : AttrText → AttrText → Prop) (map : AttrMap ι) (type : ℕ)
    (requested : Requested) : Prop :=
  (∀ set ∈ requested.set, set = (map.attrSetOid type).getD map.attributeSetOID) ∧
    HasValue compare map type requested.value

/-- The map matches every requested attribute. -/
def FullMatch (request : AttrRequest) (map : AttrMap ι) : Prop :=
  ∀ type, 1 ≤ type → type < maxAttrType → ∀ requested ∈ request type,
    Agrees (fun wanted configured ↦ sameText wanted configured = true) map type requested

/-- The first item that has a property, which may depend on the items before it. -/
def IsFirst {α : Type} (P : List α → α → Prop) : List α → List α → α → Prop
  | _, [], _ => False
  | seen, other :: items, item =>
    P seen other ∧ item = other ∨ ¬P seen other ∧ IsFirst P (seen ++ [other]) items item

/-- The first map that matches every requested attribute. -/
def FirstMatch (request : AttrRequest) (maps : List (AttrMap ι)) : AttrMap ι → Prop :=
  IsFirst (fun _ map ↦ FullMatch request map) [] maps

/-- The index of the first map that matches, or nothing where none does. -/
def Answers (request : AttrRequest) (maps : List (AttrMap ι)) : Option ι → Prop
  | some idx => ∃ map, FirstMatch request maps map ∧ map.idxEntry = idx
  | none => ∀ map ∈ maps, ¬FullMatch request map

/-- The map has the number that is requested for the type of the use. -/
def Candidate (request : AttrRequest) (map : AttrMap ι) : Prop :=
  ∀ number set, request useAttr = some ⟨.numeric number, set⟩ → map.attrNums useAttr = number

/-- Every requested attribute is met by one of the maps, each perhaps by another one; a string is met
by another string. -/
def Gathered (request : AttrRequest) (maps : List (AttrMap ι)) : Prop :=
  ∀ type, 1 ≤ type → type < maxAttrType → ∀ requested ∈ request type,
    ∃ map ∈ maps, Candidate request map ∧
      Agrees (fun wanted configured ↦ sameText wanted configured = false) map type requested

/-- The first candidate up to which all requested attributes have been met. -/
def Completes (request : AttrRequest) (maps : List (AttrMap ι)) : AttrMap ι → Prop :=
  IsFirst (fun before map ↦ Candidate request map ∧ Gathered request (before ++ [map])) [] maps

section First

variable {α : Type} {P : List α → α → Prop}

theorem IsFirst.unique {seen items : List α} {item item' : α} (h : IsFirst P seen items item)
    (h' : IsFirst P seen items item') : item = item' := by
  induction items generalizing seen with
  | nil => exact h.elim
  | cons other items ih =>
    rcases h with ⟨hother, rfl⟩ | ⟨hother, hrest⟩
    · rcases h' with ⟨-, rfl⟩ | ⟨hnot, -⟩
      · rfl
      · exact absurd hother hnot
    · rcases h' with ⟨hyes, -⟩ | ⟨-, hrest'⟩
      · exact absurd hyes hother
      · exact ih hrest hrest'

theorem exists_isFirst_iff {Q : α → Prop} {seen items : List α} :
    (∃ item, IsFirst (fun _ item ↦ Q item) seen items item) ↔ ∃ item ∈ items, Q item := by
  induction items generalizing seen with
  | nil => simp [IsFirst]
  | cons other items ih =>
    by_cases hother : Q other
    · exact iff_of_true ⟨other, Or.inl ⟨hother, rfl⟩⟩ ⟨other, List.mem_cons_self, hother⟩
    · simp only [IsFirst, hother, false_and, false_or, not_false_iff, true_and, List.exists_mem_cons_iff]
      exact ih

end First

variable {request : AttrRequest}

theorem answers_iff {maps : List (AttrMap ι)} {result : Option ι} : Answers request maps result ↔
      ∀ idx, result = some idx ↔ ∃ map, FirstMatch request maps map ∧ map.idxEntry = idx := by
  cases result with
  | none =>
    constructor
    · intro hnone idx
      refine iff_of_false (fun h ↦ ?_) ?_
      · cases h
      · rintro ⟨map, hfirst, -⟩
        obtain ⟨other, hmem, hfull⟩ := exists_isFirst_iff.mp ⟨map, hfirst⟩
        exact hnone other hmem hfull
    · intro hall map hmem hfull
      obtain ⟨first, hfirst⟩ := exists_isFirst_iff.mpr ⟨map, hmem, hfull⟩
      cases (hall first.idxEntry).mpr ⟨first, hfirst, rfl⟩
  | some found =>
    constructor
    · rintro ⟨map, hfirst, rfl⟩ idx
      constructor
      · intro h
        exact ⟨map, hfirst, Option.some.inj h⟩
      · rintro ⟨other, hother, rfl⟩
        rw [hfirst.unique hother]
    · intro hall
      exact (hall found).mp rfl

theorem testBit_foldl_or {p : ℕ → Prop} [DecidablePred p] (places : List ℕ) (bits j : ℕ) :
    (places.foldl (fun bits i ↦ if p i then bits ||| 1 <<< i else bits) bits).testBit j = true ↔
      bits.testBit j = true ∨ j ∈ places ∧ p j := by
  induction places generalizing bits with
  | nil => simp
  | cons i places ih =>
    rw [List.foldl_cons, ih]
    by_cases hp : p i
    · rw [if_pos hp, Nat.testBit_or, Nat.one_shiftLeft, Nat.testBit_two_pow, Bool.or_eq_true,
        decide_eq_true_iff, List.mem_cons]
      constructor
      · rintro ((hbit | rfl) | ⟨hmem, hj⟩)
        · exact Or.inl hbit
        · exact Or.inr ⟨Or.inl rfl, hp⟩
        · exact Or.inr ⟨Or.inr hmem, hj⟩
      · rintro (hbit | ⟨rfl | hmem, hj⟩)
        · exact Or.inl (Or.inl hbit)
        · exact Or.inl (Or.inr rfl)
        · exact Or.inr ⟨hmem, hj⟩
    · rw [if_neg hp, List.mem_cons]
      constructor
      · rintro (hbit | ⟨hmem, hj⟩)
        · exact Or.inl hbit
        · exact Or.inr ⟨Or.inr hmem, hj⟩
      · rintro (hbit | ⟨rfl | hmem, hj⟩)
        · exact Or.inl hbit
        · exact absurd hj hp
        · exact Or.inr ⟨hmem, hj⟩

theorem and_eq_self_iff (bits mask : ℕ) :
    bits &&& mask = mask ↔ ∀ i, mask.testBit i = true → bits.testBit i = true := by
  constructor
  · intro h i hi
    rw [← h, Nat.testBit_and, Bool.and_eq_true] at hi
    exact hi.1
  · intro h
    apply Nat.eq_of_testBit_eq
    intro i
    rw [Nat.testBit_and]
    by_cases hi : mask.testBit i = true
    · rw [hi, h i hi]
      rfl
    · rw [Bool.not_eq_true] at hi
      rw [hi, Bool.and_false]

theorem number_ne_zero (value : AttrValue) : value.number ≠ 0 := by
  cases value with
  | numeric number => exact Int.natCast_ne_zero.mpr number.ne_zero
  | string text =>
    rw [AttrValue.number]
    decide

theorem testBit_testmask (request : AttrRequest) (i : ℕ) :
    (testmask request.arrays).testBit i = true ↔
      i + 1 < maxAttrType ∧ ∃ requested, request (i + 1) = some requested := by
  have hrequested : request.arrays.inAttr (i + 1) ≠ 0 ↔
      ∃ requested, request (i + 1) = some requested := by
    rw [AttrRequest.arrays]
    cases hcase : request (i + 1) with
    | none => simp [hcase]
    | some requested => simp [hcase, number_ne_zero]
  rw [testmask, testBit_foldl_or (p := fun i ↦ i ≠ maxAttrType - 1 ∧ request.arrays.inAttr (i + 1) ≠ 0),
    hrequested, List.mem_range, maxAttrType]
  simp only [Nat.zero_testBit, Bool.false_eq_true, false_or]
  constructor
  · rintro ⟨hlt, hne, hrequest⟩
    exact ⟨by omega, hrequest⟩
  · rintro ⟨hlt, hrequest⟩
    exact ⟨by omega, by omega, hrequest⟩

variable {map : AttrMap ι}

theorem typeMatches_iff {type : ℕ} {requested : Requested} (h : request type = some requested) :
    typeMatches request.arrays map type = true ↔
      Agrees (fun wanted configured ↦ sameText wanted configured = false) map type requested := by
  obtain ⟨value, set⟩ := requested
  have hset : (request.arrays.inOid type = none ||
      (map.attrSetOid type = none && request.arrays.inOid type = some map.attributeSetOID) ||
      (map.attrSetOid type ≠ none && request.arrays.inOid type = map.attrSetOid type)) = true ↔
        ∀ other ∈ set, other = (map.attrSetOid type).getD map.attributeSetOID := by
    have hoid : request.arrays.inOid type = set := by simp [AttrRequest.arrays, h]
    rw [hoid]
    cases set with
    | none => simp
    | some oid =>
      cases map.attrSetOid type with
      | none => simp
      | some own => simp
  have hvalue : ((request.arrays.inAttr type ≠ 0 && map.attrNums type ≠ 0 &&
        request.arrays.inAttr type = map.attrNums type) ||
      strcasecmpHolds (request.arrays.inStrattr type) (map.attrString type)) = true ↔
        HasValue (fun wanted configured ↦ sameText wanted configured = false) map type value := by
    have hnumber : request.arrays.inAttr type = value.number := by simp [AttrRequest.arrays, h]
    have htext : request.arrays.inStrattr type = value.text := by simp [AttrRequest.arrays, h]
    rw [hnumber, htext]
    cases value with
    | numeric number =>
      have hpos := number.pos
      have hsame : ((number : ℕ) : ℤ) = map.attrNums type ↔ map.attrNums type = number := by
        rw [Int.ofNat_inj]
        exact eq_comm
      simp only [AttrValue.number, AttrValue.text, HasValue, strcasecmpHolds, Bool.or_false,
        Bool.and_eq_true, decide_eq_true_iff, hsame]
      constructor
      · intro h
        exact h.2
      · intro h
        exact ⟨⟨decide_eq_true (Int.natCast_ne_zero.mpr hpos.ne'), h ▸ hpos.ne'⟩, h⟩
    | string wanted =>
      cases hconfigured : map.attrString type with
      | none => simp [AttrValue.number, AttrValue.text, HasValue, strcasecmpHolds, hconfigured]
      | some configured => simp [AttrValue.number, AttrValue.text, HasValue, strcasecmpHolds, hconfigured]
  rw [typeMatches, Bool.and_eq_true, hset, hvalue]
  rfl

/-- What the bits say about the maps seen so far. -/
def BitsOf (request : AttrRequest) (seen : List (AttrMap ι)) (bits : ℕ) : Prop :=
  ∀ i, bits.testBit i = true ↔ (testmask request.arrays).testBit i = true ∧
    ∃ map ∈ seen, Candidate request map ∧ typeMatches request.arrays map (i + 1) = true

variable {seen : List (AttrMap ι)} {bits : ℕ}

theorem BitsOf.collect (h : BitsOf request seen bits) (hcandidate : Candidate request map) :
    BitsOf request (seen ++ [map]) (collectMatches request.arrays map bits) := by
  intro i
  have hrange : (testmask request.arrays).testBit i = true → i ∈ List.range maxAttrType := by
    intro hbit
    rw [List.mem_range]
    exact Nat.lt_of_succ_lt ((testBit_testmask request i).mp hbit).1
  rw [collectMatches, testBit_foldl_or
    (p := fun i ↦ (testmask request.arrays).testBit i = true ∧
      typeMatches request.arrays map (i + 1) = true), h i]
  constructor
  · rintro (⟨hbit, other, hmem, hother⟩ | ⟨-, hbit, hmatch⟩)
    · exact ⟨hbit, other, List.mem_append_left _ hmem, hother⟩
    · exact ⟨hbit, map, List.mem_append_right _ List.mem_cons_self, hcandidate, hmatch⟩
  · rintro ⟨hbit, other, hmem, hother, hmatch⟩
    rcases List.mem_append.mp hmem with hmem | hmem
    · exact Or.inl ⟨hbit, other, hmem, hother, hmatch⟩
    · rw [List.mem_singleton.mp hmem] at hmatch
      exact Or.inr ⟨hrange hbit, hbit, hmatch⟩

theorem BitsOf.pass (h : BitsOf request seen bits) (hcandidate : ¬Candidate request map) :
    BitsOf request (seen ++ [map]) bits := by
  intro i
  rw [h i]
  refine and_congr_right fun _ ↦ ?_
  constructor
  · rintro ⟨other, hmem, hother⟩
    exact ⟨other, List.mem_append_left _ hmem, hother⟩
  · rintro ⟨other, hmem, hother⟩
    rcases List.mem_append.mp hmem with hmem | hmem
    · exact ⟨other, hmem, hother⟩
    · rw [List.mem_singleton.mp hmem] at hother
      exact absurd hother.1 hcandidate

theorem BitsOf.and_eq_iff (h : BitsOf request seen bits) :
    bits &&& testmask request.arrays = testmask request.arrays ↔ Gathered request seen := by
  rw [and_eq_self_iff]
  constructor
  · intro hall type hpos hlt requested hrequested
    obtain ⟨i, rfl⟩ : ∃ i, type = i + 1 := ⟨type - 1, by omega⟩
    have hbit := (testBit_testmask request i).mpr ⟨hlt, requested, hrequested⟩
    obtain ⟨-, map, hmem, hcandidate, hmatch⟩ := (h i).mp (hall i hbit)
    exact ⟨map, hmem, hcandidate, (typeMatches_iff hrequested).mp hmatch⟩
  · intro hgathered i hbit
    obtain ⟨hlt, requested, hrequested⟩ := (testBit_testmask request i).mp hbit
    obtain ⟨map, hmem, hcandidate, hagrees⟩ := hgathered (i + 1) (Nat.succ_pos i) hlt requested hrequested
    exact (h i).mpr ⟨hbit, map, hmem, hcandidate, (typeMatches_iff hrequested).mpr hagrees⟩

theorem mapattrLoop_eq_some_iff {use : ℤ}
    (huse : ∀ map : AttrMap ι, (map.attrNums useAttr = use ∨ use = 0) ↔ Candidate request map)
    {maps : List (AttrMap ι)} (hbits : BitsOf request seen bits) (idx : ι) :
    mapattrLoop request.arrays use maps bits = some idx ↔
      ∃ map, IsFirst (fun before map ↦ Candidate request map ∧ Gathered request (before ++ [map]))
        seen maps map ∧ map.idxEntry = idx := by
  induction maps generalizing seen bits with
  | nil => simp [mapattrLoop, IsFirst]
  | cons other maps ih =>
    rw [mapattrLoop]
    by_cases hcandidate : Candidate request other
    · have hcollected := hbits.collect hcandidate
      rw [if_pos ((huse other).mpr hcandidate)]
      by_cases hgathered : Gathered request (seen ++ [other])
      · have hfound : (∃ map, IsFirst (fun before map ↦ Candidate request map ∧
            Gathered request (before ++ [map])) seen (other :: maps) map ∧ map.idxEntry = idx) ↔
              other.idxEntry = idx := by
          simp [IsFirst, hcandidate, hgathered]
        rw [if_pos (hcollected.and_eq_iff.mpr hgathered), ite_self, Option.some.injEq, hfound]
      · have hmask : ¬(testmask request.arrays = 0 ∧ use = 0 ∧ other.attrNums useAttr = 0) := by
          rintro ⟨hzero, -⟩
          refine hgathered fun type hpos hlt requested hrequested ↦ ?_
          obtain ⟨i, rfl⟩ : ∃ i, type = i + 1 := ⟨type - 1, by omega⟩
          have hbit := (testBit_testmask request i).mpr ⟨hlt, requested, hrequested⟩
          rw [hzero, Nat.zero_testBit] at hbit
          cases hbit
        rw [if_neg hmask, if_neg fun hall ↦ hgathered (hcollected.and_eq_iff.mp hall), ih hcollected]
        simp [IsFirst, hgathered]
    · rw [if_neg fun h ↦ hcandidate ((huse other).mp h), ih (hbits.pass hcandidate)]
      simp [IsFirst, hcandidate]

theorem candidate_iff (h : ∀ name set, request useAttr ≠ some ⟨.string name, set⟩)
    (map : AttrMap ι) :
    ((map.attrNums useAttr : ℤ) = request.arrays.inAttr useAttr ∨ request.arrays.inAttr useAttr = 0) ↔
      Candidate request map := by
  have hnumber : request.arrays.inAttr useAttr =
      ((request useAttr).map fun requested ↦ requested.value.number).getD 0 := rfl
  rw [hnumber, Candidate]
  cases hrequest : request useAttr with
  | none => simp
  | some requested =>
    obtain ⟨value, set⟩ := requested
    cases value with
    | string name => exact absurd hrequest (h name set)
    | numeric number =>
      simp [AttrValue.number]

/-- The first map up to which all attributes have been met is for the same index as the first map that
matches all of them. -/
def MetAlone (request : AttrRequest) (maps : List (AttrMap ι)) : Prop :=
  ∀ idx, (∃ map, Completes request maps map ∧ map.idxEntry = idx) ↔
    ∃ map, FirstMatch request maps map ∧ map.idxEntry = idx

/-- The index has the name, in capitals if no index has it as it is. -/
def Named (cf : AttrConfig ι) (name : AttrText) (idx : ι) : Prop :=
  cf.indexNames name = some idx ∨
    cf.indexNames name = none ∧ cf.indexNames (name.map Char.toUpper) = some idx

/-- What the right answer depends on; a string as the use is the name of an index, which has to be the one
of the first map that matches. -/
def IndexFound (request : AttrRequest) (cf : AttrConfig ι) : Prop :=
  (∀ name set, request useAttr = some ⟨.string name, set⟩ → ∀ idx, Named cf name idx ↔
    ∃ map, FirstMatch request cf.bib1AttrMap map ∧ map.idxEntry = idx) ∧
  ((∀ name set, request useAttr ≠ some ⟨.string name, set⟩) → MetAlone request cf.bib1AttrMap)

theorem cfGetidxMapattr_string {cf : AttrConfig ι} {name : AttrText} {set : Option AttrText}
    (h : request useAttr = some ⟨.string name, set⟩) :
    (cfGetidxMapattr (some cf) request.arrays).1 = findIndexName cf (some name) := by
  simp [cfGetidxMapattr, AttrRequest.arrays, h, AttrValue.number, AttrValue.text]

theorem cfGetidxMapattr_numeric {cf : AttrConfig ι}
    (h : ∀ name set, request useAttr ≠ some ⟨.string name, set⟩) :
    (cfGetidxMapattr (some cf) request.arrays).1 =
      mapattrLoop request.arrays (request.arrays.inAttr useAttr) cf.bib1AttrMap 0 := by
  have hnonneg : 0 ≤ request.arrays.inAttr useAttr := by
    have hnumber : request.arrays.inAttr useAttr =
        ((request useAttr).map fun requested ↦ requested.value.number).getD 0 := rfl
    rw [hnumber]
    cases hrequest : request useAttr with
    | none => exact le_refl 0
    | some requested =>
      obtain ⟨value, set⟩ := requested
      cases value with
      | string name => exact absurd hrequest (h name set)
      | numeric number => exact Int.natCast_nonneg _
  rw [cfGetidxMapattr, if_neg (by omega), if_neg (by omega), if_neg (by omega)]
  rfl

/-- The index of the first map that matches all attributes is found just when no earlier map completes
what others began. -/
theorem cfGetidxMapattr_iff (request : AttrRequest) (cf : AttrConfig ι) :
    Answers request cf.bib1AttrMap (cfGetidxMapattr (some cf) request.arrays).1 ↔
      IndexFound request cf := by
  by_cases h : ∃ name set, request useAttr = some ⟨.string name, set⟩
  · obtain ⟨name, set, hstring⟩ := h
    have hnamed (idx : ι) : findIndexName cf (some name) = some idx ↔ Named cf name idx :=
      Option.or_eq_some_iff
    rw [cfGetidxMapattr_string hstring, answers_iff]
    constructor
    · intro hanswers
      refine ⟨?_, fun hnumeric ↦ absurd hstring (hnumeric name set)⟩
      intro other otherSet hother idx
      rw [hstring] at hother
      cases hother
      exact (hnamed idx).symm.trans (hanswers idx)
    · intro hfound idx
      exact (hnamed idx).trans (hfound.1 name set hstring idx)
  · have hnumeric : ∀ name set, request useAttr ≠ some ⟨.string name, set⟩ :=
      fun name set heq ↦ h ⟨name, set, heq⟩
    have hstart : BitsOf request ([] : List (AttrMap ι)) 0 := by
      intro i
      simp
    have hloop (idx : ι) : mapattrLoop request.arrays (request.arrays.inAttr useAttr) cf.bib1AttrMap 0 =
        some idx ↔ ∃ map, Completes request cf.bib1AttrMap map ∧ map.idxEntry = idx :=
      mapattrLoop_eq_some_iff (candidate_iff hnumeric) hstart idx
    rw [cfGetidxMapattr_numeric hnumeric, answers_iff]
    constructor
    · intro hanswers
      refine ⟨fun name set hstring ↦ absurd hstring (hnumeric name set), fun _ idx ↦ ?_⟩
      exact (hloop idx).symm.trans (hanswers idx)
    · intro hfound idx
      exact (hloop idx).trans (hfound.2 hnumeric idx)

/-- Two maps for the title: one as a phrase, one as a word with another truncation. -/
def titleMaps : List (AttrMap Bool) :=
  [⟨fun type ↦ if type = 1 then 4 else if type = 4 then 6 else 0, fun _ ↦ none, fun _ ↦ none, [], true⟩,
    ⟨fun type ↦ if type = 1 then 4 else if type = 5 then 1 else 0, fun _ ↦ none, fun _ ↦ none, [], false⟩]

/-- A title as a phrase with right truncation. -/
def titlePhrase : AttrRequest := fun type ↦
  if type = 1 then some ⟨.numeric 4, none⟩ else if type = 4 then some ⟨.numeric 6, none⟩
  else if type = 5 then some ⟨.numeric 1, none⟩ else none

/-- No map matches, but the second one is taken, as the first one has the structure that it lacks. -/
theorem not_answers_titlePhrase :
    ¬Answers titlePhrase titleMaps (cfGetidxMapattr (some ⟨titleMaps, fun _ ↦ none⟩) titlePhrase.arrays).1 := by
  have hcode : (cfGetidxMapattr (some ⟨titleMaps, fun _ ↦ none⟩) titlePhrase.arrays).1 = some false := by
    decide
  rw [hcode, Answers]
  rintro ⟨map, hfirst, -⟩
  obtain ⟨other, hmem, hfull⟩ := exists_isFirst_iff.mp ⟨map, hfirst⟩
  have hstructure := hfull 4 (by decide) (by decide) ⟨.numeric 6, none⟩ rfl
  have htruncation := hfull 5 (by decide) (by decide) ⟨.numeric 1, none⟩ rfl
  rcases List.mem_cons.mp hmem with rfl | hmem
  · cases htruncation.2
  · rw [List.mem_singleton.mp hmem] at hstructure
    cases hstructure.2

end Cheshire.Config
