import Cheshire.FileIo.RecordStore
import Cheshire.Lib.Runs

/-!
# Records along a history

Records are added, deleted and replaced.  The specification is the list of the records handed out,
where a deleted one leaves an empty slot.  Fetching agrees with it as long as every record can be
found again through its 32-bit offset and nothing is deleted: a fetch never reports a deleted record.
-/

namespace Cheshire.FileIo

open Lib

/-- What is done to a main file. -/
inductive RecordOp where
  | add (indata : CString)
  | del (recno : ℤ)
  | replace (input : CString) (recno : ℤ)

def stepRecord (s : DataFile) : RecordOp → Exec DataFile
  | .add indata => (s.filAdd indata).map Prod.snd
  | .del recno => s.filDel recno
  | .replace input recno => s.filReplace input recno

/-- The records handed out, from number 1 on; a deleted one is `none`. -/
abbrev Slots := List (Option CString)

/-- The place of a record number among the slots. -/
def slotOf (recno : ℤ) : ℕ := recno.toNat - 1

def specRecord (slots : Slots) : RecordOp → Slots
  | .add indata => slots ++ [some indata]
  | .del recno => slots.set (slotOf recno) none
  | .replace input recno => slots.modify (slotOf recno) (Option.map fun _ ↦ input)

/-- Only records that were handed out are deleted and replaced. -/
def ValidRecord (slots : Slots) : RecordOp → Prop
  | .add _ => True
  | .del recno => 1 ≤ recno ∧ recno ≤ slots.length
  | .replace _ recno => 1 ≤ recno ∧ recno ≤ slots.length

/-- What a fetch should return and report. -/
def expected : Option CString → Option Bytes × ℤ
  | some data => (some data.bytes, 0)
  | none => (none, 1000)

/-- Every record handed out is fetched as it was stored last, or reported as deleted. -/
def FetchesRecords (s : DataFile) (slots : Slots) : Prop :=
  s.highRecno = slots.length ∧
    ∀ (i : ℕ) slot, slots[i]? = some slot → s.fetch (i + 1) = .ok (expected slot)

/-- An added record gets the number after the highest one. -/
def HandsOut (s : DataFile) (op : RecordOp) (s' : DataFile) : Prop :=
  match op with
  | .add indata => s.filAdd indata = .ok (s.highRecno + 1, s')
  | _ => True

/-- A string that is appended to the main file is found again at the position that the 32-bit offset
word gives. -/
def FoundAgain (main : Bytes) (data : CString) : Prop :=
  main.length % 2 ^ 32 < 2 ^ 31 ∧ data.bytes.length + 10 < 2 ^ 32 ∧
    ((main ++ data.bytes ++ [newline]).drop (main.length % 2 ^ 32)).take data.bytes.length =
      data.bytes

/-- Nothing is deleted, record numbers are left, and what is written is found again. -/
def Readable (s : DataFile) : RecordOp → Prop
  | .add indata => s.highRecno < INT_MAX ∧ FoundAgain s.main indata
  | .del _ => False
  | .replace input _ => FoundAgain s.main input

variable {main : Bytes}

theorem foundAgain_of_short {data : CString} (hmain : main.length < 2 ^ 31)
    (hdata : data.bytes.length + 10 < 2 ^ 32) : FoundAgain main data := by
  have hmod : main.length % 2 ^ 32 = main.length := Nat.mod_eq_of_lt (by omega)
  refine ⟨by rwa [hmod], hdata, ?_⟩
  rw [hmod, List.append_assoc, List.drop_left, List.take_left]

variable {s : DataFile} {recno : ℤ} {assocrec : AssocRec} {slots : Slots}

/-- The bytes that an associator record points to. -/
def chunkAt (main : Bytes) (assocrec : AssocRec) : Bytes :=
  (main.drop assocrec.offset.toNat).take assocrec.recsize.toNat

theorem length_chunkAt (hinside : assocrec.offset.toNat + assocrec.recsize.toNat ≤ main.length) :
    (chunkAt main assocrec).length = assocrec.recsize.toNat := by
  rw [chunkAt, List.length_take, List.length_drop]
  omega

theorem chunkAt_append (hinside : assocrec.offset.toNat + assocrec.recsize.toNat ≤ main.length)
    (more : Bytes) : chunkAt (main ++ more) assocrec = chunkAt main assocrec := by
  rw [chunkAt, List.drop_append_of_le_length (by omega),
    List.take_append_of_le_length (by rw [List.length_drop]; omega), chunkAt]

theorem chunkAt_nonzero (hnonzero : ∀ byte ∈ main, byte ≠ 0) :
    ∀ byte ∈ chunkAt main assocrec, byte ≠ 0 :=
  fun byte hmem ↦ hnonzero byte (List.mem_of_mem_drop (List.mem_of_mem_take hmem))

theorem DataFile.filRead_of_le {size : ℕ} (hsize : (chunkAt s.main assocrec).length ≤ size) :
    s.filRead size assocrec = .ok (chunkAt s.main assocrec ++
      List.replicate (size - (chunkAt s.main assocrec).length) 0) := if_pos hsize

theorem DataFile.filRead_of_not_le {size : ℕ} (hsize : ¬(chunkAt s.main assocrec).length ≤ size) :
    s.filRead size assocrec = .error .outOfBounds := if_neg hsize

theorem fetch_eq (hpos : 1 ≤ recno) (hhigh : recno ≤ s.highRecno)
    (hassoc : s.assoc recno = some assocrec) :
    s.fetch recno = if assocrec.offset.toNat < 2 ^ 31 then
        (s.filRead (assocrec.recsize + 10#32).toNat assocrec).map fun recBuffer ↦
          (some (asString recBuffer), 0)
      else .ok (none, 0) := by
  have hseek : s.filSeek recno = .ok (assocrec.offset.toInt, some assocrec) := by
    rw [DataFile.filSeek, if_neg (by omega), if_pos (by omega),
      DataFile.readAssoc_of_some hassoc]
    rfl
  have hsign : assocrec.offset.toInt ≥ 0 ↔ assocrec.offset.toNat < 2 ^ 31 := by
    rw [BitVec.toInt_eq_toNat_cond]
    have := assocrec.offset.isLt
    split_ifs <;> omega
  rw [DataFile.fetch, DataFile.getRawSgml, hseek]
  simp only [bind, Except.bind, Option.any_some, Nat.not_lt_zero, decide_false,
    Bool.false_eq_true, if_false, hsign]
  split_ifs
  · cases s.filRead (assocrec.recsize + 10#32).toNat assocrec <;> rfl
  · rfl

theorem fetch_eq_expected_iff (hpos : 1 ≤ recno) (hhigh : recno ≤ s.highRecno)
    (hassoc : s.assoc recno = some assocrec) (hnonzero : ∀ byte ∈ s.main, byte ≠ 0)
    (hinside : assocrec.offset.toNat + assocrec.recsize.toNat ≤ s.main.length)
    (data : CString) : s.fetch recno = .ok (expected (some data)) ↔
      assocrec.offset.toNat < 2 ^ 31 ∧ assocrec.recsize.toNat + 10 < 2 ^ 32 ∧
        chunkAt s.main assocrec = data.bytes := by
  have hlength := length_chunkAt hinside
  have hbuffer : (assocrec.recsize + 10#32).toNat = (assocrec.recsize.toNat + 10) % 2 ^ 32 := by
    rw [BitVec.toNat_add]
    rfl
  have hstring (zeros : ℕ) : asString (chunkAt s.main assocrec ++ List.replicate zeros 0) =
      chunkAt s.main assocrec :=
    CString.asString_buffer ⟨_, chunkAt_nonzero hnonzero⟩ zeros
  have hlt := assocrec.recsize.isLt
  rw [fetch_eq hpos hhigh hassoc, expected]
  by_cases hoffset : assocrec.offset.toNat < 2 ^ 31
  · rw [if_pos hoffset]
    by_cases hsize : (chunkAt s.main assocrec).length ≤ (assocrec.recsize + 10#32).toNat
    · have hfits : assocrec.recsize.toNat + 10 < 2 ^ 32 := by
        rw [hlength, hbuffer] at hsize
        omega
      rw [DataFile.filRead_of_le hsize]
      simp only [Except.map, hstring, Except.ok.injEq, Prod.mk.injEq, Option.some.injEq, and_true]
      tauto
    · have hfits : ¬assocrec.recsize.toNat + 10 < 2 ^ 32 := by
        rw [hlength, hbuffer] at hsize
        omega
      rw [DataFile.filRead_of_not_le hsize]
      exact iff_of_false (by rintro ⟨⟩) (by tauto)
  · rw [if_neg hoffset]
    exact iff_of_false (by rintro ⟨⟩) (by tauto)

theorem fetch_ne_deleted (hpos : 1 ≤ recno) (hhigh : recno ≤ s.highRecno)
    (hassoc : s.assoc recno = some assocrec) : s.fetch recno ≠ .ok (expected none) := by
  rw [fetch_eq hpos hhigh hassoc, expected]
  split_ifs
  · cases s.filRead (assocrec.recsize + 10#32).toNat assocrec <;> rintro ⟨⟩
  · rintro ⟨⟩

/-- The main file consists of strings, and every record handed out has its bytes inside it. -/
structure Inv (s : DataFile) : Prop where
  nonzero : ∀ byte ∈ s.main, byte ≠ 0
  inside : ∀ recno, 1 ≤ recno → recno ≤ s.highRecno → ∃ assocrec, s.assoc recno = some assocrec ∧
    assocrec.offset.toNat + assocrec.recsize.toNat ≤ s.main.length

theorem inv_created : Inv DataFile.created := by
  refine ⟨fun byte hmem ↦ (nomatch hmem), fun recno hpos hhigh ↦ ?_⟩
  have hzero : DataFile.created.highRecno = 0 := rfl
  omega

/-- A string was written at the end of the main file, as the record of a number. -/
structure WrittenAtEnd (s : DataFile) (data : CString) (recno : ℤ) (s' : DataFile) : Prop where
  main : s'.main = s.main ++ (data.bytes ++ [newline])
  assoc : s'.assoc = Function.update s.assoc recno (some (s.assocAtEnd data))

theorem assocAtEnd_inside (s : DataFile) (data : CString) :
    (s.assocAtEnd data).offset.toNat + (s.assocAtEnd data).recsize.toNat ≤
      (s.main ++ (data.bytes ++ [newline])).length := by
  have hoffset := Nat.mod_le s.main.length (2 ^ 32)
  have hrecsize := Nat.mod_le data.bytes.length (2 ^ 32)
  simp only [DataFile.assocAtEnd, BitVec.toNat_ofNat, List.length_append]
  omega

namespace WrittenAtEnd

variable {data : CString} {s' : DataFile}

theorem inv (h : WrittenAtEnd s data recno s') (hinv : Inv s)
    (hhigh : ∀ other ≠ recno, other ≤ s'.highRecno → other ≤ s.highRecno) : Inv s' := by
  refine ⟨?_, ?_⟩
  · rw [h.main]
    simp only [List.mem_append, List.mem_singleton]
    rintro byte (hmem | hmem | rfl)
    · exact hinv.nonzero byte hmem
    · exact data.nonzero byte hmem
    · decide
  · intro other hpos hother
    rw [h.assoc, h.main]
    by_cases hsame : other = recno
    · rw [hsame, Function.update_self]
      exact ⟨_, rfl, assocAtEnd_inside s data⟩
    · obtain ⟨assocrec, hassoc, hinside⟩ := hinv.inside other hpos (hhigh other hsame hother)
      rw [Function.update_of_ne hsame]
      exact ⟨assocrec, hassoc, by rw [List.length_append]; omega⟩

theorem fetch_other (h : WrittenAtEnd s data recno s') (hinv : Inv s) {other : ℤ}
    (hne : other ≠ recno) (hpos : 1 ≤ other) (hold : other ≤ s.highRecno)
    (hnew : other ≤ s'.highRecno) : s'.fetch other = s.fetch other := by
  obtain ⟨assocrec, hassoc, hinside⟩ := hinv.inside other hpos hold
  have hassoc' : s'.assoc other = some assocrec := by
    rw [h.assoc, Function.update_of_ne hne, hassoc]
  have hread (size : ℕ) : s'.filRead size assocrec = s.filRead size assocrec := by
    have hchunk : chunkAt s'.main assocrec = chunkAt s.main assocrec := by
      rw [h.main, chunkAt_append hinside]
    rw [chunkAt, chunkAt] at hchunk
    rw [DataFile.filRead, DataFile.filRead, hchunk]
  rw [fetch_eq hpos hnew hassoc', fetch_eq hpos hold hassoc, hread]

theorem fetch_self_iff (h : WrittenAtEnd s data recno s') (hinv' : Inv s') (hpos : 1 ≤ recno)
    (hhigh : recno ≤ s'.highRecno) :
    s'.fetch recno = .ok (expected (some data)) ↔ FoundAgain s.main data := by
  have hassoc : s'.assoc recno = some (s.assocAtEnd data) := by rw [h.assoc, Function.update_self]
  have hinside := assocAtEnd_inside s data
  rw [← h.main] at hinside
  have hlength := length_chunkAt hinside
  have hoffset : (s.assocAtEnd data).offset.toNat = s.main.length % 2 ^ 32 := BitVec.toNat_ofNat ..
  have hrecsize : (s.assocAtEnd data).recsize.toNat = data.bytes.length % 2 ^ 32 :=
    BitVec.toNat_ofNat ..
  rw [fetch_eq_expected_iff hpos hhigh hassoc hinv'.nonzero hinside, FoundAgain, hoffset, hrecsize]
  constructor
  · rintro ⟨hsign, hsize, hchunk⟩
    rw [hchunk, hrecsize] at hlength
    have hmod : data.bytes.length % 2 ^ 32 = data.bytes.length := hlength.symm
    rw [chunkAt, hoffset, hrecsize, hmod, h.main, ← List.append_assoc] at hchunk
    exact ⟨hsign, by omega, hchunk⟩
  · rintro ⟨hsign, hsize, hchunk⟩
    have hmod : data.bytes.length % 2 ^ 32 = data.bytes.length := Nat.mod_eq_of_lt (by omega)
    refine ⟨hsign, by omega, ?_⟩
    rw [chunkAt, hoffset, hrecsize, hmod, h.main, ← List.append_assoc]
    exact hchunk

end WrittenAtEnd

theorem filAdd_spec (hhigh : 0 ≤ s.highRecno) (hroom : s.highRecno < INT_MAX) (indata : CString) :
    ∃ s', s.filAdd indata = .ok (s.highRecno + 1, s') ∧
      WrittenAtEnd s indata (s.highRecno + 1) s' ∧ s'.highRecno = s.highRecno + 1 := by
  have hcheck : checkInt (s.highRecno + 1) = .ok (s.highRecno + 1) := by
    rw [INT_MAX] at hroom
    exact if_pos (by constructor <;> omega)
  refine ⟨_, by rw [DataFile.filAdd, hcheck]; rfl, ⟨?_, rfl⟩, rfl⟩
  exact List.append_assoc ..

theorem filAdd_of_full (hroom : ¬s.highRecno < INT_MAX) (indata : CString) :
    s.filAdd indata = .error .signedOverflow := by
  have hcheck : checkInt (s.highRecno + 1) = .error .signedOverflow := by
    rw [INT_MAX] at hroom
    exact if_neg (by omega)
  rw [DataFile.filAdd, hcheck]
  rfl

theorem filReplace_spec (hassoc : s.assoc recno = some assocrec) (input : CString) :
    ∃ s', s.filReplace input recno = .ok s' ∧ WrittenAtEnd s input recno s' ∧
      s'.highRecno = s.highRecno := by
  have hreplace : s.filReplace input recno =
      .ok (((s.filHist .replace assocrec.offset recno assocrec.recsize).writeAssoc recno
        (s.assocAtEnd input)).appendMain input) := by
    rw [DataFile.filReplace, DataFile.readAssoc_of_some hassoc]
    rfl
  exact ⟨_, hreplace, ⟨List.append_assoc .., rfl⟩, rfl⟩

theorem filDel_spec (hassoc : s.assoc recno = some assocrec) :
    ∃ s' deleted, s.filDel recno = .ok s' ∧ s'.assoc recno = some deleted ∧
      s'.highRecno = s.highRecno := by
  have hdel : s.filDel recno =
      .ok ((s.filHist .delete assocrec.offset recno assocrec.recsize).writeAssoc recno
        ⟨DataFile.deletedOffset assocrec.offset, assocrec.recsize⟩) := by
    rw [DataFile.filDel, DataFile.readAssoc_of_some hassoc]
    rfl
  exact ⟨_, _, hdel, Function.update_self .., rfl⟩

theorem add_step (hinv : Inv s) (hgood : FetchesRecords s slots) (indata : CString) :
    Readable s (.add indata) ↔ ∃ s', stepRecord s (.add indata) = .ok s' ∧
      HandsOut s (.add indata) s' ∧ FetchesRecords s' (specRecord slots (.add indata)) := by
  obtain ⟨hlength, hslots⟩ := hgood
  by_cases hroom : s.highRecno < INT_MAX
  · obtain ⟨s', hadd, hwritten, hhigh⟩ := filAdd_spec (by omega) hroom indata
    have hstep : stepRecord s (.add indata) = .ok s' := by rw [stepRecord, hadd]; rfl
    have hinv' := hwritten.inv hinv (by omega)
    have hself := hwritten.fetch_self_iff hinv' (by omega) hhigh.ge
    have hlast : ((slots.length : ℤ) + 1) = s.highRecno + 1 := by omega
    rw [Readable, ← hself]
    constructor
    · rintro ⟨-, hfetch⟩
      refine ⟨s', hstep, hadd, ?_, ?_⟩
      · rw [hhigh, hlength, specRecord, List.length_append]
        rfl
      · intro i slot hslot
        rw [specRecord] at hslot
        rcases Nat.lt_trichotomy i slots.length with hlt | rfl | hgt
        · rw [List.getElem?_append_left hlt] at hslot
          rw [hwritten.fetch_other hinv (by omega) (by omega) (by omega) (by omega)]
          exact hslots i slot hslot
        · rw [List.getElem?_concat_length, Option.some.injEq] at hslot
          rw [hlast, ← hslot]
          exact hfetch
        · rw [List.getElem?_eq_none (by rw [List.length_append, List.length_singleton]; omega)]
            at hslot
          cases hslot
    · rintro ⟨next, hnext, -, -, hgood'⟩
      rw [hstep, Except.ok.injEq] at hnext
      subst hnext
      refine ⟨hroom, ?_⟩
      have hfetch := hgood' slots.length (some indata) (List.getElem?_concat_length ..)
      rwa [hlast] at hfetch
  · refine iff_of_false (fun h ↦ hroom h.1) ?_
    rintro ⟨s', hs', -⟩
    rw [stepRecord, filAdd_of_full hroom] at hs'
    cases hs'

theorem slot_live (hinv : Inv s) (hgood : FetchesRecords s slots) {i : ℕ} {slot : Option CString}
    (hslot : slots[i]? = some slot) : slot ≠ none := by
  rintro rfl
  have hlt := (List.getElem?_eq_some_iff.mp hslot).1
  have hhigh : (i : ℤ) + 1 ≤ s.highRecno := by rw [hgood.1]; omega
  obtain ⟨assocrec, hassoc, -⟩ := hinv.inside (i + 1) (by omega) hhigh
  exact fetch_ne_deleted (by omega) hhigh hassoc (hgood.2 i none hslot)

theorem replace_step (hinv : Inv s) (hgood : FetchesRecords s slots) (input : CString)
    (hvalid : ValidRecord slots (.replace input recno)) :
    Readable s (.replace input recno) ↔ ∃ s', stepRecord s (.replace input recno) = .ok s' ∧
      HandsOut s (.replace input recno) s' ∧
        FetchesRecords s' (specRecord slots (.replace input recno)) := by
  obtain ⟨hpos, hle⟩ := hvalid
  obtain ⟨hlength, hslots⟩ := id hgood
  obtain ⟨assocrec, hassoc, -⟩ := hinv.inside recno hpos (by omega)
  obtain ⟨s', hreplace, hwritten, hhigh⟩ := filReplace_spec hassoc input
  have hinv' := hwritten.inv hinv fun _ _ hother ↦ hhigh ▸ hother
  have hplace : ((slotOf recno : ℕ) : ℤ) + 1 = recno := by rw [slotOf]; omega
  have hself := hwritten.fetch_self_iff hinv' hpos (by omega)
  rw [Readable, ← hself]
  constructor
  · intro hfetch
    refine ⟨s', hreplace, trivial, ?_, ?_⟩
    · rw [hhigh, hlength, specRecord, List.length_modify]
    · intro i slot hslot
      rw [specRecord, List.getElem?_modify] at hslot
      split_ifs at hslot with hsame
      · cases hold : slots[i]? with
        | none => rw [hold] at hslot; cases hslot
        | some old =>
          cases old with
          | none => exact absurd rfl (slot_live hinv hgood hold)
          | some data =>
            rw [hold] at hslot
            cases hslot
            rw [← hsame, hplace]
            exact hfetch
      · have hlt : i < slots.length := by
          rw [Option.map_eq_map, Option.map_id_fun', id] at hslot
          exact (List.getElem?_eq_some_iff.mp hslot).1
        rw [hwritten.fetch_other hinv (by omega) (by omega) (by omega) (by omega)]
        refine hslots i slot ?_
        simpa using hslot
  · rintro ⟨next, hnext, -, -, hgood'⟩
    rw [show stepRecord s (.replace input recno) = .ok s' from hreplace, Except.ok.injEq] at hnext
    subst hnext
    have hlt : slotOf recno < slots.length := by rw [slotOf]; omega
    cases hold : slots[slotOf recno]? with
    | none => rw [List.getElem?_eq_none_iff] at hold; omega
    | some old =>
      cases old with
      | none => exact absurd rfl (slot_live hinv hgood hold)
      | some data =>
        have hfetch := hgood' (slotOf recno) (some input) (by
          rw [specRecord, List.getElem?_modify, hold]
          simp)
        rwa [hplace] at hfetch

theorem del_step (hinv : Inv s) (hgood : FetchesRecords s slots)
    (hvalid : ValidRecord slots (.del recno)) :
    ¬∃ s', stepRecord s (.del recno) = .ok s' ∧ HandsOut s (.del recno) s' ∧
      FetchesRecords s' (specRecord slots (.del recno)) := by
  obtain ⟨hpos, hle⟩ := hvalid
  obtain ⟨assocrec, hassoc, -⟩ := hinv.inside recno hpos (by rw [hgood.1]; omega)
  obtain ⟨s', deleted, hdel, hassoc', hhigh⟩ := filDel_spec hassoc
  rintro ⟨next, hnext, -, -, hgood'⟩
  rw [show stepRecord s (.del recno) = .ok s' from hdel, Except.ok.injEq] at hnext
  subst hnext
  have hplace : ((slotOf recno : ℕ) : ℤ) + 1 = recno := by rw [slotOf]; omega
  have hfetch := hgood' (slotOf recno) none (by
    rw [specRecord, List.getElem?_set_self (by rw [slotOf]; omega)])
  rw [hplace] at hfetch
  exact fetch_ne_deleted hpos (by rw [hhigh, hgood.1]; omega) hassoc' hfetch

/-- The operations of a history, starting from the files as created, are valid. -/
def ValidRecordHistory (ops : List RecordOp) : Prop :=
  Runs.Along stepRecord (fun _ ↦ specRecord) (fun _ ↦ ValidRecord) DataFile.created [] ops

/-- Numbers are handed out consecutively, and in every state all fetches are right. -/
def FetchesRecordsThroughout (ops : List RecordOp) : Prop :=
  Runs.Throughout stepRecord (fun _ ↦ specRecord) FetchesRecords HandsOut DataFile.created [] ops

theorem fetchesRecords_created : FetchesRecords DataFile.created [] :=
  ⟨rfl, fun _ _ hslot ↦ by simp at hslot⟩

theorem stepRecord_iff (hinv : Inv s) (hgood : FetchesRecords s slots) (op : RecordOp)
    (hvalid : ValidRecord slots op) : Readable s op ↔ ∃ s', stepRecord s op = .ok s' ∧
      HandsOut s op s' ∧ FetchesRecords s' (specRecord slots op) := by
  cases op with
  | add indata => exact add_step hinv hgood indata
  | del recno => exact iff_of_false id (del_step hinv hgood hvalid)
  | replace input recno => exact replace_step hinv hgood input hvalid

/-- What is not a deletion keeps the invariant. -/
theorem stepRecord_inv (hinv : Inv s) (hgood : FetchesRecords s slots) {op : RecordOp}
    (hvalid : ValidRecord slots op) (hreadable : Readable s op) {s' : DataFile}
    (hstep : stepRecord s op = .ok s') : Inv s' := by
  cases op with
  | add indata =>
    obtain ⟨next, hadd, hwritten, hhigh⟩ :=
      filAdd_spec (by rw [hgood.1]; omega) hreadable.1 indata
    rw [stepRecord, hadd] at hstep
    cases hstep
    exact hwritten.inv hinv (by omega)
  | del recno => exact hreadable.elim
  | replace input recno =>
    obtain ⟨hpos, hle⟩ := hvalid
    obtain ⟨assocrec, hassoc, -⟩ := hinv.inside recno hpos (by rw [hgood.1]; omega)
    obtain ⟨next, hreplace, hwritten, hhigh⟩ := filReplace_spec hassoc input
    rw [stepRecord, hreplace] at hstep
    cases hstep
    exact hwritten.inv hinv fun _ _ hother ↦ hhigh ▸ hother

/-- Along every valid history record numbers are handed out consecutively and all fetches are right,
if and only if nothing is deleted and everything written is found again. -/
theorem recordHistory_iff (ops : List RecordOp) (hvalid : ValidRecordHistory ops) :
    FetchesRecordsThroughout ops ↔
      Runs.Along stepRecord (fun _ ↦ specRecord) (fun s _ op ↦ Readable s op)
        DataFile.created [] ops := by
  refine Runs.throughout_iff_along Inv ?_ ?_ inv_created fetchesRecords_created hvalid
  · intro s slots op s' hinv hgood hop hreadable hstep
    exact stepRecord_inv hinv hgood hop hreadable hstep
  · intro s slots op hinv hgood hop
    exact stepRecord_iff hinv hgood op hop

def dataA : CString := ⟨[97], by simp⟩

/-- A record that is added and then replaced. -/
theorem recordHistory_replaced : FetchesRecordsThroughout [.add dataA, .replace dataA 1] := by
  refine (recordHistory_iff _ ?_).mpr ?_
  · exact ⟨trivial, fun _ _ ↦ ⟨⟨le_rfl, le_rfl⟩, fun _ _ ↦ trivial⟩⟩
  · refine ⟨⟨by decide, foundAgain_of_short (by decide) (by decide)⟩, ?_⟩
    intro s hs
    cases hs
    exact ⟨foundAgain_of_short (by decide) (by decide), fun _ _ ↦ trivial⟩

-- a record that was deleted twice is fetched again
example :
    ((((DataFile.created.filAdd dataA).map Prod.snd).bind fun s ↦ (s.filAdd dataA).map Prod.snd).bind
      fun s ↦ (s.filDel 2).bind fun s ↦ (s.filDel 2).bind fun s ↦ s.fetch 2) =
        .ok (some dataA.bytes, 0) := by
  decide

/-- The fetch of a deleted record does not report that it is deleted, and after a second deletion
the record is back. -/
theorem recordHistory_deleted : ¬∀ ops : List RecordOp,
    ValidRecordHistory ops → FetchesRecordsThroughout ops := by
  intro hall
  have hvalid : ValidRecordHistory [.add dataA, .add dataA, .del 2, .del 2] := by
    refine ⟨trivial, fun _ _ ↦ ⟨trivial, fun _ _ ↦ ⟨?_, fun _ _ ↦ ⟨?_, fun _ _ ↦ trivial⟩⟩⟩⟩ <;>
      simp [ValidRecord, specRecord]
  obtain ⟨-, s₁, ⟨⟩, -, -, s₂, ⟨⟩, -, -, s₃, ⟨⟩, -, -, s₄, ⟨⟩, -, hgood⟩ := hall _ hvalid
  have hfetch := hgood.2 1 none rfl
  revert hfetch
  decide

end Cheshire.FileIo
