import Cheshire.Lib.Runs
import Cheshire.Lists.ListUtils

/-!
# What a list holds

A list that was filled by appending holds its strings: the index has the offset of each, the data block
has them one behind the other, and the counted sizes are theirs.  The capacities follow from the lengths
of the strings alone, so a copy of a list needs no more room than the list did.
-/

namespace Cheshire.Lists

open Lib Lib.Buffer Lib.Runs

variable {strs : List CString} {str : CString} {list : AcList}

/-- The data of a list with these strings. -/
def packed (strs : List CString) : List Char := strs.flatMap CString.stored

theorem packed_concat (strs : List CString) (str : CString) :
    packed (strs ++ [str]) = packed strs ++ str.stored := by
  rw [packed, List.flatMap_append, List.flatMap_singleton, packed]

@[simp]
theorem extentOf_nil : extentOf [] = .fresh := rfl

theorem extentOf_concat (strs : List CString) (str : CString) :
    extentOf (strs ++ [str]) = (extentOf strs).add str.length := by
  rw [extentOf, List.foldl_append, List.foldl_cons, List.foldl_nil, extentOf]

theorem extentOf_count (strs : List CString) : (extentOf strs).count = strs.length := by
  induction strs using List.reverseRecOn with
  | nil => rfl
  | append_singleton strs str ih => 
    rw [extentOf_concat, Extent.add, ih, List.length_append, List.length_singleton]

theorem extentOf_size (strs : List CString) : (extentOf strs).size = (packed strs).length := by
  induction strs using List.reverseRecOn with
  | nil => rfl
  | append_singleton strs str ih =>
    rw [extentOf_concat, Extent.add, ih, packed_concat, List.length_append, CString.length_stored]
    exact Nat.add_assoc _ _ _

theorem extentOf_slots (strs : List CString) :
    0 < (extentOf strs).slots ∧ (extentOf strs).count ≤ (extentOf strs).slots := by
  induction strs using List.reverseRecOn with
  | nil => exact ⟨by decide, by decide⟩
  | append_singleton strs str ih =>
    rw [extentOf_concat, Extent.add]
    dsimp only
    split <;> omega

theorem fits_nil : Fits [] := by
  intro before str hpre
  have hlength := hpre.length_le
  rw [List.length_append] at hlength
  exact absurd hlength (by simp)

theorem Fits.of_prefix {before : List CString} (h : Fits strs) (hpre : before <+: strs) :
    Fits before :=
  fun earlier str hearlier ↦ h earlier str (hearlier.trans hpre)

theorem Fits.concat (h : Fits strs) (happend : (extentOf strs).Appendable str.length) :
    Fits (strs ++ [str]) := by
  intro before other hpre
  rcases List.prefix_concat_iff.mp hpre with hwhole | hinside
  · obtain ⟨rfl, hsame⟩ := List.append_inj' hwhole rfl
    obtain rfl := List.head_eq_of_cons_eq hsame
    exact happend
  · exact h before other hinside

theorem Fits.size_le_cap (h : Fits strs) : (extentOf strs).size ≤ (extentOf strs).cap := by
  induction strs using List.reverseRecOn with
  | nil => exact le_rfl
  | append_singleton strs str ih =>
    have hle := ih (h.of_prefix (List.prefix_append _ _))
    have hfirst := (h strs str List.prefix_rfl).1
    have hzero : (extentOf strs).count = 0 → (extentOf strs).size = 0 := by
      intro hcount
      rw [extentOf_count, List.length_eq_zero_iff] at hcount
      rw [hcount]
      rfl
    rw [extentOf_concat, Extent.add]
    dsimp only
    split
    · have := hzero ‹_›
      have := hfirst ‹_›
      omega
    · have hpos : 0 < (extentOf strs).size := by
        rw [extentOf_size]
        rw [extentOf_count] at *
        obtain ⟨init, last, rfl⟩ : ∃ init last, strs = init ++ [last] :=
          (List.eq_nil_or_concat' strs).resolve_left (by rintro rfl; exact absurd rfl ‹_›)
        rw [packed_concat, List.length_append, CString.length_stored]
        omega
      split <;> omega

/-- Where each string begins. -/
def offsetsOf (strs : List CString) : List ℕ :=
  (List.range strs.length).map fun i ↦ (packed (strs.take i)).length

theorem length_offsetsOf (strs : List CString) : (offsetsOf strs).length = strs.length := by
  rw [offsetsOf, List.length_map, List.length_range]

theorem offsetsOf_concat (strs : List CString) (str : CString) :
    offsetsOf (strs ++ [str]) = offsetsOf strs ++ [(packed strs).length] := by
  rw [offsetsOf, List.length_append, List.length_singleton, List.range_succ, List.map_append,
    List.map_singleton, List.take_left]
  congr 1
  apply List.map_congr_left
  intro i hi
  rw [List.take_append_of_le_length (List.mem_range.mp hi).le]

/-- The list has these strings, and was filled by appending them. -/
structure Holds (list : AcList) (strs : List CString) : Prop where
  extent : (⟨list.idxsize, list.idxend, list.size, list.bufEnd⟩ : Extent) = extentOf strs
  fits : Fits strs
  slots : list.index.length = list.idxend
  offsets : list.index.take strs.length = (offsetsOf strs).map some
  origin : list.index[0]? = some (some 0)
  data : strs = [] ∧ list.data = none ∨ strs ≠ [] ∧ ∃ cells, list.data = some cells ∧
    cells.length = list.bufEnd ∧ cells.take list.size = (packed strs).map some

namespace Holds

theorem alloc : Holds acListAlloc [] where
  extent := rfl
  fits := fits_nil
  slots := List.length_replicate
  offsets := rfl
  origin := rfl
  data := .inl ⟨rfl, rfl⟩

theorem count (h : Holds list strs) : list.idxsize = strs.length := by
  rw [← extentOf_count, ← h.extent]

theorem size (h : Holds list strs) : list.size = (packed strs).length := by
  rw [← extentOf_size, ← h.extent]

theorem offset (h : Holds list strs) {i : ℕ} (hi : i < strs.length) :
    list.index[i]? = some (some (packed (strs.take i)).length) := by
  rw [← List.getElem?_take_of_lt hi, h.offsets, List.getElem?_map, offsetsOf, List.getElem?_map,
    List.getElem?_range hi]
  rfl

theorem at_curpos (h : Holds list strs) (curpos : ℤ) : Holds { list with curpos := curpos } strs :=
  ⟨h.extent, h.fits, h.slots, h.offsets, h.origin, h.data⟩

end Holds

theorem length_realloc {α : Type} {cells : List (Option α)} {count : ℕ} (hle : cells.length ≤ count) :
    (realloc cells count).length = count := by
  rw [realloc, List.take_of_length_le hle, List.length_append, List.length_replicate]
  omega

theorem take_realloc {α : Type} {cells : List (Option α)} {count kept : ℕ} (hle : cells.length ≤ count)
    (hkept : kept ≤ cells.length) : (realloc cells count).take kept = cells.take kept := by
  rw [realloc, List.take_of_length_le hle, List.take_append_of_le_length hkept]

theorem storeCells_eq {α : Type} {cells : List (Option α)} {place : ℕ} {values : List α}
    (hle : place + values.length ≤ cells.length) : storeCells cells place values =
      .ok (cells.take place ++ values.map some ++ cells.drop (place + values.length)) := by
  rw [storeCells, storeAll?, List.length_map, if_pos hle]

theorem Holds.growData (h : Holds list strs)
    (happend : (extentOf strs).Appendable str.length) :
    ∃ cells, growData list str.length = .ok { list with
        bufEnd := ((extentOf strs).add str.length).cap, data := some cells } ∧
      cells.length = ((extentOf strs).add str.length).cap ∧
      cells.take list.size = (packed strs).map some := by
  have hcap := happend.2.1
  have hsize := h.size
  rw [← h.extent, Extent.add] at hcap ⊢
  dsimp only at hcap ⊢
  rw [Lists.growData]
  rcases h.data with ⟨hnil, hdata⟩ | ⟨hne, cells, hdata, hlength, htake⟩
  · have hcount : list.idxsize = 0 := by rw [h.count, hnil, List.length_nil]
    rw [if_pos hcount] at hcap ⊢
    rw [hdata]
    have hcheck := checkInt_natCast hcap
    push_cast at hcheck
    simp only [hcheck, bind, Except.bind]
    refine ⟨_, rfl, List.length_replicate, ?_⟩
    rw [hsize, hnil]
    rfl
  · have hcount : list.idxsize ≠ 0 := by
      rw [h.count]
      exact fun hzero ↦ hne (List.length_eq_zero_iff.mp hzero)
    have hle : list.size ≤ cells.length := by
      have hroom := h.fits.size_le_cap
      rw [← h.extent] at hroom
      rw [hlength]
      exact hroom
    rw [if_neg hcount] at hcap ⊢
    rw [hdata]
    by_cases hfull : list.bufEnd ≤ list.size + str.length
    · rw [if_pos hfull] at hcap ⊢
      have hcheck := checkInt_natCast hcap
      push_cast at hcheck
      have htest : (list.bufEnd : ℤ) - list.size ≤ str.length := by omega
      simp only [if_pos htest, hcheck, bind, Except.bind]
      have hgrown : cells.length ≤ 2 * (str.length + list.bufEnd) := by omega
      refine ⟨_, rfl, length_realloc hgrown, ?_⟩
      rw [show ((2 * ((str.length : ℤ) + list.bufEnd)).toNat) = 2 * (str.length + list.bufEnd) by omega,
        take_realloc hgrown hle, htake]
    · rw [if_neg hfull]
      have htest : ¬(list.bufEnd : ℤ) - list.size ≤ str.length := by omega
      simp only [if_neg htest]
      refine ⟨cells, ?_, hlength, htake⟩
      rw [← hdata]

theorem Holds.growIndex (h : Holds list strs)
    (happend : (extentOf strs).Appendable str.length) (bufEnd : ℕ) (data : Option (List (Option Char))) :
    ∃ index, growIndex { list with bufEnd := bufEnd, data := data } = .ok { list with
        bufEnd := bufEnd, data := data, idxend := ((extentOf strs).add str.length).slots
        index := index } ∧
      index.length = ((extentOf strs).add str.length).slots ∧ strs.length < index.length ∧
      index.take list.index.length = list.index := by
  have hslots := happend.2.2
  have hroom := extentOf_slots strs
  have hlength := h.slots
  rw [← h.extent, Extent.add] at hslots ⊢
  rw [← h.extent] at hroom
  dsimp only at hslots hroom ⊢
  rw [Lists.growIndex]
  by_cases hfull : list.idxend ≤ list.idxsize
  · rw [if_pos hfull] at hslots ⊢
    have hcheck := checkInt_natCast hslots
    push_cast at hcheck
    have hgrown : list.index.length ≤ 2 * list.idxend := by omega
    simp only [if_pos hfull, hcheck, bind, Except.bind]
    refine ⟨_, rfl, length_realloc hgrown, ?_, ?_⟩
    · rw [length_realloc (by omega), ← h.count]
      omega
    · rw [take_realloc (by omega) le_rfl, List.take_length]
  · rw [if_neg hfull] at hslots ⊢
    simp only [if_neg hfull]
    refine ⟨list.index, rfl, hlength, ?_, List.take_length⟩
    rw [hlength, ← h.count]
    omega

theorem storeCells_behind {α : Type} {cells : List (Option α)} {place : ℕ} {front values : List α}
    (hfront : cells.take place = front.map some) (hplace : front.length = place)
    (hle : place + values.length ≤ cells.length) :
    ∃ cells', storeCells cells place values = .ok cells' ∧ cells'.length = cells.length ∧
      cells'.take (place + values.length) = (front ++ values).map some := by
  refine ⟨_, storeCells_eq hle, ?_, ?_⟩
  · simp only [List.length_append, List.length_take, List.length_map, List.length_drop]
    omega
  · have hlength : (cells.take place ++ values.map some).length = place + values.length := by
      rw [hfront, List.length_append, List.length_map, List.length_map, hplace]
    rw [← hlength, List.take_left, hfront, List.map_append]

theorem Holds.append (h : Holds list strs) (happend : (extentOf strs).Appendable str.length) :
    ∃ list', acListAdd list str.chars = .ok list' ∧ Holds list' (strs ++ [str]) := by
  have hfits := h.fits.concat happend
  have hroom := hfits.size_le_cap
  rw [extentOf_concat, Extent.add] at hroom
  obtain ⟨cells, hgrow, hlength, htake⟩ := h.growData happend
  obtain ⟨index, hindex, hslots, hlt, hkept⟩ := h.growIndex happend
    ((extentOf strs).add str.length).cap (some cells)
  have hoffsets : index.take strs.length = (offsetsOf strs).map some := by
    have hle : strs.length ≤ list.index.length := by
      rw [h.slots, ← h.count]
      have hcount := (extentOf_slots strs).2
      rwa [← h.extent] at hcount
    rw [← h.offsets, ← hkept, List.take_take, min_eq_left hle]
  obtain ⟨index', hstore, hsame, hnew⟩ := storeCells_behind hoffsets (length_offsetsOf strs)
    (show strs.length + [list.size].length ≤ index.length from hlt)
  have hinside : list.size + str.length + 1 ≤ cells.length := by
    rw [hlength, h.size, ← extentOf_size]
    exact hroom
  obtain ⟨cells₁, hchars, hlength₁, htake₁⟩ := storeCells_behind htake h.size.symm
    (show list.size + str.chars.length ≤ cells.length from Nat.le_of_succ_le hinside)
  obtain ⟨cells₂, hnul, hlength₂, htake₂⟩ := storeCells_behind htake₁
    (by rw [List.length_append, h.size])
    (show list.size + str.chars.length + [nul].length ≤ cells₁.length from hlength₁ ▸ hinside)
  refine ⟨{ list with
    idxsize := list.idxsize + 1
    idxend := ((extentOf strs).add str.length).slots
    index := index'
    size := list.size + str.chars.length + 1
    bufEnd := ((extentOf strs).add str.length).cap
    data := some cells₂ }, ?_, ?_⟩
  · have hgrow' : Lists.growData list str.chars.length = _ := hgrow
    rw [← h.count] at hstore
    rw [acListAdd, acListAppend]
    simp only [hgrow', bind, Except.bind, hindex, hstore, deref, hchars, hnul]
  · have hextent := extentOf_concat strs str
    refine ⟨?_, hfits, hsame.trans hslots, ?_, ?_, .inr ⟨by simp, cells₂, rfl, ?_, ?_⟩⟩
    · rw [hextent, ← h.extent]
      rfl
    · rw [offsetsOf_concat, List.length_append, ← h.size]
      exact hnew
    · have hzero : (index'.take (strs.length + [list.size].length))[0]? = index'[0]? :=
        List.getElem?_take_of_lt (Nat.succ_pos _)
      rw [← hzero, hnew, List.getElem?_map]
      rcases strs with _ | ⟨first, strs⟩
      · rw [h.size]
        rfl
      · rw [List.getElem?_append_left (by simp [length_offsetsOf]), offsetsOf, List.getElem?_map,
          List.getElem?_range (show 0 < (first :: strs).length from Nat.succ_pos _)]
        rfl
    · rw [hlength₂, hlength₁, hlength]
    · rw [packed_concat, CString.stored, ← List.append_assoc]
      exact htake₂

theorem readCells_stored (str : CString) (rest : List (Option Char)) :
    readCells (str.stored.map some ++ rest) = .ok str.chars := by
  obtain ⟨chars, hterminated⟩ := str
  rw [CString.stored]
  induction chars with
  | nil => simp [readCells]
  | cons c chars ih =>
    have hne : c ≠ nul := fun heq ↦ hterminated (heq ▸ List.mem_cons_self)
    have hrest := ih fun hmem ↦ hterminated (List.mem_cons_of_mem _ hmem)
    simp only [List.cons_append, List.map_cons, readCells, if_neg hne]
    rw [hrest]
    rfl

/-- Where the string at a position begins, if there is one. -/
def itemOf (strs : List CString) (i : ℕ) : Option ℕ :=
  if i < strs.length then some (packed (strs.take i)).length else none

namespace Holds

theorem ne_nil {i : ℕ} (hi : i < strs.length) : strs ≠ [] := by
  rintro rfl
  exact absurd hi (Nat.not_lt_zero _)

theorem itemAt (h : Holds list strs) {i : ℕ} (hi : i < strs.length) :
    Lists.itemAt list i = .ok (itemOf strs i) := by
  obtain ⟨hnil, -⟩ | ⟨-, cells, hdata, -⟩ := h.data
  · exact absurd hnil (ne_nil hi)
  · simp only [Lists.itemAt, loadCell, h.offset hi, hdata, bind, Except.bind, itemOf, if_pos hi]

theorem readItem (h : Holds list strs) {i : ℕ} (hi : i < strs.length) :
    Lists.readItem list (packed (strs.take i)).length = .ok strs[i].chars := by
  obtain ⟨hnil, -⟩ | ⟨-, cells, hdata, -, htake⟩ := h.data
  · exact absurd hnil (ne_nil hi)
  · have hsplit : packed strs = packed (strs.take i) ++ (strs[i].stored ++ packed (strs.drop (i + 1))) := by
      have hcut : strs = strs.take i ++ strs[i] :: strs.drop (i + 1) := by
        rw [List.cons_getElem_drop_succ, List.take_append_drop]
      calc
        packed strs = packed (strs.take i ++ strs[i] :: strs.drop (i + 1)) := congrArg packed hcut
        _ = _ := by rw [packed, List.flatMap_append, List.flatMap_cons, packed, packed]
    have hcells : cells = (packed strs).map some ++ cells.drop list.size := by
      rw [← htake, List.take_append_drop]
    rw [Lists.readItem, hdata, hcells, hsplit, List.map_append, List.append_assoc]
    simp only [deref, bind, Except.bind]
    rw [List.drop_left' (List.length_map _), List.map_append, List.append_assoc, readCells_stored]

theorem first (h : Holds list strs) (hne : strs ≠ []) :
    acListFirst list = .ok (itemOf strs 0, { list with curpos := 0 }) := by
  have hpos : 0 < strs.length := List.length_pos_of_ne_nil hne
  have hcount : list.idxsize ≠ 0 := by rw [h.count]; omega
  simp only [acListFirst, if_neg hcount, (h.at_curpos 0).itemAt hpos, bind, Except.bind]

theorem next (h : Holds list strs) {i : ℕ} (hcurpos : list.curpos = i) :
    acListNext list = .ok (itemOf strs (i + 1), { list with curpos := (i + 1 : ℕ) }) := by
  have hat : list.curpos + 1 = (i + 1 : ℕ) := by rw [hcurpos]; norm_cast
  rw [acListNext, hat]
  by_cases hlast : strs.length ≤ i + 1
  · have htest : ((i + 1 : ℕ) : ℤ) ≥ list.idxsize := by rw [h.count]; exact_mod_cast hlast
    simp only [if_pos htest, itemOf, if_neg (not_lt.mpr hlast)]
  · have htest : ¬((i + 1 : ℕ) : ℤ) ≥ list.idxsize := by rw [h.count]; exact_mod_cast hlast
    simp only [if_neg htest, Int.toNat_natCast, (h.at_curpos _).itemAt (not_le.mp hlast), bind,
      Except.bind]

theorem nth (h : Holds list strs) {which : ℤ} (hwhich : which ≠ strs.length ∨ strs = []) :
    ∃ list', acListNth list which = .ok (if which < 0 then none else itemOf strs which.toNat, list') ∧
      Holds list' strs ∧ (0 ≤ which → which < strs.length → list'.curpos = which) := by
  have hcount := h.count
  by_cases hrange : which < 0 ∨ which > list.idxsize
  · refine ⟨list, ?_, h, fun hnonneg hlt ↦ by omega⟩
    have hnone : (if which < 0 then none else itemOf strs which.toNat) = none := by
      rcases hrange with hneg | hbeyond
      · rw [if_pos hneg]
      · rw [if_neg (by omega), itemOf, if_neg (by omega)]
    rw [hnone, acListNth, if_pos hrange]
  · refine ⟨{ list with curpos := which }, ?_, h.at_curpos which, fun _ _ ↦ rfl⟩
    have hnonneg : ¬which < 0 := fun hneg ↦ hrange (.inl hneg)
    rw [acListNth, if_neg hrange, if_neg hnonneg]
    by_cases hinside : which.toNat < strs.length
    · simp only [(h.at_curpos which).itemAt hinside, bind, Except.bind]
    · -- only a list with nothing in it is left: its data is the null pointer
      have hnil : strs = [] := hwhich.resolve_left fun hne ↦ hrange (.inr (by omega))
      have hdata : list.data = none := by
        obtain ⟨-, hdata⟩ | ⟨hne, -⟩ := h.data
        · exact hdata
        · exact absurd hnil hne
      have hzero : which.toNat = 0 := by
        rw [hnil, List.length_nil] at hcount
        omega
      rw [itemOf, if_neg hinside, hzero]
      simp only [Lists.itemAt, loadCell, h.origin, hdata, bind, Except.bind, if_true]

end Holds

theorem Fits.appendable {done rest : List CString} (h : Fits (done ++ str :: rest)) :
    (extentOf done).Appendable str.length :=
  h done str ⟨rest, by rw [List.append_assoc, List.singleton_append]⟩

theorem Holds.dupLoop {slist dlist : AcList} {done : List CString} {fuel i : ℕ}
    (h : Holds slist strs) (hdone : Holds dlist done) (hcurpos : slist.curpos = i)
    (hfits : Fits (done ++ strs.drop i)) (hi : i ≤ strs.length) (hfuel : strs.length < fuel + i) :
    ∃ dlist' slist', Lists.dupLoop fuel (itemOf strs i) slist dlist = .ok (dlist', slist') ∧
      Holds dlist' (done ++ strs.drop i) ∧ Holds slist' strs := by
  induction fuel generalizing slist dlist done i with
  | zero => omega
  | succ fuel ih =>
    by_cases hi : i < strs.length
    · have hdrop := List.drop_eq_getElem_cons hi
      rw [hdrop] at hfits ⊢
      obtain ⟨dlist', hadd, hdone'⟩ := hdone.append hfits.appendable
      have hnext := h.next hcurpos
      have hagain := @ih _ dlist' (done ++ [strs[i]]) (i + 1) (h.at_curpos (i + 1 : ℕ)) hdone' rfl
        (by rwa [List.append_assoc, List.singleton_append]) (by omega) (by omega)
      rw [List.append_assoc, List.singleton_append] at hagain
      simp only [Lists.dupLoop, itemOf, if_pos hi, h.readItem hi, hadd, hnext, bind, Except.bind]
      exact hagain
    · refine ⟨dlist, slist, ?_, ?_, h⟩
      · simp only [itemOf, if_neg hi, Lists.dupLoop]
      · rw [List.drop_eq_nil_of_le (not_lt.mp hi), List.append_nil]
        exact hdone

theorem Holds.subListLoop {slist dlist : AcList} {done : List CString} {number i : ℕ}
    (h : Holds slist strs) (hdone : Holds dlist done) (hcurpos : slist.curpos = i)
    (hfits : Fits (done ++ (strs.drop i).take number)) (hinside : i + number ≤ strs.length) :
    ∃ dlist' slist', Lists.subListLoop number (itemOf strs i) slist dlist = .ok (dlist', slist') ∧
      Holds dlist' (done ++ (strs.drop i).take number) ∧ Holds slist' strs := by
  induction number generalizing slist dlist done i with
  | zero =>
    refine ⟨dlist, slist, rfl, ?_, h⟩
    rw [List.take_zero, List.append_nil]
    exact hdone
  | succ number ih =>
    have hi : i < strs.length := by omega
    have htake : (strs.drop i).take (number + 1) = strs[i] :: (strs.drop (i + 1)).take number := by
      rw [List.drop_eq_getElem_cons hi, List.take_succ_cons]
    rw [htake] at hfits ⊢
    obtain ⟨dlist', hadd, hdone'⟩ := hdone.append hfits.appendable
    have hnext := h.next hcurpos
    have hagain := @ih _ dlist' (done ++ [strs[i]]) (i + 1) (h.at_curpos (i + 1 : ℕ)) hdone' rfl
      (by rwa [List.append_assoc, List.singleton_append]) (by omega)
    rw [List.append_assoc, List.singleton_append] at hagain
    have hitem : itemOf strs i = some (packed (strs.take i)).length := by rw [itemOf, if_pos hi]
    simp only [Lists.subListLoop, hitem, deref, h.readItem hi, hadd, hnext, bind, Except.bind]
    exact hagain

theorem Holds.dup (h : Holds list strs) :
    ∃ copy list', acListDup list = .ok (copy, list') ∧ Holds list' strs ∧
      ((copy = none ∧ strs = []) ∨ ∃ dlist, copy = some dlist ∧ Holds dlist strs) := by
  rw [acListDup]
  by_cases hnil : strs = []
  · have hcount : list.idxsize = 0 := by rw [h.count, hnil, List.length_nil]
    exact ⟨none, list, if_pos hcount, h, .inl ⟨rfl, hnil⟩⟩
  · have hcount : list.idxsize ≠ 0 := by
      rw [h.count]
      exact fun hzero ↦ hnil (List.length_eq_zero_iff.mp hzero)
    obtain ⟨dlist, slist, hloop, hdone, hsource⟩ := (h.at_curpos 0).dupLoop .alloc rfl
      (show Fits ([] ++ strs.drop 0) from h.fits) (Nat.zero_le _)
      (show strs.length < list.idxsize + 1 + 0 by rw [h.count]; omega)
    refine ⟨some dlist, slist, ?_, hsource, .inr ⟨dlist, rfl, hdone⟩⟩
    rw [if_neg hcount]
    simp only [h.first hnil, hloop, bind, Except.bind]

/-- A part of a list that is within it. -/
def subStrs (strs : List CString) (start number : ℤ) : List CString :=
  if 0 ≤ start ∧ start + number ≤ strs.length then (strs.drop start.toNat).take number.toNat else []

/-- The part begins and ends in the list, and its strings can be appended; or no string is asked for. -/
def SubListFits (strs : List CString) (start number : ℤ) : Prop :=
  (number ≤ 0 ∧ start ≠ strs.length) ∨
    (0 ≤ start ∧ 0 < number ∧ start + number ≤ strs.length ∧ Fits (subStrs strs start number))

theorem Holds.subList (h : Holds list strs) {start number : ℤ}
    (hfits : strs = [] ∨ SubListFits strs start number) :
    ∃ part list', acListSubList list start number = .ok (part, list') ∧ Holds list' strs ∧
      ((part = none ∧ strs = []) ∨ ∃ dlist, part = some dlist ∧
        Holds dlist (subStrs strs start number)) := by
  rw [acListSubList]
  by_cases hnil : strs = []
  · have hcount : list.idxsize = 0 := by rw [h.count, hnil, List.length_nil]
    exact ⟨none, list, if_pos hcount, h, .inl ⟨rfl, hnil⟩⟩
  have hcount : list.idxsize ≠ 0 := by
    rw [h.count]
    exact fun hzero ↦ hnil (List.length_eq_zero_iff.mp hzero)
  rw [if_neg hcount]
  rcases hfits.resolve_left hnil with ⟨hnumber, hstart⟩ | ⟨hstart, hnumber, hend, hfits⟩
  · obtain ⟨slist, hnth, hsource, -⟩ := h.nth (.inl hstart)
    have hnone : subStrs strs start number = [] := by
      rw [subStrs, Int.toNat_of_nonpos hnumber, List.take_zero, ite_self]
    refine ⟨some acListAlloc, slist, ?_, hsource, .inr ⟨_, rfl, hnone ▸ .alloc⟩⟩
    simp only [hnth, Int.toNat_of_nonpos hnumber, Lists.subListLoop, bind, Except.bind]
  · obtain ⟨slist, hnth, hsource, hcurpos⟩ := h.nth (.inl (show start ≠ strs.length by omega))
    have hpart : subStrs strs start number = (strs.drop start.toNat).take number.toNat :=
      if_pos ⟨hstart, hend⟩
    rw [hpart] at hfits ⊢
    obtain ⟨dlist, slist', hloop, hdone, hsource'⟩ := hsource.subListLoop .alloc
      (show slist.curpos = (start.toNat : ℤ) by rw [hcurpos hstart (by omega)]; omega)
      (show Fits ([] ++ (strs.drop start.toNat).take number.toNat) from hfits) (by omega)
    refine ⟨some dlist, slist', ?_, hsource', .inr ⟨dlist, rfl, hdone⟩⟩
    simp only [hnth, if_neg (not_lt.mpr hstart), hloop, bind, Except.bind]

end Cheshire.Lists
