import Cheshire.Lists.ListHistory

/-!
# Sequences of list operations

The callers keep pointers to their lists, and `ac_list_dup` and `ac_list_sub_list` give new ones, or a
null pointer for a list with nothing in it.  Beside the lists stands what they are meant to be: lists of
strings.
-/

namespace Cheshire.Lists

open Lib Lib.Runs

/-- One operation; lists are named by the order in which they were made. -/
inductive ListCall where
  | alloc
  | append (handle : ℕ) (item : CString)
  | dup (handle : ℕ)
  | nth (handle : ℕ) (which : ℤ)
  | subList (handle : ℕ) (start number : ℤ)

/-- The pointers, and the last string that was asked for. -/
structure ListStore where
  lists : List (Option AcList)
  answer : Option (List Char)

def ListStore.start : ListStore := ⟨[], none⟩

/-- The pointer; there is a null pointer where no list was made. -/
def ListStore.pointer (s : ListStore) (handle : ℕ) : Option AcList := (s.lists[handle]?).join

/-- A new pointer, and the list that was read for it. -/
def ListStore.made (s : ListStore) (handle : ℕ) (result : Option AcList × AcList) : ListStore :=
  { s with lists := s.lists.set handle (some result.2) ++ [result.1] }

/-- One operation of the library. -/
def stepCall (s : ListStore) : ListCall → Exec ListStore
  | .alloc => .ok { s with lists := s.lists ++ [some acListAlloc] }
  | .append handle item => do
    let list ← deref (s.pointer handle)
    let list ← acListAdd list item.chars
    .ok { s with lists := s.lists.set handle (some list) }
  | .dup handle =>
    match s.pointer handle with
    | none => .ok { s with lists := s.lists ++ [none] }
    | some list => (acListDup list).map (s.made handle)
  | .nth handle which =>
    match s.pointer handle with
    | none => .ok { s with answer := none }
    | some list => do
      let (item, list) ← acListNth list which
      let answer ← match item with
        | none => .ok none
        | some item => (readItem list item).map some
      .ok { lists := s.lists.set handle (some list), answer := answer }
  | .subList handle start number =>
    match s.pointer handle with
    | none => .ok { s with lists := s.lists ++ [none] }
    | some list => (acListSubList list start number).map (s.made handle)

/-- The lists as they are meant. -/
structure ListLedger where
  lists : List (List CString)
  answer : Option CString

def ListLedger.start : ListLedger := ⟨[], none⟩

def ListLedger.strs (a : ListLedger) (handle : ℕ) : List CString := (a.lists[handle]?).getD []

/-- One operation on lists of strings; the failure value of a list is the empty one. -/
def specCall (_ : ListStore) (a : ListLedger) : ListCall → ListLedger
  | .alloc => { a with lists := a.lists ++ [[]] }
  | .append handle item => { a with lists := a.lists.set handle (a.strs handle ++ [item]) }
  | .dup handle => { a with lists := a.lists ++ [a.strs handle] }
  | .nth handle which =>
    { a with answer := if which < 0 then none else (a.strs handle)[which.toNat]? }
  | .subList handle start number =>
    { a with lists := a.lists ++ [subStrs (a.strs handle) start number] }

/-- A pointer shows a list of strings; a null pointer shows that there are none. -/
def Shows (list : Option AcList) (strs : List CString) : Prop :=
  match list with
  | none => strs = []
  | some list => Holds list strs

/-- Every list has its strings, with the sizes counted, and the answer is the one asked for. -/
structure RepresentsLists (s : ListStore) (a : ListLedger) : Prop where
  lists : List.Forall₂ Shows s.lists a.lists
  answer : s.answer = a.answer.map CString.chars

/-- The string goes to a list, is not the empty one of a list with no data, and the capacities stay
`int`s; the index is not the one behind the last; the part asked for is within the list. -/
def CallCondition (s : ListStore) (a : ListLedger) : ListCall → Prop
  | .alloc => True
  | .append handle item =>
    s.pointer handle ≠ none ∧ (extentOf (a.strs handle)).Appendable item.length
  | .dup _ => True
  | .nth handle which => which ≠ (a.strs handle).length ∨ a.strs handle = []
  | .subList handle start number =>
    a.strs handle = [] ∨ SubListFits (a.strs handle) start number

variable {s : ListStore} {a : ListLedger}

theorem forall₂_set {α β : Type} {R : α → β → Prop} {xs : List α} {ys : List β}
    (h : List.Forall₂ R xs ys) (i : ℕ) {x : α} {y : β} (hxy : R x y) :
    List.Forall₂ R (xs.set i x) (ys.set i y) := by
  induction h generalizing i with
  | nil => exact .nil
  | cons hhead htail ih =>
    cases i with
    | zero => exact .cons hxy htail
    | succ i => exact .cons hhead (ih i)

theorem subStrs_nil (start number : ℤ) : subStrs [] start number = [] := by
  rw [subStrs, List.drop_nil, List.take_nil, ite_self]

namespace RepresentsLists

theorem shows_pointer (h : RepresentsLists s a) (handle : ℕ) : Shows (s.pointer handle) (a.strs handle) := by
  have hlength := h.lists.length_eq
  rw [ListStore.pointer, ListLedger.strs]
  by_cases hhandle : handle < s.lists.length
  · rw [List.getElem?_eq_getElem hhandle, List.getElem?_eq_getElem (hlength ▸ hhandle)]
    exact h.lists.get hhandle (hlength ▸ hhandle)
  · rw [List.getElem?_eq_none (not_lt.mp hhandle), List.getElem?_eq_none (by omega)]
    rfl

variable {list : AcList}

theorem holds (h : RepresentsLists s a) {handle : ℕ}
    (hpointer : s.pointer handle = some list) : Holds list (a.strs handle) := by
  have hshows := h.shows_pointer handle
  rwa [hpointer] at hshows

theorem set (h : RepresentsLists s a) (handle : ℕ) {strs : List CString} (hlist : Holds list strs) :
    List.Forall₂ Shows (s.lists.set handle (some list)) (a.lists.set handle strs) :=
  forall₂_set h.lists handle hlist

theorem set_read (h : RepresentsLists s a) (handle : ℕ) (hlist : Holds list (a.strs handle)) :
    List.Forall₂ Shows (s.lists.set handle (some list)) a.lists := by
  have hset := h.set handle hlist
  by_cases hhandle : handle < a.lists.length
  · rwa [ListLedger.strs, List.getElem?_eq_getElem hhandle, Option.getD_some, List.set_getElem_self]
      at hset
  · rwa [List.set_eq_of_length_le (not_lt.mp hhandle)] at hset

theorem made (h : RepresentsLists s a) (handle : ℕ) {made : Option AcList} {strs : List CString}
    (hlist : Holds list (a.strs handle)) (hmade : Shows made strs) :
    RepresentsLists (s.made handle (made, list)) { a with lists := a.lists ++ [strs] } where
  lists := List.rel_append (h.set_read handle hlist) (.cons hmade .nil)
  answer := h.answer

theorem nth (h : RepresentsLists s a) {handle : ℕ} {which : ℤ}
    (hcond : which ≠ (a.strs handle).length ∨ a.strs handle = []) :
    ∃ s', stepCall s (.nth handle which) = .ok s' ∧
      RepresentsLists s' (specCall s a (.nth handle which)) := by
  rw [stepCall, specCall]
  rcases hpointer : s.pointer handle with _ | list
  · have hnil : a.strs handle = [] := by
      have hshows := h.shows_pointer handle
      rwa [hpointer] at hshows
    refine ⟨_, rfl, h.lists, ?_⟩
    rw [hnil, List.getElem?_nil, ite_self]
    rfl
  · have hlist := h.holds hpointer
    obtain ⟨list', hnth, hlist', -⟩ := hlist.nth hcond
    dsimp only
    rw [hnth]
    by_cases hinside : ¬which < 0 ∧ which.toNat < (a.strs handle).length
    · have hitem : (if which < 0 then none else itemOf (a.strs handle) which.toNat) =
          some (packed ((a.strs handle).take which.toNat)).length := by
        rw [if_neg hinside.1, itemOf, if_pos hinside.2]
      rw [hitem]
      simp only [bind, Except.bind, hlist'.readItem hinside.2, Except.map]
      refine ⟨_, rfl, h.set_read handle hlist', ?_⟩
      rw [if_neg hinside.1, List.getElem?_eq_getElem hinside.2, Option.map_some]
    · have hitem : (if which < 0 then none else itemOf (a.strs handle) which.toNat) = none := by
        by_cases hneg : which < 0
        · rw [if_pos hneg]
        · rw [if_neg hneg, itemOf, if_neg fun hlt ↦ hinside ⟨hneg, hlt⟩]
      have hanswer : (if which < 0 then none else (a.strs handle)[which.toNat]?) = none := by
        by_cases hneg : which < 0
        · rw [if_pos hneg]
        · rw [if_neg hneg, List.getElem?_eq_none]
          exact not_lt.mp fun hlt ↦ hinside ⟨hneg, hlt⟩
      rw [hitem, hanswer]
      exact ⟨_, rfl, h.set_read handle hlist', rfl⟩

theorem step (h : RepresentsLists s a) {call : ListCall} (hcond : CallCondition s a call) :
    ∃ s', stepCall s call = .ok s' ∧ RepresentsLists s' (specCall s a call) := by
  cases call with
  | alloc => exact ⟨_, rfl, List.rel_append h.lists (.cons .alloc .nil), h.answer⟩
  | append handle item =>
    obtain ⟨hpointer, happend⟩ := hcond
    obtain ⟨list, hlist⟩ := Option.ne_none_iff_exists'.mp hpointer
    obtain ⟨list', hadd, hlist'⟩ := (h.holds hlist).append happend
    refine ⟨{ s with lists := s.lists.set handle (some list') }, ?_, h.set handle hlist', h.answer⟩
    simp only [stepCall, hlist, deref, hadd, bind, Except.bind]
  | dup handle =>
    rw [stepCall, specCall]
    rcases hpointer : s.pointer handle with _ | list
    · have hshows := h.shows_pointer handle
      rw [hpointer] at hshows
      exact ⟨_, rfl, List.rel_append h.lists (.cons hshows .nil), h.answer⟩
    · obtain ⟨copy, list', hdup, hlist', hcopy⟩ := (h.holds hpointer).dup
      refine ⟨s.made handle (copy, list'), by simp only [hdup, Except.map], h.made handle hlist' ?_⟩
      rcases hcopy with ⟨rfl, hnil⟩ | ⟨dlist, rfl, hdlist⟩
      · exact hnil
      · exact hdlist
  | nth handle which => exact h.nth hcond
  | subList handle start number =>
    rw [stepCall, specCall]
    rcases hpointer : s.pointer handle with _ | list
    · have hnil : a.strs handle = [] := by
        have hshows := h.shows_pointer handle
        rwa [hpointer] at hshows
      have hshows : Shows none (subStrs (a.strs handle) start number) := by
        rw [hnil, subStrs_nil]
        rfl
      exact ⟨_, rfl, List.rel_append h.lists (.cons hshows .nil), h.answer⟩
    · obtain ⟨part, list', hsub, hlist', hpart⟩ := (h.holds hpointer).subList hcond
      refine ⟨s.made handle (part, list'), by simp only [hsub, Except.map], h.made handle hlist' ?_⟩
      rcases hpart with ⟨rfl, hnil⟩ | ⟨dlist, rfl, hdlist⟩
      · rw [hnil, subStrs_nil]
        rfl
      · exact hdlist

end RepresentsLists

/-- Every operation gives what it gives on lists of strings, and none leaves a block, in every run whose
operations all meet the condition. -/
theorem lists_throughout (calls : List ListCall)
    (hcond : Along stepCall specCall CallCondition .start .start calls) :
    Throughout stepCall specCall RepresentsLists (fun _ _ _ ↦ True) .start .start calls := by
  apply throughout_of_along (fun _ ↦ True) _ trivial _ hcond
  · intro s a call _ h hmet
    obtain ⟨s', hstep, h'⟩ := h.step hmet
    exact ⟨s', hstep, trivial, trivial, h'⟩
  · exact ⟨.nil, rfl⟩

/-- A string of one character. -/
def letter : CString := ⟨['a'], by decide⟩

/-- A list of two strings, its copy, a part of the copy, and the second string. -/
theorem lists_throughout_letter : Throughout stepCall specCall RepresentsLists (fun _ _ _ ↦ True)
    .start .start
      [.alloc, .append 0 letter, .append 0 letter, .dup 0, .subList 1 1 1, .nth 0 1] := by
  apply lists_throughout
  refine ⟨trivial, fun s hs ↦ ?_⟩
  cases hs
  refine ⟨⟨by simp [ListStore.pointer, ListStore.start], by decide⟩, fun s hs ↦ ?_⟩
  obtain ⟨list, -, hs⟩ := bind_eq_ok.mp hs
  obtain ⟨list', -, hs⟩ := bind_eq_ok.mp hs
  cases hs
  refine ⟨⟨by simp [ListStore.pointer, ListStore.start], by decide⟩, fun s hs ↦ ⟨trivial, fun s hs ↦ ?_⟩⟩
  have hpart : SubListFits [letter, letter] 1 1 :=
    .inr ⟨by decide, by decide, by decide, @Fits.concat [] letter fits_nil (by decide)⟩
  have hwhich : (1 : ℤ) ≠ [letter, letter].length := by decide
  exact ⟨.inr hpart, fun s hs ↦ ⟨.inl hwhich, fun _ _ ↦ trivial⟩⟩

/-- The index behind the last string gives the first one. -/
theorem not_lists_throughout_nth : ¬Throughout stepCall specCall RepresentsLists (fun _ _ _ ↦ True)
    .start .start [.alloc, .append 0 letter, .nth 0 1] := by
  rintro ⟨-, s₁, h₁, -, -, s₂, h₂, -, -, s₃, h₃, -, h⟩
  have hrun : (run stepCall .start [.alloc, .append 0 letter, .nth 0 1]).map ListStore.answer =
      .ok (some ['a']) := by decide +kernel
  rw [run_cons_of_ok h₁, run_cons_of_ok h₂, run_cons_of_ok h₃, run_nil] at hrun
  have hanswer : s₃.answer = some ['a'] := Except.ok.inj hrun
  rw [h.answer] at hanswer
  cases hanswer

end Cheshire.Lists
