import Cheshire.Lib.Buffer
import Cheshire.Lib.CString

/-!
# Lists of strings

An `AC_LIST` packs its strings one behind the other in one block and keeps the offset of each in an
index.  Both blocks grow when an element is appended.  What `realloc` adds to a block has no value until
something is stored there.
-/

namespace Cheshire.Lists

open Lib Lib.Buffer

/-- `AC_LIST`; `idxend` and `bufEnd` are the allocated sizes of the two blocks. -/
structure AcList where
  idxsize : ℕ
  idxend : ℕ
  index : List (Option ℕ)
  size : ℕ
  bufEnd : ℕ
  data : Option (List (Option Char))
  curpos : ℤ
deriving DecidableEq

def acListInit : AcList where
  idxsize := 0
  idxend := 1000
  index := calloc (some 0) 1000
  size := 0
  bufEnd := 0
  data := none
  curpos := 0

def acListAlloc : AcList := acListInit

def realloc {α : Type} (cells : List (Option α)) (count : ℕ) : List (Option α) :=
  cells.take count ++ List.replicate (count - cells.length) none

/-- Stores that stay inside their block. -/
def storeCells {α : Type} (cells : List (Option α)) (place : ℕ) (values : List α) :
    Exec (List (Option α)) :=
  match storeAll? cells place (values.map some) with
  | some cells => .ok cells
  | none => .error .outOfBounds

/-- A cell of a block that has been stored to. -/
def loadCell {α : Type} (cells : List (Option α)) (place : ℕ) : Exec α :=
  match cells[place]? with
  | none => .error .outOfBounds
  | some none => .error .uninitialized
  | some (some value) => .ok value

/-- The data block of `ac_list_append`, with room for `size` more bytes as the code counts it. -/
def growData (list : AcList) (size : ℕ) : Exec AcList :=
  match list.data with
  | none => do
    let bufEnd ← checkInt (2 * size)
    .ok { list with bufEnd := bufEnd.toNat, data := some (calloc (some nul) bufEnd.toNat) }
  | some cells =>
    if (list.bufEnd : ℤ) - list.size ≤ size then do
      let bufEnd ← checkInt (2 * (size + list.bufEnd))
      .ok { list with bufEnd := bufEnd.toNat, data := some (realloc cells bufEnd.toNat) }
    else .ok list

/-- The index of `ac_list_append`, with room for one more entry. -/
def growIndex (list : AcList) : Exec AcList :=
  if list.idxsize ≥ list.idxend then do
    let idxend ← checkInt (2 * list.idxend)
    .ok { list with idxend := idxend.toNat, index := realloc list.index idxend.toNat }
  else .ok list

/-- `ac_list_append`; the string is stored behind the others, and a NUL behind it. -/
def acListAppend (list : AcList) (data : List Char) : Exec AcList := do
  let list ← growData list data.length
  let list ← growIndex list
  let index ← storeCells list.index list.idxsize [list.size]
  let cells ← deref list.data
  let cells ← storeCells cells list.size data
  let cells ← storeCells cells (list.size + data.length) [nul]
  .ok { list with
    index := index
    idxsize := list.idxsize + 1
    data := some cells
    size := list.size + data.length + 1 }

def acListAdd (list : AcList) (data : List Char) : Exec AcList := acListAppend list data

/-- The characters up to the NUL, where a pointer points. -/
def readCells : List (Option Char) → Exec (List Char)
  | [] => .error .outOfBounds
  | none :: _ => .error .uninitialized
  | some c :: cells => if c = nul then .ok [] else (readCells cells).map (c :: ·)

/-- The string at an offset of the data. -/
def readItem (list : AcList) (offset : ℕ) : Exec (List Char) := do
  let cells ← deref list.data
  readCells (cells.drop offset)

/-- `list->data + list->index[list->curpos]`; a null pointer stays null when nothing is added to it. -/
def itemAt (list : AcList) (pos : ℕ) : Exec (Option ℕ) := do
  let offset ← loadCell list.index pos
  match list.data with
  | none => if offset = 0 then .ok none else .error .outOfBounds
  | some _ => .ok (some offset)

def acListFirst (list : AcList) : Exec (Option ℕ × AcList) :=
  if list.idxsize = 0 then .ok (none, list)
  else do
    let list := { list with curpos := 0 }
    .ok (← itemAt list 0, list)

def acListNext (list : AcList) : Exec (Option ℕ × AcList) :=
  let list := { list with curpos := list.curpos + 1 }
  if list.curpos ≥ list.idxsize then .ok (none, list)
  else do .ok (← itemAt list list.curpos.toNat, list)

/-- `ac_list_nth`; the index after the last one passes the test. -/
def acListNth (list : AcList) (which : ℤ) : Exec (Option ℕ × AcList) :=
  if which < 0 ∨ which > list.idxsize then .ok (none, list)
  else do
    let list := { list with curpos := which }
    .ok (← itemAt list which.toNat, list)

/-- The loop of `ac_list_dup`. -/
def dupLoop : ℕ → Option ℕ → AcList → AcList → Exec (AcList × AcList)
  | 0, _, _, _ => .error .unfinished
  | _ + 1, none, slist, dlist => .ok (dlist, slist)
  | fuel + 1, some item, slist, dlist => do
    let dlist ← acListAdd dlist (← readItem slist item)
    let (item, slist) ← acListNext slist
    dupLoop fuel item slist dlist

/-- `ac_list_dup`: the copy, if one is made, and the list that was read. -/
def acListDup (slist : AcList) : Exec (Option AcList × AcList) :=
  if slist.idxsize = 0 then .ok (none, slist)
  else do
    let (item, slist) ← acListFirst slist
    let (dlist, slist) ← dupLoop (slist.idxsize + 1) item slist acListAlloc
    .ok (some dlist, slist)

/-- The loop of `ac_list_sub_list`, which adds the item without a look at it. -/
def subListLoop : ℕ → Option ℕ → AcList → AcList → Exec (AcList × AcList)
  | 0, _, slist, dlist => .ok (dlist, slist)
  | number + 1, item, slist, dlist => do
    let dlist ← acListAdd dlist (← readItem slist (← deref item))
    let (item, slist) ← acListNext slist
    subListLoop number item slist dlist

def acListSubList (slist : AcList) (start number : ℤ) : Exec (Option AcList × AcList) :=
  if slist.idxsize = 0 then .ok (none, slist)
  else do
    let (item, slist) ← acListNth slist start
    let (dlist, slist) ← subListLoop number.toNat item slist acListAlloc
    .ok (some dlist, slist)

/-- How many strings a list has and how large its data is, with the room that both have. -/
structure Extent where
  count : ℕ
  slots : ℕ
  size : ℕ
  cap : ℕ
deriving DecidableEq

namespace Extent

def fresh : Extent := ⟨0, 1000, 0, 0⟩

/-- What the extent becomes by a string of this length. -/
def add (extent : Extent) (length : ℕ) : Extent where
  count := extent.count + 1
  slots := if extent.slots ≤ extent.count then 2 * extent.slots else extent.slots
  size := extent.size + length + 1
  cap :=
    if extent.count = 0 then 2 * length
    else if extent.cap ≤ extent.size + length then 2 * (length + extent.cap) else extent.cap

/-- The string is not the empty one of a list with no data, and the new capacities are `int`s. -/
def Appendable (extent : Extent) (length : ℕ) : Prop :=
  (extent.count = 0 → 0 < length) ∧ (extent.add length).cap ≤ INT_MAX ∧
    (extent.add length).slots ≤ INT_MAX

instance (extent : Extent) (length : ℕ) : Decidable (extent.Appendable length) :=
  inferInstanceAs (Decidable ((extent.count = 0 → 0 < length) ∧ _ ∧ _))

end Extent

/-- The extent of a list with these strings. -/
def extentOf (strs : List CString) : Extent :=
  strs.foldl (fun extent str ↦ extent.add str.length) .fresh

/-- Each string could be appended to the ones before it. -/
def Fits (strs : List CString) : Prop :=
  ∀ before str, before ++ [str] <+: strs → (extentOf before).Appendable str.length

end Cheshire.Lists
