import Cheshire.Utils.FlatRecord

/-!
# The element table of a flat record

`Store_elements` numbers the elements in document order and fills the table as it goes, so when it
looks for an element's parent the table holds exactly the elements up to this one.  The attributes
of an element follow those of its children and of its later siblings.

Writing behind the table succeeds exactly as long as the block has room, which `Guarded` says of
every routine at once: it returns, with what is said about its result, or it runs out of the block.
-/

namespace Cheshire.Utils

open Cheshire.Lib Function

/-- A run that returns exactly if `fits`, and then with `post`. -/
def Guarded {α : Type} (fits : Prop) (run : Exec α) (post : α → Prop) : Prop :=
  (fits ∧ ∃ value, run = .ok value ∧ post value) ∨ (¬ fits ∧ run = .error .outOfBounds)

namespace Guarded

variable {α β : Type} {fits fits' : Prop} {run : Exec α} {post : α → Prop}

theorem pure {value : α} (hfits : fits) (hpost : post value) :
    Guarded fits (.ok value) post :=
  Or.inl ⟨hfits, value, rfl, hpost⟩

theorem of_ok (h : Guarded fits run post) {value : α} (hrun : run = .ok value) :
    fits ∧ post value := by
  rcases h with ⟨hfits, other, hok, hpost⟩ | ⟨-, herror⟩
  · rw [hrun] at hok
    rw [Except.ok.inj hok]
    exact ⟨hfits, hpost⟩
  · rw [hrun] at herror
    cases herror

theorem exists_ok (h : Guarded fits run post) (hfits : fits) : ∃ value, run = .ok value ∧ post value := by
  rcases h with ⟨-, hvalue⟩ | ⟨hnot, -⟩
  · exact hvalue
  · exact absurd hfits hnot

theorem bind {next : α → Exec β} {post' : β → Prop} (hfirst : Guarded fits run post)
    (hroom : fits' → fits) (hnext : ∀ value, fits → post value → Guarded fits' (next value) post') :
    Guarded fits' (run >>= next) post' := by
  rcases hfirst with ⟨hfits, value, hrun, hpost⟩ | ⟨hnot, hrun⟩
  · rw [hrun]
    exact hnext value hfits hpost
  · rw [hrun]
    exact Or.inr ⟨fun hfits ↦ hnot (hroom hfits), rfl⟩

theorem imp {post' : α → Prop} (h : Guarded fits run post) (hfits : fits ↔ fits')
    (hpost : ∀ value, post value → post' value) : Guarded fits' run post' := by
  rcases h with ⟨hyes, value, hrun, hvalue⟩ | ⟨hno, hrun⟩
  · exact Or.inl ⟨hfits.mp hyes, value, hrun, hpost value hvalue⟩
  · exact Or.inr ⟨fun h ↦ hno (hfits.mpr h), hrun⟩

end Guarded

theorem write_spec {room : ℕ} {record : OutputRecord} {out : List Char}
    (hholds : Buffer.Holds nul room record.area out) (text : List Char) :
    Guarded (out.length + text.length ≤ room) (record.write out.length text) fun record' ↦
      ∃ area, record' = { record with area } ∧ Buffer.Holds nul room area (out ++ text) := by
  unfold OutputRecord.write
  by_cases hfits : out.length + text.length ≤ room
  · obtain ⟨area, hstore, harea⟩ := hholds.storeAll hfits
    rw [hstore]
    exact Guarded.pure hfits ⟨area, rfl, harea⟩
  · rcases hstore : Buffer.storeAll? record.area out.length text with _ | area
    · exact Or.inr ⟨hfits, rfl⟩
    · exact absurd (hholds.of_storeAll hstore).1 hfits

theorem findParent_some (sdata : ℕ → SdataInfo) (parent : ℕ)
    (hdata : ∀ i, (sdata i).contentStartOffset ≠ 0 → (sdata i).data = some i) (left i found : ℕ) :
    findParent sdata (some parent) left i found =
      if i ≤ parent ∧ parent < i + left ∧
          ∀ j, i ≤ j → j ≤ parent → (sdata j).contentStartOffset ≠ 0 then parent
      else found := by
  induction left generalizing i found with
  | zero =>
    unfold findParent
    rw [if_neg]
    omega
  | succ left ih =>
    unfold findParent
    by_cases hzero : (sdata i).contentStartOffset = 0
    · rw [if_pos hzero, if_neg]
      rintro ⟨hle, -, hall⟩
      exact hall i le_rfl hle hzero
    rw [if_neg hzero, ih, hdata i hzero]
    by_cases heq : i = parent
    · subst heq
      rw [if_neg (by omega), if_pos (by simp), if_pos]
      refine ⟨le_rfl, by omega, fun j hij hji ↦ ?_⟩
      rw [show j = i by omega]
      exact hzero
    · rw [if_neg (c := (some i ≠ none ∧ some i = some parent)) (by simp [heq])]
      refine if_congr ?_ rfl rfl
      constructor
      · rintro ⟨hle, hlt, hall⟩
        refine ⟨by omega, by omega, fun j hij hj ↦ ?_⟩
        rcases Nat.eq_or_lt_of_le hij with rfl | hlt
        · exact hzero
        · exact hall j hlt hj
      · rintro ⟨hle, hlt, hall⟩
        exact ⟨by omega, by omega, fun j hij hj ↦ hall j (by omega) hj⟩

theorem findParent_none (sdata : ℕ → SdataInfo) (left i found : ℕ) :
    findParent sdata none left i found = found := by
  induction left generalizing i with
  | zero => rfl
  | succ left ih =>
    unfold findParent
    have hnot : ¬ ((sdata i).data ≠ none ∧ (sdata i).data = none) := fun h ↦ h.1 h.2
    rw [if_neg hnot, ih, ite_self]

/-- The stored attributes of one element. -/
def attributesText (attributes : List SgmlAttributeData) : List Char :=
  attributes.flatMap fun attr ↦ (attributeText attr).stored

theorem attributesText_cons (attr : SgmlAttributeData) (attributes : List SgmlAttributeData) :
    attributesText (attr :: attributes) = (attributeText attr).stored ++ attributesText attributes :=
  List.flatMap_cons

/-- The table entry of an element once `attributes` have been stored from position `start` on. -/
def SdataInfo.withAttributes (entry : SdataInfo) (attributes : List SgmlAttributeData)
    (start : ℕ) : SdataInfo :=
  { entry with
    nAttr := entry.nAttr + attributes.length
    attrStartOffset :=
      if entry.attrStartOffset = 0 ∧ attributes ≠ [] then start else entry.attrStartOffset }

theorem SdataInfo.withAttributes_cons (entry : SdataInfo) (attr : SgmlAttributeData)
    (attributes : List SgmlAttributeData) {start : ℕ} (hstart : start ≠ 0) (next : ℕ) :
    (entry.withAttributes [attr] start).withAttributes attributes next =
      entry.withAttributes (attr :: attributes) start := by
  by_cases hfirst : entry.attrStartOffset = 0
  · simp [withAttributes, hfirst, hstart]
    omega
  · simp [withAttributes, hfirst]
    omega

theorem OutputRecord.headerSize_ne_zero (record : OutputRecord) (offset : ℕ) :
    record.headerSize + offset ≠ 0 := by
  simp [OutputRecord.headerSize, sizeofOutputRecord]

theorem storeAttributes_spec {room current : ℕ} (attributes : List SgmlAttributeData)
    {record : OutputRecord} {out : List Char} (hholds : Buffer.Holds nul room record.area out)
    (hend : record.buffersize + 1 + record.attrSize = out.length) :
    Guarded (out.length + (attributesText attributes).length ≤ room)
      (storeAttributes current attributes record) fun record' ↦
      ∃ area, Buffer.Holds nul room area (out ++ attributesText attributes) ∧
        record' = { record with
          sdata := update record.sdata current
            ((record.sdata current).withAttributes attributes (record.headerSize + out.length))
          attrSize := record.attrSize + (attributesText attributes).length
          area } := by
  induction attributes generalizing record out with
  | nil =>
    refine Guarded.pure (by simpa [attributesText] using hholds.length_le) ⟨record.area, ?_, ?_⟩
    · simpa [attributesText] using hholds
    · simp [SdataInfo.withAttributes, attributesText]
  | cons attr attributes ih =>
    let stored := record.modify current
      (·.withAttributes [attr] (record.headerSize + out.length))
    have hlength : (attributesText (attr :: attributes)).length =
        (attributeText attr).length + 1 + (attributesText attributes).length := by
      rw [attributesText_cons, List.length_append, CString.length_stored]
    have hrun : storeAttributes current (attr :: attributes) record =
        (stored.write out.length (attributeText attr).stored >>= fun written ↦
          storeAttributes current attributes
            { written with attrSize := written.attrSize + (attributeText attr).length + 1 }) := by
      rw [storeAttributes]
      simp [hend, stored, SdataInfo.withAttributes]
    rw [hrun]
    have hwrite := @write_spec _ stored _ hholds (attributeText attr).stored
    refine hwrite.bind (fun hfits ↦ ?_) ?_
    · rw [hlength] at hfits
      rw [CString.length_stored]
      omega
    rintro _ - ⟨area, rfl, harea⟩
    have hend' : stored.buffersize + 1 + (stored.attrSize + (attributeText attr).length + 1) =
        (out ++ (attributeText attr).stored).length := by
      rw [List.length_append, CString.length_stored, ← hend]
      simp only [stored, OutputRecord.modify]
      omega
    have hrest := @ih
      { stored with area, attrSize := stored.attrSize + (attributeText attr).length + 1 } _
      harea hend'
    refine hrest.imp ?_ ?_
    · rw [List.length_append, CString.length_stored, hlength]
      omega
    rintro _ ⟨area', harea', rfl⟩
    refine ⟨area', ?_, ?_⟩
    · rw [attributesText_cons, ← List.append_assoc]
      exact harea'
    · have hentry := SdataInfo.withAttributes_cons (record.sdata current) attr attributes
        (record.headerSize_ne_zero out.length)
        (record.headerSize + (out ++ (attributeText attr).stored).length)
      simp only [stored, OutputRecord.modify, OutputRecord.headerSize, update_self,
        update_idem, OutputRecord.mk.injEq, true_and, and_true, hlength] at hentry ⊢
      rw [hentry]
      exact ⟨by omega, rfl⟩

def SgmlTree.nodes : SgmlTree → List SgmlData
  | .null => []
  | .element dat sub next => dat :: (sub.nodes ++ next.nodes)

theorem countElements_eq (tree : SgmlTree) : countElements tree = tree.nodes.length := by
  induction tree with
  | null => rfl
  | element dat sub next ihSub ihNext =>
    simp only [countElements, SgmlTree.nodes, List.length_cons, List.length_append, ihSub, ihNext]

theorem SgmlTree.nodes_eq_nil {tree : SgmlTree} : tree.nodes = [] ↔ tree = .null := by
  cases tree with
  | null => simp [nodes]
  | element dat sub next => simp [nodes]

/-- The stored attributes of all elements. -/
def SgmlTree.attributesText : SgmlTree → List Char
  | .null => []
  | .element dat sub next =>
    sub.attributesText ++ next.attributesText ++ Utils.attributesText dat.attributes

/-- Where the content of the element at a place starts, for the elements `all` of a document. -/
def contentStart (all : List SgmlData) (i : ℕ) : ℤ :=
  (all[i]?.map SgmlData.contentStartOffset).getD 0

/-- The parent that the table records for the element at place `i`. -/
def recordedParent (all : List SgmlData) (i : ℕ) : Option ℕ → ℕ
  | none => 0
  | some parent => if parent ≤ i ∧ ∀ j ≤ parent, contentStart all j ≠ 0 then parent else 0

/-- The first entries of the table are filled, the others are still zeroed. -/
def Filled (all : List SgmlData) (sdata : ℕ → SdataInfo) (filled : ℕ) : Prop :=
  (∀ i < filled, (sdata i).contentStartOffset = contentStart all i ∧ (sdata i).data = some i) ∧
    ∀ i, filled ≤ i → sdata i = {}

/-- What the table says about one element. -/
structure EntryOf (all : List SgmlData) (headerSize : ℕ) (written : List Char) (info : SdataInfo)
    (dat : SgmlData) (i : ℕ) : Prop where
  startTagOffset : info.startTagOffset = dat.startTagOffset
  contentStartOffset : info.contentStartOffset = dat.contentStartOffset
  contentEndOffset : info.contentEndOffset = dat.contentEndOffset
  endTagOffset : info.endTagOffset = dat.endTagOffset
  dataEndOffset : info.dataEndOffset = dat.dataEndOffset
  processingFlags : info.processingFlags = dat.processingFlags
  dataElementId : info.dataElementId = dat.dataElementId
  occurrenceNo : info.occurrenceNo = dat.occurrenceNo
  data : info.data = some i
  parent : 0 < i → info.parent = recordedParent all i dat.parent
  nAttr : info.nAttr = dat.attributes.length
  attributes : dat.attributes ≠ [] → ∃ before after,
    written = before ++ attributesText dat.attributes ++ after ∧
      info.attrStartOffset = headerSize + before.length

/-- What the table says about the elements of a tree whose first one has place `b`. -/
def Described (all : List SgmlData) (headerSize : ℕ) (written : List Char)
    (sdata : ℕ → SdataInfo) : SgmlTree → ℕ → Prop
  | .null, _ => True
  | .element dat sub next, b =>
    EntryOf all headerSize written (sdata b) dat b ∧
      (sdata b).subdata = (if sub = .null then 0 else b + 1) ∧
      (sdata b).nextdata = (if next = .null then 0 else b + 1 + sub.nodes.length) ∧
      Described all headerSize written sdata sub (b + 1) ∧
      Described all headerSize written sdata next (b + 1 + sub.nodes.length)

variable {all : List SgmlData} {dat : SgmlData}

theorem EntryOf.append {headerSize : ℕ} {written : List Char} {info : SdataInfo} {i : ℕ}
    (h : EntryOf all headerSize written info dat i)
    (more : List Char) : EntryOf all headerSize (written ++ more) info dat i :=
  { h with
    attributes := fun hne ↦ by
      obtain ⟨before, after, hwritten, hstart⟩ := h.attributes hne
      exact ⟨before, after ++ more, by rw [hwritten]; simp, hstart⟩ }

theorem Described.frame {all : List SgmlData} {headerSize : ℕ} {written more : List Char}
    {sdata sdata' : ℕ → SdataInfo} {tree : SgmlTree} {b : ℕ}
    (h : Described all headerSize written sdata tree b)
    (hsame : ∀ i, b ≤ i → i < b + tree.nodes.length → sdata' i = sdata i) :
    Described all headerSize (written ++ more) sdata' tree b := by
  induction tree generalizing b with
  | null => trivial
  | element dat sub next ihSub ihNext =>
    obtain ⟨hentry, hsubdata, hnextdata, hsub, hnext⟩ := h
    simp only [SgmlTree.nodes, List.length_cons, List.length_append] at hsame
    have hb : sdata' b = sdata b := hsame b le_rfl (by omega)
    refine ⟨?_, ?_, ?_, ?_, ?_⟩
    · rw [hb]
      exact hentry.append more
    · rw [hb, hsubdata]
    · rw [hb, hnextdata]
    · exact ihSub hsub fun i hle hlt ↦ hsame i (by omega) (by omega)
    · exact ihNext hnext fun i hle hlt ↦ hsame i (by omega) (by omega)

/-- The links of an entry whose element has `count` elements below it. -/
def SdataInfo.link (entry : SdataInfo) (current count : ℕ) (next : SgmlTree) : SdataInfo :=
  { entry with
    subdata := if count = 0 then entry.subdata else current + 1
    nextdata := if next = .null then entry.nextdata else current + count + 1 }

theorem storeElements_element (dat : SgmlData) (sub next : SgmlTree) (current : ℕ)
    (record : OutputRecord) :
    storeElements (.element dat sub next) current record = (do
      let (count, elementNum, record) ←
        storeElements sub (current + 1) (enterElement dat current record)
      let (more, elementNum, record) ←
        storeElements next elementNum (record.modify current (·.link current count next))
      let record ← storeAttributes current dat.attributes record
      pure (count + more + 1, elementNum, record)) := by
  rw [storeElements]
  rcases storeElements sub (current + 1) (enterElement dat current record) with
    fault | ⟨count, elementNum, record'⟩
  · rfl
  · by_cases hcount : count = 0 <;> by_cases hnext : next = .null
    · subst hcount hnext
      simp [bind, Except.bind, storeElements, pure, Except.pure, SdataInfo.link,
        OutputRecord.modify]
    · subst hcount
      simp [bind, Except.bind, pure, Except.pure, hnext, SdataInfo.link]
    · subst hnext
      simp [bind, Except.bind, storeElements, pure, Except.pure, hcount, SdataInfo.link]
    · simp [bind, Except.bind, pure, Except.pure, hnext, hcount, SdataInfo.link,
        OutputRecord.modify]

/-- A fresh entry for an element. -/
def enteredInfo (all : List SgmlData) (dat : SgmlData) (current : ℕ) : SdataInfo :=
  { startTagOffset := dat.startTagOffset
    contentStartOffset := dat.contentStartOffset
    contentEndOffset := dat.contentEndOffset
    endTagOffset := dat.endTagOffset
    dataEndOffset := dat.dataEndOffset
    processingFlags := dat.processingFlags
    dataElementId := dat.dataElementId
    occurrenceNo := dat.occurrenceNo
    parent := if 0 < current then recordedParent all current dat.parent else 0
    data := some current }

theorem contentStart_of_getElem {i : ℕ}
    (hdat : all[i]? = some dat) : contentStart all i = dat.contentStartOffset := by
  simp [contentStart, hdat]

variable {sdata : ℕ → SdataInfo} {current : ℕ}

theorem Filled.update (h : Filled all sdata current) {info : SdataInfo}
    (hstart : info.contentStartOffset = contentStart all current)
    (hdata : info.data = some current) :
    Filled all (update sdata current info) (current + 1) := by
  refine ⟨fun i hi ↦ ?_, fun i hi ↦ ?_⟩
  · rcases Nat.lt_succ_iff_lt_or_eq.mp hi with hlt | rfl
    · rw [update_of_ne (by omega)]
      exact h.1 i hlt
    · rw [update_self]
      exact ⟨hstart, hdata⟩
  · rw [update_of_ne (by omega)]
    exact h.2 i (by omega)

theorem Filled.findParent_eq {n : ℕ} (h : Filled all sdata (current + 1)) (hn : current < n)
    (parent : Option ℕ) : findParent sdata parent n 0 0 = recordedParent all current parent := by
  rcases parent with _ | parent
  · exact findParent_none sdata n 0 0
  have hbeyond : ∀ i, current < i → (sdata i).contentStartOffset = 0 := by
    intro i hi
    rw [h.2 i hi]
  have hdata : ∀ i, (sdata i).contentStartOffset ≠ 0 → (sdata i).data = some i := by
    intro i hne
    by_cases hi : i < current + 1
    · exact (h.1 i hi).2
    · exact absurd (hbeyond i (by omega)) hne
  rw [findParent_some sdata parent hdata]
  refine if_congr ?_ rfl rfl
  constructor
  · rintro ⟨-, -, hall⟩
    have hle : parent ≤ current := by
      by_contra hgt
      exact hall parent (by omega) le_rfl (hbeyond parent (by omega))
    refine ⟨hle, fun j hj ↦ ?_⟩
    rw [← (h.1 j (by omega)).1]
    exact hall j (by omega) hj
  · rintro ⟨hle, hall⟩
    refine ⟨by omega, by omega, fun j _ hj ↦ ?_⟩
    rw [(h.1 j (by omega)).1]
    exact hall j hj

theorem enterElement_eq {record : OutputRecord} (hfilled : Filled all record.sdata current)
    (hdat : all[current]? = some dat) (hn : current < record.nSgmlData) :
    enterElement dat current record =
      { record with sdata := update record.sdata current (enteredInfo all dat current) } := by
  have hempty : record.sdata current = {} := hfilled.2 current le_rfl
  have hstart := contentStart_of_getElem hdat
  by_cases hpos : 0 < current
  · have hscan : ∀ info : SdataInfo, info.contentStartOffset = dat.contentStartOffset →
        info.data = some current →
        findParent (update record.sdata current info) dat.parent record.nSgmlData 0 0 =
          recordedParent all current dat.parent := fun info hinfo hdata ↦
      (hfilled.update (hinfo.trans hstart.symm) hdata).findParent_eq hn dat.parent
    unfold enterElement
    rw [if_pos hpos]
    simp only [OutputRecord.modify, update_self, update_idem, hempty]
    rw [hscan _ rfl rfl]
    simp [enteredInfo, hpos]
  · unfold enterElement
    rw [if_neg hpos]
    simp only [OutputRecord.modify, hempty]
    simp [enteredInfo, hpos]

theorem Filled.congr {sdata' : ℕ → SdataInfo} {filled : ℕ} (h : Filled all sdata filled)
    (hkey : ∀ i < filled, (sdata' i).contentStartOffset = (sdata i).contentStartOffset ∧
      (sdata' i).data = (sdata i).data)
    (hrest : ∀ i, filled ≤ i → sdata' i = sdata i) : Filled all sdata' filled := by
  refine ⟨fun i hi ↦ ?_, fun i hi ↦ ?_⟩
  · rw [(hkey i hi).1, (hkey i hi).2]
    exact h.1 i hi
  · rw [hrest i hi]
    exact h.2 i hi

theorem Filled.of_entry {sdata' : ℕ → SdataInfo} {filled b : ℕ} (h : Filled all sdata filled)
    (hb : b < filled) (hother : ∀ i, i ≠ b → sdata' i = sdata i)
    (hstart : (sdata' b).contentStartOffset = (sdata b).contentStartOffset)
    (hdata : (sdata' b).data = (sdata b).data) : Filled all sdata' filled := by
  refine h.congr (fun i _ ↦ ?_) fun i hi ↦ hother i (by omega)
  by_cases hi : i = b
  · subst hi
    exact ⟨hstart, hdata⟩
  · rw [hother i hi]
    exact ⟨rfl, rfl⟩

theorem entryOf_finished (all : List SgmlData) (headerSize : ℕ) (before : List Char) (dat : SgmlData)
    (b count : ℕ) (next : SgmlTree) :
    EntryOf all headerSize (before ++ attributesText dat.attributes)
      (((enteredInfo all dat b).link b count next).withAttributes dat.attributes
        (headerSize + before.length)) dat b where
  startTagOffset := rfl
  contentStartOffset := rfl
  contentEndOffset := rfl
  endTagOffset := rfl
  dataEndOffset := rfl
  processingFlags := rfl
  dataElementId := rfl
  occurrenceNo := rfl
  data := rfl
  parent hpos := by
    simp [SdataInfo.withAttributes, SdataInfo.link, enteredInfo, hpos]
  nAttr := by simp [SdataInfo.withAttributes, SdataInfo.link, enteredInfo]
  attributes hne :=
    ⟨before, [], by simp, by simp [SdataInfo.withAttributes, SdataInfo.link, enteredInfo, hne]⟩

theorem SgmlTree.nodes_getElem?_sub (dat : SgmlData) {sub : SgmlTree} (next : SgmlTree) {k : ℕ}
    (hk : k < sub.nodes.length) : (SgmlTree.element dat sub next).nodes[k + 1]? = sub.nodes[k]? := by
  rw [SgmlTree.nodes, List.getElem?_cons_succ, List.getElem?_append_left hk]

theorem SgmlTree.nodes_getElem?_next (dat : SgmlData) (sub next : SgmlTree) (k : ℕ) :
    (SgmlTree.element dat sub next).nodes[sub.nodes.length + k + 1]? = next.nodes[k]? := by
  rw [SgmlTree.nodes, List.getElem?_cons_succ, List.getElem?_append_right (Nat.le_add_right _ _),
    Nat.add_sub_cancel_left]

/-- What `Store_elements` returns for a tree whose first element has place `b`, in a block that
held `out` before. -/
structure StoredTree (all : List SgmlData) (room : ℕ) (record : OutputRecord) (out : List Char)
    (tree : SgmlTree) (b : ℕ) (result : ℕ × ℕ × OutputRecord) : Prop where
  count : result.1 = tree.nodes.length
  next : result.2.1 = b + tree.nodes.length
  header : result.2.2 = { record with
    sdata := result.2.2.sdata
    attrSize := record.attrSize + tree.attributesText.length
    area := result.2.2.area }
  holds : Buffer.Holds nul room result.2.2.area (out ++ tree.attributesText)
  frame : ∀ i < b, result.2.2.sdata i = record.sdata i
  filled : Filled all result.2.2.sdata (b + tree.nodes.length)
  described : Described all record.headerSize (out ++ tree.attributesText) result.2.2.sdata tree b

theorem storeElements_spec {all : List SgmlData} {room : ℕ} (tree : SgmlTree) {b : ℕ}
    {record : OutputRecord} {out : List Char} (hholds : Buffer.Holds nul room record.area out)
    (hend : record.buffersize + 1 + record.attrSize = out.length)
    (hfilled : Filled all record.sdata b)
    (hall : ∀ k < tree.nodes.length, all[b + k]? = tree.nodes[k]?)
    (hn : b + tree.nodes.length ≤ record.nSgmlData) :
    Guarded (out.length + tree.attributesText.length ≤ room) (storeElements tree b record)
      (StoredTree all room record out tree b) := by
  induction tree generalizing b record out with
  | null =>
    refine Guarded.pure (by simpa [SgmlTree.attributesText] using hholds.length_le) ?_
    exact
      { count := rfl
        next := rfl
        header := by simp [SgmlTree.attributesText]
        holds := by simpa [SgmlTree.attributesText] using hholds
        frame := fun _ _ ↦ rfl
        filled := by simpa [SgmlTree.nodes] using hfilled
        described := trivial }
  | element dat sub next ihSub ihNext =>
    have hnodes : (SgmlTree.element dat sub next).nodes.length =
        sub.nodes.length + next.nodes.length + 1 := by
      simp [SgmlTree.nodes]
    have htext : (SgmlTree.element dat sub next).attributesText.length =
        sub.attributesText.length + next.attributesText.length +
          (attributesText dat.attributes).length := by
      simp [SgmlTree.attributesText, Nat.add_assoc]
    rw [hnodes] at hall hn
    have hdat : all[b]? = some dat := by simpa [SgmlTree.nodes] using hall 0 (by omega)
    have hstart := contentStart_of_getElem hdat
    rw [storeElements_element, enterElement_eq hfilled hdat (by omega)]
    -- the children
    have hsub := @ihSub (b + 1)
      { record with
        sdata := update record.sdata b (enteredInfo all dat b) } _
      hholds hend (hfilled.update hstart.symm rfl)
      (fun k hk ↦ by
        have h := hall (k + 1) (by omega)
        rw [show b + (k + 1) = b + 1 + k by omega] at h
        rw [h, SgmlTree.nodes_getElem?_sub dat next hk])
      (by simp only; omega)
    refine hsub.bind (fun hfits ↦ by rw [htext] at hfits; omega) ?_
    rintro ⟨count, elementNum, record₁⟩ - h₁
    obtain ⟨hcount, hnum, hheader₁, hholds₁, hframe₁, hfilled₁, hdescribed₁⟩ := h₁
    simp only at hcount hnum hheader₁ hholds₁ hframe₁ hfilled₁ hdescribed₁
    subst hcount hnum
    have hentry₁ : record₁.sdata b = enteredInfo all dat b := by
      rw [hframe₁ b (by omega)]
      exact update_self ..
    -- the later siblings
    have hnext := @ihNext (b + 1 + sub.nodes.length)
      (record₁.modify b (·.link b sub.nodes.length next)) _ hholds₁
      (by
        rw [hheader₁]
        simp only [OutputRecord.modify, List.length_append]
        omega)
      (hfilled₁.of_entry (b := b) (by omega)
        (fun i hi ↦ by simp [OutputRecord.modify, update_of_ne hi])
        (by simp [OutputRecord.modify, SdataInfo.link]) (by simp [OutputRecord.modify, SdataInfo.link]))
      (fun k hk ↦ by
        have h := hall (sub.nodes.length + k + 1) (by omega)
        rw [show b + (sub.nodes.length + k + 1) = b + 1 + sub.nodes.length + k by omega] at h
        rw [h, SgmlTree.nodes_getElem?_next])
      (by
        rw [hheader₁]
        simp only [OutputRecord.modify]
        omega)
    refine hnext.bind (fun hfits ↦ by rw [htext] at hfits; rw [List.length_append]; omega) ?_
    rintro ⟨more, elementNum, record₂⟩ - h₂
    obtain ⟨hmore, hnum, hheader₂, hholds₂, hframe₂, hfilled₂, hdescribed₂⟩ := h₂
    simp only at hmore hnum hheader₂ hholds₂ hframe₂ hfilled₂ hdescribed₂
    subst hmore hnum
    have hentry₂ : record₂.sdata b = (enteredInfo all dat b).link b sub.nodes.length next := by
      rw [hframe₂ b (by omega)]
      simp [OutputRecord.modify, hentry₁]
    -- the element's own attributes
    have hlast := @storeAttributes_spec _ b dat.attributes _ _ hholds₂ (by
      rw [hheader₂, hheader₁]
      simp only [OutputRecord.modify, List.length_append]
      omega)
    refine hlast.bind (fun hfits ↦ by rw [htext] at hfits; simp only [List.length_append]; omega) ?_
    rintro _ - ⟨area, hholds₃, rfl⟩
    have hheaderSize : record₂.headerSize = record.headerSize := by
      rw [hheader₂, hheader₁]
      rfl
    have hout : out ++ (SgmlTree.element dat sub next).attributesText =
        out ++ sub.attributesText ++ next.attributesText ++ attributesText dat.attributes := by
      simp [SgmlTree.attributesText]
    generalize hsdata₃ : update record₂.sdata b _ = sdata₃
    have hsame : ∀ i, i ≠ b → sdata₃ i = record₂.sdata i := by
      intro i hi
      rw [← hsdata₃]
      exact update_of_ne hi ..
    have hself : sdata₃ b = ((enteredInfo all dat b).link b sub.nodes.length next).withAttributes
        dat.attributes (record.headerSize +
          (out ++ sub.attributesText ++ next.attributesText).length) := by
      rw [← hsdata₃, update_self, hentry₂, hheaderSize]
    refine Guarded.pure ?_ ?_
    · rw [htext]
      have := hholds₃.length_le
      simp only [List.length_append] at this
      omega
    exact
      { count := by rw [hnodes]
        next := by simp only; omega
        header := by
          rw [hheader₂, hheader₁, htext]
          simp only [OutputRecord.modify, OutputRecord.mk.injEq, true_and, and_true]
          omega
        holds := by
          rw [hout]
          exact hholds₃
        frame := fun i hi ↦ by
          simp only
          rw [hsame i (by omega), hframe₂ i (by omega)]
          simp only [OutputRecord.modify, update_of_ne (show i ≠ b by omega)]
          rw [hframe₁ i (by omega), update_of_ne (by omega)]
        filled := by
          rw [hnodes, show b + (sub.nodes.length + next.nodes.length + 1) =
            b + 1 + sub.nodes.length + next.nodes.length by omega]
          refine hfilled₂.of_entry (b := b) (by omega) hsame ?_ ?_
          · simp only [hself, hentry₂]
            rfl
          · simp only [hself, hentry₂]
            rfl
        described := by
          rw [hout]
          simp only
          refine ⟨?_, ?_, ?_, ?_, ?_⟩
          · rw [hself]
            exact entryOf_finished all _ _ dat b _ next
          · rw [hself]
            simp [SdataInfo.withAttributes, SdataInfo.link, enteredInfo, SgmlTree.nodes_eq_nil]
          · rw [hself]
            simp only [SdataInfo.withAttributes, SdataInfo.link, enteredInfo]
            split
            · rfl
            · omega
          · rw [List.append_assoc (out ++ sub.attributesText)]
            refine hdescribed₁.frame fun i hle hlt ↦ ?_
            rw [hsame i (by omega), hframe₂ i (by omega)]
            simp [OutputRecord.modify, update_of_ne (show i ≠ b by omega)]
          · have hdescribed : Described all record.headerSize
                (out ++ sub.attributesText ++ next.attributesText) record₂.sdata next
                (b + 1 + sub.nodes.length) := by
              have hsize : (record₁.modify b (·.link b sub.nodes.length next)).headerSize =
                  record.headerSize := by
                rw [hheader₁]
                rfl
              rw [← hsize]
              exact hdescribed₂
            exact hdescribed.frame fun i hle hlt ↦ hsame i (by omega) }

end Cheshire.Utils
