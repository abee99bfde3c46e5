import Cheshire.Utils.FlatRebuild
import Cheshire.Utils.FlatTail

/-!
# Flattening a document and rebuilding it

The block is allocated for twice the text and 500 characters more, but the attributes and the tag
table are stored beside the text, and neither is bounded by it: values supplied by the DTD are no
part of the text, and a tag lists the place of every element that carries it.  Where the record fits,
what comes back is the document with each attribute turned into a string, each parent replaced by
the place the table recorded and each element's processing instructions by one of the document's, and the tag table as long as every tag leads over its own name.
-/

namespace Cheshire.Utils

open Cheshire.Lib

def SgmlDocument.tagsText (doc : SgmlDocument) : List Char :=
  doc.tagHashTab.entries.flatMap (tagEntry doc.data.nodes.length)

def SgmlDocument.nameText (doc : SgmlDocument) : CString := doc.fileName.getD CString.empty

/-- All that stands behind the element table. -/
def SgmlDocument.areaText (doc : SgmlDocument) : List Char :=
  doc.buffer.stored ++ doc.data.attributesText ++ doc.processingInst.flatMap instructionText ++
    doc.tagsText ++ doc.nameText.stored

/-- The block has room for the record: attributes, tags and file name take no more than the text
and 498 characters. -/
def SgmlDocument.HasRoom (doc : SgmlDocument) : Prop :=
  doc.data.attributesText.length + doc.tagsText.length + doc.nameText.length ≤
    doc.buffer.length + 498

/-- What `flatten_sgml_document` makes of a document. -/
structure Flattened (doc : SgmlDocument) (result : OutputRecord × ℕ) : Prop where
  nSgmlData : result.1.nSgmlData = doc.data.nodes.length
  nPi : result.1.nPi = doc.processingInst.length
  attrSize : result.1.attrSize = doc.data.attributesText.length
  varArea : result.1.varArea = doc.processingInst.length * sizeofPiInfo
  hashTagCount : result.1.hashTagCount = doc.tagHashTab.entries.length
  buffersize : result.1.buffersize = doc.buffer.length
  area : result.1.area.take result.2 = doc.areaText
  described : Described doc.data.nodes result.1.headerSize doc.areaText result.1.sdata doc.data 0

theorem length_flatMap_instructionText {instructions : List ProcessingInst}
    (hfits : ∀ pi ∈ instructions, FitsInstruction pi) :
    (instructions.flatMap instructionText).length = instructions.length * sizeofPiInfo := by
  induction instructions with
  | nil => simp
  | cons pi instructions ih =>
    rw [List.flatMap_cons, List.length_append, length_instructionText (hfits pi List.mem_cons_self),
      ih fun other hmem ↦ hfits other (List.mem_cons_of_mem _ hmem), List.length_cons, Nat.succ_mul]
    omega

theorem filled_nil (all : List SgmlData) : Filled all (fun _ ↦ {}) 0 :=
  ⟨fun _ hi ↦ absurd hi (Nat.not_lt_zero _), fun _ _ ↦ rfl⟩

theorem flattenSgmlDocument_spec (doc : SgmlDocument) (docid : ℤ) :
    Guarded ((∀ pi ∈ doc.processingInst, FitsInstruction pi) ∧ doc.HasRoom)
      (flattenSgmlDocument doc docid) (Flattened doc) := by
  set n := doc.data.nodes.length with hn
  set room := doc.processingInst.length * sizeofPiInfo + 2 * doc.buffer.length + 500 with hroom
  unfold SgmlDocument.HasRoom
  unfold flattenSgmlDocument
  simp only [countElements_eq, ← hn, ← hroom]
  -- the text
  have htext := @write_spec _
    { docid
      nSgmlData := n
      nPi := doc.processingInst.length
      attrSize := 0
      varArea := 0
      hashTagCount := 0
      buffersize := doc.buffer.length
      sdata := fun _ ↦ {}
      area := Buffer.calloc nul room } _ (Buffer.holds_calloc nul room) doc.buffer.stored
  refine htext.bind (fun _ ↦ ?_) ?_
  · rw [CString.length_stored, List.length_nil]
    omega
  rintro _ - ⟨area₁, rfl, hholds₁⟩
  rw [List.nil_append] at hholds₁
  -- the elements
  have helements := @storeElements_spec _ _ doc.data 0
    { docid
      nSgmlData := n
      nPi := doc.processingInst.length
      attrSize := 0
      varArea := 0
      hashTagCount := 0
      buffersize := doc.buffer.length
      sdata := fun _ ↦ {}
      area := area₁ } _ hholds₁ (by simp) (filled_nil _) (fun k _ ↦ by rw [Nat.zero_add])
    (by simp [hn])
  refine helements.bind (fun h ↦ ?_) ?_
  · have := h.2
    rw [CString.length_stored]
    omega
  rintro ⟨count, next, record₂⟩ - ⟨-, -, hheader₂, hholds₂, -, hfilled₂, hdescribed₂⟩
  simp only [Nat.zero_add] at hheader₂ hholds₂ hfilled₂ hdescribed₂
  -- the processing instructions
  have hend : doc.buffer.length + 1 + record₂.attrSize =
      (doc.buffer.stored ++ doc.data.attributesText).length := by
    rw [hheader₂]
    simp
  rw [hend]
  refine (storeInstructions_spec doc.processingInst hholds₂).bind (fun h ↦ ⟨h.1, ?_⟩) ?_
  · have := h.2
    rw [List.length_append, CString.length_stored]
    omega
  rintro _ ⟨hfits, -⟩ ⟨area₃, rfl, hholds₃⟩
  -- the tags
  have hlength := length_flatMap_instructionText hfits
  have hend' : (doc.buffer.stored ++ doc.data.attributesText).length +
      doc.processingInst.length * sizeofPiInfo =
        (doc.buffer.stored ++ doc.data.attributesText ++
          doc.processingInst.flatMap instructionText).length := by
    rw [@List.length_append _ _ (doc.processingInst.flatMap instructionText), hlength]
  rw [hend']
  have htags := @storeTags_spec _ n doc.tagHashTab.entries
    { record₂ with
      area := area₃, varArea := doc.processingInst.length * sizeofPiInfo } _
    hholds₃ fun i hi ↦ (hfilled₂.1 i hi).2
  have htagsText : doc.tagHashTab.entries.flatMap (tagEntry n) = doc.tagsText := rfl
  rw [htagsText] at htags
  refine htags.bind (fun h ↦ ?_) ?_
  · have := h.2
    rw [← hend', List.length_append, CString.length_stored]
    omega
  rintro ⟨record₄, dataEnd⟩ - ⟨hdataEnd, area₄, hrecord₄, hholds₄⟩
  simp only at hdataEnd hrecord₄
  subst hrecord₄ hdataEnd
  -- the file name
  have hname : doc.fileName.getD CString.empty = doc.nameText := rfl
  rw [hname]
  have hall := length_flatMap_instructionText hfits
  refine (write_spec hholds₄ doc.nameText.stored).bind (fun h ↦ ?_) ?_
  · have := h.2
    rw [List.length_append, ← hend']
    simp only [List.length_append, CString.length_stored]
    omega
  rintro _ hfits₅ ⟨area₅, rfl, hholds₅⟩
  rw [List.length_append, ← hend'] at hfits₅
  simp only [List.length_append, CString.length_stored] at hfits₅
  refine Guarded.pure ⟨hfits, by omega⟩ ?_
  have hareaText : doc.buffer.stored ++ doc.data.attributesText ++
      doc.processingInst.flatMap instructionText ++ doc.tagsText ++ doc.nameText.stored =
        doc.areaText := rfl
  rw [hareaText] at hholds₅
  exact
    { nSgmlData := by rw [hheader₂]
      nPi := by rw [hheader₂]
      attrSize := by rw [hheader₂]
      varArea := rfl
      hashTagCount := by rw [hheader₂]; simp
      buffersize := by rw [hheader₂]
      area := by
        have hlen : (doc.buffer.stored ++ doc.data.attributesText ++
            doc.processingInst.flatMap instructionText ++ doc.tagsText).length +
              doc.nameText.length + 1 = doc.areaText.length := by
          rw [← hareaText, @List.length_append _ _ doc.nameText.stored, CString.length_stored]
          omega
        simp only [hlen]
        exact hholds₅.take
      described := by
        have hframe := @Described.frame _ _ _
          (doc.processingInst.flatMap instructionText ++ doc.tagsText ++
            doc.nameText.stored) _ _ _ _ hdescribed₂ fun _ _ _ ↦ rfl
        have harea : doc.buffer.stored ++ doc.data.attributesText ++
            (doc.processingInst.flatMap instructionText ++ doc.tagsText ++ doc.nameText.stored) =
              doc.areaText := by
          rw [← hareaText]
          simp
        rw [harea] at hframe
        have hsize : record₂.headerSize = sizeofOutputRecord + n * sizeofSdataInfo := by
          rw [hheader₂]
          rfl
        simp only [OutputRecord.headerSize] at hframe hsize ⊢
        rw [hsize]
        exact hframe }

def rebuiltElements (all : List SgmlData) : List SgmlData :=
  (List.range all.length).map fun i ↦ rebuiltData all i (all[i]?.getD default)

variable {dtd : SgmlDTD}

section

variable {doc : SgmlDocument} {result : OutputRecord × ℕ}

theorem Flattened.take_buffer (h : Flattened doc result) :
    (result.1.area.take result.2).take result.1.buffersize ++ [nul] = doc.buffer.stored := by
  have harea : doc.areaText = doc.buffer.chars ++ ([nul] ++ (doc.data.attributesText ++
      doc.processingInst.flatMap instructionText ++ doc.tagsText ++ doc.nameText.stored)) := by
    simp [SgmlDocument.areaText, CString.stored]
  rw [h.area, h.buffersize, harea, CString.length, List.take_left]
  rfl

theorem Flattened.mapM_rebuildElement (h : Flattened doc result) (dtd : SgmlDTD)
    (elements : List SgmlData) :
    (List.range result.1.nSgmlData).mapM
        (rebuildElement result.1 (result.1.area.take result.2) doc.buffer.stored dtd) =
      .ok elements ↔
    (∀ dat ∈ doc.data.nodes, KnownTag dtd doc.buffer dat.startTagOffset) ∧
      elements = rebuiltElements doc.data.nodes := by
  rw [mapM_eq_ok_iff (g := fun i ↦ rebuiltData doc.data.nodes i (doc.data.nodes[i]?.getD default))
    (p := fun i ↦ KnownTag dtd doc.buffer (doc.data.nodes[i]?.getD default).startTagOffset)]
  · rw [h.nSgmlData]
    refine and_congr_left fun _ ↦ ⟨fun hall dat hmem ↦ ?_, fun hall i hi ↦ ?_⟩
    · obtain ⟨i, hi, rfl⟩ := List.getElem_of_mem hmem
      simpa [List.getElem?_eq_getElem hi] using hall i (List.mem_range.mpr hi)
    · have hlt := List.mem_range.mp hi
      rw [List.getElem?_eq_getElem hlt]
      exact hall _ (List.getElem_mem hlt)
  · intro i hi element
    rw [h.nSgmlData] at hi
    obtain ⟨dat, hdat⟩ : ∃ dat, doc.data.nodes[i]? = some dat :=
      ⟨_, List.getElem?_eq_getElem (List.mem_range.mp hi)⟩
    have hentry := h.described.entry hdat
    rw [Nat.zero_add, ← h.area] at hentry
    rw [hdat]
    exact rebuildElement_eq_ok hentry element

/-- The elements after the second pass. -/
def linkedElements (instructions : List ProcessingInst) (text : List Char) (all : List SgmlData) :
    List SgmlData :=
  (List.range all.length).map fun i ↦ linkedData instructions text all i (all[i]?.getD default)

theorem mapM_linkInstructions (instructions : List ProcessingInst) (text : List Char)
    (all elements : List SgmlData) :
    (rebuiltElements all).mapM (linkInstructions instructions text) = .ok elements ↔
      (∀ dat ∈ all, Flagged dat → ∀ pi ∈ instructions, pi.tag ≠ none) ∧
        elements = linkedElements instructions text all := by
  have hall := mapM_eq_ok_iff (List.range all.length)
    (fun i _ result ↦
      linkInstructions_eq_ok instructions text all i (all[i]?.getD default) result) elements
  rw [rebuiltElements, List.mapM_map]
  refine hall.trans ?_
  refine and_congr_left fun _ ↦ ⟨fun h dat hmem ↦ ?_, fun h i hi ↦ ?_⟩
  · obtain ⟨i, hi, rfl⟩ := List.getElem_of_mem hmem
    simpa [List.getElem?_eq_getElem hi] using h i (List.mem_range.mpr hi)
  · have hlt := List.mem_range.mp hi
    rw [List.getElem?_eq_getElem hlt]
    exact h _ (List.getElem_mem hlt)

theorem Flattened.readInstructions (h : Flattened doc result)
    (hfits : ∀ pi ∈ doc.processingInst, FitsInstruction pi) :
    readInstructions result.1.nPi ((result.1.area.take result.2).drop
        (result.1.buffersize + result.1.attrSize + 1)) =
      .ok (doc.processingInst.map rebuiltInstruction) := by
  have harea : doc.areaText = (doc.buffer.stored ++ doc.data.attributesText) ++
      (doc.processingInst.flatMap instructionText ++ (doc.tagsText ++ doc.nameText.stored)) := by
    simp [SgmlDocument.areaText]
  have hlength : result.1.buffersize + result.1.attrSize + 1 =
      (doc.buffer.stored ++ doc.data.attributesText).length := by
    rw [h.buffersize, h.attrSize, List.length_append, CString.length_stored]
    omega
  rw [h.area, h.nPi, hlength, harea, List.drop_left]
  exact readInstructions_stored hfits _

theorem Flattened.drop_tags (h : Flattened doc result)
    (hfits : ∀ pi ∈ doc.processingInst, FitsInstruction pi) :
    (result.1.area.take result.2).drop
        (result.1.buffersize + result.1.attrSize + result.1.varArea + 1) =
      doc.tagsText ++ doc.nameText.stored := by
  have harea : doc.areaText = (doc.buffer.stored ++ doc.data.attributesText ++
      doc.processingInst.flatMap instructionText) ++ (doc.tagsText ++ doc.nameText.stored) := by
    simp [SgmlDocument.areaText]
  have hlength : result.1.buffersize + result.1.attrSize + result.1.varArea + 1 =
      (doc.buffer.stored ++ doc.data.attributesText ++
        doc.processingInst.flatMap instructionText).length := by
    rw [h.buffersize, h.attrSize, h.varArea, List.length_append, List.length_append,
      CString.length_stored, length_flatMap_instructionText hfits]
    omega
  rw [h.area, hlength, harea, List.drop_left]

theorem Flattened.linkedTree (h : Flattened doc result) (instructions : List ProcessingInst)
    (text : List Char) :
    linkedTree result.1.sdata (linkedElements instructions text doc.data.nodes)
        (result.1.nSgmlData + 1) (if result.1.nSgmlData = 0 then none else some 0) =
      doc.data.relabel (linkedData instructions text doc.data.nodes) 0 := by
  have hroot : (if result.1.nSgmlData = 0 then none else some 0) =
      if doc.data = .null then none else some 0 := by
    rw [h.nSgmlData]
    exact if_congr (List.length_eq_zero_iff.trans SgmlTree.nodes_eq_nil) rfl rfl
  rw [hroot]
  refine linkedTree_eq h.described (fun k dat hk ↦ ?_) (by rw [h.nSgmlData]; omega)
  have hi : k < doc.data.nodes.length := (List.getElem?_eq_some_iff.mp hk).1
  rw [Nat.zero_add, linkedElements, List.getElem?_map, List.getElem?_range hi]
  simp [hk]

theorem Flattened.of_rebuild (h : Flattened doc result)
    (hfits : ∀ pi ∈ doc.processingInst, FitsInstruction pi) {rebuilt : SgmlDocument}
    (hrun : rebuildFlatRecord result.1 result.2 dtd = .ok rebuilt) :
    (∀ dat ∈ doc.data.nodes, KnownTag dtd doc.buffer dat.startTagOffset) ∧
      (∀ dat ∈ doc.data.nodes, Flagged dat →
        ∀ pi ∈ doc.processingInst.map rebuiltInstruction, pi.tag ≠ none) ∧
      rebuilt.data = doc.data.relabel (linkedData (doc.processingInst.map rebuiltInstruction)
        doc.buffer.stored doc.data.nodes) 0 ∧
      rebuilt.processingInst = doc.processingInst.map rebuiltInstruction ∧
      rebuilt.fileName ≠ some CString.empty := by
  unfold rebuildFlatRecord at hrun
  simp only [h.take_buffer, h.readInstructions hfits, call_ok] at hrun
  obtain ⟨buffer, -, hrun⟩ := stop_bind_eq_ok.mp hrun
  obtain ⟨elements, helements, hrun⟩ := stop_bind_eq_ok.mp hrun
  obtain ⟨hknown, rfl⟩ := (h.mapM_rebuildElement dtd elements).mp helements
  obtain ⟨instructions, hinstructions, hrun⟩ := stop_bind_eq_ok.mp hrun
  obtain rfl := Except.ok.inj hinstructions
  obtain ⟨linked, hlinked, hrun⟩ := stop_bind_eq_ok.mp hrun
  rw [call_eq_ok] at hlinked
  obtain ⟨hflags, rfl⟩ := (mapM_linkInstructions _ _ _ _).mp hlinked
  obtain ⟨⟨tags, c⟩, -, hrun⟩ := stop_bind_eq_ok.mp hrun
  obtain ⟨name, -, hrun⟩ := stop_bind_eq_ok.mp hrun
  obtain rfl := Except.ok.inj hrun
  refine ⟨hknown, hflags, h.linkedTree _ _, rfl, ?_⟩
  by_cases hpos : 0 < name.length
  · simp only [if_pos hpos, ne_eq, Option.some.injEq]
    rintro rfl
    exact absurd hpos (by decide)
  · simp [if_neg hpos]

theorem Flattened.rebuild (h : Flattened doc result)
    (hfits : ∀ pi ∈ doc.processingInst, FitsInstruction pi)
    (hknown : ∀ dat ∈ doc.data.nodes, KnownTag dtd doc.buffer dat.startTagOffset)
    (hflags : ∀ dat ∈ doc.data.nodes, Flagged dat →
      ∀ pi ∈ doc.processingInst.map rebuiltInstruction, pi.tag ≠ none)
    (htags : ∀ tag ∈ doc.tagHashTab.entries, ReadableTag doc.data.nodes.length tag) :
    rebuildFlatRecord result.1 result.2 dtd = .ok
      { data := doc.data.relabel (linkedData (doc.processingInst.map rebuiltInstruction)
          doc.buffer.stored doc.data.nodes) 0
        buffer := doc.buffer
        fileName := withoutEmpty doc.fileName
        recordId := result.1.docid
        processingInst := doc.processingInst.map rebuiltInstruction
        tagHashTab := doc.tagHashTab } := by
  have hbuffer : CString.read doc.buffer.stored = .ok doc.buffer := by
    simpa using CString.read_stored doc.buffer []
  have helements := (h.mapM_rebuildElement dtd _).mpr ⟨hknown, rfl⟩
  have hlinked := (mapM_linkInstructions (doc.processingInst.map rebuiltInstruction)
    doc.buffer.stored doc.data.nodes _).mpr ⟨hflags, rfl⟩
  obtain ⟨table, hread, htable⟩ := readTags_stored
    doc.tagHashTab.entries htags TagTable.init (by
      simpa [TagTable.init] using doc.tagHashTab.distinct) (h.drop_tags hfits)
  have htable' : table = doc.tagHashTab := by
    rcases table with ⟨entries, distinct⟩
    rcases htab : doc.tagHashTab with ⟨entries', distinct'⟩
    rw [htab] at htable
    simp only [TagTable.init, List.nil_append] at htable
    subst htable
    rfl
  subst htable'
  have hname : CString.read ((result.1.area.take result.2).drop
      (result.1.buffersize + result.1.attrSize + result.1.varArea + 1 +
        (doc.tagHashTab.entries.flatMap (tagEntry doc.data.nodes.length)).length)) =
      .ok doc.nameText := by
    rw [← List.drop_drop, h.drop_tags hfits, show doc.tagsText =
      doc.tagHashTab.entries.flatMap (tagEntry doc.data.nodes.length) from rfl, List.drop_left]
    simpa using CString.read_stored doc.nameText []
  have hfileName : (if 0 < doc.nameText.length then some doc.nameText else none) =
      withoutEmpty doc.fileName := by
    unfold SgmlDocument.nameText
    rcases doc.fileName with _ | name
    · rfl
    · by_cases hpos : 0 < name.length
      · simp [withoutEmpty, hpos, Option.filter]
      · simp [withoutEmpty, hpos, Option.filter]
  unfold rebuildFlatRecord
  simp only [h.take_buffer, hbuffer, helements, h.readInstructions hfits, call_ok, hlinked,
    bind, Except.bind, h.hashTagCount]
  rw [h.nSgmlData, hread]
  simp only [call_ok, hname, pure, Except.pure, hfileName]
  rw [← h.nSgmlData, h.linkedTree]

end

/-- The parts of a document that its flat record is to keep. -/
structure SameDocument (doc rebuilt : SgmlDocument) : Prop where
  data : rebuilt.data = doc.data
  buffer : rebuilt.buffer = doc.buffer
  fileName : rebuilt.fileName = doc.fileName
  processingInst : rebuilt.processingInst = doc.processingInst
  tagHashTab : ∀ name, rebuilt.tagHashTab.find name = doc.tagHashTab.find name

/-- Flattening stays inside the block, and rebuilding gives the same document. -/
def Rebuilds (doc : SgmlDocument) (dtd : SgmlDTD) (docid : ℤ) : Prop :=
  ∃ result rebuilt, flattenSgmlDocument doc docid = .ok result ∧
    rebuildFlatRecord result.1 result.2 dtd = .ok rebuilt ∧ SameDocument doc rebuilt

/-- What a document must satisfy for its flat record to fit and for its text, elements, attributes
and processing instructions to come back. -/
structure Rebuildable (doc : SgmlDocument) (dtd : SgmlDTD) : Prop where
  fits : ∀ pi ∈ doc.processingInst, FitsInstruction pi
  room : doc.HasRoom
  known : ∀ dat ∈ doc.data.nodes, KnownTag dtd doc.buffer dat.startTagOffset
  textual : ∀ dat ∈ doc.data.nodes, ∀ attr ∈ dat.attributes, Textual attr
  parents : ∀ i dat, doc.data.nodes[i]? = some dat → ParentFound doc.data.nodes i dat.parent
  strings : ∀ pi ∈ doc.processingInst, pi.tag ≠ some CString.empty ∧
    pi.attr ≠ some CString.empty ∧ pi.indexName ≠ some CString.empty
  flagged : ∀ dat ∈ doc.data.nodes, Flagged dat → ∀ pi ∈ doc.processingInst, pi.tag ≠ none
  instructed : ∀ dat ∈ doc.data.nodes,
    dat.processingInstr = keptInstructions doc.processingInst doc.buffer.stored dat
  fileName : doc.fileName ≠ some CString.empty

theorem relabel_linkedData_eq_iff (doc : SgmlDocument) :
    doc.data.relabel (linkedData doc.processingInst doc.buffer.stored doc.data.nodes) 0 = doc.data ↔
      (∀ dat ∈ doc.data.nodes, ∀ attr ∈ dat.attributes, Textual attr) ∧
        (∀ i dat, doc.data.nodes[i]? = some dat → ParentFound doc.data.nodes i dat.parent) ∧
        ∀ dat ∈ doc.data.nodes,
          dat.processingInstr = keptInstructions doc.processingInst doc.buffer.stored dat := by
  rw [SgmlTree.relabel_eq_iff]
  simp only [Nat.zero_add, linkedData_eq_iff]
  constructor
  · intro h
    refine ⟨fun dat hmem ↦ ?_, fun i dat hdat ↦ (h i dat hdat).2.1, fun dat hmem ↦ ?_⟩
    · obtain ⟨i, hdat⟩ := List.mem_iff_getElem?.mp hmem
      exact (h i dat hdat).1
    · obtain ⟨i, hdat⟩ := List.mem_iff_getElem?.mp hmem
      exact (h i dat hdat).2.2
  · rintro ⟨htextual, hparents, hinstructed⟩ i dat hdat
    have hmem := List.mem_of_getElem? hdat
    exact ⟨htextual dat hmem, hparents i dat hdat, hinstructed dat hmem⟩

theorem map_rebuiltInstruction_eq_iff (instructions : List ProcessingInst) :
    instructions.map rebuiltInstruction = instructions ↔
      ∀ pi ∈ instructions, pi.tag ≠ some CString.empty ∧ pi.attr ≠ some CString.empty ∧
        pi.indexName ≠ some CString.empty := by
  have hself : instructions.map rebuiltInstruction = instructions.map id ↔
      ∀ pi ∈ instructions, rebuiltInstruction pi = pi := List.map_inj_left
  rw [List.map_id] at hself
  rw [hself]
  exact forall₂_congr fun pi _ ↦ rebuiltInstruction_eq_iff pi

theorem Rebuildable.of_rebuilds {doc : SgmlDocument} {docid : ℤ}
    (h : Rebuilds doc dtd docid) : Rebuildable doc dtd := by
  obtain ⟨result, rebuilt, hflatten, hrebuild, hsame⟩ := h
  obtain ⟨⟨hfits, hroom⟩, hflattened⟩ := (flattenSgmlDocument_spec doc docid).of_ok hflatten
  obtain ⟨hknown, hflags, hdata, hinstructions, hname⟩ := hflattened.of_rebuild hfits hrebuild
  have hsameInstructions := hinstructions.symm.trans hsame.processingInst
  rw [hsameInstructions] at hflags hdata
  have htree := (relabel_linkedData_eq_iff doc).mp (hdata.symm.trans hsame.data)
  exact
    { fits := hfits
      room := hroom
      known := hknown
      textual := htree.1
      parents := htree.2.1
      strings := (map_rebuiltInstruction_eq_iff _).mp hsameInstructions
      flagged := hflags
      instructed := htree.2.2
      fileName := hsame.fileName ▸ hname }

theorem Rebuildable.rebuilds {doc : SgmlDocument} (h : Rebuildable doc dtd) (docid : ℤ)
    (htags : ∀ tag ∈ doc.tagHashTab.entries, ReadableTag doc.data.nodes.length tag) :
    Rebuilds doc dtd docid := by
  obtain ⟨result, hflatten, hflattened⟩ :=
    (flattenSgmlDocument_spec doc docid).exists_ok ⟨h.fits, h.room⟩
  have hinstructions := (map_rebuiltInstruction_eq_iff _).mpr h.strings
  have hrebuild := hflattened.rebuild h.fits h.known (by
    rw [hinstructions]
    exact h.flagged) htags
  refine ⟨result, _, hflatten, hrebuild, ?_⟩
  exact
    { data := by
        rw [hinstructions]
        exact (relabel_linkedData_eq_iff doc).mpr ⟨h.textual, h.parents, h.instructed⟩
      buffer := rfl
      fileName := (withoutEmpty_eq_iff _).mpr h.fileName
      processingInst := hinstructions
      tagHashTab := fun _ ↦ rfl }

/-- A document is rebuilt only if the record has room, start tags are declared, attributes are
strings with no `=` in their names, parents are found, the strings of its processing instructions
fit and are not empty, and each element has the one that the second pass keeps; and where every tag
can be read this is enough. -/
theorem rebuilds_iff_of_readable (doc : SgmlDocument) (dtd : SgmlDTD) (docid : ℤ) :
    (Rebuilds doc dtd docid → Rebuildable doc dtd) ∧
      ((∀ tag ∈ doc.tagHashTab.entries, ReadableTag doc.data.nodes.length tag) →
        (Rebuilds doc dtd docid ↔ Rebuildable doc dtd)) :=
  ⟨Rebuildable.of_rebuilds, fun htags ↦
    ⟨Rebuildable.of_rebuilds, fun h ↦ h.rebuilds docid htags⟩⟩

def letters (c : Char) (length : ℕ) (hc : c ≠ nul) : CString where
  chars := List.replicate length c
  terminated := fun hmem ↦ hc (List.mem_replicate.mp hmem).2.symm

/-- The document `<A></A>` whose DTD gives `A` an attribute with a default value of 600
characters. -/
def defaultValueDocument : SgmlDocument where
  data := .element
    { startTagOffset := 0
      contentStartOffset := 3
      contentEndOffset := 3
      endTagOffset := 3
      dataEndOffset := 7
      processingFlags := 0
      dataElementId := 1
      occurrenceNo := 1
      attributes := [{ name := letters 'B' 1 (by decide),
                       value := .stringVal (letters 'x' 600 (by decide)) }]
      processingInstr := []
      parent := none } .null .null
  buffer := ⟨['<', 'A', '>', '<', '/', 'A', '>'], by decide⟩
  fileName := none
  recordId := 1
  processingInst := []
  tagHashTab := ⟨[(letters 'A' 1 (by decide), [0])], by simp⟩

/-- The document `<A…A>` of one empty element whose name has 126 letters. -/
def longNameDocument : SgmlDocument where
  data := .element
    { startTagOffset := 0
      contentStartOffset := 128
      contentEndOffset := 128
      endTagOffset := 128
      dataEndOffset := 128
      processingFlags := 0
      dataElementId := 1
      occurrenceNo := 1
      attributes := []
      processingInstr := []
      parent := none } .null .null
  buffer := ⟨['<'] ++ List.replicate 126 'A' ++ ['>'], by decide +kernel⟩
  fileName := none
  recordId := 1
  processingInst := []
  tagHashTab := ⟨[(letters 'A' 126 (by decide), [0])], by simp⟩

/-- The elements listed for a tag after flattening and rebuilding. -/
def rebuiltTag (doc : SgmlDocument) (dtd : SgmlDTD) (docid : ℤ) (name : CString) :
    Option (Option (List ℕ)) :=
  match flattenSgmlDocument doc docid with
  | .error _ => none
  | .ok result =>
    match rebuildFlatRecord result.1 result.2 dtd with
    | .error _ => none
    | .ok rebuilt => some (rebuilt.tagHashTab.find name)

theorem Rebuilds.rebuiltTag_eq {doc : SgmlDocument} {docid : ℤ} (h : Rebuilds doc dtd docid)
    (name : CString) : rebuiltTag doc dtd docid name = some (doc.tagHashTab.find name) := by
  obtain ⟨result, rebuilt, hflatten, hrebuild, hsame⟩ := h
  unfold rebuiltTag
  simp only [hflatten, hrebuild, hsame.tagHashTab name]

/-- The default value does not fit a block for seven characters of text, and the length of the long
name reads as a negative number, so the tag is left without its element. -/
theorem not_rebuilds_defaultValue_longName :
    ¬ Rebuilds defaultValueDocument { type := 0, elements := [['A']] } 1 ∧
      ¬ Rebuilds longNameDocument { type := 0, elements := [List.replicate 126 'A'] } 1 := by
  refine ⟨fun h ↦ ?_, fun h ↦ ?_⟩
  · have hroom := (Rebuildable.of_rebuilds h).room
    revert hroom
    unfold SgmlDocument.HasRoom
    decide +kernel
  · have htag := h.rebuiltTag_eq (letters 'A' 126 (by decide))
    revert htag
    decide +kernel

end Cheshire.Utils
