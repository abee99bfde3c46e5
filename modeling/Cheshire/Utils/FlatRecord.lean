import Cheshire.Lib.Buffer
import Cheshire.Lib.CString

/-!
# Flattened SGML records

`flatten_sgml_document` stores a parsed document in one block: a header with a table of the
elements, then the text, the attributes, the processing instructions, the tag table and the file
name.  Pointers become positions in the table or in the block.  `rebuild_flat_record` reads the
block back into a document.

An element's address is its place in document order, which is also its place in the table.
-/

namespace Cheshire.Utils

open Cheshire.Lib

scoped instance lawfulChars : LawfulBEq (List Char) := inferInstance

/-- The value of an attribute: `string_val`, or `int_val` where there is no string. -/
inductive AttributeValue where
  | stringVal (text : CString)
  | intVal (value : ℤ)
deriving DecidableEq

structure SgmlAttributeData where
  name : CString
  value : AttributeValue
deriving DecidableEq

/-- `SGML_Processing_Inst` -/
structure ProcessingInst where
  instructionType : BitVec 32
  instruction : BitVec 32
  tag : Option CString
  attr : Option CString
  indexName : Option CString
deriving DecidableEq

/-- `SGML_Data` without its links to its first child and its next sibling. -/
structure SgmlData where
  startTagOffset : ℤ
  contentStartOffset : ℤ
  contentEndOffset : ℤ
  endTagOffset : ℤ
  dataEndOffset : ℤ
  processingFlags : ℤ
  dataElementId : ℤ
  occurrenceNo : ℤ
  attributes : List SgmlAttributeData
  processingInstr : List ProcessingInst
  parent : Option ℕ
deriving DecidableEq, Inhabited

/-- The elements that a pointer to an element leads to, through `sub_data_element` and
`next_data_element`. -/
inductive SgmlTree where
  | null
  | element (dat : SgmlData) (subDataElement nextDataElement : SgmlTree)
deriving DecidableEq

/-- `Tag_hash_tab`: the elements that carry each tag, in the order in which the hash table lists
its keys. -/
structure TagTable where
  entries : List (CString × List ℕ)
  distinct : (entries.map Prod.fst).Nodup
deriving DecidableEq

namespace TagTable

/-- `Tcl_InitHashTable` -/
def init : TagTable := ⟨[], by simp⟩

def find (table : TagTable) (name : CString) : Option (List ℕ) :=
  table.entries.lookup name

/-- `Tcl_CreateHashEntry` and `Tcl_SetHashValue` -/
def set (table : TagTable) (name : CString) (items : List ℕ) : TagTable :=
  if hname : name ∈ table.entries.map Prod.fst then
    ⟨table.entries.map fun entry ↦ if entry.1 = name then (name, items) else entry, by
      have hkeys : (table.entries.map fun entry ↦ if entry.1 = name then (name, items) else entry).map
          Prod.fst = table.entries.map Prod.fst := by
        rw [List.map_map]
        refine List.map_congr_left fun entry _ ↦ ?_
        by_cases heq : entry.1 = name
        · simp [heq]
        · simp [heq]
      rw [hkeys]
      exact table.distinct⟩
  else
    ⟨table.entries ++ [(name, items)], by
      rw [List.map_append, List.nodup_append]
      refine ⟨table.distinct, by simp, ?_⟩
      rintro key hkey other hother rfl
      simp only [List.map_cons, List.map_nil, List.mem_singleton] at hother
      exact hname (hother ▸ hkey)⟩

end TagTable

structure SgmlDocument where
  data : SgmlTree
  buffer : CString
  fileName : Option CString
  recordId : ℤ
  processingInst : List ProcessingInst
  tagHashTab : TagTable
deriving DecidableEq

/-- What a DTD says about tags: its `type` and the keys of `SGML_Element_hash_tab`. -/
structure SgmlDTD where
  type : ℤ
  elements : List (List Char)

structure SdataInfo where
  startTagOffset : ℤ := 0
  contentStartOffset : ℤ := 0
  contentEndOffset : ℤ := 0
  endTagOffset : ℤ := 0
  dataEndOffset : ℤ := 0
  processingFlags : ℤ := 0
  dataElementId : ℤ := 0
  occurrenceNo : ℤ := 0
  parent : ℕ := 0
  subdata : ℕ := 0
  nextdata : ℕ := 0
  nAttr : ℕ := 0
  attrStartOffset : ℕ := 0
  data : Option ℕ := none

/-- `Output_Record`: the header, the table and the characters behind the table. -/
structure OutputRecord where
  docid : ℤ
  nSgmlData : ℕ
  nPi : ℕ
  attrSize : ℕ
  varArea : ℕ
  hashTagCount : ℕ
  buffersize : ℕ
  sdata : ℕ → SdataInfo
  area : List Char

/-- `sizeof (Output_Record)` -/
def sizeofOutputRecord : ℕ := 112

/-- `sizeof (sdata_info)` -/
def sizeofSdataInfo : ℕ := 64

/-- `sizeof (pi_info)`: two integers and members of 100, 100 and 200 characters. -/
def sizeofPiInfo : ℕ := 408

namespace OutputRecord

/-- Where the characters behind the table start in the block. -/
def headerSize (record : OutputRecord) : ℕ :=
  sizeofOutputRecord + record.nSgmlData * sizeofSdataInfo

def modify (record : OutputRecord) (index : ℕ) (change : SdataInfo → SdataInfo) : OutputRecord :=
  { record with sdata := Function.update record.sdata index (change (record.sdata index)) }

def write (record : OutputRecord) (position : ℕ) (text : List Char) : Exec OutputRecord :=
  match Buffer.storeAll? record.area position text with
  | some area => .ok { record with area }
  | none => .error .outOfBounds

end OutputRecord

def countElements : SgmlTree → ℕ
  | .null => 0
  | .element _ sub next => countElements sub + countElements next + 1

/-- The scan of the table for an element's parent: the entry last seen with the parent's address
before the end of what is filled in, `found` without one. -/
def findParent (sdata : ℕ → SdataInfo) (parent : Option ℕ) : ℕ → ℕ → ℕ → ℕ
  | 0, _, found => found
  | left + 1, i, found =>
    if (sdata i).contentStartOffset = 0 then found
    else findParent sdata parent left (i + 1)
      (if (sdata i).data ≠ none ∧ (sdata i).data = parent then i else found)

/-- The text `name=value` of an attribute. -/
def attributeText (attr : SgmlAttributeData) : CString where
  chars := attr.name.chars ++ '=' :: match attr.value with
    | .stringVal text => text.chars
    | .intVal value => decimalInt value
  terminated := by
    intro hmem
    rcases List.mem_append.mp hmem with hmem | hmem
    · exact attr.name.terminated hmem
    rcases List.mem_cons.mp hmem with heq | hmem
    · exact absurd heq (by decide)
    rcases hvalue : attr.value with text | value
    · rw [hvalue] at hmem
      exact text.terminated hmem
    · rw [hvalue] at hmem
      exact null_notMem_decimalInt value hmem

/-- The end of `Store_elements`: the attributes of the element `current`. -/
def storeAttributes (current : ℕ) : List SgmlAttributeData → OutputRecord → Exec OutputRecord
  | [], record => .ok record
  | attr :: attributes, record => do
    let dataEnd := record.buffersize + 1 + record.attrSize
    let record := record.modify current fun entry ↦
      { entry with
        nAttr := entry.nAttr + 1
        attrStartOffset :=
          if entry.attrStartOffset = 0 then record.headerSize + dataEnd
          else entry.attrStartOffset }
    let record ← record.write dataEnd (attributeText attr).stored
    storeAttributes current attributes
      { record with attrSize := record.attrSize + (attributeText attr).length + 1 }

/-- The beginning of `Store_elements`: what the table keeps of the element itself, and the place of
its parent. -/
def enterElement (dat : SgmlData) (current : ℕ) (record : OutputRecord) : OutputRecord :=
  let record := record.modify current fun entry ↦
    { entry with
      startTagOffset := dat.startTagOffset
      contentStartOffset := dat.contentStartOffset
      contentEndOffset := dat.contentEndOffset
      endTagOffset := dat.endTagOffset
      dataEndOffset := dat.dataEndOffset
      processingFlags := dat.processingFlags
      dataElementId := dat.dataElementId
      occurrenceNo := dat.occurrenceNo
      data := some current }
  if 0 < current then
    record.modify current fun entry ↦
      { entry with parent := findParent record.sdata dat.parent record.nSgmlData 0 entry.parent }
  else record

/-- `Store_elements`: the number of elements stored and the next element number. -/
def storeElements : SgmlTree → ℕ → OutputRecord → Exec (ℕ × ℕ × OutputRecord)
  | .null, elementNum, record => .ok (0, elementNum, record)
  | .element dat sub next, current, record => do
    let record := enterElement dat current record
    let (count, elementNum, record) ← storeElements sub (current + 1) record
    let (count, elementNum, record) ←
      if count = 0 then
        if next = .null then pure (count, elementNum, record)
        else
          storeElements next elementNum
            (record.modify current fun entry ↦ { entry with nextdata := current + 1 })
      else do
        let record := record.modify current fun entry ↦ { entry with subdata := current + 1 }
        if next = .null then pure (count, elementNum, record)
        else
          let (more, elementNum, record) ← storeElements next elementNum
            (record.modify current fun entry ↦ { entry with nextdata := current + count + 1 })
          pure (count + more, elementNum, record)
    let record ← storeAttributes current dat.attributes record
    pure (count + 1, elementNum, record)

/-- The characters of an `int`, lowest first. -/
def intBytes (value : BitVec 32) : List Char :=
  [Char.ofNat (value.toNat % 256), Char.ofNat (value.toNat / 256 % 256),
    Char.ofNat (value.toNat / 65536 % 256), Char.ofNat (value.toNat / 16777216)]

/-- A string copied into a zeroed member of a structure. -/
def strcpyMember (size : ℕ) (text : Option CString) : Exec (List Char) :=
  match text with
  | none => .ok (List.replicate size nul)
  | some text =>
    if text.length < size then .ok (text.stored ++ List.replicate (size - text.length - 1) nul)
    else .error .outOfBounds

/-- One `pi_info`. -/
def piInfo (pi : ProcessingInst) : Exec (List Char) := do
  let tag ← strcpyMember 100 pi.tag
  let attr ← strcpyMember 100 pi.attr
  let indexName ← strcpyMember 200 pi.indexName
  pure (intBytes pi.instructionType ++ intBytes pi.instruction ++ tag ++ attr ++ indexName)

def storeInstructions : List ProcessingInst → ℕ → OutputRecord → Exec OutputRecord
  | [], _, record => .ok record
  | pi :: rest, outPi, record => do
    let info ← piInfo pi
    let record ← record.write outPi info
    storeInstructions rest (outPi + sizeofPiInfo) record

/-- The table places of an element, each printed behind a blank. -/
def indexText (record : OutputRecord) (numElements item : ℕ) : List Char :=
  (List.range numElements).flatMap fun ptrIndex ↦
    if (record.sdata ptrIndex).data = some item then ' ' :: decimal ptrIndex else []

/-- The entry of a tag: the length of its name and two, the name, and the places of its elements. -/
def tagText (record : OutputRecord) (numElements : ℕ) (tag : CString × List ℕ) : List Char :=
  Char.ofNat ((tag.1.length + 2) % 256) :: tag.1.stored ++
    tag.2.flatMap (indexText record numElements) ++ [nul]

def storeTags (numElements : ℕ) :
    List (CString × List ℕ) → ℕ → OutputRecord → Exec (OutputRecord × ℕ)
  | [], dataEnd, record => .ok (record, dataEnd)
  | tag :: rest, dataEnd, record => do
    let text := tagText record numElements tag
    let record ← record.write dataEnd text
    storeTags numElements rest (dataEnd + text.length)
      { record with hashTagCount := record.hashTagCount + 1 }

/-- `flatten_sgml_document`: the record and how many characters behind the table belong to it. -/
def flattenSgmlDocument (doc : SgmlDocument) (docid : ℤ) : Exec (OutputRecord × ℕ) := do
  let numElements := countElements doc.data
  let numPi := doc.processingInst.length
  let dataLength := doc.buffer.length
  let record : OutputRecord :=
    { docid
      nSgmlData := numElements
      nPi := numPi
      attrSize := 0
      varArea := 0
      hashTagCount := 0
      buffersize := dataLength
      sdata := fun _ ↦ {}
      area := Buffer.calloc nul (numPi * sizeofPiInfo + 2 * dataLength + 500) }
  let record ← record.write 0 doc.buffer.stored
  let dataEnd := dataLength + 1
  let (_, _, record) ← storeElements doc.data 0 record
  let dataEnd := dataEnd + record.attrSize
  let record ← storeInstructions doc.processingInst dataEnd record
  let record := { record with varArea := numPi * sizeofPiInfo }
  let dataEnd := dataEnd + numPi * sizeofPiInfo
  let (record, dataEnd) ← storeTags numElements doc.tagHashTab.entries dataEnd record
  let fileName := doc.fileName.getD CString.empty
  let record ← record.write dataEnd fileName.stored
  pure (record, dataEnd + fileName.length + 1)

/-- The characters that end the tag name in `match_dtd_element`. -/
def endsTag (c : Char) : Bool :=
  c = ' ' || c = '>' || c = '\t' || c = '\n' || c = '\r' || c = '/'

/-- The look-up of a tag name: an SGML name is taken in capitals, a name with a prefix is looked up
without it, and such a name may be added to a schema. -/
def declared (dtd : SgmlDTD) (name : List Char) : Bool :=
  let temptag := if dtd.type = 0 then name.map Char.toUpper else name
  if ':' ∈ temptag then
    (temptag.reverse.takeWhile (· ≠ ':')).reverse ∈ dtd.elements || dtd.type = 2 || dtd.type = 3
  else temptag ∈ dtd.elements

/-- `match_dtd_element`: the name behind `<` is copied into 200 characters and must be declared. -/
def matchDtdElement (tagstart : List Char) (dtd : SgmlDTD) : Except Stop Unit :=
  let name := tagstart.takeWhile fun c ↦ !endsTag c
  if name.length = tagstart.length ∨ 200 ≤ name.length then .error (.fault .outOfBounds)
  else if declared dtd name then .ok ()
  else .error (.exit 0)

/-- The attributes of one element, from where its first one is stored. -/
def readAttributes : ℕ → List Char → Except Stop (List SgmlAttributeData)
  | 0, _ => .ok []
  | nAttr + 1, c => do
    let tempdata ← call (CString.read c)
    if '=' ∉ tempdata.chars then .error (.exit 1)
    else
      let attr : SgmlAttributeData :=
        { name := tempdata.before (· = '='), value := .stringVal (tempdata.behind (· = '=')) }
      let rest ← readAttributes nAttr (c.drop (tempdata.length + 1))
      pure (attr :: rest)

/-- The first pass over the table, for one element; `area` is what stands behind the table. -/
def rebuildElement (record : OutputRecord) (area dataBuffer : List Char) (dtd : SgmlDTD) (i : ℕ) :
    Except Stop SgmlData := do
  let info := record.sdata i
  let tagstart := info.startTagOffset + 1
  if tagstart < 0 ∨ dataBuffer.length < tagstart then .error (.fault .outOfBounds)
  else
    matchDtdElement (dataBuffer.drop tagstart.toNat) dtd
    let attributes ← readAttributes info.nAttr (area.drop (info.attrStartOffset - record.headerSize))
    pure
      { startTagOffset := info.startTagOffset
        contentStartOffset := info.contentStartOffset
        contentEndOffset := info.contentEndOffset
        endTagOffset := info.endTagOffset
        dataEndOffset := info.dataEndOffset
        processingFlags := info.processingFlags
        dataElementId := info.dataElementId
        occurrenceNo := info.occurrenceNo
        attributes
        processingInstr := []
        parent := if 0 < i then some info.parent else none }

/-- The elements that the links of the second pass lead to. -/
def linkedTree (sdata : ℕ → SdataInfo) (elements : List SgmlData) : ℕ → Option ℕ → SgmlTree
  | 0, _ => .null
  | _ + 1, none => .null
  | left + 1, some i =>
    match elements[i]? with
    | none => .null
    | some dat =>
      .element dat
        (linkedTree sdata elements left
          (if 0 < (sdata i).subdata then some (sdata i).subdata else none))
        (linkedTree sdata elements left
          (if 0 < (sdata i).nextdata then some (sdata i).nextdata else none))

def PROC_FLAG_IN_CHILD : ℤ := 2 ^ 30

/-- `strncasecmp` of the tag of a processing instruction with as much of a start tag. -/
def beginsStartTag (startTag : List Char) (tag : CString) : Bool :=
  (tag.chars.map Char.toLower).isPrefixOf (startTag.map Char.toLower)

/-- The scan of the document's processing instructions for one element: a copy of each one that
begins the start tag takes the place of what was found before. -/
def dupInstructions (startTag : List Char) :
    List ProcessingInst → List ProcessingInst → Exec (List ProcessingInst)
  | [], found => .ok found
  | pi :: rest, found => do
    let tag ← deref pi.tag
    dupInstructions startTag rest (if beginsStartTag startTag tag then [pi] else found)

/-- The second pass over the table, for the processing instructions of one element. -/
def linkInstructions (instructions : List ProcessingInst) (dataBuffer : List Char)
    (dat : SgmlData) : Exec SgmlData :=
  if 0 < dat.processingFlags ∧ dat.processingFlags ≠ PROC_FLAG_IN_CHILD then do
    let processingInstr ← dupInstructions (dataBuffer.drop (dat.startTagOffset + 1).toNat)
      instructions dat.processingInstr
    pure { dat with processingInstr }
  else .ok dat

/-- The `int` that starts the characters. -/
def readInt (c : List Char) : BitVec 32 :=
  BitVec.ofNat 32 ((c.take 4).foldr (fun digit rest ↦ digit.toNat + 256 * rest) 0)

/-- A member of a structure, or nothing where it is empty. -/
def readMember (c : List Char) : Exec (Option CString) := do
  let text ← CString.read c
  pure (if 0 < text.length then some text else none)

/-- One `pi_info`. -/
def readInstruction (inPi : List Char) : Exec ProcessingInst := do
  let tag ← readMember (inPi.drop 8)
  let attr ← readMember (inPi.drop 108)
  let indexName ← readMember (inPi.drop 208)
  pure
    { instructionType := readInt inPi
      instruction := readInt (inPi.drop 4)
      tag
      attr
      indexName }

def readInstructions : ℕ → List Char → Exec (List ProcessingInst)
  | 0, _ => .ok []
  | left + 1, inPi => do
    let pi ← readInstruction inPi
    let rest ← readInstructions left (inPi.drop sizeofPiInfo)
    pure (pi :: rest)

/-- The numbers behind a tag's name.  A scan that finds none ends the loop. -/
def readOccurrences (nSgmlData : ℕ) (area : List Char) : ℕ → ℕ → Exec (List ℕ × ℕ)
  | 0, _ => .error .unfinished
  | left + 1, dataIn => do
    let text ← CString.read (area.drop dataIn)
    match scanInt text.chars with
    | none => pure ([], dataIn)
    | some tagIndex =>
      if 0 ≤ tagIndex ∧ tagIndex < nSgmlData then
        let dataIn :=
          if text.length = 0 then dataIn
          else dataIn + 1 +
            ((area.drop (dataIn + 1)).takeWhile fun c ↦ c ≠ nul ∧ c ≠ ' ').length
        let (rest, dataIn) ← readOccurrences nSgmlData area left dataIn
        pure (tagIndex.toNat :: rest, dataIn)
      else .error .outOfBounds

/-- The loop over the tags.  The length stored before a name leads to its first number. -/
def readTags (nSgmlData : ℕ) (area : List Char) : ℕ → ℕ → TagTable → Exec (TagTable × ℕ)
  | 0, c, table => .ok (table, c)
  | left + 1, c, table =>
    match area[c]? with
    | none => .error .outOfBounds
    | some size => do
      let name ← CString.read (area.drop (c + 1))
      let dataIn := (c + 1 : ℤ) + signedChar size
      if dataIn < 0 then .error .outOfBounds
      else
        let (items, dataIn) ← readOccurrences nSgmlData area (area.length + 1) dataIn.toNat
        readTags nSgmlData area left (dataIn + 1) (table.set name items)

/-- `rebuild_flat_record` of a record with `length` characters behind its table. -/
def rebuildFlatRecord (record : OutputRecord) (length : ℕ) (dtd : SgmlDTD) :
    Except Stop SgmlDocument := do
  let area := record.area.take length
  let dataBuffer := area.take record.buffersize ++ [nul]
  let buffer ← call (CString.read dataBuffer)
  let elements ← (List.range record.nSgmlData).mapM (rebuildElement record area dataBuffer dtd)
  let instructions ← call
    (readInstructions record.nPi (area.drop (record.buffersize + record.attrSize + 1)))
  let elements ← call (elements.mapM (linkInstructions instructions dataBuffer))
  let c := record.buffersize + record.attrSize + record.varArea + 1
  let (tags, c) ← call (readTags record.nSgmlData area record.hashTagCount c TagTable.init)
  let name ← call (CString.read (area.drop c))
  pure
    { data := linkedTree record.sdata elements (record.nSgmlData + 1)
        (if record.nSgmlData = 0 then none else some 0)
      buffer
      fileName := if 0 < name.length then some name else none
      recordId := record.docid
      processingInst := instructions
      tagHashTab := tags }

end Cheshire.Utils
