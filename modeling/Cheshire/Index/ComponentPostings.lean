import Cheshire.Index.Components
import Cheshire.Index.KwDel

/-!
# The postings of components

`in_components` gives each component of a record the next number and adds its terms, under that number,
to the indexes of the component definition.  `in_comp_del` goes through the components of a record
again and takes them out: the entry of the record first, then, for every component, the terms from the
indexes and the entry of the component.

What `in_extract` collects from a component for an index is a hash table of terms.  (The paged and the
frequency indexes, which it fills itself, are left out.)  A component that spans elements up to an end
tag is indexed with all of its text, and taken out with the text of its first element.
-/

namespace Cheshire.Index

/-- A component of a record: where it is, and what `in_extract` collects for the index with a tag, from
all of it and from its start element alone. -/
structure ComponentText where
  startTagOffset : ℤ
  dataEndOffset : ℤ
  terms : String → TermHash
  startTerms : String → TermHash

/-- The offset at which a component is looked for: one more or one less is good enough. -/
def ComponentText.startsAt (text : ComponentText) (startOffset : ℤ) : Bool :=
  decide (startOffset = text.startTagOffset ∨ startOffset = text.startTagOffset + 1 ∨
    startOffset = text.startTagOffset - 1)

/-- The components of a record under the name of each component definition.  A start tag is longer than
one character, so no two components start next to each other. -/
structure ComponentRecord where
  components : String → List ComponentText
  spaced : ∀ name, (components name).Pairwise fun first second ↦
    1 < |first.startTagOffset - second.startTagOffset|

/-- A component definition, whether it has an end tag, and its indexes, each under its tag. -/
structure ComponentDef where
  comp : ComponentListEntry
  endTag : Bool
  indexes : List (String × IdxListEntry)

def addComponentTerm (number : RecordNumber) (idx : IdxListEntry) (item : Term × HtData) :
    Exec IdxListEntry :=
  match idx.terms item.1 with
  | some info => do
    let newinfo ← addPosting info number item.2.termfreq
    .ok (putProximity ((idx.addOccur item.2.termfreq).putTerm item.1 newinfo) number
      newinfo.termid item.2)
  | none =>
    let termid := idx.globalData.recptr
    .ok (putProximity ((idx.takeTermid.addOccur item.2.termfreq).putTerm item.1
      (newBlock termid number item.2.termfreq)) number termid item.2)

def addComponentTerms (number : RecordNumber) (hash : TermHash) (idx : IdxListEntry) :
    Exec IdxListEntry := do
  let next ← hash.entries.foldlM (addComponentTerm number) idx
  .ok (if hash.entries.length ≠ 0 then
    { next with globalData :=
      { next.globalData with totNumrecs := next.globalData.totNumrecs + 1 } }
    else next)

/-- `comp->max_component_id++`; the numbers start at 1. -/
def componentNumber (number : ℤ) : Exec RecordNumber :=
  if h : 0 < number.toNat ∧ number.toNat ≤ INT_MAX then .ok ⟨number.toNat, h⟩
  else .error .signedOverflow

/-- One pass of `for (td = tag_data; td; ...)`. -/
def addText (recnum : RecordNumber) (d : ComponentDef) (text : ComponentText) :
    Exec ComponentDef := do
  let number ← componentNumber (d.comp.maxComponentId + 1)
  let indexes ← d.indexes.mapM fun index ↦ do
    let idx ← addComponentTerms number (text.terms index.1) index.2
    .ok (index.1, idx)
  let comp := { d.comp with maxComponentId := number.1 }
  .ok ⟨comp.put (.component number.1) ⟨recnum.1, text.startTagOffset, text.dataEndOffset⟩, d.endTag,
    indexes⟩

/-- The components of a record under one definition. -/
def addTexts (recnum : RecordNumber) (record : ComponentRecord) (d : ComponentDef) :
    Exec ComponentDef := do
  let componentIdStart ← checkInt (d.comp.maxComponentId + 1)
  let texts := record.components d.comp.name
  let d ← texts.foldlM (addText recnum) d
  .ok (if texts.isEmpty then d
    else { d with
      comp := d.comp.put (.doc recnum.1) ⟨recnum.1, componentIdStart, d.comp.maxComponentId⟩ })

/-- `in_components` of a record with its components under all the definitions. -/
def indexComponents (defs : List ComponentDef) (record : RecordNumber × ComponentRecord) :
    Exec (List ComponentDef) :=
  defs.mapM (addTexts record.1 record.2)

/-- The records are indexed one after another. -/
def indexRecords (records : List (RecordNumber × ComponentRecord)) (defs : List ComponentDef) :
    Exec (List ComponentDef) :=
  records.foldlM indexComponents defs

def ComponentDef.fresh (name : String) (endTag : Bool) (indexes : List (String × ℕ)) : ComponentDef :=
  ⟨.fresh name, endTag, indexes.map fun index ↦ (index.1, .created index.2)⟩

/-- One term of a component; the flag is `reduce_rec_count`.  The postings are searched for the number
of the record. -/
def delComponentTerm (recnum : RecordNumber) (s : IdxListEntry × Bool) (item : Term × HtData) :
    Exec (IdxListEntry × Bool) :=
  match s.1.terms item.1 with
  | none => .ok s
  | some newinfo =>
    if newinfo.numEntries = 1 then .ok (s.1.delTerm item.1, s.2)
    else do
      let migrated ← migrateEntries recnum newinfo.numEntries.toNat 0 false newinfo.entries
      .ok (if migrated.1 then
        ((s.1.addOccur (-item.2.termfreq)).putTerm item.1
          { newinfo with
            totFreq := newinfo.totFreq - item.2.termfreq
            numEntries := newinfo.numEntries - 1
            entries := migrated.2.dropLast }, true)
        else s)

def delComponentTerms (recnum : RecordNumber) (hash : TermHash) (idx : IdxListEntry) :
    Exec IdxListEntry := do
  let s ← hash.entries.foldlM (delComponentTerm recnum) (idx, false)
  .ok (if s.2 then
    { s.1 with globalData :=
      { s.1.globalData with totNumrecs := s.1.globalData.totNumrecs - 1 } }
    else s.1)

/-- `comp_db->del` -/
def ComponentListEntry.del (comp : ComponentListEntry) (key : ComponentKey) : ComponentListEntry :=
  { comp with compDb := Function.update comp.compDb key none }

theorem compDb_put (comp : ComponentListEntry) (key other : ComponentKey)
    (item : ComponentDataItem) :
    (comp.put key item).compDb other = if other = key then some item else comp.compDb other :=
  Function.update_apply _ _ _ _

theorem compDb_del (comp : ComponentListEntry) (key other : ComponentKey) :
    (comp.del key).compDb other = if other = key then none else comp.compDb other :=
  Function.update_apply _ _ _ _

/-- `get_component_data`: the component is looked for at its offset in the document of its record. -/
def getComponentData (documents : ℤ → Option ComponentRecord) (d : ComponentDef) (compid : ℤ) :
    Exec ComponentText := do
  let item ← deref (d.comp.compDb (.component compid))
  let record ← deref (documents item.recordId)
  deref ((record.components d.comp.name).find? fun text ↦ text.startsAt item.startOffset)

/-- What `in_extract` collects of the copy that `get_component_data` makes of the start element: with an
end tag its offsets are changed, and its pointers to the text are not. -/
def ComponentDef.removed (d : ComponentDef) (text : ComponentText) (tag : String) : TermHash :=
  if d.endTag then text.startTerms tag else text.terms tag

def delComponent (documents : ℤ → Option ComponentRecord) (recnum : RecordNumber)
    (d : ComponentDef) (compid : ℤ) : Exec ComponentDef := do
  let text ← getComponentData documents d compid
  let indexes ← d.indexes.mapM fun index ↦ do
    let idx ← delComponentTerms recnum (d.removed text index.1) index.2
    .ok (index.1, idx)
  .ok ⟨d.comp.del (.component compid), d.endTag, indexes⟩

/-- The numbers from `start` to `last`. -/
def numbersFrom (start last : ℤ) : List ℤ :=
  (List.range (last + 1 - start).toNat).map fun i : ℕ ↦ start + i

/-- The loop over the components of a record; behind the last one the loop variable is raised once
more. -/
def delRange (documents : ℤ → Option ComponentRecord) (recnum : RecordNumber) (d : ComponentDef)
    (range : ComponentDataItem) : Exec ComponentDef := do
  let d ← (numbersFrom range.startOffset range.endOffset).foldlM (delComponent documents recnum)
    { d with comp := d.comp.del (.doc recnum.1) }
  let _ ← checkInt (range.endOffset + 1)
  .ok d

/-- The loop over the definitions: it ends at the first one without an entry for the record. -/
def delDefinitions (documents : ℤ → Option ComponentRecord) (recnum : RecordNumber) :
    List ComponentDef → Exec (Bool × List ComponentDef)
  | [] => .ok (true, [])
  | d :: defs =>
    match d.comp.compDb (.doc recnum.1) with
    | none => .ok (false, d :: defs)
    | some range => do
      let d ← delRange documents recnum d range
      let rest ← delDefinitions documents recnum defs
      .ok (rest.1, d :: rest.2)

/-- `in_comp_del`; `current` is the number of the document in memory. -/
def inCompDel (documents : ℤ → Option ComponentRecord) (current : Option ℤ) (recnum : RecordNumber)
    (defs : List ComponentDef) : Exec (Bool × List ComponentDef) :=
  if current = some (recnum.1 : ℤ) then delDefinitions documents recnum defs else .ok (false, defs)

end Cheshire.Index
