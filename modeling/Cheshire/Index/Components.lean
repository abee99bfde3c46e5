import Cheshire.Fault
import Cheshire.Lib.Consecutive

/-!
# Component numbers

`in_components` numbers the components of a record in document order, continuing from the highest
number given out so far, and writes two kinds of entries to the file of each component definition:
one for each component number, which names the record, and one for the record, which gives its
range of component numbers.  Indexing of the component text is left out.
-/

namespace Cheshire.Index

open Lib

structure ComponentDataItem where
  recordId : ℤ
  startOffset : ℤ
  endOffset : ℤ
deriving DecidableEq, Repr

/-- The keys of a component file: the four bytes of a component number, or the longer text `DOC`
followed by a record number. -/
inductive ComponentKey where
  | component (number : ℤ)
  | doc (recnum : ℤ)
deriving DecidableEq

/-- `component_list_entry`: a component definition with its file and its highest number. -/
structure ComponentListEntry where
  name : String
  maxComponentId : ℤ
  compDb : ComponentKey → Option ComponentDataItem

/-- The element that a component tag matches, or the span up to the end tag. -/
structure SgmlElement where
  startTagOffset : ℤ
  dataEndOffset : ℤ

/-- What `comp_tag_list` finds in a record for each component definition. -/
structure SgmlRecord where
  compTagList : String → List SgmlElement

/-- `comp_db->put` -/
def ComponentListEntry.put (comp : ComponentListEntry) (key : ComponentKey)
    (item : ComponentDataItem) : ComponentListEntry :=
  { comp with compDb := Function.update comp.compDb key (some item) }

def ComponentListEntry.fresh (name : String) : ComponentListEntry := ⟨name, 0, fun _ ↦ none⟩

/-- One pass of `for (td = tag_data; td; ...)`. -/
def addComponent (recnum : ℤ) (comp : ComponentListEntry) (dat : SgmlElement) :
    Exec ComponentListEntry := do
  let number ← checkInt (comp.maxComponentId + 1)
  .ok ({ comp with maxComponentId := number }.put (.component number)
    ⟨recnum, dat.startTagOffset, dat.dataEndOffset⟩)

/-- The pass of `in_components` over one component definition.  The entry of the record is written
only when the record has a component. -/
def inComponent (recnum : ℤ) (sgmlrec : SgmlRecord) (comp : ComponentListEntry) :
    Exec ComponentListEntry := do
  let componentIdStart ← checkInt (comp.maxComponentId + 1)
  let tagData := sgmlrec.compTagList comp.name
  let comp ← tagData.foldlM (addComponent recnum) comp
  if tagData = [] then .ok comp
  else .ok (comp.put (.doc recnum) ⟨recnum, componentIdStart, comp.maxComponentId⟩)

/-- `in_components`; without a parsed record it fails and changes nothing. -/
def inComponents (components : List ComponentListEntry) (record : ℤ × Option SgmlRecord) :
    Exec (List ComponentListEntry) :=
  match record.2 with
  | none => .ok components
  | some sgmlrec => components.mapM (inComponent record.1 sgmlrec)

/-- A run of `in_components` over records. -/
def inComponentsRun (records : List (ℤ × Option SgmlRecord))
    (components : List ComponentListEntry) : Exec (List ComponentListEntry) :=
  records.foldlM inComponents components

namespace ComponentListEntry

/-- The entry of a component number names this record. -/
def Names (comp : ComponentListEntry) (number recnum : ℤ) : Prop :=
  ∃ item, comp.compDb (.component number) = some item ∧ item.recordId = recnum

instance (comp : ComponentListEntry) (number recnum : ℤ) : Decidable (comp.Names number recnum) :=
  decidable_of_iff (∃ item ∈ comp.compDb (.component number), item.recordId = recnum) Iff.rfl

/-- The entry of a record has a range with this component number. -/
def InRange (comp : ComponentListEntry) (recnum number : ℤ) : Prop :=
  ∃ range, comp.compDb (.doc recnum) = some range ∧
    range.startOffset ≤ number ∧ number ≤ range.endOffset

/-- The ranges of the records that have components, in the order of the records. -/
def ranges (comp : ComponentListEntry) (records : List ℤ) : List ComponentDataItem :=
  records.filterMap fun recnum ↦ comp.compDb (.doc recnum)

/-- The numbers given out so far are divided into consecutive ranges, and the two kinds of entries
agree. -/
structure Numbered (comp : ComponentListEntry) (records : List ℤ) : Prop where
  consecutive : Consecutive ComponentDataItem.startOffset ComponentDataItem.endOffset 0
    (comp.ranges records) comp.maxComponentId
  of_doc : ∀ recnum range, comp.compDb (.doc recnum) = some range →
    recnum ∈ records ∧ range.recordId = recnum
  names_iff : ∀ number recnum, comp.Names number recnum ↔ comp.InRange recnum number

theorem numbered_fresh (name : String) : (fresh name).Numbered [] where
  consecutive := rfl
  of_doc := by simp [fresh]
  names_iff := by simp [fresh, Names, InRange]

variable {comp comp' : ComponentListEntry} {records : List ℤ} {recnum : ℤ}

end ComponentListEntry

section Step

open ComponentListEntry

variable {comp comp' : ComponentListEntry} {records : List ℤ} {recnum : ℤ}

theorem addComponent_spec {dat : SgmlElement} (h : addComponent recnum comp dat = .ok comp') :
    comp'.name = comp.name ∧ comp'.maxComponentId = comp.maxComponentId + 1 ∧
      (∀ doc, comp'.compDb (.doc doc) = comp.compDb (.doc doc)) ∧
      ∀ number other, comp'.Names number other ↔
        if number = comp.maxComponentId + 1 then other = recnum else comp.Names number other := by
  unfold addComponent at h
  rcases hcheck : checkInt (comp.maxComponentId + 1) with fault | number
  · rw [hcheck] at h
    cases h
  · rw [hcheck] at h
    have hnumber := checkInt_eq_ok hcheck
    have hcomp := (Except.ok.inj h).symm
    subst hcomp hnumber
    refine ⟨rfl, rfl, ?_, ?_⟩
    · intro doc
      simp [ComponentListEntry.put]
    · intro number other
      by_cases heq : number = comp.maxComponentId + 1
      · simp [heq, Names, ComponentListEntry.put, eq_comm]
      · simp [heq, Names, ComponentListEntry.put]

theorem addComponents_spec {elements : List SgmlElement}
    (h : elements.foldlM (addComponent recnum) comp = .ok comp') :
    comp'.name = comp.name ∧ comp'.maxComponentId = comp.maxComponentId + elements.length ∧
      (∀ doc, comp'.compDb (.doc doc) = comp.compDb (.doc doc)) ∧
      ∀ number other, comp'.Names number other ↔
        if comp.maxComponentId < number ∧ number ≤ comp'.maxComponentId then other = recnum
        else comp.Names number other := by
  induction elements generalizing comp with
  | nil =>
    have hcomp := (Except.ok.inj h).symm
    subst hcomp
    refine ⟨rfl, by simp, fun _ ↦ rfl, ?_⟩
    intro number other
    rw [if_neg (by omega)]
  | cons dat elements ih =>
    rw [List.foldlM_cons] at h
    rcases hadd : addComponent recnum comp dat with fault | next
    · rw [hadd] at h
      cases h
    · rw [hadd] at h
      obtain ⟨hname, hmax, hdoc, hnames⟩ := addComponent_spec hadd
      obtain ⟨hname', hmax', hdoc', hnames'⟩ := ih h
      refine ⟨hname'.trans hname, ?_, fun doc ↦ (hdoc' doc).trans (hdoc doc), ?_⟩
      · rw [hmax', hmax, List.length_cons]
        push_cast
        omega
      · intro number other
        rw [hnames', hnames]
        rcases lt_trichotomy number (comp.maxComponentId + 1) with hlt | heq | hgt
        · rw [if_neg (by omega), if_neg (by omega), if_neg (by omega)]
        · rw [if_neg (by omega), if_pos heq, if_pos (by omega)]
        · by_cases hle : number ≤ comp'.maxComponentId
          · rw [if_pos (by omega), if_pos (by omega)]
          · rw [if_neg (by omega), if_neg (by omega), if_neg (by omega)]

theorem Numbered.skip (h : comp.Numbered records) (hnew : recnum ∉ records) :
    comp.Numbered (records ++ [recnum]) := by
  have hnone : comp.compDb (.doc recnum) = none := by
    rcases hdoc : comp.compDb (.doc recnum) with _ | range
    · rfl
    · exact absurd (h.of_doc recnum range hdoc).1 hnew
  refine ⟨?_, ?_, h.names_iff⟩
  · have hranges : comp.ranges (records ++ [recnum]) = comp.ranges records := by
      simp [ranges, hnone]
    rw [hranges]
    exact h.consecutive
  · intro doc range hrange
    obtain ⟨hmem, hrecord⟩ := h.of_doc doc range hrange
    exact ⟨List.mem_append_left _ hmem, hrecord⟩

theorem inComponent_spec {sgmlrec : SgmlRecord} (h : comp.Numbered records)
    (hnew : recnum ∉ records) (hrun : inComponent recnum sgmlrec comp = .ok comp') :
    comp'.Numbered (records ++ [recnum]) := by
  obtain ⟨start, hcheck, hrun⟩ := bind_eq_ok.mp hrun
  have hstart := checkInt_eq_ok hcheck
  obtain ⟨next, hadd, hrun⟩ := bind_eq_ok.mp hrun
  obtain ⟨-, hmax, hdoc, hnames⟩ := addComponents_spec hadd
  by_cases hempty : sgmlrec.compTagList comp.name = []
  · rw [hempty] at hadd
    have hsame : comp = next := Except.ok.inj hadd
    simp only [if_pos hempty] at hrun
    have hlast : next = comp' := Except.ok.inj hrun
    rw [← hlast, ← hsame]
    exact Numbered.skip h hnew
  · simp only [if_neg hempty] at hrun
    have hlast := (Except.ok.inj hrun).symm
    subst hlast
    have hpos : 0 < (sgmlrec.compTagList comp.name).length := List.length_pos_iff.mpr hempty
    have hother : ∀ doc ≠ recnum, (next.put (.doc recnum)
        ⟨recnum, start, next.maxComponentId⟩).compDb (.doc doc) = comp.compDb (.doc doc) := by
      intro doc hdiff
      simp [ComponentListEntry.put, hdiff, hdoc]
    have hself : (next.put (.doc recnum) ⟨recnum, start, next.maxComponentId⟩).compDb
        (.doc recnum) = some ⟨recnum, start, next.maxComponentId⟩ := by
      simp [ComponentListEntry.put]
    refine ⟨?_, ?_, ?_⟩
    · have hranges : (next.put (.doc recnum) ⟨recnum, start, next.maxComponentId⟩).ranges
          (records ++ [recnum]) =
            comp.ranges records ++ [⟨recnum, start, next.maxComponentId⟩] := by
        rw [ranges, List.filterMap_append, List.filterMap_cons, hself]
        congr 1
        apply List.filterMap_congr
        intro doc hmem
        exact hother doc (fun heq ↦ hnew (heq ▸ hmem))
      rw [hranges]
      exact h.consecutive.concat hstart
        (by simp only; omega)
    · intro doc range hrange
      by_cases hsame : doc = recnum
      · subst hsame
        rw [hself] at hrange
        have hvalue := Option.some.inj hrange
        subst hvalue
        exact ⟨by simp, rfl⟩
      · rw [hother doc hsame] at hrange
        obtain ⟨hmem, hrecord⟩ := h.of_doc doc range hrange
        exact ⟨List.mem_append_left _ hmem, hrecord⟩
    · intro number doc
      have hput : (next.put (.doc recnum) ⟨recnum, start, next.maxComponentId⟩).Names number doc ↔
          next.Names number doc := by
        simp [Names, ComponentListEntry.put]
      rw [hput, hnames, h.names_iff]
      by_cases hsame : doc = recnum
      · subst hsame
        have hout : ¬ comp.InRange doc number := by
          rintro ⟨range, hrange, -⟩
          exact hnew (h.of_doc doc range hrange).1
        simp only [InRange, hself, Option.some.injEq, exists_eq_left']
        split
        · exact ⟨fun _ ↦ by omega, fun _ ↦ trivial⟩
        · exact ⟨fun hin ↦ absurd hin hout, fun _ ↦ by omega⟩
      · have hin : (next.put (.doc recnum) ⟨recnum, start, next.maxComponentId⟩).InRange doc number
            ↔ comp.InRange doc number := by
          simp only [InRange, hother doc hsame]
        rw [hin]
        split
        · rename_i hnumber
          simp only [hsame, false_iff]
          rintro ⟨range, hrange, hlow, hhigh⟩
          have hcovered : (∃ item ∈ comp.ranges records, item.startOffset ≤ number ∧
              number ≤ item.endOffset) :=
            ⟨range, List.mem_filterMap.mpr ⟨doc, (h.of_doc doc range hrange).1, hrange⟩, hlow,
              hhigh⟩
          have hbelow := (h.consecutive.exists_mem_iff number).mp hcovered
          omega
        · rfl

end Step

section Run

open ComponentListEntry

variable {components components' : List ComponentListEntry} {done : List ℤ}

theorem inComponents_spec {record : ℤ × Option SgmlRecord} (hnew : record.1 ∉ done)
    (hnumbered : ∀ comp ∈ components, comp.Numbered done)
    (hrun : inComponents components record = .ok components') :
    ∀ comp ∈ components', comp.Numbered (done ++ [record.1]) := by
  unfold inComponents at hrun
  split at hrun
  · have hsame : components = components' := Except.ok.inj hrun
    rw [← hsame]
    intro comp hcomp
    exact Numbered.skip (hnumbered comp hcomp) hnew
  · rename_i sgmlrec hrecord
    intro comp' hcomp'
    obtain ⟨comp, hcomp, hstep⟩ := exists_of_mapM hrun comp' hcomp'
    exact inComponent_spec (hnumbered comp hcomp) hnew hstep

theorem inComponentsRun_spec {records : List (ℤ × Option SgmlRecord)}
    (hdistinct : (done ++ records.map Prod.fst).Nodup)
    (hnumbered : ∀ comp ∈ components, comp.Numbered done)
    (hrun : inComponentsRun records components = .ok components') :
    ∀ comp ∈ components', comp.Numbered (done ++ records.map Prod.fst) := by
  induction records generalizing done components with
  | nil =>
    have hsame : components = components' := Except.ok.inj hrun
    rw [← hsame, List.map_nil, List.append_nil]
    exact hnumbered
  | cons record records ih =>
    rw [inComponentsRun, List.foldlM_cons] at hrun
    obtain ⟨next, hstep, hrun⟩ := bind_eq_ok.mp hrun
    rw [List.map_cons] at hdistinct ⊢
    rw [List.append_cons] at hdistinct ⊢
    have hnew : record.1 ∉ done := by
      intro hmem
      have hfront := (List.nodup_append.mp hdistinct).1
      rw [List.nodup_append] at hfront
      exact hfront.2.2 record.1 hmem record.1 (List.mem_singleton_self _) rfl
    exact ih hdistinct (inComponents_spec hnew hnumbered hstep) hrun

end Run

end Cheshire.Index
