import Cheshire.Zpdu.PlainRecords

/-!
# Records that are copied as they are

A record is copied as it is exactly if all that is in it is: its strings are plain, each external has
neither an indirect reference nor a descriptor and its data are of the structure that its syntax is
copied as, and the discriminator of other information is the one that zeroed memory gives.
-/

namespace Cheshire.Zpdu

section Records

variable {Explain : Type} (dupExplainRecord : Explain → Exec Explain)

/-- What `DupOtherInformation` copies as it is under the discriminator of a character string. -/
def Information.Plain : Information Explain → Prop
  | .string text => PlainString text
  | .external .null => True
  | .external (.external ..) => False

mutual

def External.Plain : External Explain → Prop
  | .null => True
  | .external directReference indirectReference dataValueDescriptor content =>
    PlainString directReference ∧ indirectReference = 0 ∧ dataValueDescriptor = none ∧
      content.Plain (getTypeExternal directReference)

def ExternalContent.Plain (doctype : DocType) : ExternalContent Explain → Prop
  | .singleASN1type data => data.Plain doctype
  | .octetAligned string => PlainString string
  | .arbitrary string => PlainString string

/-- The data are of the structure of the syntax; data of a syntax without records are lost. -/
def AnyData.Plain (doctype : DocType) : AnyData Explain → Prop
  | .null => True
  | .opac record => doctype = .opac ∧ record.Plain
  | .explain record => doctype = .explain ∧ dupExplainRecord record = .ok record
  | .generic item next => doctype = .grs1 ∧ item.Plain ∧ next.Plain
  | .taskPackage record => doctype = .es ∧ record.Plain
  | .briefBib record => doctype = .summary ∧ record.Plain
  | .other _ => False

def OPACRecord.Plain : OPACRecord Explain → Prop
  | .opacRecord bibliographicRecord holdingsData => bibliographicRecord.Plain ∧ holdingsData.Plain

def HoldingsData.Plain : HoldingsData Explain → Prop
  | .null => True
  | .cons item next => item.Plain ∧ next.Plain

def HoldingsRecord.Plain : HoldingsRecord Explain → Prop
  | .null => True
  | .marcHoldingsRecord external => external.Plain
  | .holdingsAndCirc pointer => ∀ data ∈ pointer, data.Plain

def TaskPackage.Plain : TaskPackage Explain → Prop
  | .taskPackage fields packageDiagnostics taskSpecificParameters =>
    fields.Plain ∧ packageDiagnostics.Plain ∧ taskSpecificParameters.Plain

def PackageDiagnostics.Plain : PackageDiagnostics Explain → Prop
  | .null => True
  | .cons item next => item.Plain ∧ next.Plain

def DiagRec.Plain : DiagRec Explain → Prop
  | .null => True
  | .defaultFormat pointer => ∀ format ∈ pointer, format.Plain
  | .externallyDefined external => external.Plain

def BriefBib.Plain : BriefBib Explain → Prop
  | .briefBib fields otherInfo => fields.Plain ∧ otherInfo.Plain

def OtherInformation.Plain : OtherInformation Explain → Prop
  | .null => True
  | .cons pointer which u next =>
    (∀ category ∈ pointer, category.Plain) ∧ which = .characterInfo ∧ u.Plain ∧ next.Plain

def GenericRecord.Plain : GenericRecord Explain → Prop
  | .null => True
  | .cons item next => item.Plain ∧ next.Plain

def TaggedElement.Plain : TaggedElement Explain → Prop
  | .null => True
  | .taggedElement _ tagValue _ content metaData appliedVariant =>
    (∀ value ∈ tagValue, value.Plain) ∧ content.Plain ∧ metaData.Plain ∧
      ∀ variant ∈ appliedVariant, variant.Plain

def ElementData.Plain : ElementData Explain → Prop
  | .octets text => PlainString text
  | .date text => PlainString text
  | .ext external => external.Plain
  | .string text => PlainString text
  | .oid text => PlainString text
  | .intUnit pointer => ∀ unit ∈ pointer, unit.Plain
  | .diagnostic external => external.Plain
  | .subtree tree => tree.Plain
  | _ => True

def Subtree.Plain : Subtree Explain → Prop
  | .null => True
  | .cons item next => item.Plain ∧ next.Plain

def ElementMetaData.Plain : ElementMetaData Explain → Prop
  | .null => True
  | .elementMetaData fields hits other => fields.Plain ∧ hits.Plain ∧ other.Plain

def Hits.Plain : Hits Explain → Prop
  | .null => True
  | .cons item next => item.Plain ∧ next.Plain

def HitVector.Plain : HitVector Explain → Prop
  | .null => True
  | .hitVector satisfier offsetIntoElement length _ targetToken =>
    satisfier.Plain ∧ (∀ intUnit ∈ offsetIntoElement, intUnit.Plain) ∧
      (∀ intUnit ∈ length, intUnit.Plain) ∧ PlainString targetToken

def Term.Plain : Term Explain → Prop
  | .general text => PlainString text
  | .characterString text => PlainString text
  | .oid text => PlainString text
  | .dateTime text => PlainString text
  | .external ex => ex.Plain
  | .integerAndUnit pointer => ∀ intUnit ∈ pointer, intUnit.Plain
  | _ => True

end

attribute [local simp] bind_eq_ok pointer_map_eq_iff dupOstring_eq_iff dupBstring_eq_iff
  dupOID_eq_iff dupInternationalString_eq_iff

theorem dupOther_ne {doctype : DocType} {data : AnyData Explain} (hdata : data ≠ .null) :
    dupOther doctype ≠ .ok data := by
  unfold dupOther
  split
  · simp
  · simpa using hdata.symm

theorem dupInformation_eq_iff (u : Information Explain) :
    dupInformation dupExplainRecord .characterInfo u = .ok u ↔ u.Plain := by
  rcases u with string | _ | external
  all_goals simp [dupInformation, Information.Plain]

mutual

theorem dupExternal_eq_iff (external : External Explain) :
    dupExternal dupExplainRecord external = .ok external ↔ external.Plain dupExplainRecord := by
  rcases external with _ | ⟨directReference, indirectReference, dataValueDescriptor, content⟩
  · simp [dupExternal, External.Plain]
  · have hcontent := dupExternalContent_eq_iff (getTypeExternal directReference) content
    simp [dupExternal, External.Plain, hcontent]
    tauto

theorem dupExternalContent_eq_iff (doctype : DocType) (content : ExternalContent Explain) :
    dupExternalContent dupExplainRecord doctype content = .ok content ↔
      content.Plain dupExplainRecord doctype := by
  rcases content with data | string | string
  · have hdata := dupASN1type_eq_iff doctype data
    simp [dupExternalContent, ExternalContent.Plain, hdata]
  · simp [dupExternalContent, ExternalContent.Plain]
  · simp [dupExternalContent, ExternalContent.Plain]

theorem dupASN1type_eq_iff (doctype : DocType) (data : AnyData Explain) :
    dupASN1type dupExplainRecord doctype data = .ok data ↔ data.Plain dupExplainRecord doctype := by
  rcases data with _ | record | record | ⟨item, next⟩ | record | record | octets
  · simp [dupASN1type, AnyData.Plain]
  · have hrecord := dupOPACRecord_eq_iff record
    by_cases hsyntax : doctype = .opac
    · simp [dupASN1type, AnyData.Plain, hsyntax, hrecord]
    · simp [dupASN1type, AnyData.Plain, hsyntax, dupOther_ne]
  · by_cases hsyntax : doctype = .explain
    · simp [dupASN1type, AnyData.Plain, hsyntax]
    · simp [dupASN1type, AnyData.Plain, hsyntax, dupOther_ne]
  · have hitem := dupTaggedElement_eq_iff item
    have hnext := dupGRS1Record_eq_iff next
    by_cases hsyntax : doctype = .grs1
    · simp [dupASN1type, AnyData.Plain, hsyntax, hitem, hnext]
      tauto
    · simp [dupASN1type, AnyData.Plain, hsyntax, dupOther_ne]
  · have hrecord := dupESRecord_eq_iff record
    by_cases hsyntax : doctype = .es
    · simp [dupASN1type, AnyData.Plain, hsyntax, hrecord]
    · simp [dupASN1type, AnyData.Plain, hsyntax, dupOther_ne]
  · have hrecord := dupSummaryRecord_eq_iff record
    by_cases hsyntax : doctype = .summary
    · simp [dupASN1type, AnyData.Plain, hsyntax, hrecord]
    · simp [dupASN1type, AnyData.Plain, hsyntax, dupOther_ne]
  · simp [dupASN1type, AnyData.Plain, dupOther_ne]

theorem dupOPACRecord_eq_iff (record : OPACRecord Explain) :
    dupOPACRecord dupExplainRecord record = .ok record ↔ record.Plain dupExplainRecord := by
  rcases record with ⟨bibliographicRecord, holdingsData⟩
  have hbibliographic := dupExternal_eq_iff bibliographicRecord
  have hholdings := dupHoldingsData_eq_iff holdingsData
  simp [dupOPACRecord, OPACRecord.Plain, hbibliographic, hholdings]

theorem dupHoldingsData_eq_iff (list : HoldingsData Explain) :
    dupHoldingsData dupExplainRecord list = .ok list ↔ list.Plain dupExplainRecord := by
  rcases list with _ | ⟨item, next⟩
  · simp [dupHoldingsData, HoldingsData.Plain]
  · have hitem := dupHoldingsRecord_eq_iff item
    have hnext := dupHoldingsData_eq_iff next
    simp [dupHoldingsData, HoldingsData.Plain, hitem, hnext]

theorem dupHoldingsRecord_eq_iff (record : HoldingsRecord Explain) :
    dupHoldingsRecord dupExplainRecord record = .ok record ↔ record.Plain dupExplainRecord := by
  rcases record with _ | external | pointer
  · simp [dupHoldingsRecord, HoldingsRecord.Plain]
  · have hexternal := dupExternal_eq_iff external
    simp [dupHoldingsRecord, HoldingsRecord.Plain, hexternal]
  · simp [dupHoldingsRecord, HoldingsRecord.Plain]

theorem dupESRecord_eq_iff (record : TaskPackage Explain) :
    dupESRecord dupExplainRecord record = .ok record ↔ record.Plain dupExplainRecord := by
  rcases record with ⟨fields, packageDiagnostics, taskSpecificParameters⟩
  have hdiagnostics := dupPackageDiagnostics_eq_iff packageDiagnostics
  have hparameters := dupExternal_eq_iff taskSpecificParameters
  simp [dupESRecord, TaskPackage.Plain, hdiagnostics, hparameters]
  tauto

theorem dupPackageDiagnostics_eq_iff (list : PackageDiagnostics Explain) :
    dupPackageDiagnostics dupExplainRecord list = .ok list ↔ list.Plain dupExplainRecord := by
  rcases list with _ | ⟨item, next⟩
  · simp [dupPackageDiagnostics, PackageDiagnostics.Plain]
  · have hitem := dupDiagRec_eq_iff item
    have hnext := dupPackageDiagnostics_eq_iff next
    simp [dupPackageDiagnostics, PackageDiagnostics.Plain, hitem, hnext]

theorem dupDiagRec_eq_iff (record : DiagRec Explain) :
    dupDiagRec dupExplainRecord record = .ok record ↔ record.Plain dupExplainRecord := by
  rcases record with _ | pointer | external
  · simp [dupDiagRec, DiagRec.Plain]
  · simp [dupDiagRec, DiagRec.Plain]
  · have hexternal := dupExternal_eq_iff external
    simp [dupDiagRec, DiagRec.Plain, hexternal]

theorem dupSummaryRecord_eq_iff (record : BriefBib Explain) :
    dupSummaryRecord dupExplainRecord record = .ok record ↔ record.Plain dupExplainRecord := by
  rcases record with ⟨fields, otherInfo⟩
  have hother := dupOtherInformation_eq_iff otherInfo
  simp [dupSummaryRecord, BriefBib.Plain, hother]
  tauto

theorem dupOtherInformation_eq_iff (list : OtherInformation Explain) :
    dupOtherInformation dupExplainRecord list = .ok list ↔ list.Plain dupExplainRecord := by
  rcases list with _ | ⟨pointer, which, u, next⟩
  · simp [dupOtherInformation, OtherInformation.Plain]
  · have hu := dupInformation_eq_iff dupExplainRecord u
    have hnext := dupOtherInformation_eq_iff next
    by_cases hwhich : which = .characterInfo
    · simp [dupOtherInformation, OtherInformation.Plain, hwhich, hu, hnext]
      tauto
    · simp [dupOtherInformation, OtherInformation.Plain, hwhich, Ne.symm hwhich]

theorem dupGRS1Record_eq_iff (list : GenericRecord Explain) :
    dupGRS1Record dupExplainRecord list = .ok list ↔ list.Plain dupExplainRecord := by
  rcases list with _ | ⟨item, next⟩
  · simp [dupGRS1Record, GenericRecord.Plain]
  · have hitem := dupTaggedElement_eq_iff item
    have hnext := dupGRS1Record_eq_iff next
    simp [dupGRS1Record, GenericRecord.Plain, hitem, hnext]
    tauto

theorem dupTaggedElement_eq_iff (element : TaggedElement Explain) :
    dupTaggedElement dupExplainRecord element = .ok element ↔ element.Plain dupExplainRecord := by
  rcases element with _ | ⟨tagType, tagValue, tagOccurrence, content, metaData, appliedVariant⟩
  · simp [dupTaggedElement, TaggedElement.Plain]
  · have hcontent := dupElementData_eq_iff content
    have hmetaData := dupElementMetaData_eq_iff metaData
    simp [dupTaggedElement, TaggedElement.Plain, hcontent, hmetaData]
    tauto

theorem dupElementData_eq_iff (data : ElementData Explain) :
    dupElementData dupExplainRecord data = .ok data ↔ data.Plain dupExplainRecord := by
  cases data with
  | ext external =>
    have hexternal := dupExternal_eq_iff external
    simp [dupElementData, ElementData.Plain, hexternal]
  | diagnostic external =>
    have hexternal := dupExternal_eq_iff external
    simp [dupElementData, ElementData.Plain, hexternal]
  | subtree tree =>
    have htree := dupSubtree_eq_iff tree
    simp [dupElementData, ElementData.Plain, htree]
  | _ => simp [dupElementData, ElementData.Plain]

theorem dupSubtree_eq_iff (list : Subtree Explain) :
    dupSubtree dupExplainRecord list = .ok list ↔ list.Plain dupExplainRecord := by
  rcases list with _ | ⟨item, next⟩
  · simp [dupSubtree, Subtree.Plain]
  · have hitem := dupTaggedElement_eq_iff item
    have hnext := dupSubtree_eq_iff next
    simp [dupSubtree, Subtree.Plain, hitem, hnext]

theorem dupElementMetaData_eq_iff (metaData : ElementMetaData Explain) :
    dupElementMetaData dupExplainRecord metaData = .ok metaData ↔
      metaData.Plain dupExplainRecord := by
  rcases metaData with _ | ⟨fields, hits, other⟩
  · simp [dupElementMetaData, ElementMetaData.Plain]
  · have hhits := dupHits_eq_iff hits
    have hother := dupExternal_eq_iff other
    simp [dupElementMetaData, ElementMetaData.Plain, hhits, hother]
    tauto

theorem dupHits_eq_iff (list : Hits Explain) :
    dupHits dupExplainRecord list = .ok list ↔ list.Plain dupExplainRecord := by
  rcases list with _ | ⟨item, next⟩
  · simp [dupHits, Hits.Plain]
  · have hitem := dupHitVector_eq_iff item
    have hnext := dupHits_eq_iff next
    simp [dupHits, Hits.Plain, hitem, hnext]

theorem dupHitVector_eq_iff (hit : HitVector Explain) :
    dupHitVector dupExplainRecord hit = .ok hit ↔ hit.Plain dupExplainRecord := by
  rcases hit with _ | ⟨satisfier, offsetIntoElement, length, hitRank, targetToken⟩
  · simp [dupHitVector, HitVector.Plain]
  · have hsatisfier := dupTerm_eq_iff satisfier
    simp [dupHitVector, HitVector.Plain, hsatisfier]

theorem dupTerm_eq_iff (term : Term Explain) :
    dupTerm dupExplainRecord term = .ok term ↔ term.Plain dupExplainRecord := by
  cases term with
  | external ex =>
    have hexternal := dupExternal_eq_iff ex
    simp [dupTerm, Term.Plain, hexternal]
  | _ => simp [dupTerm, Term.Plain]

end

/-- The copy of a generic record is the record exactly if the record is plain. -/
theorem copyOfRecord_eq_iff (record : GenericRecord Explain) :
    dupGRS1Record dupExplainRecord record = .ok record ↔ record.Plain dupExplainRecord :=
  dupGRS1Record_eq_iff dupExplainRecord record

end Records

/-- A record of one element, without meta-data. -/
def oneElement (content : ElementData Gstr) : GenericRecord Gstr :=
  .cons (.taggedElement 2 (some (.numeric 1)) 1 content .null none) .null

/-- The octet after the NUL is lost. -/
theorem copyOfRecord_octets :
    dupGRS1Record .ok (oneElement (.octets (some [1, 0, 2]))) =
        .ok (oneElement (.octets (some [1, 0, 0]))) ∧
      dupGRS1Record .ok (oneElement (.octets (some [1, 0, 2]))) ≠
        .ok (oneElement (.octets (some [1, 0, 2]))) := by
  have hcopy : dupGRS1Record .ok (oneElement (.octets (some [1, 0, 2]))) =
      .ok (oneElement (.octets (some [1, 0, 0]))) := rfl
  constructor
  · exact hcopy
  · rw [hcopy]
    simp [oneElement]

example : dupExternal .ok (.external none 3 (some [65]) (.arbitrary none) : External Gstr) =
    .ok (.external none 0 none (.arbitrary none)) := rfl

example : dupOtherInformation .ok (.cons none .oid (.string none) .null : OtherInformation Gstr) =
    .ok (.cons none .characterInfo (.string none) .null) := rfl

end Cheshire.Zpdu
