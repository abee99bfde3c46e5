import Cheshire.Fault
import Cheshire.Zpdu.Records

/-!
# Copying records

A copy is made structure by structure into zeroed memory; what a routine does not copy is zero in the
copy.  Null pointers are copied as null pointers, and the lists are rebuilt item by item.  Memory is
always there.  A pointer that is followed as one to another structure than it points to leaves the
defined behaviour.
-/

namespace Cheshire.Zpdu

/-- `strncpy` of all octets into zeroed memory: it stops at the first NUL. -/
def strncpyOctets (octets : Gstr) : Gstr :=
  let text := octets.takeWhile (· ≠ 0)
  text ++ List.replicate (octets.length - text.length) 0

def dupGSTR (gstr : Option Gstr) : Option Gstr := gstr.map strncpyOctets

def dupOstring (ostr : Option Gstr) : Option Gstr := dupGSTR ostr

def dupBstring (bstr : Option Gstr) : Option Gstr := dupGSTR bstr

def dupOID (id : Option Gstr) : Option Gstr := dupGSTR id

def dupInternationalString (is : Option Gstr) : Option Gstr := dupGSTR is

def dupGeneralizedTime (time : Option Gstr) : Option Gstr := dupGSTR time

def dupStringOrNumeric : StringOrNumeric → StringOrNumeric
  | .string string => .string (dupInternationalString string)
  | .numeric numeric => .numeric numeric

def dupUnit (unit : ZUnit) : ZUnit where
  unitSystem := dupInternationalString unit.unitSystem
  unitType := unit.unitType.map dupStringOrNumeric
  unit := unit.unit.map dupStringOrNumeric
  scaleFactor := unit.scaleFactor

def dupIntUnit (intUnit : IntUnit) : IntUnit where
  value := intUnit.value
  unitUsed := intUnit.unitUsed.map dupUnit

def dupVolume (volume : Volume) : Volume where
  enumeration := dupInternationalString volume.enumeration
  chronology := dupInternationalString volume.chronology
  enumAndChron := dupInternationalString volume.enumAndChron

def dupCircRecord (record : CircRecord) : CircRecord where
  availableNow := record.availableNow
  availablityDate := dupInternationalString record.availablityDate
  availableThru := dupInternationalString record.availableThru
  restrictions := dupInternationalString record.restrictions
  itemId := dupInternationalString record.itemId
  renewable := record.renewable
  onHold := record.onHold
  enumAndChron := dupInternationalString record.enumAndChron
  midspine := dupInternationalString record.midspine
  temporaryLocation := dupInternationalString record.temporaryLocation

def dupHoldingsAndCirc (data : HoldingsAndCircData) : HoldingsAndCircData where
  typeOfRecord := dupInternationalString data.typeOfRecord
  encodingLevel := dupInternationalString data.encodingLevel
  format := dupInternationalString data.format
  receiptAcqStatus := dupInternationalString data.receiptAcqStatus
  generalRetention := dupInternationalString data.generalRetention
  completeness := dupInternationalString data.completeness
  dateOfReport := dupInternationalString data.dateOfReport
  nucCode := dupInternationalString data.nucCode
  localLocation := dupInternationalString data.localLocation
  shelvingLocation := dupInternationalString data.shelvingLocation
  callNumber := dupInternationalString data.callNumber
  shelvingData := dupInternationalString data.shelvingData
  copyNumber := dupInternationalString data.copyNumber
  publicNote := dupInternationalString data.publicNote
  reproductionNote := dupInternationalString data.reproductionNote
  termsUseRepro := dupInternationalString data.termsUseRepro
  enumAndChron := dupInternationalString data.enumAndChron
  volumes := data.volumes.map (Option.map dupVolume)
  circulationData := data.circulationData.map (Option.map dupCircRecord)

def dupTripleValue : TripleValue → TripleValue
  | .intVal intVal => .intVal intVal
  | .interStringVal interStringVal => .interStringVal (dupInternationalString interStringVal)
  | .octStringVal octStringVal => .octStringVal (dupOstring octStringVal)
  | .oidVal oidVal => .oidVal (dupOID oidVal)
  | .boolVal boolVal => .boolVal boolVal
  | .nullVal nullVal => .nullVal nullVal
  | .unit unit => .unit (unit.map dupUnit)
  | .valueAndUnit valueAndUnit => .valueAndUnit (valueAndUnit.map dupIntUnit)

/-- The body of the loop of `DupVariant`. -/
def dupTriple (triple : Triple) : Triple where
  variantSetId := dupOID triple.variantSetId
  classVar := triple.classVar
  type := triple.type
  value := dupTripleValue triple.value

def dupVariant (variant : Variant) : Variant where
  globalVariantSetId := dupOID variant.globalVariantSetId
  triples := variant.triples.map dupTriple

def dupTagPathItem (item : TagPathItem) : TagPathItem where
  tagType := item.tagType
  tagValue := item.tagValue.map dupStringOrNumeric
  tagOccurrence := item.tagOccurrence

def dupTagPath (path : List TagPathItem) : List TagPathItem := path.map dupTagPathItem

def dupOrder (order : Order) : Order where
  ascending := order.ascending
  order := order.order

def dupUsage (usage : Usage) : Usage where
  type := usage.type
  restriction := dupInternationalString usage.restriction

def dupInfoCategory (category : InfoCategory) : InfoCategory where
  categoryTypeId := dupOID category.categoryTypeId
  categoryValue := category.categoryValue

def dupFormatSpec (spec : FormatSpec) : FormatSpec where
  type := dupInternationalString spec.type
  size := spec.size
  bestPosn := spec.bestPosn

def dupPermission (permission : Permission) : Permission where
  userId := dupInternationalString permission.userId
  allowableFunctions := permission.allowableFunctions

def dupPermissions (permissions : List Permission) : List Permission :=
  permissions.map dupPermission

/-- The pointer of either alternative is copied as a string. -/
def dupAddinfo : Addinfo → Addinfo
  | .v2Addinfo v2Addinfo => .v2Addinfo (dupOstring v2Addinfo)
  | .v3Addinfo v3Addinfo => .v3Addinfo (dupOstring v3Addinfo)

def dupDefaultDiagFormat (format : DefaultDiagFormat) : DefaultDiagFormat where
  diagnosticSetId := dupOID format.diagnosticSetId
  condition := format.condition
  addinfo := dupAddinfo format.addinfo

def dupBriefBibFields (fields : BriefBibFields) : BriefBibFields where
  title := dupInternationalString fields.title
  author := dupInternationalString fields.author
  callNumber := dupInternationalString fields.callNumber
  recordType := dupInternationalString fields.recordType
  bibliographicLevel := dupInternationalString fields.bibliographicLevel
  format := fields.format.map (Option.map dupFormatSpec)
  publicationPlace := dupInternationalString fields.publicationPlace
  publicationDate := dupInternationalString fields.publicationDate
  targetSystemKey := dupInternationalString fields.targetSystemKey
  satisfyingElement := dupInternationalString fields.satisfyingElement
  rank := fields.rank
  documentId := dupInternationalString fields.documentId
  abstract := dupInternationalString fields.abstract

def dupTaskPackageFields (fields : TaskPackageFields) : TaskPackageFields where
  packageType := dupOID fields.packageType
  packageName := dupInternationalString fields.packageName
  userId := dupInternationalString fields.userId
  retentionTime := fields.retentionTime.map dupIntUnit
  permissions := dupPermissions fields.permissions
  description := dupInternationalString fields.description
  targetReference := dupOstring fields.targetReference
  creationDateTime := dupGeneralizedTime fields.creationDateTime
  taskStatus := fields.taskStatus

def dupElementMetaDataFields (fields : ElementMetaDataFields) : ElementMetaDataFields where
  seriesOrder := fields.seriesOrder.map dupOrder
  usageRight := fields.usageRight.map dupUsage
  displayName := dupInternationalString fields.displayName
  supportedVariants := fields.supportedVariants.map (Option.map dupVariant)
  message := dupInternationalString fields.message
  elementDescriptor := dupOstring fields.elementDescriptor
  surrogateFor := dupTagPath fields.surrogateFor
  surrogateElement := dupTagPath fields.surrogateElement

/-- The record syntaxes of `DOCTYPE` that are told apart. -/
inductive DocType where
  | usMarc
  | opac
  | sutrs
  | sgml
  | xml
  | explain
  | grs0
  | grs1
  | es
  | summary
  | otherMarc
deriving DecidableEq

def octetsOf (string : String) : Gstr := string.toList.map fun c ↦ UInt8.ofNat c.toNat

/-- `GetTypeExternal`, of the direct reference of an external. -/
def getTypeExternal : Option Gstr → DocType
  | none => .usMarc
  | some directReference =>
    let oidString := directReference.takeWhile (· ≠ 0)
    if oidString = octetsOf "1.2.840.10003.5.10" then .usMarc
    else if oidString = octetsOf "1.2.840.10003.5.102" then .opac
    else if oidString = octetsOf "1.2.840.10003.5.101" then .sutrs
    else if oidString = octetsOf "1.2.840.10003.5.109.9" then .sgml
    else if oidString = octetsOf "1.2.840.10003.5.109.10" then .xml
    else if oidString = octetsOf "1.2.840.10003.5.100" then .explain
    else if oidString = octetsOf "1.2.840.10003.5.104" then .grs0
    else if oidString = octetsOf "1.2.840.10003.5.105" then .grs1
    else if oidString = octetsOf "1.2.840.10003.5.106" then .es
    else if oidString = octetsOf "1.2.840.10003.5.103" then .summary
    else .otherMarc

/-- `DupASN1type` of data that are not of the structure of a record of the syntax `doctype`: a
syntax without records is not copied at all. -/
def dupOther {Explain : Type} (doctype : DocType) : Exec (AnyData Explain) :=
  if doctype ∈ [.opac, .explain, .grs1, .es, .summary] then .error .outOfBounds else .ok .null

section Records

variable {Explain : Type} (dupExplainRecord : Explain → Exec Explain)

mutual

def dupExternal : External Explain → Exec (External Explain)
  | .null => .ok .null
  | .external directReference _ _ content => do
    let content ← dupExternalContent (getTypeExternal directReference) content
    .ok (.external (dupOID directReference) 0 none content)

/-- The `switch` of `DupExternal`. -/
def dupExternalContent (doctype : DocType) : ExternalContent Explain → Exec (ExternalContent Explain)
  | .singleASN1type data => do
    let data ← dupASN1type doctype data
    .ok (.singleASN1type data)
  | .octetAligned octetAligned => .ok (.octetAligned (dupOstring octetAligned))
  | .arbitrary arbitrary => .ok (.arbitrary (dupBstring arbitrary))

def dupASN1type (doctype : DocType) : AnyData Explain → Exec (AnyData Explain)
  | .null => .ok .null
  | .opac record =>
    if doctype = .opac then do
      let record ← dupOPACRecord record
      .ok (.opac record)
    else dupOther doctype
  | .explain record =>
    if doctype = .explain then do
      let record ← dupExplainRecord record
      .ok (.explain record)
    else dupOther doctype
  | .generic item next =>
    if doctype = .grs1 then do
      let next ← dupGRS1Record next
      let item ← dupTaggedElement item
      .ok (.generic item next)
    else dupOther doctype
  | .taskPackage record =>
    if doctype = .es then do
      let record ← dupESRecord record
      .ok (.taskPackage record)
    else dupOther doctype
  | .briefBib record =>
    if doctype = .summary then do
      let record ← dupSummaryRecord record
      .ok (.briefBib record)
    else dupOther doctype
  | .other _ => dupOther doctype

def dupOPACRecord : OPACRecord Explain → Exec (OPACRecord Explain)
  | .opacRecord bibliographicRecord holdingsData => do
    let bibliographicRecord ← dupExternal bibliographicRecord
    let holdingsData ← dupHoldingsData holdingsData
    .ok (.opacRecord bibliographicRecord holdingsData)

def dupHoldingsData : HoldingsData Explain → Exec (HoldingsData Explain)
  | .null => .ok .null
  | .cons item next => do
    let item ← dupHoldingsRecord item
    let next ← dupHoldingsData next
    .ok (.cons item next)

def dupHoldingsRecord : HoldingsRecord Explain → Exec (HoldingsRecord Explain)
  | .null => .ok .null
  | .marcHoldingsRecord external => do
    let external ← dupExternal external
    .ok (.marcHoldingsRecord external)
  | .holdingsAndCirc data => .ok (.holdingsAndCirc (data.map dupHoldingsAndCirc))

def dupESRecord : TaskPackage Explain → Exec (TaskPackage Explain)
  | .taskPackage fields packageDiagnostics taskSpecificParameters => do
    let packageDiagnostics ← dupPackageDiagnostics packageDiagnostics
    let taskSpecificParameters ← dupExternal taskSpecificParameters
    .ok (.taskPackage (dupTaskPackageFields fields) packageDiagnostics taskSpecificParameters)

def dupPackageDiagnostics : PackageDiagnostics Explain → Exec (PackageDiagnostics Explain)
  | .null => .ok .null
  | .cons item next => do
    let item ← dupDiagRec item
    let next ← dupPackageDiagnostics next
    .ok (.cons item next)

def dupDiagRec : DiagRec Explain → Exec (DiagRec Explain)
  | .null => .ok .null
  | .defaultFormat format => .ok (.defaultFormat (format.map dupDefaultDiagFormat))
  | .externallyDefined external => do
    let external ← dupExternal external
    .ok (.externallyDefined external)

def dupSummaryRecord : BriefBib Explain → Exec (BriefBib Explain)
  | .briefBib fields otherInfo => do
    let otherInfo ← dupOtherInformation otherInfo
    .ok (.briefBib (dupBriefBibFields fields) otherInfo)

/-- The discriminator is not copied: it is that of a character string, which is 0. -/
def dupOtherInformation : OtherInformation Explain → Exec (OtherInformation Explain)
  | .null => .ok .null
  | .cons category which u next => do
    let next ← dupOtherInformation next
    let u ← dupInformation which u
    .ok (.cons (category.map dupInfoCategory) .characterInfo u next)

/-- The `switch` of `DupOtherInformation`. -/
def dupInformation (which : InformationWhich) : Information Explain → Exec (Information Explain)
  | .string string =>
    if which = .externallyDefinedInfo ∧ string.isSome then .error .outOfBounds
    else .ok (.string (dupInternationalString string))
  | .external .null => .ok (.external .null)
  | .external (.external directReference _ _ content) =>
    if which = .externallyDefinedInfo then do
      let content ← dupExternalContent (getTypeExternal directReference) content
      .ok (.external (.external (dupOID directReference) 0 none content))
    else .error .outOfBounds

def dupGRS1Record : GenericRecord Explain → Exec (GenericRecord Explain)
  | .null => .ok .null
  | .cons item next => do
    let next ← dupGRS1Record next
    let item ← dupTaggedElement item
    .ok (.cons item next)

def dupTaggedElement : TaggedElement Explain → Exec (TaggedElement Explain)
  | .null => .ok .null
  | .taggedElement tagType tagValue tagOccurrence content metaData appliedVariant => do
    let content ← dupElementData content
    let metaData ← dupElementMetaData metaData
    .ok (.taggedElement tagType (tagValue.map dupStringOrNumeric) tagOccurrence content metaData
      (appliedVariant.map dupVariant))

def dupElementData : ElementData Explain → Exec (ElementData Explain)
  | .null => .ok .null
  | .octets octets => .ok (.octets (dupOstring octets))
  | .numeric numeric => .ok (.numeric numeric)
  | .date date => .ok (.date (dupOstring date))
  | .ext ext => do
    let ext ← dupExternal ext
    .ok (.ext ext)
  | .string string => .ok (.string (dupInternationalString string))
  | .trueOrFalse trueOrFalse => .ok (.trueOrFalse trueOrFalse)
  | .oid oid => .ok (.oid (dupOID oid))
  | .intUnit intUnit => .ok (.intUnit (intUnit.map dupIntUnit))
  | .elementNotThere elementNotThere => .ok (.elementNotThere elementNotThere)
  | .elementEmpty elementEmpty => .ok (.elementEmpty elementEmpty)
  | .noDataRequested noDataRequested => .ok (.noDataRequested noDataRequested)
  | .diagnostic diagnostic => do
    let diagnostic ← dupExternal diagnostic
    .ok (.diagnostic diagnostic)
  | .subtree subtree => do
    let subtree ← dupSubtree subtree
    .ok (.subtree subtree)

def dupSubtree : Subtree Explain → Exec (Subtree Explain)
  | .null => .ok .null
  | .cons item next => do
    let item ← dupTaggedElement item
    let next ← dupSubtree next
    .ok (.cons item next)

def dupElementMetaData : ElementMetaData Explain → Exec (ElementMetaData Explain)
  | .null => .ok .null
  | .elementMetaData fields hits other => do
    let hits ← dupHits hits
    let other ← dupExternal other
    .ok (.elementMetaData (dupElementMetaDataFields fields) hits other)

def dupHits : Hits Explain → Exec (Hits Explain)
  | .null => .ok .null
  | .cons item next => do
    let item ← dupHitVector item
    let next ← dupHits next
    .ok (.cons item next)

def dupHitVector : HitVector Explain → Exec (HitVector Explain)
  | .null => .ok .null
  | .hitVector satisfier offsetIntoElement length hitRank targetToken => do
    let satisfier ← dupTerm satisfier
    .ok (.hitVector satisfier (offsetIntoElement.map dupIntUnit) (length.map dupIntUnit) hitRank
      (dupOstring targetToken))

def dupTerm : Term Explain → Exec (Term Explain)
  | .null => .ok .null
  | .general general => .ok (.general (dupOstring general))
  | .numeric numeric => .ok (.numeric numeric)
  | .characterString string => .ok (.characterString (dupInternationalString string))
  | .oid oid => .ok (.oid (dupOID oid))
  | .dateTime dateTime => .ok (.dateTime (dupOstring dateTime))
  | .external external => do
    let external ← dupExternal external
    .ok (.external external)
  | .integerAndUnit integerAndUnit => .ok (.integerAndUnit (integerAndUnit.map dupIntUnit))
  | .nullVal nullVal => .ok (.nullVal nullVal)

end

end Records

end Cheshire.Zpdu
