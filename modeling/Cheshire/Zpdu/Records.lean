import Mathlib

/-!
# Records of the protocol

The structures of the decoded protocol that a generic record can hold.  A pointer to a structure that
holds no other record is an option, and a linked list of such structures a list.  The structures that
hold each other are defined together, with a constructor `null` for each kind of pointer.  A string is
given by its octets; a choice by its alternative.
-/

namespace Cheshire.Zpdu

/-- The octets of a `GSTR`; its length is their number. -/
abbrev Gstr := List UInt8

inductive StringOrNumeric where
  | string (string : Option Gstr)
  | numeric (numeric : ℤ)

/-- `Unit` -/
structure ZUnit where
  unitSystem : Option Gstr
  unitType : Option StringOrNumeric
  unit : Option StringOrNumeric
  scaleFactor : ℤ

structure IntUnit where
  value : ℤ
  unitUsed : Option ZUnit

structure Volume where
  enumeration : Option Gstr
  chronology : Option Gstr
  enumAndChron : Option Gstr

structure CircRecord where
  availableNow : UInt8
  availablityDate : Option Gstr
  availableThru : Option Gstr
  restrictions : Option Gstr
  itemId : Option Gstr
  renewable : UInt8
  onHold : UInt8
  enumAndChron : Option Gstr
  midspine : Option Gstr
  temporaryLocation : Option Gstr

structure HoldingsAndCircData where
  typeOfRecord : Option Gstr
  encodingLevel : Option Gstr
  format : Option Gstr
  receiptAcqStatus : Option Gstr
  generalRetention : Option Gstr
  completeness : Option Gstr
  dateOfReport : Option Gstr
  nucCode : Option Gstr
  localLocation : Option Gstr
  shelvingLocation : Option Gstr
  callNumber : Option Gstr
  shelvingData : Option Gstr
  copyNumber : Option Gstr
  publicNote : Option Gstr
  reproductionNote : Option Gstr
  termsUseRepro : Option Gstr
  enumAndChron : Option Gstr
  volumes : List (Option Volume)
  circulationData : List (Option CircRecord)

/-- The `value` of a triple of a variant. -/
inductive TripleValue where
  | intVal (intVal : ℤ)
  | interStringVal (interStringVal : Option Gstr)
  | octStringVal (octStringVal : Option Gstr)
  | oidVal (oidVal : Option Gstr)
  | boolVal (boolVal : UInt8)
  | nullVal (nullVal : UInt8)
  | unit (unit : Option ZUnit)
  | valueAndUnit (valueAndUnit : Option IntUnit)

/-- `struct triples_List94` -/
structure Triple where
  variantSetId : Option Gstr
  classVar : ℤ
  type : ℤ
  value : TripleValue

structure Variant where
  globalVariantSetId : Option Gstr
  triples : List Triple

structure TagPathItem where
  tagType : ℤ
  tagValue : Option StringOrNumeric
  tagOccurrence : ℤ

structure Order where
  ascending : UInt8
  order : ℤ

structure Usage where
  type : ℤ
  restriction : Option Gstr

structure InfoCategory where
  categoryTypeId : Option Gstr
  categoryValue : ℤ

structure FormatSpec where
  type : Option Gstr
  size : ℤ
  bestPosn : ℤ

structure Permission where
  userId : Option Gstr
  allowableFunctions : List ℤ

inductive Addinfo where
  | v2Addinfo (v2Addinfo : Option Gstr)
  | v3Addinfo (v3Addinfo : Option Gstr)

structure DefaultDiagFormat where
  diagnosticSetId : Option Gstr
  condition : ℤ
  addinfo : Addinfo

/-- The fields of `BriefBib` but `otherInfo`. -/
structure BriefBibFields where
  title : Option Gstr
  author : Option Gstr
  callNumber : Option Gstr
  recordType : Option Gstr
  bibliographicLevel : Option Gstr
  format : List (Option FormatSpec)
  publicationPlace : Option Gstr
  publicationDate : Option Gstr
  targetSystemKey : Option Gstr
  satisfyingElement : Option Gstr
  rank : ℤ
  documentId : Option Gstr
  abstract : Option Gstr

/-- The fields of `TaskPackage` but `packageDiagnostics` and `taskSpecificParameters`. -/
structure TaskPackageFields where
  packageType : Option Gstr
  packageName : Option Gstr
  userId : Option Gstr
  retentionTime : Option IntUnit
  permissions : List Permission
  description : Option Gstr
  targetReference : Option Gstr
  creationDateTime : Option Gstr
  taskStatus : ℤ

/-- The fields of `ElementMetaData` but `hits` and `other`. -/
structure ElementMetaDataFields where
  seriesOrder : Option Order
  usageRight : Option Usage
  displayName : Option Gstr
  supportedVariants : List (Option Variant)
  message : Option Gstr
  elementDescriptor : Option Gstr
  surrogateFor : List TagPathItem
  surrogateElement : List TagPathItem

/-- The discriminator of the information in an `OtherInformation`. -/
inductive InformationWhich where
  | characterInfo
  | binaryInfo
  | externallyDefinedInfo
  | oid
deriving DecidableEq

mutual

/-- `External *`; `Explain` are the records of the Explain syntax. -/
inductive External (Explain : Type) where
  | null
  | external (directReference : Option Gstr) (indirectReference : ℤ)
      (dataValueDescriptor : Option Gstr) (content : ExternalContent Explain)

inductive ExternalContent (Explain : Type) where
  | singleASN1type (singleASN1type : AnyData Explain)
  | octetAligned (octetAligned : Option Gstr)
  | arbitrary (arbitrary : Option Gstr)

/-- What an `any *` points to. -/
inductive AnyData (Explain : Type) where
  | null
  | opac (record : OPACRecord Explain)
  | explain (record : Explain)
  | generic (item : TaggedElement Explain) (next : GenericRecord Explain)
  | taskPackage (record : TaskPackage Explain)
  | briefBib (record : BriefBib Explain)
  | other (octets : Gstr)

inductive OPACRecord (Explain : Type) where
  | opacRecord (bibliographicRecord : External Explain) (holdingsData : HoldingsData Explain)

/-- `struct holdingsData_List87 *` -/
inductive HoldingsData (Explain : Type) where
  | null
  | cons (item : HoldingsRecord Explain) (next : HoldingsData Explain)

inductive HoldingsRecord (Explain : Type) where
  | null
  | marcHoldingsRecord (marcHoldingsRecord : External Explain)
  | holdingsAndCirc (holdingsAndCirc : Option HoldingsAndCircData)

inductive TaskPackage (Explain : Type) where
  | taskPackage (fields : TaskPackageFields) (packageDiagnostics : PackageDiagnostics Explain)
      (taskSpecificParameters : External Explain)

/-- `struct packageDiagnostics_List95 *` -/
inductive PackageDiagnostics (Explain : Type) where
  | null
  | cons (item : DiagRec Explain) (next : PackageDiagnostics Explain)

inductive DiagRec (Explain : Type) where
  | null
  | defaultFormat (defaultFormat : Option DefaultDiagFormat)
  | externallyDefined (externallyDefined : External Explain)

inductive BriefBib (Explain : Type) where
  | briefBib (fields : BriefBibFields) (otherInfo : OtherInformation Explain)

inductive OtherInformation (Explain : Type) where
  | null
  | cons (category : Option InfoCategory) (which : InformationWhich) (u : Information Explain)
      (next : OtherInformation Explain)

/-- The pointer in the union of an `OtherInformation`: three alternatives are strings. -/
inductive Information (Explain : Type) where
  | string (string : Option Gstr)
  | external (external : External Explain)

inductive GenericRecord (Explain : Type) where
  | null
  | cons (item : TaggedElement Explain) (next : GenericRecord Explain)

inductive TaggedElement (Explain : Type) where
  | null
  | taggedElement (tagType : ℤ) (tagValue : Option StringOrNumeric) (tagOccurrence : ℤ)
      (content : ElementData Explain) (metaData : ElementMetaData Explain)
      (appliedVariant : Option Variant)

inductive ElementData (Explain : Type) where
  | null
  | octets (octets : Option Gstr)
  | numeric (numeric : ℤ)
  | date (date : Option Gstr)
  | ext (ext : External Explain)
  | string (string : Option Gstr)
  | trueOrFalse (trueOrFalse : UInt8)
  | oid (oid : Option Gstr)
  | intUnit (intUnit : Option IntUnit)
  | elementNotThere (elementNotThere : UInt8)
  | elementEmpty (elementEmpty : UInt8)
  | noDataRequested (noDataRequested : UInt8)
  | diagnostic (diagnostic : External Explain)
  | subtree (subtree : Subtree Explain)

/-- `struct subtree_List91 *` -/
inductive Subtree (Explain : Type) where
  | null
  | cons (item : TaggedElement Explain) (next : Subtree Explain)

inductive ElementMetaData (Explain : Type) where
  | null
  | elementMetaData (fields : ElementMetaDataFields) (hits : Hits Explain) (other : External Explain)

/-- `struct hits_List92 *` -/
inductive Hits (Explain : Type) where
  | null
  | cons (item : HitVector Explain) (next : Hits Explain)

inductive HitVector (Explain : Type) where
  | null
  | hitVector (satisfier : Term Explain) (offsetIntoElement : Option IntUnit)
      (length : Option IntUnit) (hitRank : ℤ) (targetToken : Option Gstr)

inductive Term (Explain : Type) where
  | null
  | general (general : Option Gstr)
  | numeric (numeric : ℤ)
  | characterString (characterString : Option Gstr)
  | oid (oid : Option Gstr)
  | dateTime (dateTime : Option Gstr)
  | external (external : External Explain)
  | integerAndUnit (integerAndUnit : Option IntUnit)
  | nullVal (nullVal : UInt8)

end

end Cheshire.Zpdu
