import Cheshire.Zpdu.DupRecords

/-!
# Strings that are copied as they are

`strncpy` stops at the first NUL and fills up with NULs.  So a string is copied as it is exactly if
nothing but NULs follow its first NUL, and a structure without records exactly if its strings are.
-/

namespace Cheshire.Zpdu

/-- Nothing but NULs follow the first NUL. -/
def Plain (octets : Gstr) : Prop := ∀ octet ∈ octets.dropWhile (· ≠ 0), octet = 0

theorem strncpyOctets_eq_iff (octets : Gstr) : strncpyOctets octets = octets ↔ Plain octets := by
  have hsplit : octets.takeWhile (· ≠ 0) ++ octets.dropWhile (· ≠ 0) = octets :=
    List.takeWhile_append_dropWhile
  have hlength := congrArg List.length hsplit
  rw [List.length_append] at hlength
  have hcopy : strncpyOctets octets = octets.takeWhile (· ≠ 0) ++
      List.replicate (octets.dropWhile (· ≠ 0)).length 0 := by
    rw [strncpyOctets, Nat.sub_eq_of_eq_add' hlength.symm]
  constructor
  · intro hsame
    have hzeros := List.append_cancel_left ((hcopy.symm.trans hsame).trans hsplit.symm)
    exact (List.eq_replicate_iff.mp hzeros.symm).2
  · intro hplain
    have hzeros : octets.dropWhile (· ≠ 0) = List.replicate (octets.dropWhile (· ≠ 0)).length 0 :=
      List.eq_replicate_iff.mpr ⟨rfl, hplain⟩
    rw [hcopy, ← hzeros, hsplit]

def PlainString (string : Option Gstr) : Prop := ∀ octets ∈ string, Plain octets

theorem pointer_map_eq_iff {α : Type} (f : α → α) (pointer : Option α) :
    pointer.map f = pointer ↔ ∀ a ∈ pointer, f a = a := by
  cases pointer <;> simp

theorem list_map_eq_iff {α : Type} (f : α → α) (l : List α) :
    l.map f = l ↔ ∀ a ∈ l, f a = a := by
  conv_lhs => rw [← List.map_id l, List.map_map, List.map_inj_left]
  rfl

variable (string : Option Gstr)

theorem dupGSTR_eq_iff : dupGSTR string = string ↔ PlainString string := by
  rw [dupGSTR, pointer_map_eq_iff, PlainString]
  simp only [strncpyOctets_eq_iff]

theorem dupOstring_eq_iff : dupOstring string = string ↔ PlainString string :=
  dupGSTR_eq_iff string

theorem dupBstring_eq_iff : dupBstring string = string ↔ PlainString string :=
  dupGSTR_eq_iff string

theorem dupOID_eq_iff : dupOID string = string ↔ PlainString string :=
  dupGSTR_eq_iff string

theorem dupInternationalString_eq_iff :
    dupInternationalString string = string ↔ PlainString string :=
  dupGSTR_eq_iff string

theorem dupGeneralizedTime_eq_iff : dupGeneralizedTime string = string ↔ PlainString string :=
  dupGSTR_eq_iff string

attribute [local simp] pointer_map_eq_iff list_map_eq_iff dupOstring_eq_iff dupBstring_eq_iff
  dupOID_eq_iff dupInternationalString_eq_iff dupGeneralizedTime_eq_iff

def StringOrNumeric.Plain : StringOrNumeric → Prop
  | .string octets => PlainString octets
  | .numeric _ => True

@[simp]
theorem dupStringOrNumeric_eq_iff (value : StringOrNumeric) :
    dupStringOrNumeric value = value ↔ value.Plain := by
  cases value <;> simp [dupStringOrNumeric, StringOrNumeric.Plain]

def ZUnit.Plain (unit : ZUnit) : Prop :=
  PlainString unit.unitSystem ∧ (∀ value ∈ unit.unitType, value.Plain) ∧
    ∀ value ∈ unit.unit, value.Plain

@[simp]
theorem dupUnit_eq_iff (unit : ZUnit) : dupUnit unit = unit ↔ unit.Plain := by
  rcases unit with ⟨unitSystem, unitType, unit, scaleFactor⟩
  simp [dupUnit, ZUnit.Plain]

def IntUnit.Plain (intUnit : IntUnit) : Prop := ∀ unit ∈ intUnit.unitUsed, unit.Plain

@[simp]
theorem dupIntUnit_eq_iff (intUnit : IntUnit) : dupIntUnit intUnit = intUnit ↔ intUnit.Plain := by
  rcases intUnit with ⟨value, unitUsed⟩
  simp [dupIntUnit, IntUnit.Plain]

def Volume.Plain (volume : Volume) : Prop :=
  PlainString volume.enumeration ∧ PlainString volume.chronology ∧ PlainString volume.enumAndChron

@[simp]
theorem dupVolume_eq_iff (volume : Volume) : dupVolume volume = volume ↔ volume.Plain := by
  cases volume
  simp [dupVolume, Volume.Plain]

def CircRecord.strings (record : CircRecord) : List (Option Gstr) :=
  [record.availablityDate, record.availableThru, record.restrictions, record.itemId,
    record.enumAndChron, record.midspine, record.temporaryLocation]

def CircRecord.Plain (record : CircRecord) : Prop := ∀ string ∈ record.strings, PlainString string

@[simp]
theorem dupCircRecord_eq_iff (record : CircRecord) :
    dupCircRecord record = record ↔ record.Plain := by
  cases record
  simp [dupCircRecord, CircRecord.Plain, CircRecord.strings]

def HoldingsAndCircData.strings (data : HoldingsAndCircData) : List (Option Gstr) :=
  [data.typeOfRecord, data.encodingLevel, data.format, data.receiptAcqStatus,
    data.generalRetention, data.completeness, data.dateOfReport, data.nucCode, data.localLocation,
    data.shelvingLocation, data.callNumber, data.shelvingData, data.copyNumber, data.publicNote,
    data.reproductionNote, data.termsUseRepro, data.enumAndChron]

def HoldingsAndCircData.Plain (data : HoldingsAndCircData) : Prop :=
  (∀ string ∈ data.strings, PlainString string) ∧
    (∀ pointer ∈ data.volumes, ∀ volume ∈ pointer, volume.Plain) ∧
    ∀ pointer ∈ data.circulationData, ∀ record ∈ pointer, record.Plain

@[simp]
theorem dupHoldingsAndCirc_eq_iff (data : HoldingsAndCircData) :
    dupHoldingsAndCirc data = data ↔ data.Plain := by
  cases data
  simp [dupHoldingsAndCirc, HoldingsAndCircData.Plain, HoldingsAndCircData.strings, and_assoc]

def TripleValue.Plain : TripleValue → Prop
  | .interStringVal string => PlainString string
  | .octStringVal string => PlainString string
  | .oidVal string => PlainString string
  | .unit pointer => ∀ unit ∈ pointer, unit.Plain
  | .valueAndUnit pointer => ∀ intUnit ∈ pointer, intUnit.Plain
  | _ => True

@[simp]
theorem dupTripleValue_eq_iff (value : TripleValue) :
    dupTripleValue value = value ↔ value.Plain := by
  cases value <;> simp [dupTripleValue, TripleValue.Plain]

def Triple.Plain (triple : Triple) : Prop := PlainString triple.variantSetId ∧ triple.value.Plain

@[simp]
theorem dupTriple_eq_iff (triple : Triple) : dupTriple triple = triple ↔ triple.Plain := by
  cases triple
  simp [dupTriple, Triple.Plain]

def Variant.Plain (variant : Variant) : Prop :=
  PlainString variant.globalVariantSetId ∧ ∀ triple ∈ variant.triples, triple.Plain

@[simp]
theorem dupVariant_eq_iff (variant : Variant) : dupVariant variant = variant ↔ variant.Plain := by
  cases variant
  simp [dupVariant, Variant.Plain]

def TagPathItem.Plain (item : TagPathItem) : Prop := ∀ value ∈ item.tagValue, value.Plain

@[simp]
theorem dupTagPathItem_eq_iff (item : TagPathItem) : dupTagPathItem item = item ↔ item.Plain := by
  cases item
  simp [dupTagPathItem, TagPathItem.Plain]

@[simp]
theorem dupTagPath_eq_iff (path : List TagPathItem) :
    dupTagPath path = path ↔ ∀ item ∈ path, item.Plain := by
  simp [dupTagPath]

@[simp]
theorem dupOrder_eq (order : Order) : dupOrder order = order := rfl

def Usage.Plain (usage : Usage) : Prop := PlainString usage.restriction

@[simp]
theorem dupUsage_eq_iff (usage : Usage) : dupUsage usage = usage ↔ usage.Plain := by
  cases usage
  simp [dupUsage, Usage.Plain]

def InfoCategory.Plain (category : InfoCategory) : Prop := PlainString category.categoryTypeId

@[simp]
theorem dupInfoCategory_eq_iff (category : InfoCategory) :
    dupInfoCategory category = category ↔ category.Plain := by
  cases category
  simp [dupInfoCategory, InfoCategory.Plain]

def FormatSpec.Plain (spec : FormatSpec) : Prop := PlainString spec.type

@[simp]
theorem dupFormatSpec_eq_iff (spec : FormatSpec) : dupFormatSpec spec = spec ↔ spec.Plain := by
  cases spec
  simp [dupFormatSpec, FormatSpec.Plain]

def Permission.Plain (permission : Permission) : Prop := PlainString permission.userId

@[simp]
theorem dupPermissions_eq_iff (permissions : List Permission) :
    dupPermissions permissions = permissions ↔ ∀ permission ∈ permissions, permission.Plain := by
  have hitem : ∀ permission : Permission,
      dupPermission permission = permission ↔ permission.Plain := by
    rintro ⟨userId, allowableFunctions⟩
    simp [dupPermission, Permission.Plain]
  simp [dupPermissions, hitem]

def Addinfo.Plain : Addinfo → Prop
  | .v2Addinfo string => PlainString string
  | .v3Addinfo string => PlainString string

def DefaultDiagFormat.Plain (format : DefaultDiagFormat) : Prop :=
  PlainString format.diagnosticSetId ∧ format.addinfo.Plain

@[simp]
theorem dupDefaultDiagFormat_eq_iff (format : DefaultDiagFormat) :
    dupDefaultDiagFormat format = format ↔ format.Plain := by
  rcases format with ⟨diagnosticSetId, condition, addinfo⟩
  cases addinfo <;> simp [dupDefaultDiagFormat, dupAddinfo, DefaultDiagFormat.Plain, Addinfo.Plain]

def BriefBibFields.strings (fields : BriefBibFields) : List (Option Gstr) :=
  [fields.title, fields.author, fields.callNumber, fields.recordType, fields.bibliographicLevel,
    fields.publicationPlace, fields.publicationDate, fields.targetSystemKey,
    fields.satisfyingElement, fields.documentId, fields.abstract]

def BriefBibFields.Plain (fields : BriefBibFields) : Prop :=
  (∀ string ∈ fields.strings, PlainString string) ∧
    ∀ pointer ∈ fields.format, ∀ spec ∈ pointer, spec.Plain

@[simp]
theorem dupBriefBibFields_eq_iff (fields : BriefBibFields) :
    dupBriefBibFields fields = fields ↔ fields.Plain := by
  cases fields
  simp [dupBriefBibFields, BriefBibFields.Plain, BriefBibFields.strings]
  tauto

def TaskPackageFields.strings (fields : TaskPackageFields) : List (Option Gstr) :=
  [fields.packageType, fields.packageName, fields.userId, fields.description,
    fields.targetReference, fields.creationDateTime]

def TaskPackageFields.Plain (fields : TaskPackageFields) : Prop :=
  (∀ string ∈ fields.strings, PlainString string) ∧
    (∀ intUnit ∈ fields.retentionTime, intUnit.Plain) ∧
    ∀ permission ∈ fields.permissions, permission.Plain

@[simp]
theorem dupTaskPackageFields_eq_iff (fields : TaskPackageFields) :
    dupTaskPackageFields fields = fields ↔ fields.Plain := by
  cases fields
  simp [dupTaskPackageFields, TaskPackageFields.Plain, TaskPackageFields.strings]
  tauto

def ElementMetaDataFields.Plain (fields : ElementMetaDataFields) : Prop :=
  (∀ usage ∈ fields.usageRight, usage.Plain) ∧ PlainString fields.displayName ∧
    (∀ pointer ∈ fields.supportedVariants, ∀ variant ∈ pointer, variant.Plain) ∧
    PlainString fields.message ∧ PlainString fields.elementDescriptor ∧
    (∀ item ∈ fields.surrogateFor, item.Plain) ∧ ∀ item ∈ fields.surrogateElement, item.Plain

@[simp]
theorem dupElementMetaDataFields_eq_iff (fields : ElementMetaDataFields) :
    dupElementMetaDataFields fields = fields ↔ fields.Plain := by
  cases fields
  simp [dupElementMetaDataFields, ElementMetaDataFields.Plain]

end Cheshire.Zpdu
