import Cheshire.Utils.FlatElements

/-!
# The elements that are rebuilt from a flat record

Rebuilding an element gives back its offsets.  Its attributes come back as strings that were split
at the first `=`, its parent is the one the table recorded, and its start tag must name a declared
element.  `rebuiltData` says what becomes of an element, and the links of the table lead to the
tree in which every element is replaced by what became of it.
-/

namespace Cheshire.Utils

open Cheshire.Lib

theorem mapM_eq_ok_iff {ε α β : Type} {f : α → Except ε β} {g : α → β} {p : α → Prop}
    (items : List α) (h : ∀ item ∈ items, ∀ result, f item = .ok result ↔ p item ∧ result = g item)
    (results : List β) :
    items.mapM f = .ok results ↔ (∀ item ∈ items, p item) ∧ results = items.map g := by
  induction items generalizing results with
  | nil =>
    rw [List.mapM_nil]
    simp [pure, Except.pure, eq_comm]
  | cons item items ih =>
    have hhead := h item List.mem_cons_self
    have htail := ih fun other hother ↦ h other (List.mem_cons_of_mem _ hother)
    rw [List.mapM_cons]
    rcases hrun : f item with fault | value
    · have hnot : ¬ p item := fun hp ↦ by
        rw [(hhead (g item)).mpr ⟨hp, rfl⟩] at hrun
        cases hrun
      simp [bind, Except.bind, hnot]
    obtain ⟨hp, rfl⟩ := (hhead value).mp hrun
    rcases hrest : items.mapM f with fault | values
    · have hnot : ¬ ∀ other ∈ items, p other := fun hall ↦ by
        rw [(htail (items.map g)).mpr ⟨hall, rfl⟩] at hrest
        cases hrest
      simp only [bind, Except.bind, reduceCtorEq, List.mem_cons, forall_eq_or_imp, List.map_cons,
        false_iff, not_and]
      exact fun hboth ↦ absurd hboth.2 hnot
    · obtain ⟨hall, rfl⟩ := (htail values).mp hrest
      simp only [bind, Except.bind, pure, Except.pure, List.mem_cons, forall_eq_or_imp,
        List.map_cons, Except.ok.injEq]
      exact ⟨fun heq ↦ ⟨⟨hp, hall⟩, heq.symm⟩, fun hboth ↦ hboth.2.symm⟩

def rebuiltAttribute (attr : SgmlAttributeData) : SgmlAttributeData where
  name := (attributeText attr).before (· = '=')
  value := .stringVal ((attributeText attr).behind (· = '='))

/-- An attribute with a string for its value and a name without `=`. -/
def Textual (attr : SgmlAttributeData) : Prop :=
  '=' ∉ attr.name.chars ∧ ∃ text, attr.value = .stringVal text

theorem rebuiltAttribute_eq_iff (attr : SgmlAttributeData) :
    rebuiltAttribute attr = attr ↔ Textual attr := by
  constructor
  · intro h
    refine ⟨?_, (attributeText attr).behind (· = '='), congrArg SgmlAttributeData.value h.symm⟩
    have hname : (attributeText attr).before (· = '=') = attr.name :=
      congrArg SgmlAttributeData.name h
    rw [← hname]
    intro hmem
    simpa using List.mem_takeWhile_imp hmem
  · rintro ⟨hname, text, hvalue⟩
    have hchars : (attributeText attr).chars = attr.name.chars ++ '=' :: text.chars := by
      simp [attributeText, hvalue]
    have hall : ∀ c ∈ attr.name.chars, (!decide (c = '=')) = true := by
      intro c hc
      have hne : c ≠ '=' := fun heq ↦ hname (heq ▸ hc)
      simp [hne]
    have hbefore : (attributeText attr).before (· = '=') = attr.name := by
      refine CString.ext ?_
      simp only [CString.before, hchars]
      rw [List.takeWhile_append_of_pos hall]
      simp
    have hbehind : (attributeText attr).behind (· = '=') = text := by
      refine CString.ext ?_
      simp only [CString.behind, hchars]
      rw [List.dropWhile_append_of_pos hall]
      simp
    rcases attr with ⟨name, value⟩
    simp only at hvalue
    subst hvalue
    unfold rebuiltAttribute
    rw [hbefore, hbehind]

theorem readAttributes_stored (attributes : List SgmlAttributeData) (rest : List Char) :
    readAttributes attributes.length (attributesText attributes ++ rest) =
      .ok (attributes.map rebuiltAttribute) := by
  induction attributes with
  | nil => rfl
  | cons attr attributes ih =>
    have hmem : '=' ∈ (attributeText attr).chars := by simp [attributeText]
    have hread : CString.read (attributesText (attr :: attributes) ++ rest) =
        .ok (attributeText attr) := by
      rw [attributesText_cons, List.append_assoc]
      exact CString.read_stored _ _
    have hdrop : (attributesText (attr :: attributes) ++ rest).drop ((attributeText attr).length + 1) =
        attributesText attributes ++ rest := by
      rw [attributesText_cons, List.append_assoc, ← CString.length_stored, List.drop_left]
    rw [List.length_cons, readAttributes, hread, call_ok]
    simp only [bind, Except.bind, pure, Except.pure, hmem, not_true_eq_false, if_false, hdrop, ih]
    rfl

/-- Behind the first character of a start tag at `offset` stands a declared name of less than 200
characters. -/
def KnownTag (dtd : SgmlDTD) (text : CString) (offset : ℤ) : Prop :=
  0 ≤ offset + 1 ∧ ∃ name stop rest, text.chars.drop (offset + 1).toNat = name ++ stop :: rest ∧
    (∀ c ∈ name, endsTag c = false) ∧ endsTag stop = true ∧ name.length < 200 ∧ declared dtd name = true

variable {dtd : SgmlDTD}

theorem matchDtdElement_eq_ok {tagstart : List Char} :
    matchDtdElement tagstart dtd = .ok () ↔ ∃ name stop rest, tagstart = name ++ stop :: rest ∧
      (∀ c ∈ name, endsTag c = false) ∧ endsTag stop = true ∧ name.length < 200 ∧
      declared dtd name = true := by
  have hsplit := List.takeWhile_append_dropWhile (p := fun c ↦ !endsTag c) (l := tagstart)
  have hall : ∀ c ∈ tagstart.takeWhile (fun c ↦ !endsTag c), endsTag c = false := fun c hc ↦ by
    simpa using List.mem_takeWhile_imp hc
  constructor
  · intro h
    unfold matchDtdElement at h
    simp only at h
    split at h
    · cases h
    rename_i hbounds
    rw [not_or, not_le] at hbounds
    rcases hrest : tagstart.dropWhile (fun c ↦ !endsTag c) with _ | ⟨stop, rest⟩
    · rw [hrest, List.append_nil] at hsplit
      exact absurd (congrArg List.length hsplit) hbounds.1
    have hstop : endsTag stop = true := by
      have hhead := List.head?_dropWhile_not (fun c ↦ !endsTag c) tagstart
      rw [hrest] at hhead
      simpa using hhead
    refine ⟨_, stop, rest, by rw [← hrest, hsplit], hall, hstop, hbounds.2, ?_⟩
    by_contra hnot
    rw [if_neg hnot] at h
    cases h
  · rintro ⟨name, stop, rest, rfl, hname, hstop, hlength, hdeclared⟩
    have htake : (name ++ stop :: rest).takeWhile (fun c ↦ !endsTag c) = name := by
      rw [List.takeWhile_append_of_pos fun c hc ↦ by simp [hname c hc]]
      simp [hstop]
    unfold matchDtdElement
    simp only [htake]
    rw [if_neg (by simp; omega), if_pos hdeclared]

theorem knownTag_iff {text : CString} {offset : ℤ} :
    (¬ (offset + 1 < 0 ∨ text.stored.length < offset + 1) ∧
      matchDtdElement (text.stored.drop (offset + 1).toNat) dtd = .ok ()) ↔
    KnownTag dtd text offset := by
  rw [matchDtdElement_eq_ok, not_or, not_lt, not_lt]
  unfold KnownTag CString.stored
  constructor
  · rintro ⟨⟨hpos, -⟩, name, stop, rest, hdrop, hname, hstop, hlength, hdeclared⟩
    have hle : (offset + 1).toNat ≤ text.chars.length := by
      by_contra hgt
      rw [List.drop_eq_nil_of_le (by simp; omega)] at hdrop
      simp at hdrop
    rw [List.drop_append_of_le_length hle] at hdrop
    refine ⟨hpos, name, stop, rest.dropLast, ?_, hname, hstop, hlength, hdeclared⟩
    rcases List.eq_nil_or_concat rest with rfl | ⟨front, last, rfl⟩
    · have hlast := (List.append_inj' hdrop rfl).2
      rw [← (List.cons.inj hlast).1] at hstop
      exact absurd hstop (by decide)
    · have hdrop' : text.chars.drop (offset + 1).toNat ++ [nul] =
          (name ++ stop :: front) ++ [last] := by
        rw [hdrop]
        simp
      rw [(List.append_inj' hdrop' rfl).1]
      simp
  · rintro ⟨hpos, name, stop, rest, hdrop, hname, hstop, hlength, hdeclared⟩
    have hle : (offset + 1).toNat ≤ text.chars.length := by
      by_contra hgt
      rw [List.drop_eq_nil_of_le (by omega)] at hdrop
      simp at hdrop
    refine ⟨⟨hpos, by simp; omega⟩, name, stop, rest ++ [nul], ?_, hname, hstop, hlength, hdeclared⟩
    rw [List.drop_append_of_le_length hle, hdrop]
    simp

/-- What becomes of the element at place `i` in the first pass. -/
def rebuiltData (all : List SgmlData) (i : ℕ) (dat : SgmlData) : SgmlData :=
  { dat with
    attributes := dat.attributes.map rebuiltAttribute
    processingInstr := []
    parent := if 0 < i then some (recordedParent all i dat.parent) else none }

/-- The parent of the element at place `i` is found when the record is made: the first element has
none, and between the start of the table and the parent every element has a content offset. -/
def ParentFound (all : List SgmlData) (i : ℕ) (parent : Option ℕ) : Prop :=
  if i = 0 then parent = none
  else ∃ place, parent = some place ∧
    (place = 0 ∨ place ≤ i ∧ ∀ j ≤ place, contentStart all j ≠ 0)

theorem parentFound_iff (all : List SgmlData) (i : ℕ) (parent : Option ℕ) :
    (if 0 < i then some (recordedParent all i parent) else none) = parent ↔
      ParentFound all i parent := by
  unfold ParentFound
  by_cases hi : i = 0
  · simp [hi, eq_comm]
  rw [if_pos (by omega), if_neg hi]
  rcases parent with _ | place
  · simp
  simp only [recordedParent, Option.some.injEq, exists_eq_left']
  by_cases hfound : place ≤ i ∧ ∀ j ≤ place, contentStart all j ≠ 0
  · rw [if_pos hfound]
    exact ⟨fun _ ↦ Or.inr hfound, fun _ ↦ rfl⟩
  · rw [if_neg hfound]
    simp only [hfound, or_false]
    exact eq_comm

/-- An element with processing flags of its own. -/
def Flagged (dat : SgmlData) : Prop :=
  0 < dat.processingFlags ∧ dat.processingFlags ≠ PROC_FLAG_IN_CHILD

instance (dat : SgmlData) : Decidable (Flagged dat) := inferInstanceAs (Decidable (_ ∧ _))

/-- The processing instructions that an element gets back: of those of the document, the last one
whose tag begins the start tag. -/
def keptInstructions (instructions : List ProcessingInst) (text : List Char) (dat : SgmlData) :
    List ProcessingInst :=
  if Flagged dat then
    (instructions.filter fun pi ↦
      pi.tag.any (beginsStartTag (text.drop (dat.startTagOffset + 1).toNat))).getLast?.toList
  else []

/-- What becomes of the element at place `i`. -/
def linkedData (instructions : List ProcessingInst) (text : List Char) (all : List SgmlData)
    (i : ℕ) (dat : SgmlData) : SgmlData :=
  { rebuiltData all i dat with processingInstr := keptInstructions instructions text dat }

theorem linkedData_eq_iff (instructions : List ProcessingInst) (text : List Char)
    (all : List SgmlData) (i : ℕ) (dat : SgmlData) :
    linkedData instructions text all i dat = dat ↔
      (∀ attr ∈ dat.attributes, Textual attr) ∧ ParentFound all i dat.parent ∧
        dat.processingInstr = keptInstructions instructions text dat := by
  have hmap : dat.attributes.map rebuiltAttribute = dat.attributes ↔
      ∀ attr ∈ dat.attributes, Textual attr := by
    have hself : dat.attributes.map rebuiltAttribute = dat.attributes.map id ↔
        ∀ attr ∈ dat.attributes, rebuiltAttribute attr = attr := List.map_inj_left
    rw [List.map_id] at hself
    rw [hself]
    exact forall₂_congr fun attr _ ↦ rebuiltAttribute_eq_iff attr
  rw [← hmap, ← parentFound_iff]
  generalize hkept : keptInstructions instructions text dat = kept
  rw [linkedData, rebuiltData, hkept]
  rcases dat with ⟨_, _, _, _, _, _, _, _, attributes, processingInstr, parent⟩
  simp only [SgmlData.mk.injEq, true_and]
  rw [and_comm (a := _ = parent), eq_comm (a := kept)]

theorem dupInstructions_eq_ok (startTag : List Char) (instructions found : List ProcessingInst)
    (result : List ProcessingInst) :
    dupInstructions startTag instructions found = .ok result ↔
      (∀ pi ∈ instructions, pi.tag ≠ none) ∧
        result = ((instructions.filter fun pi ↦
          pi.tag.any (beginsStartTag startTag)).getLast?.map ([·])).getD found := by
  induction instructions generalizing found with
  | nil => simp [dupInstructions, eq_comm]
  | cons pi instructions ih =>
    rcases htag : pi.tag with _ | tag
    · rw [dupInstructions, htag]
      simp [deref, bind, Except.bind, htag]
    rw [dupInstructions, htag]
    simp only [deref, bind, Except.bind, ih, List.forall_mem_cons, htag, ne_eq, reduceCtorEq,
      not_false_eq_true, true_and]
    refine and_congr_right fun _ ↦ ?_
    by_cases hbegins : beginsStartTag startTag tag = true
    · rw [if_pos hbegins, List.filter_cons_of_pos (by simp [htag, hbegins]), List.getLast?_cons]
      rcases (instructions.filter _).getLast? with _ | last
      · rfl
      · rfl
    · rw [if_neg hbegins, List.filter_cons_of_neg (by simp [htag, hbegins])]

theorem linkInstructions_eq_ok (instructions : List ProcessingInst) (text : List Char)
    (all : List SgmlData) (i : ℕ) (dat result : SgmlData) :
    linkInstructions instructions text (rebuiltData all i dat) = .ok result ↔
      (Flagged dat → ∀ pi ∈ instructions, pi.tag ≠ none) ∧
        result = linkedData instructions text all i dat := by
  unfold linkInstructions linkedData keptInstructions
  by_cases hflagged : Flagged dat
  · have hrebuilt : 0 < (rebuiltData all i dat).processingFlags ∧
        (rebuiltData all i dat).processingFlags ≠ PROC_FLAG_IN_CHILD := hflagged
    have hlast : ∀ last : Option ProcessingInst, (last.map ([·])).getD [] = last.toList := by
      rintro (_ | last)
      · rfl
      · rfl
    have hfound := dupInstructions_eq_ok (text.drop (dat.startTagOffset + 1).toNat) instructions []
    simp only [hlast] at hfound
    rw [if_pos hrebuilt, if_pos hflagged, bind_eq_ok]
    simp only [hflagged, true_imp_iff]
    constructor
    · rintro ⟨found, hdup, hrun⟩
      obtain ⟨htags, rfl⟩ := (hfound found).mp hdup
      exact ⟨htags, (Except.ok.inj hrun).symm⟩
    · rintro ⟨htags, rfl⟩
      exact ⟨_, (hfound _).mpr ⟨htags, rfl⟩, rfl⟩
  · have hrebuilt : ¬ (0 < (rebuiltData all i dat).processingFlags ∧
        (rebuiltData all i dat).processingFlags ≠ PROC_FLAG_IN_CHILD) := hflagged
    rw [if_neg hrebuilt, if_neg hflagged]
    simp only [hflagged, false_imp_iff, true_and]
    exact ⟨fun h ↦ (Except.ok.inj h).symm, fun h ↦ by rw [h]; rfl⟩

variable {all : List SgmlData}

theorem rebuildElement_eq_ok {record : OutputRecord} {area : List Char} {text : CString} {i : ℕ}
    {dat : SgmlData} (hentry : EntryOf all record.headerSize area (record.sdata i) dat i)
    (result : SgmlData) : rebuildElement record area text.stored dtd i = .ok result ↔
      KnownTag dtd text dat.startTagOffset ∧ result = rebuiltData all i dat := by
  have hattributes : readAttributes (record.sdata i).nAttr
      (area.drop ((record.sdata i).attrStartOffset - record.headerSize)) =
        .ok (dat.attributes.map rebuiltAttribute) := by
    rw [hentry.nAttr]
    by_cases hnil : dat.attributes = []
    · rw [hnil]
      rfl
    · obtain ⟨before, after, hwritten, hstart⟩ := hentry.attributes hnil
      rw [hstart, Nat.add_sub_cancel_left, hwritten, List.append_assoc, List.drop_left]
      exact readAttributes_stored dat.attributes after
  have hresult : rebuiltData all i dat =
      { startTagOffset := (record.sdata i).startTagOffset
        contentStartOffset := (record.sdata i).contentStartOffset
        contentEndOffset := (record.sdata i).contentEndOffset
        endTagOffset := (record.sdata i).endTagOffset
        dataEndOffset := (record.sdata i).dataEndOffset
        processingFlags := (record.sdata i).processingFlags
        dataElementId := (record.sdata i).dataElementId
        occurrenceNo := (record.sdata i).occurrenceNo
        attributes := dat.attributes.map rebuiltAttribute
        processingInstr := []
        parent := if 0 < i then some (record.sdata i).parent else none } := by
    rw [hentry.startTagOffset, hentry.contentStartOffset, hentry.contentEndOffset,
      hentry.endTagOffset, hentry.dataEndOffset, hentry.processingFlags, hentry.dataElementId,
      hentry.occurrenceNo]
    unfold rebuiltData
    by_cases hi : 0 < i
    · rw [if_pos hi, if_pos hi, hentry.parent hi]
    · rw [if_neg hi, if_neg hi]
  rw [← knownTag_iff, hresult]
  unfold rebuildElement
  simp only [hentry.startTagOffset]
  by_cases hbounds : dat.startTagOffset + 1 < 0 ∨ text.stored.length < dat.startTagOffset + 1
  · rw [if_pos hbounds]
    exact ⟨fun h ↦ (nomatch h), fun h ↦ absurd hbounds h.1.1⟩
  rw [if_neg hbounds, stop_bind_eq_ok]
  simp only [hattributes]
  constructor
  · rintro ⟨⟨⟩, hmatch, hrest⟩
    exact ⟨⟨hbounds, hmatch⟩, (Except.ok.inj hrest).symm⟩
  · rintro ⟨⟨-, hmatch⟩, rfl⟩
    exact ⟨(), hmatch, rfl⟩

/-- A tree with every element changed according to its place. -/
def SgmlTree.relabel (change : ℕ → SgmlData → SgmlData) : SgmlTree → ℕ → SgmlTree
  | .null, _ => .null
  | .element dat sub next, b =>
    .element (change b dat) (sub.relabel change (b + 1))
      (next.relabel change (b + 1 + sub.nodes.length))

theorem SgmlTree.relabel_eq_iff (change : ℕ → SgmlData → SgmlData) (tree : SgmlTree) (b : ℕ) :
    tree.relabel change b = tree ↔
      ∀ k dat, tree.nodes[k]? = some dat → change (b + k) dat = dat := by
  induction tree generalizing b with
  | null => simp [relabel, nodes]
  | element dat sub next ihSub ihNext =>
    simp only [relabel, nodes, SgmlTree.element.injEq, ihSub, ihNext]
    constructor
    · rintro ⟨hself, hsub, hnext⟩ k other hk
      rcases k with _ | k
      · simp only [List.getElem?_cons_zero, Option.some.injEq] at hk
        rw [← hk]
        exact hself
      rw [List.getElem?_cons_succ] at hk
      by_cases hlt : k < sub.nodes.length
      · rw [List.getElem?_append_left hlt] at hk
        rw [show b + (k + 1) = b + 1 + k by omega]
        exact hsub k other hk
      · rw [List.getElem?_append_right (by omega)] at hk
        have h := hnext (k - sub.nodes.length) other hk
        rwa [show b + 1 + sub.nodes.length + (k - sub.nodes.length) = b + (k + 1) by omega] at h
    · intro hall
      refine ⟨hall 0 dat rfl, fun k other hk ↦ ?_, fun k other hk ↦ ?_⟩
      · have hlt : k < sub.nodes.length := (List.getElem?_eq_some_iff.mp hk).1
        have h := hall (k + 1) other (by
          rw [List.getElem?_cons_succ, List.getElem?_append_left hlt]
          exact hk)
        rwa [show b + (k + 1) = b + 1 + k by omega] at h
      · have h := hall (sub.nodes.length + k + 1) other (by
          rw [List.getElem?_cons_succ, List.getElem?_append_right (by omega)]
          simpa using hk)
        rwa [show b + (sub.nodes.length + k + 1) = b + 1 + sub.nodes.length + k by omega] at h

theorem Described.entry {headerSize : ℕ} {written : List Char} {sdata : ℕ → SdataInfo}
    {tree : SgmlTree} {b : ℕ} (h : Described all headerSize written sdata tree b) {k : ℕ}
    {dat : SgmlData} (hk : tree.nodes[k]? = some dat) :
    EntryOf all headerSize written (sdata (b + k)) dat (b + k) := by
  induction tree generalizing b k with
  | null => simp [SgmlTree.nodes] at hk
  | element first sub next ihSub ihNext =>
    obtain ⟨hentry, -, -, hsub, hnext⟩ := h
    rw [SgmlTree.nodes] at hk
    rcases k with _ | k
    · simp only [List.getElem?_cons_zero, Option.some.injEq] at hk
      rw [← hk]
      exact hentry
    rw [List.getElem?_cons_succ] at hk
    by_cases hlt : k < sub.nodes.length
    · rw [List.getElem?_append_left hlt] at hk
      have h := ihSub hsub hk
      rwa [show b + 1 + k = b + (k + 1) by omega] at h
    · rw [List.getElem?_append_right (by omega)] at hk
      have h := ihNext hnext hk
      rwa [show b + 1 + sub.nodes.length + (k - sub.nodes.length) = b + (k + 1) by omega] at h

theorem linkedTree_eq {headerSize : ℕ} {written : List Char} {sdata : ℕ → SdataInfo}
    {change : ℕ → SgmlData → SgmlData} {elements : List SgmlData} {tree : SgmlTree} {b : ℕ}
    (h : Described all headerSize written sdata tree b)
    (helements : ∀ k dat, tree.nodes[k]? = some dat → elements[b + k]? = some (change (b + k) dat))
    {fuel : ℕ} (hfuel : tree.nodes.length < fuel) :
    linkedTree sdata elements fuel (if tree = .null then none else some b) =
      tree.relabel change b := by
  obtain ⟨fuel, rfl⟩ : ∃ rest, fuel = rest + 1 := ⟨fuel - 1, by omega⟩
  induction tree generalizing b fuel with
  | null => rfl
  | element dat sub next ihSub ihNext =>
    obtain ⟨-, hsubdata, hnextdata, hsub, hnext⟩ := h
    simp only [SgmlTree.nodes, List.length_cons, List.length_append] at hfuel
    obtain ⟨fuel, rfl⟩ : ∃ rest, fuel = rest + 1 := ⟨fuel - 1, by omega⟩
    have hself : elements[b]? = some (change b dat) := helements 0 dat rfl
    have hsubLink : (if 0 < (sdata b).subdata then some (sdata b).subdata else none) =
        if sub = .null then none else some (b + 1) := by
      rw [hsubdata]
      by_cases hnull : sub = .null
      · simp [hnull]
      · simp [hnull]
    have hnextLink : (if 0 < (sdata b).nextdata then some (sdata b).nextdata else none) =
        if next = .null then none else some (b + 1 + sub.nodes.length) := by
      rw [hnextdata]
      by_cases hnull : next = .null
      · simp [hnull]
      · rw [if_neg hnull, if_neg hnull, if_pos (by omega)]
    rw [if_neg (by simp), linkedTree]
    simp only [hself]
    rw [hsubLink, hnextLink, SgmlTree.relabel]
    congr 1
    · refine ihSub hsub (fun k other hk ↦ ?_) fuel (by omega)
      have hlt : k < sub.nodes.length := (List.getElem?_eq_some_iff.mp hk).1
      have h := helements (k + 1) other (by
        rw [SgmlTree.nodes, List.getElem?_cons_succ, List.getElem?_append_left hlt]
        exact hk)
      rwa [show b + (k + 1) = b + 1 + k by omega] at h
    · refine ihNext hnext (fun k other hk ↦ ?_) fuel (by omega)
      have h := helements (sub.nodes.length + k + 1) other (by
        rw [SgmlTree.nodes, List.getElem?_cons_succ, List.getElem?_append_right (by omega)]
        simpa using hk)
      rwa [show b + (sub.nodes.length + k + 1) = b + 1 + sub.nodes.length + k by omega] at h

end Cheshire.Utils
