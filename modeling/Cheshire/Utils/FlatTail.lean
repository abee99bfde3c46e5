import Cheshire.Utils.FlatElements

/-!
# Processing instructions and tags in a flat record

A processing instruction takes 408 characters, whatever its strings are, so its strings must fit
their members.  The entry of a tag has no fixed size: behind the name stand the places of its
elements, each behind a blank, and the character before the name is meant to lead over the first of
these blanks.  It does if the name has at most 125 characters and a blank is there at all.
-/

namespace Cheshire.Utils

open Cheshire.Lib

variable {n : ℕ}

theorem toNat_ofNat_of_lt (hn : n < 256) : (Char.ofNat n).toNat = n := by
  have hvalid : n.isValidChar := Or.inl (by omega)
  unfold Char.ofNat
  rw [dif_pos hvalid]
  rfl

/-- The characters of a member of `size` characters. -/
def memberText (size : ℕ) : Option CString → List Char
  | none => List.replicate size nul
  | some text => text.stored ++ List.replicate (size - text.length - 1) nul

/-- A string that leaves room for its NUL in a member of `size` characters. -/
def FitsMember (size : ℕ) (text : Option CString) : Prop := ∀ chars ∈ text, chars.length < size

theorem strcpyMember_spec (size : ℕ) (text : Option CString) :
    Guarded (FitsMember size text) (strcpyMember size text) (· = memberText size text) := by
  rcases text with _ | text
  · exact Guarded.pure (fun chars hmem ↦ by cases hmem) rfl
  · by_cases hfits : text.length < size
    · unfold strcpyMember
      simp only [if_pos hfits]
      exact Guarded.pure (fun chars hmem ↦ by cases hmem; exact hfits) rfl
    · unfold strcpyMember
      simp only [if_neg hfits]
      exact Or.inr ⟨fun h ↦ hfits (h text rfl), rfl⟩

theorem length_memberText {size : ℕ} {text : Option CString} (hfits : FitsMember size text) :
    (memberText size text).length = size := by
  rcases text with _ | text
  · simp [memberText]
  · have hlt := hfits text rfl
    simp only [memberText, List.length_append, CString.length_stored, List.length_replicate]
    omega

/-- Where a string is empty, its member reads as no string at all. -/
def withoutEmpty (text : Option CString) : Option CString := text.filter fun chars ↦ 0 < chars.length

theorem withoutEmpty_eq_iff (text : Option CString) :
    withoutEmpty text = text ↔ text ≠ some CString.empty := by
  rcases text with _ | text
  · simp [withoutEmpty]
  have hempty : text.length = 0 ↔ text = CString.empty := by
    rw [CString.length, List.length_eq_zero_iff]
    exact ⟨fun h ↦ CString.ext h, fun h ↦ h ▸ rfl⟩
  by_cases hzero : text.length = 0
  · simp [withoutEmpty, hempty.mp hzero, CString.empty, CString.length]
  · have hne : text ≠ CString.empty := fun h ↦ hzero (hempty.mpr h)
    simp [withoutEmpty, hne, Nat.pos_of_ne_zero hzero]

theorem readMember_memberText {size : ℕ} (hsize : 0 < size) (text : Option CString)
    (rest : List Char) : readMember (memberText size text ++ rest) = .ok (withoutEmpty text) := by
  unfold readMember
  rcases text with _ | text
  · obtain ⟨size, rfl⟩ : ∃ n, size = n + 1 := ⟨size - 1, by omega⟩
    have hread : CString.read (memberText (size + 1) none ++ rest) = .ok CString.empty :=
      CString.read_stored CString.empty (List.replicate size nul ++ rest)
    rw [hread]
    rfl
  · rw [memberText, List.append_assoc, CString.read_stored]
    by_cases hpos : 0 < text.length
    · simp [bind, Except.bind, pure, Except.pure, withoutEmpty, hpos, Option.filter]
    · simp [bind, Except.bind, pure, Except.pure, withoutEmpty, hpos, Option.filter]

theorem readInt_intBytes (value : BitVec 32) (rest : List Char) :
    readInt (intBytes value ++ rest) = value := by
  have hlt : value.toNat < 4294967296 := value.isLt
  have h₀ := toNat_ofNat_of_lt (n := value.toNat % 256) (by omega)
  have h₁ := toNat_ofNat_of_lt (n := value.toNat / 256 % 256) (by omega)
  have h₂ := toNat_ofNat_of_lt (n := value.toNat / 65536 % 256) (by omega)
  have h₃ := toNat_ofNat_of_lt (n := value.toNat / 16777216) (by omega)
  have hsum : value.toNat % 256 + 256 * (value.toNat / 256 % 256 +
      256 * (value.toNat / 65536 % 256 + 256 * (value.toNat / 16777216 + 256 * 0))) =
        value.toNat := by
    omega
  unfold readInt intBytes
  simp only [List.cons_append, List.nil_append, List.take_succ_cons, List.take_zero,
    List.foldr_cons, List.foldr_nil, h₀, h₁, h₂, h₃, hsum]
  exact BitVec.ofNat_toNat .. |>.trans (BitVec.setWidth_eq value)

/-- The strings of a processing instruction fit its members. -/
def FitsInstruction (pi : ProcessingInst) : Prop :=
  FitsMember 100 pi.tag ∧ FitsMember 100 pi.attr ∧ FitsMember 200 pi.indexName

def instructionText (pi : ProcessingInst) : List Char :=
  intBytes pi.instructionType ++ intBytes pi.instruction ++ memberText 100 pi.tag ++
    memberText 100 pi.attr ++ memberText 200 pi.indexName

theorem length_instructionText {pi : ProcessingInst} (hfits : FitsInstruction pi) :
    (instructionText pi).length = sizeofPiInfo := by
  simp [instructionText, intBytes, length_memberText hfits.1, length_memberText hfits.2.1,
    length_memberText hfits.2.2, sizeofPiInfo]

theorem piInfo_spec (pi : ProcessingInst) :
    Guarded (FitsInstruction pi) (piInfo pi) (· = instructionText pi) := by
  unfold piInfo
  refine (strcpyMember_spec 100 pi.tag).bind (fun h ↦ h.1) ?_
  rintro _ htag rfl
  refine (strcpyMember_spec 100 pi.attr).bind (fun h ↦ h.2.1) ?_
  rintro _ hattr rfl
  refine (strcpyMember_spec 200 pi.indexName).bind (fun h ↦ h.2.2) ?_
  rintro _ hindexName rfl
  exact Guarded.pure ⟨htag, hattr, hindexName⟩ rfl

def rebuiltInstruction (pi : ProcessingInst) : ProcessingInst :=
  { pi with
    tag := withoutEmpty pi.tag
    attr := withoutEmpty pi.attr
    indexName := withoutEmpty pi.indexName }

theorem rebuiltInstruction_eq_iff (pi : ProcessingInst) :
    rebuiltInstruction pi = pi ↔
      pi.tag ≠ some CString.empty ∧ pi.attr ≠ some CString.empty ∧
        pi.indexName ≠ some CString.empty := by
  rw [← withoutEmpty_eq_iff, ← withoutEmpty_eq_iff, ← withoutEmpty_eq_iff]
  unfold rebuiltInstruction
  rcases pi with ⟨_, _, tag, attr, indexName⟩
  simp

theorem readInstruction_stored {pi : ProcessingInst} (hfits : FitsInstruction pi)
    (rest : List Char) :
    readInstruction (instructionText pi ++ rest) = .ok (rebuiltInstruction pi) := by
  obtain ⟨htag, hattr, -⟩ := hfits
  have htype : (instructionText pi ++ rest) = intBytes pi.instructionType ++
      (intBytes pi.instruction ++ (memberText 100 pi.tag ++ (memberText 100 pi.attr ++
        (memberText 200 pi.indexName ++ rest)))) := by
    simp [instructionText]
  have hlength : ∀ value : BitVec 32, (intBytes value).length = 4 := fun _ ↦ rfl
  have hdrop : ∀ (first others : List Char) (n : ℕ), first.length = n →
      (first ++ others).drop n = others := by
    rintro first others n rfl
    exact List.drop_left
  have hinstruction := hdrop (intBytes pi.instructionType) (intBytes pi.instruction ++
    (memberText 100 pi.tag ++ (memberText 100 pi.attr ++ (memberText 200 pi.indexName ++ rest)))) 4
      (hlength _)
  have hdropTag := hdrop (intBytes pi.instruction) (memberText 100 pi.tag ++
    (memberText 100 pi.attr ++ (memberText 200 pi.indexName ++ rest))) 4 (hlength _)
  have hdropAttr := hdrop (memberText 100 pi.tag)
    (memberText 100 pi.attr ++ (memberText 200 pi.indexName ++ rest)) 100 (length_memberText htag)
  have hdropIndex := hdrop (memberText 100 pi.attr) (memberText 200 pi.indexName ++ rest) 100
    (length_memberText hattr)
  unfold readInstruction
  rw [htype, show 208 = 4 + 4 + 100 + 100 by rfl, show 108 = 4 + 4 + 100 by rfl,
    show 8 = 4 + 4 by rfl]
  simp only [← List.drop_drop, hinstruction, hdropTag, hdropAttr, hdropIndex, readInt_intBytes,
    readMember_memberText (show 0 < 100 by decide), readMember_memberText (show 0 < 200 by decide)]
  rfl

variable {record : OutputRecord}

theorem storeInstructions_spec {room : ℕ} (instructions : List ProcessingInst) {out : List Char}
    (hholds : Buffer.Holds nul room record.area out) :
    Guarded ((∀ pi ∈ instructions, FitsInstruction pi) ∧
        out.length + instructions.length * sizeofPiInfo ≤ room)
      (storeInstructions instructions out.length record) fun record' ↦
      ∃ area, record' = { record with area } ∧
        Buffer.Holds nul room area (out ++ instructions.flatMap instructionText) := by
  induction instructions generalizing record out with
  | nil =>
    refine Guarded.pure ⟨by simp, by simpa using hholds.length_le⟩ ⟨record.area, rfl, ?_⟩
    simpa using hholds
  | cons pi instructions ih =>
    rw [storeInstructions]
    refine (piInfo_spec pi).bind (fun h ↦ h.1 pi List.mem_cons_self) ?_
    rintro _ hfits rfl
    have hlength := length_instructionText hfits
    refine (write_spec hholds (instructionText pi)).bind (fun h ↦ ?_) ?_
    · have := h.2
      rw [List.length_cons, Nat.succ_mul] at this
      omega
    rintro _ - ⟨area, rfl, harea⟩
    have hrest := @ih { record with area } _ harea
    rw [List.length_append, hlength] at hrest
    refine hrest.imp ?_ ?_
    · rw [List.forall_mem_cons, List.length_cons, Nat.succ_mul]
      exact ⟨fun h ↦ ⟨⟨hfits, h.1⟩, by omega⟩, fun h ↦ ⟨h.1.2, by omega⟩⟩
    · rintro _ ⟨area', rfl, harea'⟩
      refine ⟨area', rfl, ?_⟩
      rw [List.flatMap_cons, ← List.append_assoc]
      exact harea'

theorem readInstructions_stored {instructions : List ProcessingInst}
    (hfits : ∀ pi ∈ instructions, FitsInstruction pi) (rest : List Char) :
    readInstructions instructions.length (instructions.flatMap instructionText ++ rest) =
      .ok (instructions.map rebuiltInstruction) := by
  induction instructions with
  | nil => rfl
  | cons pi instructions ih =>
    have hpi := hfits pi List.mem_cons_self
    have hdrop : ((pi :: instructions).flatMap instructionText ++ rest).drop sizeofPiInfo =
        instructions.flatMap instructionText ++ rest := by
      rw [List.flatMap_cons, List.append_assoc, ← length_instructionText hpi, List.drop_left]
    have hread : readInstruction ((pi :: instructions).flatMap instructionText ++ rest) =
        .ok (rebuiltInstruction pi) := by
      rw [List.flatMap_cons, List.append_assoc]
      exact readInstruction_stored hpi _
    rw [List.length_cons, readInstructions, hread, hdrop,
      ih fun other hother ↦ hfits other (List.mem_cons_of_mem _ hother)]
    rfl

def placesText (items : List ℕ) : List Char := items.flatMap fun item ↦ ' ' :: decimal item

/-- The entry of a tag in a record of `n` elements. -/
def tagEntry (n : ℕ) (tag : CString × List ℕ) : List Char :=
  Char.ofNat ((tag.1.length + 2) % 256) :: tag.1.stored ++ placesText (tag.2.filter (· < n)) ++ [nul]

theorem indexText_eq (hdata : ∀ i < n, (record.sdata i).data = some i) (item : ℕ) :
    indexText record n item = if item < n then ' ' :: decimal item else [] := by
  unfold indexText
  have hmap : ∀ m ≤ n, ((List.range m).flatMap fun ptrIndex ↦
      if (record.sdata ptrIndex).data = some item then ' ' :: decimal ptrIndex else []) =
        if item < m then ' ' :: decimal item else [] := by
    intro m hm
    induction m with
    | zero => rfl
    | succ m ih =>
      rw [List.range_succ, List.flatMap_append, ih (by omega), List.flatMap_singleton,
        hdata m (by omega)]
      rcases Nat.lt_trichotomy item m with hlt | rfl | hgt
      · rw [if_pos hlt, if_neg (by simp; omega), if_pos (by omega), List.append_nil]
      · simp
      · rw [if_neg (by omega), if_neg (by simp; omega), if_neg (by omega)]
        rfl
  exact hmap n le_rfl

theorem tagText_eq (hdata : ∀ i < n, (record.sdata i).data = some i) (tag : CString × List ℕ) :
    tagText record n tag = tagEntry n tag := by
  have hplaces : tag.2.flatMap (indexText record n) = placesText (tag.2.filter (· < n)) := by
    unfold placesText
    induction tag.2 with
    | nil => rfl
    | cons item items ih =>
      rw [List.flatMap_cons, ih, indexText_eq hdata]
      by_cases hitem : item < n
      · simp [hitem]
      · simp [hitem]
  rw [tagText, tagEntry, hplaces]

theorem storeTags_spec {room n : ℕ} (tags : List (CString × List ℕ)) {record : OutputRecord}
    {out : List Char} (hholds : Buffer.Holds nul room record.area out)
    (hdata : ∀ i < n, (record.sdata i).data = some i) :
    Guarded (out.length + (tags.flatMap (tagEntry n)).length ≤ room)
      (storeTags n tags out.length record) fun result ↦
      result.2 = (out ++ tags.flatMap (tagEntry n)).length ∧
        ∃ area, result.1 = { record with area, hashTagCount := record.hashTagCount + tags.length } ∧
          Buffer.Holds nul room area (out ++ tags.flatMap (tagEntry n)) := by
  induction tags generalizing record out with
  | nil =>
    refine Guarded.pure (by simpa using hholds.length_le) ⟨by simp, record.area, by simp, ?_⟩
    simpa using hholds
  | cons tag tags ih =>
    rw [storeTags]
    simp only [tagText_eq hdata]
    have hlength : ((tag :: tags).flatMap (tagEntry n)).length =
        (tagEntry n tag).length + (tags.flatMap (tagEntry n)).length := by
      rw [List.flatMap_cons, List.length_append]
    refine (write_spec hholds (tagEntry n tag)).bind (fun h ↦ by rw [hlength] at h; omega) ?_
    rintro _ - ⟨area, rfl, harea⟩
    have hrest := @ih
      { record with area, hashTagCount := record.hashTagCount + 1 } _ harea hdata
    rw [List.length_append] at hrest
    refine hrest.imp (by rw [hlength, Nat.add_assoc]) ?_
    rintro ⟨record', dataEnd⟩ ⟨hend, area', hrecord', harea'⟩
    refine ⟨?_, area', ?_, ?_⟩
    · rw [hend, List.flatMap_cons, List.append_assoc]
    · rw [hrecord']
      simp only [OutputRecord.mk.injEq, true_and, and_true, List.length_cons]
      omega
    · rw [List.flatMap_cons, ← List.append_assoc]
      exact harea'

theorem read_of_mem {memory : List Char} (hmem : nul ∈ memory) :
    ∃ text, CString.read memory = .ok text ∧ text.chars = memory.takeWhile (· ≠ nul) := by
  unfold CString.read
  rw [if_pos hmem]
  exact ⟨_, rfl, rfl⟩

variable {area rest : List Char} {position : ℕ}

theorem readOccurrences_end (fuel : ℕ) (harea : area.drop position = nul :: rest) :
    readOccurrences n area (fuel + 1) position = .ok ([], position) := by
  obtain ⟨text, hread, hchars⟩ := @read_of_mem (area.drop position) (by simp [harea])
  have hnil : text.chars = [] := by
    rw [hchars, harea]
    simp
  rw [readOccurrences, hread]
  simp only [bind, Except.bind, hnil]
  rfl

theorem readOccurrences_step {item : ℕ} {blank after : List Char} {stop : Char}
    (hblank : blank = [] ∨ blank = [' ']) (hstop : stop = ' ' ∨ stop = nul)
    (hnul : nul ∈ stop :: after) (hitem : item < n) (fuel : ℕ)
    (harea : area.drop position = blank ++ decimal item ++ stop :: after) :
    readOccurrences n area (fuel + 1) position =
      (readOccurrences n area fuel (position + (blank ++ decimal item).length)).map
        fun result ↦ (item :: result.1, result.2) := by
  obtain ⟨text, hread, hchars⟩ := @read_of_mem (area.drop position) (by
    rw [harea]
    exact List.mem_append_right _ hnul)
  have hdigit : ∀ c ∈ decimal item, c ≠ nul ∧ c ≠ ' ' := by
    intro c hc
    have hc' := isDigit_of_mem_decimal hc
    refine ⟨ne_null_of_isDigit hc', ?_⟩
    rintro rfl
    exact absurd hc' (by decide)
  have hnotNul : ∀ c ∈ blank ++ decimal item, decide (c ≠ nul) = true := by
    intro c hc
    rcases List.mem_append.mp hc with hc | hc
    · rcases hblank with rfl | rfl
      · cases hc
      · rw [List.mem_singleton.mp hc]
        decide
    · simpa using (hdigit c hc).1
  have htext : text.chars = blank ++ (decimal item ++ (stop :: after).takeWhile (· ≠ nul)) := by
    rw [hchars, harea, List.takeWhile_append_of_pos hnotNul, List.append_assoc]
  have hhead : ∀ c ∈ ((stop :: after).takeWhile (· ≠ nul)).head?, c.isDigit = false := by
    rcases hstop with rfl | rfl
    · rw [List.takeWhile_cons_of_pos (by decide)]
      rintro c hc
      simp only [List.head?_cons, Option.mem_def, Option.some.injEq] at hc
      rw [← hc]
      decide
    · rw [List.takeWhile_cons_of_neg (by decide)]
      simp
  have hscan : scanInt text.chars = some (item : ℤ) := by
    rw [htext]
    rcases hblank with rfl | rfl
    · exact scanInt_decimal item _ hhead
    · rw [List.singleton_append, scanInt_blank]
      exact scanInt_decimal item _ hhead
  have hne : ¬ text.length = 0 := by
    rw [CString.length, htext]
    have := List.length_pos_of_ne_nil (decimal_ne_nil item)
    simp only [List.length_append]
    omega
  have hskip : position + 1 + ((area.drop (position + 1)).takeWhile fun c ↦ c ≠ nul ∧ c ≠ ' ').length =
      position + (blank ++ decimal item).length := by
    have htail : area.drop (position + 1) = (blank ++ decimal item ++ stop :: after).tail := by
      rw [← harea, List.tail_drop]
    have hend : ∀ digits : List Char, (∀ c ∈ digits, c ≠ nul ∧ c ≠ ' ') →
        ((digits ++ stop :: after).takeWhile fun c ↦ c ≠ nul ∧ c ≠ ' ') = digits := by
      intro digits hdigits
      rw [List.takeWhile_append_of_pos fun c hc ↦ by simpa using hdigits c hc,
        List.takeWhile_cons_of_neg, List.append_nil]
      rcases hstop with rfl | rfl
      · simp
      · simp
    obtain ⟨first, digits, hdigits⟩ := List.exists_cons_of_ne_nil (decimal_ne_nil item)
    rw [htail]
    rcases hblank with rfl | rfl
    · rw [List.nil_append, hdigits, List.cons_append, List.tail_cons,
        hend digits fun c hc ↦ hdigit c (hdigits ▸ List.mem_cons_of_mem _ hc), List.length_cons]
      omega
    · rw [List.singleton_append, List.cons_append, List.tail_cons, hend _ hdigit, List.length_cons]
      omega
  rw [readOccurrences, hread]
  simp only [bind, Except.bind, hscan]
  rw [if_pos ⟨by omega, by omega⟩, if_neg hne, hskip]
  rcases readOccurrences n area fuel (position + (blank ++ decimal item).length) with fault | result
  · rfl
  · rfl

theorem readOccurrences_stored (items : List ℕ) {item : ℕ} {blank : List Char}
    (hblank : blank = [] ∨ blank = [' ']) (hitem : item < n) (hitems : ∀ other ∈ items, other < n)
    {fuel : ℕ} (hfuel : items.length + 2 ≤ fuel)
    (harea : area.drop position = blank ++ decimal item ++ (placesText items ++ nul :: rest)) :
    readOccurrences n area fuel position =
      .ok (item :: items, position + (blank ++ decimal item ++ placesText items).length) := by
  obtain ⟨fuel, rfl⟩ : ∃ left, fuel = left + 1 := ⟨fuel - 1, by omega⟩
  have hdrop : area.drop (position + (blank ++ decimal item).length) =
      placesText items ++ nul :: rest := by
    rw [← List.drop_drop, harea, List.drop_left]
  induction items generalizing item blank position fuel with
  | nil =>
    obtain ⟨fuel, rfl⟩ : ∃ left, fuel = left + 1 := ⟨fuel - 1, by simp at hfuel; omega⟩
    rw [readOccurrences_step hblank (Or.inr rfl) (List.mem_cons_self ..) hitem _ harea,
      readOccurrences_end fuel hdrop]
    simp [Except.map, placesText]
  | cons other items ih =>
    have hplaces : placesText (other :: items) ++ nul :: rest =
        [' '] ++ decimal other ++ (placesText items ++ nul :: rest) := by
      simp [placesText]
    rw [hplaces] at harea hdrop
    rw [List.length_cons] at hfuel
    obtain ⟨fuel, rfl⟩ : ∃ left, fuel = left + 1 := ⟨fuel - 1, by omega⟩
    have hrest := ih (Or.inr rfl) (hitems other List.mem_cons_self)
      (fun another hmem ↦ hitems another (List.mem_cons_of_mem _ hmem)) hdrop fuel (by omega) (by
        rw [← List.drop_drop, hdrop, List.drop_left])
    rw [readOccurrences_step hblank (Or.inl rfl) (by simp) hitem _ harea, hrest]
    simp only [Except.map, Except.ok.injEq, Prod.mk.injEq, true_and]
    simp only [placesText, List.flatMap_cons, List.length_append, List.length_cons, List.length_nil]
    omega

/-- A tag whose entry reads back: its name has at most 125 characters, it has elements, and all of
them belong to the document. -/
def ReadableTag (n : ℕ) (tag : CString × List ℕ) : Prop :=
  tag.1.length ≤ 125 ∧ tag.2 ≠ [] ∧ ∀ item ∈ tag.2, item < n

theorem signedChar_size {length : ℕ} (hlength : length ≤ 125) :
    signedChar (Char.ofNat ((length + 2) % 256)) = length + 2 := by
  have hvalue : (Char.ofNat ((length + 2) % 256)).toNat = length + 2 := by
    rw [toNat_ofNat_of_lt (by omega)]
    omega
  unfold signedChar
  rw [hvalue, if_pos (by omega)]
  omega

theorem length_le_placesText (items : List ℕ) : items.length ≤ (placesText items).length := by
  induction items with
  | nil => simp
  | cons item items ih =>
    simp only [placesText, List.flatMap_cons, List.length_append, List.length_cons] at ih ⊢
    omega

theorem readTags_step {tag : CString × List ℕ} (htag : ReadableTag n tag) {c : ℕ} (left : ℕ)
    (table : TagTable) (harea : area.drop c = tagEntry n tag ++ rest) :
    readTags n area (left + 1) c table =
      readTags n area left (c + (tagEntry n tag).length) (table.set tag.1 tag.2) := by
  obtain ⟨hlength, hne, hitems⟩ := htag
  rcases tag with ⟨name, items⟩
  simp only at hlength hne hitems
  obtain ⟨item, items, rfl⟩ := List.exists_cons_of_ne_nil hne
  have hfilter : (item :: items).filter (· < n) = item :: items :=
    List.filter_eq_self.mpr fun other hmem ↦ by simpa using hitems other hmem
  have hentry : tagEntry n (name, item :: items) ++ rest =
      Char.ofNat ((name.length + 2) % 256) :: (name.stored ++ (' ' :: (decimal item ++
        (placesText items ++ nul :: rest)))) := by
    simp [tagEntry, hfilter, placesText]
  have hlen : (tagEntry n (name, item :: items)).length =
      name.length + 3 + (decimal item ++ placesText items).length + 1 := by
    simp only [tagEntry, hfilter, placesText, List.flatMap_cons, List.length_append,
      List.length_cons, CString.length_stored, List.length_nil]
    omega
  rw [hentry] at harea
  have hsize : area[c]? = some (Char.ofNat ((name.length + 2) % 256)) := by
    rw [← List.head?_drop, harea, List.head?_cons]
  have hname : area.drop (c + 1) = name.stored ++ (' ' :: (decimal item ++
      (placesText items ++ nul :: rest))) := by
    rw [← List.drop_drop, harea]
    rfl
  have hplaces : area.drop (c + 1 + (name.length + 2)) =
      [] ++ decimal item ++ (placesText items ++ nul :: rest) := by
    rw [← List.drop_drop, hname, show name.length + 2 = name.length + 1 + 1 by omega,
      ← List.drop_drop, ← CString.length_stored, List.drop_left]
    rfl
  have hfuel : items.length + 2 ≤ area.length + 1 := by
    have h := congrArg List.length hname
    have hle := length_le_placesText items
    simp only [List.length_drop, List.length_append, List.length_cons, CString.length_stored] at h
    omega
  have hread := readOccurrences_stored items (Or.inl rfl) (hitems item List.mem_cons_self)
    (fun other hmem ↦ hitems other (List.mem_cons_of_mem _ hmem)) hfuel hplaces
  rw [readTags]
  simp only [hsize, hname, CString.read_stored, bind, Except.bind, signedChar_size hlength]
  rw [if_neg (by omega), show ((c : ℤ) + 1 + (name.length + 2)).toNat = c + 1 + (name.length + 2) by
    omega, hread]
  simp only [List.nil_append]
  congr 1
  rw [hlen]
  omega

theorem TagTable.set_of_notMem {table : TagTable} {name : CString} (items : List ℕ)
    (hname : name ∉ table.entries.map Prod.fst) :
    (table.set name items).entries = table.entries ++ [(name, items)] := by
  unfold TagTable.set
  rw [dif_neg hname]

theorem readTags_stored (tags : List (CString × List ℕ)) (htags : ∀ tag ∈ tags, ReadableTag n tag)
    {c : ℕ} (table : TagTable) (hdistinct : (table.entries.map Prod.fst ++ tags.map Prod.fst).Nodup)
    (harea : area.drop c = tags.flatMap (tagEntry n) ++ rest) :
    ∃ result, readTags n area tags.length c table =
        .ok (result, c + (tags.flatMap (tagEntry n)).length) ∧
      result.entries = table.entries ++ tags := by
  induction tags generalizing c table with
  | nil => exact ⟨table, rfl, by simp⟩
  | cons tag tags ih =>
    have htag := htags tag List.mem_cons_self
    rw [List.flatMap_cons, List.append_assoc] at harea
    have hnew : tag.1 ∉ table.entries.map Prod.fst := by
      intro hmem
      rw [List.map_cons, List.nodup_append] at hdistinct
      exact hdistinct.2.2 _ hmem _ List.mem_cons_self rfl
    have hentries := TagTable.set_of_notMem tag.2 hnew
    obtain ⟨result, hrun, hresult⟩ := ih
      (fun other hmem ↦ htags other (List.mem_cons_of_mem _ hmem)) (table.set tag.1 tag.2)
      (by
        rw [hentries, List.map_append, List.append_assoc]
        exact hdistinct)
      (c := c + (tagEntry n tag).length)
      (by rw [← List.drop_drop, harea, List.drop_left])
    refine ⟨result, ?_, ?_⟩
    · rw [List.length_cons, readTags_step htag _ table harea, hrun, List.flatMap_cons,
        List.length_append, Nat.add_assoc]
    · rw [hresult, hentries, List.append_assoc]
      rfl

end Cheshire.Utils
