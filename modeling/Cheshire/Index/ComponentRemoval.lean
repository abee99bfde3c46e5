import Cheshire.Index.ComponentTermRemoval

/-!
# Taking the components of a record out

`in_comp_del` is exact for a record when no component definition without components of the record comes
before one with some, and when every term of the component indexes lets the postings of the record be
taken out by the number of the record and with the text of the start elements.
-/

namespace Cheshire.Index

def storedPostings (stored : Option IdxResult) : List IdxPostingEntry :=
  stored.elim [] IdxResult.postings

theorem StoresExactly.storedPostings {postings : List IdxPostingEntry} {stored : Option IdxResult}
    (h : StoresExactly postings stored) : storedPostings stored = postings := by
  cases stored with
  | none => exact Eq.symm h
  | some block => exact h.2.2.1

/-- The posting is of a component of the record. -/
def ownPosting (comp : ComponentListEntry) (recnum : RecordNumber) (posting : IdxPostingEntry) :
    Bool :=
  decide (comp.Names posting.recordNo recnum.1)

/-- An index without the postings of the components of a record; its counters lose no more than what is
extracted from the components of the record counts. -/
structure ExactIndexRemoval (comp : ComponentListEntry) (recnum : RecordNumber)
    (hashes : List (String → TermHash)) (index index' : String × IdxListEntry) : Prop where
  tag : index'.1 = index.1
  terms : ∀ word, StoresExactly
    ((storedPostings (index.2.terms word)).filter fun posting ↦ !ownPosting comp recnum posting)
    (index'.2.terms word)
  counters : LosesAtMost index.2 index'.2
    (hashes.map fun hash ↦ (hash index.1).occurrences).sum
    (hashes.map fun hash ↦ (hash index.1).countedRecords).sum

/-- The files of a definition without the components of a record. -/
structure ExactRemoval (record : RecordNumber × ComponentRecord) (d d' : ComponentDef) : Prop where
  name : d'.comp.name = d.comp.name
  maxComponentId : d'.comp.maxComponentId = d.comp.maxComponentId
  doc : ∀ number : ℤ, d'.comp.compDb (.doc number) =
    if number = record.1.1 then none else d.comp.compDb (.doc number)
  component : ∀ number, d'.comp.compDb (.component number) =
    if d.comp.Names number record.1.1 then none else d.comp.compDb (.component number)
  indexes : List.Forall₂
    (ExactIndexRemoval d.comp record.1 ((record.2.components d.comp.name).map d.removed))
    d.indexes d'.indexes

/-- The occurrences of a term that are taken out with the components of a record, one after the other. -/
def ComponentDef.taken (d : ComponentDef) (record : ComponentRecord) (tag : String) (word : Term) :
    List ℤ :=
  (record.components d.comp.name).filterMap fun text ↦
    ((d.removed text tag).find? word).map fun htData ↦ (htData.termfreq : ℤ)

/-- `in_comp_del` does the whole record: no definition without an entry for it comes before one with an
entry, the loop variable stays in range, and its postings can be taken out of every term. -/
structure Deletable (record : RecordNumber × ComponentRecord) (defs : List ComponentDef) : Prop where
  entries : defs.Pairwise fun first second ↦
    first.comp.compDb (.doc record.1.1) = none → second.comp.compDb (.doc record.1.1) = none
  bounded : ∀ d ∈ defs, ∀ range, d.comp.compDb (.doc record.1.1) = some range →
    range.endOffset < INT_MAX
  removable : ∀ d ∈ defs, ∀ index ∈ d.indexes, ∀ word,
    Removable record.1 (ownPosting d.comp record.1) (storedPostings (index.2.terms word))
      (d.taken record.2 index.1 word)

section Record

variable {records : List (RecordNumber × ComponentRecord)} {record : RecordNumber × ComponentRecord}

theorem ne_of_mem_componentsOf {name : String} {records : List (RecordNumber × ComponentRecord)}
    {recnum : RecordNumber} (hother : ∀ other ∈ records, other.1 ≠ recnum)
    {component : RecordNumber × ComponentText} (hmem : component ∈ componentsOf name records) :
    component.1 ≠ recnum := by
  obtain ⟨other, hrecord, hin⟩ := List.mem_flatMap.mp hmem
  obtain ⟨text, -, rfl⟩ := List.mem_map.mp hin
  exact hother other hrecord

theorem componentsOf_append_cons (name : String)
    (before after : List (RecordNumber × ComponentRecord))
    (record : RecordNumber × ComponentRecord) :
    componentsOf name (before ++ record :: after) =
      componentsOf name before ++ (componentsIn name record ++ componentsOf name after) := by
  rw [componentsOf, List.flatMap_append, List.flatMap_cons]
  rfl

theorem ne_of_nodup {before after : List (RecordNumber × ComponentRecord)}
    (hnodup : ((before ++ record :: after).map Prod.fst).Nodup) :
    (∀ other ∈ before, other.1 ≠ record.1) ∧ ∀ other ∈ after, other.1 ≠ record.1 := by
  rw [List.map_append, List.map_cons, List.nodup_append, List.nodup_cons] at hnodup
  obtain ⟨-, ⟨hafter, -⟩, hbefore⟩ := hnodup
  constructor
  · intro other hmem
    exact hbefore _ (List.mem_map_of_mem hmem) _ List.mem_cons_self
  · intro other hmem heq
    exact hafter (heq ▸ List.mem_map_of_mem hmem)

variable {d : ComponentDef}

theorem Indexed.names_iff {components : Components} (h : Indexed d components) {number : ℕ}
    {component : RecordNumber × ComponentText} (hcomponent : components[number]? = some component)
    (recnum : RecordNumber) :
    d.comp.Names (number + 1 : ℕ) recnum.1 ↔ component.1 = recnum := by
  have hitem := h.component (number + 1 : ℕ)
  rw [if_pos (by omega), Int.toNat_natCast, Nat.add_sub_cancel, hcomponent, Option.map_some] at hitem
  rw [ComponentListEntry.Names, hitem]
  simp only [Option.some.injEq, exists_eq_left']
  rw [Int.natCast_inj, Subtype.ext_iff]

theorem nodup_componentPostings (tag : String) (components : Components) (word : Term) :
    ((componentPostings tag components word).map IdxPostingEntry.recordNo).Nodup := by
  rw [componentPostings, List.map_filterMap]
  have hsnd : ((components.zipIdx 1).map Prod.snd).Nodup := by
    rw [List.zipIdx_map_snd]
    exact List.nodup_range'
  rw [List.nodup_iff_pairwise_ne, List.pairwise_map] at hsnd
  rw [List.nodup_iff_pairwise_ne, List.pairwise_filterMap]
  apply hsnd.imp
  intro first second hne number hnumber number' hnumber'
  have hfirst : number = first.2 := by
    cases hfind : (first.1.2.terms tag).find? word with
    | none => simp [hfind] at hnumber
    | some htData => simpa [hfind, eq_comm] using hnumber
  have hsecond : number' = second.2 := by
    cases hfind : (second.1.2.terms tag).find? word with
    | none => simp [hfind] at hnumber'
    | some htData => simpa [hfind, eq_comm] using hnumber'
  rw [hfirst, hsecond]
  exact_mod_cast hne

end Record

section Loop

variable {documents : ℤ → Option ComponentRecord}

theorem getComponentData_congr {d d' : ComponentDef} {compid : ℤ} (hname : d'.comp.name = d.comp.name)
    (hitem : d'.comp.compDb (.component compid) = d.comp.compDb (.component compid)) :
    getComponentData documents d' compid = getComponentData documents d compid := by
  rw [getComponentData, getComponentData, hname, hitem]

/-- What the loop does to an index. -/
structure IndexRun (recnum : RecordNumber) (hashes : List (String → TermHash))
    (index index' : String × IdxListEntry) : Prop where
  tag : index'.1 = index.1
  terms : ∀ word, DropRun recnum (hashes.filterMap fun hash ↦ (hash index.1).find? word)
    (index.2.terms word) (index'.2.terms word)
  counters : LosesAtMost index.2 index'.2
    (hashes.map fun hash ↦ (hash index.1).occurrences).sum
    (hashes.map fun hash ↦ (hash index.1).countedRecords).sum

theorem IndexRun.nil (recnum : RecordNumber) (index : String × IdxListEntry) :
    IndexRun recnum [] index index where
  tag := rfl
  terms _ := rfl
  counters := .refl _

/-- What one component does to an index. -/
structure TextRun (recnum : RecordNumber) (hash : String → TermHash)
    (index mid : String × IdxListEntry) : Prop where
  tag : mid.1 = index.1
  terms : ∀ word, match (hash index.1).find? word with
    | some htData => Drops recnum htData (index.2.terms word) (mid.2.terms word)
    | none => mid.2.terms word = index.2.terms word
  counters : LosesAtMost index.2 mid.2 (hash index.1).occurrences (hash index.1).countedRecords

theorem TextRun.cons {recnum : RecordNumber} {hash : String → TermHash}
    {hashes : List (String → TermHash)} {index mid index' : String × IdxListEntry}
    (h : TextRun recnum hash index mid) (hrest : IndexRun recnum hashes mid index') :
    IndexRun recnum (hash :: hashes) index index' where
  tag := hrest.tag.trans h.tag
  terms word := by
    have hfirst := h.terms word
    have hothers := hrest.terms word
    rw [h.tag] at hothers
    rw [List.filterMap_cons]
    cases hfind : (hash index.1).find? word with
    | none =>
      rw [hfind] at hfirst
      rwa [← hfirst]
    | some htData =>
      rw [hfind] at hfirst
      exact ⟨_, hfirst, hothers⟩
  counters := by
    have hothers := hrest.counters
    rw [h.tag] at hothers
    rw [List.map_cons, List.map_cons, List.sum_cons, List.sum_cons]
    exact h.counters.trans hothers

theorem forall₂_cons_run {recnum : RecordNumber} {hash : String → TermHash}
    {hashes : List (String → TermHash)} {indexes mids indexes' : List (String × IdxListEntry)}
    (h : List.Forall₂ (TextRun recnum hash) indexes mids)
    (hrest : List.Forall₂ (IndexRun recnum hashes) mids indexes') :
    List.Forall₂ (IndexRun recnum (hash :: hashes)) indexes indexes' := by
  induction h generalizing indexes' with
  | nil =>
    cases hrest
    exact .nil
  | cons hfirst _ ih =>
    cases hrest with
    | cons hmid hmids => exact .cons (hfirst.cons hmid) (ih hmids)

/-- The blocks of an index have the right size. -/
def WellSized (index : String × IdxListEntry) : Prop :=
  ∀ word, ∃ postings, Holds postings (index.2.terms word)

theorem delComponent_spec (recnum : RecordNumber) {d : ComponentDef} {compid : ℤ}
    {text : ComponentText} (hget : getComponentData documents d compid = .ok text)
    (hsized : ∀ index ∈ d.indexes, WellSized index) :
    ∃ d', delComponent documents recnum d compid = .ok d' ∧
      d'.comp = d.comp.del (.component compid) ∧ d'.endTag = d.endTag ∧
      (∀ index ∈ d'.indexes, WellSized index) ∧
      List.Forall₂ (TextRun recnum (d.removed text)) d.indexes d'.indexes := by
  have hpass : ∀ index ∈ d.indexes, ∃ mid, (do
      let idx ← delComponentTerms recnum (d.removed text index.1) index.2
      .ok (index.1, idx)) = Except.ok mid ∧ WellSized mid ∧
        TextRun recnum (d.removed text) index mid := by
    intro index hindex
    obtain ⟨idx, hidx, hdone, hterms⟩ :=
      delComponentTerms_spec recnum (d.removed text index.1) (hsized index hindex)
    refine ⟨(index.1, idx), ?_, hdone, rfl, hterms, delComponentTerms_loses hidx⟩
    rw [hidx]
    rfl
  obtain ⟨indexes, hindexes, hall⟩ := exists_mapM hpass
  refine ⟨⟨d.comp.del (.component compid), d.endTag, indexes⟩, ?_, rfl, rfl, ?_,
    hall.imp fun _ _ h ↦ h.2⟩
  · exact bind_eq_ok.mpr ⟨text, hget, bind_eq_ok.mpr ⟨indexes, hindexes, rfl⟩⟩
  · intro index hindex
    obtain ⟨_, -, hsize, -⟩ := exists_of_forall₂ hall hindex
    exact hsize

theorem foldlM_delComponent_spec (recnum : RecordNumber) (items : List (ℤ × ComponentText))
    (hnodup : (items.map Prod.fst).Nodup) {d : ComponentDef}
    (hget : ∀ item ∈ items, getComponentData documents d item.1 = .ok item.2)
    (hsized : ∀ index ∈ d.indexes, WellSized index) :
    ∃ d', (items.map Prod.fst).foldlM (delComponent documents recnum) d = .ok d' ∧
      d'.comp.name = d.comp.name ∧ d'.comp.maxComponentId = d.comp.maxComponentId ∧
      (∀ key, d'.comp.compDb key =
        if key ∈ items.map (fun item ↦ ComponentKey.component item.1) then none
        else d.comp.compDb key) ∧
      List.Forall₂ (IndexRun recnum (items.map fun item ↦ d.removed item.2)) d.indexes
        d'.indexes := by
  induction items generalizing d with
  | nil =>
    refine ⟨d, rfl, rfl, rfl, fun key ↦ by simp, ?_⟩
    exact List.forall₂_same.mpr fun index _ ↦ .nil recnum index
  | cons item items ih =>
    rw [List.map_cons, List.nodup_cons] at hnodup
    obtain ⟨first, hfirst, hcomp, htag, hsizes, hruns⟩ :=
      delComponent_spec recnum (hget item List.mem_cons_self) hsized
    have hrest : ∀ other ∈ items, getComponentData documents first other.1 = .ok other.2 := by
      intro other hother
      rw [← hget other (List.mem_cons_of_mem _ hother)]
      apply getComponentData_congr
      · rw [hcomp]
        rfl
      · -- the entry of another component is still there
        rw [hcomp, compDb_del, if_neg]
        intro hkey
        have hsame : other.1 = item.1 := ComponentKey.component.inj hkey
        exact hnodup.1 (hsame ▸ List.mem_map_of_mem hother)
    obtain ⟨last, hlast, hname, hmax, hdb, hdone⟩ := ih hnodup.2 hrest hsizes
    have hsame : first.removed = d.removed := by
      funext text tag
      rw [ComponentDef.removed, ComponentDef.removed, htag]
    rw [hsame] at hdone
    refine ⟨last, ?_, ?_, ?_, ?_, forall₂_cons_run hruns hdone⟩
    · rw [List.map_cons, List.foldlM_cons]
      exact bind_eq_ok.mpr ⟨first, hfirst, hlast⟩
    · rw [hname, hcomp]
      rfl
    · rw [hmax, hcomp]
      rfl
    · intro key
      rw [hdb, hcomp, compDb_del, List.map_cons]
      by_cases hmem : key ∈ items.map fun item ↦ ComponentKey.component item.1
      · rw [if_pos hmem, if_pos (List.mem_cons_of_mem _ hmem)]
      · rw [if_neg hmem]
        simp only [List.mem_cons, hmem, or_false]

end Loop

theorem forall₂_iff_forall {α β : Type} {relates exact : α → β → Prop} {holds : α → Prop}
    {items : List α} {results : List β} (h : List.Forall₂ relates items results)
    (hiff : ∀ item ∈ items, ∀ {result}, relates item result → (exact item result ↔ holds item)) :
    List.Forall₂ exact items results ↔ ∀ item ∈ items, holds item := by
  induction h with
  | nil => exact iff_of_true .nil (List.forall_mem_nil _)
  | cons hfirst _ ih =>
    rw [List.forall₂_cons, List.forall_mem_cons, hiff _ List.mem_cons_self hfirst,
      ih fun item hmem ↦ hiff item (List.mem_cons_of_mem _ hmem)]

/-- The components of a record with their numbers, from this one on. -/
def numberedTexts (start : ℤ) (texts : List ComponentText) : List (ℤ × ComponentText) :=
  texts.zipIdx.map fun item ↦ (start + item.2, item.1)

theorem map_fst_numberedTexts (start : ℤ) (texts : List ComponentText) :
    (numberedTexts start texts).map Prod.fst = numbersFrom start (start - 1 + texts.length) := by
  have hcount : (start - 1 + texts.length + 1 - start).toNat = texts.length := by omega
  calc
    (numberedTexts start texts).map Prod.fst
      = (texts.zipIdx.map Prod.snd).map fun number : ℕ ↦ start + number := by
        rw [numberedTexts, List.map_map, List.map_map]
        rfl
    _ = numbersFrom start (start - 1 + texts.length) := by
        rw [List.zipIdx_map_snd, numbersFrom, hcount, List.range_eq_range']

theorem map_snd_numberedTexts (start : ℤ) (texts : List ComponentText) :
    (numberedTexts start texts).map Prod.snd = texts := by
  rw [numberedTexts, List.map_map]
  exact List.zipIdx_map_fst 0 texts

theorem nodup_numbersFrom (start last : ℤ) : (numbersFrom start last).Nodup := by
  apply List.nodup_range.map
  intro first second h
  simpa using h

theorem mem_numbersFrom {start last number : ℤ} :
    number ∈ numbersFrom start last ↔ start ≤ number ∧ number ≤ last := by
  rw [numbersFrom, List.mem_map]
  constructor
  · rintro ⟨place, hplace, rfl⟩
    rw [List.mem_range] at hplace
    omega
  · intro h
    exact ⟨(number - start).toNat, List.mem_range.mpr (by omega), by omega⟩

section Range

variable {documents : ℤ → Option ComponentRecord} {d : ComponentDef}
  {before after : List (RecordNumber × ComponentRecord)}
  {record : RecordNumber × ComponentRecord}

theorem getElem?_componentsOf (name : String) {place : ℕ} {text : ComponentText}
    (hplace : (record.2.components name)[place]? = some text) :
    (componentsOf name (before ++ record :: after))[(componentsOf name before).length + place]? =
      some (record.1, text) := by
  have hown : (componentsIn name record)[place]? = some (record.1, text) := by
    rw [componentsIn, List.getElem?_map, hplace]
    rfl
  have hlt : place < (componentsIn name record).length := by
    rw [List.getElem?_eq_some_iff] at hown
    exact hown.1
  rw [componentsOf_append_cons, List.getElem?_append_right (Nat.le_add_right _ _), Nat.add_sub_cancel_left,
    List.getElem?_append_left hlt, hown]

theorem getComponentData_spec (h : IndexedRecords d (before ++ record :: after))
    (hdocument : documents record.1.1 = some record.2) :
    ∀ item ∈ numberedTexts ((componentsOf d.comp.name before).length + 1)
      (record.2.components d.comp.name),
      getComponentData documents d item.1 = .ok item.2 := by
  intro item hitem
  obtain ⟨⟨text, place⟩, hzip, rfl⟩ := List.mem_map.mp hitem
  have hplace : (record.2.components d.comp.name)[place]? = some text :=
    List.mem_zipIdx_iff_getElem?.mp hzip
  have hmem := List.mem_of_getElem? hplace
  have hnumber : ((componentsOf d.comp.name before).length + 1 + place : ℤ).toNat - 1 =
      (componentsOf d.comp.name before).length + place := by omega
  have hstored := h.component ((componentsOf d.comp.name before).length + 1 + place)
  rw [if_pos (by omega), hnumber, getElem?_componentsOf d.comp.name hplace, Option.map_some]
    at hstored
  have hfind : (record.2.components d.comp.name).find?
      (fun other ↦ other.startsAt text.startTagOffset) = some text := by
    -- another component starts further away
    have hsome : ((record.2.components d.comp.name).find?
        (fun other ↦ other.startsAt text.startTagOffset)).isSome := by
      rw [List.find?_isSome]
      exact ⟨text, hmem, by simp [ComponentText.startsAt]⟩
    obtain ⟨other, hother⟩ := Option.isSome_iff_exists.mp hsome
    have hstarts : text.startTagOffset = other.startTagOffset ∨
        text.startTagOffset = other.startTagOffset + 1 ∨
        text.startTagOffset = other.startTagOffset - 1 := by
      simpa [ComponentText.startsAt] using List.find?_some hother
    have hspaced := record.2.spaced d.comp.name
    have hsymm : Std.Symm fun first second : ComponentText ↦
        1 < |first.startTagOffset - second.startTagOffset| :=
      ⟨fun first second h ↦ by rwa [abs_sub_comm]⟩
    by_cases hsame : other = text
    · rw [hother, hsame]
    · have hapart := hspaced.forall (List.mem_of_find?_eq_some hother) hmem hsame
      rw [lt_abs] at hapart
      omega
  rw [getComponentData, hstored]
  refine bind_eq_ok.mpr ⟨_, rfl, bind_eq_ok.mpr ⟨record.2, ?_, ?_⟩⟩
  · exact congrArg deref hdocument
  · exact congrArg deref hfind

theorem names_iff_of_range (h : IndexedRecords d (before ++ record :: after))
    (hnodup : ((before ++ record :: after).map Prod.fst).Nodup) (number : ℤ) :
    d.comp.Names number record.1.1 ↔
      number ∈ numbersFrom ((componentsOf d.comp.name before).length + 1)
        ((componentsOf d.comp.name before).length + (record.2.components d.comp.name).length) := by
  rw [mem_numbersFrom]
  obtain ⟨hbefore, hafter⟩ := ne_of_nodup hnodup
  have hsplit := componentsOf_append_cons d.comp.name before after record
  have hlength : (componentsIn d.comp.name record).length =
      (record.2.components d.comp.name).length := List.length_map _
  by_cases hpos : 0 < number
  · obtain ⟨place, rfl⟩ : ∃ place : ℕ, number = (place + 1 : ℕ) := ⟨(number - 1).toNat, by omega⟩
    cases hplace : (componentsOf d.comp.name (before ++ record :: after))[place]? with
    | none =>
      have hstored := h.component (place + 1 : ℕ)
      rw [if_pos hpos, Int.toNat_natCast, Nat.add_sub_cancel, hplace] at hstored
      rw [List.getElem?_eq_none_iff, hsplit, List.length_append, List.length_append, hlength]
        at hplace
      apply iff_of_false
      · rintro ⟨item, hitem, -⟩
        rw [hstored] at hitem
        cases hitem
      · omega
    | some component =>
      rw [h.toIndexed.names_iff hplace]
      rw [hsplit] at hplace
      rcases lt_or_ge place (componentsOf d.comp.name before).length with hlt | hge
      · rw [List.getElem?_append_left hlt] at hplace
        apply iff_of_false
        · exact ne_of_mem_componentsOf hbefore (List.mem_of_getElem? hplace)
        · omega
      · rw [List.getElem?_append_right hge] at hplace
        rcases lt_or_ge (place - (componentsOf d.comp.name before).length)
          (componentsIn d.comp.name record).length with hin | hout
        · rw [List.getElem?_append_left hin] at hplace
          obtain ⟨text, -, rfl⟩ := List.mem_map.mp (List.mem_of_getElem? hplace)
          apply iff_of_true rfl
          omega
        · rw [List.getElem?_append_right hout] at hplace
          apply iff_of_false
          · exact ne_of_mem_componentsOf hafter (List.mem_of_getElem? hplace)
          · omega
  · have hstored := h.component number
    rw [if_neg hpos] at hstored
    apply iff_of_false
    · rintro ⟨item, hitem, -⟩
      rw [hstored] at hitem
      cases hitem
    · omega

variable (h : IndexedRecords d (before ++ record :: after))
  (hnodup : ((before ++ record :: after).map Prod.fst).Nodup)
include h hnodup

omit hnodup in
theorem exactIndexRemoval_iff {index index' : String × IdxListEntry} (hindex : index ∈ d.indexes)
    (hrun : IndexRun record.1 ((record.2.components d.comp.name).map d.removed) index index') :
    ExactIndexRemoval d.comp record.1 ((record.2.components d.comp.name).map d.removed) index index' ↔
      ∀ word, Removable record.1 (ownPosting d.comp record.1) (storedPostings (index.2.terms word))
        (d.taken record.2 index.1 word) := by
  have hword (word : Term) : StoresExactly
      ((storedPostings (index.2.terms word)).filter fun posting ↦ !ownPosting d.comp record.1 posting)
      (index'.2.terms word) ↔
        Removable record.1 (ownPosting d.comp record.1) (storedPostings (index.2.terms word))
          (d.taken record.2 index.1 word) := by
    have hstores := h.terms index hindex word
    have htaken : d.taken record.2 index.1 word =
        (((record.2.components d.comp.name).map d.removed).filterMap fun hash ↦
          (hash index.1).find? word).map fun htData ↦ (htData.termfreq : ℤ) := by
      rw [List.filterMap_map, List.map_filterMap]
      rfl
    rw [hstores.storedPostings, htaken]
    exact storesExactly_iff_removable (nodup_componentPostings _ _ _) hstores (hrun.terms word)
  constructor
  · exact fun hexact word ↦ (hword word).mp (hexact.terms word)
  · exact fun hremovable ↦ ⟨hrun.tag, fun word ↦ (hword word).mpr (hremovable word), hrun.counters⟩

theorem texts_eq_nil_of_undone (hnone : d.comp.compDb (.doc record.1.1) = none) :
    record.2.components d.comp.name = [] ∧ ∀ number, ¬d.comp.Names number record.1.1 := by
  have htexts : record.2.components d.comp.name = [] := by
    rw [h.doc before record after rfl, docEntryOf] at hnone
    split at hnone
    · next hempty => exact List.isEmpty_iff.mp hempty
    · cases hnone
  refine ⟨htexts, ?_⟩
  intro number
  rw [names_iff_of_range h hnodup, htexts, mem_numbersFrom, List.length_nil]
  omega

theorem removable_of_undone (hnone : d.comp.compDb (.doc record.1.1) = none)
    (postings : List IdxPostingEntry) (tag : String) (word : Term) :
    Removable record.1 (ownPosting d.comp record.1) postings (d.taken record.2 tag word) := by
  refine .inl ⟨?_, .inl (by rw [ComponentDef.taken, (texts_eq_nil_of_undone h hnodup hnone).1]; rfl)⟩
  rw [List.filter_eq_nil_iff]
  intro posting _
  simpa [ownPosting] using (texts_eq_nil_of_undone h hnodup hnone).2 posting.recordNo

theorem exactRemoval_self_iff :
    ExactRemoval record d d ↔ d.comp.compDb (.doc record.1.1) = none := by
  constructor
  · intro hexact
    rw [hexact.doc, if_pos rfl]
  · intro hnone
    obtain ⟨htexts, hnames⟩ := texts_eq_nil_of_undone h hnodup hnone
    refine ⟨rfl, rfl, ?_, ?_, ?_⟩
    · intro number
      split
      · next heq => rw [heq, hnone]
      · rfl
    · intro number
      rw [if_neg (hnames number)]
    · apply List.forall₂_same.mpr
      intro index hindex
      rw [exactIndexRemoval_iff h hindex (htexts ▸ .nil record.1 index)]
      exact fun word ↦ removable_of_undone h hnodup hnone _ _ _

theorem delRange_exact_iff (hdocument : documents record.1.1 = some record.2)
    {range : ComponentDataItem} (hrange : d.comp.compDb (.doc record.1.1) = some range) :
    (∃ d', delRange documents record.1 d range = .ok d' ∧ ExactRemoval record d d') ↔
      range.endOffset < INT_MAX ∧ ∀ index ∈ d.indexes, ∀ word,
        Removable record.1 (ownPosting d.comp record.1) (storedPostings (index.2.terms word))
          (d.taken record.2 index.1 word) := by
  set texts := record.2.components d.comp.name with htexts
  set start : ℤ := (componentsOf d.comp.name before).length + 1 with hstart
  have hdoc := h.doc before record after rfl
  rw [hrange, docEntryOf] at hdoc
  split at hdoc
  · cases hdoc
  have hbounds : range.startOffset = start ∧ range.endOffset = start - 1 + texts.length := by
    rw [Option.some.inj hdoc, componentsIn, List.length_map]
    exact ⟨rfl, by simp only [hstart, htexts]; omega⟩
  have hnumbers : (numberedTexts start texts).map Prod.fst =
      numbersFrom range.startOffset range.endOffset := by
    rw [map_fst_numberedTexts, hbounds.1, hbounds.2]
  have hmem (number : ℤ) : number ∈ numbersFrom range.startOffset range.endOffset ↔
      d.comp.Names number record.1.1 := by
    rw [names_iff_of_range h hnodup, hbounds.1, hbounds.2, mem_numbersFrom, mem_numbersFrom]
    rw [← htexts, hstart, Int.add_sub_cancel]
  have hget : ∀ item ∈ numberedTexts start texts,
      getComponentData documents { d with comp := d.comp.del (.doc record.1.1) } item.1 =
        .ok item.2 := by
    intro item hitem
    rw [← getComponentData_spec h hdocument item hitem]
    apply getComponentData_congr rfl
    rw [compDb_del, if_neg (by simp)]
  have hsized : ∀ index ∈ d.indexes, WellSized index := fun index hindex word ↦
    ⟨_, ((storesExactly_iff _ _).mp (h.terms index hindex word)).1⟩
  obtain ⟨last, hlast, hname, hmax, hdb, hruns⟩ := foldlM_delComponent_spec record.1
    (numberedTexts start texts) (hnumbers ▸ nodup_numbersFrom _ _) hget hsized
  rw [hnumbers] at hlast
  have hhashes : ((numberedTexts start texts).map fun item ↦ d.removed item.2) =
      texts.map d.removed := by
    rw [← map_snd_numberedTexts start texts, List.map_map, map_snd_numberedTexts]
    rfl
  change List.Forall₂ (IndexRun record.1 ((numberedTexts start texts).map fun item ↦
    d.removed item.2)) d.indexes last.indexes at hruns
  rw [hhashes] at hruns
  have hexact : ExactRemoval record d last ↔ ∀ index ∈ d.indexes, ∀ word,
      Removable record.1 (ownPosting d.comp record.1) (storedPostings (index.2.terms word))
        (d.taken record.2 index.1 word) := by
    have hindexes : List.Forall₂ (ExactIndexRemoval d.comp record.1 (texts.map d.removed)) d.indexes
        last.indexes ↔ ∀ index ∈ d.indexes, ∀ word,
          Removable record.1 (ownPosting d.comp record.1) (storedPostings (index.2.terms word))
            (d.taken record.2 index.1 word) :=
      forall₂_iff_forall hruns fun index hindex _ hrun ↦
        exactIndexRemoval_iff h hindex hrun
    rw [← hindexes]
    constructor
    · exact ExactRemoval.indexes
    · refine fun hindexes ↦ ⟨hname, hmax, ?_, ?_, hindexes⟩
      · intro number
        rw [hdb, if_neg (by simp), compDb_del]
        simp only [ComponentKey.doc.injEq]
      · intro number
        have hkey : ComponentKey.component number ∈
            (numberedTexts start texts).map (fun item ↦ ComponentKey.component item.1) ↔
              d.comp.Names number record.1.1 := by
          rw [← hmem, ← hnumbers]
          simp
        rw [hdb, compDb_del]
        simp only [hkey, reduceCtorEq, if_false]
  have hpositive : 0 ≤ range.endOffset := by omega
  constructor
  · rintro ⟨d', hrun, hd'⟩
    obtain ⟨done, hdone, hrest⟩ := bind_eq_ok.mp hrun
    obtain ⟨next, hnext, hok⟩ := bind_eq_ok.mp hrest
    rw [hlast] at hdone
    rw [← Except.ok.inj hok, ← Except.ok.inj hdone, hexact] at hd'
    refine ⟨?_, hd'⟩
    unfold checkInt at hnext
    split at hnext
    · rw [INT_MAX]
      omega
    · cases hnext
  · rintro ⟨hlt, hremovable⟩
    refine ⟨last, ?_, hexact.mpr hremovable⟩
    refine bind_eq_ok.mpr ⟨last, hlast, bind_eq_ok.mpr ⟨range.endOffset + 1, ?_, rfl⟩⟩
    exact checkInt_of_le (by omega) (by omega)

end Range

/-- `in_comp_del` is exact for a record if and only if every definition with components of the record
is reached and every term lets their postings be taken out. -/
theorem delDefinitions_exact_iff {documents : ℤ → Option ComponentRecord}
    {before after : List (RecordNumber × ComponentRecord)}
    {record : RecordNumber × ComponentRecord}
    (hnodup : ((before ++ record :: after).map Prod.fst).Nodup)
    (hdocument : documents record.1.1 = some record.2) (defs : List ComponentDef)
    (h : ∀ d ∈ defs, IndexedRecords d (before ++ record :: after)) :
    (∃ result, delDefinitions documents record.1 defs = .ok result ∧
      List.Forall₂ (ExactRemoval record) defs result.2) ↔ Deletable record defs := by
  induction defs with
  | nil =>
    apply iff_of_true
    · exact ⟨(true, []), rfl, .nil⟩
    · exact ⟨.nil, List.forall_mem_nil _, List.forall_mem_nil _⟩
  | cons d defs ih =>
    have hd := h d List.mem_cons_self
    have ih := ih fun other hmem ↦ h other (List.mem_cons_of_mem _ hmem)
    cases hentry : d.comp.compDb (.doc record.1.1) with
    | none =>
      -- the loop ends here
      have hrun : delDefinitions documents record.1 (d :: defs) = .ok (false, d :: defs) := by
        rw [delDefinitions, hentry]
      rw [hrun]
      constructor
      · rintro ⟨result, hresult, hexact⟩
        cases hresult
        have hself : ∀ other ∈ d :: defs, other.comp.compDb (.doc record.1.1) = none := by
          intro other hmem
          have hother := List.forall₂_same.mp hexact other hmem
          exact (exactRemoval_self_iff (h other hmem) hnodup).mp hother
        refine ⟨List.pairwise_of_forall_mem_list ?_, ?_, ?_⟩
        · exact fun _ _ other hmem _ ↦ hself other hmem
        · intro other hmem range hrange
          rw [hself other hmem] at hrange
          cases hrange
        · exact fun other hmem _ _ _ ↦ removable_of_undone (h other hmem) hnodup (hself other hmem) _ _ _
      · intro hdeletable
        refine ⟨_, rfl, List.forall₂_same.mpr ?_⟩
        intro other hmem
        rw [exactRemoval_self_iff (h other hmem) hnodup]
        rcases List.mem_cons.mp hmem with rfl | hrest
        · exact hentry
        · exact (List.pairwise_cons.mp hdeletable.entries).1 other hrest hentry
    | some range =>
      have hrange := delRange_exact_iff hd hnodup hdocument hentry
      have hrun : delDefinitions documents record.1 (d :: defs) = (do
          let d ← delRange documents record.1 d range
          let rest ← delDefinitions documents record.1 defs
          .ok (rest.1, d :: rest.2)) := by
        rw [delDefinitions, hentry]
      rw [hrun]
      constructor
      · rintro ⟨result, hresult, hexact⟩
        obtain ⟨d', hd', hrest⟩ := bind_eq_ok.mp hresult
        obtain ⟨rest, hrest, hok⟩ := bind_eq_ok.mp hrest
        rw [← Except.ok.inj hok, List.forall₂_cons] at hexact
        obtain ⟨hbounded, hremovable⟩ := hrange.mp ⟨d', hd', hexact.1⟩
        have hdefs := ih.mp ⟨rest, hrest, hexact.2⟩
        refine ⟨List.pairwise_cons.mpr ⟨?_, hdefs.entries⟩, ?_, ?_⟩
        · intro other _ hnone
          rw [hentry] at hnone
          cases hnone
        · rw [List.forall_mem_cons]
          refine ⟨?_, hdefs.bounded⟩
          intro other hother
          rw [hentry] at hother
          cases hother
          exact hbounded
        · exact List.forall_mem_cons.mpr ⟨hremovable, hdefs.removable⟩
      · intro hdeletable
        have hremovable := hdeletable.removable d List.mem_cons_self
        have hbounded := hdeletable.bounded d List.mem_cons_self range hentry
        obtain ⟨d', hd', hexact⟩ := hrange.mpr ⟨hbounded, hremovable⟩
        have hdefs : Deletable record defs :=
          ⟨(List.pairwise_cons.mp hdeletable.entries).2,
            fun other hmem ↦ hdeletable.bounded other (List.mem_cons_of_mem _ hmem),
            fun other hmem ↦ hdeletable.removable other (List.mem_cons_of_mem _ hmem)⟩
        obtain ⟨rest, hrest, hall⟩ := ih.mpr hdefs
        exact ⟨(rest.1, d' :: rest.2),
          bind_eq_ok.mpr ⟨d', hd', bind_eq_ok.mpr ⟨rest, hrest, rfl⟩⟩, .cons hexact hall⟩

/-- Whatever was indexed before, `in_comp_del` is exact for a record if and only if it is deletable. -/
theorem inCompDel_exact_iff (names : List (String × Bool × List (String × ℕ)))
    {records : List (RecordNumber × ComponentRecord)} (hnodup : (records.map Prod.fst).Nodup)
    {defs : List ComponentDef}
    (hrun : indexRecords records (names.map fun name ↦ .fresh name.1 name.2.1 name.2.2) = .ok defs)
    {record : RecordNumber × ComponentRecord} (hmem : record ∈ records)
    {documents : ℤ → Option ComponentRecord} (hdocument : documents record.1.1 = some record.2) :
    (∃ result, inCompDel documents (some record.1.1) record.1 defs = .ok result ∧
      List.Forall₂ (ExactRemoval record) defs result.2) ↔ Deletable record defs := by
  have hfresh : ∀ d ∈ names.map fun name ↦ ComponentDef.fresh name.1 name.2.1 name.2.2,
      IndexedRecords d [] := by
    intro d hd
    obtain ⟨name, -, rfl⟩ := List.mem_map.mp hd
    exact indexedRecords_fresh name.1 name.2.1 name.2.2
  have hindexed := @indexRecords_spec _ [] _ _ hnodup hfresh hrun
  obtain ⟨before, after, rfl⟩ := List.append_of_mem hmem
  rw [inCompDel, if_pos rfl]
  exact delDefinitions_exact_iff hnodup hdocument defs hindexed

theorem inRange_one : 0 < 1 ∧ 1 ≤ INT_MAX := by decide

theorem inRange_seven : 0 < 7 ∧ 7 ≤ INT_MAX := by decide

def recordOne : RecordNumber := ⟨1, inRange_one⟩

def recordSeven : RecordNumber := ⟨7, inRange_seven⟩

/-- The word `a`, once. -/
def oneTerm : TermHash := ⟨[([97], ⟨1, []⟩)], List.nodup_singleton _⟩

/-- A record with one component, a figure with the term `a`. -/
def figureRecord : ComponentRecord where
  components name :=
    if name = "figure" then [⟨0, 9, fun _ ↦ oneTerm, fun _ ↦ oneTerm⟩] else []
  spaced name := by split <;> simp

/-- A record with one component that spans two elements, the first with the term `a` and the second with
the term `b`. -/
def spanRecord : ComponentRecord where
  components _ := [⟨0, 20, fun _ ↦ ⟨[([97], ⟨1, []⟩), ([98], ⟨1, []⟩)], by decide⟩, fun _ ↦ oneTerm⟩]
  spaced _ := List.pairwise_singleton _ _

theorem inCompDel_exact_figure : ∃ defs,
    indexRecords [(recordOne, figureRecord)] [.fresh "figure" false [("caption", 0)]] = .ok defs ∧
      ((∃ result, inCompDel (fun _ ↦ some figureRecord) (some 1) recordOne defs = .ok result ∧
        List.Forall₂ (ExactRemoval (recordOne, figureRecord)) defs result.2) ↔
          Deletable (recordOne, figureRecord) defs) := by
  refine ⟨_, rfl, ?_⟩
  exact @inCompDel_exact_iff [("figure", false, [("caption", 0)])] [(recordOne, figureRecord)]
    (List.nodup_singleton _) _ rfl (recordOne, figureRecord) (List.mem_singleton_self _) _ rfl

/-- Nothing is removed when the first definition has no component of the record; the component of
record 7, which has the number 2, keeps its posting beside that of record 1; and a span keeps the posting
of a term that its start element does not have. -/
theorem inCompDel_not_exact :
    (∃ defs, indexRecords [(recordOne, figureRecord)]
        [.fresh "chapter" false [], .fresh "figure" false [("caption", 0)]] = .ok defs ∧
      ¬∃ result, inCompDel (fun _ ↦ some figureRecord) (some 1) recordOne defs = .ok result ∧
        List.Forall₂ (ExactRemoval (recordOne, figureRecord)) defs result.2) ∧
    (∃ defs, indexRecords [(recordOne, figureRecord), (recordSeven, figureRecord)]
        [.fresh "figure" false [("caption", 0)]] = .ok defs ∧
      ¬∃ result, inCompDel (fun _ ↦ some figureRecord) (some 7) recordSeven defs = .ok result ∧
        List.Forall₂ (ExactRemoval (recordSeven, figureRecord)) defs result.2) ∧
    ∃ defs, indexRecords [(recordOne, spanRecord)] [.fresh "entry" true [("author", 0)]] = .ok defs ∧
      ¬∃ result, inCompDel (fun _ ↦ some spanRecord) (some 1) recordOne defs = .ok result ∧
        List.Forall₂ (ExactRemoval (recordOne, spanRecord)) defs result.2 := by
  refine ⟨⟨_, rfl, ?_⟩, ⟨_, rfl, ?_⟩, ⟨_, rfl, ?_⟩⟩
  · rintro ⟨result, hrun, hexact⟩
    have hresult := Except.ok.inj hrun
    rw [← hresult] at hexact
    cases hexact with
    | cons _ hrest =>
      cases hrest with
      | cons hfigure _ => exact Option.some_ne_none _ (hfigure.doc 1)
  · rintro ⟨result, hrun, hexact⟩
    have hresult := Except.ok.inj hrun
    rw [← hresult] at hexact
    cases hexact with
    | cons hfigure _ =>
      cases hfigure.indexes with
      | cons hindex _ =>
        have hcount := (hindex.terms [97]).2.1
        revert hcount
        decide
  · rintro ⟨result, hrun, hexact⟩
    have hresult := Except.ok.inj hrun
    rw [← hresult] at hexact
    cases hexact with
    | cons hentry _ =>
      cases hentry.indexes with
      | cons hindex _ =>
        have hcount := (hindex.terms [98]).2.1
        revert hcount
        decide

end Cheshire.Index
