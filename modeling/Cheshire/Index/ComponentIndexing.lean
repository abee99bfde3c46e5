import Cheshire.Index.ComponentPostings

/-!
# What indexing stores for components

After records have been indexed, the components of a definition are numbered from 1 in the order of the
records; the file of the definition has an entry for each of them and one for each record that has any,
and every term of an index stores exactly the postings of the components with the term.
-/

namespace Cheshire.Index

/-- A loop over the terms of a hash table, each pass of which changes the block of its own term only. -/
theorem foldlM_terms {σ : Type} {step : σ → Term × HtData → Exec σ}
    {terms : σ → Term → Option IdxResult}
    {changes : HtData → Option IdxResult → Option IdxResult → Prop}
    (items : List (Term × HtData)) (hnodup : (items.map Prod.fst).Nodup) {inv : σ → Prop}
    (hstep : ∀ s, ∀ item ∈ items, inv s → ∃ s', step s item = .ok s' ∧ inv s' ∧
      changes item.2 (terms s item.1) (terms s' item.1) ∧
      ∀ word ≠ item.1, terms s' word = terms s word) {s : σ} (hs : inv s) :
    ∃ s', items.foldlM step s = .ok s' ∧ inv s' ∧
      ∀ word, match items.lookup word with
        | some htData => changes htData (terms s word) (terms s' word)
        | none => terms s' word = terms s word := by
  induction items generalizing s with
  | nil => exact ⟨s, rfl, hs, fun _ ↦ rfl⟩
  | cons item items ih =>
    rw [List.map_cons, List.nodup_cons] at hnodup
    obtain ⟨first, hfirst, hinv, hchanges, hother⟩ := hstep s item List.mem_cons_self hs
    obtain ⟨last, hlast, hdone, hterms⟩ :=
      ih hnodup.2 (fun s other hmem ↦ hstep s other (List.mem_cons_of_mem _ hmem)) hinv
    refine ⟨last, ?_, hdone, ?_⟩
    · rw [List.foldlM_cons, hfirst]
      exact hlast
    · intro word
      have hword := hterms word
      rw [List.lookup_cons]
      by_cases heq : word = item.1
      · -- the rest of the table does not have the word again
        have hnone : items.lookup item.1 = none := lookup_eq_none hnodup.1
        subst heq
        rw [hnone] at hword
        simp only [beq_self_eq_true]
        rwa [hword]
      · rw [beq_eq_false_iff_ne.mpr heq]
        rwa [hother word heq] at hword

variable {α β : Type}

theorem forall₂_of_mapM {f : α → Exec β} {items : List α} {results : List β}
    (h : items.mapM f = .ok results) :
    List.Forall₂ (fun item result ↦ f item = .ok result) items results := by
  induction items generalizing results with
  | nil =>
    cases h
    exact .nil
  | cons item items ih =>
    rw [List.mapM_cons, bind_eq_ok] at h
    obtain ⟨first, hfirst, hrest⟩ := h
    obtain ⟨rest, hitems, hresults⟩ := bind_eq_ok.mp hrest
    cases hresults
    exact .cons hfirst (ih hitems)

theorem exists_mapM {f : α → Exec β} {items : List α} {relates : α → β → Prop}
    (h : ∀ item ∈ items, ∃ result, f item = .ok result ∧ relates item result) :
    ∃ results, items.mapM f = .ok results ∧ List.Forall₂ relates items results := by
  induction items with
  | nil => exact ⟨[], rfl, .nil⟩
  | cons item items ih =>
    obtain ⟨first, hfirst, hrelates⟩ := h item List.mem_cons_self
    obtain ⟨rest, hrest, hall⟩ := ih fun other hmem ↦ h other (List.mem_cons_of_mem _ hmem)
    refine ⟨first :: rest, ?_, .cons hrelates hall⟩
    rw [List.mapM_cons, hfirst, hrest]
    rfl

theorem exists_of_forall₂ {relates : α → β → Prop} {items : List α} {results : List β}
    (h : List.Forall₂ relates items results) {result : β}
    (hresult : result ∈ results) : ∃ item ∈ items, relates item result := by
  induction h with
  | nil => cases hresult
  | cons hfirst _ ih =>
    rcases List.mem_cons.mp hresult with rfl | hrest
    · exact ⟨_, List.mem_cons_self, hfirst⟩
    · obtain ⟨item, hitem, hrelates⟩ := ih hrest
      exact ⟨item, List.mem_cons_of_mem _ hitem, hrelates⟩

/-- The components under a definition, in the order of their numbers, each with its record. -/
abbrev Components := List (RecordNumber × ComponentText)

/-- The components of a record under a definition. -/
def componentsIn (name : String) (record : RecordNumber × ComponentRecord) : Components :=
  (record.2.components name).map fun text ↦ (record.1, text)

def componentsOf (name : String) (records : List (RecordNumber × ComponentRecord)) : Components :=
  records.flatMap (componentsIn name)

/-- The postings that a term should have. -/
def componentPostings (tag : String) (components : Components) (word : Term) :
    List IdxPostingEntry :=
  (components.zipIdx 1).filterMap fun component ↦
    ((component.1.2.terms tag).find? word).map fun htData ↦ ⟨component.2, htData.termfreq⟩

theorem componentPostings_append (tag : String) (components : Components)
    (component : RecordNumber × ComponentText) (word : Term) :
    componentPostings tag (components ++ [component]) word =
      componentPostings tag components word ++ (((component.2.terms tag).find? word).map
        fun htData ↦ ⟨(components.length + 1 : ℕ), htData.termfreq⟩).toList := by
  rw [componentPostings, List.zipIdx_append, List.filterMap_append, componentPostings]
  congr 1
  rw [Nat.add_comm 1]
  cases hfind : (component.2.terms tag).find? word with
  | none => simp [hfind]
  | some htData => simp [hfind]

/-- The files of a definition hold these components. -/
structure Indexed (d : ComponentDef) (components : Components) : Prop where
  maxComponentId : d.comp.maxComponentId = components.length
  component : ∀ number, d.comp.compDb (.component number) =
    if 0 < number then components[number.toNat - 1]?.map fun component ↦
      ⟨component.1.1, component.2.startTagOffset, component.2.dataEndOffset⟩
    else none
  terms : ∀ index ∈ d.indexes, ∀ word,
    StoresExactly (componentPostings index.1 components word) (index.2.terms word)

theorem indexed_fresh (name : String) (endTag : Bool) (indexes : List (String × ℕ)) :
    Indexed (.fresh name endTag indexes) [] where
  maxComponentId := rfl
  component number := by simp [ComponentDef.fresh, ComponentListEntry.fresh]
  terms index hindex word := by
    obtain ⟨_, _, rfl⟩ := List.mem_map.mp hindex
    rfl

/-- What the addition of a term makes of its block. -/
def AddsTo (number : RecordNumber) (htData : HtData) (old new : Option IdxResult) : Prop :=
  ∃ block, new = some block ∧ Appended number htData.termfreq old block

theorem addComponentTerm_spec (number : RecordNumber) (idx : IdxListEntry) (item : Term × HtData)
    (hsound : ∀ word block, idx.terms word = some block → block.Sound) :
    ∃ next, addComponentTerm number idx item = .ok next ∧
      (∀ word block, next.terms word = some block → block.Sound) ∧
      AddsTo number item.2 (idx.terms item.1) (next.terms item.1) ∧
      ∀ word ≠ item.1, next.terms word = idx.terms word := by
  have hblock : ∃ next block, addComponentTerm number idx item = .ok next ∧
      (∀ word, next.terms word = if word = item.1 then some block else idx.terms word) ∧
      Appended number item.2.termfreq (idx.terms item.1) block := by
    rw [addComponentTerm]
    cases hterm : idx.terms item.1 with
    | none =>
      refine ⟨_, newBlock idx.globalData.recptr number item.2.termfreq, rfl, ?_,
        appended_newBlock _ _ _⟩
      simp [terms_putTerm]
    | some info =>
      obtain ⟨newinfo, hnew, happended⟩ := (hsound _ _ hterm).addPosting number item.2.termfreq
      simp only [hnew]
      refine ⟨_, newinfo, rfl, ?_, happended⟩
      simp [terms_putTerm]
  obtain ⟨next, block, hnext, hterms, happended⟩ := hblock
  refine ⟨next, hnext, ?_, ⟨block, by rw [hterms, if_pos rfl], happended⟩, ?_⟩
  · intro word stored hstored
    rw [hterms] at hstored
    split at hstored
    · cases hstored
      exact happended.sound
    · exact hsound word stored hstored
  · intro word hne
    rw [hterms, if_neg hne]

theorem addComponentTerms_spec {idx next : IdxListEntry} {number : RecordNumber} {hash : TermHash}
    {postings : Term → List IdxPostingEntry}
    (hterms : ∀ word, StoresExactly (postings word) (idx.terms word))
    (hadd : addComponentTerms number hash idx = .ok next) (word : Term) :
    StoresExactly (postings word ++ ((hash.find? word).map
      fun htData ↦ (⟨number.1, htData.termfreq⟩ : IdxPostingEntry)).toList) (next.terms word) := by
  have hsound : ∀ word block, idx.terms word = some block → block.Sound := by
    intro word block hblock
    have hstores := hterms word
    rw [hblock] at hstores
    exact hstores.sound
  obtain ⟨last, hlast, -, hall⟩ := foldlM_terms hash.entries hash.nodup
    (fun s item _ hs ↦ addComponentTerm_spec number s item hs) hsound
  rw [addComponentTerms, hlast] at hadd
  have hnext : next.terms = last.terms := by
    have heq := Except.ok.inj hadd
    rw [← heq]
    split <;> rfl
  have hword := hall word
  rw [hnext]
  change match hash.find? word with
    | some htData => AddsTo number htData (idx.terms word) (last.terms word)
    | none => last.terms word = idx.terms word at hword
  cases hfind : hash.find? word with
  | none =>
    rw [hfind] at hword
    rw [hword, Option.map_none, Option.toList_none, List.append_nil]
    exact hterms word
  | some htData =>
    rw [hfind] at hword
    obtain ⟨block, hblock, happended⟩ := hword
    rw [hblock]
    exact (hterms word).append happended

theorem componentNumber_eq_ok {number : ℤ} {result : RecordNumber}
    (h : componentNumber number = .ok result) : (result.1 : ℤ) = number := by
  unfold componentNumber at h
  split at h
  · next hvalid =>
    have hresult := Except.ok.inj h
    rw [← hresult]
    exact Int.toNat_of_nonneg (by omega)
  · cases h

/-- What the file of a definition says about records is left as it is, and so is its name. -/
structure SameRecords (d d' : ComponentDef) : Prop where
  name : d'.comp.name = d.comp.name
  doc : ∀ recnum, d'.comp.compDb (.doc recnum) = d.comp.compDb (.doc recnum)

variable {d d' : ComponentDef}

theorem addText_spec {components : Components} {recnum : RecordNumber} {text : ComponentText}
    (h : Indexed d components) (hadd : addText recnum d text = .ok d') :
    Indexed d' (components ++ [(recnum, text)]) ∧ SameRecords d d' := by
  obtain ⟨number, hnumber, hrest⟩ := bind_eq_ok.mp hadd
  obtain ⟨indexes, hindexes, hd'⟩ := bind_eq_ok.mp hrest
  have hvalue := componentNumber_eq_ok hnumber
  rw [h.maxComponentId] at hvalue
  have hd' := Except.ok.inj hd'
  subst hd'
  refine ⟨⟨?_, ?_, ?_⟩, rfl, ?_⟩
  · change (number.1 : ℤ) = _
    rw [hvalue, List.length_append, List.length_singleton]
    push_cast
    rfl
  · intro key
    rw [compDb_put]
    by_cases hkey : key = number.1
    · subst hkey
      have hplace : (number.1 : ℤ).toNat - 1 = components.length := by omega
      rw [if_pos rfl, hplace, if_pos (by omega)]
      simp
    · rw [if_neg (by simpa using hkey), h.component]
      by_cases hpos : 0 < key
      · rw [if_pos hpos, if_pos hpos]
        rcases lt_or_gt_of_ne (show key.toNat - 1 ≠ components.length by omega) with hlt | hgt
        · rw [List.getElem?_append_left hlt]
        · rw [List.getElem?_eq_none hgt.le, List.getElem?_eq_none]
          rw [List.length_append, List.length_singleton]
          omega
      · rw [if_neg hpos, if_neg hpos]
  · intro index hindex word
    obtain ⟨old, hold, hindexadd⟩ := exists_of_forall₂ (forall₂_of_mapM hindexes) hindex
    obtain ⟨idx, hidx, hpair⟩ := bind_eq_ok.mp hindexadd
    have hpair := Except.ok.inj hpair
    subst hpair
    have hstores := addComponentTerms_spec (h.terms old hold) hidx word
    rw [componentPostings_append]
    have hcast : (number.1 : ℤ) = (components.length + 1 : ℕ) := by rw [hvalue]; push_cast; rfl
    rw [hcast] at hstores
    exact hstores
  · intro key
    rw [compDb_put, if_neg (by simp)]

theorem foldlM_addText_spec {components : Components} {recnum : RecordNumber}
    (texts : List ComponentText) (h : Indexed d components)
    (hadd : texts.foldlM (addText recnum) d = .ok d') :
    Indexed d' (components ++ texts.map fun text ↦ (recnum, text)) ∧ SameRecords d d' := by
  induction texts generalizing d components with
  | nil =>
    have hd' := Except.ok.inj hadd
    subst hd'
    rw [List.map_nil, List.append_nil]
    exact ⟨h, rfl, fun _ ↦ rfl⟩
  | cons text texts ih =>
    rw [List.foldlM_cons] at hadd
    obtain ⟨first, hfirst, hrest⟩ := bind_eq_ok.mp hadd
    obtain ⟨hindexed, hsame⟩ := addText_spec h hfirst
    obtain ⟨hdone, hlast⟩ := ih hindexed hrest
    refine ⟨?_, hlast.name.trans hsame.name, fun key ↦ (hlast.doc key).trans (hsame.doc key)⟩
    rw [List.map_cons, List.append_cons]
    exact hdone

/-- The entry of a record: the numbers of its components, which follow those of the records before. -/
def docEntryOf (name : String) (before : List (RecordNumber × ComponentRecord))
    (record : RecordNumber × ComponentRecord) : Option ComponentDataItem :=
  if (record.2.components name).isEmpty then none
  else some ⟨record.1.1, (componentsOf name before).length + 1,
    (componentsOf name before).length + (componentsIn name record).length⟩

/-- The files of a definition hold the components of these records. -/
structure IndexedRecords (d : ComponentDef) (records : List (RecordNumber × ComponentRecord)) :
    Prop extends Indexed d (componentsOf d.comp.name records) where
  doc : ∀ before record after, records = before ++ record :: after →
    d.comp.compDb (.doc record.1.1) = docEntryOf d.comp.name before record
  undone : ∀ recnum : RecordNumber, (∀ record ∈ records, record.1 ≠ recnum) →
    d.comp.compDb (.doc recnum.1) = none

theorem indexedRecords_fresh (name : String) (endTag : Bool) (indexes : List (String × ℕ)) :
    IndexedRecords (.fresh name endTag indexes) [] where
  toIndexed := indexed_fresh name endTag indexes
  doc before record after hsplit := by simp at hsplit
  undone _ _ := rfl

theorem addTexts_spec {records : List (RecordNumber × ComponentRecord)}
    {record : RecordNumber × ComponentRecord} (h : IndexedRecords d records)
    (hnew : ∀ other ∈ records, other.1 ≠ record.1) (hadd : addTexts record.1 record.2 d = .ok d') :
    IndexedRecords d' (records ++ [record]) ∧ d'.comp.name = d.comp.name := by
  obtain ⟨start, hstart, hrest⟩ := bind_eq_ok.mp hadd
  obtain ⟨last, hlast, hd'⟩ := bind_eq_ok.mp hrest
  have hstart := checkInt_eq_ok hstart
  rw [h.maxComponentId] at hstart
  obtain ⟨hindexed, hsame⟩ := foldlM_addText_spec (record.2.components d.comp.name) h.toIndexed hlast
  have happend (name : String) : componentsOf name (records ++ [record]) =
      componentsOf name records ++ componentsIn name record := by
    rw [componentsOf, List.flatMap_append, List.flatMap_singleton]
    rfl
  have hname : d'.comp.name = d.comp.name := by
    rw [← Except.ok.inj hd']
    split
    · exact hsame.name
    · exact hsame.name
  have hdoc (recnum : RecordNumber) : d'.comp.compDb (.doc recnum.1) =
      if recnum = record.1 then docEntryOf d.comp.name records record
      else d.comp.compDb (.doc recnum.1) := by
    rw [← Except.ok.inj hd', docEntryOf]
    by_cases hempty : (record.2.components d.comp.name).isEmpty
    · rw [if_pos hempty, if_pos hempty, hsame.doc]
      split
      · next heq => rw [heq, h.undone record.1 hnew]
      · rfl
    · rw [if_neg hempty, if_neg hempty]
      rw [compDb_put]
      by_cases heq : recnum = record.1
      · rw [heq, if_pos rfl, if_pos rfl, hstart, hindexed.maxComponentId, List.length_append]
        push_cast
        rfl
      · have hne : ComponentKey.doc (recnum.1 : ℤ) ≠ .doc record.1.1 := by
          intro hkey
          exact heq (Subtype.ext (by exact_mod_cast ComponentKey.doc.inj hkey))
        rw [if_neg hne, hsame.doc, if_neg heq]
  have hcomponents : Indexed d' (componentsOf d'.comp.name (records ++ [record])) := by
    rw [hname, happend]
    rw [← Except.ok.inj hd']
    split
    · exact hindexed
    · refine ⟨hindexed.maxComponentId, ?_, hindexed.terms⟩
      intro number
      rw [compDb_put, if_neg (by simp)]
      exact hindexed.component number
  refine ⟨⟨hcomponents, ?_, ?_⟩, hname⟩
  · intro before other after hsplit
    rw [hdoc, hname]
    rcases List.eq_nil_or_concat after with rfl | ⟨after, final, rfl⟩
    · obtain ⟨rfl, hsame⟩ := List.append_inj' hsplit rfl
      cases hsame
      rw [if_pos rfl]
    · have hsplit' : records ++ [record] = (before ++ other :: after) ++ [final] := by
        rw [hsplit, List.concat_eq_append, List.append_assoc, List.cons_append]
      obtain ⟨rfl, -⟩ := List.append_inj' hsplit' rfl
      rw [if_neg (hnew other (by simp))]
      exact h.doc before other after rfl
  · intro recnum hother
    rw [hdoc, if_neg fun heq ↦ hother record (by simp) heq.symm]
    exact h.undone recnum fun other hmem ↦ hother other (List.mem_append_left _ hmem)

theorem indexRecords_spec {records : List (RecordNumber × ComponentRecord)}
    {done : List (RecordNumber × ComponentRecord)} {defs defs' : List ComponentDef}
    (hnodup : ((done ++ records).map Prod.fst).Nodup)
    (h : ∀ d ∈ defs, IndexedRecords d done) (hrun : indexRecords records defs = .ok defs') :
    ∀ d ∈ defs', IndexedRecords d (done ++ records) := by
  induction records generalizing done defs with
  | nil =>
    have hdefs := Except.ok.inj hrun
    subst hdefs
    rwa [List.append_nil]
  | cons record records ih =>
    rw [indexRecords, List.foldlM_cons] at hrun
    obtain ⟨next, hnext, hrest⟩ := bind_eq_ok.mp hrun
    have hnew : ∀ other ∈ done, other.1 ≠ record.1 := by
      intro other hother
      rw [List.map_append, List.nodup_append] at hnodup
      exact hnodup.2.2 _ (List.mem_map_of_mem hother) _ (by simp)
    rw [List.append_cons] at hnodup ⊢
    apply ih hnodup _ hrest
    intro d hd
    obtain ⟨old, hold, hadd⟩ := exists_of_forall₂ (forall₂_of_mapM hnext) hd
    exact (addTexts_spec (h old hold) hnew hadd).1

end Cheshire.Index
