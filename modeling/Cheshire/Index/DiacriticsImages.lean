import Cheshire.Index.Diacritics

/-!
# What stands for the characters of a text

Each character of a text is replaced by no character, by one or by two.  What stands for it depends on the
place of the character: in a tag, in a CDATA section, behind a carriage return.  The loops inside a pass
write what stands for the characters they go over.
-/

namespace Cheshire.Index

open Lib.Buffer

/-- Where a character of the text stands. -/
inductive Place where
  | outside
  /-- behind a mark that a processing instruction has left -/
  | fresh
  /-- in a gap, with so many of its marks still to come -/
  | gap (left : ℕ)
  | tag
  /-- behind a tag or a carriage return -/
  | behind
  | cdata
deriving DecidableEq, Repr

/-- What stands for a character that is dropped, unless positions are kept. -/
def Conversion.blank (o : Conversion) : List Char := if o.prox then [' '] else []

/-- What stands for a character outside of tags, and where the next one stands. -/
def freshImage (o : Conversion) (c : Char) (text : List Char) : List Char × Place :=
  if o.tags = true ∧ ['<', '!', '[', 'C', 'D', 'A', 'T', 'A', '['].isPrefixOf (c :: text) = true then
    ([c], .cdata)
  else if o.tags = true ∧ c = '<' then (o.blank, .tag)
  else if c = '\r' then (o.blank, .behind)
  else if 128 < c.toNat ∧ o.mapped = true then (substituted o.latin c, .outside)
  else ([c], .outside)

/-- What stands for a character at a place in front of `text`, and where the next one stands. -/
def imageOf (o : Conversion) : Place → Char → List Char → List Char × Place
  | .outside, c, text =>
    if o.marks = true ∧ c = '\x01' then
      ([], if ['\x02', '\x03'].isPrefixOf text then .gap 2 else .fresh)
    else freshImage o c text
  | .fresh, c, text => freshImage o c text
  | .gap 0, c, text => if c = ' ' then ([], .gap 0) else freshImage o c text
  | .gap (left + 1), _, _ => ([], .gap left)
  | .tag, c, text =>
    if c = '>' then
      if text.head? = some '<' then ([' '], .tag) else (o.blank, if o.prox then .outside else .behind)
    else (o.blank, .tag)
  | .behind, c, _ => if c = '\r' then (o.blank, .behind) else ([c], .outside)
  | .cdata, c, text => if [']', ']', '>'].isPrefixOf (c :: text) then ([], .outside) else ([c], .cdata)

/-- What stands for the characters of a text one by one; where positions are kept, a tag that is still open
at the end has a blank of its own. -/
def images (o : Conversion) : Place → List Char → List (List Char)
  | place, [] => if o.prox = true ∧ place = .tag then [[' ']] else []
  | place, c :: text => (imageOf o place c text).1 :: images o (imageOf o place c text).2 text

/-- The characters for which two stand. -/
def doubled (images : List (List Char)) : ℕ := images.countP fun image ↦ image.length = 2

/-- The characters for which none stands. -/
def dropped (images : List (List Char)) : ℕ := images.countP fun image ↦ image.length = 0

theorem images_nil (o : Conversion) {place : Place} (h : place ≠ .tag) : images o place [] = [] :=
  if_neg fun htag ↦ h htag.2

theorem images_nil_of_not_prox {o : Conversion} (h : o.prox = false) (place : Place) :
    images o place [] = [] :=
  if_neg fun hprox ↦ Bool.false_ne_true (h.symm.trans hprox.1)

theorem getLast?_of_suffix {rest text : List Char} (h : rest <:+ text) (hrest : rest ≠ []) :
    text.getLast? = rest.getLast? := by
  obtain ⟨before, rfl⟩ := h
  exact List.getLast?_append_of_ne_nil before hrest

theorem substituted_spec (latin : ℕ) (u : Char) : substituted latin u = [u] ∨
    ((substituted latin u).length = 1 ∨ (substituted latin u).length = 2) ∧ nul ∉ substituted latin u := by
  have hcases : ∀ row ∈ alaCases ++ latinCases, (row.2.length = 1 ∨ row.2.length = 2) ∧ nul ∉ row.2 := by
    decide
  rw [substituted]
  cases hfind : (if u.toNat < latin then alaCases else latinCases).find?
      fun row ↦ row.1.contains u.toNat with
  | none => exact Or.inl rfl
  | some row =>
    refine Or.inr (hcases row ?_)
    have hmem := List.mem_of_find?_eq_some hfind
    split at hmem
    · exact List.mem_append_left _ hmem
    · exact List.mem_append_right _ hmem

/-- No zero and at most two characters stand for a character other than zero. -/
def Small (image : List Char) : Prop := image.length ≤ 2 ∧ nul ∉ image

theorem small_freshImage (o : Conversion) {c : Char} (hc : c ≠ nul) (text : List Char) :
    Small (freshImage o c text).1 := by
  have hsingle : Small [c] := ⟨by simp, by simpa using hc.symm⟩
  have hblank : Small o.blank := by
    rw [Conversion.blank]
    split
    · exact ⟨by decide, by decide⟩
    · exact ⟨by decide, by decide⟩
  rw [freshImage]
  split_ifs
  · exact hsingle
  · exact hblank
  · exact hblank
  · rcases substituted_spec o.latin c with heq | ⟨hlength, hnul⟩
    · rw [heq]
      exact hsingle
    · exact ⟨hlength.elim (fun h ↦ h.trans_le (by decide)) fun h ↦ h.le, hnul⟩
  · exact hsingle

theorem small_imageOf (o : Conversion) (place : Place) {c : Char} (hc : c ≠ nul) (text : List Char) :
    Small (imageOf o place c text).1 := by
  have hsingle : Small [c] := ⟨by simp, by simpa using hc.symm⟩
  have hnone : Small [] := ⟨by decide, by decide⟩
  have hspace : Small [' '] := ⟨by decide, by decide⟩
  have hblank : Small o.blank := by
    rw [Conversion.blank]
    split
    · exact hspace
    · exact hnone
  have hfresh := small_freshImage o hc text
  fun_cases imageOf o place c text <;> assumption

theorem small_images (o : Conversion) (place : Place) {text : List Char} (htext : nul ∉ text) :
    ∀ image ∈ images o place text, Small image := by
  induction text generalizing place with
  | nil =>
    rw [images]
    split
    · exact List.forall_mem_singleton.mpr ⟨by decide, by decide⟩
    · simp
  | cons c text ih =>
    rw [List.mem_cons, not_or] at htext
    exact List.forall_mem_cons.mpr ⟨small_imageOf o place (Ne.symm htext.1) text, ih _ htext.2⟩

theorem length_flatten_images {images : List (List Char)} (h : ∀ image ∈ images, Small image) :
    images.flatten.length + dropped images = images.length + doubled images := by
  induction images with
  | nil => rfl
  | cons image images ih =>
    obtain ⟨⟨hlength, -⟩, hrest⟩ := List.forall_mem_cons.mp h
    have hrest := ih hrest
    rw [dropped, doubled] at hrest ⊢
    rw [List.flatten_cons, List.length_append, List.countP_cons, List.countP_cons, List.length_cons]
    simp only [decide_eq_true_eq]
    split_ifs
    all_goals omega

theorem nul_notMem_flatten_images (o : Conversion) (place : Place) {text : List Char} (htext : nul ∉ text) :
    nul ∉ (images o place text).flatten := by
  intro hmem
  obtain ⟨image, himage, hnul⟩ := List.mem_flatten.mp hmem
  exact (small_images o place htext image himage).2 hnul

namespace Databuf

/-- So much has been written into the block of `size` characters. -/
structure OutSoFar (size : ℕ) (buf : Databuf) (out : List Char) : Prop where
  holds : Lib.Buffer.Holds nul size buf.cells out
  i : buf.i = out.length

variable {size : ℕ} {buf : Databuf} {out : List Char}

theorem outSoFar_fresh (size : ℕ) : OutSoFar size (fresh size) [] := ⟨holds_calloc nul size, rfl⟩

theorem OutSoFar.flagged (h : OutSoFar size buf out) (nonRoman : Bool) :
    OutSoFar size (buf.flagged nonRoman) out :=
  ⟨h.holds, h.i⟩

theorem OutSoFar.i_le (h : OutSoFar size buf out) : buf.i ≤ size := h.i.trans_le h.holds.length_le

theorem OutSoFar.put (h : OutSoFar size buf out) (hlt : out.length < size) (c : Char) :
    ∃ buf', buf.put c = .ok buf' ∧ OutSoFar size buf' (out ++ [c]) := by
  obtain ⟨cells, hstore, hholds⟩ := h.holds.store hlt c
  refine ⟨{ buf with cells, i := buf.i + 1 }, by rw [Databuf.put, h.i, hstore], hholds, ?_⟩
  rw [h.i, List.length_append, List.length_singleton]

theorem OutSoFar.put_eq_error (h : OutSoFar size buf out) (hfull : out.length = size) (c : Char) :
    buf.put c = .error .outOfBounds := by
  rw [Databuf.put, store?, if_neg]
  rw [h.holds.length_cells, h.i, hfull]
  exact lt_irrefl size

theorem putAll_append (buf : Databuf) (xs ys : List Char) :
    buf.putAll (xs ++ ys) = buf.putAll xs >>= fun buf ↦ buf.putAll ys := List.foldlM_append

theorem putAll_cons (buf : Databuf) (x : Char) (xs : List Char) :
    buf.putAll (x :: xs) = buf.put x >>= fun buf ↦ buf.putAll xs := List.foldlM_cons

theorem putAll_singleton (buf : Databuf) (c : Char) : buf.putAll [c] = buf.put c := by
  rw [putAll_cons]
  cases buf.put c with
  | error fault => rfl
  | ok value => rfl

@[simp]
theorem putAll_nil (buf : Databuf) : buf.putAll [] = .ok buf := rfl

theorem OutSoFar.putAll (h : OutSoFar size buf out) {xs : List Char} (hle : out.length + xs.length ≤ size) :
    ∃ buf', buf.putAll xs = .ok buf' ∧ OutSoFar size buf' (out ++ xs) := by
  induction xs generalizing buf out with
  | nil => exact ⟨buf, rfl, by rwa [List.append_nil]⟩
  | cons x xs ih =>
    rw [List.length_cons] at hle
    obtain ⟨next, hput, hnext⟩ := h.put (by omega) x
    obtain ⟨buf', hall, hfilled⟩ := ih hnext (by rw [List.length_append, List.length_singleton]; omega)
    refine ⟨buf', ?_, ?_⟩
    · rw [putAll_cons, hput]
      exact hall
    · rwa [List.append_assoc] at hfilled

theorem OutSoFar.putAll_eq_error (h : OutSoFar size buf out) {xs : List Char}
    (hlt : size < out.length + xs.length) :
    buf.putAll xs = .error .outOfBounds := by
  induction xs generalizing buf out with
  | nil => exact absurd h.holds.length_le (Nat.not_le.mpr hlt)
  | cons x xs ih =>
    rw [putAll_cons]
    rcases h.holds.length_le.lt_or_eq with hroom | hfull
    · obtain ⟨next, hput, hnext⟩ := h.put hroom x
      rw [hput]
      refine ih hnext ?_
      rw [List.length_append, List.length_singleton]
      rw [List.length_cons] at hlt
      omega
    · rw [h.put_eq_error hfull]
      rfl

theorem OutSoFar.putAll_store (h : OutSoFar size buf out) {o : Conversion}
    (hlast : ∀ last ∈ o.last, size ≤ last) (xs : List Char) (t : Char) :
    (buf.putAll xs >>= fun buf ↦ o.store buf t) = buf.putAll (xs ++ [t]) := by
  rw [putAll_append]
  rcases Nat.lt_or_ge size (out.length + xs.length) with hlt | hle
  · rw [h.putAll_eq_error hlt]
    rfl
  · obtain ⟨buf', hall, hfilled⟩ := h.putAll hle
    rw [hall]
    change o.store buf' t = buf'.putAll [t]
    rw [putAll_singleton, Conversion.store]
    cases ho : o.last with
    | none => rfl
    | some last =>
      have hnot : ¬ last < buf'.i := Nat.not_lt.mpr (hfilled.i_le.trans (hlast last ho))
      exact if_neg hnot

end Databuf

section Loops

variable {o : Conversion} {zeros : ℕ} {text : List Char}

theorem isPrefixOf_append_zeros {mark : List Char} (hmark : nul ∉ mark) (zeros : ℕ) (text : List Char) :
    mark.isPrefixOf (text ++ List.replicate zeros nul) = mark.isPrefixOf text := by
  induction mark generalizing text with
  | nil => simp
  | cons x mark ih =>
    rw [List.mem_cons, not_or] at hmark
    cases text with
    | nil =>
      cases zeros with
      | zero => rfl
      | succ zeros =>
        have hne : (x == nul) = false := by simpa using Ne.symm hmark.1
        rw [List.nil_append, List.replicate_succ, List.isPrefixOf_cons_cons, hne, Bool.false_and]
        rfl
    | cons c text =>
      rw [List.cons_append, List.isPrefixOf_cons_cons, List.isPrefixOf_cons_cons, ih hmark.2]

/-- A loop of a pass that starts at a place writes what stands for the characters it goes over. -/
def Writes (o : Conversion) (place : Place) (zeros : ℕ) (text rest : List Char)
    (run : Databuf → Exec (List Char × Databuf)) : Prop :=
  rest <:+ text ∧ ∃ bytes,
    (images o place text).flatten = bytes ++ (images o place rest).flatten ∧
      ∀ buf, run buf = buf.putAll bytes >>= fun buf ↦ .ok (rest ++ List.replicate zeros nul, buf)

theorem Writes.refl {place : Place} {run : Databuf → Exec (List Char × Databuf)}
    (h : ∀ buf, run buf = .ok (text ++ List.replicate zeros nul, buf)) :
    Writes o place zeros text text run :=
  ⟨List.suffix_refl text, [], rfl, h⟩

theorem Writes.cons {place : Place} {rest : List Char} {c : Char} {image : List Char}
    (himage : imageOf o place c text = (image, place)) {run next : Databuf → Exec (List Char × Databuf)}
    (h : Writes o place zeros text rest next) (hrun : ∀ buf, run buf = buf.putAll image >>= next) :
    Writes o place zeros (c :: text) rest run := by
  obtain ⟨hsuffix, bytes, hflatten, hnext⟩ := h
  refine ⟨hsuffix.trans (List.suffix_cons c text), image ++ bytes, ?_, fun buf ↦ ?_⟩
  · rw [images, himage, List.flatten_cons, hflatten, List.append_assoc]
  · rw [hrun, Databuf.putAll_append, bind_assoc]
    exact congrArg _ (funext hnext)

theorem put_blank (o : Conversion) (buf : Databuf) :
    (if o.prox then buf.put ' ' else .ok buf) = buf.putAll o.blank := by
  rw [Conversion.blank]
  cases o.prox with
  | false => rfl
  | true =>
    rw [if_pos rfl, if_pos rfl, Databuf.putAll_singleton]

theorem readChar_memory (text : List Char) (zeros : ℕ) :
    readChar (text ++ List.replicate (zeros + 1) nul) = .ok (text.headD nul) := by
  cases text with
  | nil => rfl
  | cons c text => rfl

theorem copySection_spec (o : Conversion) (zeros : ℕ) {text : List Char} (htext : nul ∉ text) :
    ∃ rest, (rest = [] ∨ [']', ']', '>'].isPrefixOf rest = true) ∧
      Writes o .cdata (zeros + 1) text rest (copySection (text ++ List.replicate (zeros + 1) nul)) := by
  induction text with
  | nil => exact ⟨[], Or.inl rfl, Writes.refl fun buf ↦ if_pos (Or.inl rfl)⟩
  | cons c text ih =>
    have hstart := @isPrefixOf_append_zeros [']', ']', '>'] (by decide) (zeros + 1) (c :: text)
    rw [List.cons_append] at hstart
    cases hend : [']', ']', '>'].isPrefixOf (c :: text) with
    | true =>
      refine ⟨c :: text, Or.inr hend, Writes.refl fun buf ↦ ?_⟩
      rw [List.cons_append, copySection, if_pos (Or.inr (hstart.trans hend))]
    | false =>
      obtain ⟨hc, htext⟩ := not_or.mp fun h ↦ htext (List.mem_cons.mpr h)
      obtain ⟨rest, hrest, hwrites⟩ := ih htext
      have himage : imageOf o .cdata c text = ([c], .cdata) := by
        rw [imageOf, if_neg (by rw [hend]; exact Bool.false_ne_true)]
      refine ⟨rest, hrest, hwrites.cons himage fun buf ↦ ?_⟩
      rw [List.cons_append, copySection, if_neg, Databuf.putAll_singleton]
      rw [hstart, hend]
      simp [Ne.symm hc]

theorem skipReturns_spec (o : Conversion) (zeros : ℕ) (text : List Char) :
    ∃ returns rest, text = returns ++ rest ∧ (∀ c ∈ returns, c = '\r') ∧ rest.head? ≠ some '\r' ∧
      Writes o .behind (zeros + 1) text rest
        (skipReturns o.prox (text ++ List.replicate (zeros + 1) nul)) := by
  induction text with
  | nil => exact ⟨[], [], rfl, by simp, by simp, Writes.refl fun buf ↦ if_neg (by decide)⟩
  | cons c text ih =>
    by_cases hc : c = '\r'
    · obtain ⟨returns, rest, htext, hreturns, hrest, hwrites⟩ := ih
      have himage : imageOf o .behind c text = (o.blank, .behind) := by rw [imageOf, if_pos hc]
      refine ⟨c :: returns, rest, by rw [htext, List.cons_append],
        List.forall_mem_cons.mpr ⟨hc, hreturns⟩, hrest, hwrites.cons himage fun buf ↦ ?_⟩
      rw [← put_blank, List.cons_append, skipReturns, if_pos hc]
      cases o.prox with
      | false => rfl
      | true => rfl
    · refine ⟨[], c :: text, rfl, by simp, by simpa using hc, Writes.refl fun buf ↦ ?_⟩
      rw [List.cons_append, skipReturns, if_neg hc]

theorem skipTags_step (prox : Bool) {c t : Char} (hgt : c ≠ '>') (hnul : c ≠ nul) (memory : List Char)
    (buf : Databuf) : skipTags prox (c :: t :: memory) buf =
      (if prox then buf.put ' ' else .ok buf) >>= fun buf ↦
        if t = '>' then readChar memory >>= fun next ↦
          if next = '<' then buf.put ' ' >>= skipTags prox memory else skipTags prox (t :: memory) buf
        else skipTags prox (t :: memory) buf := by
  rw [skipTags, if_neg (not_or.mpr ⟨hgt, hnul⟩)]
  cases prox with
  | false => rfl
  | true => rfl

theorem skipTags_stop (prox : Bool) {c : Char} (hc : c = '>' ∨ c = nul) (memory : List Char)
    (buf : Databuf) : skipTags prox (c :: memory) buf = .ok (c :: memory, buf) := by
  cases memory with
  | nil => exact if_pos hc
  | cons t memory => exact if_pos hc

/-- Tags are dropped up to the last `>`, or blanks are put for them; between two tags there is a blank. -/
theorem skipTags_spec (o : Conversion) (zeros : ℕ) {text : List Char} (htext : nul ∉ text)
    (hjoint : ['>', '<'].isPrefixOf text = false) :
    ∃ rest, (rest = [] ∨ ∃ more, rest = '>' :: more ∧ more.head? ≠ some '<') ∧
      Writes o .tag (zeros + 1) text rest (skipTags o.prox (text ++ List.replicate (zeros + 1) nul)) := by
  have himage {c : Char} (hc : c ≠ '>') (text : List Char) : imageOf o .tag c text = (o.blank, .tag) := by
    rw [imageOf, if_neg hc]
  have hnil : Writes o .tag (zeros + 1) [] [] (skipTags o.prox ([] ++ List.replicate (zeros + 1) nul)) :=
    Writes.refl fun buf ↦ skipTags_stop o.prox (Or.inr rfl) _ buf
  have hend (text : List Char) : Writes o .tag (zeros + 1) ('>' :: text) ('>' :: text)
      (skipTags o.prox ('>' :: text ++ List.replicate (zeros + 1) nul)) :=
    Writes.refl fun buf ↦ skipTags_stop o.prox (Or.inl rfl) _ buf
  induction text using List.twoStepInduction with
  | nil => exact ⟨[], Or.inl rfl, hnil⟩
  | singleton c =>
    by_cases hc : c = '>'
    · subst hc
      exact ⟨['>'], Or.inr ⟨[], rfl, by simp⟩, hend []⟩
    · have hnul : c ≠ nul := fun h ↦ htext (by simp [h])
      refine ⟨[], Or.inl rfl, hnil.cons (himage hc []) fun buf ↦ ?_⟩
      rw [List.singleton_append, List.replicate_succ, skipTags_step _ hc hnul, put_blank]
      rfl
  | cons_cons c t more ihmore ihtext =>
    obtain ⟨hnul, htext⟩ := not_or.mp fun h ↦ htext (List.mem_cons.mpr h)
    obtain ⟨hnul', hmore⟩ := not_or.mp fun h ↦ htext (List.mem_cons.mpr h)
    by_cases hc : c = '>'
    · subst hc
      refine ⟨_, Or.inr ⟨t :: more, rfl, fun hhead ↦ ?_⟩, hend (t :: more)⟩
      rw [Option.some.inj hhead] at hjoint
      simp at hjoint
    have hstep (buf : Databuf) := skipTags_step o.prox (t := t) hc (Ne.symm hnul)
      (more ++ List.replicate (zeros + 1) nul) buf
    simp only [readChar_memory, put_blank] at hstep
    cases hjoint' : ['>', '<'].isPrefixOf (t :: more) with
    | false =>
      obtain ⟨rest, hrest, hwrites⟩ := ihtext t htext hjoint'
      refine ⟨rest, hrest, hwrites.cons (himage hc _) fun buf ↦ (hstep buf).trans ?_⟩
      congr 1
      funext buf
      split_ifs with ht
      · change (if more.headD nul = '<' then _ else _) = _
        refine if_neg fun hhead ↦ ?_
        subst ht
        cases more with
        | nil => exact absurd hhead (by decide)
        | cons next more =>
          rw [List.headD_cons] at hhead
          rw [hhead] at hjoint'
          simp at hjoint'
      · rfl
    | true =>
      obtain ⟨next, more, rfl⟩ : ∃ next rest, more = next :: rest := by
        cases more with
        | nil => simp at hjoint'
        | cons next more => exact ⟨next, more, rfl⟩
      rw [List.isPrefixOf_cons_cons, List.isPrefixOf_cons_cons, Bool.and_eq_true, Bool.and_eq_true,
        beq_iff_eq, beq_iff_eq] at hjoint'
      obtain ⟨rfl, rfl, -⟩ := hjoint'
      obtain ⟨rest, hrest, hwrites⟩ := ihmore hmore rfl
      have himage' : imageOf o .tag '>' ('<' :: more) = ([' '], .tag) := by rw [imageOf]; rfl
      have hjoined := hwrites.cons himage' (fun buf ↦ rfl)
      refine ⟨rest, hrest, hjoined.cons (himage hc _) fun buf ↦ (hstep buf).trans ?_⟩
      congr 1
      funext buf
      rw [Databuf.putAll_singleton]
      rfl

end Loops

end Cheshire.Index
