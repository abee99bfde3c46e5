import Cheshire.Index.DiacriticsImages

/-!
# How much the conversion of diacritics writes

A pass of the loop writes what stands for the characters it goes over, and goes on inside the text or ends
behind it.  So the block has room for the whole text as long as the characters that are doubled outnumber
the ones that are dropped by less than 40.
-/

namespace Cheshire.Index

open Lib.Buffer

section Pass

variable {o : Conversion} {zeros size : ℕ} {text : List Char} {buf : Databuf} {out : List Char}

/-- The pass ends inside the text. -/
def Continues (o : Conversion) (place : Place) (zeros : ℕ) (text : List Char) (buf : Databuf)
    (run : Exec (List Char × Databuf)) : Prop :=
  ∃ rest bytes nonRoman, rest <:+ text ∧ rest.length < text.length ∧
    (rest = [] → text.getLast? ≠ some '\r') ∧
    (images o place text).flatten = bytes ++ (images o .outside rest).flatten ∧
      run = buf.putAll bytes >>= fun buf ↦
        .ok (rest ++ List.replicate (zeros + 1) nul, buf.flagged nonRoman)

/-- The pass goes on to the zero at the end of the text and behind it. -/
def Ends (o : Conversion) (place : Place) (zeros : ℕ) (text : List Char) (buf : Databuf)
    (run : Exec (List Char × Databuf)) : Prop :=
  ∃ left ending, left ≤ zeros ∧ zeros ≤ left + 1 ∧ (ending = [] ∨ ending = [nul]) ∧
    (o.tags = false → o.marks = false → text.getLast? = some '\r') ∧
      run = buf.putAll ((images o place text).flatten ++ ending) >>= fun buf ↦
        .ok (List.replicate left nul, buf)

theorem putAll_store_tail (h : buf.OutSoFar size out) (hlast : ∀ last ∈ o.last, size ≤ last) (xs : List Char)
    (t : Char) (memory : List Char) :
    (buf.putAll xs >>= fun buf ↦ o.store buf t >>= fun buf ↦ .ok (memory, buf)) =
      buf.putAll (xs ++ [t]) >>= fun buf ↦ .ok (memory, buf) := by
  rw [← h.putAll_store hlast, bind_assoc]

theorem passReturns_spec (o : Conversion) (zeros : ℕ) (text : List Char) :
    ∃ returns rest, text = returns ++ rest ∧ (∀ c ∈ returns, c = '\r') ∧ rest.head? ≠ some '\r' ∧ ∃ bytes,
      (images o .behind text).flatten = bytes ++ (images o .behind rest).flatten ∧ ∀ buf,
        passReturns o (text.headD nul, text ++ List.replicate (zeros + 1) nul, buf) =
          buf.putAll bytes >>= fun buf ↦
            .ok (rest.headD nul, rest ++ List.replicate (zeros + 1) nul, buf) := by
  by_cases hhead : text.headD nul = '\r'
  · obtain ⟨returns, rest, htext, hreturns, hrest, -, bytes, hflatten, hrun⟩ :=
      skipReturns_spec o zeros text
    refine ⟨returns, rest, htext, hreturns, hrest, bytes, hflatten, fun buf ↦ ?_⟩
    rw [passReturns, if_pos hhead, hrun, bind_assoc]
    congr 1
    funext buf
    change (readChar (rest ++ List.replicate (zeros + 1) nul) >>= fun t ↦ _) = _
    rw [readChar_memory]
    rfl
  · refine ⟨[], text, rfl, by simp, ?_, [], rfl, fun buf ↦ ?_⟩
    · cases text with
      | nil => simp
      | cons c text => simpa using hhead
    · rw [passReturns, if_neg hhead]
      rfl

theorem behind_spec (h : buf.OutSoFar size out) (hlast : ∀ last ∈ o.last, size ≤ last) (zeros : ℕ)
    (text before : List Char) {run : Exec (List Char × Databuf)}
    (hrun : run = buf.putAll before >>= fun buf ↦
      passReturns o (text.headD nul, text ++ List.replicate (zeros + 1) nul, buf) >>= fun read ↦
        o.store read.2.2 read.1 >>= fun buf ↦ .ok (read.2.1.tail, buf)) :
    (∃ rest bytes, rest <:+ text ∧ rest.length < text.length ∧ (rest = [] → text.getLast? ≠ some '\r') ∧
      (images o .behind text).flatten = bytes ++ (images o .outside rest).flatten ∧
        run = buf.putAll (before ++ bytes) >>= fun buf ↦
          .ok (rest ++ List.replicate (zeros + 1) nul, buf)) ∨
    ((∀ c ∈ text, c = '\r') ∧
      run = buf.putAll (before ++ (images o .behind text).flatten ++ [nul]) >>= fun buf ↦
        .ok (List.replicate zeros nul, buf)) := by
  obtain ⟨returns, rest, rfl, hreturns, hrest, bytes, hflatten, hpass⟩ := passReturns_spec o zeros text
  have hstored : run = buf.putAll (before ++ bytes ++ [rest.headD nul]) >>= fun buf ↦
      .ok ((rest ++ List.replicate (zeros + 1) nul).tail, buf) := by
    rw [← putAll_store_tail h hlast, Databuf.putAll_append, bind_assoc, hrun]
    congr 1
    funext buf
    rw [hpass, bind_assoc]
    rfl
  cases rest with
  | nil =>
    refine Or.inr ⟨by simpa using hreturns, ?_⟩
    rw [hflatten, @images_nil o .behind (by decide), List.flatten_nil, List.append_nil]
    exact hstored
  | cons c rest =>
    have hc : c ≠ '\r' := fun heq ↦ hrest (congrArg some heq)
    have himage : imageOf o .behind c rest = ([c], .outside) := by rw [imageOf, if_neg hc]
    have hsuffix : rest <:+ returns ++ c :: rest :=
      (List.suffix_cons c rest).trans (List.suffix_append returns _)
    refine Or.inl ⟨rest, bytes ++ [c], hsuffix, ?_, ?_, ?_, ?_⟩
    · rw [List.length_append, List.length_cons]
      omega
    · intro hnil
      rw [hnil]
      simpa using hc
    · rw [hflatten, images, himage, List.flatten_cons, List.append_assoc]
    · rw [← List.append_assoc]
      exact hstored

theorem Databuf.flagged_false (buf : Databuf) : buf.flagged false = buf := by
  rw [Databuf.flagged, Bool.or_false]

theorem passBody_cdata {c : Char} (htext : nul ∉ c :: text) (zeros : ℕ) (buf : Databuf)
    (htags : o.tags = true)
    (hcdata : ['<', '!', '[', 'C', 'D', 'A', 'T', 'A', '['].isPrefixOf (c :: text) = true) :
    Continues o .fresh zeros (c :: text) buf
      (passBody o (c :: text ++ List.replicate (zeros + 1) nul) buf) ∨
    Ends o .fresh zeros (c :: text) buf
      (passBody o (c :: text ++ List.replicate (zeros + 1) nul) buf) := by
  obtain ⟨rest, hrest, hsuffix, bytes, hflatten, hrun⟩ := copySection_spec o zeros htext
  have hc : c = '<' := by
    rw [List.isPrefixOf_cons_cons, Bool.and_eq_true, beq_iff_eq] at hcdata
    exact hcdata.1.symm
  have himages : images o .fresh (c :: text) = images o .cdata (c :: text) := by
    have hfresh : imageOf o .fresh c text = ([c], .cdata) := if_pos ⟨htags, hcdata⟩
    have hsection : imageOf o .cdata c text = ([c], .cdata) := by
      subst hc
      rfl
    rw [images, images, hfresh, hsection]
  have hpass : passBody o (c :: text ++ List.replicate (zeros + 1) nul) buf =
      buf.putAll bytes >>= fun buf ↦ .ok ((rest ++ List.replicate (zeros + 1) nul).tail, buf) := by
    have hpre := (@isPrefixOf_append_zeros ['<', '!', '[', 'C', 'D', 'A', 'T', 'A', '['] (by decide)
      (zeros + 1) (c :: text)).trans hcdata
    have hread : readChar (c :: text ++ List.replicate (zeros + 1) nul) = .ok c := rfl
    rw [passBody, hread]
    change (if o.tags = true ∧ _ then _ else _) = _
    rw [if_pos ⟨htags, hpre⟩, hrun, bind_assoc]
    rfl
  rw [hpass]
  cases rest with
  | nil =>
    refine Or.inr ⟨zeros, [], le_rfl, Nat.le_succ zeros, Or.inl rfl, ?_, ?_⟩
    · intro hnone
      rw [htags] at hnone
      cases hnone
    · rw [himages, hflatten, @images_nil o .cdata (by decide)]
      simp
  | cons t rest =>
    have hend := hrest.resolve_left (List.cons_ne_nil t rest)
    have himage : imageOf o .cdata t rest = ([], .outside) := if_pos hend
    refine Or.inl ⟨rest, bytes, false, (List.suffix_cons t rest).trans hsuffix, ?_, ?_, ?_, ?_⟩
    · exact Nat.lt_of_succ_le hsuffix.length_le
    · rintro rfl
      rw [List.isPrefixOf_cons_cons, Bool.and_eq_true] at hend
      cases hend.2
    · rw [himages, hflatten, images, himage]
      rfl
    · simp only [Databuf.flagged_false]
      rfl

theorem passBody_eq {c : Char} {memory : List Char} (hread : readChar memory = .ok c)
    (hcdata : ¬ (o.tags = true ∧
      ['<', '!', '[', 'C', 'D', 'A', 'T', 'A', '['].isPrefixOf memory = true))
    (hmapped : ¬ (128 < c.toNat ∧ o.mapped = true)) (buf : Databuf) :
    passBody o memory buf = passTags o c memory buf >>= fun tagged ↦ passReturns o tagged >>= fun read ↦
      o.store read.2.2 read.1 >>= fun buf ↦ .ok (read.2.1.tail, buf) := by
  rw [passBody, hread]
  change (if o.tags = true ∧ _ then _ else _) = _
  rw [if_neg hcdata]
  simp only [if_neg hmapped]

theorem not_cdata_append_zeros {zeros : ℕ} {text : List Char}
    (h : ¬ (o.tags = true ∧
      ['<', '!', '[', 'C', 'D', 'A', 'T', 'A', '['].isPrefixOf text = true)) :
    ¬ (o.tags = true ∧ ['<', '!', '[', 'C', 'D', 'A', 'T', 'A', '['].isPrefixOf
      (text ++ List.replicate zeros nul) = true) := by
  rwa [isPrefixOf_append_zeros (by decide)]

theorem passBody_nil (h : buf.OutSoFar size out) (hlast : ∀ last ∈ o.last, size ≤ last) (zeros : ℕ) :
    passBody o (List.replicate (zeros + 1) nul) buf =
      buf.putAll [nul] >>= fun buf ↦ .ok (List.replicate zeros nul, buf) := by
  have hcdata := @not_cdata_append_zeros o (zeros + 1) [] fun hnil ↦ Bool.false_ne_true hnil.2
  have hmapped : ¬ (128 < nul.toNat ∧ o.mapped = true) := fun hbig ↦ absurd hbig.1 (by decide)
  have htags : passTags o nul (List.replicate (zeros + 1) nul) buf =
      .ok (nul, List.replicate (zeros + 1) nul, buf) := if_neg fun hlt ↦ absurd hlt.2 (by decide)
  have hread : readChar (List.replicate (zeros + 1) nul) = .ok nul := rfl
  rw [List.nil_append] at hcdata
  rw [passBody_eq hread hcdata hmapped, htags]
  exact putAll_store_tail h hlast [] nul (List.replicate zeros nul)

theorem passBody_tag_eq (htext : nul ∉ '<' :: text) (zeros : ℕ) (buf : Databuf) (htags : o.tags = true)
    (hcdata : ['<', '!', '[', 'C', 'D', 'A', 'T', 'A', '['].isPrefixOf ('<' :: text) = false) :
    ∃ rest bytes, (rest = [] ∨ ∃ more, rest = '>' :: more ∧ more.head? ≠ some '<') ∧ rest <:+ '<' :: text ∧
      (images o .fresh ('<' :: text)).flatten = bytes ++ (images o .tag rest).flatten ∧
        passBody o ('<' :: text ++ List.replicate (zeros + 1) nul) buf =
          buf.putAll bytes >>= fun buf ↦
            (if o.prox then .ok (' ', rest ++ List.replicate (zeros + 1) nul, buf)
            else readChar (rest ++ List.replicate (zeros + 1) nul).tail >>= fun t ↦
              .ok (t, (rest ++ List.replicate (zeros + 1) nul).tail, buf)) >>= fun tagged ↦
            passReturns o tagged >>= fun read ↦
              o.store read.2.2 read.1 >>= fun buf ↦ .ok (read.2.1.tail, buf) := by
  obtain ⟨rest, hrest, hsuffix, bytes, hflatten, hrun⟩ := skipTags_spec o zeros htext rfl
  have hnot : ¬ (o.tags = true ∧
      ['<', '!', '[', 'C', 'D', 'A', 'T', 'A', '['].isPrefixOf ('<' :: text) = true) := by
    rw [hcdata]
    exact fun h ↦ Bool.false_ne_true h.2
  have himages : images o .fresh ('<' :: text) = images o .tag ('<' :: text) := by
    have hfresh : imageOf o .fresh '<' text = (o.blank, .tag) := by
      rw [imageOf, freshImage, if_neg hnot, if_pos ⟨htags, rfl⟩]
    have htag : imageOf o .tag '<' text = (o.blank, .tag) := rfl
    rw [images, images, hfresh, htag]
  refine ⟨rest, bytes, hrest, hsuffix, himages ▸ hflatten, ?_⟩
  have hread : readChar ('<' :: text ++ List.replicate (zeros + 1) nul) = .ok '<' := rfl
  rw [passBody_eq hread (not_cdata_append_zeros hnot) (fun hbig ↦ absurd hbig.1 (by decide)) buf, passTags,
    if_pos ⟨htags, rfl⟩, hrun, bind_assoc, bind_assoc]
  rfl

theorem passBody_tag_prox (h : buf.OutSoFar size out) (hlast : ∀ last ∈ o.last, size ≤ last) (zeros : ℕ)
    (htext : nul ∉ '<' :: text) (htags : o.tags = true) (hprox : o.prox = true)
    (hcdata : ['<', '!', '[', 'C', 'D', 'A', 'T', 'A', '['].isPrefixOf ('<' :: text) = false) :
    Continues o .fresh zeros ('<' :: text) buf
      (passBody o ('<' :: text ++ List.replicate (zeros + 1) nul) buf) ∨
    Ends o .fresh zeros ('<' :: text) buf
      (passBody o ('<' :: text ++ List.replicate (zeros + 1) nul) buf) := by
  obtain ⟨rest, bytes, hrest, hsuffix, hflatten, hpass⟩ := passBody_tag_eq htext zeros buf htags hcdata
  simp only [hprox, if_true] at hpass
  have hstored := hpass.trans
    (putAll_store_tail h hlast bytes ' ' (rest ++ List.replicate (zeros + 1) nul).tail)
  rw [hstored]
  rcases hrest with rfl | ⟨more, rfl, hhead⟩
  · refine Or.inr ⟨zeros, [], le_rfl, Nat.le_succ zeros, Or.inl rfl, ?_, ?_⟩
    · intro hnone
      rw [htags] at hnone
      cases hnone
    · rw [hflatten, images, if_pos ⟨hprox, rfl⟩, List.append_nil]
      rfl
  · have himage : imageOf o .tag '>' more = ([' '], .outside) := by
      rw [imageOf, if_pos rfl, if_neg hhead, Conversion.blank, hprox]
      rfl
    refine Or.inl ⟨more, bytes ++ [' '], false, (List.suffix_cons '>' more).trans hsuffix, ?_, ?_, ?_, ?_⟩
    · exact Nat.lt_of_succ_le hsuffix.length_le
    · rintro rfl
      rw [getLast?_of_suffix hsuffix (List.cons_ne_nil _ _)]
      simp
    · rw [hflatten, images, himage, List.flatten_cons, List.append_assoc]
    · simp only [Databuf.flagged_false]
      rfl

theorem passBody_tag_dropped (h : buf.OutSoFar size out) (hlast : ∀ last ∈ o.last, size ≤ last)
    (htext : nul ∉ '<' :: text) (hzeros : 1 ≤ zeros) (htags : o.tags = true) (hprox : o.prox = false)
    (hcdata : ['<', '!', '[', 'C', 'D', 'A', 'T', 'A', '['].isPrefixOf ('<' :: text) = false) :
    Continues o .fresh zeros ('<' :: text) buf
      (passBody o ('<' :: text ++ List.replicate (zeros + 1) nul) buf) ∨
    Ends o .fresh zeros ('<' :: text) buf
      (passBody o ('<' :: text ++ List.replicate (zeros + 1) nul) buf) := by
  obtain ⟨rest, bytes, hrest, hsuffix, hflatten, hpass⟩ := passBody_tag_eq htext zeros buf htags hcdata
  simp only [hprox, Bool.false_eq_true, if_false] at hpass
  have hdetag : o.tags = false → o.marks = false → ('<' :: text).getLast? = some '\r' := by
    intro hnone
    rw [htags] at hnone
    cases hnone
  rcases hrest with rfl | ⟨more, rfl, hhead⟩
  · -- the tag is still open at the end of the text
    obtain ⟨left, rfl⟩ : ∃ left, zeros = left + 1 := ⟨zeros - 1, by omega⟩
    rcases behind_spec h hlast left [] bytes hpass with ⟨rest, -, -, hlength, -⟩ | ⟨-, hbehind⟩
    · exact absurd hlength (Nat.not_lt_zero _)
    · refine Or.inr ⟨left, [nul], Nat.le_succ left, le_rfl, Or.inr rfl, hdetag, ?_⟩
      rw [hbehind, hflatten, images_nil_of_not_prox hprox, images_nil_of_not_prox hprox]
  · have himage : imageOf o .tag '>' more = ([], .behind) := by
      rw [imageOf, if_pos rfl, if_neg hhead, Conversion.blank, hprox]
      rfl
    have hmore : more <:+ '<' :: text := (List.suffix_cons '>' more).trans hsuffix
    have hwritten : (images o .fresh ('<' :: text)).flatten = bytes ++ (images o .behind more).flatten := by
      rw [hflatten, images, himage]
      rfl
    have hrun : passBody o ('<' :: text ++ List.replicate (zeros + 1) nul) buf =
        buf.putAll bytes >>= fun buf ↦
          passReturns o (more.headD nul, more ++ List.replicate (zeros + 1) nul, buf) >>= fun read ↦
            o.store read.2.2 read.1 >>= fun buf ↦ .ok (read.2.1.tail, buf) := by
      rw [hpass, List.cons_append, List.tail_cons, readChar_memory]
      rfl
    rcases behind_spec h hlast zeros more bytes hrun with
      ⟨rest, bytes', hrest, hlength, hlastChar, hflatten', hbehind⟩ | ⟨-, hbehind⟩
    · refine Or.inl ⟨rest, bytes ++ bytes', false, hrest.trans hmore,
        hlength.trans_le hmore.length_le, ?_, ?_, ?_⟩
      · intro hnil
        have hne : more ≠ [] := fun h ↦ Nat.not_lt_zero _ (h ▸ hlength)
        rw [getLast?_of_suffix hmore hne]
        exact hlastChar hnil
      · rw [hwritten, hflatten', List.append_assoc]
      · simp only [hbehind, Databuf.flagged_false]
    · refine Or.inr ⟨zeros, [nul], le_rfl, Nat.le_succ zeros, Or.inr rfl, hdetag, ?_⟩
      rw [hbehind, hwritten]

theorem passBody_other (h : buf.OutSoFar size out) (hlast : ∀ last ∈ o.last, size ≤ last) (zeros : ℕ)
    {c : Char}
    (hnot : ¬ (o.tags = true ∧
      ['<', '!', '[', 'C', 'D', 'A', 'T', 'A', '['].isPrefixOf (c :: text) = true))
    (htag : ¬ (o.tags = true ∧ c = '<')) :
    Continues o .fresh zeros (c :: text) buf
      (passBody o (c :: text ++ List.replicate (zeros + 1) nul) buf) ∨
    Ends o .fresh zeros (c :: text) buf
      (passBody o (c :: text ++ List.replicate (zeros + 1) nul) buf) := by
  have hread : readChar (c :: text ++ List.replicate (zeros + 1) nul) = .ok c := rfl
  have hpassTags : passTags o c (c :: text ++ List.replicate (zeros + 1) nul) buf =
      .ok (c, c :: text ++ List.replicate (zeros + 1) nul, buf) := if_neg htag
  by_cases hc : c = '\r'
  · subst hc
    have hpass := passBody_eq hread (not_cdata_append_zeros hnot) (fun hbig ↦ absurd hbig.1 (by decide)) buf
    have himages : images o .fresh ('\r' :: text) = images o .behind ('\r' :: text) := by
      have hfresh : imageOf o .fresh '\r' text = (o.blank, .behind) := by
        rw [imageOf, freshImage, if_neg hnot, if_neg htag, if_pos rfl]
      have hbehind : imageOf o .behind '\r' text = (o.blank, .behind) := rfl
      rw [images, images, hfresh, hbehind]
    rw [hpassTags] at hpass
    rcases behind_spec h hlast zeros ('\r' :: text) [] hpass with
      ⟨rest, bytes, hrest, hlength, hlastChar, hflatten, hbehind⟩ | ⟨hreturns, hbehind⟩
    · refine Or.inl ⟨rest, bytes, false, hrest, hlength, hlastChar, himages ▸ hflatten, ?_⟩
      simp only [hbehind, Databuf.flagged_false, List.nil_append]
    · refine Or.inr ⟨zeros, [nul], le_rfl, Nat.le_succ zeros, Or.inr rfl, fun _ _ ↦ ?_, ?_⟩
      · rw [List.getLast?_eq_some_getLast (List.cons_ne_nil _ _), hreturns _ (List.getLast_mem _)]
      · rw [hbehind, himages, List.nil_append]
  · have hpassReturns (buf : Databuf) :
        passReturns o (c, c :: text ++ List.replicate (zeros + 1) nul, buf) =
        .ok (c, c :: text ++ List.replicate (zeros + 1) nul, buf) := if_neg hc
    have hlastChar : text = [] → (c :: text).getLast? ≠ some '\r' := by
      rintro rfl
      simpa using hc
    by_cases hmapped : 128 < c.toNat ∧ o.mapped = true
    · have himage : imageOf o .fresh c text = (substituted o.latin c, .outside) := by
        rw [imageOf, freshImage, if_neg hnot, if_neg htag, if_neg hc, if_pos hmapped]
      refine Or.inl ⟨text, substituted o.latin c, decide (c.toNat < o.latin), List.suffix_cons c text,
        Nat.lt_succ_self _, hlastChar, ?_, ?_⟩
      · rw [images, himage, List.flatten_cons]
      · rw [passBody, hread]
        change (if o.tags = true ∧ _ then _ else _) = _
        rw [if_neg (not_cdata_append_zeros hnot), hpassTags]
        change (passReturns o (c, c :: text ++ List.replicate (zeros + 1) nul, buf) >>= fun read ↦ _) = _
        rw [hpassReturns]
        change (if 128 < c.toNat ∧ o.mapped = true then _ else _) = _
        rw [if_pos hmapped]
        rfl
    · have himage : imageOf o .fresh c text = ([c], .outside) := by
        rw [imageOf, freshImage, if_neg hnot, if_neg htag, if_neg hc, if_neg hmapped]
      refine Or.inl ⟨text, [c], false, List.suffix_cons c text, Nat.lt_succ_self _, hlastChar, ?_, ?_⟩
      · rw [images, himage, List.flatten_cons]
      · have hpass := passBody_eq hread (not_cdata_append_zeros hnot) hmapped buf
        rw [hpassTags] at hpass
        change _ =
          (passReturns o (c, c :: text ++ List.replicate (zeros + 1) nul, buf) >>= fun read ↦ _) at hpass
        rw [hpassReturns] at hpass
        simp only [Databuf.flagged_false]
        exact hpass.trans (putAll_store_tail h hlast [] c _)

theorem passBody_spec (h : buf.OutSoFar size out) (hlast : ∀ last ∈ o.last, size ≤ last)
    (htags : o.tags = true → 1 ≤ zeros) {c : Char} (htext : nul ∉ c :: text) :
    Continues o .fresh zeros (c :: text) buf
      (passBody o (c :: text ++ List.replicate (zeros + 1) nul) buf) ∨
    Ends o .fresh zeros (c :: text) buf
      (passBody o (c :: text ++ List.replicate (zeros + 1) nul) buf) := by
  by_cases hcdata : o.tags = true ∧
      ['<', '!', '[', 'C', 'D', 'A', 'T', 'A', '['].isPrefixOf (c :: text) = true
  · exact passBody_cdata htext zeros buf hcdata.1 hcdata.2
  · by_cases htag : o.tags = true ∧ c = '<'
    · obtain ⟨ho, rfl⟩ := htag
      have hnot : ['<', '!', '[', 'C', 'D', 'A', 'T', 'A', '['].isPrefixOf ('<' :: text) = false :=
        Bool.eq_false_iff.mpr fun hpre ↦ hcdata ⟨ho, hpre⟩
      cases hprox : o.prox with
      | true => exact passBody_tag_prox h hlast zeros htext ho hprox hnot
      | false => exact passBody_tag_dropped h hlast htext (htags ho) ho hprox hnot
    · exact passBody_other h hlast zeros hcdata htag

theorem dropWhile_append_zeros (zeros : ℕ) (text : List Char) :
    (text ++ List.replicate zeros nul).dropWhile (· = ' ') =
      text.dropWhile (· = ' ') ++ List.replicate zeros nul := by
  induction text with
  | nil =>
    cases zeros with
    | zero => rfl
    | succ zeros => rfl
  | cons c text ih =>
    by_cases hc : c = ' '
    · simp [hc, ih]
    · simp [hc]

theorem images_gap (o : Conversion) (text : List Char) :
    (images o (.gap 0) text).flatten = (images o .fresh (text.dropWhile (· = ' '))).flatten := by
  induction text with
  | nil => rw [List.dropWhile_nil, @images_nil o (.gap 0) (by decide), @images_nil o .fresh (by decide)]
  | cons c text ih =>
    by_cases hc : c = ' '
    · have himage : imageOf o (.gap 0) c text = ([], .gap 0) := by rw [imageOf, if_pos hc]
      rw [images, himage, List.dropWhile_cons_of_pos (by simpa using hc)]
      exact ih
    · have himage : imageOf o (.gap 0) c text = freshImage o c text := by rw [imageOf, if_neg hc]
      rw [images, himage, List.dropWhile_cons_of_neg (by simpa using hc), images]
      rfl

/-- What is behind the gap in front of a text. -/
def behindGap (o : Conversion) (text : List Char) : List Char := if o.marks then closeGap text else text

theorem behindGap_append_zeros (o : Conversion) (zeros : ℕ) {text : List Char} (htext : text ≠ []) :
    behindGap o (text ++ List.replicate zeros nul) = behindGap o text ++ List.replicate zeros nul := by
  obtain ⟨c, text, rfl⟩ := List.exists_cons_of_ne_nil htext
  rw [behindGap, behindGap]
  cases o.marks with
  | false => rfl
  | true =>
    rw [if_pos rfl, if_pos rfl, closeGap, closeGap, isPrefixOf_append_zeros (by decide),
      isPrefixOf_append_zeros (by decide)]
    split_ifs with hgap hmark
    · have hlength : 3 ≤ (c :: text).length := (List.isPrefixOf_iff_prefix.mp hgap).length_le
      rw [List.drop_append_of_le_length hlength, dropWhile_append_zeros]
    · rfl
    · rfl

theorem images_behindGap (o : Conversion) (text : List Char) :
    (images o .outside text).flatten = (images o .fresh (behindGap o text)).flatten := by
  cases text with
  | nil =>
    have hgap : behindGap o [] = [] := by
      rw [behindGap]
      split
      · rfl
      · rfl
    rw [hgap, @images_nil o .outside (by decide), @images_nil o .fresh (by decide)]
  | cons c text =>
    rw [behindGap]
    by_cases hmark : o.marks = true ∧ c = '\x01'
    · obtain ⟨ho, rfl⟩ := hmark
      have himage : imageOf o .outside '\x01' text =
          ([], if ['\x02', '\x03'].isPrefixOf text then .gap 2 else .fresh) := if_pos ⟨ho, rfl⟩
      rw [images, himage, if_pos ho, closeGap]
      by_cases hgap : ['\x02', '\x03'].isPrefixOf text = true
      · obtain ⟨rest, rfl⟩ := List.isPrefixOf_iff_prefix.mp hgap
        exact images_gap o rest
      · have hgap' : ¬ ['\x01', '\x02', '\x03'].isPrefixOf ('\x01' :: text) = true := by
          rw [List.isPrefixOf_cons_cons]
          simpa using hgap
        rw [if_neg hgap, if_neg hgap']
        rfl
    · have himage : imageOf o .outside c text = freshImage o c text := by
        rw [imageOf, if_neg hmark]
      have hstay : (if o.marks then closeGap (c :: text) else c :: text) = c :: text := by
        split_ifs with ho
        · have hc : (c == '\x01') = false := beq_eq_false_iff_ne.mpr fun heq ↦ hmark ⟨ho, heq⟩
          have hc' : ('\x01' == c) = false := by rwa [Bool.beq_comm]
          rw [closeGap, List.isPrefixOf_cons_cons, List.isPrefixOf_cons_cons, hc']
          rfl
        · rfl
      rw [hstay, images, images, himage]
      rfl

theorem behindGap_suffix (o : Conversion) (text : List Char) : behindGap o text <:+ text := by
  rw [behindGap]
  split
  · rw [closeGap]
    split_ifs
    · exact (List.dropWhile_suffix _).trans (List.drop_suffix 3 text)
    · exact List.tail_suffix text
    · exact List.suffix_refl text
  · exact List.suffix_refl text

theorem pass_spec (h : buf.OutSoFar size out) (hlast : ∀ last ∈ o.last, size ≤ last)
    (htags : o.tags = true → 1 ≤ zeros) (hnil : text ≠ []) (htext : nul ∉ text) :
    Continues o .outside zeros text buf (pass o (text ++ List.replicate (zeros + 1) nul) buf) ∨
      Ends o .outside zeros text buf (pass o (text ++ List.replicate (zeros + 1) nul) buf) := by
  have hpass : pass o (text ++ List.replicate (zeros + 1) nul) buf =
      passBody o (behindGap o text ++ List.replicate (zeros + 1) nul) buf := by
    rw [← behindGap_append_zeros o (zeros + 1) hnil]
    rfl
  have hsuffix := behindGap_suffix o text
  have hflatten := images_behindGap o text
  rw [hpass]
  cases hgap : behindGap o text with
  | nil =>
    rw [hgap] at hflatten
    refine Or.inr ⟨zeros, [nul], le_rfl, Nat.le_succ zeros, Or.inr rfl, fun _ hmarks ↦ ?_, ?_⟩
    · rw [behindGap, hmarks] at hgap
      exact absurd hgap hnil
    · rw [hflatten, @images_nil o .fresh (by decide)]
      exact passBody_nil h hlast zeros
  | cons c rest =>
    rw [hgap] at hsuffix hflatten
    have hlastChar := getLast?_of_suffix hsuffix (List.cons_ne_nil c rest)
    rcases passBody_spec h hlast htags (fun hmem ↦ htext (hsuffix.mem hmem)) with
      ⟨rest', bytes, nonRoman, hrest, hlength, hreturn, hwritten, hrun⟩ |
        ⟨left, ending, hle, hlower, hending, hreturn, hrun⟩
    · refine Or.inl ⟨rest', bytes, nonRoman, hrest.trans hsuffix,
        hlength.trans_le hsuffix.length_le, ?_, ?_, hrun⟩
      · rwa [hlastChar]
      · rw [hflatten, hwritten]
    · refine Or.inr ⟨left, ending, hle, hlower, hending, ?_, ?_⟩
      · rwa [hlastChar]
      · rwa [hflatten]

end Pass

/-- Everything is written into the block, and a zero is left behind it. -/
def Contained (run : Exec Databuf) : Prop := ∃ buf, run = .ok buf ∧ nul ∈ buf.cells

section Convert

variable {o : Conversion} {zeros size : ℕ} {buf : Databuf} {out : List Char}

theorem not_contained_error (fault : Fault) : ¬ Contained (.error fault) := by
  rintro ⟨buf, hbuf, -⟩
  cases hbuf

theorem Databuf.OutSoFar.nul_mem_iff (h : buf.OutSoFar size out) :
    nul ∈ buf.cells ↔ nul ∈ out ∨ out.length < size := by
  rw [h.holds.2, List.mem_append, List.mem_replicate]
  have hroom := h.holds.length_le
  exact or_congr_right ⟨fun hmem ↦ by omega, fun hlt ↦ ⟨by omega, rfl⟩⟩

theorem contained_ok_iff (h : buf.OutSoFar size out) :
    Contained (.ok buf) ↔ nul ∈ out ∨ out.length < size := by
  rw [← h.nul_mem_iff]
  constructor
  · rintro ⟨buf', hbuf, hmem⟩
    rwa [Except.ok.inj hbuf]
  · exact fun hmem ↦ ⟨buf, rfl, hmem⟩

theorem contained_putAll_iff (h : buf.OutSoFar size out) (hout : nul ∉ out) {bytes ending : List Char}
    (hbytes : nul ∉ bytes) (hending : ending = [] ∨ ending = [nul]) :
    Contained (buf.putAll (bytes ++ ending)) ↔ out.length + bytes.length < size := by
  rcases Nat.lt_or_ge size (out.length + (bytes ++ ending).length) with hlt | hle
  · rw [h.putAll_eq_error hlt]
    refine iff_of_false (not_contained_error _) ?_
    rcases hending with rfl | rfl
    · rw [List.append_nil] at hlt
      omega
    · rw [List.length_append, List.length_singleton] at hlt
      omega
  · obtain ⟨buf', hall, hfilled⟩ := h.putAll hle
    rw [hall, contained_ok_iff hfilled]
    rcases hending with rfl | rfl
    · simp [hout, hbytes]
    · rw [List.length_append, List.length_singleton] at hle
      exact iff_of_true (Or.inl (by simp)) (by omega)

/-- The loop stays inside the block exactly if what stands for the characters and a zero have room there.
It goes on behind a string that ends in a carriage return and has a single zero behind it. -/
theorem contained_convert_iff (h : buf.OutSoFar size out) (hout : nul ∉ out)
    (hlast : ∀ last ∈ o.last, size ≤ last)
    (hzeros : 2 ≤ zeros ∨ zeros = 0 ∧ o.tags = false ∧ o.marks = false) {text : List Char}
    (htext : nul ∉ text) {fuel : ℕ} (hfuel : text.length + 2 ≤ fuel) :
    Contained (convert o fuel (text ++ List.replicate (zeros + 1) nul) buf) ↔
      out.length + (images o .outside text).flatten.length < size ∧
        (zeros = 0 → text.getLast? ≠ some '\r') := by
  induction fuel generalizing text buf out with
  | zero => exact absurd hfuel (by omega)
  | succ fuel ih =>
    have hconvert : convert o (fuel + 1) (text ++ List.replicate (zeros + 1) nul) buf =
        if text.headD nul = nul then .ok buf
        else pass o (text ++ List.replicate (zeros + 1) nul) buf >>= fun next ↦
          convert o fuel next.1 next.2 := by
      rw [convert, readChar_memory]
      rfl
    by_cases hnil : text = []
    · subst hnil
      rw [hconvert, List.headD_nil, if_pos rfl, contained_ok_iff h, @images_nil o .outside (by decide)]
      simp [hout]
    have hhead : text.headD nul ≠ nul := by
      obtain ⟨c, rest, rfl⟩ := List.exists_cons_of_ne_nil hnil
      exact fun heq ↦ htext (by rw [← heq]; exact List.mem_cons_self)
    have htags : o.tags = true → 1 ≤ zeros := fun ho ↦ by
      rcases hzeros with hzeros | ⟨-, hnone, -⟩
      · omega
      · rw [hnone] at ho
        cases ho
    have hwritten := nul_notMem_flatten_images o .outside htext
    rw [hconvert, if_neg hhead]
    rcases pass_spec h hlast htags hnil htext with
      ⟨rest, bytes, nonRoman, hrest, hlength, hreturn, hflatten, hpass⟩ |
        ⟨left, ending, hle, hlower, hending, hreturn, hpass⟩
    · rw [hpass, bind_assoc, hflatten, List.length_append]
      rw [hflatten, List.mem_append, not_or] at hwritten
      rcases Nat.lt_or_ge size (out.length + bytes.length) with hlt | hfits
      · rw [h.putAll_eq_error hlt]
        exact iff_of_false (not_contained_error _) fun hroom ↦ by omega
      obtain ⟨buf', hall, hfilled⟩ := h.putAll hfits
      have hstep : Contained (buf.putAll bytes >>= fun buf ↦
          (.ok (rest ++ List.replicate (zeros + 1) nul, buf.flagged nonRoman) : Exec (List Char × Databuf)) >>=
            fun next ↦ convert o fuel next.1 next.2) ↔
          Contained (convert o fuel (rest ++ List.replicate (zeros + 1) nul) (buf'.flagged nonRoman)) := by
        rw [hall]
        rfl
      have hsame : text.getLast? ≠ some '\r' ↔ rest.getLast? ≠ some '\r' := by
        by_cases hempty : rest = []
        · exact iff_of_true (hreturn hempty) (by rw [hempty]; simp)
        · rw [getLast?_of_suffix hrest hempty]
      rw [hstep, ih (hfilled.flagged nonRoman) (by simp [hout, hwritten.1])
        (fun hmem ↦ htext (hrest.mem hmem)) (by omega), List.length_append, hsame, add_assoc]
    · rw [hpass, bind_assoc]
      rcases hzeros with hzeros | ⟨hzero, hnotags, hnomarks⟩
      · obtain ⟨left, rfl⟩ : ∃ before, left = before + 1 := ⟨left - 1, by omega⟩
        have hend (buf : Databuf) : convert o fuel (List.replicate (left + 1) nul) buf = .ok buf := by
          obtain ⟨fuel, rfl⟩ : ∃ before, fuel = before + 1 := ⟨fuel - 1, by omega⟩
          rfl
        have hstep : (buf.putAll ((images o .outside text).flatten ++ ending) >>= fun buf ↦
            (.ok (List.replicate (left + 1) nul, buf) : Exec (List Char × Databuf)) >>= fun next ↦
              convert o fuel next.1 next.2) = buf.putAll ((images o .outside text).flatten ++ ending) := by
          have hpure : (fun buf ↦ (.ok (List.replicate (left + 1) nul, buf) : Exec (List Char × Databuf)) >>=
              fun next ↦ convert o fuel next.1 next.2) = (pure : Databuf → Exec Databuf) := funext hend
          rw [hpure, bind_pure]
        rw [hstep, contained_putAll_iff h hout hwritten hending]
        have hne : zeros ≠ 0 := by omega
        simp [hne]
      · obtain rfl : left = 0 := by omega
        refine iff_of_false ?_ fun hroom ↦ hroom.2 hzero (hreturn hnotags hnomarks)
        cases buf.putAll ((images o .outside text).flatten ++ ending) with
        | error fault => exact not_contained_error fault
        | ok value =>
          obtain ⟨fuel, rfl⟩ : ∃ before, fuel = before + 1 := ⟨fuel - 1, by omega⟩
          exact not_contained_error .outOfBounds

end Convert

theorem length_images_of_not_prox {o : Conversion} (h : o.prox = false) (place : Place) (text : List Char) :
    (images o place text).length = text.length := by
  induction text generalizing place with
  | nil =>
    rw [images_nil_of_not_prox h]
    rfl
  | cons c text ih =>
    rw [images, List.length_cons, ih, List.length_cons]

theorem ElementData.nul_notMem_text (data : ElementData) : nul ∉ data.text := by
  rw [ElementData.text]
  cases data.instructed with
  | some text => exact text.val.terminated
  | none =>
    intro hmem
    have hne := List.mem_takeWhile_imp hmem
    simp at hne

theorem ElementData.length_text_le (data : ElementData) : data.text.length ≤ data.content.length := by
  rw [ElementData.text]
  cases data.instructed with
  | some text => exact text.property
  | none => exact (List.takeWhile_prefix _).length_le

/-- What stands for the characters of the text of an element, one by one. -/
def ElementData.images (data : ElementData) (indexType : ℕ) : List (List Char) :=
  Index.images (detagConversion data indexType) .outside data.text

/-- What stands for the characters of a string. -/
def stringImages (data : CString) (indexType : ℕ) : List (List Char) :=
  images (convConversion indexType) .outside data.chars

theorem contained_convDiacritics_iff (data : CString) (indexType : ℕ) :
    Contained (convDiacritics data indexType) ↔ DoNothing indexType ∨ data.chars.getLast? ≠ some '\r' ∧
      doubled (stringImages data indexType) < dropped (stringImages data indexType) + 40 := by
  rw [convDiacritics]
  split_ifs with hnothing
  · exact iff_of_true ⟨_, rfl, by simp [CString.stored]⟩ (Or.inl hnothing)
  · have hlength : (stringImages data indexType).length = data.length := length_images_of_not_prox rfl _ _
    have hcount : (stringImages data indexType).flatten.length + dropped (stringImages data indexType) =
        (stringImages data indexType).length + doubled (stringImages data indexType) :=
      length_flatten_images (small_images _ .outside data.terminated)
    have hlast : ∀ last ∈ (convConversion indexType).last, data.length + 40 ≤ last :=
      fun last hmem ↦ absurd hmem (Option.not_mem_none last)
    have hloop := contained_convert_iff (o := convConversion indexType)
      (Databuf.outSoFar_fresh (data.length + 40)) List.not_mem_nil hlast
      (Or.inr ⟨rfl, rfl, rfl⟩) data.terminated (le_refl (data.length + 2))
    have hstored : data.stored = data.chars ++ List.replicate (0 + 1) nul := rfl
    rw [hstored, hloop]
    change 0 + (stringImages data indexType).flatten.length < _ ∧ _ ↔ _
    simp only [hnothing, false_or, true_implies]
    constructor
    · exact fun h ↦ ⟨h.2, by omega⟩
    · exact fun h ↦ ⟨by omega, h.1⟩

theorem contained_detagBuffer_iff (data : ElementData) (indexType : ℕ) :
    Contained (detagBuffer data indexType) ↔ DoNothing indexType ∨
      (data.images indexType).length + doubled (data.images indexType) <
        dropped (data.images indexType) + data.content.length + 40 := by
  have hle := data.length_text_le
  rw [detagBuffer]
  split_ifs with hnothing
  · refine iff_of_true ⟨_, rfl, ?_⟩ (Or.inl hnothing)
    have hcopied : data.copied.length ≤ data.content.length := (List.takeWhile_prefix _).length_le
    exact List.mem_append_right _ (List.mem_replicate.mpr ⟨by omega, rfl⟩)
  · have hcount : (data.images indexType).flatten.length + dropped (data.images indexType) =
        (data.images indexType).length + doubled (data.images indexType) :=
      length_flatten_images (small_images _ .outside data.nul_notMem_text)
    obtain ⟨zeros, hzeros⟩ : ∃ zeros, data.content.length + 10 - data.text.length = zeros + 1 :=
      ⟨data.content.length + 9 - data.text.length, by omega⟩
    have hfuel : data.text.length + 2 ≤ data.content.length + 11 := by omega
    have hslack : 2 ≤ zeros ∨ zeros = 0 ∧ true = false ∧ data.instructed.isSome = false := Or.inl (by omega)
    have hlast : ∀ last ∈ (detagConversion data indexType).last, data.content.length + 40 ≤ last :=
      fun last hmem ↦ (Option.some.inj hmem).le
    have hloop := contained_convert_iff (o := detagConversion data indexType)
      (Databuf.outSoFar_fresh (data.content.length + 40)) List.not_mem_nil hlast hslack
      data.nul_notMem_text hfuel
    have hne : zeros ≠ 0 := by omega
    rw [ElementData.block, hzeros, hloop]
    change 0 + (data.images indexType).flatten.length < _ ∧ _ ↔ _
    simp only [hnothing, false_or, hne, false_implies, and_true]
    omega

/-- Both routines stay inside their blocks exactly if the characters that are doubled outnumber the ones
that are dropped by less than 40; a string must not end in a carriage return. -/
theorem contained_iff (string : CString) (data : ElementData) (indexType : ℕ) (idxGiven : Bool) :
    (Contained (convDiacritics string indexType) ↔
      DoNothing indexType ∨ string.chars.getLast? ≠ some '\r' ∧
        doubled (stringImages string indexType) < dropped (stringImages string indexType) + 40) ∧
    (Contained (detagBuffer data (detagType indexType idxGiven)) ↔
      DoNothing (detagType indexType idxGiven) ∨
        (data.images (detagType indexType idxGiven)).length +
            doubled (data.images (detagType indexType idxGiven)) <
          dropped (data.images (detagType indexType idxGiven)) + data.content.length + 40) :=
  ⟨contained_convDiacritics_iff string indexType, contained_detagBuffer_iff data _⟩

theorem nul_notMem_thorns : nul ∉ List.replicate 41 (Char.ofNat 164) := by decide

/-- Forty-one characters of which each becomes two. -/
def thorns : CString := ⟨List.replicate 41 (Char.ofNat 164), nul_notMem_thorns⟩

/-- Their conversion leaves the block. -/
theorem not_contained :
    convDiacritics thorns 0 = .error .outOfBounds ∧
      ¬ ∀ string data indexType idxGiven, Contained (convDiacritics string indexType) ∧
        Contained (detagBuffer data (detagType indexType idxGiven)) := by
  have hoverflow : convDiacritics thorns 0 = .error .outOfBounds := by decide +kernel
  refine ⟨hoverflow, fun hall ↦ ?_⟩
  obtain ⟨buf, hbuf, -⟩ := (hall thorns ⟨[], none⟩ 0 true).1
  rw [hoverflow] at hbuf
  cases hbuf

end Cheshire.Index
