import Cheshire.Config.ClassTree

/-!
# The lines of an outline

An outline is written with a line end behind each line.  Where a line has at most 509 characters and its class
letters fit into a node, it is read as it was written; a longer line is read as several ones.
-/

namespace Cheshire.Config

def Decimal.text (number : Decimal) : List Char :=
  number.whole ++ if number.fraction = [] then [] else '.' :: number.fraction

structure Decimal.Written (number : Decimal) : Prop where
  nonempty : number.whole ≠ []
  whole : ∀ c ∈ number.whole, c.isDigit = true
  fraction : ∀ c ∈ number.fraction, c.isDigit = true

/-- Capital letters, at least one. -/
def Letters (text : List Char) : Prop := text ≠ [] ∧ ∀ c ∈ text, c.isUpper = true

namespace LineRange

def text : LineRange → List Char
  | letters low none => low
  | letters low (some high) => low ++ '-' :: high
  | numbers low none => low.text
  | numbers low (some high) => low.text ++ '-' :: high.text

def Written : LineRange → Prop
  | letters low high => Letters low ∧ ∀ other ∈ high, Letters other
  | numbers low high => low.Written ∧ ∀ other ∈ high, other.Written

/-- At most three class letters. -/
def Fits : LineRange → Prop
  | letters low high => low.length < CVAL_SIZE ∧ ∀ other ∈ high, other.length < CVAL_SIZE
  | numbers _ _ => True

end LineRange

namespace OutlineLine

def text (line : OutlineLine) : List Char :=
  List.replicate line.level '\t' ++ (line.range.text ++ ':' :: ' ' :: line.desc)

structure Written (line : OutlineLine) : Prop where
  range : line.range.Written
  desc : '\n' ∉ line.desc ∧ nul ∉ line.desc

/-- The level is kept in a `char`, the line is read by one call to `fgets`, and its class letters have room. -/
structure Fits (line : OutlineLine) : Prop where
  level : line.level ≤ 127
  length : line.text.length ≤ 509
  range : line.range.Fits

end OutlineLine

/-- The file of an outline. -/
def outlineFile (lines : List OutlineLine) : List Char := lines.flatMap fun line ↦ line.text ++ ['\n']

theorem fgetsLines_of_short {text line : List Char} (htext : '\n' ∉ text)
    (hshort : line.length + text.length ≤ 509) (rest : List Char) :
    fgetsLines line (text ++ '\n' :: rest) = (line ++ text ++ ['\n']) :: fgetsLines [] rest := by
  induction text generalizing line with
  | nil =>
    rw [List.nil_append, fgetsLines, if_pos (Or.inl rfl), List.append_nil]
  | cons c text ih =>
    rw [List.mem_cons, not_or] at htext
    rw [List.length_cons] at hshort
    have hnot : ¬(c = '\n' ∨ line.length + 1 = 510) := by
      rintro (hend | hfull)
      · exact htext.1 hend.symm
      · omega
    have hshort' : (line ++ [c]).length + text.length ≤ 509 := by
      rw [List.length_append, List.length_singleton]
      omega
    rw [List.cons_append, fgetsLines, if_neg hnot, ih htext.2 hshort', List.append_assoc line [c],
      List.singleton_append]

/-- A line takes a call at least, and a longer one takes more. -/
theorem lt_length_fgetsLines {text line : List Char} (hline : line.length ≤ 509) (rest : List Char) :
    (fgetsLines [] rest).length < (fgetsLines line (text ++ '\n' :: rest)).length ∧
      (509 < line.length + text.length →
        (fgetsLines [] rest).length + 1 < (fgetsLines line (text ++ '\n' :: rest)).length) := by
  induction text generalizing line with
  | nil =>
    rw [List.nil_append, fgetsLines, if_pos (Or.inl rfl), List.length_cons, List.length_nil]
    exact ⟨Nat.lt_succ_self _, fun hlong ↦ by omega⟩
  | cons c text ih =>
    rw [List.cons_append, fgetsLines]
    split_ifs with hends
    · have hempty : ([] : List Char).length ≤ 509 := Nat.zero_le _
      have hmore := (ih hempty).1
      rw [List.length_cons]
      exact ⟨by omega, fun _ ↦ by omega⟩
    · rw [not_or] at hends
      have hroom : (line ++ [c]).length ≤ 509 := by
        rw [List.length_append, List.length_singleton]
        omega
      obtain ⟨hone, hlonger⟩ := ih hroom
      refine ⟨hone, fun hlong ↦ hlonger ?_⟩
      rw [List.length_append, List.length_singleton]
      rw [List.length_cons] at hlong
      omega

section Scanning

variable {rest : List Char}

theorem takeWhile_append_of_stop {p : Char → Bool} {first : List Char}
    (hfirst : ∀ c ∈ first, p c = true) (hrest : ∀ c ∈ rest.head?, p c = false) :
    (first ++ rest).takeWhile p = first ∧ (first ++ rest).dropWhile p = rest := by
  rw [List.takeWhile_append_of_pos hfirst, List.dropWhile_append_of_pos hfirst]
  cases rest with
  | nil => exact ⟨List.append_nil first, rfl⟩
  | cons c rest =>
    have hstop : ¬p c = true := by
      rw [hrest c rfl]
      exact Bool.false_ne_true
    rw [List.takeWhile_cons_of_neg hstop, List.dropWhile_cons_of_neg hstop, List.append_nil]
    exact ⟨rfl, rfl⟩

theorem scanDecimal_text {number : Decimal} (h : number.Written)
    (hrest : rest = [] ∨ ∃ others, rest = '-' :: others) :
    scanDecimal (number.text ++ rest) = some (number, rest) := by
  have hdash : ∀ c ∈ rest.head?, c.isDigit = false := by
    rcases hrest with rfl | ⟨others, rfl⟩
    · exact fun c hc ↦ by cases hc
    · intro c hc
      cases hc
      decide
  obtain ⟨whole, fraction⟩ := number
  rw [scanDecimal, Decimal.text]
  by_cases hfraction : fraction = []
  · subst hfraction
    dsimp only
    rw [if_pos rfl, List.append_nil]
    obtain ⟨htake, hdrop⟩ := takeWhile_append_of_stop h.whole hdash
    rw [htake, hdrop]
    rcases hrest with rfl | ⟨others, rfl⟩
    · exact if_neg h.nonempty
    · exact if_neg h.nonempty
  · dsimp only
    rw [if_neg hfraction, List.append_assoc, List.cons_append]
    have hpoint : ∀ c ∈ ('.' :: (fraction ++ rest)).head?, c.isDigit = false := by
      intro c hc
      cases hc
      decide
    obtain ⟨htake, hdrop⟩ := takeWhile_append_of_stop h.whole hpoint
    obtain ⟨htake', hdrop'⟩ := takeWhile_append_of_stop h.fraction hdash
    rw [htake, hdrop]
    change (if whole ++ (fraction ++ rest).takeWhile Char.isDigit = [] then none
      else some (Decimal.mk whole ((fraction ++ rest).takeWhile Char.isDigit),
        (fraction ++ rest).dropWhile Char.isDigit)) = _
    rw [htake', hdrop']
    exact if_neg fun hnil ↦ h.nonempty (List.append_eq_nil_iff.mp hnil).1

theorem scanNumbers_text {low : Decimal} (hlow : low.Written) {high : Option Decimal}
    (hhigh : ∀ other ∈ high, other.Written) :
    scanNumbers (LineRange.numbers low high).text = .ok (.numbers low high) := by
  cases high with
  | none =>
    have hscan := scanDecimal_text hlow (Or.inl rfl)
    rw [List.append_nil] at hscan
    rw [LineRange.text, scanNumbers, hscan]
  | some high =>
    have hwritten := hhigh high rfl
    have hscan := scanDecimal_text hlow (Or.inr (Exists.intro high.text rfl))
    have hscan' := scanDecimal_text hwritten (Or.inl rfl)
    rw [List.append_nil] at hscan'
    have hdigit : high.text.dropWhile isSpace = high.text := by
      obtain ⟨c, whole, hwhole⟩ := List.exists_cons_of_ne_nil hwritten.nonempty
      have hspace : ¬isSpace c = true := by
        rw [not_isSpace_of_isDigit (hwritten.whole c (hwhole ▸ List.mem_cons_self))]
        exact Bool.false_ne_true
      rw [Decimal.text, hwhole, List.cons_append, List.dropWhile_cons_of_neg hspace]
    rw [LineRange.text, scanNumbers, hscan]
    dsimp only
    rw [hdigit, hscan']

theorem scanLetters_append {letters : List Char} (hletters : Letters letters)
    (hrest : rest = [] ∨ ∃ others, rest = '-' :: others) : scanLetters (letters ++ rest) =
      if letters.length < CVAL_SIZE then .ok (letters, rest) else .error (.fault .outOfBounds) := by
  have hdash : ∀ c ∈ rest.head?, c.isUpper = false := by
    rcases hrest with rfl | ⟨others, rfl⟩
    · exact fun c hc ↦ by cases hc
    · intro c hc
      cases hc
      decide
  obtain ⟨htake, hdrop⟩ := takeWhile_append_of_stop hletters.2 hdash
  rw [scanLetters, htake, hdrop]

theorem scanClasses_text {low : List Char} (hlow : Letters low) {high : Option (List Char)}
    (hhigh : ∀ other ∈ high, Letters other) (range : LineRange) :
    scanClasses (LineRange.letters low high).text = .ok range ↔
      (LineRange.letters low high).Fits ∧ range = .letters low high := by
  cases high with
  | none =>
    have hscan := scanLetters_append hlow (Or.inl rfl)
    rw [List.append_nil] at hscan
    rw [LineRange.text, scanClasses, hscan, LineRange.Fits]
    split_ifs with hfits
    · simp [bind, Except.bind, hlow.1, hfits, eq_comm]
    · simp [bind, Except.bind, hfits]
  | some high =>
    have hscan := scanLetters_append hlow (Or.inr (Exists.intro high rfl))
    have hscan' := scanLetters_append (hhigh high rfl) (Or.inl rfl)
    rw [List.append_nil] at hscan'
    rw [LineRange.text, scanClasses, hscan, LineRange.Fits]
    by_cases hfits : low.length < CVAL_SIZE
    · rw [if_pos hfits]
      by_cases hfits' : high.length < CVAL_SIZE
      · rw [if_pos hfits'] at hscan'
        simp [bind, Except.bind, hlow.1, (hhigh high rfl).1, hscan', hfits, hfits', eq_comm]
      · rw [if_neg hfits'] at hscan'
        simp [bind, Except.bind, hlow.1, hscan', hfits']
    · rw [if_neg hfits]
      simp [bind, Except.bind, hfits]

variable {range : LineRange} {c : Char}

theorem mem_text_range (h : range.Written) (hc : c ∈ range.text) :
    c.isDigit = true ∨ c.isUpper = true ∨ c = '.' ∨ c = '-' := by
  have hdecimal {number : Decimal} (hnumber : number.Written) (hmem : c ∈ number.text) :
      c.isDigit = true ∨ c = '.' := by
    rw [Decimal.text, List.mem_append] at hmem
    rcases hmem with hwhole | hfraction
    · exact Or.inl (hnumber.whole c hwhole)
    · split_ifs at hfraction
      · cases hfraction
      · rcases List.mem_cons.mp hfraction with rfl | hmem
        · exact Or.inr rfl
        · exact Or.inl (hnumber.fraction c hmem)
  have hnumbers {number : Decimal} (hnumber : number.Written) (hmem : c ∈ number.text) :
      c.isDigit = true ∨ c.isUpper = true ∨ c = '.' ∨ c = '-' :=
    (hdecimal hnumber hmem).imp_right fun hpoint ↦ Or.inr (Or.inl hpoint)
  rcases range with ⟨low, _ | high⟩ | ⟨low, _ | high⟩
  · exact Or.inr (Or.inl (h.1.2 c hc))
  · rcases List.mem_append.mp hc with hmem | hmem
    · exact Or.inr (Or.inl (h.1.2 c hmem))
    · rcases List.mem_cons.mp hmem with rfl | hmem
      · exact Or.inr (Or.inr (Or.inr rfl))
      · exact Or.inr (Or.inl ((h.2 high rfl).2 c hmem))
  · exact hnumbers h.1 hc
  · rcases List.mem_append.mp hc with hmem | hmem
    · exact hnumbers h.1 hmem
    · rcases List.mem_cons.mp hmem with rfl | hmem
      · exact Or.inr (Or.inr (Or.inr rfl))
      · exact hnumbers (h.2 high rfl) hmem

theorem notMem_text_range (h : range.Written) (hdigit : c.isDigit = false)
    (hupper : c.isUpper = false) (hpoint : c ≠ '.') (hdash : c ≠ '-') : c ∉ range.text := by
  intro hc
  rcases mem_text_range h hc with hmem | hmem | hmem | hmem
  · rw [hdigit] at hmem
    cases hmem
  · rw [hupper] at hmem
    cases hmem
  · exact hpoint hmem
  · exact hdash hmem

theorem not_isDigit_of_isUpper (hupper : c.isUpper = true) : c.isDigit = false := by
  rw [Bool.eq_false_iff]
  intro hdigit
  simp only [Char.isUpper, ge_iff_le, UInt32.le_iff_toNat_le, decide_eq_true_eq] at hupper
  simp only [Char.isDigit, ge_iff_le, UInt32.le_iff_toNat_le, Bool.and_eq_true, decide_eq_true_eq] at hdigit
  exact absurd (hupper.1.trans hdigit.2) (by decide)

theorem split_range (h : range.Written) (desc : List Char) :
    (range.text ++ ':' :: ' ' :: desc).takeWhile (fun c ↦ decide (c ≠ ':')) = range.text ∧
      (range.text ++ ':' :: ' ' :: desc).dropWhile (fun c ↦ decide (c ≠ ':')) = ':' :: ' ' :: desc := by
  apply takeWhile_append_of_stop
  · intro c hc
    rw [decide_eq_true_eq]
    rintro rfl
    exact notMem_text_range h (by decide) (by decide) (by decide) (by decide) hc
  · intro c hc
    cases hc
    rfl

theorem scanRange_text (h : range.Written) (desc : List Char) (result : LineRange) :
    scanRange (range.text ++ ':' :: ' ' :: desc) = .ok result ↔ range.Fits ∧ result = range := by
  have hhead {c : Char} {others : List Char} (htext : range.text = c :: others) :
      (range.text ++ ':' :: ' ' :: desc).head?.any Char.isDigit = c.isDigit := by
    rw [htext]
    rfl
  rw [scanRange, (split_range h desc).1]
  cases range with
  | letters low high =>
    obtain ⟨c, others, hlow⟩ := List.exists_cons_of_ne_nil h.1.1
    have hletter := not_isDigit_of_isUpper (h.1.2 c (hlow ▸ List.mem_cons_self))
    have htext : ∃ others, (LineRange.letters low high).text = c :: others := by
      cases high with
      | none => exact ⟨others, hlow⟩
      | some high => exact ⟨others ++ '-' :: high, congrArg (· ++ '-' :: high) hlow⟩
    obtain ⟨others, htext⟩ := htext
    rw [hhead htext, hletter, if_neg Bool.false_ne_true]
    exact scanClasses_text h.1 h.2 result
  | numbers low high =>
    obtain ⟨c, others, hwhole⟩ := List.exists_cons_of_ne_nil h.1.nonempty
    have hdigit := h.1.whole c (hwhole ▸ List.mem_cons_self)
    have htext : ∃ others, (LineRange.numbers low high).text = c :: others := by
      cases high with
      | none => exact ⟨_, congrArg (· ++ _) hwhole⟩
      | some high => exact ⟨_, congrArg (· ++ _ ++ '-' :: high.text) hwhole⟩
    obtain ⟨others, htext⟩ := htext
    rw [hhead htext, hdigit, if_pos rfl, scanNumbers_text h.1 h.2]
    exact ⟨fun heq ↦ ⟨trivial, (Except.ok.inj heq).symm⟩, fun ⟨_, heq⟩ ↦ by rw [heq]⟩

theorem scanLine_text {line : OutlineLine} (h : line.Written) (result : OutlineLine) :
    scanLine (line.text ++ ['\n']) = .ok result ↔ line.range.Fits ∧ result = line := by
  obtain ⟨level, range, desc⟩ := line
  have htab : ∀ c ∈ (range.text ++ ':' :: ' ' :: desc).head?, (decide (c = '\t')) = false := by
    intro c hc
    have hmem : c ∈ range.text ∨ c = ':' := by
      rw [List.head?_append] at hc
      rcases Option.or_eq_some_iff.mp hc with hin | ⟨-, hcolon⟩
      · exact Or.inl (List.mem_of_mem_head? hin)
      · exact Or.inr (Option.some.inj hcolon).symm
    rw [decide_eq_false_iff_not]
    rintro rfl
    rcases hmem with hin | heq
    · exact notMem_text_range h.range (by decide) (by decide) (by decide) (by decide) hin
    · exact absurd heq (by decide)
  have htabs : ∀ c ∈ List.replicate level '\t', decide (c = '\t') = true := fun c hc ↦
    decide_eq_true (List.eq_of_mem_replicate hc)
  obtain ⟨htake, hdrop⟩ := takeWhile_append_of_stop htabs htab
  have hscan := scanRange_text h.range desc
  rw [scanLine, List.getLast?_concat, if_pos rfl, List.dropLast_concat, OutlineLine.text]
  dsimp only
  rw [scanText, htake, hdrop, List.length_replicate, (split_range h.range desc).2]
  dsimp only
  cases hrun : scanRange (range.text ++ ':' :: ' ' :: desc) with
  | error stop =>
    refine iff_of_false (fun herror ↦ by cases herror) ?_
    rintro ⟨hfits, -⟩
    cases hrun.symm.trans ((hscan range).mpr ⟨hfits, rfl⟩)
  | ok scanned =>
    obtain ⟨hfits, rfl⟩ := (hscan scanned).mp hrun
    exact ⟨fun heq ↦ ⟨hfits, (Except.ok.inj heq).symm⟩, fun ⟨_, heq⟩ ↦ by rw [heq]; rfl⟩

end Scanning

theorem newline_notMem_text {line : OutlineLine} (h : line.Written) : '\n' ∉ line.text := by
  intro hmem
  rcases List.mem_append.mp hmem with htab | hmem
  · exact absurd (List.eq_of_mem_replicate htab) (by decide)
  rcases List.mem_append.mp hmem with hrange | hmem
  · exact notMem_text_range h.range (by decide) (by decide) (by decide) (by decide) hrange
  rcases List.mem_cons.mp hmem with hcolon | hmem
  · exact absurd hcolon (by decide)
  rcases List.mem_cons.mp hmem with hblank | hmem
  · exact absurd hblank (by decide)
  · exact h.desc.1 hmem

theorem fgetsLines_outlineFile {lines : List OutlineLine} (hwritten : ∀ line ∈ lines, line.Written)
    (hshort : ∀ line ∈ lines, line.text.length ≤ 509) :
    fgetsLines [] (outlineFile lines) = lines.map fun line ↦ line.text ++ ['\n'] := by
  induction lines with
  | nil => rfl
  | cons line lines ih =>
    obtain ⟨hline, hlines⟩ := List.forall_mem_cons.mp hwritten
    obtain ⟨hone, hrest⟩ := List.forall_mem_cons.mp hshort
    have hread := @fgetsLines_of_short _ [] (newline_notMem_text hline) (by simpa using hone)
      (outlineFile lines)
    have hfile : outlineFile (line :: lines) = line.text ++ '\n' :: outlineFile lines := by
      rw [outlineFile, List.flatMap_cons, List.append_assoc, List.singleton_append]
      rfl
    rw [hfile, hread, ih hlines hrest]
    rfl

theorem length_fgetsLines_outlineFile (lines : List OutlineLine) :
    lines.length ≤ (fgetsLines [] (outlineFile lines)).length ∧
      ((∃ line ∈ lines, 509 < line.text.length) →
        lines.length < (fgetsLines [] (outlineFile lines)).length) := by
  induction lines with
  | nil => exact ⟨Nat.zero_le _, fun ⟨_, hmem, _⟩ ↦ by cases hmem⟩
  | cons line lines ih =>
    have hfile : outlineFile (line :: lines) = line.text ++ '\n' :: outlineFile lines := by
      rw [outlineFile, List.flatMap_cons, List.append_assoc, List.singleton_append]
      rfl
    obtain ⟨hone, hlonger⟩ := @lt_length_fgetsLines line.text [] (Nat.zero_le _) (outlineFile lines)
    obtain ⟨hle, hlt⟩ := ih
    rw [hfile, List.length_cons]
    refine ⟨by omega, ?_⟩
    rintro ⟨long, hmem, hlong⟩
    rcases List.mem_cons.mp hmem with rfl | hmem
    · rw [List.length_nil, Nat.zero_add] at hlonger
      have hmore := hlonger hlong
      omega
    · have hmore := hlt ⟨long, hmem, hlong⟩
      omega

theorem length_insertNode {tree tree' : ClassTree} {newnode : LccClassNode}
    (h : insertNode tree newnode = .ok tree') : tree'.nodes.length = tree.nodes.length + 1 := by
  have hbeside {place : ℕ} {node : LccClassNode} {status : ℕ}
      (h : insertBeside tree place node newnode status = .ok tree') :
      tree'.nodes.length = tree.nodes.length + 1 := by
    rw [insertBeside] at h
    split_ifs at h
    · cases h
      rw [List.length_append, List.length_set, List.length_singleton]
  rw [insertNode] at h
  split at h
  · cases h
    exact List.length_append
  · cases hlast : nodeAt tree.nodes tree.lastnode with
    | error stop =>
      rw [hlast] at h
      cases h
    | ok found =>
      rw [hlast] at h
      simp only [bind, Except.bind] at h
      split_ifs at h
      · exact hbeside h
      · cases h
        rw [List.length_append, List.length_set, List.length_singleton]
      · cases hclimb : climb tree.nodes newnode.level (tree.nodes.length + 1) tree.lastnode with
        | error stop =>
          rw [hclimb] at h
          cases h
        | ok above =>
          rw [hclimb] at h
          exact hbeside h

/-- The lines that were read are scanned, and their nodes inserted one after another. -/
theorem foldlM_addLine_iff (read : List (List Char)) (lastcmin lastcmax : List Char) (tree tree' : ClassTree) :
    (∃ building, read.foldlM addLine ⟨lastcmin, lastcmax, tree⟩ = .ok building ∧ building.tree = tree') ↔
      ∃ lines, List.Forall₂ (fun text line ↦ scanLine text = .ok line) read lines ∧
        (newNodes lastcmin lastcmax lines).foldlM insertNode tree = .ok tree' := by
  induction read generalizing lastcmin lastcmax tree with
  | nil =>
    constructor
    · rintro ⟨building, hrun, rfl⟩
      cases hrun
      exact ⟨[], .nil, rfl⟩
    · rintro ⟨lines, hlines, hrun⟩
      cases hlines
      cases hrun
      exact ⟨_, rfl, rfl⟩
  | cons text read ih =>
    have hstep {line : OutlineLine} (hscan : scanLine text = .ok line) :
        (∃ building, (text :: read).foldlM addLine ⟨lastcmin, lastcmax, tree⟩ = .ok building ∧
          building.tree = tree') ↔
        ∃ lines, List.Forall₂ (fun text line ↦ scanLine text = .ok line) read lines ∧
          (newNodes lastcmin lastcmax (line :: lines)).foldlM insertNode tree = .ok tree' := by
      simp only [List.foldlM_cons, addLine, hscan, newNodes, bind, Except.bind]
      cases hinsert : insertNode tree (newNode lastcmin lastcmax line) with
      | error stop =>
        refine iff_of_false (fun ⟨_, herror, _⟩ ↦ by cases herror) ?_
        rintro ⟨lines, -, hrun⟩
        split at hrun <;> (rw [List.foldlM_cons, hinsert] at hrun; cases hrun)
      | ok inserted =>
        cases hrange : line.range with
        | numbers low high =>
          simp only [List.foldlM_cons, hinsert]
          exact ih lastcmin lastcmax inserted
        | letters low high =>
          simp only [List.foldlM_cons, hinsert]
          exact ih _ _ inserted
    constructor
    · rintro ⟨building, hrun, htree⟩
      cases hscan : scanLine text with
      | error stop =>
        rw [List.foldlM_cons, addLine, hscan] at hrun
        cases hrun
      | ok line =>
        obtain ⟨lines, hlines, hnodes⟩ := (hstep hscan).mp ⟨building, hrun, htree⟩
        exact ⟨line :: lines, .cons hscan hlines, hnodes⟩
    · rintro ⟨lines, hlines, hnodes⟩
      cases hlines with
      | cons hscan hlines => exact (hstep hscan).mpr ⟨_, hlines, hnodes⟩

theorem lccBuildclasstree_iff (file : List Char) (tree : ClassTree) :
    lccBuildclasstree file = .ok tree ↔
      ∃ lines, List.Forall₂ (fun text line ↦ scanLine text = .ok line) (fgetsLines [] file) lines ∧
        (newNodes [] [] lines).foldlM insertNode .empty = .ok tree := by
  rw [← foldlM_addLine_iff, lccBuildclasstree]
  cases (fgetsLines [] file).foldlM addLine ⟨[], [], .empty⟩ with
  | error stop => exact iff_of_false (fun herror ↦ by cases herror) fun ⟨_, herror, _⟩ ↦ by cases herror
  | ok building =>
    exact ⟨fun heq ↦ ⟨building, rfl, Except.ok.inj heq⟩, fun ⟨_, heq, htree⟩ ↦ by cases heq; rw [← htree]; rfl⟩

end Cheshire.Config
