import Cheshire.Lib.CString

/-!
# Lines of the cluster file

The data of a cluster are written to a file with a line for each record: the key, a mark, tagged fields and
the number of the record.  `splitbuffer` spreads data that are too long over several lines, and leaves the
last line open for its caller.
-/

namespace Cheshire.Clusters

def MAXOUTPUTLINE : ℕ := 20000

/-- The file: the lines that are ended, and the one that is not. -/
structure ClusterTemp where
  lines : List (List Char)
  line : List Char

/-- `fprintf` without a line feed. -/
def ClusterTemp.print (file : ClusterTemp) (text : List Char) : ClusterTemp :=
  { file with line := file.line ++ text }

/-- `fprintf(cluster_temp, "<N>%d</N>\n", recnum)` -/
def ClusterTemp.endRecord (file : ClusterTemp) (recnum : ℤ) : ClusterTemp :=
  ⟨file.lines ++ [file.line ++ ("<N>".toList ++ decimalInt recnum ++ "</N>".toList)], []⟩

def stringAt (buffer : List Char) (inbuff : ℕ) : List Char := (buffer.drop inbuff).takeWhile (· ≠ nul)

/-- `while (*newstart != ' ') newstart--;` -/
def backToBlank (buffer : List Char) : ℕ → Exec ℕ
  | 0 => if buffer[0]? = some ' ' then .ok 0 else .error .outOfBounds
  | newstart + 1 =>
    if buffer[newstart + 1]? = some ' ' then .ok (newstart + 1) else backToBlank buffer newstart

section

variable (recnum : ℤ) (key tag : List Char) (sum : Option (List Char)) (maxnum : ℤ)

/-- `"%s%c", key, '\001'` -/
def keyMark : List Char := key ++ [Char.ofNat 1]

/-- What the caller has printed of a line before the call. -/
def started (haveKey : Bool) : List Char := if haveKey then keyMark key else []

/-- The tags, with the data between them. -/
def field (text : List Char) : List Char :=
  '<' :: tag ++
    (if maxnum ≠ 0 then " maxnum=".toList ++ decimalInt maxnum
      else match sum with
        | some summary => " summary=".toList ++ summary
        | none => []) ++
    '>' :: text ++ "</".toList ++ tag ++ ['>']

/-- `splitbuffer` from a pass of the loop on; what comes behind the loop is printed in the last one. -/
def splitFrom : ℕ → List Char → ℕ → Bool → ClusterTemp → Exec ClusterTemp
  | 0, _, _, _, _ => .error .unfinished
  | fuel + 1, buffer, inbuff, haveKey, file =>
    if MAXOUTPUTLINE < (stringAt buffer inbuff).length then do
      let newstart ← backToBlank buffer (inbuff + (MAXOUTPUTLINE - MAXOUTPUTLINE / 8))
      let buffer := buffer.set newstart nul
      let file := if haveKey then file else file.print (keyMark key)
      splitFrom fuel buffer (newstart + 1) false
        ((file.print (field tag sum maxnum (stringAt buffer inbuff))).endRecord recnum)
    else .ok ((file.print (keyMark key)).print (field tag sum maxnum (stringAt buffer inbuff)))

def splitbuffer (fuel : ℕ) (buffer : CString) (haveKey : Bool) (file : ClusterTemp) : Exec ClusterTemp :=
  splitFrom recnum key tag sum maxnum fuel buffer.stored 0 haveKey file

/-- A line with a part of the data. -/
def clusterLine (part : List Char) : List Char :=
  keyMark key ++ field tag sum maxnum part ++ ("<N>".toList ++ decimalInt recnum ++ "</N>".toList)

/-- The call ends, and when its caller has ended the last line, the lines are within the limit, with the key
and the number, and their parts give the data.  `haveKey` says that the caller has begun a line with the
key. -/
def SplitsWithoutLoss (haveKey : Bool) (buffer : CString) : Prop :=
  ∃ fuel file, ∃ parts : List (List Char),
    splitbuffer recnum key tag sum maxnum fuel buffer haveKey ⟨[], started key haveKey⟩ = .ok file ∧
    (file.endRecord recnum).lines = parts.map (clusterLine recnum key tag sum maxnum) ∧
    (∀ line ∈ (file.endRecord recnum).lines, line.length ≤ MAXOUTPUTLINE) ∧
    parts.flatten = buffer.chars

end

variable {buffer : List Char}

theorem backToBlank_eq_ok {i j : ℕ} (h : backToBlank buffer i = .ok j) :
    j ≤ i ∧ buffer[j]? = some ' ' := by
  induction i with
  | zero =>
    rw [backToBlank] at h
    split_ifs at h with hblank
    cases h
    exact ⟨le_rfl, hblank⟩
  | succ i ih =>
    rw [backToBlank] at h
    split_ifs at h with hblank
    · cases h
      exact ⟨le_rfl, hblank⟩
    · exact ⟨Nat.le_succ_of_le (ih h).1, (ih h).2⟩

theorem backToBlank_of_notMem (h : ' ' ∉ buffer) (i : ℕ) :
    backToBlank buffer i = .error .outOfBounds := by
  have hread (j : ℕ) : buffer[j]? ≠ some ' ' := fun hblank ↦ h (List.mem_of_getElem? hblank)
  induction i with
  | zero => rw [backToBlank, if_neg (hread 0)]
  | succ i ih => rw [backToBlank, if_neg (hread (i + 1)), ih]

theorem stringAt_stored (buffer : CString) : stringAt buffer.stored 0 = buffer.chars := by
  rw [stringAt, List.drop_zero, CString.stored, List.takeWhile_append_of_pos]
  · simp
  · intro c hc
    have hne : c ≠ nul := fun h ↦ buffer.terminated (h ▸ hc)
    simpa using hne

variable {k : ℕ}

theorem takeWhile_set {text : List Char} (hk : k < (text.takeWhile (· ≠ nul)).length) :
    (text.set k nul).takeWhile (· ≠ nul) = (text.takeWhile (· ≠ nul)).take k ∧
      (text.drop (k + 1)).takeWhile (· ≠ nul) = (text.takeWhile (· ≠ nul)).drop (k + 1) := by
  induction text generalizing k with
  | nil => simp at hk
  | cons c text ih =>
    by_cases hc : c = nul
    · simp [hc] at hk
    · rw [List.takeWhile_cons_of_pos (by simpa using hc)] at hk ⊢
      cases k with
      | zero => simp
      | succ k =>
        obtain ⟨hbefore, hbehind⟩ := ih (Nat.lt_of_succ_lt_succ hk)
        rw [List.set_cons_succ, List.takeWhile_cons_of_pos (by simpa using hc), hbefore]
        exact ⟨rfl, hbehind⟩

variable {inbuff : ℕ}

theorem stringAt_set (hk : k < (stringAt buffer inbuff).length) :
    stringAt (buffer.set (inbuff + k) nul) inbuff = (stringAt buffer inbuff).take k ∧
      stringAt (buffer.set (inbuff + k) nul) (inbuff + k + 1) = (stringAt buffer inbuff).drop (k + 1) := by
  obtain ⟨hbefore, hbehind⟩ := takeWhile_set hk
  rw [List.drop_drop] at hbehind
  constructor
  · rw [stringAt, List.drop_set, if_neg (by omega), Nat.add_sub_cancel_left]
    exact hbefore
  · rw [stringAt, List.drop_set, if_pos (by omega)]
    exact hbehind

theorem getElem_stringAt {c : Char} (hk : k < (stringAt buffer inbuff).length)
    (h : buffer[inbuff + k]? = some c) : (stringAt buffer inbuff)[k] = c := by
  have hfront := List.takeWhile_prefix (l := buffer.drop inbuff) (· ≠ nul)
  rw [← List.getElem?_drop] at h
  exact (hfront.getElem hk).trans (List.getElem_eq_iff _ |>.mpr h)

theorem stringAt_set_before {j : ℕ} (hj : j < inbuff) :
    stringAt (buffer.set j nul) inbuff = stringAt buffer inbuff := by
  rw [stringAt, List.drop_set, if_pos hj, stringAt]

section

variable {recnum : ℤ} {key tag : List Char} {sum : Option (List Char)} {maxnum : ℤ}

theorem length_clusterLine (part : List Char) :
    part.length ≤ (clusterLine recnum key tag sum maxnum part).length := by
  simp only [clusterLine, field, List.length_append, List.length_cons]
  omega

theorem clusterLine_injective : Function.Injective (clusterLine recnum key tag sum maxnum) := by
  intro part other h
  have hfield := List.append_cancel_left (List.append_cancel_right h)
  have hopen := List.append_cancel_right (List.append_cancel_right (List.append_cancel_right hfield))
  exact (List.cons.inj (List.append_cancel_left hopen)).2

theorem print_started (lines : List (List Char)) (haveKey : Bool) :
    (if haveKey then ⟨lines, started key haveKey⟩
      else ClusterTemp.print ⟨lines, started key haveKey⟩ (keyMark key)) = ⟨lines, keyMark key⟩ := by
  cases haveKey <;> rfl

/-- A call that ends leaves a line over the limit, or the strings between the blanks at which it split the
data.  It goes by the passes of the loop. -/
theorem splitFrom_lines (fuel : ℕ) {haveKey : Bool} {lines : List (List Char)} {file : ClusterTemp}
    (hstart : haveKey = false ∨ MAXOUTPUTLINE < (stringAt buffer inbuff).length)
    (h : splitFrom recnum key tag sum maxnum fuel buffer inbuff haveKey
      ⟨lines, started key haveKey⟩ = .ok file) :
    ∃ part parts, (file.endRecord recnum).lines =
        lines ++ (part :: parts).map (clusterLine recnum key tag sum maxnum) ∧
      ((∃ other ∈ part :: parts, MAXOUTPUTLINE < other.length) ∨
        [' '].intercalate (part :: parts) = stringAt buffer inbuff ∧
          (MAXOUTPUTLINE < (stringAt buffer inbuff).length → parts ≠ [])) := by
  induction fuel generalizing buffer inbuff haveKey lines with
  | zero => cases h
  | succ fuel ih =>
    rw [splitFrom] at h
    by_cases hlong : MAXOUTPUTLINE < (stringAt buffer inbuff).length
    · rw [if_pos hlong] at h
      obtain ⟨newstart, hnewstart, h⟩ := bind_eq_ok.mp h
      obtain ⟨hle, hblank⟩ := backToBlank_eq_ok hnewstart
      dsimp only at h
      rw [print_started] at h
      obtain ⟨next, parts, hlines, hparts⟩ := @ih _ _ false _ (.inl rfl) h
      refine ⟨stringAt (buffer.set newstart nul) inbuff, next :: parts, ?_, ?_⟩
      · rw [hlines]
        exact List.append_assoc ..
      -- behind the last blank of this string the search goes on in what was printed before
      rcases lt_or_ge newstart inbuff with hbefore | hge
      · rw [stringAt_set_before hbefore]
        exact .inl ⟨_, List.mem_cons_self, hlong⟩
      obtain ⟨k, rfl⟩ := Nat.exists_eq_add_of_le hge
      have hk : k < (stringAt buffer inbuff).length :=
        (Nat.le_of_add_le_add_left hle).trans_lt (lt_of_le_of_lt (by decide) hlong)
      obtain ⟨hpart, hnext⟩ := stringAt_set hk
      rw [hnext] at hparts
      rcases hparts with ⟨other, hmem, htoo⟩ | ⟨hjoined, -⟩
      · exact .inl ⟨other, List.mem_cons_of_mem _ hmem, htoo⟩
      refine .inr ⟨?_, fun _ ↦ List.cons_ne_nil _ _⟩
      rw [List.intercalate_cons_cons, hjoined, hpart, List.append_assoc, ← getElem_stringAt hk hblank,
        List.singleton_append, List.getElem_cons_drop, List.take_append_drop]
    · have hkey : haveKey = false := hstart.resolve_right hlong
      subst hkey
      rw [if_neg hlong] at h
      cases h
      exact ⟨stringAt buffer inbuff, [], rfl, .inr ⟨by simp, fun h ↦ absurd h hlong⟩⟩

theorem length_intercalate (part : List Char) (parts : List (List Char)) :
    ([' '].intercalate (part :: parts)).length = (part :: parts).flatten.length + parts.length := by
  induction parts generalizing part with
  | nil => simp
  | cons next parts ih =>
    rw [List.intercalate_cons_cons, List.length_append, List.length_append, ih, List.flatten_cons (l := part),
      List.length_append, List.length_singleton, List.length_cons]
    omega

/-- No split is without a loss: the data must fit in one line, and the key must not have been printed. -/
theorem splitsWithoutLoss_iff (recnum : ℤ) (key tag : List Char) (sum : Option (List Char)) (maxnum : ℤ)
    (haveKey : Bool) (buffer : CString) :
    SplitsWithoutLoss recnum key tag sum maxnum haveKey buffer ↔
      haveKey = false ∧
        (clusterLine recnum key tag sum maxnum buffer.chars).length ≤ MAXOUTPUTLINE := by
  constructor
  · rintro ⟨fuel, file, parts, hrun, hlines, hlimit, hdata⟩
    rw [splitbuffer] at hrun
    by_cases hstart : haveKey = false ∨ MAXOUTPUTLINE < (stringAt buffer.stored 0).length
    · obtain ⟨part, others, hlines', hparts⟩ := splitFrom_lines fuel hstart hrun
      rw [hlines', List.nil_append] at hlines hlimit
      obtain rfl := clusterLine_injective.list_map hlines
      rw [stringAt_stored] at hstart hparts
      rcases hparts with ⟨other, hmem, hlong⟩ | ⟨hjoined, hsplit⟩
      · have hline := hlimit _ (List.mem_map_of_mem hmem)
        exact absurd (hlong.trans_le (length_clusterLine other)) (not_lt.mpr hline)
      have hlength := length_intercalate part others
      rw [hjoined, hdata, left_eq_add, List.length_eq_zero_iff] at hlength
      subst hlength
      rw [List.flatten_singleton] at hdata
      refine ⟨hstart.resolve_right fun hlong ↦ hsplit hlong rfl, ?_⟩
      rw [← hdata]
      exact hlimit _ List.mem_cons_self
    · obtain ⟨hkey, hshort⟩ := not_or.mp hstart
      rw [Bool.not_eq_false] at hkey
      subst hkey
      cases fuel with
      | zero => cases hrun
      | succ fuel =>
        rw [splitFrom, if_neg hshort, stringAt_stored] at hrun
        cases hrun
        -- the key is printed a second time
        obtain ⟨part, rfl, hline⟩ := List.map_eq_singleton_iff.mp hlines.symm
        rw [List.flatten_singleton] at hdata
        subst hdata
        have htwice := List.append_cancel_right (List.append_cancel_right hline)
        exact absurd (List.self_eq_append_left.mp htwice) (List.append_ne_nil_of_right_ne_nil _ (by simp))
  · rintro ⟨rfl, hfits⟩
    have hshort : ¬MAXOUTPUTLINE < (stringAt buffer.stored 0).length := by
      rw [stringAt_stored, not_lt]
      exact (length_clusterLine _).trans hfits
    have hrun : splitbuffer recnum key tag sum maxnum 1 buffer false ⟨[], started key false⟩ =
        .ok ⟨[], keyMark key ++ field tag sum maxnum buffer.chars⟩ := by
      rw [splitbuffer, splitFrom, if_neg hshort, stringAt_stored]
      rfl
    refine ⟨1, _, [buffer.chars], hrun, rfl, ?_, List.flatten_singleton⟩
    exact List.forall_mem_singleton.mpr hfits

/-- Data of one character more than the limit, without a blank. -/
def unbroken : CString where
  chars := List.replicate (MAXOUTPUTLINE + 1) 'x'
  terminated hmem := absurd (List.eq_of_mem_replicate hmem) (by decide)

/-- The search for a blank leaves the buffer. -/
theorem not_splitsWithoutLoss_unbroken :
    ¬SplitsWithoutLoss 1 ['k'] ['t'] none 0 false unbroken := by
  rintro ⟨fuel, file, parts, hrun, -⟩
  have hblank : ' ' ∉ unbroken.stored := fun hmem ↦ by
    rcases List.mem_append.mp hmem with hmem | hmem
    · exact absurd (List.eq_of_mem_replicate hmem) (by decide)
    · exact absurd (List.mem_singleton.mp hmem) (by decide)
  cases fuel with
  | zero => cases hrun
  | succ fuel =>
    have hlong : MAXOUTPUTLINE < (stringAt unbroken.stored 0).length := by
      rw [stringAt_stored, unbroken, List.length_replicate]
      exact Nat.lt_succ_self _
    rw [splitbuffer, splitFrom, if_pos hlong, backToBlank_of_notMem hblank] at hrun
    cases hrun

end

end Cheshire.Clusters
