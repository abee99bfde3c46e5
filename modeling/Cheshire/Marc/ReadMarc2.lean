import Cheshire.Lib.Fields
import Cheshire.Marc.Trans

/-!
# Reading up to the record terminator

`ReadMARC2` reads a record byte by byte into the buffer of its caller.  It is given the size of the
buffer and does not look at it, and it notices the end of the file only before the first byte of a
record: inside a record a read that finds nothing leaves the cell as it was, and the loop goes on with
the next one.  So the loop ends at the first cell with a terminator, be it a byte of the file or one
that stood in the buffer before.
-/

namespace Cheshire.Marc.Bytewise

open FileIo Function

/-- The buffer of the caller and what is left of the file. -/
structure Reading where
  buffer : RecBuffer
  file : Bytes

/-- `read(file,buffer+i,1)` into a buffer of `buffsize` bytes, with the number of bytes read. -/
def readByte (buffsize i : ℕ) (reading : Reading) : Exec (ℕ × Reading) :=
  match reading.file with
  | [] => .ok (0, reading)
  | c :: file =>
    if i < buffsize then .ok (1, ⟨update reading.buffer i c, file⟩)
    else .error .outOfBounds

/-- `buffer[i]` -/
def cell (buffsize i : ℕ) (reading : Reading) : Exec UInt8 :=
  if i < buffsize then .ok (reading.buffer i) else .error .outOfBounds

/-- `while (buffer[i] == '\n')`, where `i` is 0: whether the file goes on behind the line ends. -/
def skipNewlines (buffsize : ℕ) : ℕ → Reading → Exec (Bool × Reading)
  | 0, _ => .error .unfinished
  | fuel + 1, reading => do
    if (← cell buffsize 0 reading) = newline then
      let (currentpos, reading) ← readByte buffsize 0 reading
      if currentpos = 0 then .ok (false, reading) else skipNewlines buffsize fuel reading
    else .ok (true, reading)

/-- `while (buffer[i] != RECTERM)`: the index of the cell with the terminator. -/
def fillRecord (buffsize : ℕ) : ℕ → ℕ → Reading → Exec (ℕ × Reading)
  | 0, _, _ => .error .unfinished
  | fuel + 1, i, reading => do
    if (← cell buffsize i reading) = RECTERM then .ok (i, reading)
    else
      let (_, reading) ← readByte buffsize (i + 1) reading
      fillRecord buffsize fuel (i + 1) reading

/-- `ReadMARC2`, with a bound on the passes of its loops. -/
def readMarc2 (buffsize fuel : ℕ) (reading : Reading) : Exec (ℕ × Reading) := do
  let (count, reading) ← readByte buffsize 0 reading
  if count = 0 then .ok (0, reading)
  else
    let (found, reading) ← skipNewlines buffsize fuel reading
    if found = false then .ok (0, reading)
    else
      let (lrecl, reading) ← fillRecord buffsize fuel 0 reading
      .ok (lrecl, { reading with buffer := update reading.buffer lrecl 0 })

variable {buffsize fuel : ℕ} {buffer : RecBuffer} {file : Bytes}

/-- What the line ends in front of a record leave of the file. -/
def unpadded (file : Bytes) : Bytes := file.dropWhile (· = newline)

theorem skipNewlines_eq (hsize : 0 < buffsize) (hfuel : file.length < fuel) (c : UInt8)
    (hcell : buffer 0 = c) :
    ∃ reading, skipNewlines buffsize fuel ⟨buffer, file⟩ =
        .ok (!(unpadded (c :: file)).isEmpty, reading) ∧
      (unpadded (c :: file) ≠ [] → reading =
        ⟨update buffer 0 ((unpadded (c :: file)).headD 0), (unpadded (c :: file)).tail⟩) := by
  induction file generalizing fuel buffer c with
  | nil =>
    obtain ⟨fuel, rfl⟩ := Nat.exists_eq_add_of_lt hfuel
    by_cases hnewline : c = newline
    · refine ⟨⟨buffer, []⟩, ?_, fun hne ↦ absurd (by simp [unpadded, hnewline]) hne⟩
      simp [skipNewlines, cell, hsize, hcell, hnewline, readByte, unpadded, bind, Except.bind]
    · refine ⟨⟨buffer, []⟩, ?_, fun _ ↦ ?_⟩
      · simp [skipNewlines, cell, hsize, hcell, hnewline, unpadded, bind, Except.bind]
      · subst hcell
        simp [unpadded, hnewline]
  | cons next file ih =>
    obtain ⟨fuel, rfl⟩ : ∃ more, fuel = more + 1 := ⟨fuel - 1, by omega⟩
    by_cases hnewline : c = newline
    · obtain ⟨reading, hrun, hreading⟩ := @ih fuel (update buffer 0 next)
        (by simpa using hfuel) next (by simp)
      have hskip : unpadded (c :: next :: file) = unpadded (next :: file) := by
        rw [unpadded, List.dropWhile_cons_of_pos (by simpa using hnewline), unpadded]
      rw [hskip]
      refine ⟨reading, ?_, fun hne ↦ ?_⟩
      · simpa [skipNewlines, cell, hsize, hcell, hnewline, readByte, bind, Except.bind] using hrun
      · rw [hreading hne, update_idem]
    · refine ⟨⟨buffer, next :: file⟩, ?_, fun _ ↦ ?_⟩
      · simp [skipNewlines, cell, hsize, hcell, hnewline, unpadded, bind, Except.bind]
      · subst hcell
        simp [unpadded, hnewline]

/-- The cell that the loop finds at an index: a byte of the record, or behind the end of the file what
stood in the buffer. -/
def found (buffer : RecBuffer) (record : Bytes) (i : ℕ) : UInt8 := record.getD i (buffer i)

/-- The buffer when the bytes up to an index were read. -/
def loaded (buffer : RecBuffer) (record : Bytes) (i : ℕ) : RecBuffer := fun k ↦
  if k ≤ i then found buffer record k else buffer k

variable {record : Bytes} {i n : ℕ}

@[simp]
theorem loaded_self : loaded buffer record i i = found buffer record i := if_pos le_rfl

theorem loaded_succ_of_le (hlength : record.length ≤ i + 1) :
    loaded buffer record (i + 1) = loaded buffer record i := by
  funext k
  rw [loaded, loaded]
  by_cases hk : k ≤ i
  · rw [if_pos (by omega), if_pos hk]
  · split_ifs with hnext
    · rw [found, List.getD_eq_default _ _ (by omega)]
    · rfl

theorem loaded_succ_of_getElem {c : UInt8} (hc : record[i + 1]? = some c) :
    loaded buffer record (i + 1) = update (loaded buffer record i) (i + 1) c := by
  funext k
  rw [update_apply, loaded, loaded]
  split_ifs with hle hk hk
  · rw [found, hk, List.getD_eq_getElem?_getD, hc, Option.getD_some]
  · rfl
  · omega
  · omega
  · omega
  · rfl

theorem readByte_loaded :
    readByte buffsize (i + 1) ⟨loaded buffer record i, record.drop (i + 1)⟩ =
      if i + 1 < record.length ∧ buffsize ≤ i + 1 then .error .outOfBounds
      else .ok (if i + 1 < record.length then 1 else 0,
        ⟨loaded buffer record (i + 1), record.drop (i + 2)⟩) := by
  by_cases hlength : i + 1 < record.length
  · have hc : record[i + 1]? = some record[i + 1] := List.getElem?_eq_getElem hlength
    rw [List.drop_eq_getElem_cons hlength, readByte, loaded_succ_of_getElem hc]
    by_cases hsize : i + 1 < buffsize
    · simp [hsize, hlength]
    · simp [hsize, hlength, not_lt.mp hsize]
  · have hdone : record.length ≤ i + 1 := not_lt.mp hlength
    rw [List.drop_eq_nil_of_le hdone, List.drop_eq_nil_of_le (by omega), readByte,
      loaded_succ_of_le hdone]
    simp [hlength]

theorem terminator_of_fillRecord {reading : Reading}
    (h : fillRecord buffsize fuel i ⟨loaded buffer record i, record.drop (i + 1)⟩ =
      .ok (n, reading)) :
    n < buffsize ∧ found buffer record n = RECTERM := by
  induction fuel generalizing i with
  | zero => cases h
  | succ fuel ih =>
    by_cases hsize : i < buffsize
    · simp only [fillRecord, cell, hsize, if_true, bind, Except.bind, loaded_self,
        readByte_loaded] at h
      by_cases hterm : found buffer record i = RECTERM
      · rw [if_pos hterm] at h
        cases h
        exact ⟨hsize, hterm⟩
      · rw [if_neg hterm] at h
        by_cases hover : i + 1 < record.length ∧ buffsize ≤ i + 1
        · rw [if_pos hover] at h
          cases h
        · rw [if_neg hover] at h
          exact ih h
    · simp [fillRecord, cell, hsize, bind, Except.bind] at h

theorem fillRecord_eq (hle : i ≤ n) (hsize : n < buffsize) (hfuel : n < fuel + i)
    (hterm : found buffer record n = RECTERM)
    (hfirst : ∀ k, i ≤ k → k < n → found buffer record k ≠ RECTERM) :
    fillRecord buffsize fuel i ⟨loaded buffer record i, record.drop (i + 1)⟩ =
      .ok (n, ⟨loaded buffer record n, record.drop (n + 1)⟩) := by
  induction fuel generalizing i with
  | zero => omega
  | succ fuel ih =>
    have hinside : i < buffsize := by omega
    simp only [fillRecord, cell, hinside, if_true, bind, Except.bind, loaded_self]
    rcases hle.eq_or_lt with rfl | hlt
    · rw [if_pos hterm]
    · rw [if_neg (hfirst i le_rfl hlt), readByte_loaded, if_neg (by omega)]
      exact ih hlt (by omega) fun k hk ↦ hfirst k (by omega)

/-- The routine returns, whatever more passes it is given, and it has stored in its buffer only. -/
def Bounded (buffsize : ℕ) (buffer : RecBuffer) (file : Bytes) : Prop :=
  ∃ passes, ∀ fuel ≥ passes, ∃ result, readMarc2 buffsize fuel ⟨buffer, file⟩ = .ok result

/-- The file is empty, or the buffer has a cell at least and there is nothing but line ends, or some
cell of the buffer gets a terminator from the record or keeps one from before. -/
def EndsInside (buffsize : ℕ) (buffer : RecBuffer) (file : Bytes) : Prop :=
  file = [] ∨ 0 < buffsize ∧
    (unpadded file = [] ∨ ∃ i < buffsize, found buffer (unpadded file) i = RECTERM)

theorem loaded_zero {c : UInt8} (rest : Bytes) :
    loaded buffer (c :: rest) 0 = update buffer 0 c := by
  funext k
  rw [loaded, update_apply]
  rcases Nat.eq_zero_or_pos k with rfl | hk
  · simp [found]
  · rw [if_neg (by omega), if_neg (by omega)]

theorem readMarc2_eq (hsize : 0 < buffsize) (hfuel : file.length ≤ fuel) (hfile : file ≠ []) :
    ∃ reading, readMarc2 buffsize fuel ⟨buffer, file⟩ =
      if unpadded file = [] then .ok (0, reading)
      else (fillRecord buffsize fuel 0
        ⟨loaded buffer (unpadded file) 0, (unpadded file).drop 1⟩).map fun result ↦
          (result.1, { result.2 with buffer := update result.2.buffer result.1 0 }) := by
  obtain ⟨c, file, rfl⟩ := List.exists_cons_of_ne_nil hfile
  obtain ⟨reading, hskip, hreading⟩ := @skipNewlines_eq _ _ (update buffer 0 c)
    file hsize (Nat.lt_of_succ_le hfuel) c (by simp)
  refine ⟨reading, ?_⟩
  simp only [readMarc2, readByte, hsize, if_true, bind, Except.bind, one_ne_zero, if_false, hskip]
  by_cases hnone : unpadded (c :: file) = []
  · simp [hnone]
  · obtain ⟨first, rest, hrest⟩ := List.exists_cons_of_ne_nil hnone
    rw [hreading hnone, hrest, loaded_zero]
    simp only [List.isEmpty_cons, Bool.not_false, Bool.true_eq_false, if_false, List.headD_cons,
      List.tail_cons, update_idem, List.drop_succ_cons, List.drop_zero, reduceCtorEq]
    rcases fillRecord buffsize fuel 0 ⟨update buffer 0 first, rest⟩ with fault | result
    · rfl
    · rfl

theorem endsInside_of_bounded (h : Bounded buffsize buffer file) :
    EndsInside buffsize buffer file := by
  obtain ⟨passes, hrun⟩ := h
  obtain ⟨⟨n, final⟩, hresult⟩ := hrun (max passes file.length) (le_max_left _ _)
  by_cases hfile : file = []
  · exact .inl hfile
  have hsize : 0 < buffsize := by
    by_contra hzero
    obtain ⟨c, file, rfl⟩ := List.exists_cons_of_ne_nil hfile
    simp [readMarc2, readByte, hzero, bind, Except.bind] at hresult
  refine .inr ⟨hsize, or_iff_not_imp_left.mpr fun hrest ↦ ?_⟩
  obtain ⟨reading, heq⟩ := @readMarc2_eq _ _ buffer _ hsize (le_max_right passes _) hfile
  rw [heq, if_neg hrest] at hresult
  rcases hfill : fillRecord buffsize (max passes file.length) 0
    ⟨loaded buffer (unpadded file) 0, (unpadded file).drop 1⟩ with fault | ⟨i, filled⟩
  · rw [hfill] at hresult
    cases hresult
  · exact ⟨i, terminator_of_fillRecord hfill⟩

theorem bounded_of_endsInside (h : EndsInside buffsize buffer file) :
    Bounded buffsize buffer file := by
  rcases h with rfl | ⟨hsize, hends⟩
  · exact ⟨0, fun fuel _ ↦ ⟨_, rfl⟩⟩
  by_cases hfile : file = []
  · exact ⟨0, fun fuel _ ↦ ⟨_, by rw [hfile]; rfl⟩⟩
  refine ⟨file.length + buffsize, fun fuel hfuel ↦ ?_⟩
  obtain ⟨reading, heq⟩ := @readMarc2_eq _ _ buffer _ hsize
    (show file.length ≤ fuel by omega) hfile
  rw [heq]
  by_cases hrest : unpadded file = []
  · exact ⟨_, if_pos hrest⟩
  rw [if_neg hrest]
  have hsome : ∃ i, i < buffsize ∧ found buffer (unpadded file) i = RECTERM :=
    hends.resolve_left hrest
  -- the loop stops at the first of these cells
  have hfirst := Nat.find_spec hsome
  rw [fillRecord_eq (Nat.zero_le _) hfirst.1 (by omega) hfirst.2
    fun k _ hk hterm ↦ Nat.find_min hsome hk ⟨by omega, hterm⟩]
  exact ⟨_, rfl⟩

/-- `ReadMARC2` returns, and stores in its buffer only, exactly where a terminator stops it there. -/
theorem readMarc2_bounded_iff (buffsize : ℕ) (buffer : RecBuffer) (file : Bytes) :
    Bounded buffsize buffer file ↔ EndsInside buffsize buffer file :=
  ⟨endsInside_of_bounded, bounded_of_endsInside⟩

/-- A file of one letter has no terminator: the loop runs off the end of any buffer of zeros. -/
theorem not_bounded_unterminated : ¬Bounded 100 (fun _ ↦ 0) [65] := by
  intro h
  rcases endsInside_of_bounded h with hempty | ⟨-, hnone | ⟨i, -, hterm⟩⟩
  · cases hempty
  · exact absurd hnone (by decide)
  · rcases i with _ | i
    · exact absurd hterm (by decide)
    · have hzero : found (fun _ ↦ 0) (unpadded [65]) (i + 1) = 0 := by
        rw [found, List.getD_eq_default]
        exact Nat.le_add_left 1 i
      rw [hzero] at hterm
      exact absurd hterm (by decide)

theorem recBuffer_fill_takeWhile {rest : Bytes} (hn : n < rest.length) :
    update (loaded buffer rest n) n 0 = buffer.fill (rest.take n) := by
  funext k
  have hlength : (rest.take n).length = n := by rw [List.length_take]; omega
  rw [update_apply, RecBuffer.fill, hlength, loaded]
  split_ifs with hk hle
  · rfl
  · rw [found, List.getD_eq_getElem?_getD, List.getD_eq_getElem?_getD, List.getElem?_take,
      if_pos (by omega)]
  · rw [List.getD_eq_default _ _ (by omega)]

/-- A record that the conversion reads as a whole is the one that is read byte by byte. -/
theorem readMarc2_of_record {recbuffer recbuffer' : RecBuffer} {lrecl : ℕ} {marcin rest : Bytes}
    (h : Marc.readMarc2 recbuffer marcin = .ok (some (recbuffer', lrecl, rest)))
    (hfuel : marcin.length + RECBUFSIZE ≤ fuel) :
    readMarc2 RECBUFSIZE fuel ⟨recbuffer, marcin⟩ = .ok (lrecl, ⟨recbuffer', rest⟩) := by
  have hbuf : 0 < RECBUFSIZE := by decide
  have hdrop : marcin.dropWhile (fun c ↦ decide (c = newline)) = unpadded marcin := rfl
  simp only [Marc.readMarc2, hdrop] at h
  by_cases hnone : unpadded marcin = []
  · rw [if_pos hnone] at h
    cases h
  have hmarcin : marcin ≠ [] := by
    rintro rfl
    exact hnone rfl
  rw [if_neg hnone] at h
  obtain ⟨reading, heq⟩ := @readMarc2_eq _ _ recbuffer _ hbuf
    (show marcin.length ≤ fuel by omega) hmarcin
  rw [heq, if_neg hnone]
  rcases Lib.Piece.exists_cut (fun c ↦ decide (c = RECTERM)) (unpadded marcin) with hwhole | hcut
  · have hall : (unpadded marcin).takeWhile (· ≠ RECTERM) = unpadded marcin :=
      List.takeWhile_eq_self_iff.mpr fun c hc ↦ by simpa using hwhole c hc
    rw [hall, if_pos (.inl rfl)] at h
    cases h
  · obtain ⟨record, c, more, hsplit, hrecord, hterm⟩ := hcut
    have hc : c = RECTERM := of_decide_eq_true hterm
    have hne : ∀ b ∈ record, decide (b ≠ RECTERM) = true := fun b hb ↦ by simpa using hrecord b hb
    have htake : (unpadded marcin).takeWhile (· ≠ RECTERM) = record := by
      rw [hsplit, List.takeWhile_append_of_pos hne, hc, List.takeWhile_cons_of_neg (by simp),
        List.append_nil]
    rw [htake] at h
    by_cases hover : record.length = (unpadded marcin).length ∨ RECBUFSIZE ≤ record.length
    · rw [if_pos hover] at h
      cases h
    by_cases hempty : record.length = 0
    · rw [if_neg hover, if_pos hempty] at h
      cases h
    rw [if_neg hover, if_neg hempty] at h
    cases h
    rw [not_or, not_le] at hover
    have hfound {k : ℕ} (hk : k < record.length) : found recbuffer (unpadded marcin) k = record[k] := by
      rw [found, hsplit, List.getD_append _ _ _ _ hk, List.getD_eq_getElem _ _ hk]
    have hat : found recbuffer (unpadded marcin) record.length = RECTERM := by
      rw [found, hsplit, List.getD_append_right _ _ _ _ le_rfl, Nat.sub_self, hc]
      rfl
    have hlt : record.length < (unpadded marcin).length := by
      rw [hsplit, List.length_append, List.length_cons]
      omega
    have hpre : (unpadded marcin).take record.length = record := by rw [hsplit, List.take_left]
    rw [fillRecord_eq (Nat.zero_le _) hover.2 (by omega) hat fun k _ hk ↦ by
      rw [hfound hk]
      simpa using hrecord _ (List.getElem_mem hk)]
    simp only [Except.map, recBuffer_fill_takeWhile hlt, hpre]

theorem readMarc2_of_letterA :
    readMarc2 RECBUFSIZE (7 + RECBUFSIZE) ⟨fun _ ↦ 120, [newline, 65, 30, 0, 66, RECTERM, 67]⟩ =
      .ok (4, ⟨RecBuffer.fill (fun _ ↦ 120) [65, 30, 0, 66], [67]⟩) := by
  have hread : Marc.readMarc2 (fun _ ↦ 120) [newline, 65, 30, 0, 66, RECTERM, 67] =
      .ok (some (RecBuffer.fill (fun _ ↦ 120) [65, 30, 0, 66], 4, [67])) := by
    simp [Marc.readMarc2, newline, RECTERM, RECBUFSIZE]
  exact readMarc2_of_record hread le_rfl

end Cheshire.Marc.Bytewise
