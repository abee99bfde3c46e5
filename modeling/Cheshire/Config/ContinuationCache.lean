import Cheshire.Config.OpenCont
import Cheshire.Lib.Runs

/-!
# The cache of the continuation files

While a file is open the fields agree on it, and every request is answered rightly.  After a file could
not be opened they do not: the number is that of the file that failed, and the current continuation is
the one that was closed.  The next request then opens the first file again; where this fails too, it takes
the two for open.
-/

namespace Cheshire.Config

open Lib Lib.Runs Function

/-- A record number, which is not 0, with the files that can be opened while it is looked for. -/
structure Request where
  recordid : ℕ
  positive : recordid ≠ 0
  can : CanOpen

/-- A file definition in use, with the answer to the last request. -/
structure Served where
  cf : ConfigFile
  answer : Option Handle

/-- No file is open. -/
def Served.start : Served :=
  ⟨⟨none, 0, none, none, fun _ ↦ none, false, ⟨fun _ ↦ none, 0⟩⟩, none⟩

def stepRequest (defn : FileDefinition) (s : Served) (request : Request) : Exec Served :=
  (cfOpenCont defn request.can s.cf request.recordid).map fun result ↦ ⟨result.2, result.1⟩

/-- The name of the file that has a record. -/
def FileDefinition.nameOf (defn : FileDefinition) (recordid : ℕ) : Option String :=
  match defn with
  | .database filename => filename recordid
  | .ranges conts => (conts.list.find? (Continuation.inRange recordid)).map Continuation.name

/-- The file can be opened with the flags or for reading only. -/
def Request.Opens (request : Request) (name : String) : Prop :=
  request.can name .openFlags = true ∨ request.can name .readOnly = true

/-- The answer is the open handle of this file, or there is none and the file could not be opened. -/
def AnswersName (s : Served) (request : Request) (name : String) : Prop :=
  (∃ handle, s.answer = some handle ∧ s.cf.process.opened handle = some name) ∨
    (s.answer = none ∧ ¬request.Opens name)

/-- The last request is answered by the file of its record, if there is one. -/
def RightAnswer (defn : FileDefinition) (s : Served) : Option Request → Prop
  | none => True
  | some request =>
    match defn.nameOf request.recordid with
    | none => s.answer = none
    | some name => AnswersName s request name

/-- A file is open, or the first one can be opened with the flags, or no file has the record; otherwise
the file that has it cannot be opened if it is the one closed last or the one that failed last, and there
is one closed last.  A database has not been asked for a record that it does not have. -/
def RequestCondition (defn : FileDefinition) (s : Served) (_ : Option Request) (request : Request) :
    Prop :=
  match defn with
  | .database _ => s.cf.dbClosed = false
  | .ranges conts =>
    s.cf.filePtr ≠ none ∨ request.can (conts.list.get ⟨0, conts.nonempty⟩).name .openFlags = true ∨
      ∀ i, conts.holder request.recordid = some i → s.cf.current ≠ none ∧
        (s.cf.current = some i ∨ s.cf.contId = i + 1 →
          ∀ cont, conts.list[i]? = some cont → ¬request.Opens cont.name)

variable {conts : Continuations} {recordid i : ℕ} {can : CanOpen} {process : Process}

theorem Process.reopen_spec (process : Process) (can : CanOpen) (name : String) :
    (∃ process', process.reopen can name = some (process.next, process') ∧
        process'.opened = update process.opened process.next (some name)) ∨
      (process.reopen can name = none ∧ ¬(can name .openFlags = true ∨ can name .readOnly = true)) := by
  rw [Process.reopen, Process.fopen, Process.fopen]
  by_cases hflags : can name .openFlags = true
  · rw [if_pos hflags]
    exact .inl ⟨_, rfl, rfl⟩
  · rw [if_neg hflags, Option.none_or]
    by_cases hread : can name .readOnly = true
    · rw [if_pos hread]
      exact .inl ⟨_, rfl, rfl⟩
    · rw [if_neg hread]
      exact .inr ⟨rfl, not_or.mpr ⟨hflags, hread⟩⟩

theorem Continuations.holder_lt (h : conts.holder recordid = some i) : i < conts.list.length :=
  (List.findIdx?_eq_some_iff_getElem.mp h).1

theorem Continuations.inRange_holder (h : conts.holder recordid = some i) :
    (conts.list.get ⟨i, Continuations.holder_lt h⟩).inRange recordid = true :=
  (List.findIdx?_eq_some_iff_getElem.mp h).2.1

theorem Continuations.holder_of_inRange (hi : i < conts.list.length)
    (hrange : conts.list[i].inRange recordid = true) : conts.holder recordid = some i := by
  rw [Continuations.holder, List.findIdx?_eq_some_iff_getElem]
  refine ⟨hi, hrange, fun j hj hearlier ↦ ?_⟩
  have hapart := List.pairwise_iff_getElem.mp conts.apart j i (by omega) hi hj
  simp only [Continuation.inRange, decide_eq_true_eq] at hrange hearlier
  omega

theorem nameOf_ranges (conts : Continuations) (recordid : ℕ) :
    (FileDefinition.ranges conts).nameOf recordid =
      (conts.holder recordid).bind fun i ↦ (conts.list[i]?).map Continuation.name := by
  rw [FileDefinition.nameOf, List.find?_eq_bind_findIdx?_getElem?, Option.map_bind]
  rfl

variable {s : Served}

theorem rightAnswer_none {request : Request} (hholder : conts.holder request.recordid = none) :
    RightAnswer (.ranges conts) s (some request) ↔ s.answer = none := by
  rw [RightAnswer, nameOf_ranges, hholder]
  rfl

theorem rightAnswer_some {request : Request} (hholder : conts.holder request.recordid = some i) :
    RightAnswer (.ranges conts) s (some request) ↔
      AnswersName s request (conts.list.get ⟨i, Continuations.holder_lt hholder⟩).name := by
  rw [RightAnswer, nameOf_ranges, hholder, Option.bind_some,
    List.getElem?_eq_getElem (Continuations.holder_lt hholder)]
  rfl

/-- A continuation is open and the fields agree on it. -/
structure OpenAt (conts : Continuations) (cf : ConfigFile) (i : ℕ) (handle : Handle) : Prop where
  filePtr : cf.filePtr = some handle
  contId : cf.contId = i + 1
  current : cf.current = some i
  files : cf.files = update (fun _ ↦ none) i (some handle)
  opened : ∃ cont, conts.list[i]? = some cont ∧ cf.process.opened handle = some cont.name

/-- No continuation is open; one that was stays the current one. -/
structure Closed (cf : ConfigFile) : Prop where
  filePtr : cf.filePtr = none
  files : ∀ i, cf.files i = none
  fresh : cf.current = none → cf.contId = 0

/-- Of the database, the file of one record is open or none. -/
def DatabaseInvariant (filename : ℕ → Option String) (cf : ConfigFile) : Prop :=
  (cf.filePtr = none ∧ cf.made = none) ∨
    ∃ handle docid name, cf.filePtr = some handle ∧ cf.made = some (docid, some handle) ∧
      cf.contId = 1 ∧ filename docid = some name ∧ cf.process.opened handle = some name

/-- The fields of a file definition in use. -/
def CacheInvariant (defn : FileDefinition) (cf : ConfigFile) : Prop :=
  match defn with
  | .database filename => DatabaseInvariant filename cf
  | .ranges conts => (∃ i handle, OpenAt conts cf i handle) ∨ Closed cf

variable {cf : ConfigFile} {handle : Handle} {request : Request}

/-- What a request gives that is served rightly. -/
def ServedRightly (defn : FileDefinition) (request : Request) (result : Exec (Option Handle × ConfigFile)) :
    Prop :=
  ∃ answer cf', result = .ok (answer, cf') ∧ CacheInvariant defn cf' ∧
    RightAnswer defn ⟨cf', answer⟩ (some request)

/-- Whatever the answer, the fields are kept in order. -/
def Keeps (defn : FileDefinition) (result : Exec (Option Handle × ConfigFile)) : Prop :=
  ∀ answer cf', result = .ok (answer, cf') → CacheInvariant defn cf'

variable {defn : FileDefinition}

theorem ServedRightly.keeps {result : Exec (Option Handle × ConfigFile)}
    (h : ServedRightly defn request result) : Keeps defn result := by
  obtain ⟨answer, cf', hresult, hinv, -⟩ := h
  intro other state hother
  rw [hresult, Except.ok.injEq, Prod.mk.injEq] at hother
  exact hother.2 ▸ hinv

theorem keeps_error (fault : Fault) : Keeps defn (.error fault) :=
  fun _ _ hresult ↦ nomatch hresult

theorem Closed.keeps (h : Closed cf) (answer : Option Handle) :
    Keeps (.ranges conts) (.ok (answer, cf)) := by
  intro other state hother
  rw [Except.ok.injEq, Prod.mk.injEq] at hother
  exact .inr (hother.2 ▸ h)

variable {name : String}

theorem fclose_of_opened (h : process.opened handle = some name) : process.fclose handle =
      .ok { process with opened := update process.opened handle none } := by
  rw [Process.fclose, h, if_pos (Option.isSome_some)]

theorem openPosition_spec (hholder : conts.holder request.recordid = some i)
    (hother : cf.contId ≠ i + 1) {c : ℕ} (hcurrent : cf.current = some c)
    (hfiles : ∀ j, j ≠ c → cf.files j = none)
    (hclose : ∀ handle, cf.files c = some handle → (cf.process.opened handle).isSome) :
    ServedRightly (.ranges conts) request
      (openPosition conts request.can cf i (Continuations.holder_lt hholder)) := by
  have hlt := Continuations.holder_lt hholder
  have hnumber := conts.numbered i hlt
  have hupdate : update cf.files c none = fun _ ↦ none := by
    funext j
    rw [update_apply]
    split
    · rfl
    · exact hfiles j ‹_›
  obtain ⟨process, hprocess⟩ : ∃ process, closeCurrent cf c = .ok process := by
    rw [closeCurrent]
    rcases hfile : cf.files c with _ | handle
    · exact ⟨_, rfl⟩
    · obtain ⟨name, hname⟩ := Option.isSome_iff_exists.mp (hclose handle hfile)
      exact ⟨_, fclose_of_opened hname⟩
  rw [openPosition, if_neg (by rw [hnumber]; exact hother.symm)]
  simp only [hcurrent, deref, bind, Except.bind, hprocess, hupdate, hnumber]
  rcases process.reopen_spec request.can conts.list[i].name with ⟨process', hopen, hopened⟩ | ⟨hfail, hnot⟩
  · rw [hopen]
    refine ⟨_, _, rfl, .inl ⟨i, process.next, rfl, rfl, rfl, rfl, conts.list[i],
      List.getElem?_eq_getElem hlt, ?_⟩, ?_⟩
    · rw [hopened, update_self]
    · rw [rightAnswer_some hholder]
      refine .inl ⟨_, rfl, ?_⟩
      rw [hopened, update_self]
      rfl
  · rw [hfail]
    refine ⟨_, _, rfl, .inr ⟨rfl, fun _ ↦ rfl, fun hnone ↦ ?_⟩, ?_⟩
    · cases hnone
    · rw [rightAnswer_some hholder]
      exact .inr ⟨rfl, hnot⟩

theorem OpenAt.serves (h : OpenAt conts cf i handle) (request : Request) :
    ServedRightly (.ranges conts) request
      (cfOpenCont (.ranges conts) request.can cf request.recordid) := by
  obtain ⟨cont, hcont, hopened⟩ := h.opened
  obtain ⟨hlt, rfl⟩ := List.getElem?_eq_some_iff.mp hcont
  have hsome : cf.filePtr ≠ none := by rw [h.filePtr]; exact Option.some_ne_none _
  rw [cfOpenCont]
  simp only [if_neg hsome, h.current, Option.bind_some, hcont, Option.any_some]
  by_cases hrange : conts.list[i].inRange request.recordid = true
  · rw [if_pos hrange]
    refine ⟨_, _, rfl, .inl ⟨i, handle, h⟩, ?_⟩
    rw [rightAnswer_some (Continuations.holder_of_inRange hlt hrange)]
    exact .inl ⟨handle, h.filePtr, hopened⟩
  · rw [if_neg hrange]
    rcases hholder : conts.holder request.recordid with _ | j
    · exact ⟨_, _, rfl, .inl ⟨i, handle, h⟩, (rightAnswer_none hholder).mpr rfl⟩
    · have hne : i ≠ j := by
        rintro rfl
        exact hrange (Continuations.inRange_holder hholder)
      simp only [dif_pos (Continuations.holder_lt hholder)]
      apply openPosition_spec hholder _ h.current
      · intro k hk
        rw [h.files, update_of_ne hk]
      · intro other hother
        rw [h.files, update_self] at hother
        obtain rfl := Option.some.inj hother
        rw [hopened]
        rfl
      · rw [h.contId]
        omega

theorem cfOpenCont_of_cfOpen (hclosed : cf.filePtr = none)
    (hopen : (cfOpen defn can cf).filePtr ≠ none) :
    cfOpenCont defn can cf recordid = cfOpenCont defn can (cfOpen defn can cf) recordid := by
  unfold cfOpenCont
  simp only [if_pos hclosed, if_neg hopen]

theorem Closed.openAt_first (h : Closed cf)
    (hfirst : can (conts.list.get ⟨0, conts.nonempty⟩).name .openFlags = true) :
    ∃ handle, OpenAt conts (cfOpen (.ranges conts) can cf) 0 handle := by
  refine ⟨cf.process.next, ?_⟩
  have hfiles : cf.files = fun _ ↦ none := funext h.files
  rw [cfOpen]
  simp only [Process.fopen, if_pos hfirst, hfiles]
  exact ⟨rfl, rfl, rfl, rfl, _, List.getElem?_eq_getElem conts.nonempty, update_self ..⟩

theorem Closed.serves_none_iff (h : Closed cf) (hholder : conts.holder request.recordid = some i) :
    ServedRightly (.ranges conts) request (.ok (none, cf)) ↔
      ∀ cont, conts.list[i]? = some cont → ¬request.Opens cont.name := by
  have hcont := List.getElem?_eq_getElem (Continuations.holder_lt hholder)
  constructor
  · rintro ⟨answer, cf', hresult, -, hright⟩ cont hcont'
    cases hresult
    rw [hcont, Option.some.injEq] at hcont'
    rw [rightAnswer_some hholder] at hright
    rcases hright with ⟨handle, hsome, -⟩ | ⟨-, hnot⟩
    · cases hsome
    · exact hcont' ▸ hnot
  · intro hnot
    refine ⟨none, cf, rfl, .inr h, ?_⟩
    rw [rightAnswer_some hholder]
    exact .inr ⟨rfl, hnot _ hcont⟩

theorem Closed.serves_iff (h : Closed cf) (request : Request)
    (hfirst : ¬request.can (conts.list.get ⟨0, conts.nonempty⟩).name .openFlags = true) :
    Keeps (.ranges conts) (cfOpenCont (.ranges conts) request.can cf request.recordid) ∧
      (ServedRightly (.ranges conts) request
          (cfOpenCont (.ranges conts) request.can cf request.recordid) ↔
        ∀ i, conts.holder request.recordid = some i → cf.current ≠ none ∧
          (cf.current = some i ∨ cf.contId = i + 1 →
            ∀ cont, conts.list[i]? = some cont → ¬request.Opens cont.name)) := by
  have hsame : cfOpen (.ranges conts) request.can cf = cf := by
    simp only [cfOpen, Process.fopen, if_neg hfirst]
  unfold cfOpenCont
  simp only [if_pos h.filePtr, hsame]
  rcases hholder : conts.holder request.recordid with _ | i
  · have hrange : (cf.current.bind (conts.list[·]?)).any (Continuation.inRange request.recordid) =
        false := by
      rw [Bool.eq_false_iff, ne_eq, Option.any_eq_true]
      rintro ⟨cont, hcont, hin⟩
      obtain ⟨c, -, hc⟩ := Option.bind_eq_some_iff.mp hcont
      obtain ⟨hlt, rfl⟩ := List.getElem?_eq_some_iff.mp hc
      rw [Continuations.holder_of_inRange hlt hin] at hholder
      cases hholder
    rw [hrange]
    refine ⟨h.keeps none, iff_of_true ?_ fun i hi ↦ by cases hi⟩
    exact ⟨_, _, rfl, .inr h, (rightAnswer_none hholder).mpr rfl⟩
  have hlt := Continuations.holder_lt hholder
  have hiff : (∀ j, some i = some j → cf.current ≠ none ∧ (cf.current = some j ∨ cf.contId = j + 1 →
      ∀ cont, conts.list[j]? = some cont → ¬request.Opens cont.name)) ↔
      cf.current ≠ none ∧ (cf.current = some i ∨ cf.contId = i + 1 →
        ∀ cont, conts.list[i]? = some cont → ¬request.Opens cont.name) :=
    ⟨fun hall ↦ hall i rfl, fun hone j hj ↦ Option.some.inj hj ▸ hone⟩
  rw [hiff]
  rcases hcurrent : cf.current with _ | c
  · -- the number is still 0, and there is no current continuation to close
    have hnumber : ¬conts.list[i].idNumber = cf.contId := by
      rw [conts.numbered i hlt, h.fresh hcurrent]
      exact Nat.succ_ne_zero i
    have hfault : openPosition conts request.can cf i hlt = .error .nullDereference := by
      rw [openPosition, if_neg hnumber, hcurrent]
      rfl
    simp only [Option.bind_none, Option.any_none, Bool.false_eq_true, if_false, dif_pos hlt, hfault]
    refine ⟨keeps_error _, iff_of_false ?_ fun hnot ↦ hnot.1 rfl⟩
    rintro ⟨_, _, hresult, -⟩
    cases hresult
  · simp only [Option.bind_some, dif_pos hlt, ne_eq, reduceCtorEq, not_false_eq_true, true_and,
      Option.some.injEq]
    by_cases hrange : ((conts.list[c]?).any (Continuation.inRange request.recordid)) = true
    · obtain ⟨cont, hcont, hin⟩ := (Option.any_eq_true _ _).mp hrange
      obtain ⟨hc, rfl⟩ := List.getElem?_eq_some_iff.mp hcont
      have heq := Continuations.holder_of_inRange hc hin
      rw [hholder, Option.some.injEq] at heq
      rw [if_pos hrange, h.filePtr, h.serves_none_iff hholder]
      exact ⟨h.keeps none, fun hnot _ ↦ hnot, fun hnot ↦ hnot (.inl heq.symm)⟩
    · rw [if_neg hrange]
      have hne : c ≠ i := by
        rintro rfl
        apply hrange
        rw [List.getElem?_eq_getElem hlt, Option.any_some]
        exact Continuations.inRange_holder hholder
      by_cases hcontId : cf.contId = i + 1
      · have hnumber : conts.list[i].idNumber = cf.contId := by rw [conts.numbered i hlt, hcontId]
        rw [openPosition, if_pos hnumber, h.files, h.serves_none_iff hholder]
        exact ⟨h.keeps none, fun hnot _ ↦ hnot, fun hnot ↦ hnot (.inr hcontId)⟩
      · have hserves := openPosition_spec hholder hcontId hcurrent (fun j _ ↦ h.files j)
          fun handle hhandle ↦ by rw [h.files] at hhandle; cases hhandle
        exact ⟨hserves.keeps, iff_of_true hserves fun hcase ↦
          absurd hcase (not_or.mpr ⟨hne, hcontId⟩)⟩

variable {filename : ℕ → Option String}

theorem rightAnswer_database (hname : filename request.recordid = some name) :
    RightAnswer (.database filename) s (some request) ↔ AnswersName s request name := by
  rw [RightAnswer, FileDefinition.nameOf, hname]

theorem servedRightly_openRecord (cf : ConfigFile) (hname : filename request.recordid = some name)
    (hmade : cf.made = none) : ServedRightly (.database filename) request
      (.ok (openRecord request.can request.recordid name cf)) := by
  rw [openRecord]
  rcases cf.process.reopen_spec request.can name with ⟨process', hopen, hopened⟩ | ⟨hfail, hnot⟩
  · rw [hopen]
    have hself : process'.opened cf.process.next = some name := by
      rw [hopened, update_self]
    exact ⟨_, _, rfl, .inr ⟨_, _, name, rfl, rfl, rfl, hname, hself⟩,
      (rightAnswer_database hname).mpr (.inl ⟨_, rfl, hself⟩)⟩
  · rw [hfail]
    exact ⟨_, _, rfl, .inl ⟨rfl, hmade⟩, (rightAnswer_database hname).mpr (.inr ⟨rfl, hnot⟩)⟩

theorem DatabaseInvariant.serves (h : DatabaseInvariant filename cf) (hdb : cf.dbClosed = false)
    (request : Request) :
    ServedRightly (.database filename) request
      (cfOpenCont (.database filename) request.can cf request.recordid) := by
  have hstate : ∃ state : ConfigFile, (if cf.filePtr = none then
      cfOpen (.database filename) request.can cf else cf) = state ∧ DatabaseInvariant filename state ∧
      state.dbClosed = false := by
    by_cases hfile : cf.filePtr = none
    · rw [if_pos hfile]
      exact ⟨_, rfl, .inl ⟨hfile, rfl⟩, hdb⟩
    · rw [if_neg hfile]
      exact ⟨_, rfl, h, hdb⟩
  obtain ⟨state, hstate, hinv, hopen⟩ := hstate
  rw [cfOpenCont, hstate, cfOpenContDB, if_neg (by rw [hopen]; decide)]
  rcases hname : filename request.recordid with _ | name
  · refine ⟨_, _, rfl, hinv, ?_⟩
    rw [RightAnswer, FileDefinition.nameOf, hname]
  · rcases hinv with ⟨hfile, hmade⟩ | ⟨handle, docid, other, hfile, hmade, hcontId, hdocid, hopened⟩
    · rw [hmade]
      exact servedRightly_openRecord state hname hmade
    · simp only [hmade, hcontId, one_ne_zero, if_false]
      by_cases hsame : docid = request.recordid
      · rw [if_pos hsame]
        rw [hsame, hname, Option.some.injEq] at hdocid
        subst hdocid
        exact ⟨_, _, rfl, .inr ⟨handle, docid, name, hfile, hmade, hcontId, hsame ▸ hname, hopened⟩,
          (rightAnswer_database hname).mpr (.inl ⟨handle, rfl, hopened⟩)⟩
      · rw [if_neg hsame]
        simp only [deref, bind, Except.bind, fclose_of_opened hopened]
        exact servedRightly_openRecord _ hname rfl

theorem CacheInvariant.serves_iff (h : CacheInvariant defn s.cf) (last : Option Request)
    (request : Request) : Keeps defn (cfOpenCont defn request.can s.cf request.recordid) ∧
      (ServedRightly defn request (cfOpenCont defn request.can s.cf request.recordid) ↔
        RequestCondition defn s last request) := by
  cases defn with
  | database filename =>
    rw [RequestCondition]
    by_cases hdb : s.cf.dbClosed = false
    · have hserves := DatabaseInvariant.serves h hdb request
      exact ⟨hserves.keeps, iff_of_true hserves hdb⟩
    · have hstate : (if s.cf.filePtr = none then cfOpen (.database filename) request.can s.cf
          else s.cf).dbClosed = true := by
        rw [Bool.not_eq_false] at hdb
        split <;> exact hdb
      rw [cfOpenCont, cfOpenContDB, if_pos hstate]
      refine ⟨keeps_error _, iff_of_false ?_ hdb⟩
      rintro ⟨_, _, hresult, -⟩
      cases hresult
  | ranges conts =>
    rw [RequestCondition]
    rcases h with ⟨i, handle, hopen⟩ | hclosed
    · have hsome : s.cf.filePtr ≠ none := by rw [hopen.filePtr]; exact Option.some_ne_none _
      exact ⟨(hopen.serves request).keeps, iff_of_true (hopen.serves request) (.inl hsome)⟩
    · by_cases hfirst : request.can (conts.list.get ⟨0, conts.nonempty⟩).name .openFlags = true
      · obtain ⟨handle, hopen⟩ := hclosed.openAt_first hfirst
        have hsome : (cfOpen (.ranges conts) request.can s.cf).filePtr ≠ none := by
          rw [hopen.filePtr]
          exact Option.some_ne_none _
        rw [cfOpenCont_of_cfOpen hclosed.filePtr hsome]
        exact ⟨(hopen.serves request).keeps, iff_of_true (hopen.serves request) (.inr (.inl hfirst))⟩
      · obtain ⟨hkeeps, hserves⟩ := hclosed.serves_iff request hfirst
        refine ⟨hkeeps, hserves.trans ⟨fun hall ↦ .inr (.inr hall), fun hcases ↦ ?_⟩⟩
        exact (hcases.resolve_left fun hne ↦ hne hclosed.filePtr).resolve_left hfirst

/-- In every run every request is answered rightly exactly when each of them meets the condition. -/
theorem answered_throughout_iff (defn : FileDefinition) (requests : List Request) :
    Throughout (stepRequest defn) (fun _ _ request ↦ some request) (RightAnswer defn)
        (fun _ _ _ ↦ True) .start none requests ↔
      Along (stepRequest defn) (fun _ _ request ↦ some request) (RequestCondition defn)
        .start none requests := by
  apply throughout_iff_along_of_inv (fun s a ↦ CacheInvariant defn s.cf ∧ RightAnswer defn s a)
    (fun _ _ hinv ↦ hinv.2) _ _ _ (along_true _ _ _)
  · rintro s last request ⟨hinv, -⟩ - hmet
    obtain ⟨answer, cf', hrun, hinv', hright⟩ := (hinv.serves_iff last request).2.mpr hmet
    exact ⟨⟨cf', answer⟩, by rw [stepRequest, hrun, Except.map], trivial, hinv', hright⟩
  · rintro s last request s' ⟨hinv, -⟩ - hstep hright
    obtain ⟨hkeeps, hserves⟩ := hinv.serves_iff last request
    rw [stepRequest] at hstep
    rcases hrun : cfOpenCont defn request.can s.cf request.recordid with fault | ⟨answer, cf'⟩
    · rw [hrun] at hstep
      cases hstep
    · rw [hrun] at hstep
      cases hstep
      exact hserves.mp ⟨answer, cf', hrun, hkeeps _ _ hrun, hright⟩
  · refine ⟨?_, trivial⟩
    cases defn with
    | database filename => exact .inl ⟨rfl, rfl⟩
    | ranges conts => exact .inr ⟨rfl, fun _ ↦ rfl, fun _ ↦ rfl⟩

def oneFile : Continuations where
  list := [⟨"data.1", 1, 1, 100⟩]
  nonempty := by decide
  numbered := fun i hi ↦ by
    obtain rfl : i = 0 := by simpa using hi
    rfl
  apart := List.pairwise_singleton _ _

/-- A first file that can only be read makes the routine follow a null pointer. -/
theorem not_answered_readOnly : ¬Throughout (stepRequest (.ranges oneFile))
    (fun _ _ request ↦ some request) (RightAnswer (.ranges oneFile)) (fun _ _ _ ↦ True) .start none
    [⟨1, one_ne_zero, fun _ mode ↦ match mode with
      | .openFlags => false
      | .readOnly => true⟩] := by
  rintro ⟨-, s', hstep, -⟩
  cases hstep

end Cheshire.Config
