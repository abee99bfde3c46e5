import Cheshire.Fault

/-!
# Continuation files

The data of a file may go on in continuation files, each for a range of record numbers, or in one file
for each record that a database names.  `cf_open_cont` keeps one of them open and remembers which: the
pointer, the current continuation and its number are kept in separate fields.
-/

namespace Cheshire.Config

abbrev Handle := ℕ

/-- The file behind each handle that is open. -/
structure Process where
  opened : Handle → Option String
  next : Handle

/-- The two ways in which a file is tried: with `cf_open_file_flags` and with `"r"`. -/
inductive OpenMode where
  | openFlags
  | readOnly

/-- Which files can be opened at a request. -/
abbrev CanOpen := String → OpenMode → Bool

def Process.fopen (process : Process) (can : CanOpen) (name : String) (mode : OpenMode) :
    Option (Handle × Process) :=
  if can name mode then
    some (process.next, ⟨Function.update process.opened process.next (some name), process.next + 1⟩)
  else none

def Process.fclose (process : Process) (handle : Handle) : Exec Process :=
  if (process.opened handle).isSome then
    .ok { process with opened := Function.update process.opened handle none }
  else .error .useAfterFree

/-- A file is tried with the flags and then for reading only. -/
def Process.reopen (process : Process) (can : CanOpen) (name : String) : Option (Handle × Process) :=
  (process.fopen can name .openFlags).or (process.fopen can name .readOnly)

structure Continuation where
  name : String
  idNumber : ℕ
  docidMin : ℕ
  docidMax : ℕ
deriving DecidableEq

/-- `recordid >= cont->docid_min && recordid <= cont->docid_max` -/
def Continuation.inRange (recordid : ℕ) (cont : Continuation) : Bool :=
  cont.docidMin ≤ recordid ∧ recordid ≤ cont.docidMax

/-- The continuations of a file: numbered in sequence, with ranges one behind the other. -/
structure Continuations where
  list : List Continuation
  nonempty : 0 < list.length
  numbered : ∀ i (hi : i < list.length), list[i].idNumber = i + 1
  apart : list.Pairwise fun cont later ↦ cont.docidMax < later.docidMin

/-- How a file goes on: `dbflag` tells a database of file names from continuations with ranges. -/
inductive FileDefinition where
  | ranges (conts : Continuations)
  | database (filename : ℕ → Option String)

/-- `config_file_info`.  The current continuation is one of the list, or was made for one record of a
database; `dbClosed` says that `cf_getDBfilename` has closed the database. -/
structure ConfigFile where
  filePtr : Option Handle
  contId : ℕ
  current : Option ℕ
  made : Option (ℕ × Option Handle)
  files : ℕ → Option Handle
  dbClosed : Bool
  process : Process

/-- What `cf_open` does with the continuations when no file is open. -/
def cfOpen (defn : FileDefinition) (can : CanOpen) (cf : ConfigFile) : ConfigFile :=
  match defn with
  | .database _ => { cf with contId := 0, current := none, made := none }
  | .ranges conts =>
    match cf.process.fopen can (conts.list.get ⟨0, conts.nonempty⟩).name .openFlags with
    | none => cf
    | some (handle, process) => { cf with
        filePtr := some handle
        files := Function.update cf.files 0 (some handle)
        contId := 1
        current := some 0
        process := process }

/-- The new continuation of `cf_open_cont_DB`, for one record. -/
def openRecord (can : CanOpen) (recordid : ℕ) (name : String) (cf : ConfigFile) :
    Option Handle × ConfigFile :=
  match cf.process.reopen can name with
  | none => (none, { cf with contId := 1, filePtr := none })
  | some (handle, process) => (some handle, { cf with
      contId := 1
      filePtr := some handle
      made := some (recordid, some handle)
      process := process })

/-- `cf_open_cont_DB`; a number that the database does not have makes the look-up close it. -/
def cfOpenContDB (filename : ℕ → Option String) (can : CanOpen) (cf : ConfigFile) (recordid : ℕ) :
    Exec (Option Handle × ConfigFile) :=
  if cf.dbClosed then .error .useAfterFree
  else
    match filename recordid with
    | none => .ok (none, { cf with dbClosed := true })
    | some name =>
      match cf.made with
      | some (docid, file) =>
        if cf.contId = 0 then .ok (openRecord can recordid name cf)
        else if docid = recordid then .ok (file, cf)
        else do
          let process ← cf.process.fclose (← deref file)
          .ok (openRecord can recordid name
            { cf with process := process, made := none, contId := 0 })
      | none => .ok (openRecord can recordid name cf)

/-- `if (cf->current_cont->file) fclose(cf->current_cont->file)` -/
def closeCurrent (cf : ConfigFile) (current : ℕ) : Exec Process :=
  match cf.files current with
  | none => .ok cf.process
  | some handle => cf.process.fclose handle

/-- The continuation that has the record, at a position of the list. -/
def openPosition (conts : Continuations) (can : CanOpen) (cf : ConfigFile) (i : ℕ)
    (hi : i < conts.list.length) : Exec (Option Handle × ConfigFile) :=
  if conts.list[i].idNumber = cf.contId then .ok (cf.files i, cf)
  else do
    let current ← deref cf.current
    let process ← closeCurrent cf current
    let cf := { cf with
      files := Function.update cf.files current none
      contId := conts.list[i].idNumber
      process := process }
    match cf.process.reopen can conts.list[i].name with
    | none => .ok (none, { cf with filePtr := none })
    | some (handle, process) => .ok (some handle, { cf with
        filePtr := some handle
        files := Function.update cf.files i (some handle)
        current := some i
        process := process })

/-- The first continuation whose range has the record. -/
def Continuations.holder (conts : Continuations) (recordid : ℕ) : Option ℕ :=
  conts.list.findIdx? (Continuation.inRange recordid)

/-- `cf_open_cont` for the main file and a record number. -/
def cfOpenCont (defn : FileDefinition) (can : CanOpen) (cf : ConfigFile) (recordid : ℕ) :
    Exec (Option Handle × ConfigFile) :=
  let cf := if cf.filePtr = none then cfOpen defn can cf else cf
  match defn with
  | .database filename => cfOpenContDB filename can cf recordid
  | .ranges conts =>
    if (cf.current.bind (conts.list[·]?)).any (Continuation.inRange recordid) then
      .ok (cf.filePtr, cf)
    else
      match conts.holder recordid with
      | none => .ok (none, cf)
      | some i =>
        if hi : i < conts.list.length then openPosition conts can cf i hi
        else .ok (none, cf)

end Cheshire.Config
