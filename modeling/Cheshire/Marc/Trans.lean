import Cheshire.FileIo.RecordStore
import Cheshire.Lib.Runs

/-!
# Converting files of MARC records

`marc2sgml` reads a file of MARC records, appends their SGML forms to a file and enters where each of
them stands into an associator.  The associator is a file of `int`s: the number of records and the
sum of their lengths, then offset and length of every record.  With files that exist the program goes
on at their ends.
-/

namespace Cheshire.Marc

open FileIo Lib

/-- The value that is stored in an `int`. -/
def toInt32 (value : ℤ) : ℤ := value.bmod (2 ^ 32)

theorem toInt32_of_le {n : ℕ} (hle : n ≤ INT_MAX) : toInt32 n = n := by
  rw [INT_MAX] at hle
  rw [toInt32, Int.bmod_eq_of_le] <;> omega

theorem toInt32_eq_iff (n : ℕ) : toInt32 n = n ↔ n ≤ INT_MAX := by
  constructor
  · intro heq
    have hlt : toInt32 n < (2 ^ 32 + 1) / 2 := @Int.bmod_lt n (2 ^ 32) (by decide)
    rw [heq] at hlt
    rw [INT_MAX]
    omega
  · exact toInt32_of_le

def writeAt (file : Bytes) (position : ℕ) (bytes : Bytes) : Bytes :=
  file.take position ++ bytes ++ file.drop (position + bytes.length)

theorem writeAt_end (file bytes : Bytes) : writeAt file file.length bytes = file ++ bytes := by
  rw [writeAt, List.take_length, List.drop_eq_nil_of_le (Nat.le_add_right _ _), List.append_nil]

/-- The associator and the SGML file, where they exist. -/
structure ConversionFiles where
  assocfile : Option (List ℤ)
  sgmlout : Option Bytes

/-- No file is there before the first run. -/
def ConversionFiles.none : ConversionFiles := ⟨Option.none, Option.none⟩

def RECTERM : UInt8 := 29

def RECBUFSIZE : ℕ := 100000

/-- The array that the records are read into. -/
abbrev RecBuffer := ℕ → UInt8

/-- The array after a record was read into it; its terminator became a zero. -/
def RecBuffer.fill (recbuffer : RecBuffer) (record : Bytes) : RecBuffer := fun i ↦
  if i = record.length then 0 else record.getD i (recbuffer i)

/-- `ReadMARC2`: nothing at the end of the file, else the array, the length of the record and what is
left of the file.  A record that does not end, or not inside the array, is read past the array; one
without a byte before its terminator ends the file. -/
def readMarc2 (recbuffer : RecBuffer) (marcin : Bytes) : Exec (Option (RecBuffer × ℕ × Bytes)) :=
  let rest := marcin.dropWhile (· = newline)
  if rest = [] then .ok none
  else
    let record := rest.takeWhile (· ≠ RECTERM)
    if record.length = rest.length ∨ RECBUFSIZE ≤ record.length then .error .outOfBounds
    else if record.length = 0 then .ok none
    else .ok (some (recbuffer.fill record, record.length, rest.drop (record.length + 1)))

/-- The routines that convert one record.  `getMarc` finds the fields of the record in the array,
which it may change; `marc2sgml` makes its SGML form, if it can. -/
structure MarcCallees where
  MarcRec : Type
  getMarc : RecBuffer → ℕ → Exec (RecBuffer × Option MarcRec)
  marc2sgml : MarcRec → RecBuffer → ℤ → Exec (RecBuffer × Option FileIo.CString)

/-- The open files and the variables that say where the next record goes. -/
structure TransState where
  assocfile : List ℤ
  sgmlout : Bytes
  position : ℕ
  nrecs : ℤ
  offset : ℤ
  sumMarclen : ℤ

/-- What the main loop does with a record that was converted. -/
def storeRecord (t : TransState) (sgmlrec : FileIo.CString) : Exec TransState := do
  let position := t.position + (sgmlrec.bytes.length + 1)
  let srecsize := toInt32 sgmlrec.bytes.length
  let sumMarclen ← checkInt (t.sumMarclen + srecsize)
  let nrecs ← checkInt (t.nrecs + 1)
  .ok { assocfile := t.nrecs :: sumMarclen :: (t.assocfile ++ [t.offset, srecsize]).drop 2
        sgmlout := writeAt t.sgmlout t.position (sgmlrec.bytes ++ [newline])
        position
        nrecs
        offset := toInt32 position
        sumMarclen }

variable (callees : MarcCallees)

/-- The main loop: records that are skipped or fail are counted in `marcrecsin` only. -/
def transLoop : ℕ → RecBuffer → ℤ → Bytes → TransState → Exec TransState
  | 0, _, _, _, _ => .error .unfinished
  | fuel + 1, recbuffer, marcrecsin, marcin, t => do
    match ← readMarc2 recbuffer marcin with
    | none => .ok t
    | some (recbuffer, lrecl, marcin) => do
      let marcrecsin ← checkInt (marcrecsin + 1)
      match ← callees.getMarc recbuffer lrecl with
      | (recbuffer, none) => transLoop fuel recbuffer marcrecsin marcin t
      | (recbuffer, some marcrec) => do
        match ← callees.marc2sgml marcrec recbuffer marcrecsin with
        | (recbuffer, none) => transLoop fuel recbuffer marcrecsin marcin t
        | (recbuffer, some sgmlrec) => do
          let t ← storeRecord t sgmlrec
          transLoop fuel recbuffer marcrecsin marcin t

/-- A call of the program: the input file and the argument `startid_number`. -/
structure ConversionRun where
  marcin : Bytes
  startid : Option ℤ

/-- `fwrite("0", 2 * sizeof(int), 1, assocfile)` goes on behind the two bytes of the string with the
six bytes that stand there; in the first `int` these are the upper half. -/
structure BehindLiteral where
  upper : ℕ
  second : ℤ

def BehindLiteral.first (behind : BehindLiteral) : ℤ := toInt32 (48 + 65536 * behind.upper)

variable (behind : BehindLiteral)

/-- The variables when the loop starts. -/
def transStart (files : ConversionFiles) : Exec TransState :=
  match files.assocfile, files.sgmlout with
  | some assocfile, some sgmlout => do
    let nrecs ← checkInt (assocfile.headD 1 + 1)
    .ok { assocfile
          sgmlout
          position := sgmlout.length
          nrecs
          offset := toInt32 sgmlout.length
          sumMarclen := 0 }
  | assocfile, sgmlout =>
    .ok { assocfile := behind.first :: behind.second :: (assocfile.getD []).drop 2
          sgmlout := sgmlout.getD []
          position := 0
          nrecs := 1
          offset := 0
          sumMarclen := 0 }

/-- The number before the one that the first record of a run gets. -/
def startNumber (files : ConversionFiles) (run : ConversionRun) : ℤ :=
  match run.startid with
  | some startid => toInt32 (startid - 1)
  | none =>
    match files.assocfile, files.sgmlout with
    | some assocfile, some _ => assocfile.headD 1 + 1
    | _, _ => 0

/-- One run of `marc2sgml`. -/
def trans (files : ConversionFiles) (run : ConversionRun) : Exec ConversionFiles := do
  let t ← transStart behind files
  let t ← transLoop callees (run.marcin.length + 1) (fun _ ↦ 0) (startNumber files run) run.marcin t
  .ok ⟨some t.assocfile, some t.sgmlout⟩

end Cheshire.Marc
