import Cheshire.Index.NumberKeys
import Cheshire.Index.Database
import Cheshire.Lib.Buffer

/-!
# Conversion of diacritics

`conv_diacritics` and `detag_data_block` copy a text into a block that has 40 characters more than the text,
and replace the characters of the ALA and the Latin-1 set by one or by two others.  `detag_data_block` also
drops the tags, or puts blanks for them if the index keeps word positions.
-/

namespace Cheshire.Index

open Lib.Buffer

def NORM_NOMAP : ℕ := 1 <<< 23

/-- The cases of the first `switch`. -/
def alaCases : List (List ℕ × List Char) :=
  [([161], ['L']), ([162], ['O']), ([163], ['D']), ([164], ['T', 'h']), ([165], ['A', 'E']),
    ([166], ['O', 'E']), ([167], ['_']), ([168], ['_']), ([169], ['_']), ([170], ['_']), ([171], ['_']),
    ([172], ['O']), ([173], ['U']), ([174], ['_']), ([175], ['_']), ([176], ['_']), ([177], ['l']),
    ([178], ['o']), ([179], ['d']), ([180], ['t', 'h']), ([181], ['a', 'e']), ([182], ['o', 'e']),
    ([183], ['_']), ([184], ['i']), ([185], ['_']), ([186], ['d']), ([187], ['_']), ([188], ['o']),
    ([189], ['u'])]

/-- The cases of the second one. -/
def latinCases : List (List ℕ × List Char) :=
  [([192, 193, 194, 195, 196, 197], ['A']), ([198], ['A', 'E']), ([199], ['C']),
    ([200, 201, 202, 203], ['E']), ([204, 205, 206, 207], ['I']), ([208], ['T', 'h']), ([209], ['N']),
    ([210, 211, 212, 214, 216], ['O']), ([215], [' ']), ([217, 218, 219, 220], ['U']), ([221], ['Y']),
    ([222], ['T', 'h']), ([223], ['s', 's']), ([224, 225, 226, 227, 228, 229], ['a']), ([230], ['a', 'e']),
    ([231], ['c']), ([232, 233, 234, 235], ['e']), ([236, 237, 238, 239], ['i']), ([240], ['t', 'h']),
    ([241], ['n']), ([242, 243, 244, 245, 246, 248], ['o']), ([247], [' ']), ([250, 251, 252], ['u']),
    ([253, 255], ['Y']), ([254], ['t', 'h'])]

/-- What stands for a character above 128; without a case it is the character itself.  `latin` is the first
character that is taken as Latin-1. -/
def substituted (latin : ℕ) (u : Char) : List Char :=
  match (if u.toNat < latin then alaCases else latinCases).find? fun row ↦ row.1.contains u.toNat with
  | some row => row.2
  | none => [u]

/-- `databuf`, the position `i` in it, and `contains_non_roman` -/
structure Databuf where
  cells : List Char
  i : ℕ
  nonRoman : Bool
deriving DecidableEq, Repr

/-- `databuf = CALLOC(char, size)` -/
def Databuf.fresh (size : ℕ) : Databuf := ⟨calloc nul size, 0, false⟩

/-- `databuf[i++] = c` -/
def Databuf.put (buf : Databuf) (c : Char) : Exec Databuf :=
  match store? buf.cells buf.i c with
  | some cells => .ok { buf with cells, i := buf.i + 1 }
  | none => .error .outOfBounds

def Databuf.putAll (buf : Databuf) (text : List Char) : Exec Databuf := text.foldlM Databuf.put buf

/-- `contains_non_roman = 1` -/
def Databuf.flagged (buf : Databuf) (nonRoman : Bool) : Databuf :=
  { buf with nonRoman := buf.nonRoman || nonRoman }

/-- `*c` -/
def readChar : List Char → Exec Char
  | [] => .error .outOfBounds
  | c :: _ => .ok c

/-- What the two routines do differently. -/
structure Conversion where
  /-- `detag_data_block` looks for tags and CDATA sections -/
  tags : Bool
  /-- processing instructions have been done -/
  marks : Bool
  /-- `index_type & PROXIMITY` -/
  prox : Bool
  /-- `(index_type & (NORM_NOMAP | NORM_MIN)) == 0` -/
  mapped : Bool
  /-- the first character that is taken as Latin-1 -/
  latin : ℕ
  /-- from this position on `detag_data_block` leaves out what is not replaced -/
  last : Option ℕ
deriving DecidableEq, Repr

/-- The gap that a processing instruction has left. -/
def closeGap (memory : List Char) : List Char :=
  if ['\x01', '\x02', '\x03'].isPrefixOf memory then (memory.drop 3).dropWhile (· = ' ')
  else if ['\x01'].isPrefixOf memory then memory.tail
  else memory

/-- `while (*c != '\0' && strncmp(c,"]]>",3) != 0) databuf[i++] = *c++;` -/
def copySection : List Char → Databuf → Exec (List Char × Databuf)
  | [], _ => .error .outOfBounds
  | c :: memory, buf =>
    if c = nul ∨ [']', ']', '>'].isPrefixOf (c :: memory) = true then .ok (c :: memory, buf)
    else do
      let buf ← buf.put c
      copySection memory buf

/-- The loop over tags that follow each other. -/
def skipTags (prox : Bool) : List Char → Databuf → Exec (List Char × Databuf)
  | [], _ => .error .outOfBounds
  | [c], buf => if c = '>' ∨ c = nul then .ok ([c], buf) else .error .outOfBounds
  | c :: t :: memory, buf =>
    if c = '>' ∨ c = nul then .ok (c :: t :: memory, buf)
    else do
      let buf ← if prox then buf.put ' ' else .ok buf
      if t = '>' then do
        let next ← readChar memory
        if next = '<' then do
          let buf ← buf.put ' '
          skipTags prox memory buf
        else skipTags prox (t :: memory) buf
      else skipTags prox (t :: memory) buf

/-- `while (t == '\r' && *c)` -/
def skipReturns (prox : Bool) : List Char → Databuf → Exec (List Char × Databuf)
  | [], _ => .error .outOfBounds
  | c :: memory, buf =>
    if c = '\r' then do
      let buf ← if prox then buf.put ' ' else .ok buf
      skipReturns prox memory buf
    else .ok (c :: memory, buf)

/-- The last statement of a pass, for a character that is not replaced. -/
def Conversion.store (o : Conversion) (buf : Databuf) (t : Char) : Exec Databuf :=
  match o.last with
  | some last => if last < buf.i then .ok { buf with i := buf.i + 1 } else buf.put t
  | none => buf.put t

/-- The tags in front of the character to be stored, that character, and what stands from there on. -/
def passTags (o : Conversion) (u : Char) (memory : List Char) (buf : Databuf) :
    Exec (Char × List Char × Databuf) :=
  if o.tags = true ∧ u = '<' then do
    let skipped ← skipTags o.prox memory buf
    if o.prox then .ok (' ', skipped)
    else do
      let t ← readChar skipped.1.tail
      .ok (t, skipped.1.tail, skipped.2)
  else .ok (u, memory, buf)

/-- The carriage returns in front of it. -/
def passReturns (o : Conversion) (read : Char × List Char × Databuf) :
    Exec (Char × List Char × Databuf) :=
  if read.1 = '\r' then do
    let skipped ← skipReturns o.prox read.2.1 read.2.2
    let t ← readChar skipped.1
    .ok (t, skipped)
  else .ok read

/-- The body of the loop behind the test for gaps, and `c++, i++`; a character above 128 that is replaced is
neither a `<` nor a carriage return. -/
def passBody (o : Conversion) (memory : List Char) (buf : Databuf) : Exec (List Char × Databuf) := do
  let u ← readChar memory
  if o.tags = true ∧ ['<', '!', '[', 'C', 'D', 'A', 'T', 'A', '['].isPrefixOf memory = true then do
    let copied ← copySection memory buf
    .ok (copied.1.tail, copied.2)
  else do
    let tagged ← passTags o u memory buf
    let read ← passReturns o tagged
    if 128 < u.toNat ∧ o.mapped = true then do
      let buf ← read.2.2.putAll (substituted o.latin u)
      .ok (read.2.1.tail, buf.flagged (decide (u.toNat < o.latin)))
    else do
      let buf ← o.store read.2.2 read.1
      .ok (read.2.1.tail, buf)

def pass (o : Conversion) (memory : List Char) (buf : Databuf) : Exec (List Char × Databuf) :=
  passBody o (if o.marks then closeGap memory else memory) buf

/-- `for (i = 0, c = orig_databuf; *c ; c++, i++)` -/
def convert (o : Conversion) : ℕ → List Char → Databuf → Exec Databuf
  | 0, _, _ => .error .unfinished
  | fuel + 1, memory, buf => do
    let c ← readChar memory
    if c = nul then .ok buf
    else do
      let next ← pass o memory buf
      convert o fuel next.1 next.2

/-- `(index_type & NORM_DO_NOTHING) == NORM_DO_NOTHING` -/
def DoNothing (indexType : ℕ) : Prop := indexType &&& NORM_DO_NOTHING = NORM_DO_NOTHING

instance (indexType : ℕ) : Decidable (DoNothing indexType) :=
  inferInstanceAs (Decidable (indexType &&& NORM_DO_NOTHING = NORM_DO_NOTHING))

/-- The characters are replaced. -/
def mapsCharacters (indexType : ℕ) : Bool := decide (indexType &&& (NORM_NOMAP ||| NORM_MIN) = 0)

def convConversion (indexType : ℕ) : Conversion where
  tags := false
  marks := false
  prox := false
  mapped := mapsCharacters indexType
  latin := 223
  last := none

/-- The block that `conv_diacritics` returns. -/
def convDiacritics (data : CString) (indexType : ℕ) : Exec Databuf :=
  if DoNothing indexType then .ok ⟨data.stored, data.length, false⟩
  else convert (convConversion indexType) (data.length + 2) data.stored (.fresh (data.length + 40))

/-- The element of a document that is indexed: its content, and for an element with processing instructions
what these leave of the copy.  They work in place on the copy, which does not grow. -/
structure ElementData where
  content : List Char
  instructed : Option {text : CString // text.length ≤ content.length}

/-- `strncpy` copies up to a zero. -/
def ElementData.copied (data : ElementData) : List Char := data.content.takeWhile (· ≠ nul)

def ElementData.text (data : ElementData) : List Char :=
  match data.instructed with
  | some text => text.val.chars
  | none => data.copied

/-- `orig_databuf`, which has ten characters more than the content -/
def ElementData.block (data : ElementData) (text : List Char) : List Char :=
  text ++ List.replicate (data.content.length + 10 - text.length) nul

/-- Without an index and a type nothing is replaced. -/
def detagType (indexType : ℕ) (idxGiven : Bool) : ℕ :=
  if idxGiven = false ∧ indexType = 0 then indexType ||| NORM_NOMAP else indexType

def detagConversion (data : ElementData) (indexType : ℕ) : Conversion where
  tags := true
  marks := data.instructed.isSome
  prox := decide (indexType &&& PROXIMITY ≠ 0)
  mapped := mapsCharacters indexType
  latin := 192
  last := some (data.content.length + 40)

/-- The block that `detag_data_block` fills. -/
def detagBuffer (data : ElementData) (indexType : ℕ) : Exec Databuf :=
  if DoNothing indexType then .ok ⟨data.block data.copied, data.content.length, false⟩
  else convert (detagConversion data indexType) (data.content.length + 11) (data.block data.text)
    (.fresh (data.content.length + 40))

end Cheshire.Index
