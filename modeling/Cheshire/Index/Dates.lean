import Cheshire.Index.NumberKeys

/-!
# Keys of dates

`parse_date` reads a date or a range of dates in a text as a pattern directs it, and prints the key under
which the index keeps it.  The pattern is taken apart into elements, and each element moves a pointer over
the text: the text and its NUL are what may be read, and digits and words are copied to an array of a
hundred characters.
-/

namespace Cheshire.Dates

open Index (paddedInt scanNumber sprintfKey)

structure DateTime where
  year : ℤ
  month : ℤ
  day : ℤ
  hour : ℤ
  minute : ℤ
deriving DecidableEq, Repr

def DateTime.zero : DateTime := ⟨0, 0, 0, 0, 0⟩

/-- `ptr[k]` -/
def charAt (ptr : List Char) (k : ℕ) : Exec Char :=
  match ptr[k]? with
  | some c => .ok c
  | none => .error .outOfBounds

/-- `while (p(*ptr)) ptr++` -/
def skipWhile (p : Char → Bool) : List Char → Exec (List Char)
  | [] => .error .outOfBounds
  | c :: ptr => if p c then skipWhile p ptr else .ok (c :: ptr)

/-- `for (j=0; p(*cptr); j++) tmp[j] = f(*cptr++)` with a NUL behind, in `tmp[100]`. -/
def copyWhile (p : Char → Bool) (f : Char → Char) (cptr : List Char) :
    Exec (List Char × List Char) := do
  let rest ← skipWhile p cptr
  let copied := (cptr.takeWhile p).map f
  if copied.length < 100 then .ok (copied, rest) else .error .outOfBounds

/-- So many times `tmp[j] = f(*cptr++)`. -/
def copyChars (n : ℕ) (f : Char → Char) (cptr : List Char) : Exec (List Char × List Char) :=
  if n ≤ cptr.length then .ok ((cptr.take n).map f, cptr.drop n) else .error .outOfBounds

def atoi (text : List Char) : Exec ℤ :=
  match scanNumber text with
  | none => .ok 0
  | some scanned => checkInt scanned.1

def doWild (endRange : Bool) (c : Char) : Char :=
  if c.isDigit || c == '-' then c
  else if endRange && (c == 'X' || c == 'x') then '9' else '0'

def isWild (c : Char) : Bool := c.isDigit || c == 'x' || c == 'X'

/-- The punctuation that is read over, with `"`. -/
def isPunctuation (c : Char) : Bool := c ∈ [' ', '\t', '\n', '\x22', ':', '/', '.']

/-- The letter is one of these, whatever its case. -/
def isLetterOf (letters : String) (c : Char) : Bool := c.toUpper ∈ letters.toList

/-- The test for `BC` and `B.C`. -/
def isBc (ptr : List Char) : Exec Bool := do
  let first ← charAt ptr 0
  if first.toUpper = 'B' then do
    let second ← charAt ptr 1
    if second.toUpper = '.' then do
      let third ← charAt ptr 2
      .ok (third.toUpper = 'C')
    else .ok (second.toUpper = 'C')
  else .ok false

/-- `getEra` with a pointer that is not null: the sign of the years, and the first character behind. -/
def getEra (ptr : List Char) (negyear : ℤ) : Exec (ℤ × List Char) := do
  let first ← charAt ptr 0
  if first = nul then .ok (negyear, ptr)
  else do
    let ptr ← skipWhile isPunctuation ptr
    let bc ← isBc ptr
    let rest ← skipWhile (fun c ↦ isPunctuation c || isLetterOf "ADBCE" c) ptr
    .ok (if bc then -1 else 1, rest)

/-- `name[1] == second && name[2] == third` -/
def goesOn (name : List Char) (second third : Char) : Exec Bool := do
  let c ← charAt name 1
  if c = second then do
    let d ← charAt name 2
    .ok (d = third)
  else .ok false

/-- The case of `A`. -/
def aprilOrAugust (name : List Char) (month : ℤ) : Exec ℤ := do
  let april ← goesOn name 'P' 'R'
  let august ← goesOn name 'U' 'G'
  .ok (if april then 4 else if august then 8 else month)

/-- The case of `J`. -/
def januaryToJuly (name : List Char) : Exec ℤ := do
  let second ← charAt name 1
  let july ← goesOn name 'U' 'L'
  let june ← goesOn name 'U' 'N'
  .ok (if second = 'A' then 1 else if july then 7 else if june then 6 else 0)

/-- The cases with a single month. -/
def oneMonth (name : List Char) (second third : Char) (month : ℤ) : Exec ℤ := do
  let found ← goesOn name second third
  .ok (if found then month else 0)

/-- `monthbyname` of a name with its NUL.  What an earlier element left in the array behind the NUL is not
followed. -/
def monthbyname (name : List Char) : Exec ℤ := do
  match ← charAt name 0 with
  | 'J' => januaryToJuly name
  | 'F' => oneMonth name 'E' 'B' 2
  | 'M' =>
    -- there is no `break`: the case goes on with the one of `A`
    let third ← charAt name 2
    aprilOrAugust name (if third = 'R' then 3 else if third = 'Y' then 5 else 0)
  | 'A' => aprilOrAugust name 0
  | 'S' => oneMonth name 'E' 'P' 9
  | 'O' => oneMonth name 'C' 'T' 10
  | 'N' => oneMonth name 'O' 'V' 11
  | 'D' => oneMonth name 'E' 'C' 12
  | _ => .ok 0

inductive Element where
  | separators
  | seconds
  | singleS
  | fourDigitYear
  | twoDigitYear
  | year
  | monthLetters
  | monthOrMinutes
  | month
  | millennium
  | day
  | decade
  | weekday
  | century
  | range
  | hours
  | ignored
deriving DecidableEq, Repr

/-- What the `switch` looks for, in its order; the separators of ranges are read with the blank. -/
def formats : List (String × Element) :=
  [("\x22", .separators), (" ", .separators), (":", .separators), ("/", .separators), (".", .separators),
    (",", .separators), ("\t", .separators), ("\n", .separators), ("SS", .seconds), ("S", .singleS),
    ("YYYY", .fourDigitYear), ("YY", .twoDigitYear), ("YEAR", .year), ("MMM", .monthLetters),
    ("MM", .monthOrMinutes), ("MONTH", .month), ("MILLENNIUM", .millennium), ("DD", .day),
    ("DECADE", .decade), ("DAY", .weekday), ("CENTURY", .century), ("TO ", .range), ("THROUGH ", .range),
    ("THRU ", .range), ("-", .range), ("HH", .hours)]

/-- The element at the front of a pattern, and how far `i` is moved. -/
def element (pattern : List Char) : Element × ℕ :=
  match formats.find? fun format ↦ format.1.toList.isPrefixOf pattern with
  | some format => (format.2, format.1.length)
  | none => (.ignored, 1)

/-- The elements of a pattern; each has at least one character of it. -/
def elementsFrom : ℕ → List Char → List Element
  | 0, _ => []
  | _, [] => []
  | bound + 1, pattern =>
    (element pattern).1 :: elementsFrom bound (pattern.drop (element pattern).2)

def elements (pattern : List Char) : List Element := elementsFrom pattern.length pattern

/-- The variables of `parse_date`. -/
structure Scan where
  cptr : List Char
  now : DateTime
  dateTimeFlag : Bool
  rangeFlag : Bool
  millenniumFlag : Bool
  centuryFlag : Bool
  decadeFlag : Bool
  throughFlag : Bool
  start : DateTime
  scale : ℤ

def Scan.initial (databuf : List Char) : Scan where
  cptr := databuf
  now := .zero
  dateTimeFlag := false
  rangeFlag := false
  millenniumFlag := false
  centuryFlag := false
  decadeFlag := false
  throughFlag := false
  start := .zero
  scale := 0

/-- `year = factor * atoi(tmp) * getEra(&cptr, negyear)` -/
def readYear (factor negyear : ℤ) (s : Scan) (copied : List Char × List Char) : Exec Scan := do
  let value ← atoi copied.1
  let era ← getEra copied.2 negyear
  let year ← checkInt (factor * (value * era.1))
  .ok { s with cptr := era.2, now := { s.now with year := year } }

/-- Values that no date has are set to zero. -/
def clamp (date : DateTime) : DateTime where
  year := date.year
  month := if date.month > 12 then 0 else date.month
  day := if date.day > 31 then 0 else date.day
  hour := if date.hour > 24 then 0 else date.hour
  minute := if date.minute > 59 then 0 else date.minute

/-- One pass of the loop over the pattern. -/
def readElement (iso : Bool) (s : Scan) : Element → Exec Scan
  | .separators => do
    let cptr ← skipWhile (fun c ↦ isPunctuation c || c == ',') s.cptr
    .ok { s with cptr := cptr }
  | .seconds => do
    let digits := (s.cptr.take 2).takeWhile isWild
    let zone ← copyWhile (fun c ↦ c == ' ' || c.isAlpha) Char.toUpper (s.cptr.drop digits.length)
    if digits.length + zone.1.length < 100 then .ok { s with cptr := zone.2 }
    else .error .outOfBounds
  -- `i` is not moved and the loop never ends
  | .singleS => .error .unfinished
  | .fourDigitYear => do
    let copied ← copyChars 4 (doWild s.rangeFlag) s.cptr
    readYear 1 1 s copied
  | .twoDigitYear => do
    let copied ← copyChars 2 (doWild s.rangeFlag) s.cptr
    readYear 1 1 s ('1' :: '9' :: copied.1, copied.2)
  | .year => do
    let first ← charAt s.cptr 0
    let cptr := if first = '-' then s.cptr.tail else s.cptr
    let negyear := if first = '-' then -1 else 1
    let copied ← copyWhile (fun c ↦ isWild c || c == '-') (doWild s.rangeFlag) cptr
    readYear 1 negyear s copied
  | .monthLetters => do
    let copied ← copyChars 3 Char.toUpper s.cptr
    let month ← monthbyname (copied.1 ++ [nul])
    .ok { s with cptr := copied.2, now := { s.now with month := month } }
  | .monthOrMinutes => do
    let copied ← copyChars 2 (doWild s.rangeFlag) s.cptr
    let value ← atoi copied.1
    let now := if s.dateTimeFlag then { s.now with minute := value } else { s.now with month := value }
    .ok { s with cptr := copied.2, now := now, dateTimeFlag := false }
  | .month => do
    let copied ← copyWhile Char.isAlpha Char.toUpper s.cptr
    let month ← monthbyname (copied.1 ++ [nul])
    .ok { s with cptr := copied.2, now := { s.now with month := month } }
  | .millennium => do
    let copied ← copyWhile Char.isDigit id s.cptr
    let cptr ← skipWhile (fun c ↦ isPunctuation c || isLetterOf "STNDRHMILEU" c || c == Char.ofNat 39) copied.2
    readYear 1000 1 { s with millenniumFlag := true } (copied.1, cptr)
  | .day => do
    let copied ← copyChars 2 (doWild s.rangeFlag) s.cptr
    let value ← atoi copied.1
    .ok { s with cptr := copied.2, now := { s.now with day := value } }
  | .decade => do
    let copied ← copyWhile isWild id s.cptr
    let s ← readYear 1 1 { s with decadeFlag := true } copied
    -- decades without a century are in the twentieth
    let year := if s.now.year ≤ 90 then s.now.year + 1900 else s.now.year
    let cptr ← skipWhile (fun c ↦ isPunctuation c || isLetterOf "S" c || c == Char.ofNat 39) s.cptr
    .ok { s with cptr := cptr, now := { s.now with year := year } }
  | .weekday => do
    let copied ← copyWhile Char.isAlpha Char.toUpper s.cptr
    .ok { s with cptr := copied.2 }
  | .century => do
    let copied ← copyWhile Char.isDigit id s.cptr
    let cptr ← skipWhile (fun c ↦ isPunctuation c || isLetterOf "STNDRHCEUY" c || c == Char.ofNat 39) copied.2
    let era ← getEra cptr 1
    let value ← atoi copied.1
    let year ← checkInt (if era.1 < 0 then 100 * (value * era.1) else 100 * value)
    .ok { s with
      cptr := era.2
      now := { s.now with year := if era.1 < 0 then year else year - 100 }
      centuryFlag := true }
  | .range =>
    if iso then .ok { s with cptr := s.cptr.tail }
    else do
      let cptr ← skipWhile (fun c ↦ c ∈ [' ', '\t', '\n', '-'] || isLetterOf "THROGU" c) s.cptr
      let now := clamp s.now
      .ok { s with
        cptr := cptr
        now := now
        throughFlag := true
        rangeFlag := true
        start := now
        scale :=
          if s.decadeFlag then 10 else if s.centuryFlag then 100 else if s.millenniumFlag then 1000
          else s.scale }
  | .hours => do
    let copied ← copyChars 2 (doWild s.rangeFlag) s.cptr
    let value ← atoi copied.1
    .ok { s with cptr := copied.2, now := { s.now with hour := value }, dateTimeFlag := true }
  | .ignored => .ok s

/-- `"%010d %02d %02d %02d %02d"` -/
def dateKey (date : DateTime) : List Char :=
  paddedInt 10 date.year ++ ' ' :: (paddedInt 2 date.month ++ ' ' :: (paddedInt 2 date.day ++
    ' ' :: (paddedInt 2 date.hour ++ ' ' :: paddedInt 2 date.minute)))

/-- `"%010d %02d %02d %02d %02d %010d %02d %02d %02d %02d %05d"` -/
def rangeKey (start stop : DateTime) (scale : ℤ) : List Char :=
  dateKey start ++ ' ' :: (dateKey stop ++ ' ' :: paddedInt 5 scale)

/-- A single year specified for a range: it lasts to its end. -/
def closeRange (start stop : DateTime) : DateTime :=
  if (stop.year = 0 ∨ stop.year = start.year) ∧ start.year ≠ 0 ∧ { stop with year := 0 } = DateTime.zero then
    { year := start.year
      month := if start.month = 0 then 12 else start.month
      day := if start.day = 0 then 31 else start.day
      hour := 23
      minute := 59 }
  else stop

/-- The last year of the decade, century or millennium that a range goes through. -/
def lastYear (s : Scan) (year : ℤ) : Exec ℤ := do
  let year ← checkInt (if s.throughFlag && s.decadeFlag then year + 9 else year)
  let year ← checkInt
    (if s.throughFlag && s.centuryFlag then (if year < 0 then year - 1 else year + 99) else year)
  checkInt
    (if s.throughFlag && s.millenniumFlag then (if year < 0 then year - 1 else year + 999) else year)

/-- The years of a decade, century or millennium that stands alone, and the scale. -/
def implicitRange (s : Scan) (year : ℤ) : Option (ℤ × ℤ × ℤ) :=
  if s.decadeFlag then some (year, year + 9, 10)
  else if s.centuryFlag then some (year, year + 99, 100)
  else if s.millenniumFlag then
    if year > 0 then some (year - 1000, year - 1, 1000) else some (year, year + 999, 1000)
  else none

/-- The part of `parse_date` behind the loop: the key in its block of 60 characters, if there is one. -/
def printKey (s : Scan) : Exec (Option (List Char)) := do
  let now := clamp s.now
  if s.rangeFlag then do
    let year ← lastYear s now.year
    let stop := { now with year := year }
    if stop = .zero ∧ s.start = .zero then .ok none
    else sprintfKey 60 (rangeKey s.start (closeRange s.start stop) s.scale)
  else
    match implicitRange s now.year with
    | some (first, last, scale) => do
      let last ← checkInt last
      if first = 0 ∧ last = 0 then .ok none
      else
        sprintfKey 60 (rangeKey { DateTime.zero with year := first } { DateTime.zero with year := last } scale)
    | none => if now = .zero then .ok none else sprintfKey 60 (dateKey now)

/-- The loop of `parse_mixed`: the first run of three digits or more, of which three or four are taken as
a year, and the pointer behind it unless the text ends there. -/
def scanYear : ℕ → List Char → List Char × Option (List Char)
  | 0, _ => ([], none)
  | bound + 1, cptr =>
    let found := cptr.dropWhile fun c ↦ !c.isDigit
    let digits := found.takeWhile Char.isDigit
    let rest := found.dropWhile Char.isDigit
    let behind := if rest.length ≤ 1 then none else some rest
    if digits.length = 3 ∨ digits.length = 4 then (digits, behind)
    else if 3 ≤ digits.length then ([], behind)
    else
      match behind with
      | none => ([], none)
      | some rest => scanYear bound rest

/-- `atoi(tmp) * getEra(&cptr, 1)`; `getEra` returns 1 where the pointer is null. -/
def mixedYear (scanned : List Char × Option (List Char)) : Exec (ℤ × Option (List Char)) := do
  let value ← atoi scanned.1
  match scanned.2 with
  | none => .ok (value, none)
  | some cptr => do
    let era ← getEra cptr 1
    .ok (value * era.1, some era.2)

def parseMixed (databuf : List Char) (range : Bool) : Exec (Option (List Char)) := do
  let first ← mixedYear (scanYear databuf.length databuf)
  if first.1 = 0 then .ok none
  else if range then do
    let second ← mixedYear (match first.2 with
      | none => ([], none)
      | some cptr => scanYear cptr.length cptr)
    let year := if second.1 = 0 then first.1 else second.1
    sprintfKey 60 (rangeKey { DateTime.zero with year := first.1 } ⟨year, 12, 31, 23, 59⟩ 0)
  else sprintfKey 60 (dateKey { DateTime.zero with year := first.1 })

/-- A pattern is one of these, with or without quotation marks. -/
def isOneOf (pattern : List Char) (names : List String) : Bool :=
  names.any fun name ↦ pattern = name.toList || pattern = '\x22' :: name.toList ++ ['\x22']

/-- The loop over the pattern and what comes behind it; a pattern that begins with a number is matched
from the first digit on. -/
def parsePattern (databuf pattern : List Char) (iso : Bool) : Exec (Option (List Char)) := do
  let numeric := (["YY", "MM", "DD"] : List String).any fun word ↦ word.toList.isPrefixOf pattern
  let cptr ← if numeric then skipWhile (fun c ↦ !c.isDigit) databuf else .ok databuf
  let s ← (elements pattern).foldlM (readElement iso) (.initial cptr)
  printKey s

/-- The choice among the patterns, which are turned into capitals in place. -/
def parseTrimmed (databuf patptr : List Char) : Exec (Option (List Char)) :=
  let pattern := patptr.map Char.toUpper
  if isOneOf pattern ["MIXED YEAR", "MIXED_YEAR"] then parseMixed databuf false
  else if isOneOf pattern ["MIXED YEAR RANGE", "MIXED_YEAR_RANGE"] then parseMixed databuf true
  else if isOneOf pattern ["UNIX_TIME", "UNIX_CTIME", "UNIX TIME", "UNIX CTIME"] then
    parsePattern databuf "DAY MMM DD HH:MM:SS YYYY".toList false
  else
    parsePattern databuf pattern
      (isOneOf pattern ["YYYY-MM-DD", "YY-MM-DD", "YYYY-MM-DDTHH:MM:SS", "YYYY-MM-DD HH:MM:SS"])

def parseDate (databuf : CString) (patptr : Option (List Char)) : Exec (Option (List Char)) := do
  let databuf ← skipWhile (fun c ↦ c ∈ [' ', '\t', '\n']) databuf.stored
  match patptr with
  | none => .ok none
  | some patptr => parseTrimmed databuf patptr

end Cheshire.Dates
