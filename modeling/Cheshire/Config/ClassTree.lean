import Cheshire.Lib.CString

/-!
# The outline of class numbers

`lcc_buildclasstree` reads an outline, whose lines are indented by tabs, into nodes with pointers to the
parent, the first child and the next sibling.  A call to `fgets` reads at most 510 characters, and a node has
room for three class letters.  `lcc_getdesc` walks from the root: down from a node whose range has the class
number, along the siblings otherwise.
-/

namespace Cheshire.Config

/-- A number as it is written: digits, and more of them behind a point. -/
structure Decimal where
  whole : List Char
  fraction : List Char
deriving DecidableEq

def Decimal.value (number : Decimal) : ℚ :=
  Nat.ofDigitChars 10 (number.whole ++ number.fraction) 0 / 10 ^ number.fraction.length

/-- The range of a line: class letters, or numbers, and a second group of them or none. -/
inductive LineRange where
  | letters (low : List Char) (high : Option (List Char))
  | numbers (low : Decimal) (high : Option Decimal)
deriving DecidableEq

/-- A line of the outline: its tabs, its range and what follows the colon. -/
structure OutlineLine where
  level : ℕ
  range : LineRange
  desc : List Char
deriving DecidableEq

inductive NodeType where
  | csingle
  | crange
  | fsingle
  | frange
deriving DecidableEq

/-- `LCCLASSNODE`; a pointer is the position of a node. -/
structure LccClassNode where
  desc : List Char
  level : ℤ
  type : NodeType
  cvalmin : List Char
  cvalmax : List Char
  fvalmin : ℚ
  fvalmax : ℚ
  parent : Option ℕ
  child : Option ℕ
  sibling : Option ℕ
deriving DecidableEq

/-- What ends the building before the end of the outline. -/
inductive BuildStop where
  | exit (status : ℕ)
  | fault (fault : Fault)
deriving DecidableEq

/-- What `fgets(line,511,fd)` gives until it returns `NULL`; `line` is what the present call has read. -/
def fgetsLines (line : List Char) : List Char → List (List Char)
  | [] => if line = [] then [] else [line]
  | c :: file =>
    if c = '\n' ∨ line.length + 1 = 510 then (line ++ [c]) :: fgetsLines [] file
    else fgetsLines (line ++ [c]) file

/-- `%f` of `sscanf`, of a number without a sign or an exponent -/
def scanDecimal (text : List Char) : Option (Decimal × List Char) :=
  let whole := text.takeWhile Char.isDigit
  match text.dropWhile Char.isDigit with
  | '.' :: rest =>
    if whole ++ rest.takeWhile Char.isDigit = [] then none
    else some (⟨whole, rest.takeWhile Char.isDigit⟩, rest.dropWhile Char.isDigit)
  | rest => if whole = [] then none else some (⟨whole, []⟩, rest)

/-- `sscanf(c,"%f%c%f",&newnode->fvalmin,&junk,&newnode->fvalmax)` -/
def scanNumbers (text : List Char) : Except BuildStop LineRange :=
  match scanDecimal text with
  | none => .error (.exit 6)
  | some (low, []) => .ok (.numbers low none)
  | some (low, _ :: rest) =>
    match scanDecimal (rest.dropWhile isSpace) with
    | none => .error (.exit 6)
    | some (high, _) => .ok (.numbers low (some high))

/-- The size of `cvalmin` and `cvalmax` -/
def CVAL_SIZE : ℕ := 4

/-- Class letters, which are written with a NUL, and what stands behind them. -/
def scanLetters (text : List Char) : Except BuildStop (List Char × List Char) :=
  if (text.takeWhile Char.isUpper).length < CVAL_SIZE then
    .ok (text.takeWhile Char.isUpper, text.dropWhile Char.isUpper)
  else .error (.fault .outOfBounds)

/-- `sscanf` of class letters, a character and class letters -/
def scanClasses (text : List Char) : Except BuildStop LineRange := do
  let low ← scanLetters text
  if low.1 = [] then .error (.exit 6)
  else
    match low.2 with
    | [] => .ok (.letters low.1 none)
    | _ :: rest => do
      let high ← scanLetters rest
      if high.1 = [] then .error (.exit 6) else .ok (.letters low.1 (some high.1))

/-- The range in front of the colon; numbers begin with a digit. -/
def scanRange (c : List Char) : Except BuildStop LineRange :=
  if c.head?.any Char.isDigit then scanNumbers (c.takeWhile (· ≠ ':'))
  else scanClasses (c.takeWhile (· ≠ ':'))

/-- A line that was read, without its line end: the tabs, the text behind the colon and the blank, and the
range. -/
def scanText (text : List Char) : Except BuildStop OutlineLine :=
  let c := text.dropWhile (· = '\t')
  match c.dropWhile (· ≠ ':') with
  | [] => .error (.exit 5)
  | _ :: behind => do
    let range ← scanRange c
    .ok ⟨(text.takeWhile (· = '\t')).length, range, behind.drop 1⟩

/-- With nothing behind the colon, `textptr` is behind the end of the string, at the second NUL of a line that
had a line end. -/
def scanLine (lineptr : List Char) : Except BuildStop OutlineLine :=
  if lineptr.getLast? = some '\n' then scanText lineptr.dropLast
  else if lineptr.dropWhile (· ≠ ':') = [':'] then .error (.fault .uninitialized)
  else scanText lineptr

def charOfLevel (level : ℕ) : ℤ := if level % 256 < 128 then (level % 256 : ℕ) else (level % 256 : ℕ) - 256

/-- A new node; the letters of a line of numbers are those of the last line of letters. -/
def newNode (lastcmin lastcmax : List Char) (line : OutlineLine) : LccClassNode :=
  let node (type : NodeType) (cvalmin cvalmax : List Char) (fvalmin fvalmax : ℚ) : LccClassNode :=
    ⟨line.desc, charOfLevel line.level, type, cvalmin, cvalmax, fvalmin, fvalmax, none, none, none⟩
  match line.range with
  | .numbers low none => node .fsingle lastcmin lastcmax low.value low.value
  | .numbers low (some high) => node .frange lastcmin lastcmax low.value high.value
  | .letters low none => node .csingle low low 0 (9999999 / 10)
  | .letters low (some high) => node .crange low high 0 (9999999 / 10)

/-- The new nodes of the lines, in the order in which they are read. -/
def newNodes (lastcmin lastcmax : List Char) : List OutlineLine → List LccClassNode
  | [] => []
  | line :: lines =>
    let node := newNode lastcmin lastcmax line
    match line.range with
    | .numbers _ _ => node :: newNodes lastcmin lastcmax lines
    | .letters _ _ => node :: newNodes node.cvalmin node.cvalmax lines

/-- The nodes, with `lccroot` and `lastnode`. -/
structure ClassTree where
  nodes : List LccClassNode
  lccroot : Option ℕ
  lastnode : Option ℕ

def ClassTree.empty : ClassTree := ⟨[], none, none⟩

def nodeAt (nodes : List LccClassNode) (pointer : Option ℕ) : Except BuildStop (ℕ × LccClassNode) :=
  match pointer with
  | none => .error (.fault .nullDereference)
  | some place =>
    match nodes[place]? with
    | none => .error (.fault .outOfBounds)
    | some node => .ok (place, node)

/-- `while (lastnode->level > newnode->level) lastnode = lastnode->parent` -/
def climb (nodes : List LccClassNode) (level : ℤ) :
    ℕ → Option ℕ → Except BuildStop (ℕ × LccClassNode)
  | 0, _ => .error (.fault .unfinished)
  | fuel + 1, lastnode => do
    let (place, node) ← nodeAt nodes lastnode
    if node.level > level then climb nodes level fuel node.parent else .ok (place, node)

/-- The new node becomes the next sibling of a node, or the building ends with this status. -/
def insertBeside (tree : ClassTree) (place : ℕ) (node newnode : LccClassNode) (status : ℕ) :
    Except BuildStop ClassTree :=
  if node.sibling = none then
    .ok { tree with
      nodes := tree.nodes.set place { node with sibling := some tree.nodes.length } ++
        [{ newnode with parent := node.parent }]
      lastnode := some tree.nodes.length }
  else .error (.exit status)

def insertNode (tree : ClassTree) (newnode : LccClassNode) : Except BuildStop ClassTree :=
  match tree.lccroot with
  | none => .ok ⟨tree.nodes ++ [newnode], some tree.nodes.length, some tree.nodes.length⟩
  | some _ => do
    let (place, last) ← nodeAt tree.nodes tree.lastnode
    if last.level = newnode.level then insertBeside tree place last newnode 7
    else if last.level < newnode.level then
      if last.child = none then
        .ok { tree with
          nodes := tree.nodes.set place { last with child := some tree.nodes.length } ++
            [{ newnode with parent := some place }]
          lastnode := some tree.nodes.length }
      else .error (.exit 8)
    else do
      let (place, node) ← climb tree.nodes newnode.level (tree.nodes.length + 1) tree.lastnode
      insertBeside tree place node newnode 9

/-- `lastcmin` and `lastcmax`, and the tree. -/
structure Building where
  lastcmin : List Char
  lastcmax : List Char
  tree : ClassTree

def addLine (building : Building) (lineptr : List Char) : Except BuildStop Building := do
  let line ← scanLine lineptr
  let newnode := newNode building.lastcmin building.lastcmax line
  let tree ← insertNode building.tree newnode
  match line.range with
  | .numbers _ _ => .ok { building with tree := tree }
  | .letters _ _ => .ok ⟨newnode.cvalmin, newnode.cvalmax, tree⟩

/-- `lcc_buildclasstree`, of a file that was opened -/
def lccBuildclasstree (file : List Char) : Except BuildStop ClassTree := do
  let building ← (fgetsLines [] file).foldlM addLine ⟨[], [], .empty⟩
  .ok building.tree

def lccInrange (node : LccClassNode) (alpha : List Char) (num : ℚ) : Bool :=
  if node.cvalmin ≤ alpha ∧ alpha ≤ node.cvalmax then
    if node.type = .csingle ∨ node.type = .crange then true
    else node.fvalmin ≤ num ∧ num ≤ node.fvalmax
  else false

def lccGetdesc (nodes : List LccClassNode) (alpha : List Char) (num : ℚ) :
    ℕ → List Char → Option ℕ → Exec (List Char)
  | 0, _, _ => .error .unfinished
  | _ + 1, buffer, none => .ok buffer
  | fuel + 1, buffer, some place =>
    match nodes[place]? with
    | none => .error .outOfBounds
    | some node =>
      if lccInrange node alpha num then
        lccGetdesc nodes alpha num fuel (buffer ++ '\\' :: node.desc) node.child
      else lccGetdesc nodes alpha num fuel buffer node.sibling

end Cheshire.Config
