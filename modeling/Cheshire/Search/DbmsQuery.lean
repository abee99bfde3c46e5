import Cheshire.Lib.Sql
import Cheshire.Search.WordSearch

/-!
# Translating RPN queries to SQL

`se_dbms_query` goes through an RPN query and writes a condition for each of its terms, with the
operators between them.  The table of an index is put into the list of the tables when the index is met
for the first time, and named by the next letter.

Texts are octets, written as the characters of their codes; the indexes of the configuration are
parameters.
-/

namespace Cheshire.Search

open Lib Index Function

/-- What is read of an index of a DBMS: its table and its column. -/
structure DbmsIndex where
  name : List Char
  tag : List Char
  idxType : ℕ
deriving DecidableEq, Repr

/-- One item of a complex attribute value. -/
inductive ComplexItem where
  | numeric
  | string (data : Option (List Char))

inductive AttributeValue where
  | numeric (value : ℤ)
  | complex (list : List ComplexItem)

structure AttributeElement where
  attributeSet : Option (List Char)
  attributeType : ℤ
  attributeValue : AttributeValue

/-- `Term`; general strings, object identifiers and character strings have one representation. -/
inductive DbmsTerm where
  | general (data : List Char)
  | numeric (value : ℤ)
  | dateTime
  | external
  | integerAndUnit
  | nullVal

structure AttributesPlusTerm where
  attributes : List AttributeElement
  term : DbmsTerm

inductive DbmsOperand where
  | attrTerm (attrTerm : AttributesPlusTerm)
  | resultSet
  | resultAttr

def MAXATTRTYPE : ℤ := 13
def USE_ATTR : ℤ := 1
def RELATION_ATTR : ℤ := 2
def TRUNC_ATTR : ℤ := 5

/-- `attr_nums`, `attr_str`, `attr_oid` and `local_index_name`, which has no value at first. -/
structure DbmsAttributes where
  nums : ℤ → ℤ
  str : ℤ → Option (List Char)
  oid : ℤ → Option (List Char)
  localIndexName : Option (List Char)

def DbmsAttributes.none : DbmsAttributes :=
  ⟨fun _ ↦ 0, fun _ ↦ Option.none, fun _ ↦ Option.none, Option.none⟩

/-- The list of a complex value; NULL stands for a diagnostic. -/
def readItems (attributeType : ℤ) (attributeSet : Option (List Char)) :
    List ComplexItem → DbmsAttributes → Option DbmsAttributes
  | [], attributes => some attributes
  | .numeric :: _, _ => none
  | .string none :: _, _ => none
  | .string (some data) :: items, attributes =>
    readItems attributeType attributeSet items
      { attributes with
        str := update attributes.str attributeType (some data)
        oid := update attributes.oid attributeType attributeSet
        localIndexName := some data }

def readAttributes : List AttributeElement → DbmsAttributes → Exec (Option DbmsAttributes)
  | [], attributes => .ok (some attributes)
  | elem :: elems, attributes =>
    if elem.attributeType < MAXATTRTYPE then
      if elem.attributeType < 0 then .error .outOfBounds
      else
        match elem.attributeValue with
        | .numeric value =>
          readAttributes elems
            { attributes with
              nums := update attributes.nums elem.attributeType value
              oid := update attributes.oid elem.attributeType elem.attributeSet }
        | .complex list =>
          match readItems elem.attributeType elem.attributeSet list
            { attributes with nums := update attributes.nums elem.attributeType (-1) } with
          | none => .ok none
          | some attributes => readAttributes elems attributes
    else .ok none

/-- The indexes of a file: by name, by attributes, and `all_indexes` with the USE attribute of each. -/
structure DbmsIndexes where
  cfGetidxEntry : List Char → Option DbmsIndex
  cfGetidxMapattr : DbmsAttributes → Option DbmsIndex
  allIndexes : List (List Char × ℤ)

/-- The tries for an index by attributes, each with fewer of them. -/
def getidxMapattr (indexes : DbmsIndexes) (attributes : DbmsAttributes) : Option DbmsIndex :=
  let noRelation :=
    { attributes with nums := update attributes.nums RELATION_ATTR 0 }
  let noTrunc := { attributes with nums := update noRelation.nums TRUNC_ATTR 0 }
  let onlyUse := { attributes with nums := fun i ↦ if 2 ≤ i then 0 else attributes.nums i }
  (indexes.cfGetidxMapattr noRelation).or
    ((indexes.cfGetidxMapattr noTrunc).or (indexes.cfGetidxMapattr onlyUse))

/-- The first index of the list with the USE attribute `use` that the file has; `use` is 0. -/
def findByUse (indexes : DbmsIndexes) : Option DbmsIndex :=
  (indexes.allIndexes.filter fun index ↦ index.2 = 0).findSome? fun index ↦
    indexes.cfGetidxEntry (index.1.map Char.toLower)

def findIndex (indexes : DbmsIndexes) (attributes : DbmsAttributes) : Exec (Option DbmsIndex) := do
  let idx ← if attributes.nums USE_ATTR = -1 then
      match attributes.localIndexName with
      | none => .error .uninitialized
      | some name => .ok (indexes.cfGetidxEntry name)
    else .ok (indexes.cfGetidxMapattr attributes)
  .ok (idx.or ((getidxMapattr indexes attributes).or (findByUse indexes)))

def NUL : Char := Char.ofNat 0

/-- What `%s` prints of an array. -/
def cText (data : List Char) : List Char := data.takeWhile (· ≠ NUL)

/-- The block of the table list. -/
def TABLE_BUFFER : ℕ := 1000

/-- `strcat(*SQL_Query, text)` -/
def strcatQuery (query text : List Char) : Exec (List Char) :=
  if (query ++ text).length < TABLE_BUFFER then .ok (query ++ text) else .error .outOfBounds

/-- `sprintf` into a block of `size` characters. -/
def sprintfInto (size : ℕ) (text : List Char) : Exec (List Char) :=
  if text.length < size then .ok text else .error .outOfBounds

/-- The text of `*SQL_Query`, and the hash table with the letters of the tables. -/
structure SqlTables where
  query : List Char
  letters : List (List Char × Char)

def SELECT_FROM : List Char :=
  ['S', 'E', 'L', 'E', 'C', 'T', ' ', '*', ' ', 'F', 'R', 'O', 'M', ' ']

def SqlTables.zero : SqlTables := ⟨SELECT_FROM, []⟩

/-- `lastchar++` for a `char`. -/
def nextLetter (lastchar : Char) : Char := Char.ofNat ((lastchar.toNat + 1) % 256)

/-- The letter of a table, which is put into the list if it is new. -/
def tableLetter (s : SqlTables) (name : List Char) : Exec (SqlTables × Char) :=
  match s.letters.lookup name with
  | some lastchar => .ok (s, lastchar)
  | none =>
    match s.query.getLast? with
    | none => .error .outOfBounds
    | some lastchar =>
      if lastchar = ' ' then do
        let query ← strcatQuery s.query name
        let query ← strcatQuery query [' ', 'A']
        .ok (⟨query, s.letters ++ [(name, 'A')]⟩, 'A')
      else do
        let query ← strcatQuery s.query [',', ' ']
        let query ← strcatQuery query name
        let query ← strcatQuery query (cText [' ', nextLetter lastchar])
        .ok (⟨query, s.letters ++ [(name, nextLetter lastchar)]⟩, nextLetter lastchar)

def NEQ : ℤ := 6

def relatVal (relation : ℤ) : List Char :=
  if relation = 1 then ['<']
  else if relation = 2 then ['<', '=']
  else if relation = 4 then ['>', '=']
  else if relation = 5 then ['>']
  else if relation = NEQ then ['<', '>']
  else ['=']

/-- Whether the index is searched with LIKE. -/
def isLike (idxType : ℕ) (relation : ℤ) : Bool :=
  hasFlag idxType KEYWORD && (relation = 0 ∨ relation = 3 ∨ relation > NEQ)

def isNumberColumn (idxType : ℕ) : Bool :=
  ! hasFlag idxType KEYWORD && (hasFlag idxType INTEGER_KEY || hasFlag idxType DECIMAL_KEY ||
    hasFlag idxType FLOAT_KEY)

def LIKE_PERCENT : List Char := [' ', 'l', 'i', 'k', 'e', ' ', Sql.quote, '%']

/-- The condition of a term. -/
def termText (lastchar : Char) (idx : DbmsIndex) (relation : ℤ) (data : List Char) : List Char :=
  if isLike idx.idxType relation then
    [lastchar, '.'] ++ idx.tag ++ LIKE_PERCENT ++ cText data ++ ['%', Sql.quote]
  else if isNumberColumn idx.idxType then
    [lastchar, '.'] ++ idx.tag ++ [' '] ++ relatVal relation ++ [' '] ++ cText data
  else
    [lastchar, '.'] ++ idx.tag ++ [' '] ++ relatVal relation ++ [' ', Sql.quote] ++ cText data ++
      [Sql.quote]

/-- `se_dbms_terms`; a numeric term is followed as a pointer to its string. -/
def seDbmsTerms (indexes : DbmsIndexes) (attrPlusTerm : AttributesPlusTerm) (s : SqlTables) :
    Exec (Option (List Char × SqlTables)) := do
  let attributes ← readAttributes attrPlusTerm.attributes DbmsAttributes.none
  match attributes with
  | none => .ok none
  | some attributes => do
    let idx ← findIndex indexes attributes
    match idx with
    | none => .ok none
    | some idx => do
      let found ← tableLetter s idx.name
      match attrPlusTerm.term with
      | .general data => do
        let resultTerm ← sprintfInto (data.length + 20 + idx.tag.length)
          (termText found.2 idx (attributes.nums RELATION_ATTR) data)
        -- a letter that is NUL ends the text
        .ok (some (if found.2 = NUL then [] else resultTerm, found.1))
      | .numeric _ => .error .nullDereference
      | _ => .ok none

def operatorText : RpnOperator → Option (List Char)
  | .and => some [' ', 'A', 'N', 'D', ' ']
  | .or => some [' ', 'O', 'R', ' ']
  | .andNot => some [' ', 'N', 'O', 'T', ' ']
  | .prox _ => none

def WHERE : List Char := [' ', 'W', 'H', 'E', 'R', 'E', ' ']

/-- The whole query, if the condition is that of the whole structure. -/
def wholeQuery (topflag : Bool) (result : List Char) (s : SqlTables) :
    Exec (Option (List Char × SqlTables)) :=
  if topflag then do
    let finalQuery ← sprintfInto (s.query.length + result.length + 20)
      (s.query ++ WHERE ++ result ++ [' '])
    .ok (some (finalQuery, { s with query := finalQuery }))
  else .ok (some (result, s))

/-- `se_dbms_rpn_structure`; at the top there is no `*SQL_Query` yet. -/
def seDbmsRpnStructure (indexes : DbmsIndexes) :
    RpnStructure DbmsOperand → Option SqlTables → Exec (Option (List Char × SqlTables))
  | .leaf oper, sqlQuery =>
    match oper with
    | .resultSet => .ok none
    | .resultAttr => .error .outOfBounds
    | .attrTerm attrTerm => do
      let termResult ← seDbmsTerms indexes attrTerm (sqlQuery.getD SqlTables.zero)
      match termResult with
      | none => .ok none
      | some termResult => wholeQuery sqlQuery.isNone termResult.1 termResult.2
  | .node operator rpn1 rpn2, sqlQuery => do
    let leftRes ← seDbmsRpnStructure indexes rpn1 (some (sqlQuery.getD SqlTables.zero))
    match leftRes with
    | none => .ok none
    | some leftRes => do
      let rightRes ← seDbmsRpnStructure indexes rpn2 (some leftRes.2)
      match rightRes with
      | none => .ok none
      | some rightRes =>
        match operatorText operator with
        | none => .ok none
        | some text => do
          let boolRes ← sprintfInto (leftRes.1.length + rightRes.1.length + 6)
            (leftRes.1 ++ text ++ rightRes.1)
          wholeQuery sqlQuery.isNone boolRes rightRes.2

def seDbmsQuery (indexes : DbmsIndexes) (rpnQuery : Option (RpnStructure DbmsOperand)) :
    Exec (Option (List Char)) :=
  match rpnQuery with
  | none => .ok none
  | some rpn => do
    let resultQuery ← seDbmsRpnStructure indexes rpn none
    .ok (resultQuery.map Prod.fst)

end Cheshire.Search
