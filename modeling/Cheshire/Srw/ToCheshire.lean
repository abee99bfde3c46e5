import Cheshire.Srw.CqlQuery

/-!
# Converting CQL to the query language of the server

`convertIndex` looks an index up in the configuration.  The attribute lists it finds are objects that
several index names share; they are adjusted to the relation of the clause where they stand.  The
tables of a configuration are therefore a state, from references of lists to their attributes, that is
handed on by every conversion, also by one that raises an error.
-/

namespace Cheshire.Srw

open PyStr

inductive PyValue where
  | str (value : PyStr)
  | int (value : ℤ)
deriving DecidableEq

/-- `%s` of a value. -/
def PyValue.text : PyValue → PyStr
  | str value => value
  | int value => (toString value).toList

/-- An attribute `[set, type, value]`. -/
structure Attribute where
  set : PyValue
  type : PyValue
  value : PyValue
deriving DecidableEq

abbrev ListRef := ℕ

/-- What an index name stands for: an index of the server, or a list of attributes. -/
inductive IndexTarget where
  | name (idx : PyStr)
  | attributes (ref : ListRef)
deriving DecidableEq

/-- The attribute lists of the configuration. -/
abbrev IndexTables := ListRef → List Attribute

/-- The settings of `SRWConfig` that conversions read. -/
structure SrwConfig where
  contextSetNamespaces : List (PyStr × PyStr)
  defaultContextSet : PyStr
  defaultIndex : PyStr
  defaultRelation : PyStr
  useWordIndexes : Bool
  indexHash : PyStr → Option (PyStr → Option IndexTarget)

/-- The context set of an index, by the prefixes of the query. -/
def contextSet (config : SrwConfig) (prefixes : Prefixes) (set : PyStr) : Except PyError PyStr :=
  match prefixes.lookup set with
  | some setUri => .ok (((config.contextSetNamespaces.find? (·.2 = setUri)).map Prod.fst).getD set)
  | none =>
    if set = [] then .ok config.defaultContextSet
    else if (config.contextSetNamespaces.lookup set).isSome then .ok set
    else .error (.diagnostic 15 set)

/-- The first half of `convertIndex`: what the index of a clause stands for; nothing, where it is the
name of a result set. -/
def findIndex (config : SrwConfig) (prefixes : Prefixes) (index : PyStr) :
    Except PyError (Option IndexTarget) := do
  let (set, idx) := (splitDot index).getD ([], index)
  let set ← contextSet config prefixes set
  let (set, idx) :=
    if set = "srw".toList ∧ idx = "serverchoice".toList then
      (config.defaultContextSet, config.defaultIndex)
    else (set, idx)
  if set = "srw".toList ∧ idx = "resultsetname".toList then .ok none
  else .ok (some (((config.indexHash set).bind fun indexes ↦ indexes idx).getD (.name idx)))

/-- The attribute of an exact search. -/
def exactAttribute : Attribute := ⟨.str "bib1".toList, .int 5, .int 100⟩

/-- The relations for which words are searched. -/
def isWordRelation (sc : SearchClause) : Bool :=
  sc.relation.value ∈ ["all".toList, "any".toList, "scr".toList]

/-- `sc.relation.value == '=' and (not sc.term.isdigit() or sc.relation.modifiers)` -/
def isWordEquality (sc : SearchClause) : Bool :=
  sc.relation.value = "=".toList && (!isDigits sc.term || sc.relation.modifiers ≠ [])

/-- An attribute of a search for words. -/
def wordAttribute (attr : Attribute) : Attribute :=
  if attr.type = .str "3".toList then { attr with value := .str "3".toList }
  else if attr.type = .str "4".toList then { attr with value := .str "6".toList }
  else attr

/-- What `convertIndex` does to an attribute list. -/
def adjust (sc : SearchClause) (attributes : List Attribute) : List Attribute :=
  let attributes :=
    if sc.relation.value = "exact".toList ∧ exactAttribute ∉ attributes then
      attributes ++ [exactAttribute]
    else attributes
  if isWordRelation sc || isWordEquality sc then attributes.map wordAttribute else attributes

/-- The attributes as a string: the comma and the blank behind the last one are cut off. -/
def printAttributes (attributes : List Attribute) : PyStr :=
  dropEnd ("[".toList ++ attributes.flatMap fun attr ↦
    attr.set.text ++ " ".toList ++ attr.type.text ++ "=".toList ++ attr.value.text ++ ", ".toList) 2
    ++ "]".toList

/-- The name of an index of the server that fits the relation. -/
def wordIndex (config : SrwConfig) (sc : SearchClause) (idx : PyStr) : PyStr :=
  if config.useWordIndexes ∧ takeEnd idx 4 ≠ "Word".toList then
    let idx := if isWordRelation sc then idx ++ "Word".toList else idx
    let idx := if isWordEquality sc then idx ++ "Word".toList else idx
    if "stem".toList ∈ sc.relation.modifiers then idx ++ "Stem".toList else idx
  else idx

def convertIndex (config : SrwConfig) (prefixes : Prefixes) (sc : SearchClause)
    (tables : IndexTables) : Except PyError PyStr × IndexTables :=
  match findIndex config prefixes sc.index with
  | .error error => (.error error, tables)
  | .ok none => (.ok ":".toList, tables)
  | .ok (some (.name idx)) => (.ok (wordIndex config sc idx), tables)
  | .ok (some (.attributes ref)) =>
    let attributes := adjust sc (tables ref)
    (.ok (printAttributes attributes), Function.update tables ref attributes)

/-- `convertMetachars`; the last character of a string cannot be assigned. -/
def convertMetachars (t : PyStr) : Except PyError PyStr :=
  if count t "?".toList ≠ count t "\\?".toList then .error (.diagnostic 28 "? Unsupported".toList)
  else if count t "^".toList ≠ count t "\\^".toList then
    .error (.diagnostic 31 "^ Unsupported".toList)
  else if count t "*".toList ≠ count t "\\*".toList then
    if t.getLast? ≠ some '*' then .error (.diagnostic 28 "Non trailing * unsupported".toList)
    else
      match t.dropLast.getLast? with
      | none => .error .indexError
      | some c =>
        if c = '\\' then .error (.diagnostic 28 "Non trailing * unsupported".toList)
        else .error .typeError
  else
    .ok (replace (replace (replace t "\\^".toList "^".toList) "\\?".toList "?".toList)
      "\\*".toList "*".toList)

/-- The clause for an index, by its relation.  `spatialTerm` brings the term of a spatial relation
into degrees, minutes and seconds. -/
def searchText (spatialTerm : PyStr → Except PyError PyStr) (config : SrwConfig) (sc : SearchClause)
    (idx : PyStr) : Except PyError PyStr := do
  let relation := if sc.relation.value = serverChoiceRelation then config.defaultRelation
    else sc.relation.value
  if relation = "all".toList then do
    let newtlist ← (split sc.term).mapM convertMetachars
    let relevant := if "relevant".toList ∈ sc.relation.modifiers then
      idx ++ " @ \x7b".toList ++ join newtlist ++ "\x7d AND ".toList else []
    let clause := "(".toList ++ relevant ++
      newtlist.flatMap fun t ↦ idx ++ " \x7b".toList ++ t ++ "\x7d AND ".toList
    .ok (dropEnd clause 5 ++ ")".toList)
  else if relation = "any".toList then do
    let newtlist ← (split sc.term).mapM convertMetachars
    if "relevant".toList ∈ sc.relation.modifiers then
      .ok (idx ++ " @ \x7b".toList ++ join newtlist ++ "\x7d".toList)
    else
      let clause := "(".toList ++
        newtlist.flatMap fun t ↦ idx ++ " \x7b".toList ++ t ++ "\x7d OR ".toList
      .ok (dropEnd clause 4 ++ ")".toList)
  else if relation = "=".toList then
    if isDigits sc.term ∨ config.useWordIndexes = false then
      .ok (idx ++ " = ".toList ++ sc.term)
    else
      let clause := idx ++ " = \x7b$".toList ++ sc.term ++ "$\x7d".toList
      if "relevant".toList ∈ sc.relation.modifiers then
        .ok ("(".toList ++ clause ++ " AND ".toList ++ idx ++ " @ \x7b".toList ++ sc.term ++ "\x7d)".toList)
      else .ok clause
  else if relation = "exact".toList then .ok (idx ++ " ".toList ++ sc.term)
  else if relation ∈ [">".toList, "<".toList, ">=".toList, "<=".toList, "<>".toList] then
    .ok (idx ++ " ".toList ++ relation ++ " \x7b".toList ++ sc.term ++ "\x7d".toList)
  else if relation = "cql.within".toList then do
    let t ← spatialTerm sc.term
    .ok (idx ++ " >#< \x7b".toList ++ t ++ "\x7d".toList)
  else if relation = "cql.encloses".toList then do
    let t ← spatialTerm sc.term
    .ok (idx ++ " <#> \x7b".toList ++ t ++ "\x7d".toList)
  else .error .valueError

/-- What follows the look-up of the index in `SearchClause.toCheshire`. -/
def clauseText (spatialTerm : PyStr → Except PyError PyStr) (config : SrwConfig) (sc : SearchClause)
    (idx : PyStr) : Except PyError PyStr :=
  if idx = ":".toList then .ok (sc.term ++ ":".toList)
  else
    match idx with
    | [] => .error .indexError
    | '[' :: _ => searchText spatialTerm config sc idx
    | _ =>
      let relation := if sc.relation.value = serverChoiceRelation then config.defaultRelation
        else sc.relation.value
      if relation = "exact".toList then
        searchText spatialTerm config sc ("[bib1 1='".toList ++ idx ++ "' 5=100] ".toList)
      else searchText spatialTerm config sc ("[bib1 1='".toList ++ idx ++ "']".toList)

/-- `SearchClause.toCheshire` -/
def clauseToCheshire (spatialTerm : PyStr → Except PyError PyStr) (config : SrwConfig)
    (prefixes : Prefixes) (sc : SearchClause) (tables : IndexTables) :
    Except PyError PyStr × IndexTables :=
  let (idx, tables) := convertIndex config prefixes sc tables
  (idx.bind (clauseText spatialTerm config sc), tables)

/-- `Boolean.toCheshire` -/
def Boolean.toCheshire (boolean : Boolean) : Except PyError PyStr :=
  match boolean.modifiers with
  | [] => .ok (" ".toList ++ boolean.value ++ " ".toList)
  | relation :: distance :: unit :: ordering :: _ =>
    let prox := if relation = ">".toList ∨ relation = ">=".toList then "FAR".toList
      else "NEAR".toList
    let prox := "!".toList ++ (if ordering = "ordered".toList then "O".toList ++ prox else prox)
    let prox := prox ++ "/".toList ++ (if unit = [] then "WORD".toList else unit)
    let prox := prox ++ (if distance ≠ [] then "/".toList ++ distance
      else if unit = [] ∨ unit = "word".toList then "/1".toList else "/0".toList)
    .ok (" ".toList ++ prox ++ " ".toList)
  | _ => .error .indexError

/-- `toCheshire`, with the prefixes of the topmost node. -/
def nodeToCheshire (spatialTerm : PyStr → Except PyError PyStr) (config : SrwConfig)
    (prefixes : Prefixes) : CqlQuery → IndexTables → Except PyError PyStr × IndexTables
  | .searchClause sc, tables => clauseToCheshire spatialTerm config prefixes sc tables
  | .triple _ leftOperand boolean rightOperand, tables =>
    match nodeToCheshire spatialTerm config prefixes leftOperand tables with
    | (.error error, tables) => (.error error, tables)
    | (.ok left, tables) =>
      match boolean.toCheshire with
      | .error error => (.error error, tables)
      | .ok boolean =>
        match nodeToCheshire spatialTerm config prefixes rightOperand tables with
        | (.error error, tables) => (.error error, tables)
        | (.ok right, tables) =>
          (.ok ("(".toList ++ left ++ boolean ++ right ++ ")".toList), tables)

/-- `query.toCheshire()` -/
def toCheshire (spatialTerm : PyStr → Except PyError PyStr) (config : SrwConfig) (query : CqlQuery)
    (tables : IndexTables) : Except PyError PyStr × IndexTables :=
  nodeToCheshire spatialTerm config query.prefixes query tables

end Cheshire.Srw
