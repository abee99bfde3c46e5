import Cheshire.Lib.Xml
import Cheshire.Srw.CqlQuery

/-!
# XCQL

Queries are written as XML by `toXCQL`, every element on lines of its own, and read back by
`xmlparse` from the nodes that the XML library makes of the text.  The objects of the reader start
empty; an element that is not in the text leaves them so.
-/

namespace Cheshire.Srw

open Lib.Xml

def space (depth : ℕ) : PyStr := (List.replicate depth "  ".toList).flatten

def prefixesToXCQL (space : PyStr) (prefixes : Prefixes) : PyStr :=
  if prefixes.entries = [] then []
  else
    space ++ "  <prefixes>\n".toList ++
      (prefixes.entries.flatMap fun p ↦
        space ++ "    <prefix>\n".toList ++
        space ++ "      <name>".toList ++ escape p.1 ++ "</name>\n".toList ++
        space ++ "      <identifier>".toList ++ escape p.2 ++ "</identifier>\n".toList ++
        space ++ "    </prefix>\n".toList) ++
      space ++ "  </prefixes>\n".toList

def Relation.toXCQL (relation : Relation) (depth : ℕ) : PyStr :=
  let space := space depth
  space ++ "<relation>\n".toList ++
    space ++ "  <value>".toList ++ escape relation.value ++ "</value>\n".toList ++
    (if relation.modifiers = [] then []
      else
        space ++ "  <modifiers>\n".toList ++
          (relation.modifiers.flatMap fun m ↦
            space ++ "    <modifier><value>".toList ++ escape m ++ "</value></modifier>\n".toList) ++
          space ++ "  </modifiers>\n".toList) ++
    space ++ "</relation>\n".toList

def booleanModifierTypes : List PyStr :=
  [[], "relation".toList, "distance".toList, "unit".toList, "ordering".toList]

/-- `<type>%s</type><value>%s</value>`; the types are a list of five. -/
def modifierToXCQL (space : PyStr) (modifier : PyStr × ℕ) : Except PyError PyStr :=
  match booleanModifierTypes[modifier.2]? with
  | none => .error .indexError
  | some type => .ok (space ++ "    <modifier><type>".toList ++ type ++ "</type><value>".toList ++
      escape modifier.1 ++ "</value></modifier>\n".toList)

/-- Modifiers that are empty are left out. -/
def Boolean.toXCQL (boolean : Boolean) (depth : ℕ) : Except PyError PyStr := do
  let space := space depth
  let lines ← ((boolean.modifiers.zipIdx 1).filter (·.1 ≠ [])).mapM (modifierToXCQL space)
  .ok (space ++ "<boolean>\n".toList ++
    space ++ "  <value>".toList ++ escape boolean.value ++ "</value>\n".toList ++
    (if lines = [] then []
      else space ++ "  <modifiers>\n".toList ++ lines.flatten ++ space ++ "  </modifiers>\n".toList) ++
    space ++ "</boolean>\n".toList)

def SearchClause.toXCQL (sc : SearchClause) (depth : ℕ) : PyStr :=
  let space := space depth
  space ++ "<searchClause>\n".toList ++ prefixesToXCQL space sc.prefixes ++
    space ++ "  <index>".toList ++ escape sc.index ++ "</index>\n".toList ++
    sc.relation.toXCQL (depth + 1) ++
    space ++ "  <term>".toList ++ escape sc.term ++ "</term>\n".toList ++
    space ++ "</searchClause>\n".toList

def CqlQuery.toXCQL : CqlQuery → ℕ → Except PyError PyStr
  | .searchClause sc, depth => .ok (sc.toXCQL depth)
  | .triple prefixes leftOperand boolean rightOperand, depth => do
    let space := space depth
    let boolean ← boolean.toXCQL (depth + 1)
    let left ← leftOperand.toXCQL (depth + 2)
    let right ← rightOperand.toXCQL (depth + 2)
    .ok (space ++ "<triple>\n".toList ++ prefixesToXCQL space prefixes ++ boolean ++
      space ++ "  <leftOperand>\n".toList ++ left ++ space ++ "  </leftOperand>\n".toList ++
      space ++ "  <rightOperand>\n".toList ++ right ++ space ++ "  </rightOperand>\n".toList ++
      space ++ "</triple>\n".toList)

/-- A search clause or a triple as the reader makes it; parts that were not there are `None`. -/
inductive QueryObject where
  | searchClause (prefixes : Prefixes) (index : PyStr) (relation : Option Relation) (term : PyStr)
  | triple (prefixes : Prefixes) (leftOperand : Option QueryObject) (boolean : Option Boolean)
      (rightOperand : Option QueryObject)

namespace XcqlParser

/-- `self.firstChildData(elem).data` -/
def firstChildData : List Node → Except PyError PyStr
  | [] => .error .attributeError
  | .text data :: _ => .ok data
  | .element _ _ :: rest => firstChildData rest

/-- `elem.firstChild.data` -/
def firstChild : List Node → Except PyError PyStr
  | .text data :: _ => .ok data
  | _ => .error .attributeError

variable (lowerCase : LowerCase)

def forElements {σ : Type} (body : σ → String → List Node → Except PyError σ) :
    σ → List Node → Except PyError σ
  | s, [] => .ok s
  | s, .text _ :: rest => forElements body s rest
  | s, .element localName childNodes :: rest => do
    let s ← body s localName childNodes
    forElements body s rest

/-- The modifiers of a relation: the text is looked for in `<modifier>`, not in its `<value>`. -/
def relationModifiers : List Node → Except PyError (List PyStr) :=
  forElements (fun mods localName c2 ↦
    if localName = "modifier" then
      forElements (fun mods localName _ ↦
        if localName = "value" then do
          let data ← firstChildData c2
          .ok (mods ++ [lowerCase.lower data])
        else .ok mods) mods c2
    else .ok mods) []

def relation : List Node → Except PyError Relation :=
  forElements (fun rel localName c ↦
    if localName = "value" then do
      let data ← firstChild c
      .ok { rel with value := lowerCase.lower data }
    else if localName = "modifiers" then do
      let mods ← relationModifiers lowerCase c
      .ok { rel with modifiers := mods }
    else .ok rel) ⟨[], []⟩

/-- Type and value of a modifier of a boolean. -/
def modifier : List Node → Except PyError (PyStr × PyStr) :=
  forElements (fun modifier localName c3 ↦
    if localName = "value" then do
      let data ← firstChildData c3
      .ok (modifier.1, lowerCase.lower data)
    else if localName = "type" then do
      let data ← firstChildData c3
      .ok (data, modifier.2)
    else .ok modifier) ([], [])

/-- The modifiers of a boolean by their types. -/
def modifiersByType : List Node → Except PyError (AList fun _ : PyStr ↦ PyStr) :=
  forElements (fun mods localName c2 ↦
    if localName = "modifier" then do
      let (type, value) ← modifier lowerCase c2
      .ok (mods.insert type value)
    else .ok mods) ∅

/-- The modifiers of a boolean, in the order of their types. -/
def booleanModifiers (c : List Node) : Except PyError (List PyStr) := do
  let mods ← modifiersByType lowerCase c
  .ok ((booleanModifierTypes.drop 1).map fun t ↦ (mods.lookup t).getD [])

def boolean : List Node → Except PyError Boolean :=
  forElements (fun bool localName c ↦
    if localName = "value" then do
      let data ← firstChildData c
      .ok { bool with value := lowerCase.lower data }
    else do
      let modlist ← booleanModifiers lowerCase c
      .ok { bool with modifiers := modlist }) ⟨[], []⟩

/-- Name and identifier of a prefix. -/
def prefixEntry : List Node → Except PyError (PyStr × PyStr) :=
  forElements (fun entry localName c2 ↦
    if localName = "name" then do
      let data ← firstChildData c2
      .ok (lowerCase.lower data, entry.2)
    else if localName = "identifier" then do
      let data ← firstChildData c2
      .ok (entry.1, data)
    else .ok entry) ([], [])

def prefixes : List Node → Except PyError Prefixes :=
  forElements (fun prefs _ c ↦ do
    let (name, identifier) ← prefixEntry lowerCase c
    .ok (prefs.insert name identifier)) ∅

structure ClauseFields where
  prefixes : Prefixes
  index : PyStr
  relation : Option Relation
  term : PyStr

def clauseField (sc : ClauseFields) (localName : String) (c : List Node) :
    Except PyError ClauseFields :=
  if localName = "index" then do
    let data ← firstChildData c
    .ok { sc with index := lowerCase.lower data }
  else if localName = "term" then do
    let data ← firstChildData c
    .ok { sc with term := data }
  else if localName = "relation" then do
    let rel ← relation lowerCase c
    .ok { sc with relation := some rel }
  else if localName = "prefixes" then do
    let prefs ← prefixes lowerCase c
    .ok { sc with prefixes := prefs }
  else .error .valueError

def searchClause (elem : List Node) : Except PyError QueryObject := do
  let sc ← forElements (clauseField lowerCase) ⟨∅, [], none, []⟩ elem
  .ok (.searchClause sc.prefixes sc.index sc.relation sc.term)

structure TripleFields where
  prefixes : Prefixes
  leftOperand : Option QueryObject
  boolean : Option Boolean
  rightOperand : Option QueryObject

mutual

/-- The operand in `self.firstChildElement(c)`; `None` has no `localName`. -/
def operand : List Node → Except PyError QueryObject
  | [] => .error .attributeError
  | .text _ :: rest => operand rest
  | .element localName childNodes :: _ =>
    if localName = "searchClause" then searchClause lowerCase childNodes
    else do
      let trip ← tripleFields ⟨∅, none, none, none⟩ childNodes
      .ok (.triple trip.prefixes trip.leftOperand trip.boolean trip.rightOperand)

def tripleFields : TripleFields → List Node → Except PyError TripleFields
  | trip, [] => .ok trip
  | trip, .text _ :: rest => tripleFields trip rest
  | trip, .element localName c :: rest =>
    if localName = "boolean" then do
      let bool ← boolean lowerCase c
      tripleFields { trip with boolean := some bool } rest
    else if localName = "prefixes" then do
      let prefs ← prefixes lowerCase c
      tripleFields { trip with prefixes := prefs } rest
    else if localName = "leftOperand" then do
      let left ← operand c
      tripleFields { trip with leftOperand := some left } rest
    else do
      let right ← operand c
      tripleFields { trip with rightOperand := some right } rest

end

end XcqlParser

/-- `xcqlparse`: the root is read as an operand is. -/
def xcqlparse (lowerCase : LowerCase) (query : Node) : Except PyError QueryObject :=
  XcqlParser.operand lowerCase [query]

/-- `xmlparse`, with the XML library as `parseString`. -/
def xmlparse (parseString : PyStr → Option Node) (lowerCase : LowerCase) (s : PyStr) :
    Except PyError QueryObject :=
  match parseString s with
  | none => .error .xmlError
  | some doc => xcqlparse lowerCase doc

end Cheshire.Srw
