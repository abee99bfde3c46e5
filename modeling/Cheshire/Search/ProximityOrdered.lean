import Cheshire.Search.RpnStructure

/-!
# Testing the positions of terms

`ProxTest` collects the terms of two result sets and looks for positions of these terms in a record that
are near enough to each other.  `se_prox_ordered` and `se_prox_unordered` try the positions of the first
term one after another; in the list of each further term they stop at one position.
-/

namespace Cheshire.Search

/-- A proximity operator as `ProxTest` reads it. -/
structure ProxTestOperator extends ProximityOperator where
  ordered : Bool
  exclusion : Bool

/-- `prox_db`: the positions of a term in a record. -/
abbrev ProxDb := ℤ → ℤ → Option (List ℤ)

/-- The terms of a result set, each with the proximity file of its index if it has an index. -/
structure SetTerms where
  termid : List ℤ
  indexPtr : List (Option ProxDb)

/-- `proxtermidlist[place]`; the terms are followed by a 0, and nothing is stored behind it. -/
def termAt (terms : List ℤ) (place : ℕ) : Exec ℤ :=
  match (terms ++ [0])[place]? with
  | some term => .ok term
  | none => .error .uninitialized

/-- `proxtermidlist[j] == proxtermidlist[j-1]`, where `j` is a place among the positions. -/
def sameTermAt (terms : List ℤ) : ℕ → Exec Bool
  | 0 => .error .outOfBounds
  | j + 1 => do
    let term ← termAt terms (j + 1)
    let previous ← termAt terms j
    .ok (term = previous)

/-- The position lies too far before `minpos`. -/
def passesOver (ordered : Bool) (proxLength minpos position : ℤ) : Exec Bool :=
  if position < minpos then
    if ordered then .ok true
    else do
      let gap ← checkInt (minpos - position)
      .ok (gap > proxLength)
  else .ok false

/-- `for (j = 0; j < listsize[list]; j++)` with the flag `fail`; the other result is the position that
was taken. -/
def scanPositions (ordered : Bool) (terms : List ℤ) (proxLength minpos : ℤ) :
    ℕ → Bool → List ℤ → Exec (Bool × Option ℤ)
  | _, fail, [] => .ok (fail, none)
  | j, _, position :: positions => do
    if ← passesOver ordered proxLength minpos position then
      scanPositions ordered terms proxLength minpos (j + 1) true positions
    else do
      let gap ← checkInt (position - minpos)
      if gap > proxLength then .ok (true, none)
      else if position = minpos then do
        -- a doubled term
        if ← sameTermAt terms j then
          scanPositions ordered terms proxLength minpos (j + 1) true positions
        else .ok (false, some position)
      else .ok (false, some position)

/-- `for (list = 1; list < num_prox_terms; list++)`; a list without positions changes nothing. -/
def matchLists (ordered : Bool) (terms : List ℤ) (proxLength : ℤ) :
    ℕ → ℤ → List ℤ → List (List ℤ) → Exec (Bool × List ℤ)
  | _, _, matchpos, [] => .ok (false, matchpos)
  | list, minpos, matchpos, positions :: rest => do
    let scanned ← scanPositions ordered terms proxLength minpos 0 false positions
    if scanned.1 then .ok (true, matchpos)
    else
      match scanned.2 with
      | some position =>
        matchLists ordered terms proxLength (list + 1) position (matchpos.set list position) rest
      | none => matchLists ordered terms proxLength (list + 1) minpos matchpos rest

/-- The test of two neighbours in `matchpos`. -/
def nearEnough (ordered : Bool) (proxLength previous position : ℤ) : Exec Bool :=
  if ordered then do
    let gap ← checkInt (position - previous)
    .ok (gap ≤ proxLength)
  else if previous < position then do
    let gap ← checkInt (position - previous)
    .ok (gap ≤ proxLength)
  else if position < previous then do
    let gap ← checkInt (previous - position)
    .ok (gap ≤ proxLength)
  else .ok false

def fineTest (ordered : Bool) (proxLength : ℤ) : List ℤ → Exec Bool
  | previous :: position :: matchpos => do
    let near ← nearEnough ordered proxLength previous position
    let rest ← fineTest ordered proxLength (position :: matchpos)
    .ok (near && rest)
  | _ => .ok true

/-- `for (i = 0; i < listsize[0]; i++)`; the result is the start of the match. -/
def tryAnchors (ordered : Bool) (terms : List ℤ) (proxLength : ℤ) (rest : List (List ℤ)) :
    List ℤ → List ℤ → Exec ℤ
  | [], _ => .ok 0
  | anchor :: anchors, matchpos => do
    let matched ← matchLists ordered terms proxLength 1 anchor (matchpos.set 0 anchor) rest
    if matched.1 then tryAnchors ordered terms proxLength rest anchors matched.2
    else do
      if ← fineTest ordered proxLength (matched.2.take (rest.length + 1)) then .ok anchor
      else tryAnchors ordered terms proxLength rest anchors matched.2

/-- The lists of the terms in a record; a term that is not there has no positions. -/
def proxLists (terms : List (ℤ × ProxDb)) (recordNum : ℤ) : List (List ℤ) :=
  terms.map fun term ↦ (term.2 term.1 recordNum).getD []

/-- `se_prox_ordered` and `se_prox_unordered`. -/
def seProx (ordered : Bool) (terms : List (ℤ × ProxDb)) (recordNum proxLength : ℤ) : Exec ℤ :=
  match proxLists terms recordNum with
  | [] => .ok 0
  | anchors :: rest =>
    tryAnchors ordered (terms.map Prod.fst) proxLength rest anchors
      (List.replicate (terms.length + 1) 0)

def seProxOrdered (terms : List (ℤ × ProxDb)) (recordNum proxLength : ℤ) : Exec ℤ :=
  seProx true terms recordNum proxLength

def seProxUnordered (terms : List (ℤ × ProxDb)) (recordNum proxLength : ℤ) : Exec ℤ :=
  seProx false terms recordNum proxLength

/-- `for (i = 0; inset->termid[i] != 0; i++)`; terms without an index are left out. -/
def collectTerms : List ℤ → List (Option ProxDb) → Exec (List (ℤ × ProxDb))
  | [], _ => .error .outOfBounds
  | termid :: termids, indexPtrs =>
    if termid = 0 then .ok []
    else
      match indexPtrs with
      | [] => .error .outOfBounds
      | indexPtr :: indexPtrs => do
        let rest ← collectTerms termids indexPtrs
        .ok (indexPtr.toList.map (fun proxDb ↦ (termid, proxDb)) ++ rest)

/-- How far a unit reaches in characters: a word is taken for six, and so on. -/
def unitLength : ℤ → Option ℤ
  | 1 => some 1
  | 11 => some 1
  | 2 => some 6
  | 3 => some 80
  | 4 => some 300
  | 5 => some 1000
  | 6 => some 3000
  | 8 => some 40
  | _ => none

/-- `op->proximityUnitCode.u.known` -/
def ProximityUnitCode.number : ProximityUnitCode → ℤ
  | .known unit => unit
  | .privateVar code => code

/-- The test for the given terms by the unit of the operator. -/
def proxSwitch (op : ProxTestOperator) (terms : List (ℤ × ProxDb)) (recNum : ℤ) : Exec ℤ :=
  match unitLength op.proximityUnitCode.number with
  | some factor => do
    let distance ← checkInt (factor * op.distance)
    if op.ordered then seProxOrdered terms recNum distance
    else seProxUnordered terms recNum distance
  | none =>
    if op.proximityUnitCode.number = 7 then
      if op.ordered then seProxOrdered terms recNum 1000000
      else if op.exclusion then .ok 0
      else .ok 1
    else .ok 0

/-- `int terms[200]`; a 0 is written behind the terms. -/
def TERMS_SIZE : ℕ := 200

def proxTest (op : ProxTestOperator) (inset1 inset2 : SetTerms) (recNum : ℤ) : Exec ℤ := do
  let terms1 ← collectTerms inset1.termid inset1.indexPtr
  let terms2 ← collectTerms inset2.termid inset2.indexPtr
  if TERMS_SIZE ≤ (terms1 ++ terms2).length then .error .outOfBounds
  else proxSwitch op (terms1 ++ terms2) recNum

end Cheshire.Search
