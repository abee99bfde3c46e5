import Cheshire.Srw.Xcql

/-!
# The document that `toXCQL` writes

The text of a query is the rendering of a document: elements with their texts in one line, and
elements whose child nodes stand on lines of their own, with the white space between them.
-/

namespace Cheshire.Srw

open Lib.Xml

@[simp]
theorem space_zero : space 0 = [] := rfl

variable (depth : ℕ)

theorem space_succ : space (depth + 1) = space depth ++ [' ', ' '] := by
  rw [space, List.replicate_succ', List.flatten_append]
  simp [space]

/-- A text; an empty one is no node. -/
def texts (s : PyStr) : List Node := if s = [] then [] else [.text s]

/-- An element with a text. -/
def leaf (localName : String) (s : PyStr) : Node := .element localName (texts s)

/-- The white space before a line. -/
def indent (depth : ℕ) : Node := .text ('\n' :: space depth)

/-- The child nodes of an element, on lines of their own. -/
def indented (depth : ℕ) (nodes : List Node) : List Node :=
  (nodes.flatMap fun node ↦ [indent (depth + 1), node]) ++ [indent depth]

def block (depth : ℕ) (localName : String) (nodes : List Node) : Node :=
  .element localName (indented depth nodes)

/-- A node on a line of its own. -/
def line (depth : ℕ) (node : Node) : PyStr := space depth ++ node.render ++ ['\n']

theorem escape_space : escape (space depth) = space depth := by
  induction depth with
  | zero => rfl
  | succ depth hdepth =>
    rw [space_succ, escape, List.flatMap_append]
    exact congrArg₂ _ hdepth rfl

theorem render_indent : (indent depth).render = '\n' :: space depth := by
  have hcons : escape ('\n' :: space depth) = '\n' :: escape (space depth) := rfl
  rw [indent, Node.render, hcons, escape_space]

theorem renderAll_indented (nodes : List Node) :
    renderAll (indented depth nodes) = '\n' :: nodes.flatMap (line (depth + 1)) ++ space depth := by
  unfold indented
  induction nodes with
  | nil => simp [renderAll, render_indent]
  | cons node nodes hnodes => simp_all [renderAll, render_indent, line]

theorem line_block (localName : String) (nodes : List Node) :
    line depth (block depth localName nodes) =
      space depth ++ '<' :: localName.toList ++ '>' :: '\n' :: nodes.flatMap (line (depth + 1)) ++
        space depth ++ '<' :: '/' :: localName.toList ++ ['>', '\n'] := by
  rw [line, block, Node.render, renderAll_indented]
  simp

theorem line_leaf (localName : String) (s : PyStr) :
    line depth (leaf localName s) = space depth ++ '<' :: localName.toList ++ '>' :: escape s ++
      '<' :: '/' :: localName.toList ++ ['>', '\n'] := by
  unfold line leaf texts
  split_ifs with hs
  · simp [hs, Node.render, renderAll, escape]
  · simp [Node.render, renderAll]

theorem line_modifier (nodes : List Node) :
    line depth (.element "modifier" nodes) = space depth ++ "<modifier>".toList ++ renderAll nodes ++
      "</modifier>\n".toList := by
  simp [line, Node.render]

theorem render_leaf (localName : String) (s : PyStr) :
    (leaf localName s).render = '<' :: localName.toList ++ '>' :: escape s ++
      '<' :: '/' :: localName.toList ++ ['>'] := by
  unfold leaf texts
  split_ifs with hs
  · simp [hs, Node.render, renderAll, escape]
  · simp [Node.render, renderAll]

def prefixesDocument (depth : ℕ) (prefixes : Prefixes) : List Node :=
  if prefixes.entries = [] then []
  else [block (depth + 1) "prefixes" (prefixes.entries.map fun p ↦
    block (depth + 2) "prefix" [leaf "name" p.1, leaf "identifier" p.2])]

def relationDocument (depth : ℕ) (relation : Relation) : Node :=
  block depth "relation" (leaf "value" relation.value ::
    if relation.modifiers = [] then []
    else [block (depth + 1) "modifiers" (relation.modifiers.map fun m ↦
      .element "modifier" [leaf "value" m])])

/-- The modifiers that are not empty, with their places. -/
def givenModifiers (boolean : Boolean) : List (PyStr × ℕ) :=
  (boolean.modifiers.zipIdx 1).filter (·.1 ≠ [])

def modifierDocument (m : PyStr × ℕ) : Node :=
  .element "modifier" [leaf "type" (booleanModifierTypes[m.2]?.getD []), leaf "value" m.1]

def booleanDocument (depth : ℕ) (boolean : Boolean) : Node :=
  block depth "boolean" (leaf "value" boolean.value ::
    if givenModifiers boolean = [] then []
    else [block (depth + 1) "modifiers" ((givenModifiers boolean).map modifierDocument)])

def document : CqlQuery → ℕ → Node
  | .searchClause sc, depth =>
    block depth "searchClause" (prefixesDocument depth sc.prefixes ++
      [leaf "index" sc.index, relationDocument (depth + 1) sc.relation, leaf "term" sc.term])
  | .triple prefixes leftOperand boolean rightOperand, depth =>
    block depth "triple" (prefixesDocument depth prefixes ++
      [booleanDocument (depth + 1) boolean,
        block (depth + 1) "leftOperand" [document leftOperand (depth + 2)],
        block (depth + 1) "rightOperand" [document rightOperand (depth + 2)]])

theorem prefixesToXCQL_eq (prefixes : Prefixes) : prefixesToXCQL (space depth) prefixes =
      (prefixesDocument depth prefixes).flatMap (line (depth + 1)) := by
  unfold prefixesToXCQL prefixesDocument
  split_ifs with hempty
  · rfl
  · simp [line_block, line_leaf, space_succ, List.flatMap_map]

theorem relationToXCQL_eq (relation : Relation) :
    relation.toXCQL depth = line depth (relationDocument depth relation) := by
  unfold Relation.toXCQL relationDocument
  dsimp only
  split_ifs with hempty
  · simp [line_block, line_leaf, space_succ]
  · simp [line_block, line_leaf, line_modifier, render_leaf, renderAll, space_succ, List.flatMap_map]

/-- All modifiers that are not empty have a type. -/
def Typed (boolean : Boolean) : Prop := ∀ m ∈ givenModifiers boolean, m.2 < 5

theorem escape_booleanModifierTypes {i : ℕ} (hi : i < booleanModifierTypes.length) :
    escape booleanModifierTypes[i] = booleanModifierTypes[i] := by
  have hall : ∀ type ∈ booleanModifierTypes, escape type = type := by decide
  exact hall _ (List.getElem_mem hi)

theorem modifierToXCQL_eq_ok_iff (m : PyStr × ℕ) (text : PyStr) :
    modifierToXCQL (space depth) m = .ok text ↔
      m.2 < 5 ∧ text = line (depth + 2) (modifierDocument m) := by
  unfold modifierToXCQL modifierDocument
  by_cases htype : m.2 < booleanModifierTypes.length
  · rw [List.getElem?_eq_getElem htype]
    refine Iff.trans ?_ (and_iff_right htype).symm
    simp [line_modifier, render_leaf, renderAll, space_succ, escape_booleanModifierTypes htype, eq_comm]
  · rw [List.getElem?_eq_none (not_lt.mp htype)]
    exact iff_of_false (by simp) fun h ↦ htype h.1

theorem mapM_modifierToXCQL_eq_ok_iff (modifiers : List (PyStr × ℕ)) (lines : List PyStr) :
    modifiers.mapM (modifierToXCQL (space depth)) = .ok lines ↔
      (∀ m ∈ modifiers, m.2 < 5) ∧
        lines = modifiers.map fun m ↦ line (depth + 2) (modifierDocument m) := by
  induction modifiers generalizing lines with
  | nil => simp [pure, Except.pure, eq_comm]
  | cons m modifiers hmodifiers =>
    simp only [List.mapM_cons, bind_eq_ok_iff, modifierToXCQL_eq_ok_iff, hmodifiers,
      List.forall_mem_cons, List.map_cons]
    constructor
    · rintro ⟨first, ⟨htype, hfirst⟩, others, ⟨htypes, hothers⟩, hlines⟩
      rw [← Except.ok.inj hlines, hfirst, hothers]
      exact ⟨⟨htype, htypes⟩, rfl⟩
    · rintro ⟨⟨htype, htypes⟩, hlines⟩
      exact ⟨_, ⟨htype, rfl⟩, _, ⟨htypes, rfl⟩, congrArg Except.ok hlines.symm⟩

theorem booleanToXCQL_eq_ok_iff (boolean : Boolean) (text : PyStr) :
    boolean.toXCQL depth = .ok text ↔
      Typed boolean ∧ text = line depth (booleanDocument depth boolean) := by
  unfold Boolean.toXCQL Typed booleanDocument
  change (List.mapM (modifierToXCQL (space depth)) (givenModifiers boolean) >>= _) = _ ↔ _
  rw [bind_eq_ok_iff]
  simp only [mapM_modifierToXCQL_eq_ok_iff, and_assoc, exists_and_left, exists_eq_left,
    List.map_eq_nil_iff]
  refine and_congr_right fun _ ↦ ?_
  rw [Except.ok.injEq, eq_comm]
  refine Eq.congr_right ?_
  split_ifs with hempty
  · simp [line_block, line_leaf, space_succ]
  · simp [line_block, line_leaf, space_succ, List.flatMap, Function.comp_def]

/-- Every boolean of the query has types for its modifiers. -/
def TypedQuery : CqlQuery → Prop
  | .searchClause _ => True
  | .triple _ leftOperand boolean rightOperand =>
    TypedQuery leftOperand ∧ Typed boolean ∧ TypedQuery rightOperand

theorem toXCQL_eq_ok_iff (query : CqlQuery) (depth : ℕ) (text : PyStr) :
    query.toXCQL depth = .ok text ↔ TypedQuery query ∧ text = line depth (document query depth) := by
  induction query generalizing depth text with
  | searchClause sc =>
    rw [CqlQuery.toXCQL, SearchClause.toXCQL, Except.ok.injEq, eq_comm]
    refine Iff.trans ?_ (and_iff_right trivial).symm
    refine Eq.congr_right ?_
    simp [document, line_block, line_leaf, space_succ, prefixesToXCQL_eq, relationToXCQL_eq]
  | triple prefixes leftOperand boolean rightOperand hleft hright =>
    simp only [CqlQuery.toXCQL, bind_eq_ok_iff, booleanToXCQL_eq_ok_iff, hleft, hright, TypedQuery]
    constructor
    · rintro ⟨_, ⟨hboolean, rfl⟩, _, ⟨hleft, rfl⟩, _, ⟨hright, rfl⟩, htext⟩
      refine ⟨⟨hleft, hboolean, hright⟩, ?_⟩
      rw [← Except.ok.inj htext]
      simp [document, line_block, space_succ, prefixesToXCQL_eq]
    · rintro ⟨⟨hleft, hboolean, hright⟩, htext⟩
      refine ⟨_, ⟨hboolean, rfl⟩, _, ⟨hleft, rfl⟩, _, ⟨hright, rfl⟩, ?_⟩
      rw [htext]
      simp [document, line_block, space_succ, prefixesToXCQL_eq]

end Cheshire.Srw
