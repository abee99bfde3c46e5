import Cheshire.Search.DbmsMeaning

/-!
# Translated queries that keep their meaning

A query is read back from its text.  It has the meaning of its tree exactly if no OR stands below an AND
and there is no AND-NOT, the terms need no quotes to be doubled, and the tables have letters and room in
their block.
-/

namespace Cheshire.Search

open Lib Lib.Sql Index

def entriesTokens : List (List Char × Char) → List Token
  | [] => []
  | [entry] => [.word entry.1, .word [entry.2]]
  | entry :: entries => .word entry.1 :: .word [entry.2] :: .comma :: entriesTokens entries

/-- The tables with the names that they have in the query. -/
def aliases (entries : List (List Char × Char)) : List (List Char × List Char) :=
  entries.map fun entry ↦ ([entry.2], entry.1)

variable {rest : List Char}

theorem lexes_entry {entry : List Char × Char} (hname : isName entry.1 = true)
    (hletter : isName [entry.2] = true) (hrest : rest.head?.any isWordChar = false) :
    Lexes (entry.1 ++ ' ' :: entry.2 :: rest) [.word entry.1, .word [entry.2]] rest := by
  have hfirst : Lexes (entry.1 ++ ' ' :: entry.2 :: rest) [.word entry.1] (' ' :: entry.2 :: rest) :=
    lexes_name hname rfl
  have hblank := lexes_blank (c := ' ') (by decide) (entry.2 :: rest)
  have hsecond : Lexes ([entry.2] ++ rest) [.word [entry.2]] rest := lexes_name hletter hrest
  exact hfirst.trans (hblank.trans hsecond)

theorem lexes_comma (rest : List Char) : Lexes (',' :: ' ' :: rest) [.comma] rest := by
  have hcomma : Lexes (',' :: ' ' :: rest) [.comma] (' ' :: rest) :=
    lexes_of_lexOne (by decide) rfl
  exact hcomma.trans (lexes_blank (by decide) rest)

variable {entries : List (List Char × Char)}

theorem lexes_entriesText
    (hnames : ∀ entry ∈ entries, isName entry.1 = true ∧ isName [entry.2] = true)
    (hrest : rest.head?.any isWordChar = false) :
    Lexes (entriesText entries ++ rest) (entriesTokens entries) rest := by
  induction entries with
  | nil => exact Lexes.refl rest
  | cons entry entries ih =>
    obtain ⟨hentry, hentries⟩ := List.forall_mem_cons.mp hnames
    cases entries with
    | nil =>
      have htext : entriesText [entry] ++ rest = entry.1 ++ ' ' :: entry.2 :: rest := by
        simp [entriesText]
      rw [htext]
      exact lexes_entry hentry.1 hentry.2 hrest
    | cons next entries =>
      have htext : entriesText (entry :: next :: entries) ++ rest =
          entry.1 ++ ' ' :: entry.2 :: ',' :: ' ' :: (entriesText (next :: entries) ++ rest) := by
        simp [entriesText]
      have hfirst : Lexes _ _ (',' :: ' ' :: (entriesText (next :: entries) ++ rest)) :=
        lexes_entry hentry.1 hentry.2 rfl
      rw [htext]
      exact hfirst.trans ((lexes_comma _).trans (ih hentries))

theorem parseTables_entriesTokens (hne : entries ≠ []) {rest : List Token}
    (hrest : rest.head? ≠ some .comma) :
    parseTables (entriesTokens entries ++ rest) = some (aliases entries, rest) := by
  induction entries with
  | nil => exact absurd rfl hne
  | cons entry entries ih =>
    cases entries with
    | nil =>
      change parseTables (.word entry.1 :: .word [entry.2] :: rest) = _
      cases rest with
      | nil => rfl
      | cons token rest =>
        have htoken : token ≠ .comma := fun heq ↦ hrest (congrArg some heq)
        cases token <;> first | rfl | exact absurd rfl htoken
    | cons next entries =>
      change parseTables (.word entry.1 :: .word [entry.2] :: .comma ::
        (entriesTokens (next :: entries) ++ rest)) = _
      rw [parseTables, ih (List.cons_ne_nil _ _)]
      rfl

theorem lexes_selectFrom (rest : List Char) :
    Lexes (SELECT_FROM ++ rest) [.keyword .selectKey, .star, .keyword .fromKey] rest := by
  have hblank : (' ' : Char).isWhitespace = true := by decide
  have hfrom : Lexes ('F' :: ['R', 'O', 'M'] ++ ' ' :: rest) [.keyword .fromKey] (' ' :: rest) :=
    lexes_word (by decide) (by decide) rfl
  have hstar (text : List Char) : Lexes ('*' :: ' ' :: text) [.star] (' ' :: text) :=
    lexes_of_lexOne (by decide) rfl
  have hselect (text : List Char) :
      Lexes ('S' :: ['E', 'L', 'E', 'C', 'T'] ++ ' ' :: text) [.keyword .selectKey] (' ' :: text) :=
    lexes_word (by decide) (by decide) rfl
  exact (hselect _).trans ((lexes_blank hblank _).trans ((hstar _).trans ((lexes_blank hblank _).trans
    (hfrom.trans (lexes_blank hblank rest)))))

theorem names_tableEntries {names : List (List Char)} (hfew : names.length ≤ 26)
    (hnames : ∀ name ∈ names, isName name = true) :
    ∀ entry ∈ tableEntries names, isName entry.1 = true ∧ isName [entry.2] = true := by
  intro entry hentry
  obtain ⟨pair, hpair, rfl⟩ := List.mem_map.mp hentry
  have hindex : pair.2 < names.length := List.snd_lt_of_mem_zipIdx hpair
  exact ⟨hnames _ (List.fst_mem_of_mem_zipIdx hpair), isName_letterAt _ (by omega)⟩

theorem lexes_tableList {names : List (List Char)} (hfew : names.length ≤ 26)
    (hnames : ∀ name ∈ names, isName name = true) (hrest : rest.head?.any isWordChar = false) :
    Lexes (tableList names ++ rest)
      ([.keyword .selectKey, .star, .keyword .fromKey] ++ entriesTokens (tableEntries names)) rest := by
  rw [tableList, List.append_assoc]
  exact (lexes_selectFrom _).trans (lexes_entriesText (names_tableEntries hfew hnames) hrest)

theorem lex_many {names : List (List Char)} (hmany : 26 < names.length)
    (hnames : ∀ name ∈ names, isName name = true) (rest : List Char) :
    lex (tableList (names.take 27) ++ rest) = none := by
  have hlength : (names.take 26).length = 26 := by
    rw [List.length_take]
    omega
  have htake : names.take 27 = names.take 26 ++ [names[26]] := by
    rw [List.take_succ_eq_append_getElem hmany]
  have hne : names.take 26 ≠ [] := by
    intro hnil
    rw [hnil] at hlength
    cases hlength
  have htext : tableList (names.take 27) ++ rest =
      tableList (names.take 26) ++ (',' :: ' ' :: (names[26] ++ ' ' :: '[' :: rest)) := by
    rw [htake, tableList_append hne, hlength]
    have hletter : letterAt 26 = '[' := by decide
    simp [hletter]
  have htaken : ∀ name ∈ names.take 26, isName name = true :=
    fun name hmem ↦ hnames name (List.mem_of_mem_take hmem)
  have hlist : Lexes (tableList (names.take 26) ++
      (',' :: ' ' :: (names[26] ++ ' ' :: '[' :: rest))) _ _ := lexes_tableList hlength.le htaken rfl
  have hname : Lexes (names[26] ++ ' ' :: '[' :: rest) [.word names[26]] (' ' :: '[' :: rest) :=
    lexes_name (hnames _ (List.getElem_mem hmany)) rfl
  have hall := hlist.trans ((lexes_comma _).trans (hname.trans (lexes_blank (by decide) _)))
  have hbracket : lex ('[' :: rest) = none := by
    rw [lex_token (by decide)]
    rfl
  rw [htext, hall, hbracket]
  rfl

theorem aliases_tableEntries (names : List (List Char)) :
    aliases (tableEntries names) = names.zipIdx.map fun entry ↦ ([letterAt entry.2], entry.1) := by
  rw [aliases, tableEntries, List.map_map]
  rfl

theorem letterAt_inj {i j : ℕ} (hi : i < 27) (hj : j < 27) (h : letterAt i = letterAt j) : i = j := by
  have hnat := congrArg Char.toNat h
  rw [toNat_letterAt i hi, toNat_letterAt j hj] at hnat
  omega

theorem nodup_aliases {names : List (List Char)} (hfew : names.length ≤ 26) :
    ((aliases (tableEntries names)).map Prod.fst).Nodup := by
  have hmap : (aliases (tableEntries names)).map Prod.fst =
      (names.zipIdx.map Prod.snd).map fun i ↦ [letterAt i] := by
    rw [aliases_tableEntries, List.map_map, List.map_map]
    rfl
  rw [hmap, List.zipIdx_map_snd]
  apply List.Nodup.map_on _ List.nodup_range'
  intro i hi j hj heq
  rw [List.mem_range'_1] at hi hj
  exact letterAt_inj (by omega) (by omega) (List.cons.inj heq).1

theorem lookup_aliases {names : List (List Char)} (hfew : names.length ≤ 26) {name : List Char}
    (hmem : name ∈ names) :
    (aliases (tableEntries names)).lookup [letterOf names name] = some name := by
  have hindex := List.idxOf_lt_length_of_mem hmem
  have hplace : (name, names.idxOf name) ∈ names.zipIdx := by
    rw [List.mk_mem_zipIdx_iff_getElem?, List.getElem?_eq_getElem hindex, List.getElem_idxOf hindex]
  have hentry : ([letterOf names name], name) ∈ aliases (tableEntries names) := by
    rw [aliases_tableEntries]
    exact List.mem_map.mpr ⟨_, hplace, rfl⟩
  exact Tally.lookup_of_mem (nodup_aliases hfew) hentry

def firstLeaf : RpnStructure DbmsLeaf → DbmsLeaf
  | .leaf operand => operand
  | .node _ left _ => firstLeaf left

/-- The leaves behind the first one, each with the operator in front of it. -/
def laterLeaves : RpnStructure DbmsLeaf → List (RpnOperator × DbmsLeaf)
  | .leaf _ => []
  | .node operator left right => laterLeaves left ++ (operator, firstLeaf right) :: laterLeaves right

theorem leaves_eq (tree : RpnStructure DbmsLeaf) :
    leaves tree = firstLeaf tree :: (laterLeaves tree).map Prod.snd := by
  induction tree with
  | leaf operand => rfl
  | node operator left right ihleft ihright =>
    rw [leaves, laterLeaves, firstLeaf, ihleft, ihright, List.map_append, List.map_cons]
    rfl

/-- The tokens of operators and leaves. -/
def laterTokens (names : List (List Char)) (later : List (RpnOperator × DbmsLeaf)) : List Token :=
  later.flatMap fun step ↦ operatorToken step.1 :: comparisonTokens (leafAlias names step.2)

theorem treeTokens_eq (names : List (List Char)) (tree : RpnStructure DbmsLeaf) :
    treeTokens names tree =
      comparisonTokens (leafAlias names (firstLeaf tree)) ++ laterTokens names (laterLeaves tree) := by
  induction tree with
  | leaf operand => exact (List.append_nil _).symm
  | node operator left right ihleft ihright =>
    rw [treeTokens, ihleft, ihright, laterLeaves, firstLeaf, laterTokens, laterTokens, laterTokens,
      List.flatMap_append, List.flatMap_cons, List.append_assoc]
    simp only [List.cons_append]

def connective? : RpnOperator → Option Connective
  | .and => some .and
  | .or => some .or
  | .andNot => none
  | .prox _ => none

theorem operatorToken_of_connective {operator : RpnOperator} {connective : Connective}
    (h : connective? operator = some connective) :
    operatorToken operator = connectiveToken connective := by
  cases operator <;> cases h <;> rfl

theorem positive_meaning_iff {tree : RpnStructure DbmsLeaf} (h : Written tree) :
    (meaning tree).Positive ↔ ∀ step ∈ laterLeaves tree, (connective? step.1).isSome = true := by
  induction tree with
  | leaf operand => simp [meaning, Condition.Positive, laterLeaves]
  | node operator left right ihleft ihright =>
    obtain ⟨hoperator, hleft, hright⟩ := h
    rw [laterLeaves, List.forall_mem_append, List.forall_mem_cons, ← ihleft hleft, ← ihright hright]
    cases operator with
    | and => simp [meaning, Condition.Positive, connective?]
    | or => simp [meaning, Condition.Positive, connective?]
    | andNot => simp [meaning, Condition.Positive, connective?]
    | prox op => cases hoperator

/-- The leaves behind the first one, with connectives in place of operators. -/
def steps (names : List (List Char)) (later : List (RpnOperator × DbmsLeaf)) :
    List (Connective × Comparison) :=
  later.filterMap fun step ↦
    (connective? step.1).map fun connective ↦ (connective, leafAlias names step.2)

theorem steps_cons {names : List (List Char)} {operator : RpnOperator} {connective : Connective}
    (h : connective? operator = some connective) (leaf : DbmsLeaf)
    (later : List (RpnOperator × DbmsLeaf)) :
    steps names ((operator, leaf) :: later) =
      (connective, leafAlias names leaf) :: steps names later := by
  rw [steps, List.filterMap_cons, h]
  rfl

theorem laterTokens_eq (names : List (List Char)) {later : List (RpnOperator × DbmsLeaf)}
    (h : ∀ step ∈ later, (connective? step.1).isSome = true) :
    laterTokens names later = stepTokens (steps names later) ∧
      (steps names later).length = later.length := by
  induction later with
  | nil => exact ⟨rfl, rfl⟩
  | cons step later ih =>
    obtain ⟨hstep, hlater⟩ := List.forall_mem_cons.mp h
    obtain ⟨htokens, hlength⟩ := ih hlater
    obtain ⟨connective, hconnective⟩ := Option.isSome_iff_exists.mp hstep
    rcases step with ⟨operator, leaf⟩
    rw [steps_cons hconnective, laterTokens, List.flatMap_cons, stepTokens, List.flatMap_cons,
      operatorToken_of_connective hconnective, List.length_cons, List.length_cons, hlength]
    refine ⟨?_, rfl⟩
    rw [← stepTokens, ← htokens]
    rfl

theorem typed_leafAlias (names : List (List Char)) (leaf : DbmsLeaf) :
    (leafAlias names leaf).Typed := by
  intro hlike
  change (leafComparison leaf).comparator = .like at hlike
  change ∃ value, (leafComparison leaf).literal = .text value
  rw [leafComparison] at hlike ⊢
  by_cases hnumber : isNumberColumn leaf.idx.idxType = true
  · rw [isLike_eq_false hnumber] at hlike
    simp only [Bool.false_eq_true, if_false, relatComparator] at hlike
    split_ifs at hlike
  · exact ⟨_, if_neg hnumber⟩

theorem typed_steps (names : List (List Char)) (later : List (RpnOperator × DbmsLeaf)) :
    ∀ step ∈ steps names later, step.2.Typed := by
  intro step hstep
  obtain ⟨place, -, hplace⟩ := List.mem_filterMap.mp hstep
  obtain ⟨connective, -, rfl⟩ := Option.map_eq_some_iff.mp hplace
  exact typed_leafAlias names place.2

theorem parse_treeTokens {names : List (List Char)} {tree : RpnStructure DbmsLeaf}
    (h : ∀ step ∈ laterLeaves tree, (connective? step.1).isSome = true) {fuel : ℕ}
    (hfuel : 3 * (laterLeaves tree).length + 5 ≤ fuel) :
    parse fuel .disjunction (treeTokens names tree) =
      some (Condition.read (leafAlias names (firstLeaf tree)) (steps names (laterLeaves tree)), []) := by
  obtain ⟨htokens, hlength⟩ := laterTokens_eq names h
  have hfirst := typed_leafAlias names (firstLeaf tree)
  rw [treeTokens_eq, htokens, ← List.append_nil (stepTokens _)]
  apply parse_read hfirst (typed_steps names _) (by simp) (by simp)
  rw [hlength]
  exact hfuel

theorem parse_treeTokens_andNot (names : List (List Char)) {tree : RpnStructure DbmsLeaf}
    (h : ¬∀ step ∈ laterLeaves tree, (connective? step.1).isSome = true) {fuel : ℕ}
    (hfuel : 3 * (laterLeaves tree).length + 5 ≤ fuel) (condition : Condition Comparison) :
    parse fuel .disjunction (treeTokens names tree) ≠ some (condition, []) := by
  -- the first operator that is not a connective
  obtain ⟨step, hfind⟩ : ∃ step,
      (laterLeaves tree).find? (fun step ↦ ! (connective? step.1).isSome) = some step := by
    rw [← Option.isSome_iff_exists, List.find?_isSome]
    simpa using h
  obtain ⟨hstep, before, behind, hsplit, hbefore⟩ := List.find?_eq_some_iff_append.mp hfind
  have hbefore : ∀ step ∈ before, (connective? step.1).isSome = true := by simpa using hbefore
  obtain ⟨htokens, hlength⟩ := laterTokens_eq names hbefore
  have hnot : operatorToken step.1 = .keyword .notKey := by
    rcases step with ⟨operator, leaf⟩
    cases operator with
    | and => cases hstep
    | or => cases hstep
    | andNot => rfl
    | prox op => rfl
  have htree : treeTokens names tree = comparisonTokens (leafAlias names (firstLeaf tree)) ++
      (stepTokens (steps names before) ++ .keyword .notKey ::
        (comparisonTokens (leafAlias names step.2) ++ laterTokens names behind)) := by
    rw [treeTokens_eq, hsplit, ← htokens, laterTokens, List.flatMap_append, List.flatMap_cons, hnot]
    rfl
  have hfirst := typed_leafAlias names (firstLeaf tree)
  have hsteps : (steps names before).length ≤ (laterLeaves tree).length := by
    rw [hlength, hsplit, List.length_append]
    exact Nat.le_add_right _ _
  rw [htree, parse_read hfirst (typed_steps names _) (by simp) (by simp) (by omega)]
  simp

theorem steps_append (names : List (List Char)) (first second : List (RpnOperator × DbmsLeaf)) :
    steps names (first ++ second) = steps names first ++ steps names second := List.filterMap_append

theorem connectives_meaning (names : List (List Char)) {tree : RpnStructure DbmsLeaf}
    (h : ∀ step ∈ laterLeaves tree, (connective? step.1).isSome = true) :
    (meaning tree).connectives = (steps names (laterLeaves tree)).map Prod.fst := by
  induction tree with
  | leaf operand => rfl
  | node operator left right ihleft ihright =>
    obtain ⟨hleft, hlater⟩ := List.forall_mem_append.mp h
    obtain ⟨hoperator, hright⟩ := List.forall_mem_cons.mp hlater
    obtain ⟨connective, hconnective⟩ := Option.isSome_iff_exists.mp hoperator
    rw [laterLeaves, steps_append, steps_cons hconnective, List.map_append, List.map_cons, ← ihleft hleft,
      ← ihright hright]
    cases operator <;> cases hconnective <;> rfl

theorem map_steps {names : List (List Char)} {later : List (RpnOperator × DbmsLeaf)}
    (h : ∀ step ∈ later, (connective? step.1).isSome = true) {f : Comparison → Comparison}
    (hf : ∀ step ∈ later, f (leafAlias names step.2) = leafComparison step.2) :
    (steps names later).map (fun step ↦ f step.2) = later.map fun step ↦ leafComparison step.2 := by
  induction later with
  | nil => rfl
  | cons step later ih =>
    obtain ⟨hstep, hlater⟩ := List.forall_mem_cons.mp h
    obtain ⟨hfstep, hflater⟩ := List.forall_mem_cons.mp hf
    obtain ⟨connective, hconnective⟩ := Option.isSome_iff_exists.mp hstep
    rcases step with ⟨operator, leaf⟩
    rw [steps_cons hconnective, List.map_cons, List.map_cons, ih hlater hflater, hfstep]

/-- The tokens in front of the condition. -/
def selectTokens (entries : List (List Char × Char)) : List Token :=
  [.keyword .selectKey, .star, .keyword .fromKey] ++ entriesTokens entries ++ [.keyword .whereKey]

def queryText (names : List (List Char)) (tree : RpnStructure DbmsLeaf) : List Char :=
  tableList names ++ WHERE ++ treeText names tree ++ [' ']

theorem lexes_where (rest : List Char) : Lexes (WHERE ++ rest) [.keyword .whereKey] rest :=
  @lexes_keyword 'W' ['H', 'E', 'R', 'E'] _ (by decide) (by decide) rfl rest

theorem lexes_queryText {names : List (List Char)} (hfew : names.length ≤ 26)
    (hnames : ∀ name ∈ names, isName name = true) (tree : RpnStructure DbmsLeaf) :
    Lexes (queryText names tree) (selectTokens (tableEntries names)) (treeText names tree ++ [' ']) := by
  have hlist : Lexes (tableList names ++ (WHERE ++ (treeText names tree ++ [' ']))) _ _ :=
    lexes_tableList hfew hnames rfl
  rw [queryText, List.append_assoc, List.append_assoc]
  exact hlist.trans (lexes_where _)

theorem parseSelect_tokens (hne : entries ≠ []) (hnodup : ((aliases entries).map Prod.fst).Nodup)
    (body : List Token) : parseSelect (selectTokens entries ++ body) =
      match parse (4 * (selectTokens entries ++ body).length + 4) .disjunction body with
      | some (condition, []) => resolveAll (aliases entries) condition
      | _ => none := by
  have hrest : (Token.keyword .whereKey :: body).head? ≠ some .comma := by simp
  have htables := parseTables_entriesTokens hne hrest
  have hdrop : (selectTokens entries ++ body).drop 3 =
      entriesTokens entries ++ .keyword .whereKey :: body := by
    simp [selectTokens]
  have htake : (selectTokens entries ++ body).take 3 =
      [.keyword .selectKey, .star, .keyword .fromKey] := rfl
  rw [parseSelect, if_pos htake, hdrop, htables]
  exact if_pos ⟨hnodup, rfl⟩

theorem length_laterLeaves_le (names : List (List Char)) (tree : RpnStructure DbmsLeaf) :
    (laterLeaves tree).length ≤ (treeTokens names tree).length := by
  induction tree with
  | leaf operand => exact Nat.zero_le _
  | node operator left right ihleft ihright =>
    rw [laterLeaves, treeTokens, List.length_append, List.length_append, List.length_cons,
      List.length_cons]
    omega

section Queries

variable {names : List (List Char)} {tree : RpnStructure DbmsLeaf}

theorem readQuery_queryText (hfew : names.length ≤ 26) (hnames : ∀ name ∈ names, isName name = true)
    (hwritten : Written tree) (hmem : ∀ leaf ∈ leaves tree, leaf.idx.name ∈ names)
    (hleaves : ∀ leaf ∈ leaves tree, Writable leaf) :
    ∃ fuel, 3 * (laterLeaves tree).length + 5 ≤ fuel ∧
      readQuery (queryText names tree) =
        match parse fuel .disjunction (treeTokens names tree) with
        | some (condition, []) => resolveAll (aliases (tableEntries names)) condition
        | _ => none := by
  have hlist := lexes_queryText hfew hnames tree
  have htree : Lexes (treeText names tree ++ [' ']) (treeTokens names tree) [' '] :=
    lexes_treeText hfew hwritten hmem hleaves rfl
  have hall := hlist.trans (htree.trans (lexes_blank (by decide) []))
  rw [Lexes, lex_nil, List.append_nil, Option.map_some, List.append_nil] at hall
  have hne : tableEntries names ≠ [] := by
    apply tableEntries_ne_nil
    apply List.ne_nil_of_mem (hmem (firstLeaf tree) _)
    rw [leaves_eq]
    exact List.mem_cons_self
  have hlength := length_laterLeaves_le names tree
  have hsize : 4 ≤ (selectTokens (tableEntries names)).length := by
    simp only [selectTokens, List.length_append, List.length_cons, List.length_nil]
    omega
  refine ⟨4 * (selectTokens (tableEntries names) ++ treeTokens names tree).length + 4, ?_, ?_⟩
  · rw [List.length_append]
    omega
  · rw [readQuery, hall, Option.bind_some]
    exact parseSelect_tokens hne (nodup_aliases hfew) (treeTokens names tree)

theorem readQuery_andNot (hfew : names.length ≤ 26) (hnames : ∀ name ∈ names, isName name = true)
    (hwritten : Written tree) (hmem : ∀ leaf ∈ leaves tree, leaf.idx.name ∈ names)
    (hleaves : ∀ leaf ∈ leaves tree, Writable leaf) (h : ¬(meaning tree).Positive) :
    readQuery (queryText names tree) = none := by
  obtain ⟨fuel, hfuel, hread⟩ := readQuery_queryText hfew hnames hwritten hmem hleaves
  rw [positive_meaning_iff hwritten] at h
  have hparse := parse_treeTokens_andNot names h hfuel
  rw [hread]
  split
  · next condition hcondition => exact absurd hcondition (hparse condition)
  · rfl

theorem readQuery_positive (hfew : names.length ≤ 26) (hnames : ∀ name ∈ names, isName name = true)
    (hwritten : Written tree) (hmem : ∀ leaf ∈ leaves tree, leaf.idx.name ∈ names)
    (hleaves : ∀ leaf ∈ leaves tree, Writable leaf) (h : (meaning tree).Positive) :
    ∃ first rest, readQuery (queryText names tree) = some (Condition.read first rest) ∧
      (meaning tree).atoms = first :: rest.map Prod.snd ∧
      (meaning tree).connectives = rest.map Prod.fst := by
  obtain ⟨fuel, hfuel, hread⟩ := readQuery_queryText hfew hnames hwritten hmem hleaves
  rw [positive_meaning_iff hwritten] at h
  have hresolve (leaf : DbmsLeaf) (hleaf : leaf ∈ leaves tree) :
      resolve (aliases (tableEntries names)) (leafAlias names leaf) = some (leafComparison leaf) := by
    have hfound := lookup_aliases hfew (hmem leaf hleaf)
    change (List.lookup [letterOf names leaf.idx.name] _).map _ = _
    rw [hfound]
    rfl
  let f (comparison : Comparison) : Comparison :=
    (resolve (aliases (tableEntries names)) comparison).getD comparison
  have hf (leaf : DbmsLeaf) (hleaf : leaf ∈ leaves tree) :
      f (leafAlias names leaf) = leafComparison leaf := by
    change (resolve _ (leafAlias names leaf)).getD _ = _
    rw [hresolve leaf hleaf]
    rfl
  have hall := leaves_eq tree
  have hfirst : firstLeaf tree ∈ leaves tree := by
    rw [hall]
    exact List.mem_cons_self
  have hlater (step : RpnOperator × DbmsLeaf) (hstep : step ∈ laterLeaves tree) :
      step.2 ∈ leaves tree := by
    rw [hall]
    exact List.mem_cons_of_mem _ (List.mem_map_of_mem hstep)
  refine ⟨f (leafAlias names (firstLeaf tree)),
    (steps names (laterLeaves tree)).map fun step ↦ (step.1, f step.2), ?_, ?_, ?_⟩
  · rw [hread, parse_treeTokens h hfuel]
    change resolveAll _ _ = _
    rw [← Condition.map_read]
    apply resolveAll_eq_map
    intro atom hatom
    rw [Condition.atoms_read] at hatom
    have hleaf : ∃ leaf ∈ leaves tree, atom = leafAlias names leaf := by
      rcases List.mem_cons.mp hatom with rfl | hread
      · exact ⟨firstLeaf tree, hfirst, rfl⟩
      · obtain ⟨step, hstep, rfl⟩ := List.mem_map.mp hread
        obtain ⟨place, hplace, hconnective⟩ := List.mem_filterMap.mp hstep
        obtain ⟨connective, -, rfl⟩ := Option.map_eq_some_iff.mp hconnective
        exact ⟨place.2, hlater place hplace, rfl⟩
    obtain ⟨leaf, hleaf, rfl⟩ := hleaf
    rw [hresolve leaf hleaf, hf leaf hleaf]
  · have hsteps := map_steps h (f := f) fun step hstep ↦ hf step.2 (hlater step hstep)
    rw [atoms_meaning, hall, List.map_cons, hf _ hfirst, List.map_map, List.map_map]
    exact congrArg (leafComparison (firstLeaf tree) :: ·) hsteps.symm
  · rw [connectives_meaning names h, List.map_map]
    rfl

end Queries

theorem length_tableList {names : List (List Char)} (hne : names ≠ []) :
    (tableList names).length = (names.map fun name ↦ name.length + 4).sum + 12 := by
  induction names using List.reverseRecOn with
  | nil => exact absurd rfl hne
  | append_singleton names name ih =>
    rw [List.map_append, List.sum_append, List.map_singleton, List.sum_singleton]
    by_cases hnil : names = []
    · subst hnil
      rw [List.nil_append, tableList_singleton]
      simp only [List.length_append, List.length_cons, List.length_nil, SELECT_FROM, List.map_nil,
        List.sum_nil]
      omega
    · rw [tableList_append hnil]
      simp only [List.length_append, List.length_cons, List.length_nil, ih hnil]
      omega

/-- The tables of a query, each of them once. -/
def tablesOf (tree : RpnStructure DbmsLeaf) : List (List Char) := tablesFrom [] (leaves tree)

/-- No AND-NOT, no OR below an AND, terms that stand for themselves, and letters and room for the
tables. -/
structure Translatable (tree : RpnStructure DbmsLeaf) : Prop where
  positive : (meaning tree).Positive
  nested : (meaning tree).WellNested
  terms : ∀ leaf ∈ leaves tree, Writable leaf
  letters : (tablesOf tree).length ≤ 26
  room : ((tablesOf tree).map fun name ↦ name.length + 4).sum + 12 < TABLE_BUFFER

theorem mem_tablesOf {tree : RpnStructure DbmsLeaf} {leaf : DbmsLeaf} (h : leaf ∈ leaves tree) :
    leaf.idx.name ∈ tablesOf tree := mem_tablesFrom_iff.mpr (Or.inr ⟨leaf, h, rfl⟩)

theorem isName_of_mem_tablesOf {tree : RpnStructure DbmsLeaf}
    (h : ∀ leaf ∈ leaves tree, isName leaf.idx.name = true) : ∀ name ∈ tablesOf tree, isName name = true := by
  intro name hname
  rcases mem_tablesFrom_iff.mp hname with hnil | ⟨leaf, hleaf, rfl⟩
  · cases hnil
  · exact h leaf hleaf

theorem tablesOf_ne_nil (tree : RpnStructure DbmsLeaf) : tablesOf tree ≠ [] := by
  have hfirst : firstLeaf tree ∈ leaves tree := by
    rw [leaves_eq]
    exact List.mem_cons_self
  exact List.ne_nil_of_mem (mem_tablesOf hfirst)

section Translation

variable {indexes : DbmsIndexes} {rpn : RpnStructure DbmsOperand} {tree : RpnStructure DbmsLeaf}

variable {query : List Char}

theorem of_seDbmsQuery (h : seDbmsQuery indexes (some rpn) = .ok (some query)) :
    ∃ result, seDbmsRpnStructure indexes rpn (some SqlTables.zero) = .ok (some result) ∧
      query = result.2.query ++ WHERE ++ result.1 ++ [' '] := by
  rw [seDbmsQuery, seDbmsRpnStructure_none] at h
  obtain ⟨found, hfound, h⟩ := bind_eq_ok.mp h
  obtain ⟨inner, hinner, hfound⟩ := bind_eq_ok.mp hfound
  cases inner with
  | none =>
    cases hfound
    cases h
  | some inner =>
    change wholeQuery true inner.1 inner.2 = _ at hfound
    rw [wholeQuery_true] at hfound
    cases hfound
    cases h
    exact ⟨inner, hinner, rfl⟩

theorem seDbmsQuery_eq (h : leavesOf indexes rpn = some tree) (hfew : (tablesOf tree).length ≤ 26)
    (hfits : (tableList (tablesOf tree)).length < TABLE_BUFFER) :
    seDbmsQuery indexes (some rpn) = .ok (some (queryText (tablesOf tree) tree)) := by
  obtain ⟨s, hrun, hlisted⟩ := listed_zero.rpnStructure h hfew hfits
  rw [seDbmsQuery, seDbmsRpnStructure_none, hrun]
  change (wholeQuery true (treeText (tablesOf tree) tree) s >>= fun found ↦
    .ok (found.map Prod.fst)) = _
  rw [wholeQuery_true, hlisted.query]
  rfl

variable {condition : Condition Comparison}

theorem listed_of_readQuery (h : leavesOf indexes rpn = some tree)
    (hrun : seDbmsQuery indexes (some rpn) = .ok (some query))
    (hnames : ∀ name ∈ tablesOf tree, isName name = true)
    (hread : readQuery query = some condition) :
    (tablesOf tree).length ≤ 26 ∧ (tableList (tablesOf tree)).length < TABLE_BUFFER := by
  obtain ⟨result, hresult, hquery⟩ := of_seDbmsQuery hrun
  have hstate := TableState.rpnStructure h (Or.inl listed_zero) hresult
  rcases hstate with hlisted | ⟨hmany, rest, hfront⟩
  · exact ⟨hlisted.few, hlisted.fits⟩
  · have hlex : lex query = none := by
      rw [hquery, ← hfront, List.append_assoc, List.append_assoc, List.append_assoc]
      exact lex_many hmany hnames _
    rw [readQuery, hlex] at hread
    cases hread

theorem named_of_same (hread : readQuery query = some condition)
    (hsame : condition.Same (meaning tree)) :
    (∀ leaf ∈ leaves tree, Named leaf) ∧ ∃ tokens, lex query = some tokens ∧
      literals tokens = (meaning tree).atoms.map Comparison.literal := by
  obtain ⟨hlex, hatoms⟩ := of_readQuery hread
  rw [hsame.atoms] at hlex hatoms
  refine ⟨?_, hlex⟩
  intro leaf hleaf
  have hatom : leafComparison leaf ∈ (meaning tree).atoms := by
    rw [atoms_meaning]
    exact List.mem_map_of_mem hleaf
  obtain ⟨htable, hcolumn, hnumeral⟩ := hatoms _ hatom
  refine ⟨htable, hcolumn, ?_⟩
  intro hnumber
  exact hnumeral leaf.data (if_pos hnumber)

theorem writable_of_same {names : List (List Char)} (hfew : names.length ≤ 26)
    (hwritten : Written tree) (hmem : ∀ leaf ∈ leaves tree, leaf.idx.name ∈ names)
    (hnames : ∀ name ∈ names, isName name = true)
    (hread : readQuery (queryText names tree) = some condition)
    (hsame : condition.Same (meaning tree)) : ∀ leaf ∈ leaves tree, Writable leaf := by
  obtain ⟨hnamed, tokens, hlex, hliterals⟩ := named_of_same hread hsame
  rw [lexes_queryText hfew hnames tree] at hlex
  obtain ⟨behind, hbehind, rfl⟩ := Option.map_eq_some_iff.mp hlex
  have hselect : literals (selectTokens (tableEntries names)) = [] := by
    have hentries (entries : List (List Char × Char)) : literals (entriesTokens entries) = [] := by
      induction entries with
      | nil => rfl
      | cons entry entries ih =>
        cases entries with
        | nil => rfl
        | cons next entries => exact ih
    rw [selectTokens, literals_append, literals_append, hentries]
    rfl
  rw [literals_append, hselect, List.nil_append] at hliterals
  have hnul : NUL ∉ [' '] := by decide
  exact writable_of_lex_treeText hfew hwritten hmem hnamed rfl hnul hbehind
    (hliterals.trans (List.append_nil _).symm)

/-- A tree whose terms are indexed is translated without a write behind a block, into a query that is well
formed and has its meaning, exactly if it is translatable. -/
theorem seDbmsQuery_meaning_iff (h : leavesOf indexes rpn = some tree) :
    (∃ query, seDbmsQuery indexes (some rpn) = .ok (some query) ∧
      ∃ condition, readQuery query = some condition ∧ condition.Same (meaning tree)) ↔
    Translatable tree := by
  have hwritten := written_of_leavesOf h
  have hmem (leaf : DbmsLeaf) (hleaf : leaf ∈ leaves tree) := mem_tablesOf hleaf
  have hsize := length_tableList (tablesOf_ne_nil tree)
  constructor
  · rintro ⟨query, hrun, condition, hread, hsame⟩
    obtain ⟨hnamed, -⟩ := named_of_same hread hsame
    have hnames := isName_of_mem_tablesOf fun leaf hleaf ↦ (hnamed leaf hleaf).table
    obtain ⟨hfew, hfits⟩ := listed_of_readQuery h hrun hnames hread
    have hquery := seDbmsQuery_eq h hfew hfits
    rw [hrun] at hquery
    obtain rfl := Option.some.inj (Except.ok.inj hquery)
    have hterms := writable_of_same hfew hwritten hmem hnames hread hsame
    have hpositive : (meaning tree).Positive := by
      by_contra hnot
      rw [readQuery_andNot hfew hnames hwritten hmem hterms hnot] at hread
      cases hread
    obtain ⟨first, rest, hfound, hatoms, hconnectives⟩ :=
      readQuery_positive hfew hnames hwritten hmem hterms hpositive
    rw [hfound] at hread
    cases hread
    exact ⟨hpositive, (Condition.same_read_iff hpositive hatoms hconnectives).mp hsame, hterms, hfew,
      hsize ▸ hfits⟩
  · intro htree
    have hnames := isName_of_mem_tablesOf fun leaf hleaf ↦ (htree.terms leaf hleaf).table
    have hfits : (tableList (tablesOf tree)).length < TABLE_BUFFER := hsize ▸ htree.room
    obtain ⟨first, rest, hread, hatoms, hconnectives⟩ :=
      readQuery_positive htree.letters hnames hwritten hmem htree.terms htree.positive
    refine ⟨queryText (tablesOf tree) tree, seDbmsQuery_eq h htree.letters hfits, _, hread, ?_⟩
    exact (Condition.same_read_iff htree.positive hatoms hconnectives).mpr htree.nested

end Translation

def titleIndex : DbmsIndex := ⟨['b', 'o', 'o', 'k'], ['t', 'i', 't', 'l', 'e'], KEYWORD⟩

def authorIndex : DbmsIndex := ⟨['p', 'e', 'r', 's', 'o', 'n'], ['n', 'a', 'm', 'e'], 0⟩

def yearIndex : DbmsIndex := ⟨['b', 'o', 'o', 'k'], ['y', 'e', 'a', 'r'], INTEGER_KEY⟩

/-- The indexes by their USE attributes. -/
def bookIndexes : DbmsIndexes where
  cfGetidxEntry := fun _ ↦ none
  cfGetidxMapattr := fun attributes ↦
    if attributes.nums USE_ATTR = 4 then some titleIndex
    else if attributes.nums USE_ATTR = 1003 then some authorIndex
    else if attributes.nums USE_ATTR = 31 then some yearIndex
    else none
  allIndexes := []

def bookTerm (use relation : ℤ) (data : List Char) : RpnStructure DbmsOperand :=
  .leaf (.attrTerm ⟨[⟨none, USE_ATTR, .numeric use⟩, ⟨none, RELATION_ATTR, .numeric relation⟩],
    .general data⟩)

/-- A title and a year, or an author. -/
def titleYearAuthor : RpnStructure DbmsOperand :=
  .node .or (.node .and (bookTerm 4 3 ['c', 'a', 't']) (bookTerm 31 5 ['1', '9', '9', '0']))
    (bookTerm 1003 3 ['K', 'i', 'm'])

theorem seDbmsQuery_titleYearAuthor : ∃ query,
    seDbmsQuery bookIndexes (some titleYearAuthor) = .ok (some query) ∧
      ∃ condition, readQuery query = some condition ∧
        condition.Same (.or (.and
          (.comparison ⟨['b', 'o', 'o', 'k'], ['t', 'i', 't', 'l', 'e'], .like,
            .text ['%', 'c', 'a', 't', '%']⟩)
          (.comparison ⟨['b', 'o', 'o', 'k'], ['y', 'e', 'a', 'r'], .gt, .number ['1', '9', '9', '0']⟩))
          (.comparison ⟨['p', 'e', 'r', 's', 'o', 'n'], ['n', 'a', 'm', 'e'], .eq,
            .text ['K', 'i', 'm']⟩)) := by
  have htree : leavesOf bookIndexes titleYearAuthor = some (.node .or
      (.node .and (.leaf ⟨titleIndex, 3, ['c', 'a', 't']⟩) (.leaf ⟨yearIndex, 5, ['1', '9', '9', '0']⟩))
      (.leaf ⟨authorIndex, 3, ['K', 'i', 'm']⟩)) := rfl
  refine (seDbmsQuery_meaning_iff htree).mpr ⟨?_, ?_, ?_, by decide, by decide⟩
  · exact ⟨⟨trivial, trivial⟩, trivial⟩
  · exact ⟨⟨trivial, trivial⟩, trivial⟩
  · intro leaf hleaf
    change leaf ∈ [_, _, _] at hleaf
    simp only [List.mem_cons, List.not_mem_nil, or_false] at hleaf
    rcases hleaf with rfl | rfl | rfl
    · exact ⟨by decide, by decide, by decide, by decide⟩
    · exact ⟨by decide, by decide, by decide, by decide⟩
    · exact ⟨by decide, by decide, by decide, by decide⟩

/-- The title or the author, and in any case the year. -/
def titleOrAuthorYear : RpnStructure DbmsOperand :=
  .node .and (.node .or (bookTerm 4 3 ['c', 'a', 't']) (bookTerm 1003 3 ['K', 'i', 'm']))
    (bookTerm 31 5 ['1', '9', '9', '0'])

def titleOrAuthorYearQuery : List Char :=
  "SELECT * FROM book A, person B WHERE ".toList ++
    "A.title like '%cat%' OR B.name = 'Kim' AND A.year > 1990 ".toList

/-- The year is only asked of the author. -/
theorem seDbmsQuery_titleOrAuthorYear : ¬∀ query,
    seDbmsQuery bookIndexes (some titleOrAuthorYear) = .ok (some query) →
      ∃ condition, readQuery query = some condition ∧
        condition.Same (.and (.or
          (.comparison ⟨['b', 'o', 'o', 'k'], ['t', 'i', 't', 'l', 'e'], .like,
            .text ['%', 'c', 'a', 't', '%']⟩)
          (.comparison ⟨['p', 'e', 'r', 's', 'o', 'n'], ['n', 'a', 'm', 'e'], .eq,
            .text ['K', 'i', 'm']⟩))
          (.comparison ⟨['b', 'o', 'o', 'k'], ['y', 'e', 'a', 'r'], .gt,
            .number ['1', '9', '9', '0']⟩)) := by
  intro hall
  have hrun : seDbmsQuery bookIndexes (some titleOrAuthorYear) = .ok (some titleOrAuthorYearQuery) := by
    decide +kernel
  obtain ⟨condition, hread, hsame⟩ := hall _ hrun
  have hparse : (readQuery titleOrAuthorYearQuery).map
      (fun condition ↦ condition.holds [true, false, false]) = some true := by
    decide +kernel
  rw [hread] at hparse
  have hvalue := hsame.holds [true, false, false] rfl
  cases hvalue.symm.trans (Option.some.inj hparse)

end Cheshire.Search
