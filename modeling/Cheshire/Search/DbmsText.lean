import Cheshire.Search.DbmsQuery

/-!
# The text of a translated query

The tables are listed in the order in which they are met, with the letters from `A` on, as long as the
list fits into its block.  The conditions are those of the terms with the operators between them.
-/

namespace Cheshire.Search

open Lib Index

structure DbmsLeaf where
  idx : DbmsIndex
  relation : ℤ
  data : List Char

/-- The leaf of a term that is written. -/
def leafOf (indexes : DbmsIndexes) (attrPlusTerm : AttributesPlusTerm) : Option DbmsLeaf :=
  match readAttributes attrPlusTerm.attributes DbmsAttributes.none with
  | .ok (some attributes) =>
    match findIndex indexes attributes, attrPlusTerm.term with
    | .ok (some idx), .general data => some ⟨idx, attributes.nums RELATION_ATTR, data⟩
    | _, _ => none
  | _ => none

/-- The query with the leaves of its terms, if all of it can be written. -/
def leavesOf (indexes : DbmsIndexes) :
    RpnStructure DbmsOperand → Option (RpnStructure DbmsLeaf)
  | .leaf (.attrTerm attrTerm) => (leafOf indexes attrTerm).map .leaf
  | .leaf _ => none
  | .node operator rpn1 rpn2 =>
    match operatorText operator, leavesOf indexes rpn1, leavesOf indexes rpn2 with
    | some _, some left, some right => some (.node operator left right)
    | _, _, _ => none

def leaves : RpnStructure DbmsLeaf → List DbmsLeaf
  | .leaf operand => [operand]
  | .node _ left right => leaves left ++ leaves right

/-- A table is put at the end unless it is there. -/
def addTable (names : List (List Char)) (name : List Char) : List (List Char) :=
  if name ∈ names then names else names ++ [name]

/-- The tables of leaves, each of them once. -/
def tablesFrom (names : List (List Char)) (terms : List DbmsLeaf) : List (List Char) :=
  terms.foldl (fun names leaf ↦ addTable names leaf.idx.name) names

def letterAt (i : ℕ) : Char := Char.ofNat (65 + i)

def letterOf (names : List (List Char)) (name : List Char) : Char := letterAt (names.idxOf name)

def tableEntries (names : List (List Char)) : List (List Char × Char) :=
  names.zipIdx.map fun entry ↦ (entry.1, letterAt entry.2)

def entriesText : List (List Char × Char) → List Char
  | [] => []
  | [entry] => entry.1 ++ [' ', entry.2]
  | entry :: entries => entry.1 ++ [' ', entry.2, ',', ' '] ++ entriesText entries

def tableList (names : List (List Char)) : List Char := SELECT_FROM ++ entriesText (tableEntries names)

theorem toNat_letterAt : ∀ i < 27, (letterAt i).toNat = 65 + i := by decide

theorem letterAt_ne {i : ℕ} (hi : i < 27) {c : Char} (hc : c.toNat < 65) : letterAt i ≠ c := by
  rintro rfl
  have hnat := toNat_letterAt i hi
  omega

theorem nextLetter_letterAt : ∀ i < 26, nextLetter (letterAt i) = letterAt (i + 1) := by decide

theorem isPrefix_addTable (names : List (List Char)) (name : List Char) : names <+: addTable names name := by
  rw [addTable]
  split
  · exact List.prefix_refl names
  · exact List.prefix_append _ _

theorem mem_addTable (names : List (List Char)) (name : List Char) : name ∈ addTable names name := by
  rw [addTable]
  split
  · next hmem => exact hmem
  · exact List.mem_append_right _ (List.mem_singleton_self _)

variable {names : List (List Char)} {name : List Char}

theorem mem_addTable_iff {other : List Char} :
    other ∈ addTable names name ↔ other ∈ names ∨ other = name := by
  rw [addTable]
  split
  · next hmem =>
    constructor
    · exact Or.inl
    · rintro (hold | rfl)
      · exact hold
      · exact hmem
  · rw [List.mem_append, List.mem_singleton]

theorem tablesFrom_append (names : List (List Char)) (first second : List DbmsLeaf) :
    tablesFrom names (first ++ second) = tablesFrom (tablesFrom names first) second :=
  List.foldl_append

theorem tablesFrom_prefix (names : List (List Char)) (terms : List DbmsLeaf) :
    names <+: tablesFrom names terms := by
  induction terms generalizing names with
  | nil => exact List.prefix_refl names
  | cons leaf terms ih => exact (isPrefix_addTable names leaf.idx.name).trans (ih _)

theorem mem_tablesFrom_iff {terms : List DbmsLeaf} :
    name ∈ tablesFrom names terms ↔ name ∈ names ∨ ∃ leaf ∈ terms, leaf.idx.name = name := by
  induction terms generalizing names with
  | nil => simp [tablesFrom]
  | cons leaf terms ih =>
    change name ∈ tablesFrom (addTable names leaf.idx.name) terms ↔ _
    have hcomm : name = leaf.idx.name ↔ leaf.idx.name = name := eq_comm
    rw [ih, mem_addTable_iff, or_assoc, hcomm]
    simp only [List.mem_cons, exists_eq_or_imp]

variable {more : List (List Char)}

theorem letterOf_of_prefix (h : names <+: more)
    (hmem : name ∈ names) : letterOf more name = letterOf names name := by
  obtain ⟨rest, rfl⟩ := h
  rw [letterOf, letterOf, List.idxOf_append_of_mem hmem]

theorem tableEntries_append (names : List (List Char)) (name : List Char) :
    tableEntries (names ++ [name]) = tableEntries names ++ [(name, letterAt names.length)] := by
  rw [tableEntries, List.zipIdx_append, List.map_append]
  simp [tableEntries]

theorem entriesText_append {entries : List (List Char × Char)} (hne : entries ≠ [])
    (entry : List Char × Char) :
    entriesText (entries ++ [entry]) =
      entriesText entries ++ [',', ' '] ++ entry.1 ++ [' ', entry.2] := by
  induction entries with
  | nil => exact absurd rfl hne
  | cons first entries ih =>
    cases entries with
    | nil => simp [entriesText]
    | cons second entries =>
      have hih := ih (List.cons_ne_nil _ _)
      change first.1 ++ [' ', first.2, ',', ' '] ++ entriesText (second :: entries ++ [entry]) =
        first.1 ++ [' ', first.2, ',', ' '] ++ entriesText (second :: entries) ++ [',', ' '] ++
          entry.1 ++ [' ', entry.2]
      rw [hih]
      simp only [List.append_assoc]

theorem tableEntries_ne_nil (h : names ≠ []) : tableEntries names ≠ [] := by
  rw [tableEntries]
  simpa using h

theorem lookup_tableEntries (hmem : name ∈ names) :
    (tableEntries names).lookup name = some (letterOf names name) := by
  have hfrom (names : List (List Char)) (start : ℕ) (hmem : name ∈ names) :
      ((names.zipIdx start).map fun entry ↦ (entry.1, letterAt entry.2)).lookup name =
        some (letterAt (start + names.idxOf name)) := by
    induction names generalizing start with
    | nil => cases hmem
    | cons first names ih =>
      rw [List.zipIdx_cons, List.map_cons]
      by_cases heq : name = first
      · subst heq
        simp
      · have hrest := (List.mem_cons.mp hmem).resolve_left heq
        rw [List.lookup_cons, List.idxOf_cons_ne _ (Ne.symm heq)]
        have hbeq : (name == first) = false := beq_eq_false_iff_ne.mpr heq
        simp only [hbeq]
        rw [ih (start + 1) hrest]
        congr 2
        omega
  rw [tableEntries, hfrom names 0 hmem, letterOf, Nat.zero_add]

theorem lookup_tableEntries_eq_none
    (hmem : name ∉ names) : (tableEntries names).lookup name = none := by
  rw [List.lookup_eq_none_iff]
  intro entry hentry
  obtain ⟨pair, hpair, rfl⟩ := List.mem_map.mp hentry
  have hname : pair.1 ∈ names := List.fst_mem_of_mem_zipIdx hpair
  exact bne_iff_ne.mpr fun heq ↦ hmem (heq ▸ hname)

/-- The tables so far, with room for all of them. -/
structure TablesListed (names : List (List Char)) (s : SqlTables) : Prop where
  query : s.query = tableList names
  letters : s.letters = tableEntries names
  nodup : names.Nodup
  few : names.length ≤ 26
  fits : (tableList names).length < TABLE_BUFFER

/-- The state after these tables: they are listed, or there are too many of them for the letters. -/
def TableState (names : List (List Char)) (s : SqlTables) : Prop :=
  TablesListed names s ∨ 26 < names.length ∧ tableList (names.take 27) <+: s.query

theorem listed_zero : TablesListed [] SqlTables.zero where
  query := rfl
  letters := rfl
  nodup := List.nodup_nil
  few := Nat.zero_le _
  fits := by decide

variable {text : List Char}

theorem strcatQuery_eq_ok {query result : List Char} (h : strcatQuery query text = .ok result) :
    result = query ++ text ∧ (query ++ text).length < TABLE_BUFFER := by
  rw [strcatQuery] at h
  split at h
  · next hfits =>
    cases h
    exact ⟨rfl, hfits⟩
  · cases h

theorem strcatQuery_bind {β : Type} (query first second : List Char) (next : List Char → Exec β) :
    (strcatQuery query first >>= fun query ↦ strcatQuery query second >>= next) =
      strcatQuery query (first ++ second) >>= next := by
  rw [strcatQuery, strcatQuery, ← List.append_assoc]
  by_cases hfits : (query ++ first ++ second).length < TABLE_BUFFER
  · have hfirst : (query ++ first).length < TABLE_BUFFER := by
      rw [List.length_append] at hfits
      omega
    rw [if_pos hfits, if_pos hfirst]
    change (strcatQuery (query ++ first) second >>= next) = _
    rw [strcatQuery, if_pos hfits]
  · rw [if_neg hfits]
    split
    · change (strcatQuery (query ++ first) second >>= next) = _
      rw [strcatQuery, if_neg hfits]
    · rfl

theorem tableList_append (hne : names ≠ []) (name : List Char) : tableList (names ++ [name]) =
      tableList names ++ [',', ' '] ++ name ++ [' ', letterAt names.length] := by
  rw [tableList, tableEntries_append, entriesText_append (tableEntries_ne_nil hne), tableList]
  simp only [List.append_assoc]

theorem tableList_singleton (name : List Char) : tableList [name] = SELECT_FROM ++ name ++ [' ', 'A'] := by
  rw [tableList, List.append_assoc]
  rfl

theorem getLast?_tableList (hne : names ≠ []) :
    (tableList names).getLast? = some (letterAt (names.length - 1)) := by
  induction names using List.reverseRecOn with
  | nil => exact absurd rfl hne
  | append_singleton names name ih =>
    rw [List.length_append, List.length_singleton, Nat.add_sub_cancel]
    by_cases hnil : names = []
    · rw [hnil, List.nil_append, tableList_singleton, List.getLast?_append]
      rfl
    · rw [tableList_append hnil, List.getLast?_append]
      rfl

variable {s : SqlTables}

theorem tableLetter_new (h : TablesListed names s) (hnew : name ∉ names) : tableLetter s name =
      if (tableList (names ++ [name])).length < TABLE_BUFFER then
        .ok (⟨tableList (names ++ [name]), tableEntries (names ++ [name])⟩, letterAt names.length)
      else .error .outOfBounds := by
  have hletters := lookup_tableEntries_eq_none hnew
  rw [tableLetter, h.letters, hletters, h.query]
  by_cases hne : names = []
  · subst hne
    have hlast : (tableList []).getLast? = some ' ' := by decide
    rw [hlast]
    simp only [if_true, List.nil_append]
    rw [strcatQuery_bind, strcatQuery, tableList_singleton, List.append_assoc]
    change (if (SELECT_FROM ++ (name ++ [' ', 'A'])).length < TABLE_BUFFER then _ else _) >>= _ = _
    split <;> rfl
  · have hfew := h.few
    have hpos : 0 < names.length := List.length_pos_iff.mpr hne
    have hblank : letterAt (names.length - 1) ≠ ' ' := letterAt_ne (by omega) (by decide)
    have hnext : nextLetter (letterAt (names.length - 1)) = letterAt names.length := by
      rw [nextLetter_letterAt _ (by omega), Nat.sub_add_cancel hpos]
    have hletter : cText [' ', letterAt names.length] = [' ', letterAt names.length] := by
      have hnul : letterAt names.length ≠ NUL := letterAt_ne (by omega) (by decide)
      have hblankNul : (' ' : Char) ≠ NUL := by decide
      simp [cText, hnul, hblankNul]
    rw [getLast?_tableList hne]
    simp only [if_neg hblank, hnext, hletter]
    rw [strcatQuery_bind, strcatQuery_bind, strcatQuery, tableList_append hne, tableEntries_append]
    simp only [List.append_assoc]
    split <;> rfl

theorem tableLetter_old (h : TablesListed names s)
    (hmem : name ∈ names) : tableLetter s name = .ok (s, letterOf names name) := by
  rw [tableLetter, h.letters, lookup_tableEntries hmem]

theorem TablesListed.tableLetter (h : TablesListed names s)
    (hfew : (addTable names name).length ≤ 26)
    (hfits : (tableList (addTable names name)).length < TABLE_BUFFER) :
    ∃ s', Search.tableLetter s name = .ok (s', letterOf (addTable names name) name) ∧
      TablesListed (addTable names name) s' := by
  by_cases hmem : name ∈ names
  · have hsame : addTable names name = names := if_pos hmem
    rw [hsame]
    exact ⟨s, tableLetter_old h hmem, h⟩
  · have hadded : addTable names name = names ++ [name] := if_neg hmem
    rw [hadded] at hfew hfits ⊢
    have hletter : letterOf (names ++ [name]) name = letterAt names.length := by
      rw [letterOf, List.idxOf_append_of_notMem hmem]
      simp
    rw [tableLetter_new h hmem, if_pos hfits, hletter]
    refine ⟨_, rfl, rfl, rfl, ?_, hfew, hfits⟩
    rw [← List.concat_eq_append]
    exact h.nodup.concat hmem

theorem query_prefix_of_tableLetter {s' : SqlTables} {letter : Char}
    (h : tableLetter s name = .ok (s', letter)) : s.query <+: s'.query := by
  rw [tableLetter] at h
  split at h
  · cases h
    exact List.prefix_refl _
  · split at h
    · cases h
    · split at h
      · obtain ⟨first, hfirst, h⟩ := bind_eq_ok.mp h
        obtain ⟨second, hsecond, h⟩ := bind_eq_ok.mp h
        cases h
        rw [(strcatQuery_eq_ok hsecond).1, (strcatQuery_eq_ok hfirst).1, List.append_assoc]
        exact List.prefix_append _ _
      · obtain ⟨first, hfirst, h⟩ := bind_eq_ok.mp h
        obtain ⟨second, hsecond, h⟩ := bind_eq_ok.mp h
        obtain ⟨third, hthird, h⟩ := bind_eq_ok.mp h
        cases h
        rw [(strcatQuery_eq_ok hthird).1, (strcatQuery_eq_ok hsecond).1, (strcatQuery_eq_ok hfirst).1,
          List.append_assoc, List.append_assoc]
        exact List.prefix_append _ _

theorem TableState.tableLetter {s' : SqlTables} (h : TableState names s) {letter : Char}
    (hrun : tableLetter s name = .ok (s', letter)) : TableState (addTable names name) s' := by
  rcases h with hlisted | ⟨hmany, hfront⟩
  · by_cases hmem : name ∈ names
    · have hsame : addTable names name = names := if_pos hmem
      rw [tableLetter_old hlisted hmem] at hrun
      cases hrun
      rw [hsame]
      exact Or.inl hlisted
    · have hadded : addTable names name = names ++ [name] := if_neg hmem
      rw [tableLetter_new hlisted hmem] at hrun
      split at hrun
      · next hfits =>
        cases hrun
        rw [hadded]
        have hfew := hlisted.few
        have hlength : (names ++ [name]).length = names.length + 1 := by simp
        by_cases hroom : (names ++ [name]).length ≤ 26
        · left
          refine ⟨rfl, rfl, ?_, hroom, hfits⟩
          rw [← List.concat_eq_append]
          exact hlisted.nodup.concat hmem
        · right
          refine ⟨not_le.mp hroom, ?_⟩
          rw [List.take_of_length_le (by omega)]
      · cases hrun
  · right
    obtain ⟨rest, hrest⟩ := isPrefix_addTable names name
    rw [← hrest]
    refine ⟨by rw [List.length_append]; omega, ?_⟩
    rw [List.take_append_of_le_length (by omega)]
    exact hfront.trans (query_prefix_of_tableLetter hrun)

theorem isPrefix_tableList (h : names <+: more) : tableList names <+: tableList more := by
  obtain ⟨rest, rfl⟩ := h
  induction rest using List.reverseRecOn with
  | nil =>
    rw [List.append_nil]
  | append_singleton rest name ih =>
    rw [← List.append_assoc]
    by_cases hnil : names ++ rest = []
    · obtain ⟨rfl, rfl⟩ := List.append_eq_nil_iff.mp hnil
      rw [List.nil_append, List.nil_append, tableList_singleton, List.append_assoc]
      exact List.prefix_append _ _
    · rw [tableList_append hnil, List.append_assoc, List.append_assoc]
      exact ih.trans (List.prefix_append _ _)

def leafText (names : List (List Char)) (leaf : DbmsLeaf) : List Char :=
  termText (letterOf names leaf.idx.name) leaf.idx leaf.relation leaf.data

/-- The condition of a query whose tables have these letters. -/
def treeText (names : List (List Char)) : RpnStructure DbmsLeaf → List Char
  | .leaf operand => leafText names operand
  | .node operator left right =>
    treeText names left ++ (operatorText operator).getD [] ++ treeText names right

theorem length_cText_le (data : List Char) : (cText data).length ≤ data.length :=
  (List.takeWhile_sublist _).length_le

theorem length_relatVal_le (relation : ℤ) : (relatVal relation).length ≤ 2 := by
  unfold relatVal
  split_ifs <;> simp

theorem length_termText_lt (letter : Char) (idx : DbmsIndex) (relation : ℤ) (data : List Char) :
    (termText letter idx relation data).length < data.length + 20 + idx.tag.length := by
  have hdata := length_cText_le data
  have hrelation := length_relatVal_le relation
  rw [termText]
  split_ifs
  · simp only [List.length_append, List.length_cons, List.length_nil, LIKE_PERCENT]
    omega
  · simp only [List.length_append, List.length_cons, List.length_nil]
    omega
  · simp only [List.length_append, List.length_cons, List.length_nil]
    omega

section Runs

variable {indexes : DbmsIndexes}

theorem seDbmsTerms_eq {attrPlusTerm : AttributesPlusTerm} {leaf : DbmsLeaf}
    (h : leafOf indexes attrPlusTerm = some leaf) (s : SqlTables) :
    seDbmsTerms indexes attrPlusTerm s =
      tableLetter s leaf.idx.name >>= fun found ↦
        .ok (some (if found.2 = NUL then []
          else termText found.2 leaf.idx leaf.relation leaf.data, found.1)) := by
  rw [leafOf] at h
  split at h
  · next attributes hattributes =>
    split at h
    · next idx data hidx hterm =>
      cases h
      rw [seDbmsTerms, hattributes]
      simp only [bind, Except.bind, hidx]
      cases tableLetter s idx.name with
      | error fault => rfl
      | ok found =>
        simp only [hterm]
        rw [sprintfInto, if_pos (length_termText_lt _ _ _ _)]
    · cases h
  · cases h

theorem wholeQuery_true (result : List Char) (s : SqlTables) :
    wholeQuery true result s = .ok (some (s.query ++ WHERE ++ result ++ [' '],
      { s with query := s.query ++ WHERE ++ result ++ [' '] })) := by
  have hfits : (s.query ++ WHERE ++ result ++ [' ']).length < s.query.length + result.length + 20 := by
    simp only [List.length_append, List.length_cons, List.length_nil, WHERE]
    omega
  rw [wholeQuery, if_pos rfl, sprintfInto, if_pos hfits]
  rfl

theorem seDbmsRpnStructure_none (rpn : RpnStructure DbmsOperand) :
    seDbmsRpnStructure indexes rpn none =
      seDbmsRpnStructure indexes rpn (some SqlTables.zero) >>= fun found ↦
        match found with
        | none => .ok none
        | some found => wholeQuery true found.1 found.2 := by
  cases rpn with
  | leaf oper =>
    cases oper with
    | resultSet => rfl
    | resultAttr => rfl
    | attrTerm attrTerm =>
      simp only [seDbmsRpnStructure, Option.getD_none, Option.getD_some, Option.isNone_none,
        Option.isNone_some, bind, Except.bind]
      cases seDbmsTerms indexes attrTerm SqlTables.zero with
      | error fault => rfl
      | ok found => cases found <;> rfl
  | node operator rpn1 rpn2 =>
    simp only [seDbmsRpnStructure, Option.getD_none, Option.getD_some, Option.isNone_none,
      Option.isNone_some, bind, Except.bind]
    cases seDbmsRpnStructure indexes rpn1 (some SqlTables.zero) with
    | error fault => rfl
    | ok left =>
      cases left with
      | none => rfl
      | some left =>
        simp only
        cases seDbmsRpnStructure indexes rpn2 (some left.2) with
        | error fault => rfl
        | ok right =>
          cases right with
          | none => rfl
          | some right =>
            cases operatorText operator with
            | none => rfl
            | some text =>
              simp only
              cases sprintfInto (left.1.length + right.1.length + 6) (left.1 ++ text ++ right.1) with
              | error fault => rfl
              | ok boolRes => rfl

variable {operator : RpnOperator}

theorem length_operatorText_le (h : operatorText operator = some text) : text.length ≤ 5 := by
  cases operator <;> cases h <;> decide

variable {rpn1 rpn2 : RpnStructure DbmsOperand}

theorem seDbmsRpnStructure_node (htext : operatorText operator = some text)
    {left right : List Char × SqlTables}
    (hleft : seDbmsRpnStructure indexes rpn1 (some s) = .ok (some left))
    (hright : seDbmsRpnStructure indexes rpn2 (some left.2) = .ok (some right)) :
    seDbmsRpnStructure indexes (.node operator rpn1 rpn2) (some s) =
      .ok (some (left.1 ++ text ++ right.1, right.2)) := by
  have hsize := length_operatorText_le htext
  have hfits : (left.1 ++ text ++ right.1).length < left.1.length + right.1.length + 6 := by
    simp only [List.length_append]
    omega
  rw [seDbmsRpnStructure, Option.getD_some, hleft]
  simp only [bind, Except.bind, hright, htext]
  rw [sprintfInto, if_pos hfits]
  rfl

theorem of_seDbmsRpnStructure_node {result : List Char × SqlTables}
    (h : seDbmsRpnStructure indexes (.node operator rpn1 rpn2) (some s) = .ok (some result)) :
    ∃ text left right, operatorText operator = some text ∧
      seDbmsRpnStructure indexes rpn1 (some s) = .ok (some left) ∧
      seDbmsRpnStructure indexes rpn2 (some left.2) = .ok (some right) ∧ right.2 = result.2 := by
  rw [seDbmsRpnStructure, Option.getD_some] at h
  obtain ⟨left, hleft, h⟩ := bind_eq_ok.mp h
  cases left with
  | none => cases h
  | some left =>
    obtain ⟨right, hright, h⟩ := bind_eq_ok.mp h
    cases right with
    | none => cases h
    | some right =>
      cases htext : operatorText operator with
      | none =>
        rw [htext] at h
        cases h
      | some text =>
        rw [htext] at h
        obtain ⟨boolRes, -, h⟩ := bind_eq_ok.mp h
        cases h
        exact ⟨text, left, right, rfl, hleft, hright, rfl⟩

variable {tree : RpnStructure DbmsLeaf}

theorem leavesOf_node (h : leavesOf indexes (.node operator rpn1 rpn2) = some tree) :
    ∃ text left right, operatorText operator = some text ∧ leavesOf indexes rpn1 = some left ∧
      leavesOf indexes rpn2 = some right ∧ tree = .node operator left right := by
  rw [leavesOf] at h
  split at h
  · next text left right htext hleft hright =>
    cases h
    exact ⟨text, left, right, htext, hleft, hright, rfl⟩
  · cases h

theorem exists_leafOf {attrTerm : AttributesPlusTerm} {result : List Char × SqlTables}
    (h : seDbmsTerms indexes attrTerm s = .ok (some result)) :
    ∃ leaf, leafOf indexes attrTerm = some leaf := by
  obtain ⟨attributes, hattributes, h⟩ := bind_eq_ok.mp h
  cases attributes with
  | none => cases h
  | some attributes =>
    obtain ⟨idx, hidx, h⟩ := bind_eq_ok.mp h
    cases idx with
    | none => cases h
    | some idx =>
      obtain ⟨found, -, h⟩ := bind_eq_ok.mp h
      cases hterm : attrTerm.term with
      | general data =>
        exact ⟨⟨idx, attributes.nums RELATION_ATTR, data⟩,
          by simp only [leafOf, hattributes, hidx, hterm]⟩
      | _ => simp only [hterm] at h; cases h

/-- A query is written only if all of its terms have leaves. -/
theorem exists_leavesOf {rpn : RpnStructure DbmsOperand} {result : List Char × SqlTables}
    (h : seDbmsRpnStructure indexes rpn (some s) = .ok (some result)) :
    ∃ tree, leavesOf indexes rpn = some tree := by
  induction rpn generalizing s result with
  | leaf oper =>
    cases oper with
    | resultSet => cases h
    | resultAttr => cases h
    | attrTerm attrTerm =>
      obtain ⟨termResult, hterm, h⟩ := bind_eq_ok.mp h
      cases termResult with
      | none => cases h
      | some termResult =>
        obtain ⟨leaf, hleaf⟩ := exists_leafOf hterm
        exact ⟨_, by rw [leavesOf, hleaf]; rfl⟩
  | node operator rpn1 rpn2 ihleft ihright =>
    obtain ⟨text, left, right, htext, hleft, hright, -⟩ := of_seDbmsRpnStructure_node h
    obtain ⟨first, hfirst⟩ := ihleft hleft
    obtain ⟨second, hsecond⟩ := ihright hright
    exact ⟨_, by rw [leavesOf, htext, hfirst, hsecond]⟩

theorem TableState.rpnStructure {rpn : RpnStructure DbmsOperand}
    (htree : leavesOf indexes rpn = some tree) (h : TableState names s)
    {result : List Char × SqlTables}
    (hrun : seDbmsRpnStructure indexes rpn (some s) = .ok (some result)) :
    TableState (tablesFrom names (leaves tree)) result.2 := by
  induction rpn generalizing tree names s result with
  | leaf oper =>
    cases oper with
    | resultSet => cases hrun
    | resultAttr => cases hrun
    | attrTerm attrTerm =>
      obtain ⟨leaf, hleaf, rfl⟩ := Option.map_eq_some_iff.mp htree
      obtain ⟨termResult, hterm, hrun⟩ := bind_eq_ok.mp hrun
      rw [Option.getD_some, seDbmsTerms_eq hleaf] at hterm
      obtain ⟨found, hfound, hterm⟩ := bind_eq_ok.mp hterm
      cases hterm
      cases hrun
      exact h.tableLetter hfound
  | node operator rpn1 rpn2 ihleft ihright =>
    obtain ⟨-, first, second, -, hfirst, hsecond, rfl⟩ := leavesOf_node htree
    obtain ⟨-, left, right, -, hleft, hright, hstate⟩ := of_seDbmsRpnStructure_node hrun
    rw [leaves, tablesFrom_append, ← hstate]
    exact ihright hsecond (ihleft hfirst h hleft) hright

theorem treeText_of_prefix (h : names <+: more)
    (hmem : ∀ leaf ∈ leaves tree, leaf.idx.name ∈ names) :
    treeText more tree = treeText names tree := by
  induction tree with
  | leaf operand =>
    rw [treeText, treeText, leafText, leafText,
      letterOf_of_prefix h (hmem operand (List.mem_singleton_self _))]
  | node operator left right ihleft ihright =>
    obtain ⟨hleft, hright⟩ := List.forall_mem_append.mp hmem
    rw [treeText, treeText, ihleft hleft, ihright hright]

theorem TablesListed.rpnStructure {rpn : RpnStructure DbmsOperand}
    (htree : leavesOf indexes rpn = some tree) (h : TablesListed names s)
    (hfew : (tablesFrom names (leaves tree)).length ≤ 26)
    (hfits : (tableList (tablesFrom names (leaves tree))).length < TABLE_BUFFER) :
    ∃ s', seDbmsRpnStructure indexes rpn (some s) =
        .ok (some (treeText (tablesFrom names (leaves tree)) tree, s')) ∧
      TablesListed (tablesFrom names (leaves tree)) s' := by
  induction rpn generalizing tree names s with
  | leaf oper =>
    cases oper with
    | resultSet => cases htree
    | resultAttr => cases htree
    | attrTerm attrTerm =>
      obtain ⟨leaf, hleaf, rfl⟩ := Option.map_eq_some_iff.mp htree
      obtain ⟨s', hletter, hlisted⟩ := h.tableLetter hfew hfits
      refine ⟨s', ?_, hlisted⟩
      have hindex : (addTable names leaf.idx.name).idxOf leaf.idx.name <
          (addTable names leaf.idx.name).length := List.idxOf_lt_length_of_mem (mem_addTable _ _)
      have hnul : letterOf (addTable names leaf.idx.name) leaf.idx.name ≠ NUL := by
        have hlength := hlisted.few
        exact letterAt_ne (by omega) (by decide)
      rw [seDbmsRpnStructure, Option.getD_some, seDbmsTerms_eq hleaf, hletter]
      simp only [bind, Except.bind, if_neg hnul]
      rfl
  | node operator rpn1 rpn2 ihleft ihright =>
    obtain ⟨text, first, second, htext, hfirst, hsecond, rfl⟩ := leavesOf_node htree
    rw [leaves, tablesFrom_append] at hfew hfits ⊢
    have hfront := tablesFrom_prefix (tablesFrom names (leaves first)) (leaves second)
    obtain ⟨s1, hleft, hlisted1⟩ := ihleft hfirst h (hfront.length_le.trans hfew)
      (lt_of_le_of_lt (isPrefix_tableList hfront).length_le hfits)
    obtain ⟨s2, hright, hlisted2⟩ := ihright hsecond hlisted1 hfew hfits
    have hsame : treeText (tablesFrom (tablesFrom names (leaves first)) (leaves second)) first =
        treeText (tablesFrom names (leaves first)) first := by
      apply treeText_of_prefix hfront
      intro leaf hleaf
      exact mem_tablesFrom_iff.mpr (Or.inr ⟨leaf, hleaf, rfl⟩)
    refine ⟨s2, ?_, hlisted2⟩
    rw [seDbmsRpnStructure_node htext hleft hright, treeText, htext, hsame]
    rfl

end Runs

end Cheshire.Search
