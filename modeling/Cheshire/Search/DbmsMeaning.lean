import Cheshire.Search.DbmsText

/-!
# The meaning of a translated query

A leaf is the comparison of its column with its term, and a tree is the combination of its leaves.  The
text that is written for a tree has the tokens of its leaves with those of the operators between them, as
long as the terms need no quotes to be doubled.
-/

namespace Cheshire.Search

open Lib Lib.Sql Index

def relatComparator (relation : ℤ) : Comparator :=
  if relation = 1 then .lt
  else if relation = 2 then .le
  else if relation = 4 then .ge
  else if relation = 5 then .gt
  else if relation = NEQ then .ne
  else .eq

/-- The text that a column is compared with. -/
def quotedText (leaf : DbmsLeaf) (data : List Char) : List Char :=
  if isLike leaf.idx.idxType leaf.relation then '%' :: (data ++ ['%']) else data

/-- A column and its term. -/
def leafComparison (leaf : DbmsLeaf) : Comparison where
  table := leaf.idx.name
  column := leaf.idx.tag
  comparator :=
    if isLike leaf.idx.idxType leaf.relation then .like else relatComparator leaf.relation
  literal :=
    if isNumberColumn leaf.idx.idxType then .number leaf.data else .text (quotedText leaf leaf.data)

/-- What a tree asks for; a query that is written has no proximity. -/
def meaning : RpnStructure DbmsLeaf → Condition Comparison
  | .leaf operand => .comparison (leafComparison operand)
  | .node .and left right => .and (meaning left) (meaning right)
  | .node .or left right => .or (meaning left) (meaning right)
  | .node .andNot left right => .and (meaning left) (.not (meaning right))
  | .node (.prox _) left right => .and (meaning left) (meaning right)

/-- The operators have a text. -/
def Written : RpnStructure DbmsLeaf → Prop
  | .leaf _ => True
  | .node operator left right => (operatorText operator).isSome = true ∧ Written left ∧ Written right

/-- A leaf that stands for itself: its names are words, a number is a numeral, and a text has no quote in
it and no character that ends it. -/
structure Writable (leaf : DbmsLeaf) : Prop where
  table : isName leaf.idx.name = true
  column : isName leaf.idx.tag = true
  number : isNumberColumn leaf.idx.idxType = true → isNumeral leaf.data = true
  text : isNumberColumn leaf.idx.idxType = false → quote ∉ leaf.data ∧ NUL ∉ leaf.data

variable {tree : RpnStructure DbmsLeaf}

theorem written_of_leavesOf {indexes : DbmsIndexes} {rpn : RpnStructure DbmsOperand}
    (h : leavesOf indexes rpn = some tree) : Written tree := by
  induction rpn generalizing tree with
  | leaf oper =>
    cases oper with
    | resultSet => cases h
    | resultAttr => cases h
    | attrTerm attrTerm =>
      obtain ⟨leaf, -, rfl⟩ := Option.map_eq_some_iff.mp h
      trivial
  | node operator rpn1 rpn2 ihleft ihright =>
    obtain ⟨text, left, right, htext, hleft, hright, rfl⟩ := leavesOf_node h
    exact ⟨by rw [htext]; rfl, ihleft hleft, ihright hright⟩

theorem atoms_meaning (tree : RpnStructure DbmsLeaf) :
    (meaning tree).atoms = (leaves tree).map leafComparison := by
  induction tree with
  | leaf operand => rfl
  | node operator left right ihleft ihright =>
    rw [leaves, List.map_append, ← ihleft, ← ihright]
    cases operator <;> rfl

/-- The comparison with the name that the table has in the query. -/
def leafAlias (names : List (List Char)) (leaf : DbmsLeaf) : Comparison :=
  { leafComparison leaf with table := [letterOf names leaf.idx.name] }

def comparatorText (leaf : DbmsLeaf) : List Char :=
  if isLike leaf.idx.idxType leaf.relation then [' ', 'l', 'i', 'k', 'e', ' ']
  else ' ' :: (relatVal leaf.relation ++ [' '])

def literalText (leaf : DbmsLeaf) : List Char :=
  if isNumberColumn leaf.idx.idxType then cText leaf.data
  else quote :: (quotedText leaf (cText leaf.data) ++ [quote])

theorem isLike_eq_false {idxType : ℕ} (h : isNumberColumn idxType = true) (relation : ℤ) :
    isLike idxType relation = false := by
  rw [isNumberColumn, Bool.and_eq_true] at h
  have hkeyword : hasFlag idxType KEYWORD = false := by simpa using h.1
  rw [isLike, hkeyword, Bool.false_and]

theorem leafText_eq (names : List (List Char)) (leaf : DbmsLeaf) :
    leafText names leaf =
      letterOf names leaf.idx.name :: '.' ::
        (leaf.idx.tag ++ (comparatorText leaf ++ literalText leaf)) := by
  rw [leafText, termText, comparatorText, literalText, quotedText]
  by_cases hlike : isLike leaf.idx.idxType leaf.relation = true
  · have hnumber : ¬isNumberColumn leaf.idx.idxType = true := by
      intro hnumber
      rw [isLike_eq_false hnumber] at hlike
      cases hlike
    rw [if_pos hlike, if_pos hlike, if_pos hlike, if_neg hnumber]
    simp [LIKE_PERCENT]
  · rw [if_neg hlike, if_neg hlike, if_neg hlike]
    by_cases hnumber : isNumberColumn leaf.idx.idxType = true
    · rw [if_pos hnumber, if_pos hnumber]
      simp
    · rw [if_neg hnumber, if_neg hnumber]
      simp

theorem cText_eq_self {data : List Char} (h : NUL ∉ data) : cText data = data := by
  rw [cText, List.takeWhile_eq_self_iff]
  intro c hc
  exact decide_eq_true fun heq ↦ h (heq ▸ hc)

theorem nul_notMem_cText (data : List Char) : NUL ∉ cText data := by
  intro hmem
  have hne := List.mem_takeWhile_imp hmem
  simp at hne

variable {c : Char}

theorem notMem_of_isWordChar {text : List Char} (h : text.all isWordChar = true)
    (hc : isWordChar c = false) : c ∉ text := by
  intro hmem
  have hword := List.all_eq_true.mp h c hmem
  rw [hc] at hword
  cases hword

variable {name : List Char}

theorem notMem_of_isName (h : isName name = true) (hc : isWordChar c = false) : c ∉ name := by
  obtain ⟨first, text, rfl, -, hall, -⟩ := isName_cons h
  exact notMem_of_isWordChar hall hc

theorem notMem_of_isNumeral {numeral : List Char} (h : isNumeral numeral = true)
    (hc : isNumeralChar c = false) : c ∉ numeral := by
  rw [isNumeral, Bool.and_eq_true, Bool.and_eq_true] at h
  intro hmem
  have hnumeral := List.all_eq_true.mp h.1.2 c hmem
  rw [hc] at hnumeral
  cases hnumeral

variable {leaf : DbmsLeaf}

theorem mem_quotedText_iff {data : List Char} (hc : c ≠ '%') :
    c ∈ quotedText leaf data ↔ c ∈ data := by
  rw [quotedText]
  split
  · simp [hc]
  · rfl

theorem isName_letterAt : ∀ i < 26, isName [letterAt i] = true := by decide

variable {names : List (List Char)}

theorem isName_letterOf (hfew : names.length ≤ 26)
    (hmem : name ∈ names) : isName [letterOf names name] = true :=
  isName_letterAt _ (lt_of_lt_of_le (List.idxOf_lt_length_of_mem hmem) hfew)

theorem lexes_dot (h : isName name = true) (rest : List Char) :
    Lexes ('.' :: (name ++ rest)) [.dot] (name ++ rest) := by
  obtain ⟨c, text, rfl, halpha, -, -⟩ := isName_cons h
  have hdigit : c.isDigit = false := by
    cases hdigit : c.isDigit with
    | false => rfl
    | true =>
      have hstarts : startsNumeral (c :: text) = true := by
        rw [startsNumeral, hdigit]
        rfl
      rw [isAlpha_eq_false_of_startsNumeral hstarts] at halpha
      cases halpha
  have hstarts : startsNumeral ('.' :: (c :: text ++ rest)) = false := by
    simp [startsNumeral, hdigit]
  have halphaDot : ('.' : Char).isAlpha = false := by decide
  have hquote : ('.' : Char) ≠ quote := by decide
  apply lexes_of_lexOne (by decide)
  rw [lexOne, halphaDot, hstarts]
  simp only [Bool.false_eq_true, if_false, if_neg hquote]
  rfl

theorem lexes_relatVal (relation : ℤ) (rest : List Char) :
    Lexes (' ' :: (relatVal relation ++ ' ' :: rest)) [.compare (relatComparator relation)] rest := by
  have hone : ∃ c text, relatVal relation ++ ' ' :: rest = c :: text ∧ c.isWhitespace = false ∧
      lexOne (c :: text) = some (.compare (relatComparator relation), ' ' :: rest) := by
    unfold relatVal relatComparator
    split_ifs
    · exact ⟨'<', ' ' :: rest, rfl, by decide, rfl⟩
    · exact ⟨'<', '=' :: ' ' :: rest, rfl, by decide, rfl⟩
    · exact ⟨'>', '=' :: ' ' :: rest, rfl, by decide, rfl⟩
    · exact ⟨'>', ' ' :: rest, rfl, by decide, rfl⟩
    · exact ⟨'<', '>' :: ' ' :: rest, rfl, by decide, rfl⟩
    · exact ⟨'=', ' ' :: rest, rfl, by decide, rfl⟩
  obtain ⟨c, text, htext, hblank, hlex⟩ := hone
  have hfirst := lexes_blank (c := ' ') (by decide) (relatVal relation ++ ' ' :: rest)
  rw [htext] at hfirst ⊢
  exact hfirst.trans ((lexes_of_lexOne hblank hlex).trans (lexes_blank (by decide) rest))

theorem lexes_comparatorText (leaf : DbmsLeaf) (rest : List Char) :
    Lexes (comparatorText leaf ++ rest) [comparatorToken (leafComparison leaf).comparator] rest := by
  rw [comparatorText, leafComparison]
  by_cases hlike : isLike leaf.idx.idxType leaf.relation = true
  · simp only [if_pos hlike]
    have hfirst := lexes_blank (c := ' ') (by decide) ('l' :: ['i', 'k', 'e'] ++ ' ' :: rest)
    have hword : Lexes ('l' :: ['i', 'k', 'e'] ++ ' ' :: rest) [.keyword .likeKey] (' ' :: rest) :=
      lexes_word (by decide) (by decide) rfl
    exact hfirst.trans (hword.trans (lexes_blank (by decide) rest))
  · simp only [if_neg hlike]
    have htoken : comparatorToken (relatComparator leaf.relation) =
        .compare (relatComparator leaf.relation) := by
      unfold relatComparator
      split_ifs <;> rfl
    rw [htoken, List.cons_append, List.append_assoc]
    exact lexes_relatVal leaf.relation rest

variable {rest : List Char}

theorem lexes_text {text : List Char} (htext : quote ∉ text) (hrest : rest.head? ≠ some quote) :
    Lexes (quote :: (text ++ quote :: rest)) [.literal (.text text)] rest := by
  have hstarts : startsNumeral (quote :: (text ++ quote :: rest)) = false := rfl
  apply lexes_of_lexOne (by decide)
  rw [lexOne, if_neg (by decide), hstarts, lexText_of_not_mem htext hrest]
  rfl

theorem lexes_names (hfew : names.length ≤ 26) (hmem : leaf.idx.name ∈ names)
    (htag : isName leaf.idx.tag = true) (rest : List Char) :
    Lexes (letterOf names leaf.idx.name :: '.' :: (leaf.idx.tag ++ (comparatorText leaf ++ rest)))
      [.word [letterOf names leaf.idx.name], .dot, .word leaf.idx.tag,
        comparatorToken (leafComparison leaf).comparator] rest := by
  have hletter : Lexes
      ([letterOf names leaf.idx.name] ++ '.' :: (leaf.idx.tag ++ (comparatorText leaf ++ rest)))
      [.word [letterOf names leaf.idx.name]] ('.' :: (leaf.idx.tag ++ (comparatorText leaf ++ rest))) :=
    lexes_name (isName_letterOf hfew hmem) rfl
  have hblank : (comparatorText leaf ++ rest).head?.any isWordChar = false := by
    rw [comparatorText]
    split <;> rfl
  have hcolumn := lexes_name htag hblank
  exact hletter.trans ((lexes_dot htag _).trans (hcolumn.trans (lexes_comparatorText leaf rest)))

theorem lexes_literalText (h : Writable leaf) (hrest : rest.head? = some ' ') :
    Lexes (literalText leaf ++ rest) [.literal (leafComparison leaf).literal] rest := by
  rw [literalText, leafComparison]
  by_cases hnumber : isNumberColumn leaf.idx.idxType = true
  · simp only [if_pos hnumber]
    have hnumeral := h.number hnumber
    rw [cText_eq_self (notMem_of_isNumeral hnumeral (by decide))]
    apply lexes_number hnumeral
    rw [hrest]
    rfl
  · simp only [if_neg hnumber]
    obtain ⟨hquote, hnul⟩ := h.text (Bool.not_eq_true _ ▸ hnumber)
    have hclosed : rest.head? ≠ some quote := by
      rw [hrest]
      decide
    rw [cText_eq_self hnul, List.cons_append, List.append_assoc]
    apply lexes_text _ hclosed
    rwa [mem_quotedText_iff (by decide)]

theorem lexes_leafText (hfew : names.length ≤ 26) (hmem : leaf.idx.name ∈ names) (h : Writable leaf)
    (hrest : rest.head? = some ' ') :
    Lexes (leafText names leaf ++ rest) (comparisonTokens (leafAlias names leaf)) rest := by
  have hnames := lexes_names hfew hmem h.column (literalText leaf ++ rest)
  have hall := hnames.trans (lexes_literalText h hrest)
  rw [leafText_eq]
  simpa [comparisonTokens, leafAlias, leafComparison] using hall

def operatorToken : RpnOperator → Token
  | .and => .keyword .andKey
  | .or => .keyword .orKey
  | .andNot => .keyword .notKey
  | .prox _ => .keyword .notKey

def treeTokens (names : List (List Char)) : RpnStructure DbmsLeaf → List Token
  | .leaf operand => comparisonTokens (leafAlias names operand)
  | .node operator left right =>
    treeTokens names left ++ operatorToken operator :: treeTokens names right

theorem lexes_keyword {c : Char} {word : List Char} {keyword : Keyword} (halpha : c.isAlpha = true)
    (hall : (c :: word).all isWordChar = true) (hkeyword : wordToken (c :: word) = .keyword keyword)
    (rest : List Char) : Lexes (' ' :: (c :: word ++ ' ' :: rest)) [.keyword keyword] rest := by
  have hword : Lexes (c :: word ++ ' ' :: rest) [wordToken (c :: word)] (' ' :: rest) :=
    lexes_word halpha hall rfl
  rw [hkeyword] at hword
  have hblank : (' ' : Char).isWhitespace = true := by decide
  exact (lexes_blank hblank _).trans (hword.trans (lexes_blank hblank rest))

theorem lexes_operatorText {operator : RpnOperator} (h : (operatorText operator).isSome = true)
    (rest : List Char) :
    Lexes ((operatorText operator).getD [] ++ rest) [operatorToken operator] rest := by
  cases operator with
  | and => exact @lexes_keyword 'A' ['N', 'D'] _ (by decide) (by decide) rfl rest
  | or => exact @lexes_keyword 'O' ['R'] _ (by decide) (by decide) rfl rest
  | andNot => exact @lexes_keyword 'N' ['O', 'T'] _ (by decide) (by decide) rfl rest
  | prox op => cases h

theorem head?_operatorText {operator : RpnOperator} (h : (operatorText operator).isSome = true)
    (rest : List Char) : ((operatorText operator).getD [] ++ rest).head? = some ' ' := by
  cases operator with
  | and => rfl
  | or => rfl
  | andNot => rfl
  | prox op => cases h

theorem lexes_treeText (hfew : names.length ≤ 26) (hwritten : Written tree)
    (hmem : ∀ leaf ∈ leaves tree, leaf.idx.name ∈ names)
    (hleaves : ∀ leaf ∈ leaves tree, Writable leaf) (hrest : rest.head? = some ' ') :
    Lexes (treeText names tree ++ rest) (treeTokens names tree) rest := by
  induction tree generalizing rest with
  | leaf operand =>
    have hself := List.mem_singleton_self operand
    exact lexes_leafText hfew (hmem operand hself) (hleaves operand hself) hrest
  | node operator left right ihleft ihright =>
    obtain ⟨hoperator, hleft, hright⟩ := hwritten
    obtain ⟨hmemLeft, hmemRight⟩ := List.forall_mem_append.mp hmem
    obtain ⟨hleavesLeft, hleavesRight⟩ := List.forall_mem_append.mp hleaves
    have hfirst := ihleft hleft hmemLeft hleavesLeft
      (head?_operatorText hoperator (treeText names right ++ rest))
    have hsecond := ihright hright hmemRight hleavesRight hrest
    rw [treeText, List.append_assoc, List.append_assoc]
    exact hfirst.trans ((lexes_operatorText hoperator _).trans hsecond)

/-- What must hold of a leaf for its tokens to be found. -/
structure Named (leaf : DbmsLeaf) : Prop where
  table : isName leaf.idx.name = true
  column : isName leaf.idx.tag = true
  number : isNumberColumn leaf.idx.idxType = true → isNumeral leaf.data = true

theorem nul_notMem_leafText (hfew : names.length ≤ 26) (hmem : leaf.idx.name ∈ names)
    (h : Named leaf) : NUL ∉ leafText names leaf := by
  have hletter : letterOf names leaf.idx.name ≠ NUL := by
    have hindex := List.idxOf_lt_length_of_mem hmem
    exact letterAt_ne (by omega) (by decide)
  have htag : NUL ∉ leaf.idx.tag := notMem_of_isName h.column (by decide)
  have hdot : NUL ≠ '.' := by decide
  have hquote : NUL ≠ quote := by decide
  have hcomparator : NUL ∉ comparatorText leaf := by
    unfold comparatorText relatVal
    split_ifs <;> decide
  have hliteral : NUL ∉ literalText leaf := by
    rw [literalText]
    split
    · exact nul_notMem_cText leaf.data
    · rw [List.mem_cons, List.mem_append, mem_quotedText_iff (by decide), List.mem_singleton]
      simp [hquote, nul_notMem_cText]
  rw [leafText_eq]
  simp [hletter.symm, htag, hdot, hcomparator, hliteral]

theorem nul_notMem_operatorText (operator : RpnOperator) : NUL ∉ (operatorText operator).getD [] := by
  cases operator with
  | and => decide
  | or => decide
  | andNot => decide
  | prox op => exact List.not_mem_nil

theorem nul_notMem_treeText (hfew : names.length ≤ 26)
    (hmem : ∀ leaf ∈ leaves tree, leaf.idx.name ∈ names)
    (h : ∀ leaf ∈ leaves tree, Named leaf) : NUL ∉ treeText names tree := by
  induction tree with
  | leaf operand =>
    have hself := List.mem_singleton_self operand
    exact nul_notMem_leafText hfew (hmem operand hself) (h operand hself)
  | node operator left right ihleft ihright =>
    obtain ⟨hmemLeft, hmemRight⟩ := List.forall_mem_append.mp hmem
    obtain ⟨hleft, hright⟩ := List.forall_mem_append.mp h
    rw [treeText, List.mem_append, List.mem_append]
    simp [ihleft hmemLeft hleft, ihright hmemRight hright, nul_notMem_operatorText]

theorem startsNumeral_quote (rest : List Char) : startsNumeral (quote :: rest) = false := rfl

theorem writable_of_lex_leafText (hfew : names.length ≤ 26) (hmem : leaf.idx.name ∈ names)
    (h : Named leaf) (hrest : rest.head? = some ' ') (hnul : NUL ∉ rest) {tokens : List Token}
    (hlex : lex (leafText names leaf ++ rest) = some tokens) {more : List Literal}
    (hliterals : literals tokens = (leafComparison leaf).literal :: more) : Writable leaf := by
  refine ⟨h.table, h.column, h.number, ?_⟩
  intro hnumber
  have hnumber' : ¬isNumberColumn leaf.idx.idxType = true := by
    rw [hnumber]
    exact Bool.false_ne_true
  have hnames := lexes_names hfew hmem h.column (literalText leaf ++ rest)
  have htext : leafText names leaf ++ rest = letterOf names leaf.idx.name :: '.' ::
      (leaf.idx.tag ++ (comparatorText leaf ++ (literalText leaf ++ rest))) := by
    rw [leafText_eq]
    simp
  rw [htext, hnames, literalText, if_neg hnumber'] at hlex
  obtain ⟨behind, hbehind, rfl⟩ := Option.map_eq_some_iff.mp hlex
  have hhead : literals [.word [letterOf names leaf.idx.name], .dot, .word leaf.idx.tag,
      comparatorToken (leafComparison leaf).comparator] = [] := by
    cases (leafComparison leaf).comparator <;> rfl
  rw [literals_append, hhead, List.nil_append] at hliterals
  rw [List.cons_append, List.append_assoc, List.singleton_append, lex_token (by decide), lexOne,
    if_neg (by decide), startsNumeral_quote, if_neg Bool.false_ne_true, if_pos rfl] at hbehind
  obtain ⟨found, hfound, hbehind⟩ := Option.bind_eq_some_iff.mp hbehind
  obtain ⟨read, hread, rfl⟩ := Option.map_eq_some_iff.mp hfound
  obtain ⟨others, -, rfl⟩ := Option.map_eq_some_iff.mp hbehind
  have hvalue : read.1 = quotedText leaf leaf.data := by
    rw [leafComparison] at hliterals
    simp only [if_neg hnumber'] at hliterals
    exact Literal.text.inj (List.cons.inj hliterals).1
  have hread' : lexText (quotedText leaf (cText leaf.data) ++ quote :: rest) =
      some (quotedText leaf leaf.data, read.2) := by rw [hread, ← hvalue]
  have hopen : rest.head? ≠ some quote := by
    rw [hrest]
    decide
  have hwhole : NUL ∉ leaf.data := by
    intro hmemNul
    have hin := mem_of_lexText hread' NUL ((mem_quotedText_iff (by decide)).mpr hmemNul)
    rw [List.mem_append, List.mem_cons, mem_quotedText_iff (by decide)] at hin
    rcases hin with hcut | hquote | hlater
    · exact nul_notMem_cText _ hcut
    · revert hquote
      decide
    · exact hnul hlater
  rw [cText_eq_self hwhole] at hread'
  refine ⟨?_, hwhole⟩
  exact fun hmemQuote ↦ quote_notMem_of_lexText hopen hread'
    ((mem_quotedText_iff (by decide)).mpr hmemQuote)

theorem literals_operatorToken (operator : RpnOperator) : literals [operatorToken operator] = [] := by
  cases operator <;> rfl

theorem literals_treeTokens (names : List (List Char)) (tree : RpnStructure DbmsLeaf) :
    literals (treeTokens names tree) = (meaning tree).atoms.map Comparison.literal := by
  induction tree with
  | leaf operand =>
    change literals (comparisonTokens (leafAlias names operand)) = [(leafComparison operand).literal]
    rw [comparisonTokens]
    cases (leafAlias names operand).comparator <;> rfl
  | node operator left right ihleft ihright =>
    rw [treeTokens, ← List.singleton_append, literals_append, literals_append, literals_operatorToken,
      ihleft, ihright, atoms_meaning, atoms_meaning, atoms_meaning, leaves, List.map_append,
      List.map_append]
    rfl

theorem writable_of_lex_treeText (hfew : names.length ≤ 26) (hwritten : Written tree)
    (hmem : ∀ leaf ∈ leaves tree, leaf.idx.name ∈ names) (h : ∀ leaf ∈ leaves tree, Named leaf)
    (hrest : rest.head? = some ' ') (hnul : NUL ∉ rest) {tokens : List Token}
    (hlex : lex (treeText names tree ++ rest) = some tokens) {more : List Literal}
    (hliterals : literals tokens = (meaning tree).atoms.map Comparison.literal ++ more) :
    ∀ leaf ∈ leaves tree, Writable leaf := by
  induction tree generalizing rest tokens more with
  | leaf operand =>
    have hself := List.mem_singleton_self operand
    intro leaf hleaf
    obtain rfl := List.mem_singleton.mp hleaf
    exact writable_of_lex_leafText hfew (hmem leaf hself) (h leaf hself) hrest hnul hlex hliterals
  | node operator left right ihleft ihright =>
    obtain ⟨hoperator, hleft, hright⟩ := hwritten
    obtain ⟨hmemLeft, hmemRight⟩ := List.forall_mem_append.mp hmem
    obtain ⟨hnamedLeft, hnamedRight⟩ := List.forall_mem_append.mp h
    have hbehind : ((operatorText operator).getD [] ++ (treeText names right ++ rest)).head? = some ' ' :=
      head?_operatorText hoperator _
    have hnulBehind : NUL ∉ (operatorText operator).getD [] ++ (treeText names right ++ rest) := by
      have htree := nul_notMem_treeText hfew hmemRight hnamedRight
      simp [htree, hnul, nul_notMem_operatorText]
    rw [treeText, List.append_assoc, List.append_assoc] at hlex
    rw [atoms_meaning, leaves, List.map_append, List.map_append, ← atoms_meaning, ← atoms_meaning,
      List.append_assoc] at hliterals
    have hfirst := ihleft hleft hmemLeft hnamedLeft hbehind hnulBehind hlex hliterals
    -- the tokens of the left part are those of its leaves
    have hall := (lexes_treeText hfew hleft hmemLeft hfirst hbehind).trans
      (lexes_operatorText hoperator (treeText names right ++ rest))
    rw [hall] at hlex
    obtain ⟨behind, hbehindLex, rfl⟩ := Option.map_eq_some_iff.mp hlex
    rw [literals_append, literals_append, literals_treeTokens, literals_operatorToken, List.append_nil]
      at hliterals
    have hmore := List.append_cancel_left hliterals
    have hsecond := ihright hright hmemRight hnamedRight hrest hnul hbehindLex hmore
    exact List.forall_mem_append.mpr ⟨hfirst, hsecond⟩

end Cheshire.Search
