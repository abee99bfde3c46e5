import Cheshire.Lib.Infix

/-!
# Queries in SQL

The part of SQL that a search condition needs: words, numbers and texts in quotes, in which a quote is
written twice; comparisons of a column with a literal; and AND, OR and NOT with their precedence and with
parentheses.  A query selects from tables that have names of their own in it.
-/

namespace Cheshire.Lib.Sql

inductive Keyword where
  | selectKey
  | fromKey
  | whereKey
  | andKey
  | orKey
  | notKey
  | likeKey
  | otherKey
deriving DecidableEq, Repr

inductive Comparator where
  | lt
  | le
  | eq
  | ge
  | gt
  | ne
  | like
deriving DecidableEq, Repr

inductive Literal where
  | text (value : List Char)
  | number (numeral : List Char)
deriving DecidableEq, Repr

inductive Token where
  | keyword (keyword : Keyword)
  | word (name : List Char)
  | literal (literal : Literal)
  | compare (comparator : Comparator)
  | star
  | comma
  | dot
  | openParen
  | closeParen
deriving DecidableEq, Repr

/-- Words that no query here has a use for. -/
def reserved : List (List Char) :=
  [['a', 'l', 'l'], ['a', 's'], ['b', 'y'], ['g', 'r', 'o', 'u', 'p'], ['h', 'a', 'v', 'i', 'n', 'g'],
    ['i', 'n'], ['i', 'n', 't', 'o'], ['i', 's'], ['j', 'o', 'i', 'n'], ['n', 'u', 'l', 'l'],
    ['o', 'n'], ['o', 'r', 'd', 'e', 'r'], ['s', 'e', 't'], ['t', 'a', 'b', 'l', 'e'],
    ['u', 'n', 'i', 'o', 'n'], ['u', 's', 'e', 'r']]

def keywords : List (List Char × Keyword) :=
  [(['s', 'e', 'l', 'e', 'c', 't'], .selectKey), (['f', 'r', 'o', 'm'], .fromKey),
    (['w', 'h', 'e', 'r', 'e'], .whereKey), (['a', 'n', 'd'], .andKey), (['o', 'r'], .orKey),
    (['n', 'o', 't'], .notKey), (['l', 'i', 'k', 'e'], .likeKey)] ++ reserved.map (·, .otherKey)

/-- A word may be a keyword, in small or in capital letters. -/
def wordToken (name : List Char) : Token :=
  match keywords.lookup (name.map Char.toLower) with
  | some keyword => .keyword keyword
  | none => .word name

def isWordChar (c : Char) : Bool := c.isAlphanum || c = '_'

/-- The name of a table or of a column: a word that is not a keyword. -/
def isName (name : List Char) : Bool :=
  (name.head?.any Char.isAlpha) && name.all isWordChar &&
    (keywords.lookup (name.map Char.toLower)).isNone

def isNumeralChar (c : Char) : Bool :=
  c.isDigit || c = '.' || c = 'e' || c = 'E' || c = '+' || c = '-'

def dropSign : List Char → List Char
  | [] => []
  | c :: rest => if c = '+' ∨ c = '-' then rest else c :: rest

/-- Digits with a point among them, or without one. -/
def isMantissa (text : List Char) : Bool :=
  match text.dropWhile Char.isDigit with
  | [] => text ≠ []
  | point :: fraction => point = '.' ∧ fraction.all Char.isDigit = true ∧ 1 < text.length

/-- A numeral may begin with a sign or with a point. -/
def startsNumeral : List Char → Bool
  | [] => false
  | c :: rest => c.isDigit || c = '+' || c = '-' || (c = '.' && rest.head?.any Char.isDigit)

/-- A sign, a mantissa and an exponent; the sign and the exponent may be missing. -/
def isNumeral (text : List Char) : Bool :=
  let isExponent (c : Char) : Bool := c = 'e' || c = 'E'
  let body := dropSign text
  startsNumeral text && text.all isNumeralChar &&
    match body.dropWhile fun c ↦ ! isExponent c with
    | [] => isMantissa body
    | _ :: exponent =>
      isMantissa (body.takeWhile fun c ↦ ! isExponent c) && dropSign exponent ≠ [] &&
        (dropSign exponent).all Char.isDigit

def quote : Char := Char.ofNat 39

/-- The text up to the closing quote, and what is behind it. -/
def lexText : List Char → Option (List Char × List Char)
  | [] => none
  | c :: rest =>
    if c = quote then
      match rest with
      | [] => some ([], [])
      | d :: behind =>
        if d = quote then (lexText behind).map fun found ↦ (quote :: found.1, found.2)
        else some ([], rest)
    else (lexText rest).map fun found ↦ (c :: found.1, found.2)

def lexSymbol (c : Char) (rest : List Char) : Option (Token × List Char) :=
  if c = '<' then
    if rest.head? = some '=' then some (.compare .le, rest.tail)
    else if rest.head? = some '>' then some (.compare .ne, rest.tail)
    else some (.compare .lt, rest)
  else if c = '>' then
    if rest.head? = some '=' then some (.compare .ge, rest.tail) else some (.compare .gt, rest)
  else if c = '=' then some (.compare .eq, rest)
  else if c = '*' then some (.star, rest)
  else if c = ',' then some (.comma, rest)
  else if c = '.' then some (.dot, rest)
  else if c = '(' then some (.openParen, rest)
  else if c = ')' then some (.closeParen, rest)
  else none

/-- The first token of a text that begins with it. -/
def lexOne : List Char → Option (Token × List Char)
  | [] => none
  | c :: rest =>
    if c.isAlpha then
      some (wordToken ((c :: rest).takeWhile isWordChar), (c :: rest).dropWhile isWordChar)
    else if startsNumeral (c :: rest) then
      if isNumeral ((c :: rest).takeWhile isNumeralChar) then
        some (.literal (.number ((c :: rest).takeWhile isNumeralChar)),
          (c :: rest).dropWhile isNumeralChar)
      else none
    else if c = quote then
      (lexText rest).map fun found ↦ (.literal (.text found.1), found.2)
    else lexSymbol c rest

/-- The tokens of a text of at most so many characters. -/
def lexFrom : ℕ → List Char → Option (List Token)
  | _, [] => some []
  | 0, _ :: _ => none
  | fuel + 1, c :: rest =>
    if c.isWhitespace then lexFrom fuel rest
    else (lexOne (c :: rest)).bind fun found ↦ (lexFrom fuel found.2).map (found.1 :: ·)

def lex (text : List Char) : Option (List Token) := lexFrom text.length text

/-- A column is named with its table. -/
structure Comparison where
  table : List Char
  column : List Char
  comparator : Comparator
  literal : Literal
deriving DecidableEq, Repr

def parseComparison : List Token → Option (Comparison × List Token)
  | .word table :: .dot :: .word column :: .compare comparator :: .literal literal :: rest =>
    some (⟨table, column, comparator, literal⟩, rest)
  | .word table :: .dot :: .word column :: .keyword .likeKey :: .literal (.text value) :: rest =>
    some (⟨table, column, .like, .text value⟩, rest)
  | _ => none

/-- What is to be parsed; where a part of it has been read, that part. -/
inductive Goal where
  | primary
  | factor
  | conjunction
  | conjunctionRest (read : Condition Comparison)
  | disjunction
  | disjunctionRest (read : Condition Comparison)

/-- NOT binds before AND, and AND before OR. -/
def parse : ℕ → Goal → List Token → Option (Condition Comparison × List Token)
  | 0, _, _ => none
  | fuel + 1, .primary, tokens =>
    if tokens.head? = some .openParen then
      match parse fuel .disjunction tokens.tail with
      | some (condition, rest) =>
        if rest.head? = some .closeParen then some (condition, rest.tail) else none
      | none => none
    else (parseComparison tokens).map fun found ↦ (.comparison found.1, found.2)
  | fuel + 1, .factor, tokens =>
    if tokens.head? = some (.keyword .notKey) then
      (parse fuel .primary tokens.tail).map fun found ↦ (.not found.1, found.2)
    else parse fuel .primary tokens
  | fuel + 1, .conjunction, tokens =>
    (parse fuel .factor tokens).bind fun found ↦ parse fuel (.conjunctionRest found.1) found.2
  | fuel + 1, .conjunctionRest read, tokens =>
    if tokens.head? = some (.keyword .andKey) then
      (parse fuel .factor tokens.tail).bind fun found ↦
        parse fuel (.conjunctionRest (.and read found.1)) found.2
    else some (read, tokens)
  | fuel + 1, .disjunction, tokens =>
    (parse fuel .conjunction tokens).bind fun found ↦ parse fuel (.disjunctionRest found.1) found.2
  | fuel + 1, .disjunctionRest read, tokens =>
    if tokens.head? = some (.keyword .orKey) then
      (parse fuel .conjunction tokens.tail).bind fun found ↦
        parse fuel (.disjunctionRest (.or read found.1)) found.2
    else some (read, tokens)

/-- The tables of a query, each with the name that it has there. -/
def parseTables : List Token → Option (List (List Char × List Char) × List Token)
  | .word table :: .word name :: .comma :: rest =>
    (parseTables rest).map fun found ↦ ((name, table) :: found.1, found.2)
  | .word table :: .word name :: rest => some ([(name, table)], rest)
  | _ => none

/-- The comparison with the table itself in place of its name in the query. -/
def resolve (tables : List (List Char × List Char)) (comparison : Comparison) : Option Comparison :=
  (tables.lookup comparison.table).map fun table ↦ { comparison with table := table }

/-- The condition with the tables themselves. -/
def resolveAll (tables : List (List Char × List Char)) :
    Condition Comparison → Option (Condition Comparison)
  | .comparison atom => (resolve tables atom).map .comparison
  | .and left right =>
    (resolveAll tables left).bind fun first ↦ (resolveAll tables right).map fun second ↦
      .and first second
  | .or left right =>
    (resolveAll tables left).bind fun first ↦ (resolveAll tables right).map fun second ↦
      .or first second
  | .not condition => (resolveAll tables condition).map .not

/-- `SELECT * FROM table name, ... WHERE condition` -/
def parseSelect (tokens : List Token) : Option (Condition Comparison) :=
  if tokens.take 3 = [.keyword .selectKey, .star, .keyword .fromKey] then
    match parseTables (tokens.drop 3) with
    | none => none
    | some (tables, rest) =>
      if (tables.map Prod.fst).Nodup ∧ rest.head? = some (.keyword .whereKey) then
        match parse (4 * tokens.length + 4) .disjunction rest.tail with
        | some (condition, []) => resolveAll tables condition
        | _ => none
      else none
  else none

/-- The condition of a query, if it is well formed. -/
def readQuery (text : List Char) : Option (Condition Comparison) := (lex text).bind parseSelect

variable {text value rest : List Char}

theorem length_lexText_le (h : lexText text = some (value, rest)) : rest.length ≤ text.length := by
  fun_induction lexText text generalizing value with
  | case1 => cases h
  | case2 => cases h; exact Nat.zero_le _
  | case3 behind ih =>
    obtain ⟨found, hfound, heq⟩ := Option.map_eq_some_iff.mp h
    cases heq
    have hle := ih hfound
    simp only [List.length_cons]
    omega
  | case4 d behind hd =>
    cases h
    exact Nat.le_succ _
  | case5 c rest' hc ih =>
    obtain ⟨found, hfound, heq⟩ := Option.map_eq_some_iff.mp h
    cases heq
    exact (ih hfound).trans (Nat.le_succ _)

variable {c : Char}

theorem isNumeralChar_of_startsNumeral
    (h : startsNumeral (c :: rest) = true) : isNumeralChar c = true := by
  simp only [startsNumeral, Bool.or_eq_true, Bool.and_eq_true] at h
  simp only [isNumeralChar, Bool.or_eq_true]
  tauto

theorem isWordChar_of_isAlpha (h : c.isAlpha = true) : isWordChar c = true := by
  rw [isWordChar, Char.isAlphanum, h]
  rfl

theorem length_dropWhile_lt {test : Char → Bool} (h : test c = true) (rest : List Char) :
    ((c :: rest).dropWhile test).length < (c :: rest).length := by
  rw [List.dropWhile_cons_of_pos h, List.length_cons, Nat.lt_succ_iff]
  exact (List.dropWhile_sublist test).length_le

variable {behind : List Char} {token : Token}

theorem length_lexSymbol_le
    (h : lexSymbol c rest = some (token, behind)) : behind.length ≤ rest.length := by
  have htail : rest.tail.length ≤ rest.length := by
    rw [List.length_tail]
    exact Nat.sub_le _ _
  unfold lexSymbol at h
  split_ifs at h <;> cases h <;> first | exact le_rfl | exact htail

theorem length_lexOne_lt
    (h : lexOne text = some (token, behind)) : behind.length < text.length := by
  cases text with
  | nil => cases h
  | cons c rest =>
    rw [lexOne] at h
    split_ifs at h with halpha hnumeral hshape hquote
    · cases h
      exact length_dropWhile_lt (isWordChar_of_isAlpha halpha) rest
    · cases h
      exact length_dropWhile_lt (isNumeralChar_of_startsNumeral hnumeral) rest
    · obtain ⟨found, hfound, heq⟩ := Option.map_eq_some_iff.mp h
      cases heq
      exact Nat.lt_succ_of_le (length_lexText_le hfound)
    · exact Nat.lt_succ_of_le (length_lexSymbol_le h)

variable {fuel : ℕ}

theorem lexFrom_eq_lex (h : text.length ≤ fuel) : lexFrom fuel text = lex text := by
  induction fuel using Nat.strong_induction_on generalizing text with
  | h fuel ih =>
    cases text with
    | nil => cases fuel <;> rfl
    | cons c rest =>
      rw [List.length_cons] at h
      obtain ⟨fuel, rfl⟩ : ∃ k, fuel = k + 1 := ⟨fuel - 1, by omega⟩
      have hrest {behind : List Char} (hle : behind.length ≤ rest.length) :
          lexFrom fuel behind = lexFrom rest.length behind := by
        rw [ih fuel (Nat.lt_succ_self _) (by omega)]
        exact (ih rest.length (by omega) hle).symm
      rw [lex, List.length_cons, lexFrom, lexFrom]
      by_cases hblank : c.isWhitespace = true
      · rw [if_pos hblank, if_pos hblank, hrest le_rfl]
      · rw [if_neg hblank, if_neg hblank]
        cases hone : lexOne (c :: rest) with
        | none => rfl
        | some found =>
          have hlt := length_lexOne_lt hone
          rw [List.length_cons] at hlt
          rw [Option.bind_some, Option.bind_some, hrest (Nat.lt_succ_iff.mp hlt)]

@[simp] theorem lex_nil : lex [] = some [] := rfl

theorem lex_blank (h : c.isWhitespace = true) (rest : List Char) : lex (c :: rest) = lex rest := by
  rw [lex, List.length_cons, lexFrom, if_pos h]
  rfl

theorem lex_token (h : c.isWhitespace = false) : lex (c :: rest) =
      (lexOne (c :: rest)).bind fun found ↦ (lex found.2).map (found.1 :: ·) := by
  have hblank : ¬c.isWhitespace = true := by rw [h]; exact Bool.false_ne_true
  rw [lex, List.length_cons, lexFrom, if_neg hblank]
  cases hone : lexOne (c :: rest) with
  | none => rfl
  | some found =>
    have hlt := length_lexOne_lt hone
    rw [List.length_cons] at hlt
    rw [Option.bind_some, Option.bind_some, lexFrom_eq_lex (Nat.lt_succ_iff.mp hlt)]

/-- The text begins with these tokens, and behind them is the rest. -/
def Lexes (text : List Char) (tokens : List Token) (rest : List Char) : Prop :=
  lex text = (lex rest).map (tokens ++ ·)

theorem Lexes.refl (text : List Char) : Lexes text [] text := by
  rw [Lexes]
  cases lex text <;> rfl

theorem Lexes.trans {middle : List Char} {first second : List Token} (h : Lexes text first middle)
    (hnext : Lexes middle second rest) : Lexes text (first ++ second) rest := by
  rw [Lexes] at *
  rw [h, hnext, Option.map_map]
  congr 1
  funext tokens
  exact (List.append_assoc _ _ _).symm

theorem lexes_blank (h : c.isWhitespace = true) (rest : List Char) : Lexes (c :: rest) [] rest := by
  rw [Lexes, lex_blank h]
  exact Lexes.refl rest

theorem lexes_of_lexOne (hblank : c.isWhitespace = false)
    (h : lexOne (c :: text) = some (token, rest)) : Lexes (c :: text) [token] rest := by
  rw [Lexes, lex_token hblank, h]
  rfl

theorem not_isWhitespace_of_isAlpha (h : c.isAlpha = true) : c.isWhitespace = false := by
  cases hblank : c.isWhitespace with
  | false => rfl
  | true =>
    simp only [Char.isWhitespace, Bool.or_eq_true, decide_eq_true_eq] at hblank
    rcases hblank with ((rfl | rfl) | rfl) | rfl <;> revert h <;> decide

theorem not_isWhitespace_of_isNumeralChar (h : isNumeralChar c = true) :
    c.isWhitespace = false := by
  cases hblank : c.isWhitespace with
  | false => rfl
  | true =>
    simp only [Char.isWhitespace, Bool.or_eq_true, decide_eq_true_eq] at hblank
    rcases hblank with ((rfl | rfl) | rfl) | rfl <;> revert h <;> decide

theorem takeWhile_append_of_all {test : Char → Bool} (hall : text.all test = true)
    (hrest : rest.head?.any test = false) :
    (text ++ rest).takeWhile test = text ∧ (text ++ rest).dropWhile test = rest := by
  have hpos : ∀ c ∈ text, test c = true := List.all_eq_true.mp hall
  rw [List.takeWhile_append_of_pos hpos, List.dropWhile_append_of_pos hpos]
  cases rest with
  | nil => exact ⟨List.append_nil _, rfl⟩
  | cons c rest =>
    have hc : ¬test c = true := by simpa using hrest
    rw [List.takeWhile_cons_of_neg hc, List.dropWhile_cons_of_neg hc, List.append_nil]
    exact ⟨rfl, rfl⟩

variable {name : List Char}

theorem lexes_word (halpha : c.isAlpha = true) (hall : (c :: name).all isWordChar = true)
    (hrest : rest.head?.any isWordChar = false) :
    Lexes (c :: name ++ rest) [wordToken (c :: name)] rest := by
  apply lexes_of_lexOne (not_isWhitespace_of_isAlpha halpha)
  obtain ⟨htake, hdrop⟩ := takeWhile_append_of_all hall hrest
  change lexOne (c :: (name ++ rest)) = _
  rw [List.cons_append] at htake hdrop
  rw [lexOne, if_pos halpha, htake, hdrop]

theorem isName_cons (h : isName name = true) :
    ∃ c text, name = c :: text ∧ c.isAlpha = true ∧ (c :: text).all isWordChar = true ∧
      wordToken (c :: text) = .word (c :: text) := by
  rw [isName, Bool.and_eq_true, Bool.and_eq_true] at h
  obtain ⟨⟨hhead, hall⟩, hlookup⟩ := h
  cases name with
  | nil => cases hhead
  | cons c text =>
    refine ⟨c, text, rfl, hhead, hall, ?_⟩
    rw [wordToken, Option.isNone_iff_eq_none.mp hlookup]

theorem lexes_name (h : isName name = true)
    (hrest : rest.head?.any isWordChar = false) : Lexes (name ++ rest) [.word name] rest := by
  obtain ⟨c, text, rfl, halpha, hall, hword⟩ := isName_cons h
  rw [← hword]
  exact lexes_word halpha hall hrest

theorem startsNumeral_append (h : startsNumeral text = true) (rest : List Char) :
    startsNumeral (text ++ rest) = true := by
  cases text with
  | nil => cases h
  | cons c text =>
    cases text with
    | nil =>
      simp only [startsNumeral, List.head?_nil, Option.any_none, Bool.and_false, Bool.or_false] at h
      rw [List.cons_append, startsNumeral, h]
      rfl
    | cons d text => exact h

theorem isAlpha_eq_false_of_startsNumeral
    (h : startsNumeral (c :: rest) = true) : c.isAlpha = false := by
  simp only [startsNumeral, Bool.or_eq_true, Bool.and_eq_true, decide_eq_true_eq] at h
  rcases h with ((hdigit | rfl) | rfl) | ⟨rfl, -⟩
  · cases halpha : c.isAlpha with
    | false => rfl
    | true =>
      simp only [Char.isDigit, Char.isAlpha, Char.isUpper, Char.isLower, Bool.or_eq_true,
        Bool.and_eq_true, decide_eq_true_eq, ge_iff_le, UInt32.le_iff_toNat_le] at hdigit halpha
      have hnine : ('9' : Char).val.toNat = 57 := rfl
      have hupper : ('A' : Char).val.toNat = 65 := rfl
      have hlower : ('a' : Char).val.toNat = 97 := rfl
      omega
  · decide
  · decide
  · decide

theorem lexes_number {numeral : List Char} (h : isNumeral numeral = true)
    (hrest : rest.head?.any isNumeralChar = false) :
    Lexes (numeral ++ rest) [.literal (.number numeral)] rest := by
  have hshape := h
  rw [isNumeral, Bool.and_eq_true, Bool.and_eq_true] at h
  obtain ⟨⟨hstarts, hall⟩, -⟩ := h
  obtain ⟨htake, hdrop⟩ := takeWhile_append_of_all hall hrest
  cases numeral with
  | nil => cases hstarts
  | cons c text =>
    have hstarts' := startsNumeral_append hstarts rest
    rw [List.cons_append] at *
    apply lexes_of_lexOne (not_isWhitespace_of_isNumeralChar (isNumeralChar_of_startsNumeral hstarts))
    rw [lexOne, if_neg (by rw [isAlpha_eq_false_of_startsNumeral hstarts]; exact Bool.false_ne_true),
      if_pos hstarts', htake, hdrop, if_pos hshape]

theorem lexText_of_ne (h : c ≠ quote) (rest : List Char) :
    lexText (c :: rest) = (lexText rest).map fun found ↦ (c :: found.1, found.2) := by
  cases rest with
  | nil => exact if_neg h
  | cons d rest => exact if_neg h

theorem lexText_quote (h : rest.head? ≠ some quote) :
    lexText (quote :: rest) = some ([], rest) := by
  cases rest with
  | nil => rfl
  | cons c rest =>
    have hc : c ≠ quote := fun heq ↦ h (congrArg some heq)
    rw [lexText, if_pos rfl, if_neg hc]

theorem lexText_of_not_mem (htext : quote ∉ text)
    (hrest : rest.head? ≠ some quote) : lexText (text ++ quote :: rest) = some (text, rest) := by
  induction text with
  | nil => exact lexText_quote hrest
  | cons c text ih =>
    rw [List.mem_cons, not_or] at htext
    rw [List.cons_append, lexText_of_ne (Ne.symm htext.1), ih htext.2]
    rfl

theorem mem_of_lexText (h : lexText text = some (value, rest)) : ∀ c ∈ value, c ∈ text := by
  fun_induction lexText text generalizing value with
  | case1 => cases h
  | case2 =>
    cases h
    exact List.forall_mem_nil _
  | case3 behind ih =>
    obtain ⟨found, hfound, heq⟩ := Option.map_eq_some_iff.mp h
    cases heq
    intro c hc
    rcases List.mem_cons.mp hc with rfl | hc
    · exact List.mem_cons_self
    · exact List.mem_cons_of_mem _ (List.mem_cons_of_mem _ (ih hfound c hc))
  | case4 d behind hd =>
    cases h
    exact List.forall_mem_nil _
  | case5 c rest' hc ih =>
    obtain ⟨found, hfound, heq⟩ := Option.map_eq_some_iff.mp h
    cases heq
    intro d hd
    rcases List.mem_cons.mp hd with rfl | hd
    · exact List.mem_cons_self
    · exact List.mem_cons_of_mem _ (ih hfound d hd)

/-- A text as it is written in quotes. -/
def doubled : List Char → List Char
  | [] => []
  | c :: rest => if c = quote then quote :: quote :: doubled rest else c :: doubled rest

theorem eq_doubled_of_lexText (h : lexText text = some (value, rest)) :
    text = doubled value ++ quote :: rest := by
  fun_induction lexText text generalizing value with
  | case1 => cases h
  | case2 =>
    cases h
    rfl
  | case3 behind ih =>
    obtain ⟨found, hfound, heq⟩ := Option.map_eq_some_iff.mp h
    cases heq
    rw [ih hfound]
    rfl
  | case4 d behind hd =>
    cases h
    rfl
  | case5 c rest' hc ih =>
    obtain ⟨found, hfound, heq⟩ := Option.map_eq_some_iff.mp h
    cases heq
    rw [ih hfound, doubled, if_neg hc]
    rfl

theorem doubled_append_ne (hrest : rest.head? ≠ some quote) (count : ℕ) :
    List.replicate (count + 1) quote ++ (doubled text ++ quote :: behind) ≠
      text ++ quote :: rest := by
  induction text generalizing count with
  | nil =>
    intro heq
    rw [List.replicate_succ, List.cons_append, doubled, List.nil_append, List.nil_append,
      List.cons.injEq] at heq
    apply hrest
    rw [← heq.2]
    cases count <;> rfl
  | cons c text ih =>
    intro heq
    rw [List.replicate_succ, List.cons_append, List.cons_append, List.cons.injEq] at heq
    obtain ⟨rfl, heq⟩ := heq
    apply ih (count + 1)
    rw [← heq, doubled, if_pos rfl]
    simp [List.replicate_succ']

theorem quote_notMem_of_lexText (hrest : rest.head? ≠ some quote)
    (h : lexText (text ++ quote :: rest) = some (text, behind)) : quote ∉ text := by
  have heq := eq_doubled_of_lexText h
  clear h
  induction text with
  | nil => exact List.not_mem_nil
  | cons c text ih =>
    rw [doubled, List.cons_append] at heq
    by_cases hc : c = quote
    · rw [if_pos hc, List.cons_append, List.cons_append, List.cons.injEq] at heq
      exact absurd heq.2.symm (doubled_append_ne hrest 0)
    · rw [if_neg hc, List.cons_append, List.cons.injEq] at heq
      rw [List.mem_cons, not_or]
      exact ⟨fun h ↦ hc h.symm, ih heq.2⟩

/-- Words are names, and numbers are numerals. -/
def Token.Valid : Token → Prop
  | .word name => isName name = true
  | .literal (.number numeral) => isNumeral numeral = true
  | _ => True

theorem valid_wordToken (halpha : c.isAlpha = true) :
    (wordToken ((c :: rest).takeWhile isWordChar)).Valid := by
  rw [wordToken]
  cases hlookup : keywords.lookup (((c :: rest).takeWhile isWordChar).map Char.toLower) with
  | some keyword => trivial
  | none =>
    have htake : (c :: rest).takeWhile isWordChar = c :: rest.takeWhile isWordChar :=
      List.takeWhile_cons_of_pos (isWordChar_of_isAlpha halpha)
    change isName _ = true
    rw [isName, hlookup, Bool.and_eq_true, Bool.and_eq_true]
    refine ⟨⟨?_, List.all_takeWhile⟩, rfl⟩
    rw [htake]
    exact halpha

theorem valid_lexSymbol (h : lexSymbol c rest = some (token, behind)) : token.Valid := by
  unfold lexSymbol at h
  split_ifs at h <;> cases h <;> trivial

theorem valid_lexOne (h : lexOne text = some (token, behind)) : token.Valid := by
  cases text with
  | nil => cases h
  | cons c rest =>
    rw [lexOne] at h
    split_ifs at h with halpha hnumeral hshape hquote
    · cases h
      exact valid_wordToken halpha
    · cases h
      exact hshape
    · obtain ⟨found, hfound, heq⟩ := Option.map_eq_some_iff.mp h
      cases heq
      trivial
    · exact valid_lexSymbol h

variable {tokens : List Token}

theorem valid_of_lexFrom (h : lexFrom fuel text = some tokens) : ∀ token ∈ tokens, token.Valid := by
  induction fuel generalizing text tokens with
  | zero =>
    cases text with
    | nil =>
      cases h
      exact List.forall_mem_nil _
    | cons c rest => cases h
  | succ fuel ih =>
    cases text with
    | nil =>
      cases h
      exact List.forall_mem_nil _
    | cons c rest =>
      rw [lexFrom] at h
      split at h
      · exact ih h
      · obtain ⟨found, hone, h⟩ := Option.bind_eq_some_iff.mp h
        obtain ⟨others, hothers, rfl⟩ := Option.map_eq_some_iff.mp h
        exact List.forall_mem_cons.mpr ⟨valid_lexOne hone, ih hothers⟩

def Token.literal? : Token → Option Literal
  | .literal value => some value
  | _ => none

def literals (tokens : List Token) : List Literal := tokens.filterMap Token.literal?

theorem literals_append (first second : List Token) :
    literals (first ++ second) = literals first ++ literals second := List.filterMap_append

/-- A comparison whose names are among the tokens. -/
structure Comparison.NamedIn (comparison : Comparison) (tokens : List Token) : Prop where
  table : .word comparison.table ∈ tokens
  column : .word comparison.column ∈ tokens

variable {comparison : Comparison}

theorem Comparison.NamedIn.mono {more : List Token} (h : comparison.NamedIn tokens)
    (hsubset : tokens ⊆ more) : comparison.NamedIn more :=
  ⟨hsubset h.table, hsubset h.column⟩

/-- What was read of tokens: comparisons that are named there, with the literals in their order. -/
structure Reads (tokens : List Token) (atoms : List Comparison) (rest : List Token) : Prop where
  subset : rest ⊆ tokens
  literals : literals tokens = atoms.map Comparison.literal ++ literals rest
  named : ∀ atom ∈ atoms, atom.NamedIn tokens

theorem Reads.refl (tokens : List Token) : Reads tokens [] tokens :=
  ⟨List.Subset.refl _, rfl, List.forall_mem_nil _⟩

theorem Reads.trans {middle rest : List Token} {first second : List Comparison}
    (h : Reads tokens first middle) (hnext : Reads middle second rest) :
    Reads tokens (first ++ second) rest where
  subset := List.Subset.trans hnext.subset h.subset
  literals := by rw [h.literals, hnext.literals, List.map_append, List.append_assoc]
  named := List.forall_mem_append.mpr ⟨h.named, fun atom hmem ↦ (hnext.named atom hmem).mono h.subset⟩

theorem Reads.skip (htoken : tokens.head? = some token)
    (hliteral : token.literal? = none) : Reads tokens [] tokens.tail := by
  cases tokens with
  | nil => cases htoken
  | cons first tokens =>
    obtain rfl := Option.some.inj htoken
    refine ⟨List.subset_cons_self _ _, ?_, List.forall_mem_nil _⟩
    rw [Sql.literals, List.filterMap_cons, hliteral]
    rfl

theorem reads_of_parseComparison {rest : List Token}
    (h : parseComparison tokens = some (comparison, rest)) : Reads tokens [comparison] rest := by
  unfold parseComparison at h
  split at h
  · cases h
    refine ⟨?_, rfl, ?_⟩
    · intro token hmem
      simp [hmem]
    · exact List.forall_mem_singleton.mpr ⟨by simp, by simp⟩
  · cases h
    refine ⟨?_, rfl, ?_⟩
    · intro token hmem
      simp [hmem]
    · exact List.forall_mem_singleton.mpr ⟨by simp, by simp⟩
  · cases h

/-- The comparisons that have been read before. -/
def Goal.atoms : Goal → List Comparison
  | .conjunctionRest read => read.atoms
  | .disjunctionRest read => read.atoms
  | _ => []

variable {condition : Condition Comparison}

theorem reads_of_parse {goal : Goal} {rest : List Token}
    (h : parse fuel goal tokens = some (condition, rest)) :
    ∃ atoms, condition.atoms = goal.atoms ++ atoms ∧ Reads tokens atoms rest := by
  induction fuel generalizing goal tokens rest condition with
  | zero => cases h
  | succ fuel ih =>
    cases goal with
    | primary =>
      rw [parse] at h
      split at h
      · next hopen =>
        split at h
        · next inner behind hinner =>
          split at h
          · next hclose =>
            cases h
            obtain ⟨atoms, hatoms, hreads⟩ := ih hinner
            have hall := ((Reads.skip hopen rfl).trans hreads).trans (Reads.skip hclose rfl)
            rw [List.nil_append, List.append_nil] at hall
            exact ⟨atoms, hatoms, hall⟩
          · cases h
        · cases h
      · obtain ⟨found, hfound, heq⟩ := Option.map_eq_some_iff.mp h
        cases heq
        exact ⟨[found.1], rfl, reads_of_parseComparison hfound⟩
    | factor =>
      rw [parse] at h
      split at h
      · next hnot =>
        obtain ⟨found, hfound, heq⟩ := Option.map_eq_some_iff.mp h
        cases heq
        obtain ⟨atoms, hatoms, hreads⟩ := ih hfound
        exact ⟨atoms, hatoms, (Reads.skip hnot rfl).trans hreads⟩
      · obtain ⟨atoms, hatoms, hreads⟩ := ih h
        exact ⟨atoms, hatoms, hreads⟩
    | conjunction =>
      rw [parse] at h
      obtain ⟨found, hfound, h⟩ := Option.bind_eq_some_iff.mp h
      obtain ⟨first, hfirst, hreads⟩ := ih hfound
      obtain ⟨second, hsecond, hrest⟩ := ih h
      exact ⟨first ++ second, by rw [hsecond, Goal.atoms, hfirst]; rfl, hreads.trans hrest⟩
    | conjunctionRest read =>
      rw [parse] at h
      split at h
      · next hand =>
        obtain ⟨found, hfound, h⟩ := Option.bind_eq_some_iff.mp h
        obtain ⟨first, hfirst, hreads⟩ := ih hfound
        obtain ⟨second, hsecond, hrest⟩ := ih h
        refine ⟨first ++ second, ?_, ((Reads.skip hand rfl).trans hreads).trans hrest⟩
        rw [hsecond, Goal.atoms, Condition.atoms, hfirst, List.append_assoc]
        rfl
      · cases h
        exact ⟨[], (List.append_nil _).symm, Reads.refl tokens⟩
    | disjunction =>
      rw [parse] at h
      obtain ⟨found, hfound, h⟩ := Option.bind_eq_some_iff.mp h
      obtain ⟨first, hfirst, hreads⟩ := ih hfound
      obtain ⟨second, hsecond, hrest⟩ := ih h
      exact ⟨first ++ second, by rw [hsecond, Goal.atoms, hfirst]; rfl, hreads.trans hrest⟩
    | disjunctionRest read =>
      rw [parse] at h
      split at h
      · next hor =>
        obtain ⟨found, hfound, h⟩ := Option.bind_eq_some_iff.mp h
        obtain ⟨first, hfirst, hreads⟩ := ih hfound
        obtain ⟨second, hsecond, hrest⟩ := ih h
        refine ⟨first ++ second, ?_, ((Reads.skip hor rfl).trans hreads).trans hrest⟩
        rw [hsecond, Goal.atoms, Condition.atoms, hfirst, List.append_assoc]
        rfl
      · cases h
        exact ⟨[], (List.append_nil _).symm, Reads.refl tokens⟩

variable {tables : List (List Char × List Char)}

theorem reads_of_parseTables {rest : List Token} (h : parseTables tokens = some (tables, rest)) :
    Reads tokens [] rest ∧ ∀ table ∈ tables, .word table.2 ∈ tokens := by
  fun_induction parseTables tokens generalizing tables with
  | case1 table name behind ih =>
    obtain ⟨found, hfound, heq⟩ := Option.map_eq_some_iff.mp h
    cases heq
    obtain ⟨hreads, hwords⟩ := ih hfound
    refine ⟨⟨?_, hreads.literals, List.forall_mem_nil _⟩, ?_⟩
    · intro token hmem
      simp [hreads.subset hmem]
    · intro other hother
      rcases List.mem_cons.mp hother with rfl | hother
      · simp
      · simp [hwords other hother]
  | case2 table name behind hnot =>
    cases h
    refine ⟨⟨?_, rfl, List.forall_mem_nil _⟩, ?_⟩
    · intro token hmem
      simp [hmem]
    · intro other hother
      obtain rfl := List.mem_singleton.mp hother
      simp
  | case3 => cases h

theorem of_resolveAll {resolved : Condition Comparison}
    (h : resolveAll tables condition = some resolved) :
    resolved.atoms.map Comparison.literal = condition.atoms.map Comparison.literal ∧
      ∀ atom ∈ resolved.atoms, (∃ other ∈ condition.atoms, other.column = atom.column) ∧
        ∃ table ∈ tables, table.2 = atom.table := by
  have hboth {left right first second : Condition Comparison}
      (hleft : first.atoms.map Comparison.literal = left.atoms.map Comparison.literal ∧
        ∀ atom ∈ first.atoms, (∃ other ∈ left.atoms, other.column = atom.column) ∧
          ∃ table ∈ tables, table.2 = atom.table)
      (hright : second.atoms.map Comparison.literal = right.atoms.map Comparison.literal ∧
        ∀ atom ∈ second.atoms, (∃ other ∈ right.atoms, other.column = atom.column) ∧
          ∃ table ∈ tables, table.2 = atom.table) :
      (first.atoms ++ second.atoms).map Comparison.literal =
          (left.atoms ++ right.atoms).map Comparison.literal ∧
        ∀ atom ∈ first.atoms ++ second.atoms,
          (∃ other ∈ left.atoms ++ right.atoms, other.column = atom.column) ∧
            ∃ table ∈ tables, table.2 = atom.table := by
    refine ⟨by rw [List.map_append, List.map_append, hleft.1, hright.1], ?_⟩
    intro atom hmem
    rcases List.mem_append.mp hmem with hfirst | hsecond
    · obtain ⟨⟨other, hother, hcolumn⟩, htable⟩ := hleft.2 atom hfirst
      exact ⟨⟨other, List.mem_append_left _ hother, hcolumn⟩, htable⟩
    · obtain ⟨⟨other, hother, hcolumn⟩, htable⟩ := hright.2 atom hsecond
      exact ⟨⟨other, List.mem_append_right _ hother, hcolumn⟩, htable⟩
  induction condition generalizing resolved with
  | comparison atom =>
    obtain ⟨found, hfound, rfl⟩ := Option.map_eq_some_iff.mp h
    obtain ⟨table, htable, rfl⟩ := Option.map_eq_some_iff.mp hfound
    refine ⟨rfl, List.forall_mem_singleton.mpr ⟨⟨atom, List.mem_singleton_self _, rfl⟩, ?_⟩⟩
    obtain ⟨before, after, rfl, -⟩ := List.lookup_eq_some_iff.mp htable
    exact ⟨_, List.mem_append_right _ List.mem_cons_self, rfl⟩
  | and left right ihleft ihright =>
    obtain ⟨first, hfirst, h⟩ := Option.bind_eq_some_iff.mp h
    obtain ⟨second, hsecond, rfl⟩ := Option.map_eq_some_iff.mp h
    exact hboth (ihleft hfirst) (ihright hsecond)
  | or left right ihleft ihright =>
    obtain ⟨first, hfirst, h⟩ := Option.bind_eq_some_iff.mp h
    obtain ⟨second, hsecond, rfl⟩ := Option.map_eq_some_iff.mp h
    exact hboth (ihleft hfirst) (ihright hsecond)
  | not condition ih =>
    obtain ⟨found, hfound, rfl⟩ := Option.map_eq_some_iff.mp h
    have hinner := ih hfound
    exact hinner

theorem of_readQuery (h : readQuery text = some condition) :
    (∃ tokens, lex text = some tokens ∧ literals tokens = condition.atoms.map Comparison.literal) ∧
      ∀ atom ∈ condition.atoms, isName atom.table = true ∧ isName atom.column = true ∧
        ∀ numeral, atom.literal = .number numeral → isNumeral numeral = true := by
  obtain ⟨tokens, hlex, h⟩ := Option.bind_eq_some_iff.mp h
  have hvalid := valid_of_lexFrom hlex
  rw [parseSelect] at h
  split_ifs at h with hhead
  cases htables : parseTables (tokens.drop 3) with
  | none =>
    rw [htables] at h
    cases h
  | some found =>
    rw [htables] at h
    obtain ⟨hreads, hwords⟩ := reads_of_parseTables htables
    simp only at h
    split_ifs at h with hwhere
    split at h
    · next parsed hparse =>
      obtain ⟨atoms, hatoms, hrest⟩ := reads_of_parse hparse
      change parsed.atoms = [] ++ atoms at hatoms
      rw [List.nil_append] at hatoms
      have hskip := Reads.skip hwhere.2 rfl
      have hall := (hreads.trans hskip).trans hrest
      rw [List.nil_append, List.nil_append] at hall
      have hsplit : tokens = tokens.take 3 ++ tokens.drop 3 := (List.take_append_drop 3 tokens).symm
      have hliterals : literals tokens = atoms.map Comparison.literal := by
        rw [hsplit, literals_append, hhead, hall.literals]
        exact List.append_nil _
      have hsubset : tokens.drop 3 ⊆ tokens := List.drop_subset 3 tokens
      obtain ⟨hkept, hresolved⟩ := of_resolveAll h
      rw [hatoms] at hkept hresolved
      refine ⟨⟨tokens, hlex, hliterals.trans hkept.symm⟩, ?_⟩
      intro atom hmem
      obtain ⟨⟨other, hother, hcolumn⟩, ⟨table, htable, htable'⟩⟩ := hresolved atom hmem
      refine ⟨?_, ?_, ?_⟩
      · rw [← htable']
        exact hvalid _ (hsubset (hwords table htable))
      · rw [← hcolumn]
        exact hvalid _ (hsubset (hall.named other hother).column)
      · intro numeral hnumeral
        have hliteral : Literal.number numeral ∈ literals tokens := by
          rw [hliterals, ← hkept, ← hnumeral]
          exact List.mem_map_of_mem hmem
        obtain ⟨token, htoken, heq⟩ := List.mem_filterMap.mp hliteral
        have hvalue : token = .literal (.number numeral) := by
          cases token <;> cases heq
          rfl
        exact hvalid _ (hvalue ▸ htoken)
    · cases h

/-- LIKE is for texts. -/
def Comparison.Typed (comparison : Comparison) : Prop :=
  comparison.comparator = .like → ∃ value, comparison.literal = .text value

def comparatorToken : Comparator → Token
  | .like => .keyword .likeKey
  | comparator => .compare comparator

def comparisonTokens (comparison : Comparison) : List Token :=
  [.word comparison.table, .dot, .word comparison.column, comparatorToken comparison.comparator,
    .literal comparison.literal]

def connectiveToken : Connective → Token
  | .and => .keyword .andKey
  | .or => .keyword .orKey

def stepTokens (steps : List (Connective × Comparison)) : List Token :=
  steps.flatMap fun step ↦ connectiveToken step.1 :: comparisonTokens step.2

theorem parseComparison_tokens (h : comparison.Typed) (rest : List Token) :
    parseComparison (comparisonTokens comparison ++ rest) = some (comparison, rest) := by
  rcases comparison with ⟨table, column, comparator, literal⟩
  cases comparator with
  | like =>
    obtain ⟨value, hvalue⟩ := h rfl
    change literal = .text value at hvalue
    subst hvalue
    rfl
  | lt => rfl
  | le => rfl
  | eq => rfl
  | ge => rfl
  | gt => rfl
  | ne => rfl

theorem parse_factor (h : comparison.Typed) (rest : List Token) (hfuel : 2 ≤ fuel) :
    parse fuel .factor (comparisonTokens comparison ++ rest) =
      some (.comparison comparison, rest) := by
  obtain ⟨k, rfl⟩ : ∃ k, fuel = k + 2 := ⟨fuel - 2, by omega⟩
  have hhead : (comparisonTokens comparison ++ rest).head? = some (.word comparison.table) := rfl
  rw [parse, hhead, if_neg (by simp), parse, hhead, if_neg (by simp), parseComparison_tokens h]
  rfl

theorem parse_readFrom {steps : List (Connective × Comparison)}
    (htyped : ∀ step ∈ steps, step.2.Typed) {rest : List Token}
    (hand : rest.head? ≠ some (.keyword .andKey)) (hor : rest.head? ≠ some (.keyword .orKey))
    (done : Option (Condition Comparison)) (current : Condition Comparison) {fuel' : ℕ}
    (hfuel : 3 * steps.length + 3 ≤ fuel) (hfuel' : 3 * steps.length + 3 ≤ fuel') :
    ((parse fuel (.conjunctionRest current) (stepTokens steps ++ rest)).bind fun found ↦
        parse fuel' (.disjunctionRest (Condition.orElse done found.1)) found.2) =
      some (Condition.readFrom done current steps, rest) := by
  induction steps generalizing done current fuel fuel' with
  | nil =>
    obtain ⟨k, rfl⟩ : ∃ k, fuel = k + 1 := ⟨fuel - 1, by omega⟩
    obtain ⟨n, rfl⟩ : ∃ n, fuel' = n + 1 := ⟨fuel' - 1, by omega⟩
    change ((parse (k + 1) (.conjunctionRest current) rest).bind _) = _
    rw [parse, if_neg hand, Option.bind_some, parse, if_neg hor]
    rfl
  | cons step steps ih =>
    obtain ⟨hstep, hsteps⟩ := List.forall_mem_cons.mp htyped
    rcases step with ⟨connective, atom⟩
    rw [List.length_cons] at hfuel hfuel'
    obtain ⟨k, rfl⟩ : ∃ k, fuel = k + 1 := ⟨fuel - 1, by omega⟩
    have htokens : stepTokens ((connective, atom) :: steps) ++ rest =
        connectiveToken connective :: (comparisonTokens atom ++ (stepTokens steps ++ rest)) := by
      rw [stepTokens, List.flatMap_cons, List.append_assoc]
      rfl
    rw [htokens]
    cases connective with
    | and =>
      have hhead : (connectiveToken .and :: (comparisonTokens atom ++ (stepTokens steps ++ rest))).head? =
          some (.keyword .andKey) := rfl
      rw [parse, if_pos hhead, List.tail_cons, parse_factor hstep _ (by omega), Option.bind_some]
      exact ih hsteps done (.and current (.comparison atom)) (by omega) (by omega)
    | or =>
      obtain ⟨n, rfl⟩ : ∃ n, fuel' = n + 2 := ⟨fuel' - 2, by omega⟩
      have hhead : (connectiveToken .or :: (comparisonTokens atom ++ (stepTokens steps ++ rest))).head? =
          some (.keyword .orKey) := rfl
      have hnot : (connectiveToken .or ::
          (comparisonTokens atom ++ (stepTokens steps ++ rest))).head? ≠ some (.keyword .andKey) := by
        simp [connectiveToken]
      rw [parse, if_neg hnot, Option.bind_some, parse, if_pos hhead, List.tail_cons, parse,
        parse_factor hstep _ (by omega), Option.bind_some]
      exact ih hsteps (some (Condition.orElse done current)) (.comparison atom) (by omega) (by omega)

theorem parse_read {first : Comparison} {steps : List (Connective × Comparison)}
    (hfirst : first.Typed) (htyped : ∀ step ∈ steps, step.2.Typed) {rest : List Token}
    (hand : rest.head? ≠ some (.keyword .andKey)) (hor : rest.head? ≠ some (.keyword .orKey))
    (hfuel : 3 * steps.length + 5 ≤ fuel) :
    parse fuel .disjunction (comparisonTokens first ++ (stepTokens steps ++ rest)) =
      some (Condition.read first steps, rest) := by
  obtain ⟨k, rfl⟩ : ∃ k, fuel = k + 2 := ⟨fuel - 2, by omega⟩
  rw [parse, parse, parse_factor hfirst _ (by omega), Option.bind_some]
  exact parse_readFrom htyped hand hor none (.comparison first) (by omega) (by omega)

theorem resolveAll_eq_map {f : Comparison → Comparison}
    (h : ∀ atom ∈ condition.atoms, resolve tables atom = some (f atom)) :
    resolveAll tables condition = some (condition.map f) := by
  induction condition with
  | comparison atom =>
    rw [resolveAll, h atom (List.mem_singleton_self _)]
    rfl
  | and left right ihleft ihright =>
    obtain ⟨hleft, hright⟩ := List.forall_mem_append.mp h
    rw [resolveAll, ihleft hleft, ihright hright]
    rfl
  | or left right ihleft ihright =>
    obtain ⟨hleft, hright⟩ := List.forall_mem_append.mp h
    rw [resolveAll, ihleft hleft, ihright hright]
    rfl
  | not condition ih =>
    rw [resolveAll, ih h]
    rfl

end Cheshire.Lib.Sql
