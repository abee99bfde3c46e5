import Cheshire.Srw.PyStr

/-!
# The tokens of a query

The lexer reads one character after another in several states.  A character that was read too far is
handed on in one of two places, as the next token or pushed back; behind `<` and `>` some characters go
into neither.  Quotation marks inside a word do not begin a quoted part.  The class names one quotation
mark and no comments, but `__init__` of `shlex` sets two marks and the number sign on each lexer.
-/

namespace Cheshire.Srw

/-- `self.state`; a blank, a letter, an operator, one of the quotation marks, a slash, or None. -/
inductive LexState where
  | blank
  | word
  | operator
  | quoted (mark : Char)
  | slash
  | ended
deriving DecidableEq

/-- Why no token is read: an error was raised, or the loop does not end. -/
inductive LexFault where
  | raised (error : PyError)
  | endless
  | unfinished

/-- `CQLshlex`; `instream` is what has not been read. -/
structure Lexer where
  state : LexState
  nextToken : PyStr
  pushback : List PyStr
  instream : PyStr

/-- `whitespace` of `shlex` -/
def lexWhitespace : List Char := [' ', '\t', '\r', '\n']

/-- `commenters` as `__init__` of `shlex` sets it -/
def lexCommenters : List Char := ['#']

/-- `quotes` as `__init__` of `shlex` sets it -/
def lexQuotes : List Char := ['\x27', '"']

/-- `wordchars` of `shlex` and those that `parse` adds. -/
def lexWordchars : List Char :=
  "abcdfeghijklmnopqrstuvwxyzABCDEFGHIJKLMNOPQRSTUVWXYZ0123456789_!@#$%^&*-+".toList ++
    ['\x7b', '\x7d', '[', ']', ';', ',', '.', '?', '|', '~', '\x60', ':', '\\']

/-- The two-character operators. -/
def completes (token : PyStr) (c : Char) : Prop :=
  token = ['>'] ∧ c = '=' ∨ token = ['<'] ∧ (c = '>' ∨ c = '=')

instance decidableCompletes (token : PyStr) (c : Char) : Decidable (completes token c) :=
  inferInstanceAs (Decidable (_ ∨ _))

/-- The loop of `read_token` over what has not been read.  At a comment it calls `readline`, which the stream of
a query does not have. -/
def readOn : LexState → PyStr → List PyStr → PyStr → Except LexFault (PyStr × Lexer)
  | .ended, _, pushback, rest => .ok ([], ⟨.ended, [], pushback, rest.drop 1⟩)
  | .blank, token, pushback, [] => .ok (token, ⟨.ended, [], pushback, []⟩)
  | .blank, token, pushback, c :: rest =>
    if c ∈ lexWhitespace then
      if token ≠ [] then .ok (token, ⟨.blank, [], pushback, rest⟩)
      else readOn .blank token pushback rest
    else if c ∈ lexCommenters then .error (.raised .attributeError)
    else if c ∈ lexWordchars then readOn .word [c] pushback rest
    else if c ∈ lexQuotes then readOn (.quoted c) [c] pushback rest
    else if c = '<' ∨ c = '>' then readOn .operator [c] pushback rest
    else .ok ([c], ⟨.blank, [], pushback, rest⟩)
  | .operator, token, pushback, [] => .ok (token, ⟨.ended, [], pushback, []⟩)
  | .operator, token, pushback, c :: rest =>
    if completes token c then .ok (token ++ [c], ⟨.blank, [], pushback, rest⟩)
    else if c = '/' then .ok (token, ⟨.slash, ['/'], pushback, rest⟩)
    else if c ∈ lexWordchars then .ok (token, ⟨.word, [c], pushback, rest⟩)
    else .ok (token, ⟨.blank, [], pushback, rest⟩)
  | .quoted _, token, _, [] => .error (.raised (.diagnostic 14 token.dropLast))
  | .quoted mark, token, pushback, c :: rest =>
    if c = mark ∧ token.getLast? ≠ some '\\' then .ok (token ++ [c], ⟨.blank, [], pushback, rest⟩)
    else readOn (.quoted mark) (token ++ [c]) pushback rest
  | .word, token, pushback, [] => .ok (token, ⟨.ended, [], pushback, []⟩)
  | .word, token, pushback, c :: rest =>
    if c ∈ lexWhitespace then
      if token ≠ [] then .ok (token, ⟨.blank, [], pushback, rest⟩)
      else readOn .blank token pushback rest
    else if c ∈ lexCommenters then .error (.raised .attributeError)
    else if c ∈ lexWordchars ∨ c ∈ lexQuotes then readOn .word (token ++ [c]) pushback rest
    else if c = '<' ∨ c = '>' then .ok (token, ⟨.operator, [c], pushback, rest⟩)
    else if token ≠ [] then .ok (token, ⟨.blank, [], [c] :: pushback, rest⟩)
    else readOn .blank token ([c] :: pushback) rest
  | .slash, _, _, [] => .error .endless
  | .slash, token, pushback, _ :: rest => readOn .slash token pushback rest

def readToken (lexer : Lexer) : Except LexFault (PyStr × Lexer) :=
  if lexer.nextToken = ['/'] then .ok (['/'], { lexer with state := .blank, nextToken := [] })
  else readOn lexer.state lexer.nextToken lexer.pushback lexer.instream

/-- `get_token` of `shlex` -/
def getToken (lexer : Lexer) : Except LexFault (PyStr × Lexer) :=
  match lexer.pushback with
  | token :: pushback => .ok (token, { lexer with pushback := pushback })
  | [] => readToken lexer

/-- The tokens up to the empty one, which stands for the end. -/
def tokensOf : ℕ → Lexer → Except LexFault (List PyStr)
  | 0, _ => .error .unfinished
  | fuel + 1, lexer =>
    getToken lexer >>= fun read ↦
      if read.1 = [] then .ok [] else (tokensOf fuel read.2).map (read.1 :: ·)

/-- The tokens that the parser gets for a query. -/
def tokenize (fuel : ℕ) (query : PyStr) : Except LexFault (List PyStr) :=
  tokensOf fuel ⟨.blank, [], [], query⟩

/-- A part of a query: an operator outside quoted parts, or any other character that is kept. -/
inductive Piece where
  | operator (text : PyStr)
  | text (c : Char)

/-- What a character adds: its piece, an operator that may have a second character, and whether a quoted
part has begun.  A quotation mark behind a backslash does not begin or end one. -/
def readPiece (inQuotes : Bool) (prev c : Char) : List Piece × Option Char × Bool :=
  if c = '"' ∧ prev ≠ '\\' then ([.text c], none, !inQuotes)
  else if inQuotes then ([.text c], none, inQuotes)
  else if c ∈ lexWhitespace then ([], none, inQuotes)
  else if c = '<' ∨ c = '>' then ([], some c, inQuotes)
  else if c = '=' then ([.operator [c]], none, inQuotes)
  else ([.text c], none, inQuotes)

/-- The parts of a query without the white space outside quoted parts; `pending` is an operator that may
have a second character. -/
def pieces : Option Char → Bool → Char → PyStr → List Piece
  | pending, _, _, [] => pending.toList.map fun o ↦ .operator [o]
  | none, inQuotes, prev, c :: rest =>
    let read := readPiece inQuotes prev c
    read.1 ++ pieces read.2.1 read.2.2 c rest
  | some o, inQuotes, _, c :: rest =>
    if completes [o] c then .operator [o, c] :: pieces none inQuotes c rest
    else
      let read := readPiece inQuotes o c
      .operator [o] :: (read.1 ++ pieces read.2.1 read.2.2 c rest)

/-- The query is in a quoted part behind a character, or not. -/
def quotesAfter (inQuotes : Bool) (prev c : Char) : Bool :=
  if c = '"' ∧ prev ≠ '\\' then !inQuotes else inQuotes

/-- The query is in a quoted part at its end, or not. -/
def endsInQuotes : Bool → Char → PyStr → Bool
  | inQuotes, _, [] => inQuotes
  | inQuotes, prev, c :: rest => endsInQuotes (quotesAfter inQuotes prev c) c rest

/-- All quoted parts are closed. -/
def Balanced (query : PyStr) : Prop := endsInQuotes false ' ' query = false

/-- The tokens are the pieces in their order, where an operator is a token of its own. -/
def Grouped : List PyStr → List Piece → Prop
  | [], parts => parts = []
  | token :: tokens, parts =>
    ∃ rest, (parts = .operator token :: rest ∨ token ≠ [] ∧ parts = token.map .text ++ rest) ∧
      Grouped tokens rest

/-- Nothing of the query is lost. -/
def Delivers (query : PyStr) (run : Except LexFault (List PyStr)) : Prop :=
  ∃ tokens, run = .ok tokens ∧ Grouped tokens (pieces none false ' ' query)

/-- The tokens that come from the rest of a query, in a state of the lexer with a token begun. -/
def lexed : LexState → PyStr → PyStr → Except LexFault (List PyStr)
  | .ended, _, _ => .ok []
  | .slash, _, _ => .error .endless
  | .blank, _, [] => .ok []
  | .blank, _, c :: rest =>
    if c ∈ lexWhitespace then lexed .blank [] rest
    else if c ∈ lexCommenters then .error (.raised .attributeError)
    else if c ∈ lexWordchars then lexed .word [c] rest
    else if c ∈ lexQuotes then lexed (.quoted c) [c] rest
    else if c = '<' ∨ c = '>' then lexed .operator [c] rest
    else (lexed .blank [] rest).map ([c] :: ·)
  | .operator, token, [] => .ok [token]
  | .operator, token, c :: rest =>
    if completes token c then (lexed .blank [] rest).map ((token ++ [c]) :: ·)
    else if c = '/' then ((lexed .blank [] rest).map (['/'] :: ·)).map (token :: ·)
    else if c ∈ lexWordchars then (lexed .word [c] rest).map (token :: ·)
    else (lexed .blank [] rest).map (token :: ·)
  | .quoted _, token, [] => .error (.raised (.diagnostic 14 token.dropLast))
  | .quoted mark, token, c :: rest =>
    if c = mark ∧ token.getLast? ≠ some '\\' then (lexed .blank [] rest).map ((token ++ [c]) :: ·)
    else lexed (.quoted mark) (token ++ [c]) rest
  | .word, token, [] => .ok [token]
  | .word, token, c :: rest =>
    if c ∈ lexWhitespace then (lexed .blank [] rest).map (token :: ·)
    else if c ∈ lexCommenters then .error (.raised .attributeError)
    else if c ∈ lexWordchars ∨ c ∈ lexQuotes then lexed .word (token ++ [c]) rest
    else if c = '<' ∨ c = '>' then (lexed .operator [c] rest).map (token :: ·)
    else ((lexed .blank [] rest).map ([c] :: ·)).map (token :: ·)

/-- A state of the lexer between two tokens, with the tokens that are still to come. -/
def remaining (lexer : Lexer) : Except LexFault (List PyStr) :=
  match lexer.pushback with
  | [] =>
    if lexer.nextToken = ['/'] then (lexed .blank [] lexer.instream).map (['/'] :: ·)
    else lexed lexer.state lexer.nextToken lexer.instream
  | token :: _ => (lexed .blank [] lexer.instream).map (token :: ·)

/-- The states that the lexer is in between two tokens. -/
inductive Between : Lexer → Prop where
  | blank (rest : PyStr) : Between ⟨.blank, [], [], rest⟩
  | ended (rest : PyStr) : Between ⟨.ended, [], [], rest⟩
  | operator (o : Char) (rest : PyStr) : o ≠ '/' → Between ⟨.operator, [o], [], rest⟩
  | word (c : Char) (rest : PyStr) : c ≠ '/' → Between ⟨.word, [c], [], rest⟩
  | slash (rest : PyStr) : Between ⟨.slash, ['/'], [], rest⟩
  | pushed (c : Char) (rest : PyStr) : Between ⟨.blank, [], [[c]], rest⟩

/-- The characters that a lexer still has. -/
def Lexer.size (lexer : Lexer) : ℕ :=
  lexer.nextToken.length + lexer.pushback.flatten.length + lexer.instream.length

/-- A call reads the first of the tokens to come. -/
def ReadsFirst (size : ℕ) (coming : Except LexFault (List PyStr)) :
    Except LexFault (PyStr × Lexer) → Prop
  | .error fault => coming = .error fault
  | .ok (token, lexer) =>
    token = [] ∧ coming = .ok [] ∨
      token ≠ [] ∧ Between lexer ∧ lexer.size < size ∧ coming = (remaining lexer).map (token :: ·)

variable {size : ℕ} {token : PyStr}

theorem readsFirst_of_blank {rest : PyStr} (htoken : token ≠ []) (hsize : rest.length < size) :
    ReadsFirst size ((lexed .blank [] rest).map (token :: ·)) (.ok (token, ⟨.blank, [], [], rest⟩)) :=
  Or.inr ⟨htoken, .blank rest, by simpa [Lexer.size] using hsize, rfl⟩

variable {state : LexState}

theorem readsFirst_of_begun {rest : PyStr} {c : Char} (htoken : token ≠ []) (hc : c ≠ '/')
    (hbetween : Between ⟨state, [c], [], rest⟩) (hsize : (c :: rest).length < size) :
    ReadsFirst size ((lexed state [c] rest).map (token :: ·)) (.ok (token, ⟨state, [c], [], rest⟩)) := by
  have hremaining : remaining ⟨state, [c], [], rest⟩ = lexed state [c] rest :=
    if_neg fun heq ↦ hc (List.cons.inj heq).1
  refine Or.inr ⟨htoken, hbetween, ?_, ?_⟩
  · simpa [Lexer.size, Nat.add_comm] using hsize
  · rw [hremaining]

theorem readsFirst_readOn (rest : PyStr) :
    (rest.length ≤ size → ReadsFirst size (lexed .blank [] rest) (readOn .blank [] [] rest)) ∧
      ∀ token ≠ [], rest.length < size →
        ReadsFirst size (lexed .word token rest) (readOn .word token [] rest) ∧
        ReadsFirst size (lexed .operator token rest) (readOn .operator token [] rest) ∧
        ∀ mark, ReadsFirst size (lexed (.quoted mark) token rest) (readOn (.quoted mark) token [] rest) := by
  induction rest with
  | nil =>
    refine ⟨fun _ ↦ Or.inl ⟨rfl, rfl⟩, fun token htoken hsize ↦ ?_⟩
    have hended : ReadsFirst size (.ok [token]) (.ok (token, ⟨.ended, [], [], []⟩)) :=
      Or.inr ⟨htoken, .ended [], hsize, rfl⟩
    exact ⟨hended, hended, fun _ ↦ rfl⟩
  | cons c rest ih =>
    obtain ⟨hblank, hother⟩ := ih
    refine ⟨fun hsize ↦ ?_, fun token htoken hsize ↦ ?_⟩
    · have hless : rest.length < size := hsize
      have hone := hother [c] (List.cons_ne_nil c []) hless
      rw [lexed, readOn]
      split_ifs with hwhite hnil
      · exact absurd rfl hnil
      · exact hblank hless.le
      · rfl
      · exact hone.1
      · exact hone.2.2 c
      · exact hone.2.1
      · exact readsFirst_of_blank (List.cons_ne_nil c []) hless
    · have hless : rest.length < size := Nat.lt_of_succ_lt hsize
      have hlonger : token ++ [c] ≠ [] := List.append_ne_nil_of_right_ne_nil token (List.cons_ne_nil c [])
      refine ⟨?_, ?_, fun mark ↦ ?_⟩
      · rw [lexed, readOn]
        split_ifs with hwhite hcomment hword hangle
        · exact readsFirst_of_blank htoken hless
        · rfl
        · exact (hother _ hlonger hless).1
        · have hslash : c ≠ '/' := by
            rintro rfl
            simp at hangle
          exact readsFirst_of_begun htoken hslash (.operator c rest hslash) hsize
        · exact Or.inr ⟨htoken, .pushed c rest, by simpa [Lexer.size, Nat.add_comm] using hsize, rfl⟩
      · rw [lexed, readOn]
        split_ifs with hcompletes hslash hword
        · exact readsFirst_of_blank hlonger hless
        · exact Or.inr ⟨htoken, .slash rest, by simpa [Lexer.size, Nat.add_comm] using hsize, rfl⟩
        · exact readsFirst_of_begun htoken hslash (.word c rest hslash) hsize
        · exact readsFirst_of_blank htoken hless
      · rw [lexed, readOn]
        split_ifs
        · exact readsFirst_of_blank hlonger hless
        · exact (hother _ hlonger hless).2.2 mark

theorem readsFirst_getToken {lexer : Lexer} (h : Between lexer) :
    ReadsFirst lexer.size (remaining lexer) (getToken lexer) := by
  have hbegun (c : Char) (rest : PyStr) : rest.length < [c].length + ([] : PyStr).length + rest.length := by
    simp
  cases h with
  | blank rest =>
    refine (readsFirst_readOn rest).1 (le_of_eq ?_)
    simp [Lexer.size]
  | ended rest =>
    change ReadsFirst _ (lexed .ended [] rest) (readOn .ended [] [] rest)
    rw [lexed, readOn]
    exact Or.inl ⟨rfl, rfl⟩
  | operator o rest ho =>
    have hne : ¬[o] = ['/'] := fun heq ↦ ho (List.cons.inj heq).1
    change ReadsFirst _ (if [o] = ['/'] then _ else lexed .operator [o] rest)
      (if [o] = ['/'] then _ else readOn .operator [o] [] rest)
    rw [if_neg hne, if_neg hne]
    exact ((readsFirst_readOn rest).2 [o] (List.cons_ne_nil o []) (hbegun o rest)).2.1
  | word c rest hc =>
    have hne : ¬[c] = ['/'] := fun heq ↦ hc (List.cons.inj heq).1
    change ReadsFirst _ (if [c] = ['/'] then _ else lexed .word [c] rest)
      (if [c] = ['/'] then _ else readOn .word [c] [] rest)
    rw [if_neg hne, if_neg hne]
    exact ((readsFirst_readOn rest).2 [c] (List.cons_ne_nil c []) (hbegun c rest)).1
  | slash rest => exact readsFirst_of_blank (List.cons_ne_nil _ _) (hbegun '/' rest)
  | pushed c rest =>
    refine readsFirst_of_blank (List.cons_ne_nil c []) ?_
    simp [Lexer.size]

theorem tokensOf_eq {fuel : ℕ} {lexer : Lexer} (h : Between lexer) (hfuel : lexer.size < fuel) :
    tokensOf fuel lexer = remaining lexer := by
  induction fuel generalizing lexer with
  | zero => exact absurd hfuel (Nat.not_lt_zero _)
  | succ fuel ih =>
    have hfirst := readsFirst_getToken h
    rw [tokensOf]
    cases hread : getToken lexer with
    | error fault =>
      rw [hread] at hfirst
      rw [show remaining lexer = .error fault from hfirst]
      rfl
    | ok read =>
      obtain ⟨token, lexer'⟩ := read
      rw [hread] at hfirst
      rcases hfirst with ⟨rfl, hnone⟩ | ⟨htoken, hbetween, hless, hcoming⟩
      · rw [hnone]
        rfl
      · rw [hcoming, ← ih hbetween (by omega)]
        exact if_neg htoken

theorem tokenize_eq {fuel : ℕ} {query : PyStr} (hfuel : query.length < fuel) :
    tokenize fuel query = lexed .blank [] query :=
  tokensOf_eq (.blank query) (by simpa [Lexer.size] using hfuel)

/-- White space or an operator, which is kept in quoted parts only, or not as part of another token. -/
def Separates (c : Char) : Prop := c ∈ lexWhitespace ∨ c = '<' ∨ c = '>' ∨ c = '='

instance decidableSeparates (c : Char) : Decidable (Separates c) := inferInstanceAs (Decidable (_ ∨ _))

/-- The rest of a query is read without a loss, in a state of the lexer, inside a quoted part or not, and
behind a character.  No comment begins; white space that the lexer passes over is outside quoted parts, and
what it takes into a quoted token has to be inside of one if it is white space or an operator; behind `<`
or `>` comes the end, a second character of the operator, a slash, a word or white space; and no quoted token
is open at the end. -/
def lossless : LexState → Bool → Char → PyStr → Prop
  | state, _, _, [] => ∀ mark, state ≠ .quoted mark
  | .blank, inQuotes, prev, c :: rest =>
    if c ∈ lexWhitespace then inQuotes = false ∧ lossless .blank inQuotes c rest
    else if c ∈ lexCommenters then False
    else if c ∈ lexWordchars then lossless .word inQuotes c rest
    else if c ∈ lexQuotes then lossless (.quoted c) (quotesAfter inQuotes prev c) c rest
    else if c = '<' ∨ c = '>' then lossless .operator inQuotes c rest
    else lossless .blank inQuotes c rest
  | .word, inQuotes, prev, c :: rest =>
    if c ∈ lexWhitespace then inQuotes = false ∧ lossless .blank inQuotes c rest
    else if c ∈ lexCommenters then False
    else if c ∈ lexWordchars ∨ c ∈ lexQuotes then lossless .word (quotesAfter inQuotes prev c) c rest
    else if c = '<' ∨ c = '>' then lossless .operator inQuotes c rest
    else lossless .blank inQuotes c rest
  | .quoted mark, inQuotes, prev, c :: rest =>
    if c = mark ∧ prev ≠ '\\' then lossless .blank (quotesAfter inQuotes prev c) c rest
    else (inQuotes = false → ¬Separates c) ∧ lossless (.quoted mark) (quotesAfter inQuotes prev c) c rest
  | .operator, inQuotes, prev, c :: rest =>
    if completes [prev] c ∨ c = '/' then lossless .blank inQuotes c rest
    else if c ∈ lexWordchars then lossless .word inQuotes c rest
    else c ∈ lexWhitespace ∧ inQuotes = false ∧ lossless .blank inQuotes c rest
  | .slash, _, _, _ :: _ => False
  | .ended, _, _, _ :: _ => False

/-- Tokens come, and they are the pieces. -/
def Reads (run : Except LexFault (List PyStr)) (parts : List Piece) : Prop :=
  ∃ tokens, run = .ok tokens ∧ Grouped tokens parts

variable {parts : List Piece}

theorem reads_error {fault : LexFault} : ¬Reads (.error fault) parts := by
  rintro ⟨tokens, htokens, -⟩
  cases htokens

variable {run : Except LexFault (List PyStr)} {tokens : List PyStr}

theorem exists_of_map_eq_ok (h : run.map (token :: ·) = .ok tokens) :
    ∃ others, run = .ok others ∧ tokens = token :: others := by
  rcases run with fault | others
  · cases h
  · exact ⟨others, rfl, (Except.ok.inj h).symm⟩

theorem map_text_inj {first second : PyStr} {rest rest' : List Piece}
    (hlength : first.length = second.length)
    (h : first.map Piece.text ++ rest = second.map Piece.text ++ rest') :
    first = second ∧ rest = rest' := by
  obtain ⟨hmap, hrest⟩ := List.append_inj h (by simpa using hlength)
  exact ⟨List.map_injective_iff.mpr (fun _ _ heq ↦ Piece.text.inj heq) hmap, hrest⟩

theorem reads_map_text (htoken : token ≠ []) :
    Reads (run.map (token :: ·)) (token.map .text ++ parts) ↔ Reads run parts := by
  constructor
  · rintro ⟨tokens, hrun, hgrouped⟩
    obtain ⟨others, hothers, rfl⟩ := exists_of_map_eq_ok hrun
    obtain ⟨rest, hparts, hrest⟩ := hgrouped
    rcases hparts with hparts | ⟨-, hparts⟩
    · obtain ⟨c, cs, rfl⟩ := List.exists_cons_of_ne_nil htoken
      cases hparts
    · obtain ⟨-, rfl⟩ := map_text_inj rfl hparts
      exact ⟨others, hothers, hrest⟩
  · rintro ⟨others, hothers, hgrouped⟩
    refine ⟨token :: others, ?_, parts, Or.inr ⟨htoken, rfl⟩, hgrouped⟩
    rw [hothers]
    rfl

theorem reads_map_operator {text : PyStr} :
    Reads (run.map (text :: ·)) (.operator text :: parts) ↔ Reads run parts := by
  constructor
  · rintro ⟨tokens, hrun, hgrouped⟩
    obtain ⟨others, hothers, rfl⟩ := exists_of_map_eq_ok hrun
    obtain ⟨rest, hparts, hrest⟩ := hgrouped
    rcases hparts with hparts | ⟨htoken, hparts⟩
    · rw [(List.cons.inj hparts).2]
      exact ⟨others, hothers, hrest⟩
    · obtain ⟨c, cs, rfl⟩ := List.exists_cons_of_ne_nil htoken
      cases hparts
  · rintro ⟨others, hothers, hgrouped⟩
    refine ⟨text :: others, ?_, parts, Or.inl rfl, hgrouped⟩
    rw [hothers]
    rfl

theorem reads_ok_nil : Reads (.ok []) parts ↔ parts = [] := by
  constructor
  · rintro ⟨tokens, htokens, hgrouped⟩
    rw [← Except.ok.inj htokens] at hgrouped
    exact hgrouped
  · intro h
    exact ⟨[], rfl, h⟩

def Piece.chars : Piece → PyStr
  | operator o => o
  | text c => [c]

/-- The number of characters that are not white space. -/
def solid (text : PyStr) : ℕ := text.countP fun c ↦ c ∉ lexWhitespace

@[simp] theorem solid_nil : solid [] = 0 := rfl

@[simp] theorem solid_append (first second : PyStr) :
    solid (first ++ second) = solid first + solid second :=
  List.countP_append

theorem solid_cons (c : Char) (text : PyStr) :
    solid (c :: text) = (if c ∈ lexWhitespace then 0 else 1) + solid text := by
  rw [solid, List.countP_cons, Nat.add_comm]
  by_cases h : c ∈ lexWhitespace
  · simp [h, solid]
  · simp [h, solid]

theorem Grouped.flatten (h : Grouped tokens parts) :
    tokens.flatten = parts.flatMap Piece.chars := by
  induction tokens generalizing parts with
  | nil =>
    rw [show parts = [] from h]
    rfl
  | cons token tokens ih =>
    obtain ⟨rest, hparts, hrest⟩ := h
    rw [List.flatten_cons, ih hrest]
    rcases hparts with rfl | ⟨-, rfl⟩
    · rw [List.flatMap_cons, Piece.chars]
    · rw [List.flatMap_append, List.flatMap_map]
      exact congrArg (· ++ _) (List.flatMap_singleton' token).symm

theorem solid_readPiece (inQuotes : Bool) (prev c : Char) :
    solid ((readPiece inQuotes prev c).1.flatMap Piece.chars) +
        solid (readPiece inQuotes prev c).2.1.toList = solid [c] ∧
      ∀ o ∈ (readPiece inQuotes prev c).2.1, o ∉ lexWhitespace := by
  rw [readPiece]
  split_ifs with hquote hin hwhite hangle hequal
  · exact ⟨rfl, fun o ho ↦ by cases ho⟩
  · exact ⟨rfl, fun o ho ↦ by cases ho⟩
  · refine ⟨?_, fun o ho ↦ by cases ho⟩
    simp [solid_cons, hwhite]
  · refine ⟨Nat.zero_add _, fun o ho ↦ ?_⟩
    cases ho
    exact hwhite
  · exact ⟨rfl, fun o ho ↦ by cases ho⟩
  · exact ⟨rfl, fun o ho ↦ by cases ho⟩

theorem solid_pieces {pending : Option Char} (hpending : ∀ o ∈ pending, o ∉ lexWhitespace)
    (inQuotes : Bool) (prev : Char) (rest : PyStr) :
    solid ((pieces pending inQuotes prev rest).flatMap Piece.chars) = solid (pending.toList ++ rest) := by
  induction rest generalizing pending inQuotes prev with
  | nil =>
    cases pending with
    | none => rfl
    | some o => rfl
  | cons c rest ih =>
    have hread (prev : Char) : solid (((readPiece inQuotes prev c).1 ++
        pieces (readPiece inQuotes prev c).2.1 (readPiece inQuotes prev c).2.2 c rest).flatMap Piece.chars) =
          solid (c :: rest) := by
      obtain ⟨hsolid, hsome⟩ := solid_readPiece inQuotes prev c
      rw [List.flatMap_append, solid_append, ih hsome, solid_append, ← Nat.add_assoc, hsolid,
        ← solid_append, List.singleton_append]
    cases pending with
    | none =>
      rw [pieces]
      exact hread prev
    | some o =>
      rw [pieces]
      split_ifs with hcompletes
      · rw [List.flatMap_cons, solid_append, ih (fun o ho ↦ by cases ho)]
        rw [Piece.chars, ← solid_append]
        rfl
      · rw [List.flatMap_cons, solid_append, hread, Piece.chars, ← solid_append]
        rfl

theorem solid_map_le {bound : ℕ} (h : run.map (token :: ·) = .ok tokens)
    (hrun : ∀ others, run = .ok others → solid others.flatten ≤ bound) :
    solid tokens.flatten ≤ solid token + bound := by
  obtain ⟨others, hothers, rfl⟩ := exists_of_map_eq_ok h
  rw [List.flatten_cons, solid_append]
  exact Nat.add_le_add_left (hrun others hothers) _

theorem solid_lexed_le {rest : PyStr} (h : lexed state token rest = .ok tokens) :
    solid tokens.flatten ≤ solid token + solid rest := by
  induction rest generalizing state token tokens with
  | nil =>
    cases state with
    | quoted => cases h
    | slash => cases h
    | blank =>
      rw [← Except.ok.inj h]
      exact Nat.zero_le _
    | ended =>
      rw [← Except.ok.inj h]
      exact Nat.zero_le _
    | word =>
      rw [← Except.ok.inj h]
      simp
    | operator =>
      rw [← Except.ok.inj h]
      simp
  | cons c rest ih =>
    have hcons : solid (c :: rest) = solid [c] + solid rest := solid_append [c] rest
    have hblank (others : List PyStr) (hothers : lexed .blank [] rest = .ok others) :
        solid others.flatten ≤ solid rest := by
      have hle := ih hothers
      rwa [solid_nil, Nat.zero_add] at hle
    have hlonger : solid (token ++ [c]) = solid token + solid [c] := solid_append token [c]
    rw [hcons]
    cases state with
    | slash =>
      rw [lexed] at h
      cases h
    | ended =>
      rw [lexed] at h
      rw [← Except.ok.inj h]
      exact Nat.zero_le _
    | blank =>
      rw [lexed] at h
      split_ifs at h
      · exact (hblank tokens h).trans (by omega)
      · exact (ih h).trans (by omega)
      · exact (ih h).trans (by omega)
      · exact (ih h).trans (by omega)
      · exact (solid_map_le h hblank).trans (by omega)
    | word =>
      rw [lexed] at h
      split_ifs at h
      · exact (solid_map_le h hblank).trans (by omega)
      · exact (ih h).trans (by omega)
      · exact solid_map_le h fun others hothers ↦ ih hothers
      · exact solid_map_le h fun others hothers ↦ solid_map_le hothers hblank
    | operator =>
      rw [lexed] at h
      split_ifs at h with hcompletes hslash
      · exact (solid_map_le h hblank).trans (by omega)
      · rw [hslash]
        exact solid_map_le h fun others hothers ↦ solid_map_le hothers hblank
      · exact solid_map_le h fun others hothers ↦ ih hothers
      · exact (solid_map_le h hblank).trans (by omega)
    | quoted =>
      rw [lexed] at h
      split_ifs at h
      · exact (solid_map_le h hblank).trans (by omega)
      · exact (ih h).trans (by omega)

theorem prefix_of_lexed (hstate : state = .word ∨ state = .operator ∨ ∃ mark, state = .quoted mark)
    {rest : PyStr} (h : lexed state token rest = .ok tokens) :
    ∃ first others, tokens = first :: others ∧ token <+: first := by
  have hmap {run : Except LexFault (List PyStr)} {token own : PyStr} (h : run.map (own :: ·) = .ok tokens)
      (hown : token <+: own) : ∃ first others, tokens = first :: others ∧ token <+: first := by
    obtain ⟨others, -, rfl⟩ := exists_of_map_eq_ok h
    exact ⟨own, others, rfl, hown⟩
  induction rest generalizing token with
  | nil =>
    rcases hstate with rfl | rfl | ⟨mark, rfl⟩
    · exact ⟨token, [], (Except.ok.inj h).symm, List.prefix_refl token⟩
    · exact ⟨token, [], (Except.ok.inj h).symm, List.prefix_refl token⟩
    · cases h
  | cons c rest ih =>
    have hlonger : token <+: token ++ [c] := List.prefix_append token [c]
    rcases hstate with rfl | rfl | ⟨mark, rfl⟩
    · rw [lexed] at h
      split_ifs at h
      · exact hmap h (List.prefix_refl token)
      · obtain ⟨first, others, htokens, hfirst⟩ := ih h
        exact ⟨first, others, htokens, hlonger.trans hfirst⟩
      · exact hmap h (List.prefix_refl token)
      · exact hmap h (List.prefix_refl token)
    · rw [lexed] at h
      split_ifs at h
      · exact hmap h hlonger
      · exact hmap h (List.prefix_refl token)
      · exact hmap h (List.prefix_refl token)
      · exact hmap h (List.prefix_refl token)
    · rw [lexed] at h
      split_ifs at h
      · exact hmap h hlonger
      · obtain ⟨first, others, htokens, hfirst⟩ := ih h
        exact ⟨first, others, htokens, hlonger.trans hfirst⟩

theorem first_of_lexed_blank {rest : PyStr} (h : lexed .blank [] rest = .ok tokens) :
    tokens = [] ∨ ∃ c first others, tokens = (c :: first) :: others ∧ c ∉ lexWhitespace := by
  induction rest with
  | nil => exact Or.inl (Except.ok.inj h).symm
  | cons c rest ih =>
    have hbegun {state : LexState} (hstate : state = .word ∨ state = .operator ∨ ∃ mark, state = .quoted mark)
        (hwhite : c ∉ lexWhitespace) (hrun : lexed state [c] rest = .ok tokens) :
        ∃ c first others, tokens = (c :: first) :: others ∧ c ∉ lexWhitespace := by
      obtain ⟨first, others, rfl, more, rfl⟩ := prefix_of_lexed hstate hrun
      exact ⟨c, more, others, rfl, hwhite⟩
    rw [lexed] at h
    split_ifs at h with hwhite
    · exact ih h
    · exact Or.inr (hbegun (Or.inl rfl) hwhite h)
    · exact Or.inr (hbegun (Or.inr (Or.inr (Exists.intro c rfl))) hwhite h)
    · exact Or.inr (hbegun (Or.inr (Or.inl rfl)) hwhite h)
    · obtain ⟨others, -, rfl⟩ := exists_of_map_eq_ok h
      exact Or.inr ⟨c, [], others, rfl, hwhite⟩

section Pieces

variable {inQuotes : Bool} {prev c : Char} {rest : PyStr}

theorem readPiece_inside (hquote : ¬(c = '"' ∧ prev ≠ '\\')) :
    readPiece true prev c = ([.text c], none, true) := by
  rw [readPiece, if_neg hquote, if_pos rfl]

theorem readPiece_white (hwhite : c ∈ lexWhitespace) : readPiece false prev c = ([], none, false) := by
  have hquote : ¬(c = '"' ∧ prev ≠ '\\') := by
    rintro ⟨rfl, -⟩
    exact absurd hwhite (by decide)
  rw [readPiece, if_neg hquote, if_neg Bool.false_ne_true, if_pos hwhite]

theorem readPiece_angle (hangle : c = '<' ∨ c = '>') : readPiece false prev c = ([], some c, false) := by
  rcases hangle with rfl | rfl
  · rfl
  · rfl

theorem readPiece_equal : readPiece false prev '=' = ([.operator ['=']], none, false) := rfl

theorem readPiece_outside (hquote : ¬(c = '"' ∧ prev ≠ '\\')) (hc : ¬Separates c) :
    readPiece false prev c = ([.text c], none, false) := by
  rw [Separates, not_or, not_or, not_or] at hc
  rw [readPiece, if_neg hquote, if_neg Bool.false_ne_true, if_neg hc.1,
    if_neg (not_or.mpr ⟨hc.2.1, hc.2.2.1⟩), if_neg hc.2.2.2]

theorem readPiece_text (hc : inQuotes = false → ¬Separates c) :
    readPiece inQuotes prev c = ([.text c], none, quotesAfter inQuotes prev c) := by
  rw [quotesAfter]
  by_cases hquote : c = '"' ∧ prev ≠ '\\'
  · rw [readPiece, if_pos hquote, if_pos hquote]
  · rw [if_neg hquote]
    cases inQuotes with
    | true => exact readPiece_inside hquote
    | false => exact readPiece_outside hquote (hc rfl)

theorem not_separates_of_wordchar (h : c ∈ lexWordchars) : ¬Separates c := by
  rintro (hwhite | rfl | rfl | rfl)
  · rw [lexWhitespace, List.mem_cons, List.mem_cons, List.mem_cons, List.mem_singleton] at hwhite
    rcases hwhite with rfl | rfl | rfl | rfl
    · exact absurd h (by decide)
    · exact absurd h (by decide)
    · exact absurd h (by decide)
    · exact absurd h (by decide)
  · exact absurd h (by decide)
  · exact absurd h (by decide)
  · exact absurd h (by decide)

theorem not_separates_of_quote (h : c ∈ lexQuotes) : ¬Separates c := by
  rw [lexQuotes, List.mem_cons, List.mem_singleton] at h
  rcases h with rfl | rfl
  · decide
  · decide

theorem quotesAfter_of_wordchar (h : c ∈ lexWordchars) : quotesAfter inQuotes prev c = inQuotes := by
  refine if_neg ?_
  rintro ⟨rfl, -⟩
  exact absurd h (by decide)

theorem pieces_cons {read : List Piece × Option Char × Bool} (h : readPiece inQuotes prev c = read) :
    pieces none inQuotes prev (c :: rest) = read.1 ++ pieces read.2.1 read.2.2 c rest := by
  rw [pieces, h]

theorem pieces_pending_ne_text (o : Char) (parts : List Piece) :
    pieces (some o) inQuotes prev rest ≠ .text c :: parts := by
  intro h
  cases rest with
  | nil => cases h
  | cons next rest =>
    rw [pieces] at h
    split_ifs at h
    · cases h
    · cases h

theorem pieces_ne_white (hwhite : c ∈ lexWhitespace) (parts : List Piece) :
    pieces none false prev rest ≠ .text c :: parts := by
  induction rest generalizing prev with
  | nil =>
    intro h
    cases h
  | cons next rest ih =>
    by_cases hseparates : Separates next
    · rcases hseparates with hnext | hangle | hangle | rfl
      · rw [pieces_cons (readPiece_white hnext)]
        exact ih
      · rw [pieces_cons (readPiece_angle (Or.inl hangle))]
        exact pieces_pending_ne_text next parts
      · rw [pieces_cons (readPiece_angle (Or.inr hangle))]
        exact pieces_pending_ne_text next parts
      · rw [pieces_cons readPiece_equal]
        intro h
        cases h
    · rw [pieces_cons (readPiece_text fun _ ↦ hseparates)]
      intro h
      cases h
      exact hseparates (Or.inl hwhite)

theorem pieces_ne_text (hc : Separates c) (parts : List Piece) :
    pieces none false prev (c :: rest) ≠ .text c :: parts := by
  rcases hc with hwhite | hangle | hangle | rfl
  · exact pieces_ne_white hwhite parts
  · rw [pieces_cons (readPiece_angle (Or.inl hangle))]
    exact pieces_pending_ne_text c parts
  · rw [pieces_cons (readPiece_angle (Or.inr hangle))]
    exact pieces_pending_ne_text c parts
  · rw [pieces_cons readPiece_equal]
    intro h
    cases h

end Pieces

/-- The pieces from an operator on that has just been read. -/
def piecesFromOperator (inQuotes : Bool) (o : Char) (rest : PyStr) : List Piece :=
  if inQuotes then .text o :: pieces none true o rest else pieces (some o) false o rest

/-- What comes of the rest of a query is right in every state of the lexer just where nothing is lost. -/
structure Simulates (rest : PyStr) : Prop where
  blank (inQuotes : Bool) (prev : Char) :
    Reads (lexed .blank [] rest) (pieces none inQuotes prev rest) ↔ lossless .blank inQuotes prev rest
  word (inQuotes : Bool) (prev : Char) (token : PyStr) (htoken : token ≠ []) :
    Reads (lexed .word token rest) (token.map .text ++ pieces none inQuotes prev rest) ↔
      lossless .word inQuotes prev rest
  quoted (mark : Char) (hmark : mark ∈ lexQuotes) (inQuotes : Bool) (prev : Char) (token : PyStr)
      (hlast : token.getLast? = some prev) :
    Reads (lexed (.quoted mark) token rest) (token.map .text ++ pieces none inQuotes prev rest) ↔
      lossless (.quoted mark) inQuotes prev rest
  operator (inQuotes : Bool) (o : Char) :
    Reads (lexed .operator [o] rest) (piecesFromOperator inQuotes o rest) ↔
      lossless .operator inQuotes o rest

theorem simulates_nil : Simulates [] where
  blank inQuotes prev := by
    refine iff_of_true (reads_ok_nil.mpr rfl) ?_
    exact fun mark h ↦ LexState.noConfusion h
  word inQuotes prev token htoken := by
    have hone : lexed .word token [] = (Except.ok []).map (token :: ·) := rfl
    rw [hone, reads_map_text htoken]
    exact iff_of_true (reads_ok_nil.mpr rfl) fun mark h ↦ LexState.noConfusion h
  quoted mark hmark inQuotes prev token hlast := iff_of_false reads_error fun h ↦ h mark rfl
  operator inQuotes o := by
    have hone : lexed .operator [o] [] = (Except.ok []).map ([o] :: ·) := rfl
    rw [hone]
    cases inQuotes with
    | true =>
      change Reads _ ([o].map .text ++ []) ↔ _
      rw [reads_map_text (List.cons_ne_nil o [])]
      exact iff_of_true (reads_ok_nil.mpr rfl) fun mark h ↦ LexState.noConfusion h
    | false =>
      change Reads _ (.operator [o] :: []) ↔ _
      rw [reads_map_operator]
      exact iff_of_true (reads_ok_nil.mpr rfl) fun mark h ↦ LexState.noConfusion h

section Step

variable {rest : PyStr} (c : Char)

theorem Simulates.white (ih : Simulates rest) (hwhite : c ∈ lexWhitespace) (inQuotes : Bool) (prev : Char) :
    Reads (lexed .blank [] rest) (pieces none inQuotes prev (c :: rest)) ↔
      inQuotes = false ∧ lossless .blank inQuotes c rest := by
  have hquote : ¬(c = '"' ∧ prev ≠ '\\') := by
    rintro ⟨rfl, -⟩
    exact absurd hwhite (by decide)
  cases inQuotes with
  | false =>
    rw [pieces_cons (readPiece_white hwhite), and_iff_right rfl]
    exact ih.blank false c
  | true =>
    rw [pieces_cons (readPiece_inside hquote)]
    refine iff_of_false ?_ fun h ↦ Bool.false_ne_true h.1.symm
    rintro ⟨tokens, hrun, hgrouped⟩
    rcases first_of_lexed_blank hrun with rfl | ⟨other, first, others, rfl, hother⟩
    · cases hgrouped
    · obtain ⟨parts, hparts, -⟩ := hgrouped
      rcases hparts with hparts | ⟨-, hparts⟩
      · cases hparts
      · have hsame : Piece.text c = Piece.text other := (List.cons.inj hparts).1
        exact hother (Piece.text.inj hsame ▸ hwhite)

theorem Simulates.single (ih : Simulates rest) (hword : c ∉ lexWordchars)
    (hwhite : c ∉ lexWhitespace) (hquote : c ∉ lexQuotes) (hangle : ¬(c = '<' ∨ c = '>'))
    (inQuotes : Bool) (prev : Char) :
    Reads ((lexed .blank [] rest).map ([c] :: ·)) (pieces none inQuotes prev (c :: rest)) ↔
      lossless .blank inQuotes c rest := by
  have hnone : ¬(c = '"' ∧ prev ≠ '\\') := fun h ↦ hquote (h.1 ▸ by decide)
  have htext := ih.blank inQuotes c
  rw [← reads_map_text (List.cons_ne_nil c [])] at htext
  cases inQuotes with
  | true =>
    rw [pieces_cons (readPiece_inside hnone)]
    exact htext
  | false =>
    by_cases hequal : c = '='
    · subst hequal
      rw [pieces_cons readPiece_equal]
      exact reads_map_operator.trans (ih.blank false '=')
    · have hseparates : ¬Separates c := by
        rintro (hspace | hless | hgreater | heq)
        · exact hwhite hspace
        · exact hangle (Or.inl hless)
        · exact hangle (Or.inr hgreater)
        · exact hequal heq
      rw [pieces_cons (readPiece_outside hnone hseparates)]
      exact htext

theorem not_reads_dropped (hwhite : c ∉ lexWhitespace) (inQuotes : Bool) (prev : Char) :
    ¬Reads (lexed .blank [] rest) (pieces none inQuotes prev (c :: rest)) := by
  rintro ⟨tokens, hrun, hgrouped⟩
  have hle := solid_lexed_le hrun
  have hpending : ∀ o ∈ (none : Option Char), o ∉ lexWhitespace := fun o ho ↦ by cases ho
  have hsolid := solid_pieces hpending inQuotes prev (c :: rest)
  rw [← hgrouped.flatten, Option.toList_none, List.nil_append, solid_cons, if_neg hwhite] at hsolid
  rw [solid_nil] at hle
  omega

theorem pieces_angle (hangle : c = '<' ∨ c = '>') (inQuotes : Bool) (prev : Char) :
    pieces none inQuotes prev (c :: rest) = piecesFromOperator inQuotes c rest := by
  cases inQuotes with
  | true =>
    have hquote : ¬(c = '"' ∧ prev ≠ '\\') := by
      rintro ⟨rfl, -⟩
      exact absurd hangle (by decide)
    rw [pieces_cons (readPiece_inside hquote)]
    rfl
  | false =>
    rw [pieces_cons (readPiece_angle hangle)]
    rfl

theorem Simulates.blank_cons (ih : Simulates rest) (inQuotes : Bool) (prev : Char) :
    Reads (lexed .blank [] (c :: rest)) (pieces none inQuotes prev (c :: rest)) ↔
      lossless .blank inQuotes prev (c :: rest) := by
  rw [lexed, lossless]
  by_cases hwhite : c ∈ lexWhitespace
  · rw [if_pos hwhite, if_pos hwhite]
    exact ih.white c hwhite inQuotes prev
  rw [if_neg hwhite, if_neg hwhite]
  by_cases hcomment : c ∈ lexCommenters
  · rw [if_pos hcomment, if_pos hcomment]
    exact iff_of_false reads_error id
  rw [if_neg hcomment, if_neg hcomment]
  by_cases hword : c ∈ lexWordchars
  · rw [if_pos hword, if_pos hword, pieces_cons (readPiece_text fun _ ↦ not_separates_of_wordchar hword),
      quotesAfter_of_wordchar hword]
    exact ih.word inQuotes c [c] (List.cons_ne_nil c [])
  rw [if_neg hword, if_neg hword]
  by_cases hquote : c ∈ lexQuotes
  · rw [if_pos hquote, if_pos hquote, pieces_cons (readPiece_text fun _ ↦ not_separates_of_quote hquote)]
    exact ih.quoted c hquote (quotesAfter inQuotes prev c) c [c] rfl
  rw [if_neg hquote, if_neg hquote]
  by_cases hangle : c = '<' ∨ c = '>'
  · rw [if_pos hangle, if_pos hangle, pieces_angle c hangle]
    exact ih.operator inQuotes c
  rw [if_neg hangle, if_neg hangle]
  exact ih.single c hword hwhite hquote hangle inQuotes prev

theorem map_text_append (token : PyStr) (parts : List Piece) :
    token.map Piece.text ++ ([.text c] ++ parts) = (token ++ [c]).map .text ++ parts := by
  rw [List.map_append, List.append_assoc]
  rfl

theorem Simulates.word_cons (ih : Simulates rest) (inQuotes : Bool) (prev : Char)
    (htoken : token ≠ []) :
    Reads (lexed .word token (c :: rest)) (token.map .text ++ pieces none inQuotes prev (c :: rest)) ↔
      lossless .word inQuotes prev (c :: rest) := by
  have hlonger : token ++ [c] ≠ [] := List.append_ne_nil_of_right_ne_nil token (List.cons_ne_nil c [])
  rw [lexed, lossless]
  by_cases hwhite : c ∈ lexWhitespace
  · rw [if_pos hwhite, if_pos hwhite, reads_map_text htoken]
    exact ih.white c hwhite inQuotes prev
  rw [if_neg hwhite, if_neg hwhite]
  by_cases hcomment : c ∈ lexCommenters
  · rw [if_pos hcomment, if_pos hcomment]
    exact iff_of_false reads_error id
  rw [if_neg hcomment, if_neg hcomment]
  by_cases hword : c ∈ lexWordchars ∨ c ∈ lexQuotes
  · have hseparates : ¬Separates c := hword.elim not_separates_of_wordchar not_separates_of_quote
    rw [if_pos hword, if_pos hword, pieces_cons (readPiece_text fun _ ↦ hseparates), map_text_append]
    exact ih.word (quotesAfter inQuotes prev c) c _ hlonger
  rw [if_neg hword, if_neg hword]
  by_cases hangle : c = '<' ∨ c = '>'
  · rw [if_pos hangle, if_pos hangle, reads_map_text htoken, pieces_angle c hangle]
    exact ih.operator inQuotes c
  rw [if_neg hangle, if_neg hangle, reads_map_text htoken]
  rw [not_or] at hword
  exact ih.single c hword.1 hwhite hword.2 hangle inQuotes prev

theorem Simulates.quoted_cons (ih : Simulates rest) {mark : Char} (hmark : mark ∈ lexQuotes)
    (inQuotes : Bool) {prev : Char} (hlast : token.getLast? = some prev) :
    Reads (lexed (.quoted mark) token (c :: rest))
        (token.map .text ++ pieces none inQuotes prev (c :: rest)) ↔
      lossless (.quoted mark) inQuotes prev (c :: rest) := by
  have hlonger : token ++ [c] ≠ [] := List.append_ne_nil_of_right_ne_nil token (List.cons_ne_nil c [])
  have hclosing : (c = mark ∧ token.getLast? ≠ some '\\') ↔ c = mark ∧ prev ≠ '\\' := by
    rw [hlast, Ne, Option.some.injEq]
  rw [lexed, lossless]
  by_cases hquote : c = mark ∧ prev ≠ '\\'
  · rw [if_pos (hclosing.mpr hquote), if_pos hquote]
    obtain ⟨rfl, -⟩ := hquote
    rw [pieces_cons (readPiece_text fun _ ↦ not_separates_of_quote hmark), map_text_append,
      reads_map_text hlonger]
    exact ih.blank (quotesAfter inQuotes prev c) c
  rw [if_neg fun h ↦ hquote (hclosing.mp h), if_neg hquote]
  by_cases hc : inQuotes = false → ¬Separates c
  · rw [pieces_cons (readPiece_text hc), map_text_append, and_iff_right hc]
    exact ih.quoted mark hmark (quotesAfter inQuotes prev c) c _ List.getLast?_concat
  · refine iff_of_false ?_ fun h ↦ hc h.1
    rw [Classical.not_imp, not_not] at hc
    obtain ⟨rfl, hseparates⟩ := hc
    rintro ⟨tokens, hrun, hgrouped⟩
    obtain ⟨first, others, rfl, more, rfl⟩ := prefix_of_lexed (Or.inr (Or.inr (Exists.intro mark rfl))) hrun
    obtain ⟨parts, hparts, -⟩ := hgrouped
    rcases hparts with hparts | ⟨-, hparts⟩
    · cases token with
      | nil => cases hlast
      | cons other token => cases hparts
    · rw [List.append_assoc, List.map_append, List.append_assoc] at hparts
      exact pieces_ne_text hseparates _ (List.append_cancel_left hparts)

theorem reads_map_single {o : Char} (hcompletes : ¬completes [o] c) (inQuotes : Bool) :
    Reads (run.map ([o] :: ·)) (piecesFromOperator inQuotes o (c :: rest)) ↔
      Reads run (pieces none inQuotes o (c :: rest)) := by
  cases inQuotes with
  | true => exact reads_map_text (List.cons_ne_nil o [])
  | false =>
    have hparts : piecesFromOperator false o (c :: rest) =
        .operator [o] :: pieces none false o (c :: rest) := by
      change pieces (some o) false o (c :: rest) = _
      conv_lhs => rw [pieces, if_neg hcompletes]
      rw [pieces]
    rw [hparts]
    exact reads_map_operator

theorem reads_map_double {o : Char} (hcompletes : completes [o] c) (inQuotes : Bool) :
    Reads (run.map ([o, c] :: ·)) (piecesFromOperator inQuotes o (c :: rest)) ↔
      Reads run (pieces none inQuotes c rest) := by
  cases inQuotes with
  | true =>
    have hquote : ¬(c = '"' ∧ o ≠ '\\') := by
      rintro ⟨rfl, -⟩
      rcases hcompletes with ⟨-, heq⟩ | ⟨-, heq | heq⟩
      · exact absurd heq (by decide)
      · exact absurd heq (by decide)
      · exact absurd heq (by decide)
    have hparts : piecesFromOperator true o (c :: rest) =
        [o, c].map .text ++ pieces none true c rest := by
      change .text o :: pieces none true o (c :: rest) = _
      rw [pieces_cons (readPiece_inside hquote)]
      rfl
    rw [hparts]
    exact reads_map_text (List.cons_ne_nil o [c])
  | false =>
    have hparts : piecesFromOperator false o (c :: rest) =
        .operator [o, c] :: pieces none false c rest := by
      change pieces (some o) false o (c :: rest) = _
      rw [pieces, if_pos hcompletes]
    rw [hparts]
    exact reads_map_operator

theorem Simulates.operator_cons (ih : Simulates rest) (inQuotes : Bool) (o : Char) :
    Reads (lexed .operator [o] (c :: rest)) (piecesFromOperator inQuotes o (c :: rest)) ↔
      lossless .operator inQuotes o (c :: rest) := by
  rw [lexed, lossless]
  by_cases hcompletes : completes [o] c
  · rw [if_pos hcompletes, if_pos (Or.inl hcompletes)]
    exact (reads_map_double c hcompletes inQuotes).trans (ih.blank inQuotes c)
  rw [if_neg hcompletes]
  by_cases hslash : c = '/'
  · subst hslash
    rw [if_pos rfl, if_pos (Or.inr rfl), reads_map_single '/' hcompletes]
    exact ih.single '/' (by decide) (by decide) (by decide) (by decide) inQuotes o
  have hneither : ¬(completes [o] c ∨ c = '/') := fun h ↦ h.elim hcompletes hslash
  rw [if_neg hslash, if_neg hneither]
  by_cases hword : c ∈ lexWordchars
  · rw [if_pos hword, if_pos hword, reads_map_single c hcompletes,
      pieces_cons (readPiece_text fun _ ↦ not_separates_of_wordchar hword), quotesAfter_of_wordchar hword]
    exact ih.word inQuotes c [c] (List.cons_ne_nil c [])
  rw [if_neg hword, if_neg hword, reads_map_single c hcompletes]
  by_cases hwhite : c ∈ lexWhitespace
  · rw [and_iff_right hwhite]
    exact ih.white c hwhite inQuotes o
  · exact iff_of_false (not_reads_dropped c hwhite inQuotes o) fun h ↦ hwhite h.1

end Step

theorem simulates (rest : PyStr) : Simulates rest := by
  induction rest with
  | nil => exact simulates_nil
  | cons c rest ih =>
    exact ⟨fun inQuotes prev ↦ ih.blank_cons c inQuotes prev,
      fun inQuotes prev _ htoken ↦ ih.word_cons c inQuotes prev htoken,
      fun _ hmark inQuotes _ _ hlast ↦ ih.quoted_cons c hmark inQuotes hlast,
      fun inQuotes o ↦ ih.operator_cons c inQuotes o⟩

/-- The tokens of a query lose nothing just where its characters are read without a loss. -/
theorem tokenize_delivers_iff (query : PyStr) {fuel : ℕ} (hfuel : query.length < fuel) :
    Delivers query (tokenize fuel query) ↔ lossless .blank false ' ' query := by
  rw [tokenize_eq hfuel]
  exact (simulates query).blank false ' '

/-- A comparison of two words. -/
theorem tokenize_delivers_iff_comparison :
    "a<=b".toList.length < 5 ∧ (Delivers "a<=b".toList (tokenize 5 "a<=b".toList) ↔
      lossless .blank false ' ' "a<=b".toList) :=
  ⟨by decide, tokenize_delivers_iff _ (by decide)⟩

/-- The quotation mark behind `>` is dropped, and the next one does not end anything. -/
theorem not_delivers_quoted_term :
    Balanced "a>\"b\"".toList ∧ ¬Delivers "a>\"b\"".toList (tokenize 6 "a>\"b\"".toList) := by
  refine ⟨rfl, ?_⟩
  have htokens : tokenize 6 "a>\"b\"".toList = .ok [['a'], ['>'], ['b', '"']] := rfl
  rw [htokens]
  rintro ⟨tokens, hrun, hgrouped⟩
  have hflatten := hgrouped.flatten
  rw [← Except.ok.inj hrun] at hflatten
  exact absurd hflatten (by decide)

end Cheshire.Srw
