import Cheshire.Index.Ngrams
import Cheshire.Index.NumberKeys
import Cheshire.Lib.Fields

/-!
# Keyword extraction

The words of a text go into a hash table with their frequencies and positions.  One loop takes them
from three places: from the text, from behind the hyphen of the last word, and from an expansion list.
Behind a hyphen the loop reads on with all that is left of the word, and it looks only the last part of
a word up in the expansion table.
-/

namespace Cheshire.Index

open Lib

def KEYWORD : ℕ := 1 <<< 3
def PRIMARYKEY : ℕ := 1 <<< 12 ||| 1 <<< 13
def URL_KEY : ℕ := 1 <<< 18
def FILENAME_KEY : ℕ := 1 <<< 19

/-- `urlletters`, `filenameletters` -/
def URL_LETTERS : Term := [32, 9, 10, 13, 7, 8, 11, 12, 60, 62]

def NO_LETTERS : Term := [32, 9, 10, 13, 7, 8, 11, 12]

/-- What is read of an `idx_list_entry`, with the routine that normalizes a word for it.  The callers
ask for one of the three flags. -/
structure KeywordIndex where
  idxType : ℕ
  extracted : idxType &&& KEYWORD ≠ 0 ∨ idxType &&& URL_KEY ≠ 0 ∨ idxType &&& FILENAME_KEY ≠ 0
  expansionHash : Term → Option Term
  normalizeKey : Term → Option Term

def KeywordIndex.breakletters (idx : KeywordIndex) : Term :=
  if idx.idxType &&& NORM_MIN ≠ 0 then NO_LETTERS
  else if idx.idxType &&& NORM_DO_NOTHING ≠ 0 then NO_LETTERS
  else if idx.idxType &&& FILENAME_KEY ≠ 0 then URL_LETTERS
  else if idx.idxType &&& URL_KEY ≠ 0 then URL_LETTERS
  else KEYWORD_LETTERS

/-- `tolower` -/
def lowerChar (c : UInt8) : UInt8 := if 65 ≤ c ∧ c ≤ 90 then c + 32 else c

def HYPHEN : UInt8 := 45

/-- `hash_term_data`; the positions in their order. -/
structure HashTermData where
  termid : ℤ
  termfreq : ℤ
  positions : List ℤ

/-- The entries of `hash_tab`. -/
abbrev HashTab := Term → Option HashTermData

/-- A part of the text, or of an expansion. -/
abbrev TextWord := Piece UInt8

/-- `strtok_r`: the next word and what is left behind it. -/
def strtokR (breakletters : Term) (unread : TextWord) : Option (TextWord × TextWord) :=
  let rest := unread.text.dropWhile (· ∈ breakletters)
  let start := unread.offset + (unread.text.takeWhile (· ∈ breakletters)).length
  let word := rest.takeWhile (· ∉ breakletters)
  if rest = [] then none
  else some (⟨start, word⟩, ⟨start + word.length + 1, (rest.dropWhile (· ∉ breakletters)).tail⟩)

/-- `strchr(word_ptr, '-')`: the rest of a word from its first hyphen on. -/
def strchrHyphen (word : TextWord) : Option TextWord :=
  if HYPHEN ∈ word.text then
    some ⟨word.offset + (word.text.takeWhile (· ≠ HYPHEN)).length, word.text.dropWhile (· ≠ HYPHEN)⟩
  else none

/-- What is kept between two passes; `newExp` tells that `new_exp` is not null. -/
structure ExtractState where
  hyphen : Option TextWord
  unread : TextWord
  expansion : Option Term
  newExp : Bool
  wordOffset : ℤ
  hashTab : HashTab

def enterWord (idx : KeywordIndex) (hashTab : HashTab) (resultWord : Term) (wordOffset : ℤ) :
    Exec HashTab :=
  match hashTab resultWord with
  | none => .ok (Function.update hashTab resultWord
      (some ⟨-1, 1, if idx.idxType &&& PROXIMITY ≠ 0 then [wordOffset] else []⟩))
  | some htData =>
    if idx.idxType &&& PROXIMITY ≠ 0 then
      if htData.positions = [] then .error .nullDereference
      else .ok (Function.update hashTab resultWord
        (some ⟨htData.termid, htData.termfreq + 1, htData.positions ++ [wordOffset]⟩))
    else .ok (Function.update hashTab resultWord
      (some ⟨htData.termid, htData.termfreq + 1, htData.positions⟩))

/-- The first half of a pass: the word is normalized and entered. -/
def enterNormalized (idx : KeywordIndex) (word : Term) (wordOffset : ℤ) (hashTab : HashTab) :
    Exec HashTab :=
  match idx.normalizeKey word with
  | none => .ok hashTab
  | some resultWord =>
    if resultWord = [] then .ok hashTab else enterWord idx hashTab resultWord wordOffset

def nextToken (idx : KeywordIndex) (state : ExtractState) : Option TextWord × ExtractState :=
  match strtokR idx.breakletters state.unread with
  | none => (none, state)
  | some (word, unread) => (some word, { state with unread := unread })

/-- `strsep(&expansion,' ')`: the second argument is the address of a string, and none is at 32. -/
def strsepBlank (_expansion : Term) : Exec (Option Term × Option Term) := .error .outOfBounds

section Loop

variable (idx : KeywordIndex)

/-- The second half of a pass: the next `word_ptr`.  A word of an expansion has no place in the text;
its place is not asked for while `new_exp` is set. -/
def advance (word : TextWord) (state : ExtractState) : Exec (Option TextWord × ExtractState) :=
  if state.hyphen.isSome ∧ idx.idxType &&& PRIMARYKEY = 0 then
    .ok (state.hyphen, { state with hyphen := none })
  else
    match strchrHyphen word with
    | some hyphen =>
      if idx.idxType &&& PRIMARYKEY = 0 then
        .ok (some ⟨word.offset, word.text.takeWhile (· ≠ HYPHEN)⟩,
          { state with hyphen := some ⟨hyphen.offset + 1, hyphen.text.tail⟩ })
      else expand word { state with hyphen := some hyphen }
    | none => expand word { state with hyphen := none }
where
  expand (word : TextWord) (state : ExtractState) : Exec (Option TextWord × ExtractState) :=
    match state.expansion with
    | some expansion =>
      strsepBlank expansion >>= fun found ↦
        match found.1 with
        | none => .ok (nextToken idx { state with newExp := false, expansion := none })
        | some text => .ok (some ⟨0, text⟩, { state with expansion := found.2 })
    | none =>
      match idx.expansionHash (word.text.map lowerChar) with
      | some expansion =>
        strsepBlank expansion >>= fun found ↦
          .ok (found.1.map fun text ↦ ⟨0, text⟩,
            { state with expansion := found.2, newExp := found.1.isSome })
      | none => .ok (nextToken idx state)

def extractLoop (bufferOffset : ℤ) : ℕ → TextWord → ExtractState → Exec HashTab
  | 0, _, _ => .error .unfinished
  | fuel + 1, word, state =>
    let wordOffset := if state.newExp then state.wordOffset else bufferOffset + word.offset
    enterNormalized idx word.text wordOffset state.hashTab >>= fun hashTab ↦
      advance idx word { state with wordOffset := wordOffset, hashTab := hashTab } >>=
        fun next ↦
          match next.1 with
          | none => .ok next.2.hashTab
          | some word => extractLoop bufferOffset fuel word next.2

/-- `idxdata` of the text that `detag_data_block` makes of the data. -/
def idxdata (databuf : Option Term) (bufferOffset : ℤ) (hashTab : HashTab) (fuel : ℕ) :
    Exec HashTab :=
  match databuf with
  | none => .ok hashTab
  | some databuf =>
    match strtokR idx.breakletters ⟨0, blankDashes databuf⟩ with
    | none => .ok hashTab
    | some (word, unread) =>
      extractLoop idx bufferOffset fuel word ⟨none, unread, none, false, 0, hashTab⟩

end Loop

/-- The words of a text: the runs without break letters. -/
def KeywordIndex.textRuns (idx : KeywordIndex) (databuf : Option Term) : List TextWord :=
  match databuf with
  | none => []
  | some databuf => Piece.runs (· ∈ idx.breakletters) ⟨0, blankDashes databuf⟩

/-- A word, and its parts if it has hyphens. -/
def tokensOf (run : TextWord) : List TextWord :=
  if HYPHEN ∈ run.text then run :: run.fields (· = HYPHEN) else [run]

/-- The words of the expansion of a token, at its place. -/
def KeywordIndex.expansionsOf (idx : KeywordIndex) (token : TextWord) : List TextWord :=
  match idx.expansionHash (token.text.map lowerChar) with
  | none => []
  | some expansion => (expansion.splitOnP (· = 32)).map fun text ↦ ⟨token.offset, text⟩

/-- The tokens of a text, each followed by the words of its expansion. -/
def KeywordIndex.wordsOf (idx : KeywordIndex) (databuf : Option Term) : List TextWord :=
  ((idx.textRuns databuf).flatMap tokensOf).flatMap fun token ↦ token :: idx.expansionsOf token

/-- The term of a word and its position; a stop word has none. -/
def KeywordIndex.occurrence (idx : KeywordIndex) (bufferOffset : ℤ) (word : TextWord) :
    Option (Term × ℤ) :=
  match idx.normalizeKey word.text with
  | none => none
  | some resultWord => if resultWord = [] then none else some (resultWord, bufferOffset + word.offset)

def KeywordIndex.occurrences (idx : KeywordIndex) (bufferOffset : ℤ) (words : List TextWord) :
    List (Term × ℤ) :=
  words.filterMap (idx.occurrence bufferOffset)

def positionsOf (occurrences : List (Term × ℤ)) (term : Term) : List ℤ :=
  (occurrences.filter fun occurrence ↦ occurrence.1 = term).map Prod.snd

/-- The hash table has the terms with their frequencies, and their positions if the index keeps them. -/
def RightTable (idx : KeywordIndex) (occurrences : List (Term × ℤ)) (hashTab : HashTab) : Prop :=
  ∀ term, (positionsOf occurrences term = [] → hashTab term = none) ∧
    (positionsOf occurrences term ≠ [] → ∃ htData, hashTab term = some htData ∧
      htData.termfreq = (positionsOf occurrences term).length ∧
      (idx.idxType &&& PROXIMITY ≠ 0 → htData.positions = positionsOf occurrences term))

/-- The hash table that `idxdata` leaves. -/
def Extracts (idx : KeywordIndex) (databuf : Option Term) (bufferOffset : ℤ) : Prop :=
  ∃ fuel hashTab, idxdata idx databuf bufferOffset (fun _ ↦ none) fuel = .ok hashTab ∧
    RightTable idx (idx.occurrences bufferOffset (idx.wordsOf databuf)) hashTab

theorem strtokR_cons_mem {letters : Term} {offset : ℕ} {sep : UInt8} {rest : Term}
    (hsep : sep ∈ letters) :
    strtokR letters ⟨offset, sep :: rest⟩ = strtokR letters ⟨offset + 1, rest⟩ := by
  have hdrop : (sep :: rest).dropWhile (· ∈ letters) = rest.dropWhile (· ∈ letters) :=
    List.dropWhile_cons_of_pos (decide_eq_true hsep)
  have htake : (sep :: rest).takeWhile (· ∈ letters) = sep :: rest.takeWhile (· ∈ letters) :=
    List.takeWhile_cons_of_pos (decide_eq_true hsep)
  simp only [strtokR, hdrop, htake, List.length_cons, Nat.add_assoc, Nat.add_comm 1]

theorem strtokR_of_forall {letters : Term} {offset : ℕ} {first rest : Term} (hne : first ≠ [])
    (hfirst : ∀ c ∈ first, c ∉ letters) (hrest : rest.takeWhile (· ∉ letters) = []) :
    strtokR letters ⟨offset, first ++ rest⟩ =
      some (⟨offset, first⟩, ⟨offset + first.length + 1, rest.tail⟩) := by
  have hdrop : (first ++ rest).dropWhile (· ∈ letters) = first ++ rest := by
    cases first with
    | nil => exact absurd rfl hne
    | cons c first => exact List.dropWhile_cons_of_neg (by simpa using hfirst c List.mem_cons_self)
  have htake : (first ++ rest).takeWhile (· ∈ letters) = [] := by
    cases first with
    | nil => exact absurd rfl hne
    | cons c first => exact List.takeWhile_cons_of_neg (by simpa using hfirst c List.mem_cons_self)
  have hall : ∀ c ∈ first, decide (c ∉ letters) = true := fun c hmem ↦ decide_eq_true (hfirst c hmem)
  have hword : (first ++ rest).takeWhile (· ∉ letters) = first := by
    rw [List.takeWhile_append_of_pos hall, hrest, List.append_nil]
  have hleft : (first ++ rest).dropWhile (· ∉ letters) = rest := by
    rw [List.dropWhile_append_of_pos hall]
    have happend := List.takeWhile_append_dropWhile (p := (· ∉ letters)) (l := rest)
    rwa [hrest, List.nil_append] at happend
  simp only [strtokR, hdrop, htake, hword, hleft, List.length_nil, Nat.add_zero]
  rw [if_neg (List.append_ne_nil_of_left_ne_nil hne rest)]

theorem strtokR_spec (letters : Term) (unread : TextWord) :
    strtokR letters unread = none ∧ unread.runs (· ∈ letters) = [] ∨
      ∃ word left, strtokR letters unread = some (word, left) ∧
        unread.runs (· ∈ letters) = word :: left.runs (· ∈ letters) := by
  induction unread using Piece.cut_induction (· ∈ letters) with
  | last offset text hall =>
    by_cases hnil : text = []
    · subst hnil
      exact Or.inl ⟨rfl, rfl⟩
    · have hrun := @strtokR_of_forall letters offset text [] hnil
        (fun c hmem ↦ of_decide_eq_false (hall c hmem)) rfl
      rw [List.append_nil] at hrun
      exact Or.inr ⟨_, _, hrun, Piece.runs_of_forall hnil hall⟩
  | cut offset first sep rest hfirst hsep ih =>
    have hmem : sep ∈ letters := of_decide_eq_true hsep
    by_cases hnil : first = []
    · subst hnil
      have hruns : Piece.runs (· ∈ letters) ⟨offset, sep :: rest⟩ =
          Piece.runs (· ∈ letters) ⟨offset + 1, rest⟩ := Piece.runs_cons_sep hsep
      rw [List.nil_append, strtokR_cons_mem hmem, hruns]
      exact ih
    · have hstop : (sep :: rest).takeWhile (· ∉ letters) = [] :=
        List.takeWhile_cons_of_neg (by simpa using hmem)
      have hrun := @strtokR_of_forall letters offset first _ hnil
        (fun c hc ↦ of_decide_eq_false (hfirst c hc)) hstop
      exact Or.inr ⟨_, _, hrun, Piece.runs_append_cons hnil hfirst hsep⟩

theorem strtokR_of_runs_nil {letters : Term} {unread : TextWord}
    (h : unread.runs (· ∈ letters) = []) : strtokR letters unread = none := by
  rcases strtokR_spec letters unread with hend | ⟨word, left, -, hword⟩
  · exact hend.1
  · exact absurd (h.symm.trans hword) (List.cons_ne_nil _ _).symm

theorem strtokR_of_runs_cons {letters : Term} {unread next : TextWord} {runs : List TextWord}
    (h : unread.runs (· ∈ letters) = next :: runs) :
    ∃ left, strtokR letters unread = some (next, left) ∧ left.runs (· ∈ letters) = runs := by
  rcases strtokR_spec letters unread with hend | ⟨word, left, hfound, hword⟩
  · exact absurd (h.symm.trans hend.2) (List.cons_ne_nil _ _)
  · obtain ⟨rfl, hmore⟩ := List.cons.inj (h.symm.trans hword)
    exact ⟨left, hfound, hmore.symm⟩

theorem positionsOf_append (first second : List (Term × ℤ)) (term : Term) :
    positionsOf (first ++ second) term = positionsOf first term ++ positionsOf second term := by
  rw [positionsOf, List.filter_append, List.map_append]
  rfl

theorem positionsOf_singleton_self (term : Term) (position : ℤ) :
    positionsOf [(term, position)] term = [position] := by
  simp [positionsOf]

theorem positionsOf_singleton_ne {term other : Term} (hne : other ≠ term) (position : ℤ) :
    positionsOf [(term, position)] other = [] := by
  simp [positionsOf, hne.symm]

theorem rightTable_nil (idx : KeywordIndex) : RightTable idx [] fun _ ↦ none :=
  fun _ ↦ ⟨fun _ ↦ rfl, fun h ↦ absurd rfl h⟩

section Table

variable {idx : KeywordIndex} {occurrences : List (Term × ℤ)} {hashTab : HashTab}

theorem RightTable.update (h : RightTable idx occurrences hashTab) {term : Term} {position : ℤ}
    {htData : HashTermData} (hfreq : htData.termfreq = (positionsOf occurrences term).length + 1)
    (hpositions : idx.idxType &&& PROXIMITY ≠ 0 →
      htData.positions = positionsOf occurrences term ++ [position]) :
    RightTable idx (occurrences ++ [(term, position)])
      (Function.update hashTab term (some htData)) := by
  intro other
  by_cases heq : other = term
  · subst heq
    rw [positionsOf_append, positionsOf_singleton_self, Function.update_self]
    refine ⟨fun hnil ↦ absurd hnil (List.concat_ne_nil _ _), fun _ ↦ ⟨htData, rfl, ?_, hpositions⟩⟩
    rw [hfreq, List.length_append]
    rfl
  · rw [positionsOf_append, positionsOf_singleton_ne heq, List.append_nil, Function.update_of_ne heq]
    exact h other

theorem RightTable.enterWord (h : RightTable idx occurrences hashTab) (term : Term) (position : ℤ) :
    ∃ hashTab', enterWord idx hashTab term position = .ok hashTab' ∧
      RightTable idx (occurrences ++ [(term, position)]) hashTab' := by
  by_cases hnew : positionsOf occurrences term = []
  · have hnone := (h term).1 hnew
    refine ⟨_, by rw [Index.enterWord, hnone], h.update (by rw [hnew]; rfl) fun hproximity ↦ ?_⟩
    rw [hnew, if_pos hproximity]
    rfl
  · obtain ⟨htData, hsome, hfreq, hpositions⟩ := (h term).2 hnew
    by_cases hproximity : idx.idxType &&& PROXIMITY ≠ 0
    · have hne : htData.positions ≠ [] := by rwa [hpositions hproximity]
      refine ⟨_, by rw [Index.enterWord, hsome]; exact (if_pos hproximity).trans (if_neg hne),
        h.update (by rw [hfreq]) fun _ ↦ by rw [hpositions hproximity]⟩
    · exact ⟨_, by rw [Index.enterWord, hsome]; exact if_neg hproximity,
        h.update (by rw [hfreq]) fun h ↦ absurd h hproximity⟩

theorem RightTable.enterNormalized (h : RightTable idx occurrences hashTab) (bufferOffset : ℤ)
    (word : TextWord) :
    ∃ hashTab', enterNormalized idx word.text (bufferOffset + word.offset) hashTab = .ok hashTab' ∧
      RightTable idx (occurrences ++ idx.occurrences bufferOffset [word]) hashTab' := by
  rw [Index.enterNormalized, KeywordIndex.occurrences, List.filterMap_cons, KeywordIndex.occurrence]
  cases idx.normalizeKey word.text with
  | none => exact ⟨hashTab, rfl, by simpa using h⟩
  | some resultWord =>
    by_cases hnil : resultWord = []
    · simp only [if_pos hnil]
      exact ⟨hashTab, rfl, by simpa using h⟩
    · simp only [if_neg hnil]
      exact h.enterWord resultWord _

end Table

/-- The whole of a word, and at each hyphen the part before it and all that is behind it. -/
def brokenUp (run : TextWord) : List TextWord :=
  run :: ((run.fields (· = HYPHEN)).zip (run.rests (· = HYPHEN))).flatMap fun pair ↦ [pair.1, pair.2]

def KeywordIndex.readings (idx : KeywordIndex) (run : TextWord) : List TextWord :=
  if idx.idxType &&& PRIMARYKEY = 0 then brokenUp run else [run]

/-- The part of a run that is looked up in the expansion table. -/
def KeywordIndex.lookedUp (idx : KeywordIndex) (run : TextWord) : Term :=
  if idx.idxType &&& PRIMARYKEY = 0 then run.text.rtakeWhile (· ≠ HYPHEN) else run.text

section Hyphens

variable {offset : ℕ} {text first rest : Term} {sep : UInt8}

theorem brokenUp_of_forall (h : ∀ c ∈ text, decide (c = HYPHEN) = false) :
    brokenUp ⟨offset, text⟩ = [⟨offset, text⟩] := by
  rw [brokenUp, Piece.rests_of_forall h, List.zip_nil_right]
  rfl

theorem brokenUp_append_cons (h : ∀ c ∈ first, decide (c = HYPHEN) = false)
    (hsep : decide (sep = HYPHEN) = true) :
    brokenUp ⟨offset, first ++ sep :: rest⟩ = ⟨offset, first ++ sep :: rest⟩ :: ⟨offset, first⟩ ::
      brokenUp ⟨offset + first.length + 1, rest⟩ := by
  have hfields : Piece.fields (fun c ↦ decide (c = HYPHEN)) ⟨offset, first ++ sep :: rest⟩ = _ :=
    Piece.fields_append_cons h hsep
  have hrests : Piece.rests (fun c ↦ decide (c = HYPHEN)) ⟨offset, first ++ sep :: rest⟩ = _ :=
    Piece.rests_append_cons h hsep
  rw [brokenUp, hfields, hrests]
  rfl

theorem strchrHyphen_of_forall (h : ∀ c ∈ text, decide (c = HYPHEN) = false) :
    strchrHyphen ⟨offset, text⟩ = none :=
  if_neg fun hmem ↦ by simpa using h HYPHEN hmem

theorem takeWhile_hyphen (h : ∀ c ∈ first, decide (c = HYPHEN) = false)
    (hsep : decide (sep = HYPHEN) = true) :
    (first ++ sep :: rest).takeWhile (· ≠ HYPHEN) = first := by
  have hall : ∀ c ∈ first, decide (c ≠ HYPHEN) = true := fun c hmem ↦ by simpa using h c hmem
  have hstop : (sep :: rest).takeWhile (· ≠ HYPHEN) = [] :=
    List.takeWhile_cons_of_neg (by simpa using hsep)
  rw [List.takeWhile_append_of_pos hall, hstop, List.append_nil]

theorem strchrHyphen_append_cons (h : ∀ c ∈ first, decide (c = HYPHEN) = false)
    (hsep : decide (sep = HYPHEN) = true) :
    strchrHyphen ⟨offset, first ++ sep :: rest⟩ = some ⟨offset + first.length, sep :: rest⟩ := by
  have hmem : HYPHEN ∈ first ++ sep :: rest :=
    List.mem_append_right _ (List.mem_cons.mpr (Or.inl (of_decide_eq_true hsep).symm))
  have htake : (first ++ sep :: rest).takeWhile (· ≠ HYPHEN) = first := takeWhile_hyphen h hsep
  have happend := List.takeWhile_append_dropWhile (p := (· ≠ HYPHEN)) (l := first ++ sep :: rest)
  rw [htake] at happend
  have hdrop := List.append_cancel_left happend
  rw [strchrHyphen, if_pos hmem]
  simp only [htake, hdrop]

theorem rtakeWhile_of_forall (h : ∀ c ∈ text, decide (c = HYPHEN) = false) :
    text.rtakeWhile (· ≠ HYPHEN) = text :=
  List.rtakeWhile_eq_self_iff.mpr fun c hmem ↦ by simpa using h c hmem

theorem rtakeWhile_append_cons (hsep : decide (sep = HYPHEN) = true) :
    (first ++ sep :: rest).rtakeWhile (· ≠ HYPHEN) = rest.rtakeWhile (· ≠ HYPHEN) := by
  have hneg : ¬decide (sep ≠ HYPHEN) = true := by simpa using hsep
  induction rest using List.reverseRecOn with
  | nil => rw [List.rtakeWhile_concat, if_neg hneg, List.rtakeWhile_nil]
  | append_singleton rest c ih =>
    rw [← List.cons_append, ← List.append_assoc, List.rtakeWhile_concat, List.rtakeWhile_concat, ih]

end Hyphens

section Run

variable {idx : KeywordIndex} {bufferOffset : ℤ}

/-- The loop goes on with the next word. -/
def resume (idx : KeywordIndex) (bufferOffset : ℤ) (fuel : ℕ)
    (step : Exec (Option TextWord × ExtractState)) : Exec HashTab :=
  step >>= fun next ↦
    match next.1 with
    | none => .ok next.2.hashTab
    | some word => extractLoop idx bufferOffset fuel word next.2

theorem extractLoop_pass {word : TextWord} {hashTab hashTab' : HashTab}
    (henter : enterNormalized idx word.text (bufferOffset + word.offset) hashTab = .ok hashTab')
    (fuel : ℕ) (hyphen : Option TextWord) (unread : TextWord) (wordOffset : ℤ) :
    extractLoop idx bufferOffset (fuel + 1) word
        ⟨hyphen, unread, none, false, wordOffset, hashTab⟩ =
      resume idx bufferOffset fuel (advance idx word
        ⟨hyphen, unread, none, false, bufferOffset + word.offset, hashTab'⟩) := by
  rw [extractLoop]
  change enterNormalized idx word.text (bufferOffset + word.offset) hashTab >>= _ = _
  rw [henter]
  rfl

theorem extractLoop_brokenUp (bufferOffset : ℤ)
    (hsplit : idx.idxType &&& PRIMARYKEY = 0) (run : TextWord)
    {occurrences : List (Term × ℤ)} {hashTab : HashTab} (h : RightTable idx occurrences hashTab)
    (unread : TextWord) (wordOffset : ℤ) :
    ∃ passes last wordOffset' hashTab', last.text = run.text.rtakeWhile (· ≠ HYPHEN) ∧
      RightTable idx (occurrences ++ idx.occurrences bufferOffset (brokenUp run)) hashTab' ∧
      ∀ fuel, extractLoop idx bufferOffset (fuel + passes) run
          ⟨none, unread, none, false, wordOffset, hashTab⟩ =
        resume idx bufferOffset fuel (advance.expand idx last
          ⟨none, unread, none, false, wordOffset', hashTab'⟩) := by
  induction run using Piece.cut_induction (· = HYPHEN) generalizing occurrences hashTab wordOffset with
  | last offset text hall =>
    obtain ⟨hashTab', henter, hright⟩ := h.enterNormalized bufferOffset ⟨offset, text⟩
    refine ⟨1, ⟨offset, text⟩, bufferOffset + offset, hashTab', (rtakeWhile_of_forall hall).symm, ?_,
      fun fuel ↦ ?_⟩
    · rwa [brokenUp_of_forall hall]
    · rw [extractLoop_pass henter, advance, if_neg (by simp), strchrHyphen_of_forall hall]
  | cut offset first sep rest hfirst hsep ih =>
    obtain ⟨hashTab₁, henter₁, hright₁⟩ := h.enterNormalized bufferOffset ⟨offset, first ++ sep :: rest⟩
    obtain ⟨hashTab₂, henter₂, hright₂⟩ := hright₁.enterNormalized bufferOffset ⟨offset, first⟩
    obtain ⟨passes, last, wordOffset', hashTab', hlast, hright, hrun⟩ :=
      ih hright₂ (bufferOffset + offset)
    refine ⟨passes + 2, last, wordOffset', hashTab', ?_, ?_, fun fuel ↦ ?_⟩
    · rw [hlast, rtakeWhile_append_cons hsep]
    · rw [brokenUp_append_cons hfirst hsep]
      have happend : occurrences ++ idx.occurrences bufferOffset (⟨offset, first ++ sep :: rest⟩ ::
          ⟨offset, first⟩ :: brokenUp ⟨offset + first.length + 1, rest⟩) =
          occurrences ++ idx.occurrences bufferOffset [⟨offset, first ++ sep :: rest⟩] ++
            idx.occurrences bufferOffset [⟨offset, first⟩] ++
            idx.occurrences bufferOffset (brokenUp ⟨offset + first.length + 1, rest⟩) := by
        simp only [KeywordIndex.occurrences, List.append_assoc, ← List.filterMap_append,
          List.cons_append, List.nil_append]
      rwa [happend]
    · have hwhole : advance idx ⟨offset, first ++ sep :: rest⟩
          ⟨none, unread, none, false, bufferOffset + offset, hashTab₁⟩ =
          .ok (some ⟨offset, first⟩, ⟨some ⟨offset + first.length + 1, rest⟩, unread, none, false,
            bufferOffset + offset, hashTab₁⟩) := by
        rw [advance, if_neg (by simp), strchrHyphen_append_cons hfirst hsep]
        simp only [if_pos hsplit, takeWhile_hyphen hfirst hsep, List.tail_cons]
      have hpart : advance idx ⟨offset, first⟩ ⟨some ⟨offset + first.length + 1, rest⟩, unread,
          none, false, bufferOffset + offset, hashTab₂⟩ =
          .ok (some ⟨offset + first.length + 1, rest⟩, ⟨none, unread, none, false,
            bufferOffset + offset, hashTab₂⟩) := by
        rw [advance, if_pos ⟨rfl, hsplit⟩]
      rw [← Nat.add_assoc, extractLoop_pass henter₁, hwhole]
      change extractLoop idx bufferOffset (fuel + passes + 1) _ _ = _
      rw [extractLoop_pass henter₂, hpart]
      exact hrun fuel

theorem extractLoop_readings (bufferOffset : ℤ)
    (run : TextWord) {occurrences : List (Term × ℤ)} {hashTab : HashTab}
    (h : RightTable idx occurrences hashTab) {hyphen : Option TextWord}
    (hhyphen : idx.idxType &&& PRIMARYKEY = 0 → hyphen = none) (unread : TextWord) (wordOffset : ℤ) :
    ∃ passes last hyphen' wordOffset' hashTab', last.text = idx.lookedUp run ∧
      (idx.idxType &&& PRIMARYKEY = 0 → hyphen' = none) ∧
      RightTable idx (occurrences ++ idx.occurrences bufferOffset (idx.readings run)) hashTab' ∧
      ∀ fuel, extractLoop idx bufferOffset (fuel + passes) run
          ⟨hyphen, unread, none, false, wordOffset, hashTab⟩ =
        resume idx bufferOffset fuel (advance.expand idx last
          ⟨hyphen', unread, none, false, wordOffset', hashTab'⟩) := by
  by_cases hsplit : idx.idxType &&& PRIMARYKEY = 0
  · obtain ⟨passes, last, wordOffset', hashTab', hlast, hright, hrun⟩ :=
      extractLoop_brokenUp bufferOffset hsplit run h unread wordOffset
    refine ⟨passes, last, none, wordOffset', hashTab', ?_, fun _ ↦ rfl, ?_, ?_⟩
    · rw [hlast, KeywordIndex.lookedUp, if_pos hsplit]
    · rwa [KeywordIndex.readings, if_pos hsplit]
    · rw [hhyphen hsplit]
      exact hrun
  · obtain ⟨hashTab', henter, hright⟩ := h.enterNormalized bufferOffset run
    refine ⟨1, run, strchrHyphen run, bufferOffset + run.offset, hashTab', ?_,
      fun h ↦ absurd h hsplit, ?_, fun fuel ↦ ?_⟩
    · rw [KeywordIndex.lookedUp, if_neg hsplit]
    · rwa [KeywordIndex.readings, if_neg hsplit]
    · rw [extractLoop_pass henter, advance, if_neg fun h ↦ hsplit h.2]
      cases strchrHyphen run with
      | none => rfl
      | some found => simp only [if_neg hsplit]

theorem expand_of_unhit {last : TextWord} (hunhit : idx.expansionHash (last.text.map lowerChar) = none)
    (hyphen : Option TextWord) (unread : TextWord) (wordOffset : ℤ) (hashTab : HashTab) :
    advance.expand idx last ⟨hyphen, unread, none, false, wordOffset, hashTab⟩ =
      .ok (nextToken idx ⟨hyphen, unread, none, false, wordOffset, hashTab⟩) := by
  rw [advance.expand, hunhit]

theorem expand_of_hit {last : TextWord} {expansion : Term}
    (hhit : idx.expansionHash (last.text.map lowerChar) = some expansion)
    (hyphen : Option TextWord) (unread : TextWord) (wordOffset : ℤ) (hashTab : HashTab) :
    advance.expand idx last ⟨hyphen, unread, none, false, wordOffset, hashTab⟩ =
      .error .outOfBounds := by
  rw [advance.expand, hhit]
  rfl

theorem extractLoop_runs (runs : List TextWord) (run : TextWord) {occurrences : List (Term × ℤ)}
    {hashTab : HashTab} (h : RightTable idx occurrences hashTab) {hyphen : Option TextWord}
    (hhyphen : idx.idxType &&& PRIMARYKEY = 0 → hyphen = none) {unread : TextWord}
    (hunread : unread.runs (· ∈ idx.breakletters) = runs) (wordOffset : ℤ)
    (hunhit : ∀ other ∈ run :: runs, idx.expansionHash ((idx.lookedUp other).map lowerChar) = none) :
    ∃ passes hashTab',
      RightTable idx (occurrences ++ idx.occurrences bufferOffset ((run :: runs).flatMap idx.readings))
        hashTab' ∧
      ∀ fuel, extractLoop idx bufferOffset (fuel + passes) run
        ⟨hyphen, unread, none, false, wordOffset, hashTab⟩ = .ok hashTab' := by
  induction runs generalizing run occurrences hashTab hyphen unread wordOffset with
  | nil =>
    obtain ⟨passes, last, hyphen', wordOffset', hashTab', hlast, -, hright, hrun⟩ :=
      extractLoop_readings bufferOffset run h hhyphen unread wordOffset
    refine ⟨passes, hashTab', ?_, fun fuel ↦ ?_⟩
    · rwa [List.flatMap_singleton]
    · have hmiss : idx.expansionHash (last.text.map lowerChar) = none := by
        rw [hlast]
        exact hunhit run List.mem_cons_self
      rw [hrun, expand_of_unhit hmiss, nextToken, strtokR_of_runs_nil hunread]
      rfl
  | cons next runs ih =>
    obtain ⟨passes, last, hyphen', wordOffset', hashTab₁, hlast, hhyphen', hright, hrun⟩ :=
      extractLoop_readings bufferOffset run h hhyphen unread wordOffset
    obtain ⟨left, hnext, hleft⟩ := strtokR_of_runs_cons hunread
    obtain ⟨morePasses, hashTab', hright', hrest⟩ := ih next hright hhyphen' hleft wordOffset'
      fun other hmem ↦ hunhit other (List.mem_cons_of_mem _ hmem)
    refine ⟨morePasses + passes, hashTab', ?_, fun fuel ↦ ?_⟩
    · rw [List.flatMap_cons, KeywordIndex.occurrences, List.filterMap_append, ← List.append_assoc]
      exact hright'
    · have hmiss : idx.expansionHash (last.text.map lowerChar) = none := by
        rw [hlast]
        exact hunhit run List.mem_cons_self
      rw [← Nat.add_assoc, hrun, expand_of_unhit hmiss, nextToken, hnext]
      exact hrest fuel

theorem extractLoop_hit (runs : List TextWord) (run : TextWord) {occurrences : List (Term × ℤ)}
    {hashTab : HashTab} (h : RightTable idx occurrences hashTab) {hyphen : Option TextWord}
    (hhyphen : idx.idxType &&& PRIMARYKEY = 0 → hyphen = none) {unread : TextWord}
    (hunread : unread.runs (· ∈ idx.breakletters) = runs) (wordOffset : ℤ)
    (hhit : ∃ other ∈ run :: runs, idx.expansionHash ((idx.lookedUp other).map lowerChar) ≠ none) :
    ∃ passes, ∀ fuel, extractLoop idx bufferOffset (fuel + passes) run
      ⟨hyphen, unread, none, false, wordOffset, hashTab⟩ = .error .outOfBounds := by
  induction runs generalizing run occurrences hashTab hyphen unread wordOffset with
  | nil =>
    obtain ⟨passes, last, hyphen', wordOffset', hashTab', hlast, -, -, hrun⟩ :=
      extractLoop_readings bufferOffset run h hhyphen unread wordOffset
    obtain ⟨other, hmem, hfound⟩ := hhit
    rw [List.mem_singleton.mp hmem, ← hlast] at hfound
    obtain ⟨expansion, hsome⟩ := Option.ne_none_iff_exists'.mp hfound
    refine ⟨passes, fun fuel ↦ ?_⟩
    rw [hrun, expand_of_hit hsome]
    rfl
  | cons next runs ih =>
    obtain ⟨passes, last, hyphen', wordOffset', hashTab₁, hlast, hhyphen', hright, hrun⟩ :=
      extractLoop_readings bufferOffset run h hhyphen unread wordOffset
    cases hlook : idx.expansionHash (last.text.map lowerChar) with
    | some expansion =>
      refine ⟨passes, fun fuel ↦ ?_⟩
      rw [hrun, expand_of_hit hlook]
      rfl
    | none =>
      obtain ⟨left, hnext, hleft⟩ := strtokR_of_runs_cons hunread
      have hlater : ∃ other ∈ next :: runs,
          idx.expansionHash ((idx.lookedUp other).map lowerChar) ≠ none := by
        obtain ⟨other, hmem, hfound⟩ := hhit
        rcases List.mem_cons.mp hmem with rfl | hmem
        · exact absurd hlook (hlast ▸ hfound)
        · exact ⟨other, hmem, hfound⟩
      obtain ⟨morePasses, hrest⟩ := ih next hright hhyphen' hleft wordOffset' hlater
      refine ⟨morePasses + passes, fun fuel ↦ ?_⟩
      rw [← Nat.add_assoc, hrun, expand_of_unhit hlook, nextToken, hnext]
      exact hrest fuel

theorem extractLoop_mono {fuel : ℕ} {word : TextWord} {state : ExtractState} {hashTab : HashTab}
    (hrun : extractLoop idx bufferOffset fuel word state = .ok hashTab) (more : ℕ) :
    extractLoop idx bufferOffset (fuel + more) word state = .ok hashTab := by
  induction fuel generalizing word state with
  | zero => cases hrun
  | succ fuel ih =>
    rw [Nat.succ_add, extractLoop]
    rw [extractLoop] at hrun
    obtain ⟨hashTab₁, henter, hrun⟩ := bind_eq_ok.mp hrun
    obtain ⟨next, hadvance, hrun⟩ := bind_eq_ok.mp hrun
    refine bind_eq_ok.mpr ⟨hashTab₁, henter, bind_eq_ok.mpr ⟨next, hadvance, ?_⟩⟩
    obtain ⟨following, state'⟩ := next
    cases following with
    | none => exact hrun
    | some word => exact ih hrun

end Run

section Outcome

variable (idx : KeywordIndex) (databuf : Option Term) (bufferOffset : ℤ)

theorem idxdata_of_unhit (hunhit : ∀ run ∈ idx.textRuns databuf,
      idx.expansionHash ((idx.lookedUp run).map lowerChar) = none) :
    ∃ fuel hashTab, idxdata idx databuf bufferOffset (fun _ ↦ none) fuel = .ok hashTab ∧
      RightTable idx (idx.occurrences bufferOffset ((idx.textRuns databuf).flatMap idx.readings))
        hashTab := by
  cases databuf with
  | none => exact ⟨0, _, rfl, rightTable_nil idx⟩
  | some databuf =>
    cases hruns : Piece.runs (· ∈ idx.breakletters) ⟨0, blankDashes databuf⟩ with
    | nil =>
      refine ⟨0, fun _ ↦ none, ?_, ?_⟩
      · simp only [idxdata, strtokR_of_runs_nil hruns]
      · rw [KeywordIndex.textRuns, hruns]
        exact rightTable_nil idx
    | cons run runs =>
      rw [KeywordIndex.textRuns, hruns] at hunhit ⊢
      obtain ⟨left, hnext, hleft⟩ := strtokR_of_runs_cons hruns
      obtain ⟨passes, hashTab, hright, hrun⟩ := @extractLoop_runs idx bufferOffset runs run
        _ _ (rightTable_nil idx) _ (fun _ ↦ rfl) _ hleft 0 hunhit
      refine ⟨0 + passes, hashTab, ?_, hright⟩
      simp only [idxdata, hnext]
      exact hrun 0

theorem idxdata_of_hit (hhit : ∃ run ∈ idx.textRuns databuf,
      idx.expansionHash ((idx.lookedUp run).map lowerChar) ≠ none) (fuel : ℕ) (hashTab : HashTab) :
    idxdata idx databuf bufferOffset (fun _ ↦ none) fuel ≠ .ok hashTab := by
  cases databuf with
  | none =>
    obtain ⟨run, hmem, -⟩ := hhit
    exact absurd hmem List.not_mem_nil
  | some databuf =>
    cases hruns : Piece.runs (· ∈ idx.breakletters) ⟨0, blankDashes databuf⟩ with
    | nil =>
      obtain ⟨run, hmem, -⟩ := hhit
      rw [KeywordIndex.textRuns, hruns] at hmem
      exact absurd hmem List.not_mem_nil
    | cons run runs =>
      rw [KeywordIndex.textRuns, hruns] at hhit
      obtain ⟨left, hnext, hleft⟩ := strtokR_of_runs_cons hruns
      obtain ⟨passes, hrun⟩ := @extractLoop_hit idx bufferOffset runs run _ _
        (rightTable_nil idx) _ (fun _ ↦ rfl) _ hleft 0 hhit
      intro hok
      simp only [idxdata, hnext] at hok
      have hlonger := extractLoop_mono hok passes
      rw [hrun fuel] at hlonger
      cases hlonger

theorem idxdata_unique {fuel fuel' : ℕ} {hashTab hashTab' : HashTab}
    (hrun : idxdata idx databuf bufferOffset (fun _ ↦ none) fuel = .ok hashTab)
    (hrun' : idxdata idx databuf bufferOffset (fun _ ↦ none) fuel' = .ok hashTab') :
    hashTab = hashTab' := by
  cases databuf with
  | none => exact Except.ok.inj (hrun.symm.trans hrun')
  | some databuf =>
    simp only [idxdata] at hrun hrun'
    cases hfirst : strtokR idx.breakletters ⟨0, blankDashes databuf⟩ with
    | none =>
      rw [hfirst] at hrun hrun'
      exact Except.ok.inj (hrun.symm.trans hrun')
    | some found =>
      rw [hfirst] at hrun hrun'
      have hlonger := extractLoop_mono hrun fuel'
      have hlonger' := extractLoop_mono hrun' fuel
      rw [Nat.add_comm, hlonger] at hlonger'
      exact Except.ok.inj hlonger'

end Outcome

end Cheshire.Index
