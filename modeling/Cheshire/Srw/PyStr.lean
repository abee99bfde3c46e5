import Mathlib

/-!
# Strings and errors of Python

The operations on strings that the query modules use, and the errors that they raise.
-/

namespace Cheshire.Srw

abbrev PyStr := List Char

scoped instance lawfulPyStr : LawfulBEq PyStr := inferInstance

/-- What Python code raises: a diagnostic with its code and details, or an exception of its own. -/
inductive PyError where
  | diagnostic (code : ℕ) (details : PyStr)
  | indexError
  | typeError
  | valueError
  | attributeError
  | xmlError
deriving DecidableEq

theorem bind_eq_ok_iff {α β : Type} {x : Except PyError α} {f : α → Except PyError β} {b : β} :
    (x >>= f) = .ok b ↔ ∃ a, x = .ok a ∧ f a = .ok b := by
  cases x with
  | error error => simp [bind, Except.bind]
  | ok a => simp [bind, Except.bind]

namespace PyStr

/-- `s.find(".")`: the parts before and behind the first dot. -/
def splitDot (s : PyStr) : Option (PyStr × PyStr) :=
  if '.' ∈ s then some (s.takeWhile (· ≠ '.'), (s.dropWhile (· ≠ '.')).drop 1) else none

/-- `s.isdigit()` -/
def isDigits (s : PyStr) : Bool := !s.isEmpty && s.all Char.isDigit

/-- `count(s, sub)` of a substring that is not empty. -/
def countOf (sub : PyStr) : ℕ → PyStr → ℕ
  | _, [] => 0
  | skip + 1, _ :: rest => countOf sub skip rest
  | 0, c :: rest => if sub.isPrefixOf (c :: rest) then 1 + countOf sub (sub.length - 1) rest
      else countOf sub 0 rest

def count (s sub : PyStr) : ℕ := countOf sub 0 s

/-- `replace(s, old, new)` of a substring that is not empty. -/
def replaceOf (old new : PyStr) : ℕ → PyStr → PyStr
  | _, [] => []
  | skip + 1, _ :: rest => replaceOf old new skip rest
  | 0, c :: rest => if old.isPrefixOf (c :: rest) then new ++ replaceOf old new (old.length - 1) rest
      else c :: replaceOf old new 0 rest

def replace (s old new : PyStr) : PyStr := replaceOf old new 0 s

def whitespace : List Char := [' ', '\t', '\n', '\r', '\x0b', '\x0c']

/-- `split(s)`: the words between blanks. -/
def splitOf : PyStr → PyStr → List PyStr
  | word, [] => if word = [] then [] else [word]
  | word, c :: rest =>
    if c ∈ whitespace then if word = [] then splitOf [] rest else word :: splitOf [] rest
    else splitOf (word ++ [c]) rest

def split (s : PyStr) : List PyStr := splitOf [] s

/-- `join(words)` -/
def join (words : List PyStr) : PyStr := [' '].intercalate words

/-- `s[:-n]` -/
def dropEnd (s : PyStr) (n : ℕ) : PyStr := s.take (s.length - n)

/-- `s[-n:]` -/
def takeEnd (s : PyStr) (n : ℕ) : PyStr := s.drop (s.length - n)

end PyStr

/-- Lower case is a matter of single characters; only `\r` becomes `\r`. -/
structure LowerCase where
  lowerChar : Char → Char
  eq_cr_iff : ∀ c, lowerChar c = '\r' ↔ c = '\r'

/-- `lower(s)` -/
def LowerCase.lower (lowerCase : LowerCase) (s : PyStr) : PyStr := s.map lowerCase.lowerChar

theorem toLower_eq_cr_iff (c : Char) : c.toLower = '\r' ↔ c = '\r' := by
  unfold Char.toLower
  split_ifs with hupper
  · have hletter : 65 ≤ c.val.toNat ∧ c.val.toNat ≤ 90 := hupper
    refine iff_of_false (fun hc ↦ ?_) (fun hc ↦ ?_)
    · have hval := congrArg (fun c : Char ↦ c.val.toNat) hc
      simp only [UInt32.toNat_add] at hval
      change (c.val.toNat + 32) % 2 ^ 32 = 13 at hval
      omega
    · subst hc
      exact absurd hletter.1 (by decide)
  · rfl

/-- Lower case of the characters of ASCII. -/
def LowerCase.ascii : LowerCase := ⟨Char.toLower, toLower_eq_cr_iff⟩

end Cheshire.Srw
