import Mathlib

/-!
# One value for every key

Values arrive one after another, each with a key.  Either the first value of a key stays and later
ones are dropped, or every value replaces the one before it.  What a key has after a list of arrivals
depends on the arrivals with that key only.
-/

namespace Cheshire.Lib.KeyPolicy

variable {κ ρ : Type*} [DecidableEq κ]

/-- One arrival: it is taken when values are replaced or the key has none. -/
def take (replace : Bool) (entries : κ → Option ρ) (item : κ × ρ) : κ → Option ρ :=
  if replace = true ∨ entries item.1 = none then Function.update entries item.1 (some item.2)
  else entries

/-- What a key has after the values that arrived for it. -/
def chosen (replace : Bool) (old : Option ρ) (values : List ρ) : Option ρ :=
  if replace then values.getLast?.or old else old.or values.head?

/-- The values that arrive for a key. -/
def valuesOf (items : List (κ × ρ)) (key : κ) : List ρ :=
  (items.filter fun item ↦ item.1 = key).map Prod.snd

@[simp] theorem chosen_nil (replace : Bool) (old : Option ρ) : chosen replace old [] = old := by
  cases replace <;> simp [chosen]

theorem chosen_append (replace : Bool) (old : Option ρ) (first second : List ρ) :
    chosen replace (chosen replace old first) second = chosen replace old (first ++ second) := by
  cases replace with
  | false =>
    simp only [chosen, Bool.false_eq_true, if_false]
    rw [List.head?_append, Option.or_assoc]
  | true =>
    simp only [chosen, if_true]
    rw [List.getLast?_append, Option.or_assoc]

theorem chosen_eq_none_iff {replace : Bool} {old : Option ρ} {values : List ρ} :
    chosen replace old values = none ↔ old = none ∧ values = [] := by
  cases replace <;> simp [chosen, and_comm]

theorem mem_of_chosen {replace : Bool} {values : List ρ} {value : ρ}
    (h : chosen replace none values = some value) : value ∈ values := by
  cases replace with
  | false => exact List.mem_of_head? (by simpa [chosen] using h)
  | true => exact List.mem_of_getLast? (by simpa [chosen] using h)

theorem valuesOf_append (first second : List (κ × ρ)) (key : κ) :
    valuesOf (first ++ second) key = valuesOf first key ++ valuesOf second key := by
  rw [valuesOf, List.filter_append, List.map_append, valuesOf, valuesOf]

theorem take_apply (replace : Bool) (entries : κ → Option ρ) (item : κ × ρ) (key : κ) :
    take replace entries item key = chosen replace (entries key) (valuesOf [item] key) := by
  rw [take]
  by_cases hkey : item.1 = key
  · subst hkey
    have hvalues : valuesOf [item] item.1 = [item.2] := by simp [valuesOf]
    rw [hvalues, chosen]
    cases replace with
    | true => simp
    | false => cases hold : entries item.1 <;> simp [hold]
  · have hvalues : valuesOf [item] key = [] := by simp [valuesOf, hkey]
    rw [hvalues, chosen_nil]
    split
    · exact Function.update_of_ne (Ne.symm hkey) _ _
    · rfl

theorem foldl_take (replace : Bool) (items : List (κ × ρ)) (entries : κ → Option ρ) (key : κ) :
    items.foldl (take replace) entries key =
      chosen replace (entries key) (valuesOf items key) := by
  induction items generalizing entries with
  | nil => rw [List.foldl_nil, valuesOf, List.filter_nil, List.map_nil, chosen_nil]
  | cons item items ih =>
    rw [List.foldl_cons, ih, take_apply, chosen_append, ← valuesOf_append,
      List.singleton_append]

end Cheshire.Lib.KeyPolicy
