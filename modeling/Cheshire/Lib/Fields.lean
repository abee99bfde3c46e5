import Mathlib

/-!
# The fields of a text with their places

A text is cut at each character with a property.  A field between two cuts keeps its place, the number of
characters before it; the runs are the fields that are not empty, and the rests are what stands behind
each cut.
-/

namespace Cheshire.Lib

variable {α : Type*}

/-- A part of a text with its place. -/
structure Piece (α : Type*) where
  offset : ℕ
  text : List α
deriving DecidableEq

namespace Piece

/-- The place behind a part. -/
def stop (piece : Piece α) : ℕ := piece.offset + piece.text.length

/-- Parts one behind the other, with one character between. -/
def placed : ℕ → List (List α) → List (Piece α)
  | _, [] => []
  | offset, text :: texts => ⟨offset, text⟩ :: placed (offset + text.length + 1) texts

/-- The parts between the cuts. -/
def fields (p : α → Bool) (piece : Piece α) : List (Piece α) :=
  placed piece.offset (piece.text.splitOnP p)

/-- The parts between the cuts that are not empty. -/
def runs (p : α → Bool) (piece : Piece α) : List (Piece α) :=
  (piece.fields p).filter fun field ↦ field.text ≠ []

/-- What stands behind each cut. -/
def restsFrom (p : α → Bool) : ℕ → List α → List (Piece α)
  | _, [] => []
  | offset, c :: text =>
    if p c then ⟨offset + 1, text⟩ :: restsFrom p (offset + 1) text else restsFrom p (offset + 1) text

def rests (p : α → Bool) (piece : Piece α) : List (Piece α) := restsFrom p piece.offset piece.text

variable {p : α → Bool} {offset : ℕ} {text first rest : List α} {sep : α}

theorem fields_of_forall (h : ∀ c ∈ text, p c = false) : fields p ⟨offset, text⟩ = [⟨offset, text⟩] := by
  rw [fields, List.splitOnP_eq_singleton h]
  rfl

theorem fields_append_cons (h : ∀ c ∈ first, p c = false) (hsep : p sep = true) :
    fields p ⟨offset, first ++ sep :: rest⟩ =
      ⟨offset, first⟩ :: fields p ⟨offset + first.length + 1, rest⟩ := by
  rw [fields, List.splitOnP_append_cons_of_forall_mem h sep hsep]
  rfl

theorem runs_of_forall (hne : text ≠ []) (h : ∀ c ∈ text, p c = false) :
    runs p ⟨offset, text⟩ = [⟨offset, text⟩] := by
  rw [runs, fields_of_forall h]
  exact List.filter_cons_of_pos (decide_eq_true hne)

theorem runs_cons_sep (hsep : p sep = true) :
    runs p ⟨offset, sep :: rest⟩ = runs p ⟨offset + 1, rest⟩ := by
  have hfields : fields p ⟨offset, [] ++ sep :: rest⟩ = _ := fields_append_cons (List.forall_mem_nil _) hsep
  rw [runs, ← List.nil_append (sep :: rest), hfields]
  rfl

theorem runs_append_cons (hne : first ≠ []) (h : ∀ c ∈ first, p c = false) (hsep : p sep = true) :
    runs p ⟨offset, first ++ sep :: rest⟩ =
      ⟨offset, first⟩ :: runs p ⟨offset + first.length + 1, rest⟩ := by
  rw [runs, fields_append_cons h hsep]
  exact List.filter_cons_of_pos (decide_eq_true hne)

theorem restsFrom_append (h : ∀ c ∈ first, p c = false) (text : List α) :
    restsFrom p offset (first ++ text) = restsFrom p (offset + first.length) text := by
  induction first generalizing offset with
  | nil => rfl
  | cons c first ih =>
    have hc : ¬p c = true := by simp [h c List.mem_cons_self]
    rw [List.cons_append, restsFrom, if_neg hc, ih fun other hmem ↦ h other (List.mem_cons_of_mem _ hmem),
      List.length_cons, Nat.add_assoc, Nat.add_comm 1]

theorem rests_of_forall (h : ∀ c ∈ text, p c = false) : rests p ⟨offset, text⟩ = [] := by
  have hrests : restsFrom p offset (text ++ []) = [] := restsFrom_append h []
  rwa [List.append_nil] at hrests

theorem rests_append_cons (h : ∀ c ∈ first, p c = false) (hsep : p sep = true) :
    rests p ⟨offset, first ++ sep :: rest⟩ =
      ⟨offset + first.length + 1, rest⟩ :: rests p ⟨offset + first.length + 1, rest⟩ := by
  rw [rests, restsFrom_append h, restsFrom, if_pos hsep]
  rfl

theorem exists_cut (p : α → Bool) (text : List α) : (∀ c ∈ text, p c = false) ∨
    ∃ first sep rest, text = first ++ sep :: rest ∧ (∀ c ∈ first, p c = false) ∧ p sep = true := by
  induction text with
  | nil => exact Or.inl (List.forall_mem_nil _)
  | cons c text ih =>
    cases hc : p c with
    | true => exact Or.inr ⟨[], c, text, rfl, List.forall_mem_nil _, hc⟩
    | false =>
      rcases ih with hall | ⟨first, sep, rest, htext, hfirst, hsep⟩
      · exact Or.inl (List.forall_mem_cons.mpr ⟨hc, hall⟩)
      · exact Or.inr ⟨c :: first, sep, rest, by rw [htext, List.cons_append],
          List.forall_mem_cons.mpr ⟨hc, hfirst⟩, hsep⟩

@[elab_as_elim]
theorem cut_induction (p : α → Bool) {motive : Piece α → Prop}
    (last : ∀ offset text, (∀ c ∈ text, p c = false) → motive ⟨offset, text⟩)
    (cut : ∀ offset first sep rest, (∀ c ∈ first, p c = false) → p sep = true →
      motive ⟨offset + first.length + 1, rest⟩ → motive ⟨offset, first ++ sep :: rest⟩)
    (piece : Piece α) : motive piece := by
  obtain ⟨offset, text⟩ := piece
  induction hlength : text.length using Nat.strong_induction_on generalizing offset text with
  | _ length ih =>
    rcases exists_cut p text with hall | ⟨first, sep, rest, rfl, hfirst, hsep⟩
    · exact last offset text hall
    · refine cut offset first sep rest hfirst hsep (ih rest.length ?_ _ rest rfl)
      rw [List.length_append, List.length_cons] at hlength
      omega

theorem fields_ordered (p : α → Bool) (piece : Piece α) :
    (piece.fields p).Pairwise (fun first second ↦ first.stop < second.offset) ∧
      ∀ field ∈ piece.fields p, piece.offset ≤ field.offset ∧ field.stop ≤ piece.stop := by
  induction piece using cut_induction p with
  | last offset text hall =>
    rw [fields_of_forall hall]
    exact ⟨List.pairwise_singleton _ _, fun field hmem ↦ List.mem_singleton.mp hmem ▸ ⟨le_rfl, le_rfl⟩⟩
  | cut offset first sep rest hfirst hsep ih =>
    obtain ⟨hpairwise, hbounds⟩ := ih
    have hstop : stop ⟨offset, first ++ sep :: rest⟩ = stop ⟨offset + first.length + 1, rest⟩ := by
      simp only [stop, List.length_append, List.length_cons]
      omega
    rw [fields_append_cons hfirst hsep, hstop]
    refine ⟨List.pairwise_cons.mpr ⟨fun field hmem ↦ ?_, hpairwise⟩,
      List.forall_mem_cons.mpr ⟨?_, fun field hmem ↦ ?_⟩⟩
    · exact (Nat.lt_succ_self _).trans_le (hbounds field hmem).1
    · simp only [stop]
      omega
    · obtain ⟨hlow, hhigh⟩ := hbounds field hmem
      exact ⟨by simp only at hlow ⊢; omega, hhigh⟩

theorem runs_ordered (p : α → Bool) (piece : Piece α) :
    (piece.runs p).Pairwise (fun first second ↦ first.stop < second.offset) :=
  (fields_ordered p piece).1.filter _

end Piece

end Cheshire.Lib
