import Mathlib.Data.List.Basic

/-!
# The lines of a text

A text is a list, and a line ends at each separator.  What follows the last separator is a line of
its own unless it is empty.  The lines of texts that are closed (empty, or ending in the separator)
put one after the other are the lines of each in turn.

* `split_append`, `lineOf_append`: lines of closed texts.
-/

namespace Lines

open List

variable {α : Type*} {nl : α}

/-- The lines of a text, without their separators. -/
def split [DecidableEq α] (nl : α) : List α → List (List α)
  | [] => []
  | c :: rest =>
    if c = nl then [] :: split nl rest
    else
      match split nl rest with
      | [] => [[c]]
      | line :: lines => (c :: line) :: lines

/-- The text is empty or ends in a separator. -/
def Closed (nl : α) (text : List α) : Prop := text = [] ∨ text.getLast? = some nl

/-- The line, from 1, on which the place `offset` stands. -/
def lineOf [DecidableEq α] (nl : α) (text : List α) (offset : Nat) : Nat := 1 + (text.take offset).count nl

theorem closed_nil : Closed nl ([] : List α) := .inl rfl

theorem closed_snoc (text : List α) : Closed nl (text ++ [nl]) := .inr (by simp)

variable {a : List α}

theorem Closed.append {b : List α} (ha : Closed nl a) (hb : Closed nl b) : Closed nl (a ++ b) := by
  rcases hb with rfl | hb
  · rwa [append_nil]
  · refine .inr ?_
    rw [getLast?_append, hb]
    rfl

theorem Closed.tail {c : α} {rest : List α} (h : Closed nl (c :: rest)) :
    Closed nl rest ∧ (rest = [] → c = nl) := by
  rcases h with h | h
  · cases h
  · cases rest with
    | nil => exact ⟨closed_nil, fun _ => by simpa using h⟩
    | cons d rest => exact ⟨.inr (by simpa using h), by simp⟩

variable [DecidableEq α]

theorem split_ne_nil {text : List α} (h : text ≠ []) : split nl text ≠ [] := by
  cases text with
  | nil => exact absurd rfl h
  | cons c rest =>
    rw [split]
    split_ifs
    · simp
    · split <;> simp

/-- The lines of a closed text followed by another. -/
theorem split_append (ha : Closed nl a) (b : List α) :
    split nl (a ++ b) = split nl a ++ split nl b := by
  induction a with
  | nil => rfl
  | cons c rest ih =>
    obtain ⟨hrest, hlast⟩ := ha.tail
    rw [cons_append, split, split, ih hrest]
    split_ifs with hc
    · rfl
    · -- the first line is still open, so the rest of a closed text has one to continue it
      have hne : rest ≠ [] := fun h => hc (hlast h)
      cases hspl : split nl rest with
      | nil => exact absurd hspl (split_ne_nil hne)
      | cons line ls => rfl

/-- A closed text has a line for each separator. -/
theorem length_split (ha : Closed nl a) : (split nl a).length = a.count nl := by
  induction a with
  | nil => rfl
  | cons c rest ih =>
    obtain ⟨hrest, hlast⟩ := ha.tail
    by_cases hc : c = nl
    · rw [split, if_pos hc, hc, count_cons_self, length_cons, ih hrest]
    · have hne : rest ≠ [] := fun h => hc (hlast h)
      rw [split, if_neg hc, count_cons_of_ne hc, ← ih hrest]
      cases hspl : split nl rest with
      | nil => exact absurd hspl (split_ne_nil hne)
      | cons line ls => rfl

/-- A place of the second text stands below all lines of the first. -/
theorem lineOf_append (a b : List α) (offset : Nat) :
    lineOf nl (a ++ b) (a.length + offset) = a.count nl + lineOf nl b offset := by
  unfold lineOf
  rw [take_append, take_of_length_le (by omega), count_append, Nat.add_sub_cancel_left]
  omega

/-- What follows a place does not change its line. -/
theorem lineOf_append_left (b : List α) {offset : Nat} (h : offset ≤ a.length) :
    lineOf nl (a ++ b) offset = lineOf nl a offset := by
  unfold lineOf
  rw [take_append_of_le_length h]

end Lines
