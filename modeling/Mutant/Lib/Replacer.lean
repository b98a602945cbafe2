import Mathlib.Data.List.Infix

/-!
# Replacing words in a text

A text is read from left to right.  Where one of the words starts its replacement is written and the
word is passed over; the first in the list is taken where several start.

* `replace_of_word`, `replace_of_none`: a word at the front, and none.
-/

namespace Replacer

open List

variable {α : Type} [DecidableEq α]

/-- The pair whose word starts here. -/
def word? (pairs : List (List α × List α)) (s : List α) : Option (List α × List α) :=
  pairs.find? fun pair => pair.1.isPrefixOf s

/-- The text after the first `skip` characters, which belong to a word already taken. -/
def replaceFrom (pairs : List (List α × List α)) : (skip : Nat) → List α → List α
  | _, [] => []
  | skip + 1, _ :: s => replaceFrom pairs skip s
  | 0, a :: s =>
    match word? pairs (a :: s) with
    | some (old, new) => new ++ replaceFrom pairs (old.length - 1) s
    | none => a :: replaceFrom pairs 0 s

/-- The text with every word replaced. -/
def replace (pairs : List (List α × List α)) (s : List α) : List α := replaceFrom pairs 0 s

variable {pairs : List (List α × List α)} {a : α} {s old new : List α}

theorem replaceFrom_eq (skip : Nat) (s : List α) :
    replaceFrom pairs skip s = replace pairs (s.drop skip) := by
  induction s generalizing skip with
  | nil => rw [drop_nil, replace, replaceFrom, replaceFrom]
  | cons a s ih =>
    cases skip with
    | zero => rfl
    | succ skip => exact ih skip

theorem replace_of_none (h : word? pairs (a :: s) = none) :
    replace pairs (a :: s) = a :: replace pairs s := by
  rw [replace, replaceFrom, h]
  rfl

theorem replace_of_word (hold : old ≠ []) (h : word? pairs (old ++ s) = some (old, new)) :
    replace pairs (old ++ s) = new ++ replace pairs s := by
  obtain ⟨a, old, rfl⟩ := exists_cons_of_ne_nil hold
  rw [cons_append] at h ⊢
  rw [replace, replaceFrom, h]
  simp only [length_cons, Nat.add_sub_cancel]
  rw [replaceFrom_eq, drop_left]

/-- A word of one character is replaced wherever it stands. -/
theorem replace_char (c : α) (new s : List α) :
    replace [([c], new)] s = s.flatMap fun a => if a = c then new else [a] := by
  induction s with
  | nil => rfl
  | cons a s ih =>
    rw [flatMap_cons, ← ih]
    split_ifs with ha
    · subst ha
      exact replace_of_word (cons_ne_nil a []) (by simp [word?])
    · exact replace_of_none (by simp [word?, Ne.symm ha])

end Replacer
