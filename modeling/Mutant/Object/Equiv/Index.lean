import Mutant.Object.Index

/-!
# Indexing from both ends

The two loops of `RuneAt` meet the pieces of a left-to-right decoding, one from the front and one
from the back.

* `walkRunes_decodeRune`, `walkRunes_decodeLastRune`: what each loop meets;
* `runeAt_ends_agree`: both find the same piece.
-/

namespace Mutant.Object

open List Utf8

variable {next : List UInt8 → Option (Piece × List UInt8)} {turns : Nat} {s : List UInt8}

/-- A loop that meets the pieces in an order returns the one at the index. -/
theorem walkRunes_eq (pieces : List UInt8 → List Piece) (hnil : next [] = none ∧ pieces [] = [])
    (hnext : ∀ s, s ≠ [] → ∃ piece rest, next s = some (piece, rest) ∧ rest.length < s.length ∧
      pieces s = piece :: pieces rest) (h : s.length ≤ turns) (i : Nat) :
    walkRunes next turns i s = (pieces s)[i]? := by
  induction turns generalizing s i with
  | zero =>
    rw [eq_nil_of_length_eq_zero (Nat.le_zero.mp h), hnil.2]
    rfl
  | succ turns ih =>
    rw [walkRunes]
    by_cases hs : s = []
    · rw [hs, hnil.1, hnil.2]
      rfl
    · obtain ⟨piece, rest, hfnd, hlen, hps⟩ := hnext s hs
      rw [hfnd, hps, Option.bind_some]
      cases i with
      | zero => rfl
      | succ i => exact ih (Nat.le_of_lt_succ (Nat.lt_of_lt_of_le hlen h)) i

/-- The loop from the front counts pieces from the front. -/
theorem walkRunes_decodeRune (s : List UInt8) (i : Nat) :
    walkRunes decodeRune s.length i s = (split s)[i]? := by
  refine walkRunes_eq split ⟨rfl, rfl⟩ (fun s hs => ?_) (Nat.le_refl _) i
  rcases split_cases s with rfl | ⟨c, tail, hc, rfl, hspl⟩ | ⟨b, rest, hb, rfl, hspl⟩
  · exact absurd rfl hs
  · refine ⟨.char c, tail, decodeRune_char hc tail, ?_, hspl⟩
    have := hc.length_pos
    rw [length_append]
    omega
  · exact ⟨.bad b, rest, decodeRune_bad hb, Nat.lt_succ_self _, hspl⟩

/-- The loop from the back counts pieces from the back. -/
theorem walkRunes_decodeLastRune (s : List UInt8) (i : Nat) :
    walkRunes decodeLastRune s.length i s = (split s).reverse[i]? := by
  refine walkRunes_eq (reverse ∘ split) ⟨rfl, rfl⟩ (fun s hs => ?_) (Nat.le_refl _) i
  obtain ⟨pre, piece, hl, hspl⟩ := exists_last_piece hs
  refine ⟨piece, pre, decodeLastRune_eq hl hspl, ?_, by simp [hspl]⟩
  have hpos : 0 < piece.bytes.length := by
    cases piece with
    | char c =>
      have hc : IsChar c := isChar_of_mem_split (l := s) (by rw [hspl]; simp)
      exact hc.length_pos
    | bad b => exact Nat.one_pos
  rw [hl, length_append]
  omega

/-- The `i`-th character is found from the front and from the back, and no index outside finds
one. -/
theorem runeAt_ends_agree (s : List UInt8) :
    (∀ i (h : i < (split s).length), runeAt s i = some (split s)[i].repair ∧
      runeAt s (i - (split s).length) = some (split s)[i].repair) ∧
      ∀ i : Int, i < -(split s).length ∨ (split s).length ≤ i → runeAt s i = none := by
  refine ⟨fun i hi => ⟨?_, ?_⟩, ?_⟩
  · rw [runeAt, if_pos (Int.natCast_nonneg i), walkRunes_decodeRune, Int.toNat_natCast,
      getElem?_eq_getElem hi, Option.map_some]
  · have hback : (-1 - ((i : Int) - (split s).length)).toNat = (split s).length - 1 - i := by omega
    have hi' : (split s).length - 1 - ((split s).length - 1 - i) = i := by omega
    rw [runeAt, if_neg (by omega), walkRunes_decodeLastRune, hback, getElem?_reverse (by omega),
      hi', getElem?_eq_getElem hi, Option.map_some]
  · rintro i (hi | hi)
    · rw [runeAt, if_neg (by omega), walkRunes_decodeLastRune, getElem?_eq_none, Option.map_none]
      rw [length_reverse]
      omega
    · rw [runeAt, if_pos (by omega), walkRunes_decodeRune, getElem?_eq_none, Option.map_none]
      omega

end Mutant.Object
