import Mutant.Lib.Utf8
/-!
# Characters by index

`RuneAt` of `object/index.go`.
-/

namespace Mutant.Object

open Utf8 (Piece)

/-- A loop of `RuneAt`: the piece after `i` others, or none where `s` has no more.  A loop makes at
most one turn for each byte. -/
def walkRunes (next : List UInt8 → Option (Piece × List UInt8)) :
    (turns i : Nat) → List UInt8 → Option Piece
  | 0, _, _ => none
  | turns + 1, i, s =>
    (next s).bind fun found => if i = 0 then some found.1 else walkRunes next turns (i - 1) found.2

/-- `RuneAt`: a character as its own text, which for a byte that is part of none is U+FFFD. -/
def runeAt (s : List UInt8) (i : Int) : Option (List UInt8) :=
  if 0 ≤ i then (walkRunes Utf8.decodeRune s.length i.toNat s).map Piece.repair
  else (walkRunes Utf8.decodeLastRune s.length (-1 - i).toNat s).map Piece.repair

end Mutant.Object
