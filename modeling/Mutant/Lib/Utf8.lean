import Mathlib.Data.List.Infix

/-!
# UTF-8

A string of bytes is cut into its characters, and into the bytes that are part of none
(`split`).  What a reader that replaces such bytes makes of the string (`repair`) is the string
itself exactly when there are none of them.

* `split_induction`: induction on the pieces of a string;
* `repair_eq_self_iff`: when a string is its own repair.
-/

namespace Utf8

open List

variable {b : UInt8} {rest l c : List UInt8} {w : Nat}

/-! ### Characters -/

/-- A byte that continues a character. -/
def isTail (b : UInt8) : Bool := 0x80 ≤ b.toNat && b.toNat ≤ 0xBF

/-- What follows a first byte that does not stand alone: the range of the second byte, and how many
more there are. -/
def leading (n : Nat) : Option (Nat × Nat × Nat) :=
  if 0xC2 ≤ n ∧ n ≤ 0xDF then some (0x80, 0xBF, 0)
  else if n = 0xE0 then some (0xA0, 0xBF, 1)
  else if n = 0xED then some (0x80, 0x9F, 1)
  else if 0xE1 ≤ n ∧ n ≤ 0xEF then some (0x80, 0xBF, 1)
  else if n = 0xF0 then some (0x90, 0xBF, 2)
  else if 0xF1 ≤ n ∧ n ≤ 0xF3 then some (0x80, 0xBF, 2)
  else if n = 0xF4 then some (0x80, 0x8F, 2)
  else none

/-- The length of a character of two bytes or more, from what its first byte asks for. -/
def afterLeading : (range : Nat × Nat × Nat) → List UInt8 → Option Nat
  | _, [] => none
  | (low, high, more), second :: rest =>
    if low ≤ second.toNat ∧ second.toNat ≤ high ∧ more ≤ rest.length ∧
        (rest.take more).all isTail then
      some (2 + more)
    else none

/-- The length of the character at the front. -/
def width? : List UInt8 → Option Nat
  | [] => none
  | b :: rest =>
    if b.toNat < 0x80 then some 1 else (leading b.toNat).bind fun range => afterLeading range rest

/-- The bytes of one character. -/
def IsChar (c : List UInt8) : Prop := width? c = some c.length

instance (c : List UInt8) : Decidable (IsChar c) := by unfold IsChar; infer_instance

theorem width?_ascii (h : b.toNat < 0x80) (rest : List UInt8) : width? (b :: rest) = some 1 := by
  rw [width?, if_pos h]

theorem isChar_ascii (h : b.toNat < 0x80) : IsChar [b] := width?_ascii h []

/-- The characters of more than one byte. -/
theorem width?_eq_some (hwide : ¬ b.toNat < 0x80) (h : width? (b :: rest) = some w) :
    ∃ low high more second tail, leading b.toNat = some (low, high, more) ∧
      rest = second :: tail ∧ w = 2 + more ∧ low ≤ second.toNat ∧ second.toNat ≤ high ∧
      more ≤ tail.length ∧ (tail.take more).all isTail := by
  rw [width?, if_neg hwide] at h
  obtain ⟨⟨low, high, more⟩, hlead, h⟩ := Option.bind_eq_some_iff.mp h
  cases rest with
  | nil => cases h
  | cons second tail =>
    rw [afterLeading] at h
    by_cases hcond : low ≤ second.toNat ∧ second.toNat ≤ high ∧ more ≤ tail.length ∧
        (tail.take more).all isTail
    · rw [if_pos hcond] at h
      exact ⟨low, high, more, second, tail, hlead, rfl, (Option.some.inj h).symm, hcond⟩
    · rw [if_neg hcond] at h
      cases h

/-- A character's bytes are at hand, and there is one at least. -/
theorem width?_bounds (h : width? l = some w) : 0 < w ∧ w ≤ l.length := by
  cases l with
  | nil => cases h
  | cons b rest =>
    by_cases hascii : b.toNat < 0x80
    · rw [width?_ascii hascii] at h
      cases h
      simp
    · obtain ⟨low, high, more, second, tail, -, rfl, rfl, -, -, hmore, -⟩ := width?_eq_some hascii h
      simp only [length_cons]
      omega

/-- Nothing past its own bytes makes a character. -/
theorem width?_take_append (h : width? l = some w) (tail : List UInt8) :
    width? (l.take w ++ tail) = some w := by
  cases l with
  | nil => cases h
  | cons b rest =>
    by_cases hascii : b.toNat < 0x80
    · rw [width?_ascii hascii] at h
      cases h
      exact width?_ascii hascii _
    · obtain ⟨low, high, more, second, rest, hlead, rfl, rfl, hlow, hhigh, hmore, htails⟩ :=
        width?_eq_some hascii h
      have hfr : (rest.take more ++ tail).take more = rest.take more := by
        rw [take_append_of_le_length (by rw [length_take]; omega), take_take, Nat.min_self]
      have hlen : more ≤ (rest.take more ++ tail).length := by
        rw [length_append, length_take]
        omega
      rw [show 2 + more = more + 1 + 1 by omega, take_succ_cons, take_succ_cons,
        cons_append, cons_append, width?, if_neg hascii, hlead, Option.bind_some,
        afterLeading, hfr, if_pos ⟨hlow, hhigh, hlen, htails⟩, Nat.add_comm]

theorem IsChar.width?_append (h : IsChar c) (tail : List UInt8) :
    width? (c ++ tail) = some c.length := by
  have happend := width?_take_append h tail
  rwa [take_length] at happend

theorem isChar_take (h : width? l = some w) : IsChar (l.take w) := by
  have hback := width?_take_append h []
  rw [append_nil] at hback
  rw [IsChar, hback, length_take, Nat.min_eq_left (width?_bounds h).2]

theorem IsChar.length_pos (h : IsChar c) : 0 < c.length := (width?_bounds h).1

theorem of_leading {n low high more : Nat} (h : leading n = some (low, high, more)) :
    0xC2 ≤ n ∧ 0x80 ≤ low ∧ high ≤ 0xBF ∧ more ≤ 2 := by
  unfold leading at h
  split_ifs at h <;> (cases h; omega)

theorem isTail_iff : isTail b = true ↔ 0x80 ≤ b.toNat ∧ b.toNat ≤ 0xBF := by
  rw [isTail, Bool.and_eq_true, decide_eq_true_eq, decide_eq_true_eq]

/-- The first byte of a character continues none, and all others do. -/
theorem IsChar.tails (h : IsChar (b :: rest)) :
    isTail b = false ∧ (∀ t ∈ rest, isTail t = true) ∧ rest.length ≤ 3 ∧
      (b.toNat < 0x80 ↔ rest = []) := by
  rw [← Bool.not_eq_true, isTail_iff]
  by_cases hascii : b.toNat < 0x80
  · rw [IsChar, width?_ascii hascii, length_cons] at h
    have hrest : rest = [] := eq_nil_of_length_eq_zero (by have := Option.some.inj h; omega)
    subst hrest
    exact ⟨by omega, nofun, Nat.zero_le _, iff_of_true hascii rfl⟩
  · obtain ⟨low, high, more, second, tail, hlead, rfl, hlen, hlow, hhigh, -, htails⟩ :=
      width?_eq_some hascii h
    obtain ⟨hfst, hlow', hhigh', hmore⟩ := of_leading hlead
    simp only [length_cons] at hlen ⊢
    rw [take_of_length_le (by omega), all_eq_true] at htails
    have hsecond : isTail second = true := isTail_iff.mpr ⟨by omega, by omega⟩
    refine ⟨by omega, forall_mem_cons.mpr ⟨hsecond, htails⟩, by omega, ?_⟩
    exact iff_of_false hascii (cons_ne_nil _ _)

/-- A character is a byte of ASCII, or has none in it. -/
theorem IsChar.cases (h : IsChar c) :
    (∃ b, c = [b] ∧ b.toNat < 0x80) ∨ (1 < c.length ∧ ∀ b ∈ c, ¬ b.toNat < 0x80) := by
  cases c with
  | nil => cases h
  | cons b rest =>
    obtain ⟨-, htails, -, hascii⟩ := h.tails
    cases rest with
    | nil => exact .inl ⟨b, rfl, hascii.mpr rfl⟩
    | cons second tail =>
      refine .inr ⟨by simp, forall_mem_cons.mpr ⟨mt hascii.mp (cons_ne_nil _ _), fun t ht => ?_⟩⟩
      have := (isTail_iff.mp (htails t ht)).1
      omega

/-! ### Pieces -/

/-- A character, or a byte that is part of none. -/
inductive Piece where
  | char (bytes : List UInt8)
  | bad (byte : UInt8)
deriving DecidableEq, Repr

def Piece.bytes : Piece → List UInt8
  | .char bytes => bytes
  | .bad byte => [byte]

def Piece.IsGood : Piece → Bool
  | .char _ => true
  | .bad _ => false

/-- The pieces after the first `skip` bytes, which belong to a character already taken. -/
def splitFrom : (skip : Nat) → List UInt8 → List Piece
  | _, [] => []
  | skip + 1, _ :: rest => splitFrom skip rest
  | 0, b :: rest =>
    match width? (b :: rest) with
    | some w => .char ((b :: rest).take w) :: splitFrom (w - 1) rest
    | none => .bad b :: splitFrom 0 rest

/-- A string's pieces. -/
def split (l : List UInt8) : List Piece := splitFrom 0 l

theorem splitFrom_eq (skip : Nat) (l : List UInt8) : splitFrom skip l = split (l.drop skip) := by
  induction l generalizing skip with
  | nil => rw [drop_nil, split, splitFrom, splitFrom]
  | cons b rest ih =>
    cases skip with
    | zero => rfl
    | succ skip => rw [splitFrom, ih, drop_succ_cons]

/-- A character in front is the first piece. -/
theorem split_append (h : IsChar c) (tail : List UInt8) :
    split (c ++ tail) = .char c :: split tail := by
  cases c with
  | nil => cases h
  | cons b rest =>
    have hwd := h.width?_append tail
    rw [cons_append] at hwd
    rw [cons_append, split, splitFrom, hwd]
    simp only
    rw [splitFrom_eq, ← cons_append, take_left, length_cons, Nat.add_sub_cancel, drop_left]

theorem split_bad (h : width? (b :: rest) = none) : split (b :: rest) = .bad b :: split rest := by
  rw [split, splitFrom, h]
  rfl

/-- How a string is cut: it is empty, or starts with a character, or with a byte that is part of
none. -/
theorem split_cases (l : List UInt8) :
    l = [] ∨ (∃ c tail, IsChar c ∧ l = c ++ tail ∧ split l = .char c :: split tail) ∨
      ∃ b rest, width? (b :: rest) = none ∧ l = b :: rest ∧ split l = .bad b :: split rest := by
  cases l with
  | nil => exact .inl rfl
  | cons b rest =>
    cases hwd : width? (b :: rest) with
    | none => exact .inr (.inr ⟨b, rest, hwd, rfl, split_bad hwd⟩)
    | some w =>
      refine .inr (.inl ⟨(b :: rest).take w, (b :: rest).drop w, isChar_take hwd,
        (take_append_drop _ _).symm, ?_⟩)
      conv_lhs => rw [← take_append_drop w (b :: rest)]
      exact split_append (isChar_take hwd) _

/-- The induction that follows how a string is cut. -/
theorem split_induction {motive : List UInt8 → Prop} (nil : motive [])
    (char : ∀ c tail, IsChar c → motive tail → motive (c ++ tail))
    (bad : ∀ b rest, width? (b :: rest) = none → motive rest → motive (b :: rest))
    (l : List UInt8) : motive l := by
  rcases split_cases l with rfl | ⟨c, tail, hc, hl, -⟩ | ⟨b, rest, hb, hl, -⟩
  · exact nil
  · exact hl ▸ char c tail hc (split_induction nil char bad tail)
  · exact hl ▸ bad b rest hb (split_induction nil char bad rest)
termination_by l.length
decreasing_by
  · have := hc.length_pos
    rw [hl, length_append]
    omega
  · exact hl ▸ Nat.lt_succ_self _

/-- The characters of a string are characters. -/
theorem isChar_of_mem_split (h : .char c ∈ split l) : IsChar c := by
  induction l using split_induction with
  | nil => cases h
  | char c' tail hc ih =>
    rw [split_append hc, mem_cons] at h
    rcases h with h | h
    · cases h
      exact hc
    · exact ih h
  | bad b rest hb ih =>
    rw [split_bad hb, mem_cons] at h
    rcases h with h | h
    · cases h
    · exact ih h

/-! ### Decoding from either end -/

/-- The piece at the front, and what follows it. -/
def decodeRune : List UInt8 → Option (Piece × List UInt8)
  | [] => none
  | b :: rest =>
    match width? (b :: rest) with
    | some w => some (.char ((b :: rest).take w), (b :: rest).drop w)
    | none => some (.bad b, rest)

/-- The piece at the end, which is the character that the text ends with or else its last byte, and
what is before it. -/
def decodeLastRune (l : List UInt8) : Option (Piece × List UInt8) :=
  match l.tails.find? fun c => width? c = some c.length with
  | some c => some (.char c, l.take (l.length - c.length))
  | none => l.getLast?.map fun b => (.bad b, l.dropLast)

theorem decodeRune_char (h : IsChar c) (tail : List UInt8) :
    decodeRune (c ++ tail) = some (.char c, tail) := by
  cases c with
  | nil => cases h
  | cons b rest =>
    rw [cons_append, decodeRune, ← cons_append, h.width?_append]
    simp only [take_left, drop_left]

theorem decodeRune_bad (h : width? (b :: rest) = none) :
    decodeRune (b :: rest) = some (.bad b, rest) := by
  rw [decodeRune, h]

/-- A byte that is part of no character stays so before a character. -/
theorem width?_append_char (h : width? (b :: rest) = none) (hc : IsChar c) :
    width? (b :: (rest ++ c)) = none := by
  rw [← cons_append]
  cases hw : width? (b :: rest ++ c) with
  | none => rfl
  | some w =>
    exfalso
    by_cases hle : w ≤ (b :: rest).length
    · have hback := width?_take_append hw ((b :: rest).drop w)
      rw [take_append_of_le_length hle, take_append_drop, h] at hback
      cases hback
    · -- the first byte of `c` would continue the character
      obtain ⟨first, more, rfl⟩ := exists_cons_of_ne_nil (ne_nil_of_length_pos hc.length_pos)
      have hchar := isChar_take hw
      rw [take_append, take_of_length_le (Nat.le_of_not_le hle)] at hchar
      have hmem : first ∈ rest ++ (first :: more).take (w - (b :: rest).length) := by
        obtain ⟨k, hk⟩ :=
          Nat.exists_eq_succ_of_ne_zero (Nat.sub_ne_zero_of_lt (Nat.lt_of_not_le hle))
        rw [hk, take_succ_cons]
        simp
      have htail := hchar.tails.2.1 first hmem
      rw [hc.tails.1] at htail
      cases htail

theorem split_append_char (hc : IsChar c) (l : List UInt8) :
    split (l ++ c) = split l ++ [.char c] := by
  induction l using split_induction with
  | nil =>
    have happend := split_append hc []
    rwa [append_nil] at happend
  | char c' tail hc' ih => rw [append_assoc, split_append hc', split_append hc', ih, cons_append]
  | bad b rest hb ih =>
    rw [split_bad hb, cons_append, split_bad (width?_append_char hb hc), ih, cons_append]

/-- Where the last piece starts the pieces before it end. -/
theorem exists_last_piece (h : l ≠ []) :
    ∃ pre piece, l = pre ++ Piece.bytes piece ∧ split l = split pre ++ [piece] := by
  induction l using split_induction with
  | nil => exact absurd rfl h
  | char c tail hc ih =>
    rw [split_append hc]
    by_cases htail : tail = []
    · subst htail
      exact ⟨[], .char c, append_nil c, rfl⟩
    · obtain ⟨pre, piece, rfl, hspl⟩ := ih htail
      exact ⟨c ++ pre, piece, (append_assoc ..).symm, by rw [hspl, split_append hc]; rfl⟩
  | bad b rest hb ih =>
    rw [split_bad hb]
    by_cases hrest : rest = []
    · subst hrest
      exact ⟨[], .bad b, rfl, rfl⟩
    · obtain ⟨pre, piece, rfl, hspl⟩ := ih hrest
      refine ⟨b :: pre, piece, rfl, ?_⟩
      -- a byte that starts no character still starts none with less behind it
      have hbef : width? (b :: pre) = none := by
        rw [Option.eq_none_iff_forall_ne_some]
        intro w hw
        have hmore := width?_take_append hw ((b :: pre).drop w ++ piece.bytes)
        rw [← append_assoc, take_append_drop, cons_append, hb] at hmore
        cases hmore
      rw [hspl, split_bad hbef, cons_append]

/-- Decoding from the end takes the last piece. -/
theorem decodeLastRune_eq {pre : List UInt8} {piece : Piece} (hl : l = pre ++ piece.bytes)
    (h : split l = split pre ++ [piece]) : decodeLastRune l = some (piece, pre) := by
  rw [decodeLastRune]
  cases hfind : l.tails.find? fun c => width? c = some c.length with
  | some c =>
    -- a character at the end is the last piece
    have hfound := find?_some hfind
    have hc : IsChar c := of_decide_eq_true hfound
    obtain ⟨front, rfl⟩ := (mem_tails ..).mp (mem_of_find?_eq_some hfind)
    rw [split_append_char hc] at h
    cases (append_inj' h rfl).2
    obtain rfl := append_cancel_right hl
    simp
  | none =>
    cases piece with
    | char c =>
      have hc : IsChar c := isChar_of_mem_split (by rw [h]; simp)
      have hnone := find?_eq_none.mp hfind c ((mem_tails ..).mpr ⟨pre, hl.symm⟩)
      exact absurd (decide_eq_true hc) hnone
    | bad b => simp [hl, Piece.bytes]

/-! ### Strings that are UTF-8 -/

/-- Every byte is part of a character. -/
def valid (l : List UInt8) : Bool := (split l).all Piece.IsGood

@[simp] theorem valid_nil : valid [] = true := rfl

@[simp] theorem valid_append (h : IsChar c) (tail : List UInt8) :
    valid (c ++ tail) = valid tail := by
  rw [valid, split_append h]
  rfl

@[simp] theorem valid_bad (h : width? (b :: rest) = none) : valid (b :: rest) = false := by
  rw [valid, split_bad h]
  rfl

/-- U+FFFD. -/
def replacement : List UInt8 := [0xEF, 0xBF, 0xBD]

theorem isChar_replacement : IsChar replacement := by decide

/-- A piece with a bad byte replaced. -/
def Piece.repair : Piece → List UInt8
  | .char bytes => bytes
  | .bad _ => replacement

/-- The string with every bad byte replaced. -/
def repair (l : List UInt8) : List UInt8 := (split l).flatMap Piece.repair

@[simp] theorem repair_append (h : IsChar c) (tail : List UInt8) :
    repair (c ++ tail) = c ++ repair tail := by
  rw [repair, split_append h]
  rfl

@[simp] theorem repair_bad (h : width? (b :: rest) = none) :
    repair (b :: rest) = replacement ++ repair rest := by
  rw [repair, split_bad h]
  rfl

theorem valid_repair (l : List UInt8) : valid (repair l) = true := by
  induction l using split_induction with
  | nil => rfl
  | char c tail hc ih => rw [repair_append hc, valid_append hc, ih]
  | bad b rest hb ih => rw [repair_bad hb, valid_append isChar_replacement, ih]

theorem repair_of_valid (h : valid l = true) : repair l = l := by
  induction l using split_induction with
  | nil => rfl
  | char c tail hc ih =>
    rw [valid_append hc] at h
    rw [repair_append hc, ih h]
  | bad b rest hb ih =>
    rw [valid_bad hb] at h
    cases h

/-- Behind valid text, validity is that of the rest. -/
theorem valid_append_of_valid (h : valid l = true) (tail : List UInt8) :
    valid (l ++ tail) = valid tail := by
  induction l using split_induction with
  | nil => rfl
  | char c rest hc ih =>
    rw [valid_append hc] at h
    rw [append_assoc, valid_append hc, ih h]
  | bad b rest hb ih =>
    rw [valid_bad hb] at h
    cases h

theorem valid_of_ascii (h : ∀ b ∈ l, b.toNat < 0x80) : valid l = true := by
  induction l with
  | nil => rfl
  | cons b l ih =>
    have hb : IsChar [b] := isChar_ascii (h b mem_cons_self)
    show valid ([b] ++ l) = true
    rw [valid_append hb]
    exact ih fun c hc => h c (mem_cons_of_mem b hc)

/-- A replaced byte makes the string longer. -/
theorem length_repair (l : List UInt8) : l.length ≤ (repair l).length ∧
    (valid l = false → l.length < (repair l).length) := by
  induction l using split_induction with
  | nil => simp
  | char c tail hc ih =>
    rw [valid_append hc, repair_append hc, length_append, length_append]
    exact ⟨by omega, fun h => Nat.add_lt_add_left (ih.2 h) _⟩
  | bad b rest hb ih =>
    have hle : (b :: rest).length < (repair (b :: rest)).length := by
      rw [repair_bad hb, length_append]
      simp only [replacement, length_cons]
      omega
    exact ⟨Nat.le_of_lt hle, fun _ => hle⟩

/-- Exactly the strings that are UTF-8 are left as they are. -/
theorem repair_eq_self_iff : repair l = l ↔ valid l = true := by
  constructor
  · intro h
    rw [← Bool.not_eq_false]
    intro hbad
    have := (length_repair l).2 hbad
    rw [h] at this
    exact Nat.lt_irrefl _ this
  · exact repair_of_valid

/-! ### Code points -/

/-- The bytes of a code point; one that has none stands for U+FFFD. -/
def encode (r : Nat) : List UInt8 :=
  if r ≤ 0x7F then [UInt8.ofNat r]
  else if r ≤ 0x7FF then [UInt8.ofNat (0xC0 + r / 64), UInt8.ofNat (0x80 + r % 64)]
  else if 0x10FFFF < r ∨ (0xD800 ≤ r ∧ r ≤ 0xDFFF) then replacement
  else if r ≤ 0xFFFF then
    [UInt8.ofNat (0xE0 + r / 4096), UInt8.ofNat (0x80 + r / 64 % 64), UInt8.ofNat (0x80 + r % 64)]
  else
    [UInt8.ofNat (0xF0 + r / 262144), UInt8.ofNat (0x80 + r / 4096 % 64),
      UInt8.ofNat (0x80 + r / 64 % 64), UInt8.ofNat (0x80 + r % 64)]

end Utf8
