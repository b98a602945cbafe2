import Mathlib.Algebra.Group.Nat.Defs
import Mathlib.Tactic.Common

/-!
# Decimal numbers

A number as its decimal digits, without leading zeros, and the number a string of digits stands for.

* `toNat?_ofNat`, `toInt?_ofInt`: digits are read back;
* `length_ofNat_le`: how many there are.
-/

namespace Decimal

open List Option

variable {n : Nat}

/-- The digit of a number below ten. -/
def digit (n : Nat) : UInt8 := UInt8.ofNat (48 + n)

/-- The digits of a number; there are no more of them than the number is large. -/
def digitsFrom : (fuel n : Nat) → List UInt8
  | 0, _ => []
  | fuel + 1, n =>
    if n < 10 then [digit n] else digitsFrom fuel (n / 10) ++ [digit (n % 10)]

/-- A number in decimal. -/
def ofNat (n : Nat) : List UInt8 := digitsFrom (n + 1) n

/-- An integer in decimal. -/
def ofInt : Int → List UInt8
  | .ofNat n => ofNat n
  | .negSucc n => 45 :: ofNat (n + 1)

def digitValue? (b : UInt8) : Option Nat :=
  if 48 ≤ b.toNat ∧ b.toNat ≤ 57 then some (b.toNat - 48) else none

/-- One more digit of a number. -/
def next (n : Nat) (b : UInt8) : Option Nat := (digitValue? b).map (n * 10 + ·)

/-- The number a string of digits stands for. -/
def toNat? (l : List UInt8) : Option Nat := if l = [] then none else l.foldlM next 0

/-- The integer a string stands for: digits, after a sign if there is one. -/
def toInt? : List UInt8 → Option Int
  | [] => none
  | b :: rest =>
    if b = 45 then (toNat? rest).map fun n => -(n : Int)
    else if b = 43 then (toNat? rest).map fun n => (n : Int)
    else (toNat? (b :: rest)).map fun n => (n : Int)

theorem digitValue?_digit (h : n < 10) : digitValue? (digit n) = some n := by
  have htoNat : (digit n).toNat = 48 + n := by
    exact Nat.mod_eq_of_lt (by omega)
  rw [digitValue?, if_pos (by omega)]
  congr 1
  omega

/-- With enough fuel the fuel does not matter. -/
theorem digitsFrom_eq (fuel fuel' : Nat) (h : n < fuel) (h' : n < fuel') :
    digitsFrom fuel n = digitsFrom fuel' n := by
  induction fuel generalizing fuel' n with
  | zero => omega
  | succ fuel ih =>
    cases fuel' with
    | zero => omega
    | succ fuel' =>
      rw [digitsFrom, digitsFrom]
      by_cases hn : n < 10
      · rw [if_pos hn, if_pos hn]
      · rw [if_neg hn, if_neg hn, ih fuel' (n := n / 10) (by omega) (by omega)]

theorem ofNat_of_lt (h : n < 10) : ofNat n = [digit n] := by
  rw [ofNat, digitsFrom, if_pos h]

theorem ofNat_of_le (h : 10 ≤ n) : ofNat n = ofNat (n / 10) ++ [digit (n % 10)] := by
  rw [ofNat, digitsFrom, if_neg (by omega), digitsFrom_eq n (n / 10 + 1) (by omega) (by omega)]
  rfl

/-- The induction over a number's digits. -/
theorem digits_induction {motive : Nat → Prop} (single : ∀ n < 10, motive n)
    (more : ∀ n, 10 ≤ n → motive (n / 10) → motive n) (n : Nat) : motive n := by
  induction n using Nat.strongRecOn with
  | ind n ih =>
    by_cases h : n < 10
    · exact single n h
    · exact more n (by omega) (ih (n / 10) (by omega))

/-- A number below a power of ten has no more digits than the power has noughts. -/
theorem length_ofNat_le {k : Nat} (hk : 0 < k) (hn : n < 10 ^ k) : (ofNat n).length ≤ k := by
  induction n using digits_induction generalizing k with
  | single n h =>
    rw [ofNat_of_lt h]
    exact hk
  | more n h ih =>
    -- a number of two digits or more is not below ten
    obtain ⟨k, rfl⟩ : ∃ j, k = j + 2 := by
      refine ⟨k - 2, ?_⟩
      by_contra hne
      obtain rfl : k = 1 := by omega
      omega
    have hdiv : n / 10 < 10 ^ (k + 1) := by
      rw [Nat.div_lt_iff_lt_mul (by decide)]
      rwa [Nat.pow_succ] at hn
    rw [ofNat_of_le h, length_append, length_singleton]
    exact Nat.succ_le_succ (ih (Nat.succ_pos k) hdiv)

/-- The digits of a number add up to it. -/
theorem foldlM_ofNat (n : Nat) : (ofNat n).foldlM next 0 = some n := by
  induction n using digits_induction with
  | single n h =>
    rw [ofNat_of_lt h, foldlM_cons, next, digitValue?_digit h]
    simp
  | more n h ih =>
    rw [ofNat_of_le h, foldlM_append, ih, bind_eq_bind, bind_some,
      foldlM_cons, next, digitValue?_digit (Nat.mod_lt _ (by decide))]
    simp only [map_some, bind_eq_bind, bind_some, foldlM_nil]
    congr 1
    omega

theorem ofNat_ne_nil (n : Nat) : ofNat n ≠ [] := by
  by_cases h : n < 10
  · rw [ofNat_of_lt h]
    exact cons_ne_nil _ _
  · rw [ofNat_of_le (by omega)]
    exact append_ne_nil_of_right_ne_nil _ (cons_ne_nil _ _)

/-- A number is read back. -/
theorem toNat?_ofNat (n : Nat) : toNat? (ofNat n) = some n := by
  rw [toNat?, if_neg (ofNat_ne_nil n), foldlM_ofNat]

theorem ofNat_inj {m : Nat} (h : ofNat m = ofNat n) : m = n := by
  have := toNat?_ofNat m
  rw [h, toNat?_ofNat] at this
  exact (some.inj this).symm

/-- All digits. -/
theorem isDigit_of_mem_ofNat {b : UInt8} (h : b ∈ ofNat n) : ∃ d < 10, b = digit d := by
  induction n using digits_induction with
  | single n hn =>
    rw [ofNat_of_lt hn] at h
    exact ⟨n, hn, mem_singleton.mp h⟩
  | more n hn ih =>
    rw [ofNat_of_le hn, mem_append] at h
    rcases h with h | h
    · exact ih h
    · exact ⟨n % 10, Nat.mod_lt _ (by decide), mem_singleton.mp h⟩

/-- No leading zero, but for zero itself. -/
theorem ofNat_eq_cons (h : 0 < n) : ∃ d rest, 0 < d ∧ d < 10 ∧ ofNat n = digit d :: rest := by
  induction n using digits_induction with
  | single n hn => exact ⟨n, [], h, hn, ofNat_of_lt hn⟩
  | more n hn ih =>
    obtain ⟨d, rest, hpos, hlt, heq⟩ := ih (by omega)
    exact ⟨d, rest ++ [digit (n % 10)], hpos, hlt, by rw [ofNat_of_le hn, heq]; rfl⟩

theorem digit_ne {d : Nat} (h : d < 10) {c : UInt8} (hc : digitValue? c = none) : digit d ≠ c := by
  rintro rfl
  rw [digitValue?_digit h] at hc
  cases hc

/-- A number ends where a byte that is no digit stands. -/
theorem ofNat_append_inj {c : UInt8} (hc : digitValue? c = none) {m : Nat} {x y : List UInt8}
    (h : ofNat m ++ c :: x = ofNat n ++ c :: y) : m = n ∧ x = y := by
  have hout (k : Nat) : ∀ b ∈ ofNat k, (b != c) = true := by
    intro b hb
    obtain ⟨d, hd, rfl⟩ := isDigit_of_mem_ofNat hb
    exact bne_iff_ne.mpr (digit_ne hd hc)
  have htake := congrArg (takeWhile (· != c)) h
  have hdrop := congrArg (dropWhile (· != c)) h
  rw [takeWhile_append_of_pos (hout m), takeWhile_append_of_pos (hout n)] at htake
  rw [dropWhile_append_of_pos (hout m), dropWhile_append_of_pos (hout n)] at hdrop
  simp only [bne_self_eq_false, Bool.false_eq_true, not_false_eq_true, takeWhile_cons_of_neg,
    append_nil, dropWhile_cons_of_neg, cons.injEq, true_and] at htake hdrop
  exact ⟨ofNat_inj htake, hdrop⟩

/-- An integer is read back. -/
theorem toInt?_ofInt (i : Int) : toInt? (ofInt i) = some i := by
  cases i with
  | ofNat n =>
    have hback := toNat?_ofNat n
    cases hds : ofNat n with
    | nil => exact absurd hds (ofNat_ne_nil n)
    | cons b rest =>
      obtain ⟨d, hd, hb⟩ := isDigit_of_mem_ofNat (hds ▸ mem_cons_self : b ∈ ofNat n)
      rw [hds] at hback
      rw [ofInt, hds, toInt?, if_neg (hb ▸ digit_ne hd (by decide)),
        if_neg (hb ▸ digit_ne hd (by decide)), hback]
      rfl
  | negSucc n =>
    rw [ofInt, toInt?, toNat?_ofNat]
    rfl

theorem ofInt_inj {i j : Int} (h : ofInt i = ofInt j) : i = j := by
  have := toInt?_ofInt i
  rw [h, toInt?_ofInt] at this
  exact (some.inj this).symm

end Decimal
