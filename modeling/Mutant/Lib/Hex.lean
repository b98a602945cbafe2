import Mutant.Lib.Byte

/-!
# Hexadecimal text

Bytes as text of two digits each, in lower case, and back.  Reading takes digits of either case.

* `decode_encode`, `encode_inj`: text is read back.
-/

namespace Hex

open List

/-- The digit of a number below sixteen. -/
def digit (n : Nat) : UInt8 := UInt8.ofNat (if n < 10 then 48 + n else 87 + n)

/-- The number a digit stands for. -/
def value? (c : UInt8) : Option Nat :=
  let n := c.toNat
  if 48 ≤ n ∧ n ≤ 57 then some (n - 48)
  else if 97 ≤ n ∧ n ≤ 102 then some (n - 87)
  else if 65 ≤ n ∧ n ≤ 70 then some (n - 55)
  else none

/-- The text of the bytes. -/
def encode (bytes : List UInt8) : List UInt8 :=
  bytes.flatMap fun b => [digit (b.toNat / 16), digit (b.toNat % 16)]

/-- The bytes of a text: nothing when a digit is missing or is none. -/
def decode : List UInt8 → Option (List UInt8)
  | [] => some []
  | [_] => none
  | hi :: lo :: rest => do
    let hi ← value? hi
    let lo ← value? lo
    let bytes ← decode rest
    return UInt8.ofNat (16 * hi + lo) :: bytes

theorem value?_digit {n : Nat} (h : n < 16) : value? (digit n) = some n := by
  have hall : ∀ n : Fin 16, value? (digit n.val) = some n.val := by decide
  exact hall ⟨n, h⟩

/-- What was written is read back. -/
theorem decode_encode (bytes : List UInt8) : decode (encode bytes) = some bytes := by
  induction bytes with
  | nil => rfl
  | cons b bytes ih =>
    have hb := b.toNat_lt
    have hbyte : UInt8.ofNat (16 * (b.toNat / 16) + b.toNat % 16) = b := by
      rw [Nat.div_add_mod, UInt8.ofNat_toNat]
    rw [encode] at ih
    rw [encode, flatMap_cons, cons_append, cons_append, nil_append, decode, ih,
      value?_digit (by omega), value?_digit (by omega)]
    simp only [Option.bind_eq_bind, Option.bind_some, hbyte]
    rfl

theorem encode_inj {a b : List UInt8} (h : encode a = encode b) : a = b := by
  have := congrArg decode h
  rw [decode_encode, decode_encode] at this
  exact Option.some.inj this

@[simp] theorem length_encode (bs : List UInt8) : (encode bs).length = 2 * bs.length := by
  induction bs with
  | nil => rfl
  | cons b bs ih =>
    rw [encode] at ih
    rw [encode, flatMap_cons, length_append]
    simp only [length_cons, length_nil]
    omega

/-! ### Capital letters -/

/-- A capital letter as a small one. -/
def lower (c : UInt8) : UInt8 := if 65 ≤ c ∧ c ≤ 90 then c + 32 else c

theorem lower_digit {n : Nat} (h : n < 16) : lower (digit n) = digit n := by
  have hall : ∀ n : Fin 16, lower (digit n.val) = digit n.val := by decide
  exact hall ⟨n, h⟩

theorem lower_lower : ∀ c, lower (lower c) = lower c := by decide +kernel

theorem map_lower_encode (bytes : List UInt8) : (encode bytes).map lower = encode bytes := by
  induction bytes with
  | nil => rfl
  | cons b bytes ih =>
    have hb := b.toNat_lt
    rw [encode] at ih ⊢
    rw [flatMap_cons, map_append, ih, map_cons, map_singleton,
      lower_digit (by omega), lower_digit (by omega)]

end Hex
