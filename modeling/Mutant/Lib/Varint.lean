import Mathlib.Algebra.Group.Nat.Defs
import Mathlib.Tactic.Common

/-!
# Base-128 integers

The encoding of `encoding/binary`: an unsigned 64-bit number as groups of seven bits, lowest first,
every byte but the last with its high bit set; and signed numbers by folding the negative ones in
between.  Reading stops at a tenth byte that would not fit.

* `uvarint_putUvarint`, `varint_putVarint`: numbers are read back.
-/

namespace Varint

/-- The bytes of `x`, with `fuel` bytes to write at most. -/
def putFrom : (fuel x : Nat) → List UInt8
  | 0, _ => []
  | fuel + 1, x =>
    if x < 128 then [UInt8.ofNat x] else UInt8.ofNat (x % 128 + 128) :: putFrom fuel (x / 128)

/-- `binary.PutUvarint`. -/
def putUvarint (x : UInt64) : List UInt8 := putFrom 10 x.toNat

/-- The number at the front of the bytes, of which `i` were read, and the bytes after it. -/
def readFrom : (i : Nat) → List UInt8 → Option (Nat × List UInt8)
  | _, [] => none
  | i, b :: rest =>
    if i = 10 then none
    else if b.toNat < 128 then
      if i = 9 ∧ 1 < b.toNat then none else some (b.toNat, rest)
    else (readFrom (i + 1) rest).map fun high => (b.toNat - 128 + 128 * high.1, high.2)

/-- `binary.Uvarint`: nothing when the bytes end too soon or the number does not fit. -/
def uvarint (bytes : List UInt8) : Option (UInt64 × List UInt8) :=
  (readFrom 0 bytes).map fun x => (UInt64.ofNat x.1, x.2)

/-- Signed numbers as unsigned ones: `0, -1, 1, -2, 2, …`. -/
def zigzag (x : Int64) : UInt64 :=
  UInt64.ofNat (if x.toInt < 0 then (-2 * x.toInt - 1).toNat else (2 * x.toInt).toNat)

def unzigzag (u : UInt64) : Int64 :=
  Int64.ofInt (if u.toNat % 2 = 1 then -(u.toNat / 2 : Int) - 1 else (u.toNat / 2 : Int))

/-- `binary.PutVarint`. -/
def putVarint (x : Int64) : List UInt8 := putUvarint (zigzag x)

/-- `binary.Varint`. -/
def varint (bytes : List UInt8) : Option (Int64 × List UInt8) :=
  (uvarint bytes).map fun u => (unzigzag u.1, u.2)

/-! ### What is written is read back -/

/-- A number of at most `10 - i` groups, the last of one bit, is read back from byte `i` on. -/
theorem readFrom_putFrom {fuel i x : Nat} (rest : List UInt8) (hi : i + fuel = 10)
    (hx : x < 2 ^ (64 - 7 * i)) (hfuel : 0 < fuel) :
    readFrom i (putFrom fuel x ++ rest) = some (x, rest) := by
  induction fuel generalizing i x with
  | zero => omega
  | succ fuel ih =>
    rw [putFrom]
    split_ifs with hsm
    · have hbyte : (UInt8.ofNat x).toNat = x := by
        rw [UInt8.toNat_ofNat']
        omega
      rw [List.singleton_append, readFrom, hbyte, if_neg (by omega), if_pos hsm, if_neg]
      rintro ⟨rfl, hlast⟩
      omega
    · have hbyte : (UInt8.ofNat (x % 128 + 128)).toNat = x % 128 + 128 := by
        rw [UInt8.toNat_ofNat']
        omega
      -- a tenth byte is never needed
      have hnext : i < 9 := by
        by_contra hge
        obtain rfl : i = 9 := by omega
        omega
      have hdiv : x / 128 < 2 ^ (64 - 7 * (i + 1)) := by
        have hpow : 2 ^ (64 - 7 * (i + 1)) * 128 = 2 ^ (64 - 7 * i) := by
          rw [show 64 - 7 * i = 64 - 7 * (i + 1) + 7 by omega, Nat.pow_add]
        omega
      rw [List.cons_append, readFrom, if_neg (by omega), if_neg (by omega),
        ih (by omega) hdiv (by omega)]
      simp only [Option.map_some, Option.some.injEq, Prod.mk.injEq, and_true]
      omega

theorem uvarint_putUvarint (x : UInt64) (rest : List UInt8) :
    uvarint (putUvarint x ++ rest) = some (x, rest) := by
  unfold uvarint putUvarint
  rw [readFrom_putFrom rest (by omega) (by simpa using x.toNat_lt) (by omega), Option.map_some,
    UInt64.ofNat_toNat]

/-- Folding is undone. -/
theorem unzigzag_zigzag (x : Int64) : unzigzag (zigzag x) = x := by
  have hlo : -2 ^ 63 ≤ x.toInt := x.le_toInt
  have hhi : x.toInt < 2 ^ 63 := x.toInt_lt
  unfold unzigzag zigzag
  rw [UInt64.toNat_ofNat']
  by_cases hneg : x.toInt < 0
  · have hfits : (-2 * x.toInt - 1).toNat < 2 ^ 64 := by omega
    rw [if_pos hneg, Nat.mod_eq_of_lt hfits, if_pos (by omega)]
    rw [show -(((-2 * x.toInt - 1).toNat : Int) / 2) - 1 = x.toInt by omega, Int64.ofInt_toInt]
  · have hfits : (2 * x.toInt).toNat < 2 ^ 64 := by omega
    rw [if_neg hneg, Nat.mod_eq_of_lt hfits, if_neg (by omega)]
    rw [show ((2 * x.toInt).toNat : Int) / 2 = x.toInt by omega, Int64.ofInt_toInt]

theorem varint_putVarint (x : Int64) (rest : List UInt8) :
    varint (putVarint x ++ rest) = some (x, rest) := by
  unfold varint putVarint
  rw [uvarint_putUvarint, Option.map_some, unzigzag_zigzag]

theorem putUvarint_ne_nil (x : UInt64) : putUvarint x ≠ [] := by
  unfold putUvarint
  rw [putFrom]
  split_ifs <;> simp

end Varint
