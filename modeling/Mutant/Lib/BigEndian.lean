import Mathlib.Algebra.Group.Nat.Defs
import Mathlib.Data.List.Induction
import Mathlib.Tactic.Common

/-!
# Big-endian numbers

A number in a fixed count of bytes, the highest first.

* `get_put`, `put_get`: writing and reading are inverse.
-/

namespace BigEndian

open List

/-- The lowest `width` bytes of `n`, highest first. -/
def put : (width n : Nat) → List UInt8
  | 0, _ => []
  | width + 1, n => put width (n / 256) ++ [UInt8.ofNat (n % 256)]

/-- The number the bytes stand for. -/
def get (bytes : List UInt8) : Nat := bytes.foldl (fun n b => n * 256 + b.toNat) 0

@[simp] theorem length_put (width n : Nat) : (put width n).length = width := by
  induction width generalizing n with
  | zero => rfl
  | succ width ih => rw [put, length_append, ih, length_singleton]

/-- What was written is read back. -/
theorem get_put {width n : Nat} (h : n < 256 ^ width) : get (put width n) = n := by
  induction width generalizing n with
  | zero =>
    exact (Nat.lt_one_iff.mp h).symm
  | succ width ih =>
    have hhigh : n / 256 < 256 ^ width := by
      exact Nat.div_lt_of_lt_mul (by rwa [Nat.mul_comm])
    have hlow : (UInt8.ofNat (n % 256)).toNat = n % 256 := by
      exact Nat.mod_eq_of_lt (Nat.mod_lt _ (by decide))
    have hback := ih hhigh
    rw [get] at hback
    rw [put, get, foldl_append, hback, foldl_cons, hlow]
    exact Nat.div_add_mod' n 256

/-- Numbers that fit are told apart by their bytes. -/
theorem put_inj {w m n : Nat} (hm : m < 256 ^ w) (hn : n < 256 ^ w)
    (h : put w m = put w n) : m = n := by
  rw [← get_put hm, ← get_put hn, h]

theorem get_append_singleton (bs : List UInt8) (b : UInt8) :
    get (bs ++ [b]) = get bs * 256 + b.toNat := by
  rw [get, foldl_append]
  rfl

/-- What was read is written back. -/
theorem put_get (bytes : List UInt8) : put bytes.length (get bytes) = bytes := by
  induction bytes using reverseRecOn with
  | nil => rfl
  | append_singleton bytes b ih =>
    have hb : b.toNat < 256 := b.toNat_lt
    have hhigh : (get bytes * 256 + b.toNat) / 256 = get bytes := by omega
    have hlow : (get bytes * 256 + b.toNat) % 256 = b.toNat := by omega
    rw [length_append, length_singleton, put, get_append_singleton, hhigh, hlow, ih,
      UInt8.ofNat_toNat]

theorem get_lt (bs : List UInt8) : get bs < 256 ^ bs.length := by
  induction bs using reverseRecOn with
  | nil => decide
  | append_singleton bs b ih =>
    have hb : b.toNat < 256 := b.toNat_lt
    rw [get_append_singleton, length_append, length_singleton]
    omega

end BigEndian
