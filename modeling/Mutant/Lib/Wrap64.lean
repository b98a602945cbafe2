import Mathlib.Algebra.Group.Int.Defs
import Mathlib.Algebra.Group.Nat.Defs

/-!
# Numbers that come round at 64 bits

An `int64` is an integer, and arithmetic on it is the exact arithmetic brought back by `wrap64`.

* `wrap64_eq_self`: a number in the range is not changed.
* `wrap64_wrap64_add`: a sum may be brought back once, at its end.
* `wrap64_spec`: what comes back is in the range, and differs by a multiple of `2 ^ 64`.
-/

namespace Mutant

/-- An `int64`. -/
def wrap64 (i : Int) : Int := i.bmod (2 ^ 64)

@[simp] theorem wrap64_wrap64_add (i j : Int) : wrap64 (wrap64 i + j) = wrap64 (i + j) :=
  Int.bmod_add_bmod

theorem wrap64_eq_self {i : Int} (hlow : -2 ^ 63 ≤ i) (hhigh : i < 2 ^ 63) : wrap64 i = i := by
  apply Int.bmod_eq_of_le
  · exact Int.le_trans (by decide) hlow
  · exact Int.lt_of_lt_of_le hhigh (by decide)

theorem wrap64_spec (i : Int) :
    -2 ^ 63 ≤ wrap64 i ∧ wrap64 i < 2 ^ 63 ∧ ∃ k, i = wrap64 i + k * 2 ^ 64 := by
  refine ⟨Int.le_bmod (by decide), Int.bmod_lt (by decide), i.bdiv (2 ^ 64), ?_⟩
  rw [Int.mul_comm]
  exact (Int.bmod_add_bdiv i (2 ^ 64)).symm

end Mutant
