import Mathlib.Data.List.GetD
import Mathlib.Tactic.Common

/-!
# Binary search

The least number below a bound from which on a predicate holds, found by halving.

* `splits_search`: the number found splits the range.
-/

namespace Search

/-- The loop: the answer lies from `i` to `j`; `fuel` bounds the rounds. -/
def searchFrom (p : Nat → Bool) : (fuel i j : Nat) → Nat
  | 0, i, _ => i
  | fuel + 1, i, j =>
    if i < j then
      let h := (i + j) / 2
      if p h then searchFrom p fuel i h else searchFrom p fuel (h + 1) j
    else i

/-- `sort.Search`. -/
def search (n : Nat) (p : Nat → Bool) : Nat := searchFrom p n 0 n

variable {p : Nat → Bool} {n : Nat}

/-- `k` splits the numbers below `n`: the predicate fails below `k` and holds from `k` on. -/
structure Splits (p : Nat → Bool) (n k : Nat) : Prop where
  le : k ≤ n
  below : ∀ x < k, p x = false
  above : ∀ x, k ≤ x → x < n → p x = true

section

variable (hmono : ∀ x y, x ≤ y → y < n → p x = true → p y = true)

include hmono

/-- The halving keeps what is known below `i` and from `j` on. -/
theorem splits_searchFrom {fuel i j : Nat} (hij : i ≤ j) (hj : j ≤ n) (hfuel : j ≤ i + fuel)
    (hbelow : ∀ x < i, p x = false) (habove : ∀ x, j ≤ x → x < n → p x = true) :
    Splits p n (searchFrom p fuel i j) := by
  -- the half that is kept still holds the answer
  induction fuel generalizing i j with
  | zero =>
    rw [searchFrom]
    exact ⟨by omega, hbelow, fun x hx => habove x (by omega)⟩
  | succ fuel ih =>
    rw [searchFrom]
    split_ifs with hlt
    · dsimp only
      split_ifs with hp
      · refine ih (by omega) (by omega) (by omega) hbelow ?_
        intro x hx hn
        exact hmono _ x hx hn hp
      · refine ih (by omega) hj (by omega) ?_ habove
        intro x hx
        by_contra htrue
        exact hp (hmono x _ (by omega) (by omega) (by simpa using htrue))
    · exact ⟨by omega, hbelow, fun x hx => habove x (by omega)⟩

/-- The search splits by a predicate that stays true. -/
theorem splits_search : Splits p n (search n p) :=
  splits_searchFrom hmono (Nat.zero_le _) (Nat.le_refl _) (by omega) (by simp)
    fun x hx hn => absurd hn (by omega)

end

/-- Searching an ascending list for the first element that is not below `x`. -/
theorem splits_getD {α : Type} [LE α] [DecidableLE α] (htrans : ∀ {a b c : α}, a ≤ b → b ≤ c → a ≤ c)
    {l : List α} (hl : l.Pairwise (· ≤ ·)) (x d : α) :
    Splits (fun i => x ≤ l.getD i d) l.length (search l.length fun i => x ≤ l.getD i d) := by
  refine splits_search fun i j hij hj hi => ?_
  rcases Nat.lt_or_eq_of_le hij with hij | rfl
  · have hle := List.pairwise_iff_getElem.mp hl i j (Nat.lt_trans hij hj) hj hij
    rw [← List.getD_eq_getElem l d, ← List.getD_eq_getElem l d] at hle
    exact decide_eq_true (htrans (of_decide_eq_true hi) hle)
  · exact hi

end Search
