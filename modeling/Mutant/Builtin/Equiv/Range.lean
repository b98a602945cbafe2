import Mathlib.Algebra.Ring.Int.Defs
import Mutant.Builtin.Range
import Mutant.Lib.Result

/-!
# What `range` returns

The loop is right as long as its counter does not pass the ends of 64 bits.  Where it does, the
number it goes on with lies before the end again, and is taken for one of the progression.

* `rangeLoop_isProgression_iff`, `range_isProgression_iff`: when the answer is the progression;
* `range_past_end`: a call where it is not.
-/

namespace Mutant.Builtin

/-- A number that lies before the end, in the step's direction. -/
def Lies (stop step x : Int) : Prop := if 0 < step then x < stop else stop < x

/-- A number a 64-bit integer can hold. -/
def Fits (x : Int) : Prop := -2 ^ 63 ≤ x ∧ x < 2 ^ 63

/-- The numbers `x + k * step` that lie before the end, in order, or a refusal where there are more
than `room` of them. -/
def IsProgression (stop step : Int) (room : Nat) (x : Int) : Except String (List Int64) → Prop
  | .ok xs => ¬ Lies stop step (x + room * step) ∧ ∀ k : Nat,
      xs[k]?.map Int64.toInt = some (x + k * step) ∧ Lies stop step (x + k * step) ∨
        xs[k]? = none ∧ ¬ Lies stop step (x + k * step)
  | .error e => Lies stop step (x + room * step) ∧ e = "range: exceeds maximum length 10000000"

variable {stop step x : Int}

/-- What lies before the end does so with everything before it. -/
theorem lies_of_add {k : Nat} (h : Lies stop step (x + k * step)) : Lies stop step x := by
  unfold Lies at *
  split_ifs at * with hstep
  · have := Int.mul_nonneg (Int.natCast_nonneg k) (Int.le_of_lt hstep)
    omega
  · have := Int.mul_nonpos_of_nonneg_of_nonpos (Int.natCast_nonneg k) (Int.not_lt.mp hstep)
    omega

theorem isProgression_nil {room : Nat} (h : ¬ Lies stop step x) :
    IsProgression stop step room x (.ok []) :=
  ⟨mt lies_of_add h, fun _ => .inr ⟨rfl, mt lies_of_add h⟩⟩

theorem add_succ_mul (x step : Int) (k : Nat) : x + (k + 1 : Nat) * step = x + step + k * step := by
  rw [Int.natCast_add, Int.add_mul, Int.natCast_one, Int.one_mul]
  omega

/-- A progression without its first number is the one from the next. -/
theorem isProgression_cons {room : Nat} {i : Int64} (h : Lies stop step i.toInt)
    (r : Except String (List Int64)) :
    IsProgression stop step (room + 1) i.toInt (r.map (i :: ·)) ↔
      IsProgression stop step room (i.toInt + step) r := by
  cases r with
  | error e => exact and_congr_left' (by rw [add_succ_mul])
  | ok xs =>
    refine and_congr (by rw [add_succ_mul]) ⟨fun hall k => ?_, fun hall k => ?_⟩
    · simpa only [List.getElem?_cons_succ, add_succ_mul] using hall (k + 1)
    · cases k with
      | zero => exact .inl ⟨by simp, by simpa using h⟩
      | succ k => simpa only [List.getElem?_cons_succ, add_succ_mul] using hall k

section

variable {pre : Int64 → Bool} {stop step : Int64}

/-- The loop starts with its counter. -/
theorem rangeLoop_head {room : Nat} {i : Int64} {xs : List Int64} (h : pre i)
    (hloop : rangeLoop pre step room i = .ok xs) : xs[0]? = some i := by
  cases room with
  | zero =>
    rw [rangeLoop, if_pos h] at hloop
    cases hloop
  | succ room =>
    rw [rangeLoop, if_pos h] at hloop
    obtain ⟨rest, -, rfl⟩ := Result.ok_of_map hloop
    rfl

variable (hbef : ∀ i, pre i ↔ Lies stop.toInt step.toInt i.toInt)

include hbef

/-- A counter that passes the end of 64 bits goes on before the end of the progression. -/
theorem lies_of_not_fits {i : Int64} (h : pre i) (hfits : ¬ Fits (i.toInt + step.toInt)) :
    pre (i + step) ∧ ¬ Lies stop.toInt step.toInt (i.toInt + step.toInt) := by
  rw [hbef] at h ⊢
  have := i.toInt_lt
  have := i.le_toInt
  have := step.toInt_lt
  have := step.le_toInt
  have := stop.toInt_lt
  have := stop.le_toInt
  rw [Int64.toInt_add, Int.bmod_def]
  unfold Lies Fits at *
  split_ifs at * <;> omega

/-- The loop is right exactly where it ends in a refusal that is due, or its counter fits. -/
theorem rangeLoop_isProgression_iff (room : Nat) (i : Int64) :
    IsProgression stop.toInt step.toInt room i.toInt (rangeLoop pre step room i) ↔
      Lies stop.toInt step.toInt (i.toInt + room * step.toInt) ∨
        ∀ k : Nat, Lies stop.toInt step.toInt (i.toInt + k * step.toInt) →
          Fits (i.toInt + (k + 1 : Nat) * step.toInt) := by
  induction room generalizing i with
  | zero =>
    rw [rangeLoop]
    split
    · next h =>
      have hlies := (hbef i).mp h
      exact iff_of_true ⟨by simpa using hlies, rfl⟩ (.inl (by simpa using hlies))
    · next h =>
      have hlies := mt (hbef i).mpr h
      exact iff_of_true (isProgression_nil hlies) (.inr fun k hk => absurd (lies_of_add hk) hlies)
  | succ room ih =>
    rw [rangeLoop]
    split
    · next h =>
      rw [isProgression_cons ((hbef i).mp h)]
      -- the next counter fits, or wraps
      by_cases hfits : Fits (i.toInt + step.toInt)
      · have hnext : (i + step).toInt = i.toInt + step.toInt := by
          rw [Int64.toInt_add, Int.bmod_def]
          unfold Fits at hfits
          omega
        rw [← hnext, ih, hnext, ← add_succ_mul]
        refine or_congr_right ⟨fun hall k hk => ?_, fun hall k hk => ?_⟩
        · cases k with
          | zero => simpa using hfits
          | succ k =>
            rw [add_succ_mul] at hk ⊢
            exact hall k hk
        · rw [← add_succ_mul] at hk ⊢
          exact hall (k + 1) hk
      -- a wrapped counter lies before the end again, and is not the next number
      · obtain ⟨hback, hout⟩ := lies_of_not_fits hbef h hfits
        refine iff_of_false (fun hwrong => ?_) ?_
        · cases hloop : rangeLoop pre step room (i + step) with
          | error e =>
            rw [hloop] at hwrong
            exact hout (lies_of_add hwrong.1)
          | ok xs =>
            rw [hloop] at hwrong
            rcases hwrong.2 0 with ⟨-, hlies⟩ | ⟨hnone, -⟩
            · exact hout (lies_of_add hlies)
            · rw [rangeLoop_head hback hloop] at hnone
              cases hnone
        · rintro (hlies | hall)
          · rw [add_succ_mul] at hlies
            exact hout (lies_of_add hlies)
          · exact hfits (by simpa using hall 0 (by simpa using (hbef i).mp h))
    · next h =>
      have hlies := mt (hbef i).mpr h
      exact iff_of_true (isProgression_nil hlies) (.inr fun k hk => absurd (lies_of_add hk) hlies)

end

/-- `range` returns the numbers of the progression that lie before the end, in order, or refuses
where there are more than its limit, exactly if there are more or the number after the last of them
fits in 64 bits. -/
theorem range_isProgression_iff (start stop step : Int64) (hstep : step ≠ 0) :
    IsProgression stop.toInt step.toInt maxRange start.toInt (range start stop step) ↔
      Lies stop.toInt step.toInt (start.toInt + maxRange * step.toInt) ∨
        ∀ k : Nat, Lies stop.toInt step.toInt (start.toInt + k * step.toInt) →
          Fits (start.toInt + (k + 1 : Nat) * step.toInt) := by
  have hpos : 0 < step ↔ 0 < step.toInt := by rw [Int64.lt_iff_toInt_lt, Int64.toInt_zero]
  rw [range, if_neg hstep]
  split
  · refine rangeLoop_isProgression_iff (fun i => ?_) maxRange start
    rw [Lies, if_pos (hpos.mp ‹_›), decide_eq_true_iff, Int64.lt_iff_toInt_lt]
  · refine rangeLoop_isProgression_iff (fun i => ?_) maxRange start
    rw [Lies, if_neg (mt hpos.mpr ‹_›), decide_eq_true_iff, Int64.lt_iff_toInt_lt]

theorem range_isProgression_iff_down : IsProgression 2 (-3) maxRange 10 (range 10 2 (-3)) := by
  refine (range_isProgression_iff 10 2 (-3) (by decide)).mpr (.inr fun k hk => ?_)
  change 2 < 10 + (k : Int) * -3 at hk
  change -2 ^ 63 ≤ 10 + ((k + 1 : Nat) : Int) * -3 ∧ 10 + ((k + 1 : Nat) : Int) * -3 < 2 ^ 63
  omega

/-- The counter passes the end of 64 bits, and two numbers follow that are none of the
progression's. -/
theorem range_past_end : range 1 2 (2 ^ 63 - 1) = .ok [1, -2 ^ 63, -1] ∧
    ¬ IsProgression 2 (2 ^ 63 - 1) maxRange 1 (range 1 2 (2 ^ 63 - 1)) := by
  have hloop : range 1 2 (2 ^ 63 - 1) = .ok [1, -2 ^ 63, -1] := by decide +kernel
  rw [hloop]
  refine ⟨rfl, fun h => ?_⟩
  have hsecond := h.2 1
  simp [Lies] at hsecond

end Mutant.Builtin
