import Mathlib.Order.Bounds.Basic

/-!
# Narrowing to the greatest solution

A state is made smaller by one demand after another until none of them changes it. Demands may
read each other's part of the state, so a pass over all of them may have to be made again.

* `narrows_pass`, `settle_greatest`: what is left is the greatest solution.
-/

namespace Narrowing

variable {X β : Type*}

/-- A pass over `demands`, each made of the state the one before left, and whether any of them
changed it. -/
def pass (step : β → X → X × Bool) : (demands : List β) → X → X × Bool
  | [], x => (x, false)
  | b :: demands, x =>
    let (x, changed) := step b x
    let (x, more) := pass step demands x
    (x, changed || more)

/-- Passes until one changes nothing, at most `bound` of them, and whether there was such a one. -/
def settle (step : X → X × Bool) : (bound : ℕ) → X → X × Bool
  | 0, x => (x, false)
  | bound + 1, x =>
    let (x, changed) := step x
    if changed then settle step bound x else (x, true)

variable [PartialOrder X]

/-- What a pass from `x` may leave: less than `x`, but no less than a solution below `x`, and `x`
itself exactly when nothing is reported, and then `x` is a solution. -/
structure Narrows (solves : X → Prop) (x : X) (r : X × Bool) : Prop where
  le : r.1 ≤ x
  keeps : ∀ y, solves y → y ≤ x → y ≤ r.1
  changes : r.2 = true → r.1 ≠ x
  settles : r.2 = false → r.1 = x ∧ solves x

/-- One demand after the other. -/
theorem Narrows.and {p q : X → Prop} {x : X} {r s : X × Bool} (h : Narrows p x r)
    (h' : Narrows q r.1 s) : Narrows (fun y => p y ∧ q y) x (s.1, r.2 || s.2) where
  le := h'.le.trans h.le
  keeps y hy hle := h'.keeps y hy.2 (h.keeps y hy.1 hle)
  changes := by
    intro hor (heq : s.1 = x)
    -- what comes back to `x` has never left it
    have hr : r.1 = x := le_antisymm h.le (heq ▸ h'.le)
    rcases Bool.or_eq_true_iff.mp hor with hr' | hs
    · exact h.changes hr' hr
    · exact h'.changes hs (heq.trans hr.symm)
  settles := by
    intro hor
    obtain ⟨hr, hs⟩ := Bool.or_eq_false_iff.mp hor
    obtain ⟨hr, hp⟩ := h.settles hr
    obtain ⟨hs, hq⟩ := h'.settles hs
    exact ⟨hs.trans hr, hp, hr ▸ hq⟩

theorem narrows_pass {solves : β → X → Prop} {step : β → X → X × Bool}
    (h : ∀ b x, Narrows (solves b) x (step b x)) (demands : List β) (x : X) :
    Narrows (fun y => ∀ b ∈ demands, solves b y) x (pass step demands x) := by
  induction demands generalizing x with
  | nil => exact ⟨le_rfl, fun _ _ hy => hy, nofun, fun _ => ⟨rfl, nofun⟩⟩
  | cons b demands ih =>
    simp only [List.forall_mem_cons]
    exact (h b x).and (ih _)

/-- A bound above a weight that every change lowers is never reached, and the passes end in the
greatest solution. -/
theorem settle_greatest {solves : X → Prop} {step : X → X × Bool} {weight : X → ℕ}
    (h : ∀ x, Narrows solves x (step x)) (hw : StrictMono weight) {bound : ℕ} {x : X}
    (hbd : weight x < bound) :
    IsGreatest {y | solves y ∧ y ≤ x} (settle step bound x).1 ∧ (settle step bound x).2 = true := by
  induction bound generalizing x with
  | zero => exact absurd hbd (Nat.not_lt_zero _)
  | succ bound ih =>
    rw [settle]
    cases hc : (step x).2 with
    | false =>
      obtain ⟨heq, hx⟩ := (h x).settles hc
      simp only [hc, heq]
      exact ⟨⟨⟨hx, le_rfl⟩, fun _ hy => hy.2⟩, rfl⟩
    | true =>
      have hlt := hw (lt_of_le_of_ne (h x).le ((h x).changes hc))
      obtain ⟨⟨⟨hsol, hle⟩, hub⟩, hend⟩ := ih (by omega : weight (step x).1 < bound)
      simp only [hc, if_true]
      exact ⟨⟨⟨hsol, hle.trans (h x).le⟩, fun y hy => hub ⟨hy.1, (h x).keeps y hy.1 hy.2⟩⟩, hend⟩

end Narrowing
