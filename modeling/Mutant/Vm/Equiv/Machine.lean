import Mutant.Vm.Machine
/-!
# Runs of the machine

How runs are put together: a run that ends is gone on with from where it ends, and one that is
stopped stays stopped.

* `Goes.trans`, `Goes.bind`: one run after the other;
* `Goes.operate`: one instruction.
-/

namespace Mutant.Vm

open Mutant.Code
open Mutant.Compiler (Constant)

variable {p : Nat}

/-- The machine finds the instruction that starts at the offset. -/
theorem instrAt_eq_some_iff {is : Instructions} {i : Instr} :
    instrAt is p = some i ↔ At is p i := by
  induction is generalizing p with
  | nil => simp [instrAt, At, layout]
  | cons j is ih =>
    rw [at_cons, instrAt]
    have hsize := j.size_pos
    split_ifs with hzero hle
    · subst hzero
      constructor
      · exact fun h => .inl ⟨rfl, (Option.some.inj h).symm⟩
      · rintro (⟨-, rfl⟩ | ⟨q, hq, -⟩)
        · rfl
        · omega
    · rw [ih]
      constructor
      · exact fun h => .inr ⟨_, by omega, h⟩
      · rintro (⟨rfl, -⟩ | ⟨q, rfl, h⟩)
        · exact absurd rfl hzero
        · rwa [Nat.add_sub_cancel_left]
    · refine iff_of_false not_false ?_
      rintro (⟨rfl, -⟩ | ⟨q, rfl, -⟩)
      · exact hzero rfl
      · omega

variable {K A W : Type}

@[simp] theorem Memory.slots_set_self (memory : Memory K A W) (slot : Slot) (v : Value K A) :
    (memory.set slot v).slots slot = v := Function.update_self ..

theorem Memory.slots_set_of_ne {slot slot' : Slot} (h : slot' ≠ slot) (memory : Memory K A W)
    (v : Value K A) : (memory.set slot v).slots slot' = memory.slots slot' :=
  Function.update_of_ne h ..

variable [DecidableEq K] {M : Machine K A W} {pool : List Constant} {is : Instructions}
  {memory : Memory K A W}

theorem step_of_at {i : Instr} {stack : List (Value K A)}
    {r : Except Fault (List (Value K A) × Memory K A W)} (hi : At is p i)
    (h : operate M pool i stack memory = some r) :
    step M pool is ⟨p, stack, memory⟩ = r.map fun x => ⟨p + i.size, x.1, x.2⟩ := by
  unfold step
  rw [instrAt_eq_some_iff.mpr hi]
  simp only [h]

/-! ### Runs of a number of turns -/

/-- The configuration after some turns. -/
def turns (M : Machine K A W) (pool : List Constant) (is : Instructions) :
    Nat → Config K A W → Except Fault (Config K A W)
  | 0, c => .ok c
  | n + 1, c => (step M pool is c).bind (turns M pool is n)

theorem steps_of_turns {n : Nat} {c c' : Config K A W} (h : turns M pool is n c = .ok c') :
    Steps M pool is c c' := by
  induction n generalizing c with
  | zero =>
    cases h
    exact .refl
  | succ n ih =>
    obtain ⟨c₁, hstep, h⟩ := Result.bind_eq_ok.mp h
    exact .head hstep (ih h)

/-! ### Runs between two offsets -/

/-- The code from `p` to `q`, run on a stack and a memory, leaves the stack and the memory given, or is
stopped by the fault given. -/
def Goes (M : Machine K A W) (pool : List Constant) (is : Instructions) (p q : Nat)
    (stack : List (Value K A)) (memory : Memory K A W)
    (r : Except Fault (List (Value K A) × Memory K A W)) : Prop :=
  Ends M pool is ⟨p, stack, memory⟩ (r.map fun x => ⟨q, x.1, x.2⟩)

namespace Goes

variable {p q t : Nat} {stack : List (Value K A)} {memory : Memory K A W}
  {r : Except Fault (List (Value K A) × Memory K A W)}

theorem refl : Goes M pool is p p stack memory (.ok (stack, memory)) := Relation.ReflTransGen.refl

theorem trans {stk' : List (Value K A)} {mem' : Memory K A W}
    (h : Goes M pool is p q stack memory (.ok (stk', mem')))
    (h' : Goes M pool is q t stk' mem' r) : Goes M pool is p t stack memory r := by
  have hfst : Steps M pool is ⟨p, stack, memory⟩ ⟨q, stk', mem'⟩ := h
  cases r with
  | ok x => exact Relation.ReflTransGen.trans hfst h'
  | error e =>
    obtain ⟨c, hss, hfault⟩ := h'
    exact ⟨c, hfst.trans hss, hfault⟩

/-- A run that goes on from where another ends, if it does. -/
theorem bind {γ : Type} {g : Except Fault γ} {f : γ → List (Value K A) × Memory K A W}
    {k : γ → Except Fault (List (Value K A) × Memory K A W)}
    (h : Goes M pool is p q stack memory (g.map f))
    (hk : ∀ a, g = .ok a → Goes M pool is q t (f a).1 (f a).2 (k a)) :
    Goes M pool is p t stack memory (g.bind k) := by
  cases g with
  | error e => exact h
  | ok a => exact trans h (hk a rfl)

/-- One instruction. -/
theorem operate {i : Instr} (hi : At is p i) (hq : q = p + i.size)
    (h : Vm.operate M pool i stack memory = some r) : Goes M pool is p q stack memory r := by
  have hstep := step_of_at hi h
  subst hq
  cases r with
  | ok x => exact Relation.ReflTransGen.single hstep
  | error e => exact ⟨_, Relation.ReflTransGen.refl, hstep⟩

end Goes

variable {r : Except Fault (Value K A × Memory K A W)}

/-- The code of an expression, as a run on a given stack. -/
theorem Yields.goes {q : Nat} (h : Yields M pool is p q memory r) (stack : List (Value K A)) :
    Goes M pool is p q stack memory (r.map fun x => (x.1 :: stack, x.2)) := by
  have hstack := h stack
  cases r <;> exact hstack

theorem yields_of_goes {q : Nat}
    (h : ∀ stack, Goes M pool is p q stack memory (r.map fun x => (x.1 :: stack, x.2))) :
    Yields M pool is p q memory r := by
  intro stack
  have hstack := h stack
  cases r <;> exact hstack

end Mutant.Vm
