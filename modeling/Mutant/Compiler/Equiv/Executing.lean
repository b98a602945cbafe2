import Mathlib.Data.List.Infix
import Mutant.Compiler.Equiv.Tree
import Mutant.Vm.Equiv.Machine
/-!
# Running what the compiler has emitted

The code a construct emits is run as part of a finished stream, in which jumps have since been given
their targets, more code has followed and captured locals are accessed through their cells
(`Carries`).  For each action that emits straight-line code, what running the code does.

* `emit_goes`: running an instruction that was emitted;
* `loadSymbol_goes`, `emitStoreOnly_goes`: reading and writing a variable.
-/

namespace Mutant.Compiler

open Mutant.Code Mutant.Vm

/-! ### Streams that carry emitted code -/

/-- A later stream of the same scope. -/
structure View.Grown (v v' : View) : Prop where
  code : v.code <+: v'.code
  constants : v.constants <+: v'.constants

theorem View.Grown.refl (v : View) : v.Grown v := ⟨List.prefix_refl _, List.prefix_refl _⟩

theorem View.Grown.trans {v v₁ v' : View} (h : v.Grown v₁) (h' : v₁.Grown v') : v.Grown v' :=
  ⟨h.code.trans h'.code, h.constants.trans h'.constants⟩

/-- A finished stream and its constants hold the code and the constants emitted so far. -/
structure Carries (v : View) (is : Instructions) (pool : List Constant) : Prop where
  code : ∀ p i, At v.code p i → ¬ IsJump i → ∃ captured, At is p (boxCapturedLocal captured i)
  constants : v.constants <+: pool

theorem Carries.of_grown {v v' : View} {is : Instructions} {pool : List Constant}
    (h : Carries v' is pool) (hgr : v.Grown v') : Carries v is pool where
  code p i hi := by
    obtain ⟨new, hnew⟩ := hgr.code
    apply h.code p i
    rw [← hnew]
    exact hi.append_left
  constants := hgr.constants.trans h.constants

/-! ### Actions that only append -/

/-- Every successful run of an action appends to the stream and to the constants. -/
def Growing {α : Type} (m : CompileM α) : Prop :=
  ∀ s a s', m s = .ok a s' → s.view.Wf → s'.view.Wf ∧ s.view.Grown s'.view

section

variable {α : Type} {c c' : Int} {flow : LoopFlow}

theorem Tracks.grown {v₀ v : View} {base : Nat} {opens : List OpenJump} {d : Option Int}
    {asm : List Mark} (h : Tracks v₀ base opens d flow v asm) : v₀.Grown v := by
  obtain ⟨f, hprogress, -⟩ := h
  obtain ⟨new, hnew⟩ := hprogress.code
  exact ⟨⟨new, hnew.symm⟩, ⟨f.constants, hprogress.constants.symm⟩⟩

theorem Moves.growing {m : CompileM α} (h : Moves m c c' flow) (hc : 0 ≤ c) : Growing m := by
  intro s a s' hrun hwf
  have hst := Tracks.start hwf c.toNat
  rw [Int.toNat_of_nonneg hc] at hst
  have htracks := h.run hst hrun
  exact ⟨htracks.wf, htracks.grown⟩

theorem Leaves.growing {m : CompileM Unit} {δ : Int} (h : Leaves m δ flow) : Growing m :=
  h.moves.growing (Int.le_refl 0)

end

/-! ### Instructions -/

section

variable {K A W : Type} [DecidableEq K] {M : Machine K A W} {pool : List Constant}
  {is : Instructions} {s s' : CompilerState} {stk : List (Value K A)} {memory : Memory K A W}

/-- A captured local is read and written as any other. -/
theorem operate_boxCapturedLocal (cap : List Nat) (i : Instr) :
    operate M pool (boxCapturedLocal cap i) stk memory = operate M pool i stk memory := by
  unfold boxCapturedLocal
  split
  · split_ifs <;> rfl
  · split_ifs <;> rfl
  · rfl

theorem size_boxCapturedLocal (cap : List Nat) (i : Instr) :
    (boxCapturedLocal cap i).size = i.size := by
  unfold boxCapturedLocal
  split
  · split_ifs <;> rfl
  · split_ifs <;> rfl
  · rfl

/-- What `operate` settles does not jump. -/
theorem not_isJump_of_operate {i : Instr} {r : Except Fault (List (Value K A) × Memory K A W)}
    (h : operate M pool i stk memory = some r) : ¬ IsJump i := by
  obtain ⟨op, ops⟩ := i
  rintro ⟨rfl | rfl | rfl, -⟩ <;> cases h

/-- An instruction that was emitted and that does not jump. -/
theorem emit_goes {op : Opcode} {ops : List Nat} {u : Unit}
    {r : Except Fault (List (Value K A) × Memory K A W)}
    (hrun : discard (emit op ops) s = .ok u s') (hcar : Carries s'.view is pool)
    (h : operate M pool ⟨op, ops⟩ stk memory = some r) :
    Goes M pool is s.view.stop s'.view.stop stk memory r := by
  obtain ⟨p, hemit⟩ := discard_ok.mp hrun
  obtain ⟨-, -, rfl⟩ := emit_ok.mp hemit
  rw [view_append] at hcar ⊢
  have hat : At (s.view.put ⟨op, ops⟩ false).code s.view.stop ⟨op, ops⟩ :=
    View.at_put.mpr (.inr ⟨rfl, rfl⟩)
  obtain ⟨cap, hcaptured⟩ := hcar.code _ _ hat (not_isJump_of_operate h)
  apply Goes.operate hcaptured
  · rw [size_boxCapturedLocal, View.put_stop]
  · rw [operate_boxCapturedLocal]
    exact h

/-! ### Variables -/

/-- The variable a symbol names, if it names one. -/
def Symbol.slot? : Symbol → Option Slot
  | ⟨_, .globalScope, index⟩ => some (.globalSlot index)
  | ⟨_, .localScope, index⟩ => some (.localSlot index)
  | ⟨_, .freeScope, index⟩ => some (.freeSlot index)
  | _ => none

variable {x : Symbol} {slot : Slot} {u : Unit}

/-- Running the load of a variable pushes its value. -/
theorem loadSymbol_goes (hx : x.slot? = some slot) (hrun : loadSymbol x s = .ok u s')
    (hcar : Carries s'.view is pool) :
    Goes M pool is s.view.stop s'.view.stop stk memory
      (.ok (memory.slots slot :: stk, memory)) := by
  obtain ⟨name, scope, index⟩ := x
  cases scope with
  | globalScope | localScope | freeScope =>
    cases hx
    exact emit_goes hrun hcar rfl
  | builtinScope | functionScope => cases hx

/-- Only a variable is stored into. -/
theorem exists_slot_of_emitStoreOnly (hrun : emitStoreOnly x s = .ok u s') :
    ∃ slot, x.slot? = some slot := by
  obtain ⟨name, scope, index⟩ := x
  cases scope with
  | globalScope | localScope | freeScope => exact ⟨_, rfl⟩
  | builtinScope | functionScope => exact (fail_ok.mp hrun).elim

/-- Running the store of a variable pops the value into it. -/
theorem emitStoreOnly_goes {v : Value K A} (hx : x.slot? = some slot)
    (hrun : emitStoreOnly x s = .ok u s') (hcar : Carries s'.view is pool) :
    Goes M pool is s.view.stop s'.view.stop (v :: stk) memory
      (.ok (stk, memory.set slot v)) := by
  obtain ⟨name, scope, index⟩ := x
  cases scope with
  | globalScope | localScope =>
    cases hx
    exact emit_goes hrun hcar rfl
  | freeScope =>
    cases hx
    -- a captured function name is refused, and nothing else is asked
    replace hrun := get_bind_ok.mp hrun
    obtain ⟨-, hrun⟩ | ⟨-, hrun⟩ := ite_ok.mp hrun
    · obtain ⟨_, _, hfail, -⟩ := bind_ok.mp hrun
      exact (fail_ok.mp hfail).elim
    · exact emit_goes hrun hcar rfl
  | builtinScope | functionScope => cases hx

end

end Mutant.Compiler
