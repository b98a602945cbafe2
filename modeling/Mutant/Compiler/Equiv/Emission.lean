import Mathlib.Algebra.Order.Group.Int
import Mutant.Compiler.Discipline
/-!
# Streams under construction

The compiler writes a stream forward, leaves holes for the jumps it cannot resolve yet, and patches
them later.  A `View` is the part of the compiler's state that this reads and writes.

* `View.Wf`: what holds of every stream the compiler has written;
* `View.Le`: a later stream, of which every depth map is one of the earlier;
* `View.Depths.put`, `View.Depths.patch`: how a depth map is carried to the longer stream.
-/

namespace Mutant.Compiler

open Function Mutant.Ast Mutant.Code

variable {v : View} {i : Instr} {D : Nat → Nat} {q : Nat}

/-! ### Views -/

/-- The part of the compiler's state that emission reads and writes. -/
structure View where
  code : Instructions
  opens : List Nat
  nodes : List NodeSpan
  loops : List LoopSpan
  constants : List Constant
  contexts : List LoopContext
  pending : Nat
  outer : List CompilationScope

def CompilerState.view (s : CompilerState) : View where
  code := s.scope.instructions
  opens := s.scope.unresolvedJumps.map Prod.fst
  nodes := s.scope.nodes
  loops := s.scope.loops
  constants := s.constants
  contexts := s.loopContexts
  pending := s.pendingOperands
  outer := s.outerScopes

namespace View

/-- Where the next instruction goes. -/
def stop (v : View) : Nat := codeSize v.code

/-- Appends an instruction, which may be owed a target. -/
def put (v : View) (i : Instr) (owed : Bool) : View := { v with
    code := v.code ++ [i]
    opens := if owed then v.stop :: v.opens else v.opens }

/-- Patches the jump at `p`. -/
def patch (v : View) (p t : Nat) : View :=
  { v with code := modifyAt (withTarget t) p v.code, opens := v.opens.filter (· ≠ p) }

/-- Records the code of a node. -/
def log (v : View) (n : NodeSpan) : View := { v with nodes := n :: v.nodes }

/-- A depth map of the stream. -/
def Depths (v : View) (D : Nat → Nat) : Prop := DepthMap v.code v.opens v.nodes D

/-- What holds of every stream the compiler has written. -/
structure Wf (v : View) : Prop where
  fits : ∀ p i, At v.code p i → i.Fits
  opens : ∀ p ∈ v.opens, ∃ i, At v.code p i
  targets : ∀ p i t, At v.code p i → p ∉ v.opens → i.target? = some t → Boundary v.code t
  spans : ∀ n ∈ v.nodes, n.start ≤ n.stop ∧ n.stop ≤ v.stop

theorem Wf.opens_lt (h : v.Wf) {p : Nat} (hp : p ∈ v.opens) : p < v.stop := by
  obtain ⟨i, hi⟩ := h.opens p hp
  exact hi.lt

end View

/-! ### Jumps and their targets -/

/-- An instruction that jumps, with an operand to patch. -/
def IsJump (i : Instr) : Prop :=
  (i.op = .opJump ∨ i.op = .opJumpFalse ∨ i.op = .opIterNext) ∧ i.operands ≠ []

theorem size_withTarget (t : Nat) (i : Instr) : (withTarget t i).size = i.size := rfl

theorem target?_eq (h : IsJump i) (t : Nat) : (withTarget t i).target? = some t := by
  obtain ⟨h | h | h, -⟩ := h <;> simp [Instr.target?, withTarget, h, Opcode.jumpOperands]

theorem pops_withTarget (h : IsJump i) (t : Nat) : (withTarget t i).pops = i.pops := by
  obtain ⟨h | h | h, -⟩ := h <;> simp [Instr.pops, withTarget, h]

theorem lands_withTarget (i : Instr) (t : Nat) : (withTarget t i).lands = i.lands := rfl

theorem falls_withTarget (h : IsJump i) (t : Nat) : (withTarget t i).falls = i.falls := by
  obtain ⟨h | h | h, hne⟩ := h
  · simp [Instr.falls, withTarget, h]
  · simp [Instr.falls, withTarget, h]
  · rcases i with ⟨op, _ | ⟨a, rest⟩⟩
    · exact absurd rfl hne
    · subst h
      rcases rest with _ | ⟨b, _ | _⟩ <;> rfl

/-- A jump fits with any target that fits its operand. -/
theorem fits_withTarget (h : IsJump i) (hfits : i.Fits) {t : Nat}
    (ht : t ≤ maxOperand 2) : (withTarget t i).Fits := by
  rcases i with ⟨op, _ | ⟨a, rest⟩⟩
  · exact absurd rfl h.2
  · obtain ⟨h | h | h, -⟩ := h <;> subst h <;>
      · unfold Instr.Fits at hfits ⊢
        simp only [Opcode.operandWidths, withTarget, List.forall₂_cons] at hfits ⊢
        exact ⟨ht, hfits.2⟩

/-! ### Growing streams -/

/-- A later stream of the same scope: the instructions are still there, up to the targets of jumps
that were open. -/
structure View.Le (v v' : View) : Prop where
  at_ : ∀ p i, At v.code p i → ∃ i', At v'.code p i' ∧ i'.size = i.size ∧ i'.pops = i.pops ∧
    i'.falls = i.falls ∧ (p ∉ v.opens → i' = i)
  opens : ∀ p, p < v.stop → p ∈ v'.opens → p ∈ v.opens
  nodes : v.nodes ⊆ v'.nodes

/-- A depth map of the later stream is one of the earlier. -/
theorem View.Le.depths {v' : View} (h : v.Le v') (hD : v'.Depths D) : v.Depths D where
  pops p i hi := by
    obtain ⟨i', hi', -, hpops, -, -⟩ := h.at_ p i hi
    exact hpops ▸ hD.pops p i' hi'
  falls p i n hi hn := by
    obtain ⟨i', hi', hsize, hpops, hfalls, -⟩ := h.at_ p i hi
    have := hD.falls p i' n hi' (hfalls.trans hn)
    rwa [hsize, hpops] at this
  jumps p i t hi hp ht := by
    obtain ⟨i', hi', -, -, -, heq⟩ := h.at_ p i hi
    obtain rfl := heq hp
    exact hD.jumps p i' t hi' (fun hmem => hp (h.opens p hi.lt hmem)) ht
  nodes n hn := hD.nodes n (h.nodes hn)

/-- Depth maps only look at offsets inside the stream. -/
theorem View.Wf.depths_congr (hv : v.Wf) {D' : Nat → Nat}
    (h : ∀ p ≤ v.stop, D' p = D p) (hD : v.Depths D) : v.Depths D' where
  pops p i hi := by
    rw [h p hi.lt.le]
    exact hD.pops p i hi
  falls p i n hi hn := by
    rw [h p hi.lt.le, h _ hi.add_size_le]
    exact hD.falls p i n hi hn
  jumps p i t hi hp ht := by
    rw [h p hi.lt.le, h t (hv.targets p i t hi hp ht).le]
    exact hD.jumps p i t hi hp ht
  nodes n hn := by
    obtain ⟨h₁, h₂⟩ := hv.spans n hn
    rw [h _ h₂, h _ (h₁.trans h₂)]
    exact hD.nodes n hn

theorem View.le_log {n : NodeSpan} : v.Le (v.log n) where
  at_ _ i hi := ⟨i, hi, rfl, rfl, rfl, fun _ => rfl⟩
  opens _ _ hp := hp
  nodes := List.subset_cons_self _ _

/-! ### Appending -/

namespace View

variable {v : View} {i : Instr} {owed : Bool}

@[simp] theorem put_stop : (v.put i owed).stop = v.stop + i.size := by
  simp [put, stop]

theorem at_put {p : Nat} {j : Instr} :
    At (v.put i owed).code p j ↔ At v.code p j ∨ (p = v.stop ∧ j = i) := at_concat

theorem mem_put_opens {p : Nat} :
    p ∈ (v.put i owed).opens ↔ p ∈ v.opens ∨ (owed = true ∧ p = v.stop) := by
  cases owed <;> simp [put, or_comm]

theorem le_put : v.Le (v.put i owed) where
  at_ p j hj := ⟨j, at_put.mpr (.inl hj), rfl, rfl, rfl, fun _ => rfl⟩
  opens p hp hmem := by
    rcases mem_put_opens.mp hmem with h | ⟨-, rfl⟩
    · exact h
    · omega
  nodes := List.Subset.refl _

/-- Appending an instruction that fits keeps a stream well-formed. -/
theorem Wf.put (hv : v.Wf) (hfits : i.Fits)
    (htgt : owed = false → ∀ t, i.target? = some t → Boundary v.code t) : (v.put i owed).Wf where
  fits p j hj := by
    rcases at_put.mp hj with hj | ⟨-, rfl⟩
    · exact hv.fits p j hj
    · exact hfits
  opens p hp := by
    rcases mem_put_opens.mp hp with hp | ⟨-, rfl⟩
    · obtain ⟨j, hj⟩ := hv.opens p hp
      exact ⟨j, at_put.mpr (.inl hj)⟩
    · exact ⟨i, at_put.mpr (.inr ⟨rfl, rfl⟩)⟩
  targets p j t hj hp ht := by
    rw [mem_put_opens, not_or] at hp
    rcases at_put.mp hj with hj | ⟨rfl, rfl⟩
    · exact (hv.targets p j t hj hp.1 ht).append _
    · exact (htgt (by simpa using hp.2) t ht).append _
  spans n hn := by
    have := hv.spans n hn
    rw [put_stop]
    omega

/-- A depth map of the stream, continued past the instruction with depth `d`. -/
theorem Depths.put (hv : v.Wf) (hD : v.Depths D) {d : Nat} (hpops : i.pops ≤ D v.stop)
    (hfalls : ∀ n, i.falls = some n → d + i.pops = D v.stop + n)
    (htgt : owed = false → ∀ t, i.target? = some t →
      t ≤ v.stop ∧ D t + i.pops = D v.stop + i.lands) :
    (v.put i owed).Depths (update D (v.stop + i.size) d) := by
  have hsize := i.size_pos
  -- the depths up to here stay as they were
  have hbelow : ∀ p ≤ v.stop, update D (v.stop + i.size) d p = D p := fun p hp =>
    update_of_ne (by omega) _ _
  have hold := hv.depths_congr hbelow hD
  refine ⟨?_, ?_, ?_, hold.nodes⟩
  · intro p j hj
    rcases at_put.mp hj with hj | ⟨rfl, rfl⟩
    · exact hold.pops p j hj
    · rwa [hbelow _ (Nat.le_refl _)]
  · intro p j n hj hn
    rcases at_put.mp hj with hj | ⟨rfl, rfl⟩
    · exact hold.falls p j n hj hn
    · rw [update_self, hbelow _ (Nat.le_refl _)]
      exact hfalls n hn
  · intro p j t hj hp ht
    rw [mem_put_opens, not_or] at hp
    rcases at_put.mp hj with hj | ⟨rfl, rfl⟩
    · exact hold.jumps p j t hj hp.1 ht
    · obtain ⟨hle, heq⟩ := htgt (by simpa using hp.2) t ht
      rwa [hbelow t hle, hbelow _ (Nat.le_refl _)]

end View

/-! ### Patching -/

namespace View

variable {v : View} {p t : Nat}

@[simp] theorem patch_stop : (v.patch p t).stop = v.stop :=
  codeSize_modifyAt (size_withTarget t) p v.code

theorem at_patch : At (v.patch p t).code q i ↔
    (q ≠ p ∧ At v.code q i) ∨ (q = p ∧ ∃ j, At v.code p j ∧ i = withTarget t j) :=
  at_modifyAt (size_withTarget t)

theorem boundary_patch : Boundary (v.patch p t).code q ↔ Boundary v.code q :=
  boundary_modifyAt (size_withTarget t)

theorem mem_patch_opens : q ∈ (v.patch p t).opens ↔ q ∈ v.opens ∧ q ≠ p := by
  simp [patch]

theorem at_patch_of_ne (hq : q ≠ p) (hi : At v.code q i) :
    At (v.patch p t).code q i := at_patch.mpr (.inl ⟨hq, hi⟩)

theorem at_patch_self (hi : At v.code p i) :
    At (v.patch p t).code p (withTarget t i) := at_patch.mpr (.inr ⟨rfl, i, hi, rfl⟩)

section

variable {i : Instr} (hi : At v.code p i) (hjump : IsJump i) (hopen : p ∈ v.opens)

include hi hjump hopen

/-- A patched stream is a later one: only the open jump has changed. -/
theorem le_patch : v.Le (v.patch p t) where
  at_ q j hj := by
    by_cases hq : q = p
    · subst hq
      obtain rfl := hj.unique hi
      exact ⟨_, at_patch_self hj, rfl, pops_withTarget hjump t, falls_withTarget hjump t,
        fun h => absurd hopen h⟩
    · exact ⟨j, at_patch_of_ne hq hj, rfl, rfl, rfl, fun _ => rfl⟩
  opens _ _ hq := (mem_patch_opens.mp hq).1
  nodes := List.Subset.refl _

omit hopen in
/-- Patching a jump with a boundary keeps a stream well-formed. -/
theorem Wf.patch (hv : v.Wf) (hfits : t ≤ maxOperand 2) (ht : Boundary v.code t) :
    (v.patch p t).Wf where
  fits q j hj := by
    rcases at_patch.mp hj with ⟨-, hj⟩ | ⟨rfl, k, hk, rfl⟩
    · exact hv.fits q j hj
    · obtain rfl := hk.unique hi
      exact fits_withTarget hjump (hv.fits _ _ hk) hfits
  opens q hq := by
    obtain ⟨hq, hne⟩ := mem_patch_opens.mp hq
    obtain ⟨j, hj⟩ := hv.opens q hq
    exact ⟨j, at_patch_of_ne hne hj⟩
  targets q j u hj hq hu := by
    rw [boundary_patch]
    rcases at_patch.mp hj with ⟨hne, hj⟩ | ⟨rfl, k, hk, rfl⟩
    · exact hv.targets q j u hj (fun hmem => hq (mem_patch_opens.mpr ⟨hmem, hne⟩)) hu
    · obtain rfl := hk.unique hi
      rw [target?_eq hjump, Option.some.injEq] at hu
      exact hu ▸ ht
  spans n hn := by
    rw [patch_stop]
    exact hv.spans n hn

omit hopen in
/-- A depth map of the stream is one of the patched stream, when the jump's two ends agree. -/
theorem Depths.patch (hD : v.Depths D) (ht : D t + i.pops = D p + i.lands) :
    (v.patch p t).Depths D where
  pops q j hj := by
    rcases at_patch.mp hj with ⟨-, hj⟩ | ⟨rfl, k, hk, rfl⟩
    · exact hD.pops q j hj
    · obtain rfl := hk.unique hi
      exact pops_withTarget hjump t ▸ hD.pops _ _ hk
  falls q j n hj hn := by
    rcases at_patch.mp hj with ⟨-, hj⟩ | ⟨rfl, k, hk, rfl⟩
    · exact hD.falls q j n hj hn
    · obtain rfl := hk.unique hi
      rw [pops_withTarget hjump]
      exact hD.falls _ _ n hk (falls_withTarget hjump t ▸ hn)
  jumps q j u hj hq hu := by
    rcases at_patch.mp hj with ⟨hne, hj⟩ | ⟨rfl, k, hk, rfl⟩
    · exact hD.jumps q j u hj (fun hmem => hq (mem_patch_opens.mpr ⟨hmem, hne⟩)) hu
    · obtain rfl := hk.unique hi
      rw [target?_eq hjump, Option.some.injEq] at hu
      rw [pops_withTarget hjump, lands_withTarget, ← hu]
      exact ht
  nodes := hD.nodes

omit hopen in
/-- The patched jump's two ends agree in every depth map. -/
theorem Depths.target (hD : (v.patch p t).Depths D) : D t + i.pops = D p + i.lands := by
  have := hD.jumps p _ t (at_patch_self hi) (by simp [mem_patch_opens]) (target?_eq hjump t)
  rwa [pops_withTarget hjump, lands_withTarget] at this

end

end View

end Mutant.Compiler
