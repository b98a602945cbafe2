import Mathlib.Data.List.Perm.Basic
import Mutant.Compiler.Equiv.Emission
/-!
# Accounting for emitted code

`Progress v₀ f v` accounts for a run of emission steps that took the stream from `v₀` to `v`.  The
fragment `f` lists the jumps still open with the depth each stands at, the breaks and continues owed
to an enclosing loop, the depth reached, and whether the code so far can be given depths at all.

* `Emitted` is the part about the stream itself;
* `Known` is what a depth map of the stream must say about it;
* `Progress.extend` builds a depth map of the longer stream from one of the shorter.

There is one lemma for each step the compiler can take: `put`, `hole`, `patchEnd`, `patchMark`,
`mark`, `revive`, `seq`, `enterLoop`, `seqLoop`, `closeLoop`, `log`, `addConstant`, `discharge`.
-/

namespace Mutant.Compiler

open View Function List Mutant.Ast Mutant.Code

variable {p : Nat} {x : OpenJump} {rest : List OpenJump} {bs cs : List Hole} {k : NodeKind}
  {loops : List LoopSpan} {l : LoopSpan} {ctx : LoopContext}

/-! ### Fragments -/

/-- A jump still owed a target, and the depth it stands at. -/
structure OpenJump where
  offset : Nat
  instr : Instr
  depth : Int

/-- An offset of known depth. -/
structure Mark where
  offset : Nat
  depth : Int

/-- A break or continue whose jump is still open, and the operands it leaves behind. -/
structure Hole where
  offset : Nat
  excess : Nat

def OpenJump.shift (c : Int) (x : OpenJump) : OpenJump := { x with depth := c + x.depth }

def Mark.shift (c : Int) (m : Mark) : Mark := { m with depth := c + m.depth }

def Hole.raise (n : Nat) (h : Hole) : Hole := { h with excess := n + h.excess }

/-- What a run of emission steps has done. -/
structure Frag where
  opens : List OpenJump := []
  breaks : List Hole := []
  continues : List Hole := []
  /-- Loops entered and not yet left. -/
  inner : List LoopContext := []
  /-- Where jumps can go. -/
  marks : List Mark := []
  /-- What is taken for granted about code that control does not reach from above. -/
  assumes : List Mark := []
  /-- Jumps that have been given a target. -/
  resolved : List (Nat × Instr) := []
  nodes : List NodeSpan := []
  loops : List LoopSpan := []
  constants : List Constant := []
  /-- The values taken to be on the stack at the start; every depth here is counted from under
  them. -/
  base : Nat := 0
  /-- The code cannot be given depths. -/
  bad : Prop := False
  /-- The depth reached; unknown where control does not arrive. -/
  depth : Option Int := some 0

namespace Frag

/-- The breaks and continues owed to a loop around the fragment. -/
def holes (f : Frag) : List Hole := f.breaks ++ f.continues

/-- The offsets still owed a target. -/
def owed (f : Frag) : List Nat := f.opens.map OpenJump.offset ++ f.holes.map Hole.offset

/-- The jumps of the breaks (or continues) that wait for a loop to end. -/
def waiting (f : Frag) : NodeKind → List Nat
  | .continueStatement => f.continues.map Hole.offset ++ f.inner.flatMap (·.continuePositions)
  | _ => f.breaks.map Hole.offset ++ f.inner.flatMap (·.breakPositions)

/-- The depth reached, told. -/
def reach (f : Frag) (c : Int) : Frag := { f with depth := some c }

/-- Unusable when `P` holds. -/
def spoil (f : Frag) (P : Prop) : Frag := { f with bad := f.bad ∨ P }

/-- The functions among the constants keep the stack discipline. -/
def FunctionsGood (f : Frag) : Prop :=
  ∀ fn, .function fn ∈ f.constants → StackDiscipline fn.instructions fn.nodes fn.loops

end Frag

/-- Records breaks and continues in a loop. -/
def LoopContext.record (ctx : LoopContext) (breaks continues : List Hole) : LoopContext :=
  { ctx with
    breakPositions := ctx.breakPositions ++ breaks.map Hole.offset
    continuePositions := ctx.continuePositions ++ continues.map Hole.offset }

/-- The jump a break or continue is emitted as. -/
def openJump : Instr := ⟨.opJump, [placeholderTarget]⟩

theorem openJump_isJump : IsJump openJump := by simp [IsJump, openJump]

@[simp] theorem openJump_pops : openJump.pops = 0 := rfl

@[simp] theorem openJump_falls : openJump.falls = none := rfl

@[simp] theorem openJump_lands : openJump.lands = 0 := rfl

/-- Enough operands for a break to drop those that its loop did not find on the stack. -/
def View.Affords (v : View) (d : Nat) : Prop :=
  ∀ ctx ∈ v.contexts.head?, v.pending ≤ d + ctx.pendingAtEntry

/-- What a fragment did to the stream and the loops around it. -/
structure Emitted (v₀ : View) (f : Frag) (v : View) : Prop where
  wf₀ : v₀.Wf
  wf : v.Wf
  outer : v.outer = v₀.outer
  pending : v.pending = v₀.pending
  contexts : v.contexts =
    f.inner ++ v₀.contexts.modifyHead fun ctx => ctx.record f.breaks f.continues
  noLoop : v₀.contexts = [] → f.holes = []
  noContinue : ∀ ctx ∈ v₀.contexts.head?, ctx.inLoopStep = true → f.continues = []
  code : ∃ new, v.code = v₀.code ++ new
  constants : v.constants = v₀.constants ++ f.constants
  nodes : v.nodes = f.nodes ++ v₀.nodes
  loops : v.loops = f.loops ++ v₀.loops
  opens : ∀ p, p ∈ v.opens ↔ p ∈ v₀.opens ∨ p ∈ f.owed
  nodup : f.owed.Nodup
  owed : ∀ p ∈ f.owed, v₀.stop ≤ p
  opensAt : ∀ x ∈ f.opens, At v.code x.offset x.instr ∧ IsJump x.instr
  holesAt : ∀ h ∈ f.holes, At v.code h.offset openJump
  marks : ∀ m ∈ f.marks, Boundary v.code m.offset
  assumes : ∀ m ∈ f.assumes, m.offset ≤ v.stop
  resolved : ∀ r ∈ f.resolved, At v.code r.1 r.2 ∧ r.1 ∉ v.opens
  spans : ∀ n ∈ f.nodes, v₀.stop ≤ n.start
  loopSpans : ∀ l ∈ f.loops, v₀.stop ≤ l.body ∧ l.jump ≤ v.stop
  waiting : ∀ k, ∀ p ∈ f.waiting k, v₀.stop ≤ p ∧ p < v.stop ∧ ∀ l ∈ f.loops, ¬ l.Encloses p
  control : ∀ n ∈ f.nodes, n.kind.IsLoopControl → n.jumpOffset ∈ f.waiting n.kind ∨
    ∃ l, Innermost f.loops l n.jumpOffset ∧
      At v.code n.jumpOffset ⟨.opJump, [l.target n.kind]⟩ ∧ n.jumpOffset ∉ v.opens
  functions : ∀ fn, .function fn ∈ f.constants → JumpsResolved fn.instructions fn.nodes fn.loops

/-- A depth map of the stream that grants what is assumed, `ground` being the depth under the `base`
values on the stack at the start. -/
structure Admits (v₀ : View) (base : Nat) (assumes : List Mark) (v : View) (ground : Int)
    (D : Nat → Nat) : Prop where
  base : (D v₀.stop : Int) = ground + base
  depths : v.Depths D
  assumes : ∀ m ∈ assumes, (D m.offset : Int) = ground + m.depth

/-- What a depth map says about a fragment. -/
structure Known (v₀ : View) (f : Frag) (v : View) (ground : Int) (D : Nat → Nat) : Prop where
  base : (D v₀.stop : Int) = ground + f.base
  depth : ∀ c ∈ f.depth, (D v.stop : Int) = ground + c
  opens : ∀ x ∈ f.opens, (D x.offset : Int) = ground + x.depth
  marks : ∀ m ∈ f.marks, (D m.offset : Int) = ground + m.depth
  holes : ∀ ctx ∈ v₀.contexts.head?, ∀ h ∈ f.holes,
    (D h.offset : Int) = ground + ctx.pendingAtEntry - v₀.pending + h.excess
  loops : ∀ l ∈ f.loops, D l.stop = l.landing D ∧ D l.resume = l.landing D

/-- An accounted run of emission steps. -/
structure Progress (v₀ : View) (f : Frag) (v : View) : Prop extends Emitted v₀ f v where
  known : ∀ D ground, Admits v₀ f.base f.assumes v ground D → Known v₀ f v ground D
  good : (∃ D ground, Admits v₀ f.base f.assumes v ground D) → f.FunctionsGood → ¬ f.bad
  functionsGood : ¬ f.bad → f.FunctionsGood
  extend : ¬ f.bad → ∀ D₀ (ground : Nat), v₀.Depths D₀ → D₀ v₀.stop = ground + f.base →
    v₀.Affords ground → ∀ d : Nat, (∀ c ∈ f.depth, (d : Int) = ground + c) →
    ∃ D, (∀ p ≤ v₀.stop, D p = D₀ p) ∧ Admits v₀ f.base f.assumes v ground D ∧ D v.stop = d

/-! ### Consequences -/

section

variable {v₀ v : View} {f : Frag}

section

variable (h : Emitted v₀ f v)

include h

theorem Emitted.stop_le : v₀.stop ≤ v.stop := by
  obtain ⟨new, hnew⟩ := h.code
  simp [stop, hnew]

theorem Emitted.at_of_at {i : Instr} (hi : At v₀.code p i) : At v.code p i := by
  obtain ⟨new, hnew⟩ := h.code
  exact hnew ▸ hi.append_left

theorem Emitted.boundary (hp : Boundary v₀.code p) : Boundary v.code p := by
  obtain ⟨new, hnew⟩ := h.code
  exact hnew ▸ hp.append new

/-- The stream has only grown. -/
theorem Emitted.le : v₀.Le v where
  at_ p i hi := ⟨i, h.at_of_at hi, rfl, rfl, rfl, fun _ => rfl⟩
  opens p hp hmem := by
    rcases (h.opens p).mp hmem with hmem | hmem
    · exact hmem
    · have := h.owed p hmem
      omega
  nodes := by
    rw [h.nodes]
    exact subset_append_right _ _

theorem Emitted.owed_lt (hp : p ∈ f.owed) : p < v.stop :=
  h.wf.opens_lt ((h.opens p).mpr (.inr hp))

end

end

@[simp] theorem LoopContext.record_nil (ctx : LoopContext) : ctx.record [] [] = ctx := by
  simp [record]

@[simp] theorem LoopContext.pendingAtEntry_record (ctx : LoopContext) (bs cs : List Hole) :
    (ctx.record bs cs).pendingAtEntry = ctx.pendingAtEntry := rfl

theorem LoopContext.record_record (ctx : LoopContext) (bs cs bs' cs' : List Hole) :
    (ctx.record bs cs).record bs' cs' = ctx.record (bs ++ bs') (cs ++ cs') := by
  simp [record]

/-- Nothing emitted yet, where `n` values are on the stack. -/
theorem Progress.start {v : View} (hv : v.Wf) (n : Nat) :
    Progress v { base := n, depth := some n } v where
  wf₀ := hv
  wf := hv
  outer := rfl
  pending := rfl
  contexts := by cases v.contexts <;> simp
  noLoop _ := rfl
  noContinue _ _ _ := rfl
  code := ⟨[], by simp⟩
  constants := by simp
  nodes := rfl
  loops := rfl
  opens p := by simp [Frag.owed, Frag.holes]
  nodup := nodup_nil
  owed := by simp [Frag.owed, Frag.holes]
  opensAt := by simp
  holesAt := by simp [Frag.holes]
  marks := by simp
  assumes := by simp
  resolved := by simp
  spans := by simp
  loopSpans := by simp
  waiting k := by cases k <;> simp [Frag.waiting]
  control := by simp
  functions := by simp
  known D ground hD := ⟨hD.base, by simpa using hD.base, by simp, by simp, by simp [Frag.holes], by simp⟩
  good _ _ := not_false
  functionsGood _ _ h := by simp at h
  -- nothing was emitted, so the depth map is the one there was
  extend _ D₀ ground hD₀ hbase _ d hd := by
    have hd : (d : Int) = ground + n := hd n rfl
    have hbase : D₀ v.stop = ground + n := hbase
    exact ⟨D₀, fun _ _ => rfl, ⟨by simp [hbase], hD₀, by simp⟩, by omega⟩

/-- The same code and the same depths, accounted for in another way. -/
theorem Progress.refit {v₀ v v' : View} {f f' : Frag} (h : Progress v₀ f v) (he : Emitted v₀ f' v')
    (hv : v'.Depths = v.Depths) (hstop : v'.stop = v.stop)
    (hf : f'.assumes = f.assumes ∧ f'.depth = f.depth ∧ f'.bad = f.bad ∧
      f'.constants = f.constants ∧ f'.base = f.base)
    (hknown : ∀ D ground, Known v₀ f v ground D → Known v₀ f' v' ground D) : Progress v₀ f' v' := by
  obtain ⟨has, hdep, hbad, hcs, hbase⟩ := hf
  -- the depth maps of the two are the same
  have hadmits : ∀ ground D, Admits v₀ f'.base f'.assumes v' ground D ↔
      Admits v₀ f.base f.assumes v ground D := fun ground D =>
    ⟨fun hD => ⟨hbase ▸ hD.base, hv ▸ hD.depths, has ▸ hD.assumes⟩,
      fun hD => ⟨hbase ▸ hD.base, hv ▸ hD.depths, has ▸ hD.assumes⟩⟩
  have hfn : f'.FunctionsGood ↔ f.FunctionsGood := by rw [Frag.FunctionsGood, hcs]; rfl
  refine ⟨he, fun D ground hD => hknown D ground (h.known D ground ((hadmits ground D).mp hD)),
    ?_, ?_, ?_⟩
  · rintro ⟨D, ground, hD⟩ hfn'
    rw [hbad]
    exact h.good ⟨D, ground, (hadmits ground D).mp hD⟩ (hfn.mp hfn')
  · rw [hbad, hfn]
    exact h.functionsGood
  · intro hb D₀ ground hD₀ hgnd haff d hd
    obtain ⟨D, hagr, hD, hd'⟩ :=
      h.extend (hbad ▸ hb) D₀ ground hD₀ (hbase ▸ hgnd) haff d (hdep ▸ hd)
    exact ⟨D, hagr, (hadmits ground D).mpr hD, hstop ▸ hd'⟩

/-! ### Appending an instruction -/

/-- An instruction appended at depth `c`. -/
def Frag.put (f : Frag) (pos : Nat) (c : Int) (i : Instr) (owed : Bool) : Frag := { f with
    opens := if owed then ⟨pos, i, c⟩ :: f.opens else f.opens
    depth := i.falls.map fun n : Nat => c - i.pops + n }

section

variable {v₀ v : View} {f : Frag} {i : Instr} {owed : Bool} {c : Int}

theorem Frag.mem_put_opens {pos : Nat} :
    x ∈ (f.put pos c i owed).opens ↔ x ∈ f.opens ∨ (owed = true ∧ x = ⟨pos, i, c⟩) := by
  cases owed <;> simp [put, or_comm]

theorem Frag.owed_put {pos : Nat} :
    (f.put pos c i owed).owed = if owed then pos :: f.owed else f.owed := by
  cases owed <;> rfl

theorem View.kept_put {j : Instr} (hkept : At v.code p j ∧ p ∉ v.opens) :
    At (v.put i owed).code p j ∧ p ∉ (v.put i owed).opens := by
  refine ⟨at_put.mpr (.inl hkept.1), ?_⟩
  rw [mem_put_opens, not_or, not_and]
  exact ⟨hkept.2, fun _ => hkept.1.lt.ne⟩

/-- One instruction more. -/
theorem Emitted.put (h : Emitted v₀ f v) (hfits : i.Fits) (hjump : owed = true → IsJump i)
    (htgt : owed = false → ∀ t, i.target? = some t → Boundary v.code t) :
    Emitted v₀ (f.put v.stop c i owed) (v.put i owed) where
  __ := h
  wf := h.wf.put hfits htgt
  code := by
    obtain ⟨new, hnew⟩ := h.code
    exact ⟨new ++ [i], by simp [View.put, hnew]⟩
  opens p := by
    rw [mem_put_opens, h.opens, Frag.owed_put, or_assoc]
    cases owed <;> simp [or_comm]
  -- a new jump stands at the end, behind all others
  nodup := by
    rw [Frag.owed_put]
    split_ifs
    · exact nodup_cons.mpr ⟨fun hp => (h.owed_lt hp).false, h.nodup⟩
    · exact h.nodup
  owed p hp := by
    rw [Frag.owed_put] at hp
    split_ifs at hp
    · exact forall_mem_cons.mpr ⟨h.stop_le, h.owed⟩ p hp
    · exact h.owed p hp
  opensAt x hx := by
    rcases Frag.mem_put_opens.mp hx with hx | ⟨ho, rfl⟩
    · exact ⟨at_put.mpr (.inl (h.opensAt x hx).1), (h.opensAt x hx).2⟩
    · exact ⟨at_put.mpr (.inr ⟨rfl, rfl⟩), hjump ho⟩
  holesAt x hx := at_put.mpr (.inl (h.holesAt x hx))
  marks m hm := (h.marks m hm).append _
  assumes m hm := by
    have := h.assumes m hm
    rw [put_stop]
    omega
  resolved r hr := kept_put (h.resolved r hr)
  loopSpans l hl := by
    have := h.loopSpans l hl
    rw [put_stop]
    omega
  waiting k p hp := by
    obtain ⟨h₁, h₂, h₃⟩ := h.waiting k p hp
    rw [put_stop]
    exact ⟨h₁, by omega, h₃⟩
  control n hn hk :=
    (h.control n hn hk).imp_right fun ⟨l, hl, hkept⟩ => ⟨l, hl, kept_put hkept⟩

/-- An instruction appended where the depth is known.  A jump that is not left open goes to a mark
of the right depth. -/
theorem Progress.put (h : Progress v₀ f v) (hc : f.depth = some c) (hfits : i.Fits)
    (hjump : owed = true → IsJump i)
    (hpops : ∀ ground : Nat, v₀.Affords ground → (i.pops : Int) ≤ ground + c)
    (htgt : owed = false → ∀ t, i.target? = some t → ⟨t, c - i.pops + i.lands⟩ ∈ f.marks) :
    Progress v₀ (f.put v.stop c i owed) (v.put i owed) where
  toEmitted := h.toEmitted.put hfits hjump fun ho t ht => h.marks _ (htgt ho t ht)
  known D ground hD := by
    have hk := h.known D ground ⟨hD.base, le_put.depths hD.depths, hD.assumes⟩
    have hat : At (v.put i owed).code v.stop i := at_put.mpr (.inr ⟨rfl, rfl⟩)
    have hstop := hk.depth c hc
    refine ⟨hD.base, ?_, ?_, hk.marks, hk.holes, hk.loops⟩
    · intro d hd
      obtain ⟨n, hn, rfl⟩ := Option.map_eq_some_iff.mp hd
      have := hD.depths.falls v.stop i n hat hn
      rw [put_stop]
      omega
    · intro x hx
      rcases Frag.mem_put_opens.mp hx with hx | ⟨-, rfl⟩
      · exact hk.opens x hx
      · exact hstop
  good := fun ⟨D, ground, hD⟩ => h.good ⟨D, ground, hD.base, le_put.depths hD.depths, hD.assumes⟩
  functionsGood := h.functionsGood
  extend hbad D₀ ground hD₀ hbase haff d hd := by
    have hpops := hpops ground haff
    obtain ⟨D, hagr, hD, hstop⟩ := h.extend hbad D₀ ground hD₀ hbase haff (ground + c).toNat (by
      intro c' hc'
      rw [hc, Option.mem_some_iff] at hc'
      omega)
    have hk := h.known D ground hD
    have hsize := i.size_pos
    have hle := h.stop_le
    -- the map is extended by the depth behind the instruction
    refine ⟨update D (v.stop + i.size) d, ?_, ⟨?_, ?_, ?_⟩, by simp⟩
    · intro p hp
      rw [update_of_ne (by omega)]
      exact hagr p hp
    · rw [update_of_ne (by omega)]
      exact hD.base
    · refine hD.depths.put h.wf (by omega) ?_ ?_
      · intro n hn
        have := hd _ (Option.map_eq_some_iff.mpr ⟨n, hn, rfl⟩)
        omega
      · intro ho t ht
        have hm := htgt ho t ht
        have := hk.marks _ hm
        have := (h.marks _ hm).le
        exact ⟨this, by simp only at *; omega⟩
    · intro m hm
      have hm' := h.assumes m hm
      rw [update_of_ne (by omega)]
      exact hD.assumes m hm

end

/-! ### Giving a jump its target -/

/-- The depth at which an open jump lands. -/
def OpenJump.landing (x : OpenJump) : Int := x.depth - x.instr.pops + x.instr.lands

/-- An open jump given the target `t`. -/
def Frag.patch (f : Frag) (x : OpenJump) (t : Nat) : Frag := { f with
    opens := f.opens.filter (·.offset ≠ x.offset)
    resolved := (x.offset, withTarget t x.instr) :: f.resolved }

section

variable {v₀ v : View} {f : Frag} {x : OpenJump} {t : Nat}

theorem Frag.mem_owed_of_opens (hx : x ∈ f.opens) : x.offset ∈ f.owed :=
  mem_append_left _ (mem_map_of_mem hx)

theorem Frag.mem_patch_opens {y : OpenJump} :
    y ∈ (f.patch x t).opens ↔ y ∈ f.opens ∧ y.offset ≠ x.offset := by simp [patch]

/-- Patching a jump settles that jump and no other: it is owed once. -/
theorem Frag.mem_owed_patch (hnd : f.owed.Nodup) (hx : x ∈ f.opens) :
    p ∈ (f.patch x t).owed ↔ p ∈ f.owed ∧ p ≠ x.offset := by
  have hdisj : ∀ h ∈ f.holes, h.offset ≠ x.offset := fun h hh heq =>
    disjoint_of_nodup_append hnd (mem_map_of_mem hx) (heq ▸ mem_map_of_mem hh)
  simp only [owed, mem_append, mem_map, mem_patch_opens]
  constructor
  · rintro (⟨y, ⟨hy, hne⟩, rfl⟩ | ⟨h, hh, rfl⟩)
    · exact ⟨.inl ⟨y, hy, rfl⟩, hne⟩
    · exact ⟨.inr ⟨h, hh, rfl⟩, hdisj h hh⟩
  · rintro ⟨⟨y, hy, rfl⟩ | ⟨h, hh, rfl⟩, hne⟩
    · exact .inl ⟨y, ⟨hy, hne⟩, rfl⟩
    · exact .inr ⟨h, hh, rfl⟩

theorem Frag.nodup_owed_patch (hnd : f.owed.Nodup) : (f.patch x t).owed.Nodup :=
  hnd.sublist ((filter_sublist.map _).append_right _)

/-- The other jumps stay open. -/
theorem Frag.opens_patch (hnd : f.owed.Nodup) {pre post : List OpenJump}
    (hops : f.opens = pre ++ x :: post) (t : Nat) : (f.patch x t).opens = pre ++ post := by
  have hmap := (nodup_append.mp hnd).1
  rw [hops, map_append, map_cons, nodup_append, nodup_cons] at hmap
  obtain ⟨-, ⟨hpost, -⟩, hpre⟩ := hmap
  change f.opens.filter _ = _
  rw [hops, filter_append, filter_cons_of_neg (by simp)]
  congr 1 <;> rw [filter_eq_self] <;> intro y hy
  · simpa using hpre _ (mem_map_of_mem hy) x.offset mem_cons_self
  · have hne : y.offset ≠ x.offset := fun heq => hpost (heq ▸ mem_map_of_mem hy)
    simpa using hne

/-- An instruction that is not owed a target is kept. -/
theorem Emitted.kept_patch (h : Emitted v₀ f v) (hx : x ∈ f.opens) {i : Instr}
    (hkept : At v.code p i ∧ p ∉ v.opens) :
    At (v.patch x.offset t).code p i ∧ p ∉ (v.patch x.offset t).opens := by
  have hne : p ≠ x.offset := fun heq =>
    hkept.2 ((h.opens _).mpr (.inr (heq ▸ Frag.mem_owed_of_opens hx)))
  exact ⟨at_patch_of_ne hne hkept.1, fun hp => hkept.2 (mem_patch_opens.mp hp).1⟩

/-- A jump is patched to a boundary of the stream. -/
theorem Emitted.patch (h : Emitted v₀ f v) (hx : x ∈ f.opens) (hfits : t ≤ maxOperand 2)
    (ht : Boundary v.code t) : Emitted v₀ (f.patch x t) (v.patch x.offset t) where
  __ := h
  wf := h.wf.patch (h.opensAt x hx).1 (h.opensAt x hx).2 hfits ht
  code := by
    obtain ⟨new, hnew⟩ := h.code
    obtain ⟨q, hq⟩ := Nat.exists_eq_add_of_le (h.owed _ (Frag.mem_owed_of_opens hx))
    refine ⟨modifyAt (withTarget t) q new, ?_⟩
    rw [View.patch, hnew, hq]
    exact modifyAt_append _ q _ _
  opens p := by
    rw [mem_patch_opens, h.opens, Frag.mem_owed_patch h.nodup hx]
    have hne : p ∈ v₀.opens → p ≠ x.offset := by
      rintro hp rfl
      -- an older jump stands before the fragment
      have := h.owed _ (Frag.mem_owed_of_opens hx)
      obtain ⟨i, hi⟩ := h.wf₀.opens _ hp
      exact absurd hi.lt (by simpa [stop] using this)
    tauto
  nodup := Frag.nodup_owed_patch h.nodup
  owed p hp := h.owed p ((Frag.mem_owed_patch h.nodup hx).mp hp).1
  opensAt y hy := by
    obtain ⟨hy, hne⟩ := Frag.mem_patch_opens.mp hy
    exact ⟨at_patch_of_ne hne (h.opensAt y hy).1, (h.opensAt y hy).2⟩
  holesAt y hy := by
    refine at_patch_of_ne (fun heq => ?_) (h.holesAt y hy)
    exact disjoint_of_nodup_append h.nodup (mem_map_of_mem hx)
      (heq ▸ mem_map_of_mem hy)
  marks m hm := boundary_patch.mpr (h.marks m hm)
  assumes m hm := by
    rw [patch_stop]
    exact h.assumes m hm
  resolved := forall_mem_cons.mpr
    ⟨⟨at_patch_self (h.opensAt x hx).1, fun hp => (mem_patch_opens.mp hp).2 rfl⟩,
      fun r hr => h.kept_patch hx (h.resolved r hr)⟩
  loopSpans l hl := by
    rw [patch_stop]
    exact h.loopSpans l hl
  waiting k p hp := by
    rw [patch_stop]
    exact h.waiting k p hp
  control n hn hk :=
    (h.control n hn hk).imp_right fun ⟨l, hl, hkept⟩ => ⟨l, hl, h.kept_patch hx hkept⟩

theorem Progress.admits_of_patch (h : Progress v₀ f v) (hx : x ∈ f.opens) {ground : Int}
    {D : Nat → Nat} (hD : Admits v₀ f.base f.assumes (v.patch x.offset t) ground D) :
    Admits v₀ f.base f.assumes v ground D := by
  obtain ⟨hat, hjump⟩ := h.opensAt x hx
  exact ⟨hD.base, (le_patch hat hjump
    ((h.opens _).mpr (.inr (Frag.mem_owed_of_opens hx)))).depths hD.depths, hD.assumes⟩

/-- An open jump given the current end as its target. -/
theorem Progress.patchEnd (h : Progress v₀ f v) (hx : x ∈ f.opens) (hfits : v.stop ≤ maxOperand 2)
    (hdep : ∀ c ∈ f.depth, c = x.landing) :
    Progress v₀ ((f.patch x v.stop).reach x.landing) (v.patch x.offset v.stop) where
  toEmitted := { h.toEmitted.patch hx hfits (boundary_codeSize _) with }
  known D ground hD := by
    obtain ⟨hat, hjump⟩ := h.opensAt x hx
    have hk := h.known D ground (h.admits_of_patch hx hD)
    refine ⟨hD.base, ?_, fun y hy => hk.opens y (mem_filter.mp hy).1, hk.marks, hk.holes, hk.loops⟩
    rintro c ⟨⟩
    -- what lands here stands at the depth the jump left
    have := hD.depths.target hat hjump
    have := hk.opens x hx
    rw [patch_stop, OpenJump.landing]
    omega
  good := fun ⟨D, ground, hD⟩ => h.good ⟨D, ground, h.admits_of_patch hx hD⟩
  functionsGood := h.functionsGood
  extend hbad D₀ ground hD₀ hbase haff d hd := by
    obtain ⟨hat, hjump⟩ := h.opensAt x hx
    have hd' := hd _ rfl
    obtain ⟨D, hagr, hD, hstop⟩ := h.extend hbad D₀ ground hD₀ hbase haff d (by
      intro c hc
      rw [hdep c hc]
      exact hd')
    refine ⟨D, hagr, ⟨hD.base, hD.depths.patch hat hjump ?_, hD.assumes⟩, by rwa [patch_stop]⟩
    have := (h.known D ground hD).opens x hx
    rw [OpenJump.landing] at hd'
    omega

/-- An open jump given an offset of known depth as its target.  The code cannot be given depths
when the two depths differ. -/
theorem Progress.patchMark (h : Progress v₀ f v) (hx : x ∈ f.opens) {m : Mark} (hm : m ∈ f.marks)
    (hfits : m.offset ≤ maxOperand 2) :
    Progress v₀ ((f.patch x m.offset).spoil (m.depth ≠ x.landing)) (v.patch x.offset m.offset) where
  toEmitted := { h.toEmitted.patch hx hfits (h.marks m hm) with }
  known D ground hD := by
    have hk := h.known D ground (h.admits_of_patch hx hD)
    refine ⟨hD.base, ?_, fun y hy => hk.opens y (mem_filter.mp hy).1, hk.marks, hk.holes, hk.loops⟩
    rw [patch_stop]
    exact hk.depth
  good := by
    rintro ⟨D, ground, hD⟩ hfn (hbad | hne)
    · exact h.good ⟨D, ground, h.admits_of_patch hx hD⟩ hfn hbad
    -- a depth map would give the target two depths
    · obtain ⟨hat, hjump⟩ := h.opensAt x hx
      have hk := h.known D ground (h.admits_of_patch hx hD)
      have := hD.depths.target hat hjump
      have := hk.opens x hx
      have := hk.marks m hm
      refine hne ?_
      rw [OpenJump.landing]
      omega
  functionsGood hbad := h.functionsGood (not_or.mp hbad).1
  extend hbad D₀ ground hD₀ hbase haff d hd := by
    obtain ⟨hat, hjump⟩ := h.opensAt x hx
    obtain ⟨hbad, heq⟩ := not_or.mp hbad
    obtain ⟨D, hagr, hD, hstop⟩ := h.extend hbad D₀ ground hD₀ hbase haff d hd
    refine ⟨D, hagr, ⟨hD.base, hD.depths.patch hat hjump ?_, hD.assumes⟩, by rwa [patch_stop]⟩
    have := (h.known D ground hD).opens x hx
    have := (h.known D ground hD).marks m hm
    rw [OpenJump.landing] at heq
    omega

end

/-! ### Breaks and continues -/

/-- The last open jump handed to the loop around the fragment, as a break (in `bs`) or a continue
(in `cs`). -/
def Frag.hand (f : Frag) (bs cs : List Hole) : Frag :=
  { f with opens := f.opens.tail, breaks := f.breaks ++ bs, continues := f.continues ++ cs }

/-- Breaks and continues recorded in the innermost loop. -/
def View.hand (v : View) (bs cs : List Hole) : View :=
  { v with contexts := v.contexts.modifyHead fun ctx => ctx.record bs cs }

section

variable {v₀ v : View} {f : Frag}

/-- A jump that is handed to a loop is still owed. -/
theorem Frag.owed_hand {e : Nat} (hops : f.opens = x :: rest) (hbs : bs ++ cs = [⟨x.offset, e⟩]) :
    (f.hand bs cs).owed.Perm f.owed := by
  have hcnt : ∀ p, (bs.map Hole.offset).count p + (cs.map Hole.offset).count p =
      count p [x.offset] := by
    intro p
    rw [← count_append, ← map_append, hbs]
    rfl
  rw [perm_iff_count]
  intro p
  have := hcnt p
  simp only [owed, holes, hand, hops, tail_cons, map_cons, map_append,
    count_append, count_cons, count_nil] at this ⊢
  omega

theorem Frag.mem_waiting_hand (hp : p ∈ (f.hand bs cs).waiting k) :
    p ∈ f.waiting k ∨ p ∈ (bs ++ cs).map Hole.offset := by
  cases k <;> simp only [waiting, hand, map_append, mem_append] at hp ⊢ <;> tauto

theorem Frag.waiting_hand_of_mem (hp : p ∈ f.waiting k) : p ∈ (f.hand bs cs).waiting k := by
  cases k <;> simp only [waiting, hand, map_append, mem_append] at hp ⊢ <;> tauto

theorem Frag.mem_holes_hand {y : Hole} : y ∈ (f.hand bs cs).holes ↔ y ∈ f.holes ∨ y ∈ bs ++ cs := by
  simp only [holes, hand, mem_append]
  exact or_or_or_comm

/-- The jump of a break or continue, which leaves `e` operands behind. -/
theorem Progress.hand (h : Progress v₀ f v) {e : Nat} (hops : f.opens = x :: rest)
    (hinstr : x.instr = openJump)
    (hbs : bs ++ cs = [⟨x.offset, e⟩]) (hinn : f.inner = []) (hloops : f.loops = [])
    (hne : v₀.contexts ≠ []) (hstep : ∀ ctx ∈ v₀.contexts.head?, ctx.inLoopStep = true → cs = [])
    (hdep : ∀ ctx ∈ v₀.contexts.head?, x.depth = ctx.pendingAtEntry - v₀.pending + e) :
    Progress v₀ (f.hand bs cs) (v.hand bs cs) := by
  have hx : x ∈ f.opens := hops ▸ mem_cons_self
  have howed := Frag.owed_hand hops hbs
  refine h.refit { h.toEmitted with
    wf := { h.wf with }
    contexts := ?_
    noLoop := fun h₀ => absurd h₀ hne
    noContinue := fun ctx hctx hin => by simp [Frag.hand, h.noContinue ctx hctx hin, hstep ctx hctx hin]
    opens := fun p => (h.opens p).trans (or_congr_right howed.mem_iff.symm)
    nodup := howed.nodup_iff.mpr h.nodup
    owed := fun p hp => h.owed p (howed.mem_iff.mp hp)
    opensAt := fun y hy => h.opensAt y (mem_of_mem_tail hy)
    holesAt := fun y hy => ?_
    waiting := fun k p hp => ?_
    control := fun n hn hk => (h.control n hn hk).imp_left Frag.waiting_hand_of_mem }
    rfl rfl ⟨rfl, rfl, rfl, rfl, rfl⟩ fun D ground hk => { hk with
      opens := fun y hy => hk.opens y (mem_of_mem_tail hy)
      holes := fun ctx hctx y hy => ?_ }
  · have := h.contexts
    rw [View.hand, this]
    cases v₀.contexts <;> simp [Frag.hand, hinn, LoopContext.record_record]
  · rcases Frag.mem_holes_hand.mp hy with hy | hy
    · exact h.holesAt y hy
    -- the break itself, which stands where the jump was emitted
    · rw [hbs, mem_singleton] at hy
      exact hy ▸ hinstr ▸ (h.opensAt x hx).1
  · rcases Frag.mem_waiting_hand hp with hp | hp
    · exact h.waiting k p hp
    · rw [hbs] at hp
      obtain rfl := mem_singleton.mp hp
      have hx := Frag.mem_owed_of_opens hx
      exact ⟨h.owed _ hx, h.owed_lt hx, by simp [Frag.hand, hloops]⟩
  · rcases Frag.mem_holes_hand.mp hy with hy | hy
    · exact hk.holes ctx hctx y hy
    · rw [hbs, mem_singleton] at hy
      subst hy
      have := hk.opens x hx
      rw [hdep ctx hctx] at this
      rw [this, Int.add_sub_assoc]
      exact (Int.add_assoc _ _ _).symm

/-! ### Offsets of known depth -/

/-- An offset to come back to. -/
def Frag.mark (f : Frag) (pos : Nat) (c : Int) : Frag := { f with marks := ⟨pos, c⟩ :: f.marks }

theorem Progress.markAt (h : Progress v₀ f v) {c : Int} (hp : Boundary v.code p)
    (hc : ∀ (D : Nat → Nat) (ground : Int), Known v₀ f v ground D → (D p : Int) = ground + c) :
    Progress v₀ (f.mark p c) v :=
  h.refit { h.toEmitted with marks := forall_mem_cons.mpr ⟨hp, h.marks⟩ } rfl rfl
    ⟨rfl, rfl, rfl, rfl, rfl⟩ fun D ground hk =>
      { hk with marks := forall_mem_cons.mpr ⟨hc D ground hk, hk.marks⟩ }

/-- The offset a fragment starts at. -/
theorem Progress.markStart (h : Progress v₀ f v) :
    Progress v₀ { f with marks := ⟨v₀.stop, f.base⟩ :: f.marks } v :=
  h.markAt (h.boundary (boundary_codeSize _)) fun _ _ hk => hk.base

theorem Progress.mark (h : Progress v₀ f v) {c : Int} (hc : f.depth = some c) :
    Progress v₀ (f.mark v.stop c) v :=
  h.markAt (boundary_codeSize _) fun _ _ hk => hk.depth c hc

/-- Code that control does not reach from above, taken to be at depth `e`. -/
def Frag.revive (f : Frag) (pos : Nat) (e : Int) : Frag :=
  { f with assumes := ⟨pos, e⟩ :: f.assumes, depth := some e }

/-- Code that control does not fall into: its depth is assumed, for a jump to it to meet. -/
theorem Progress.revive (h : Progress v₀ f v) (hc : f.depth = none) (e : Int) :
    Progress v₀ (f.revive v.stop e) v where
  __ := h
  assumes := forall_mem_cons.mpr ⟨Nat.le_refl _, h.assumes⟩
  known D ground hD := by
    obtain ⟨hstop, has⟩ := forall_mem_cons.mp hD.assumes
    have hk := h.known D ground ⟨hD.base, hD.depths, has⟩
    refine ⟨hD.base, ?_, hk.opens, hk.marks, hk.holes, hk.loops⟩
    rintro c ⟨⟩
    exact hstop
  good := fun ⟨D, ground, hD⟩ =>
    h.good ⟨D, ground, hD.base, hD.depths, (forall_mem_cons.mp hD.assumes).2⟩
  extend hbad D₀ ground hD₀ hbase haff d hd := by
    obtain ⟨D, hagr, hD, hstop⟩ := h.extend hbad D₀ ground hD₀ hbase haff d (by simp [hc])
    refine ⟨D, hagr, ⟨hD.base, hD.depths, forall_mem_cons.mpr ⟨?_, hD.assumes⟩⟩, hstop⟩
    rw [hstop]
    exact hd e rfl

/-- What was assumed turned out to hold. -/
theorem Progress.discharge (h : Progress v₀ f v)
    (hall : ∀ D ground, (D v₀.stop : Int) = ground + f.base → v.Depths D →
      ∀ m ∈ f.assumes, (D m.offset : Int) = ground + m.depth) :
    Progress v₀ { f with assumes := [] } v where
  __ := h
  assumes := by simp
  known D ground hD :=
    { h.known D ground ⟨hD.base, hD.depths, hall D ground hD.base hD.depths⟩ with }
  good := fun ⟨D, ground, hD⟩ =>
    h.good ⟨D, ground, hD.base, hD.depths, hall D ground hD.base hD.depths⟩
  extend hbad D₀ ground hD₀ hbase haff d hd := by
    obtain ⟨D, hagr, hD, hstop⟩ := h.extend hbad D₀ ground hD₀ hbase haff d hd
    exact ⟨D, hagr, ⟨hD.base, hD.depths, by simp⟩, hstop⟩

/-! ### Nodes and constants -/

/-- A node whose code has been emitted. -/
def Frag.log (f : Frag) (n : NodeSpan) (c : Int) : Frag :=
  { f with nodes := n :: f.nodes, depth := some c }

/-- The end of a node's code, also where control does not arrive. -/
theorem Progress.log (h : Progress v₀ f v) {n : NodeSpan} {a : Int} (hst : ⟨n.start, a⟩ ∈ f.marks)
    (hle : v₀.stop ≤ n.start) (hstop : n.stop = v.stop) (hdep : ∀ c ∈ f.depth, c = a + n.kind.leaves)
    (hctl : n.kind.IsLoopControl → n.jumpOffset ∈ f.waiting n.kind) :
    Progress v₀ (f.log n (a + n.kind.leaves)) (v.log n) where
  __ := h
  wf := { h.wf with
    spans := forall_mem_cons.mpr ⟨⟨hstop ▸ (h.marks _ hst).le, hstop.le⟩, h.wf.spans⟩ }
  nodes := by simp [View.log, Frag.log, h.nodes]
  spans := forall_mem_cons.mpr ⟨hle, h.spans⟩
  control := forall_mem_cons.mpr ⟨fun hk => .inl (hctl hk), h.control⟩
  known D ground hD := by
    have hk := h.known D ground ⟨hD.base, le_log.depths hD.depths, hD.assumes⟩
    refine ⟨hD.base, ?_, hk.opens, hk.marks, hk.holes, hk.loops⟩
    rintro c ⟨⟩
    -- the node itself fixes the depth behind it, even where control does not arrive
    have hn := hD.depths.nodes n mem_cons_self
    have := hk.marks _ hst
    have hv : (v.log n).stop = n.stop := hstop.symm
    rw [hv]
    simp only at this
    omega
  good := fun ⟨D, ground, hD⟩ =>
    h.good ⟨D, ground, hD.base, le_log.depths hD.depths, hD.assumes⟩
  extend hbad D₀ ground hD₀ hbase haff d hd := by
    have hd' := hd _ rfl
    obtain ⟨D, hagr, hD, hD'⟩ := h.extend hbad D₀ ground hD₀ hbase haff d (by
      intro c hc
      rw [hdep c hc]
      exact hd')
    refine ⟨D, hagr, ⟨hD.base, { hD.depths with
      nodes := forall_mem_cons.mpr ⟨?_, hD.depths.nodes⟩ }, hD.assumes⟩, hD'⟩
    have := (h.known D ground hD).marks _ hst
    rw [hstop]
    simp only at *
    omega

/-- A constant that, if it is a function, keeps the stack discipline. -/
def Constant.Good (k : Constant) : Prop :=
  ∀ fn, k = .function fn → StackDiscipline fn.instructions fn.nodes fn.loops

/-- A constant added to the pool. -/
def Frag.addConstant (f : Frag) (k : Constant) : Frag :=
  { f with constants := f.constants ++ [k], bad := f.bad ∨ ¬ k.Good }

theorem Frag.functionsGood_addConstant {k : Constant} :
    (f.addConstant k).FunctionsGood ↔ f.FunctionsGood ∧ k.Good := by
  simp only [FunctionsGood, addConstant, mem_append, mem_singleton, or_imp,
    forall_and, Constant.Good, eq_comm]

/-- A constant more, which spoils the code if it is a function that has no depths. -/
theorem Progress.addConstant (h : Progress v₀ f v) {k : Constant}
    (hk : ∀ fn, k = .function fn → JumpsResolved fn.instructions fn.nodes fn.loops) :
    Progress v₀ (f.addConstant k) { v with constants := v.constants ++ [k] } where
  __ := h
  wf := { h.wf with }
  constants := by simp [Frag.addConstant, h.constants]
  functions fn hfn := (mem_append.mp hfn).elim (h.functions fn)
    fun hfn => hk fn (mem_singleton.mp hfn).symm
  known D ground hD := { h.known D ground ⟨hD.base, hD.depths, hD.assumes⟩ with }
  good := by
    rintro ⟨D, ground, hD⟩ hfn (hbad | hbad)
    · exact h.good ⟨D, ground, hD.base, hD.depths, hD.assumes⟩
        (Frag.functionsGood_addConstant.mp hfn).1 hbad
    · exact hbad (Frag.functionsGood_addConstant.mp hfn).2
  functionsGood hbad := by
    obtain ⟨hbad, hgood⟩ := not_or.mp hbad
    exact Frag.functionsGood_addConstant.mpr ⟨h.functionsGood hbad, not_not.mp hgood⟩
  extend hbad D₀ ground hD₀ hbase haff d hd := by
    obtain ⟨D, hagr, hD, hstop⟩ := h.extend (not_or.mp hbad).1 D₀ ground hD₀ hbase haff d hd
    exact ⟨D, hagr, ⟨hD.base, hD.depths, hD.assumes⟩, hstop⟩

end

/-! ### Sequencing -/

/-- `n` more operands waiting. -/
def View.addPending (v : View) (n : Nat) : View := { v with pending := v.pending + n }

/-- `n` operands no longer waiting. -/
def View.subPending (v : View) (n : Nat) : View := { v with pending := v.pending - n }

/-- A break or continue that has found its loop, and is now a jump to patch. -/
def Hole.opened (c : Int) (h : Hole) : OpenJump := ⟨h.offset, openJump, c + h.excess⟩

/-- `g` after `f`, over `c` operands of which `n` more are counted as waiting.  Those that are not
counted are left behind by the breaks of `g`, which belong to the loop `f` is inside, if it is inside
one. -/
def Frag.seq (f : Frag) (n : Nat) (c : Int) (g : Frag) : Frag where
  opens := f.opens ++ g.opens.map (·.shift c) ++
    if f.inner = [] then [] else g.holes.map (·.opened (c - n))
  breaks := f.breaks ++ if f.inner = [] then g.breaks.map (·.raise (c - n).toNat) else []
  continues := f.continues ++ if f.inner = [] then g.continues.map (·.raise (c - n).toNat) else []
  inner := f.inner.modifyHead fun ctx => ctx.record g.breaks g.continues
  marks := f.marks
  assumes := f.assumes ++ g.assumes.map (·.shift c)
  resolved := f.resolved
  nodes := g.nodes ++ f.nodes
  loops := g.loops ++ f.loops
  constants := f.constants ++ g.constants
  base := f.base
  bad := f.bad ∨ g.bad
  depth := g.depth.map fun d : Int => c + d

section

variable {v₀ v v' : View} {f g : Frag} {n : Nat} {c : Int}

theorem Frag.mem_opens_seq : x ∈ (f.seq n c g).opens ↔
    x ∈ f.opens ∨ (∃ y ∈ g.opens, x = y.shift c) ∨
      (f.inner ≠ [] ∧ ∃ h ∈ g.holes, x = h.opened (c - n)) := by
  by_cases hf : f.inner = [] <;>
    simp only [seq, hf, if_true, if_false, append_nil, mem_append, mem_map, ne_eq,
      not_true, not_false_iff, false_and, true_and, or_false, or_assoc, eq_comm]

theorem Frag.mem_holes_seq {x : Hole} : x ∈ (f.seq n c g).holes ↔
    x ∈ f.holes ∨ (f.inner = [] ∧ ∃ h ∈ g.holes, x = h.raise (c - n).toNat) := by
  by_cases hf : f.inner = []
  · simp only [holes, seq, hf, if_true, mem_append, mem_map, true_and, or_and_right,
      exists_or, eq_comm]
    exact or_or_or_comm
  · simp [holes, seq, hf]

/-- What two fragments owe is what each of them owes. -/
theorem Frag.owed_seq : (f.seq n c g).owed.Perm (f.owed ++ g.owed) := by
  have hshift : OpenJump.offset ∘ OpenJump.shift c = OpenJump.offset := rfl
  have hraise : Hole.offset ∘ Hole.raise (c - n).toNat = Hole.offset := rfl
  have hopened : OpenJump.offset ∘ Hole.opened (c - n) = Hole.offset := rfl
  rw [perm_iff_count]
  intro p
  by_cases hf : f.inner = [] <;>
    · simp only [owed, holes, seq, hf, if_true, if_false, append_nil, map_append,
        map_map, count_append, hshift, hraise, hopened]
      omega

theorem Frag.mem_waiting_seq (hg : g.inner = []) :
    p ∈ (f.seq n c g).waiting k ↔ p ∈ f.waiting k ∨ p ∈ g.waiting k := by
  rcases hf : f.inner with _ | ⟨ctx, rest⟩ <;> cases k <;>
    simp only [waiting, seq, hf, hg, LoopContext.record, map_append, map_map,
      modifyHead_cons, flatMap_cons, mem_append, if_true] <;>
    tauto

theorem Frag.functionsGood_seq :
    (f.seq n c g).FunctionsGood ↔ f.FunctionsGood ∧ g.FunctionsGood := by
  simp only [FunctionsGood, seq, mem_append, or_imp, forall_and]

/-- Loops that begin where the others have ended do not enclose the same offsets. -/
theorem Innermost.append_later {later : List LoopSpan} {q : Nat}
    (h : Innermost loops l p) (hp : p < q) (hlater : ∀ l' ∈ later, q ≤ l'.body) :
    Innermost (later ++ loops) l p where
  mem := mem_append_right _ h.mem
  encloses := h.encloses
  innermost := forall_mem_append.mpr ⟨fun l' hl' henc =>
    absurd ((hlater l' hl').trans henc.1) (Nat.not_le.mpr hp), h.innermost⟩

theorem Innermost.append_earlier {earlier : List LoopSpan} {q : Nat}
    (h : Innermost loops l p) (hp : q ≤ p) (hear : ∀ l' ∈ earlier, l'.jump ≤ q) :
    Innermost (loops ++ earlier) l p where
  mem := mem_append_left _ h.mem
  encloses := h.encloses
  innermost := forall_mem_append.mpr ⟨h.innermost, fun l' hl' henc =>
    absurd (henc.2.trans_le (hear l' hl')) (Nat.not_lt.mpr hp)⟩

section

variable (h : Emitted v₀ f v)

include h

theorem Emitted.head_contexts_of_nil (hf : f.inner = [])
    (hctx : ctx ∈ v₀.contexts.head?) : ctx.record f.breaks f.continues ∈ v.contexts.head? := by
  rw [h.contexts, hf, nil_append, head?_modifyHead]
  exact Option.mem_map_of_mem _ hctx

theorem Emitted.exists_of_head_contexts (hf : f.inner = []) (hctx : ctx ∈ v.contexts.head?) :
    ∃ ctx₀ ∈ v₀.contexts.head?, ctx = ctx₀.record f.breaks f.continues := by
  rw [h.contexts, hf, nil_append, head?_modifyHead] at hctx
  obtain ⟨ctx₀, hctx₀, rfl⟩ := Option.mem_map.mp hctx
  exact ⟨ctx₀, hctx₀, rfl⟩

theorem Emitted.head_contexts_of_ne_nil (hf : f.inner ≠ []) : v.contexts.head? = f.inner.head? := by
  rw [h.contexts, head?_append_of_ne_nil _ hf]

section

variable (hg : Emitted (v.addPending n) g v')

include hg

/-- The breaks and continues of the later part are recorded in the loop the earlier one is inside, or
else in the loop around both. -/
theorem Emitted.contexts_seq (hinn : g.inner = []) :
    (v'.subPending n).contexts = (f.seq n c g).inner ++ v₀.contexts.modifyHead fun ctx =>
      ctx.record (f.seq n c g).breaks (f.seq n c g).continues := by
  have hctxs : (v'.subPending n).contexts =
      v.contexts.modifyHead fun ctx => ctx.record g.breaks g.continues := by
    have hctxs := hg.contexts
    rwa [hinn] at hctxs
  rw [hctxs, h.contexts]
  rcases hf : f.inner with _ | ⟨ctx, rest⟩
  · cases v₀.contexts <;> simp [Frag.seq, hf, LoopContext.record, Hole.raise]
  · simp [Frag.seq, hf]

/-- Outside of every loop neither part has a break or a continue left. -/
theorem Emitted.holes_seq_eq_nil (h₀ : v₀.contexts = []) : (f.seq n c g).holes = [] := by
  have hv := h.contexts
  rw [h₀, modifyHead_nil, append_nil] at hv
  rw [eq_nil_iff_forall_not_mem]
  intro x hx
  rcases Frag.mem_holes_seq.mp hx with hx | ⟨hf, y, hy, -⟩
  · rw [h.noLoop h₀] at hx
    exact not_mem_nil hx
  · have := hg.noLoop (hv.trans hf)
    rw [this] at hy
    exact not_mem_nil hy

theorem Emitted.continues_seq_eq_nil (hctx : ctx ∈ v₀.contexts.head?)
    (hin : ctx.inLoopStep = true) : (f.seq n c g).continues = [] := by
  have hf := h.noContinue ctx hctx hin
  by_cases hnil : f.inner = []
  · have hgc := hg.noContinue _ (h.head_contexts_of_nil hnil hctx) hin
    simp [Frag.seq, hf, hgc]
  · simp [Frag.seq, hf, hnil]

/-- The later part's jumps lie behind those of the earlier. -/
theorem Emitted.nodup_owed_seq : (f.seq n c g).owed.Nodup := by
  rw [Frag.owed_seq.nodup_iff, nodup_append]
  refine ⟨h.nodup, hg.nodup, fun p hp q hq heq => ?_⟩
  have := h.owed_lt hp
  have : v.stop ≤ q := hg.owed q hq
  omega

theorem Emitted.opensAt_seq (hx : x ∈ (f.seq n c g).opens) :
    At (v'.subPending n).code x.offset x.instr ∧ IsJump x.instr := by
  rcases Frag.mem_opens_seq.mp hx with hx | ⟨y, hy, rfl⟩ | ⟨-, y, hy, rfl⟩
  · exact ⟨hg.at_of_at (h.opensAt x hx).1, (h.opensAt x hx).2⟩
  · exact hg.opensAt y hy
  · exact ⟨hg.holesAt y hy, openJump_isJump⟩

/-- What waits in one part is in no loop of the other, as the loops end where their part does. -/
theorem Emitted.waiting_seq (hinn : g.inner = []) (hp : p ∈ (f.seq n c g).waiting k) :
    v₀.stop ≤ p ∧ p < (v'.subPending n).stop ∧ ∀ l ∈ (f.seq n c g).loops, ¬ l.Encloses p := by
  rcases (Frag.mem_waiting_seq hinn).mp hp with hp | hp
  · obtain ⟨h₁, h₂, h₃⟩ := h.waiting k p hp
    refine ⟨h₁, h₂.trans_le hg.stop_le, forall_mem_append.mpr ⟨fun l hl henc => ?_, h₃⟩⟩
    have : v.stop ≤ l.body := (hg.loopSpans l hl).1
    have := henc.1
    omega
  · obtain ⟨h₁, h₂, h₃⟩ := hg.waiting k p hp
    refine ⟨h.stop_le.trans h₁, h₂, forall_mem_append.mpr ⟨h₃, fun l hl henc => ?_⟩⟩
    have := (h.loopSpans l hl).2
    have := henc.2
    have : v.stop ≤ p := h₁
    omega

/-- A break or continue that has found its loop keeps it: the loops of the other part are elsewhere. -/
theorem Emitted.control_seq (hinn : g.inner = []) {m : NodeSpan} (hm : m ∈ (f.seq n c g).nodes)
    (hk : m.kind.IsLoopControl) : m.jumpOffset ∈ (f.seq n c g).waiting m.kind ∨
      ∃ l, Innermost (f.seq n c g).loops l m.jumpOffset ∧
        At (v'.subPending n).code m.jumpOffset ⟨.opJump, [l.target m.kind]⟩ ∧
          m.jumpOffset ∉ (v'.subPending n).opens := by
  rcases mem_append.mp hm with hm | hm
  · rcases hg.control m hm hk with hw | ⟨l, hl, hat, hopen⟩
    · exact .inl ((Frag.mem_waiting_seq hinn).mpr (.inr hw))
    · refine .inr ⟨l, hl.append_earlier ?_ fun l' hl' => (h.loopSpans l' hl').2, hat, hopen⟩
      have : v.stop ≤ l.body := (hg.loopSpans l hl.mem).1
      exact this.trans hl.encloses.1
  · rcases h.control m hm hk with hw | ⟨l, hl, hat, hopen⟩
    · exact .inl ((Frag.mem_waiting_seq hinn).mpr (.inl hw))
    · refine .inr ⟨l, hl.append_later hat.lt fun l' hl' => (hg.loopSpans l' hl').1,
        hg.at_of_at hat, fun hp => hopen (hg.le.opens _ hat.lt hp)⟩

/-- One fragment after another. -/
theorem Emitted.seq (hinn : g.inner = []) : Emitted v₀ (f.seq n c g) (v'.subPending n) where
  wf₀ := h.wf₀
  wf := { hg.wf with }
  outer := hg.outer.trans h.outer
  pending := by
    have := hg.pending
    have := h.pending
    simp only [subPending, addPending] at *
    omega
  contexts := h.contexts_seq hg hinn
  noLoop := h.holes_seq_eq_nil hg
  noContinue _ := h.continues_seq_eq_nil hg
  code := by
    obtain ⟨new, hnew⟩ := h.code
    obtain ⟨new', hnew'⟩ := hg.code
    exact ⟨new ++ new', by rw [← append_assoc, ← hnew]; exact hnew'⟩
  constants := by
    change v'.constants = _
    rw [hg.constants, Frag.seq, ← append_assoc, ← h.constants]
    rfl
  nodes := by
    change v'.nodes = _
    rw [hg.nodes, Frag.seq, append_assoc, ← h.nodes]
    rfl
  loops := by
    change v'.loops = _
    rw [hg.loops, Frag.seq, append_assoc, ← h.loops]
    rfl
  opens p := by
    rw [Frag.owed_seq.mem_iff, mem_append, ← or_assoc, ← h.opens]
    exact hg.opens p
  nodup := h.nodup_owed_seq hg
  owed p hp := by
    rcases mem_append.mp (Frag.owed_seq.mem_iff.mp hp) with hp | hp
    · exact h.owed p hp
    · exact h.stop_le.trans (hg.owed p hp)
  opensAt _ := h.opensAt_seq hg
  holesAt x hx := by
    rcases Frag.mem_holes_seq.mp hx with hx | ⟨-, y, hy, rfl⟩
    · exact hg.at_of_at (h.holesAt x hx)
    · exact hg.holesAt y hy
  marks m hm := hg.boundary (h.marks m hm)
  assumes := forall_mem_append.mpr ⟨fun m hm => (h.assumes m hm).trans hg.stop_le,
    forall_mem_map.mpr hg.assumes⟩
  resolved r hr := by
    obtain ⟨hat, hopen⟩ := h.resolved r hr
    exact ⟨hg.at_of_at hat, fun hp => hopen (hg.le.opens _ hat.lt hp)⟩
  spans := forall_mem_append.mpr ⟨fun m hm => h.stop_le.trans (hg.spans m hm), h.spans⟩
  loopSpans := forall_mem_append.mpr
    ⟨fun l hl => (hg.loopSpans l hl).imp_left h.stop_le.trans,
      fun l hl => (h.loopSpans l hl).imp_right (·.trans hg.stop_le)⟩
  waiting _ _ := h.waiting_seq hg hinn
  control _ := h.control_seq hg hinn
  functions fn hfn := (mem_append.mp hfn).elim (h.functions fn) (hg.functions fn)

end

end

/-- A fragment's loops expect the operands that were waiting when they were entered. -/
def Frag.EnteredAt (f : Frag) (pending : Nat) : Prop :=
  ∀ ctx ∈ f.inner.head?, ctx.pendingAtEntry = pending

/-- The operands of the later part wait above those of the earlier. -/
theorem Progress.affords (h : Progress v₀ f v) (hent : f.EnteredAt v.pending) (hn : (n : Int) ≤ c)
    {d₀ d : Nat} (haff : v₀.Affords d₀) (hd : (d : Int) = d₀ + c) : (v.addPending n).Affords d := by
  intro ctx hctx
  change v.pending + n ≤ _
  by_cases hf : f.inner = []
  · obtain ⟨ctx₀, hctx₀, rfl⟩ := h.exists_of_head_contexts hf hctx
    have := haff ctx₀ hctx₀
    rw [LoopContext.pendingAtEntry_record, h.pending]
    omega
  · have := hent ctx (h.head_contexts_of_ne_nil hf ▸ hctx)
    omega

section

variable {ground : Int} {D : Nat → Nat}

theorem Progress.admits_seq (hg : Progress (v.addPending n) g v')
    (hD : Admits v₀ (f.seq n c g).base (f.seq n c g).assumes (v'.subPending n) ground D) :
    Admits v₀ f.base f.assumes v ground D where
  base := hD.base
  depths := hg.le.depths hD.depths
  assumes m hm := hD.assumes m (mem_append_left _ hm)

/-- The later part stands `c` higher. -/
theorem Progress.admits_later (h : Progress v₀ f v) (hc : f.depth = some (c + g.base))
    (hg : Progress (v.addPending n) g v')
    (hD : Admits v₀ (f.seq n c g).base (f.seq n c g).assumes (v'.subPending n) ground D) :
    Admits (v.addPending n) g.base g.assumes v' (ground + c) D where
  base := by
    have := (h.known D ground (hg.admits_seq hD)).depth _ hc
    change (D v.stop : Int) = _
    omega
  depths := hD.depths
  assumes m hm := by
    have := hD.assumes (m.shift c) (mem_append_right _ (mem_map_of_mem hm))
    change (D m.offset : Int) = ground + (c + m.depth) at this
    omega

/-- The depth of a break of the later part. -/
theorem Progress.hole_seq (h : Progress v₀ f v) (hc : f.depth = some (c + g.base))
    (hent : f.EnteredAt v.pending) (hg : Progress (v.addPending n) g v')
    (hD : Admits v₀ (f.seq n c g).base (f.seq n c g).assumes (v'.subPending n) ground D)
    {x : Hole} (hx : x ∈ g.holes) :
    (f.inner ≠ [] → (D x.offset : Int) = ground + (c - n + x.excess)) ∧
    (f.inner = [] → ∀ ctx ∈ v₀.contexts.head?, (D x.offset : Int) =
      ground + ctx.pendingAtEntry - v₀.pending + (c - n + x.excess)) := by
  have hhs := (hg.known D _ (h.admits_later hc hg hD)).holes
  have hpend := h.pending
  constructor
  · intro hf
    obtain ⟨ctx, rest, hctx⟩ := exists_cons_of_ne_nil hf
    have hhead : ctx ∈ f.inner.head? := by simp [hctx]
    have := hhs ctx (h.head_contexts_of_ne_nil hf ▸ hhead) x hx
    have hpe := hent ctx hhead
    change (D x.offset : Int) = ground + c + ctx.pendingAtEntry - ((v.pending + n : Nat) : Int) + _
      at this
    omega
  -- the loop is around both parts, and sees the operands of the first below
  · intro hf ctx hctx
    have := hhs _ (h.head_contexts_of_nil hf hctx) x hx
    change (D x.offset : Int) = ground + c + ctx.pendingAtEntry - ((v.pending + n : Nat) : Int) + _
      at this
    omega

end

/-- A part of the code after another. -/
theorem Progress.seq (h : Progress v₀ f v) (hc : f.depth = some (c + g.base)) (hn : (n : Int) ≤ c)
    (hent : f.EnteredAt v.pending) (hg : Progress (v.addPending n) g v') (hinn : g.inner = []) :
    Progress v₀ (f.seq n c g) (v'.subPending n) where
  toEmitted := h.toEmitted.seq hg.toEmitted hinn
  known D ground hD := by
    have hkf := h.known D ground (hg.admits_seq hD)
    have hkg := hg.known D _ (h.admits_later hc hg hD)
    refine ⟨hD.base, ?_, ?_, hkf.marks, ?_, ?_⟩
    · intro d hd
      obtain ⟨d', hd', rfl⟩ := Option.mem_map.mp hd
      have := hkg.depth d' hd'
      change (D v'.stop : Int) = _
      omega
    · intro x hx
      rcases Frag.mem_opens_seq.mp hx with hx | ⟨y, hy, rfl⟩ | ⟨hf, y, hy, rfl⟩
      · exact hkf.opens x hx
      · have := hkg.opens y hy
        change (D y.offset : Int) = ground + (c + y.depth)
        omega
      · exact (h.hole_seq hc hent hg hD hy).1 hf
    · intro ctx hctx x hx
      rcases Frag.mem_holes_seq.mp hx with hx | ⟨hf, y, hy, rfl⟩
      · exact hkf.holes ctx hctx x hx
      · have := (h.hole_seq hc hent hg hD hy).2 hf ctx hctx
        change (D y.offset : Int) = _ + (((c - n).toNat + y.excess : Nat) : Int)
        omega
    · exact forall_mem_append.mpr ⟨hkg.loops, hkf.loops⟩
  good := by
    rintro ⟨D, ground, hD⟩ hfn hbad
    obtain ⟨hf, hg'⟩ := Frag.functionsGood_seq.mp hfn
    rcases hbad with hbad | hbad
    · exact h.good ⟨D, ground, hg.admits_seq hD⟩ hf hbad
    · exact hg.good ⟨D, _, h.admits_later hc hg hD⟩ hg' hbad
  functionsGood hbad := by
    obtain ⟨hf, hg'⟩ := not_or.mp hbad
    exact Frag.functionsGood_seq.mpr ⟨h.functionsGood hf, hg.functionsGood hg'⟩
  extend hbad D₀ ground hD₀ hbase haff d hd := by
    obtain ⟨hbf, hbg⟩ := not_or.mp hbad
    obtain ⟨D₁, hagr₁, hD₁, hstop₁⟩ :=
      h.extend hbf D₀ ground hD₀ hbase haff (ground + c + g.base).toNat (by
        intro c' hc'
        rw [hc, Option.mem_some_iff] at hc'
        omega)
    -- the later part's map continues the earlier's from the depth it reached
    obtain ⟨D₂, hagr₂, hD₂, hstop₂⟩ := hg.extend hbg D₁ (ground + c).toNat hD₁.depths
      (by change D₁ v.stop = _; omega) (h.affords hent hn haff (by omega)) d (by
        intro c' hc'
        have := hd (c + c') (Option.mem_map_of_mem _ hc')
        omega)
    have hle := h.stop_le
    have hagr : ∀ p ≤ v.stop, D₂ p = D₁ p := hagr₂
    refine ⟨D₂, ?_, ⟨?_, hD₂.depths, ?_⟩, hstop₂⟩
    · intro p hp
      rw [hagr p (hp.trans hle), hagr₁ p hp]
    · rw [hagr _ hle]
      exact hD₁.base
    · refine forall_mem_append.mpr ⟨fun m hm => ?_, forall_mem_map.mpr fun m hm => ?_⟩
      · rw [hagr _ (h.assumes m hm)]
        exact hD₁.assumes m hm
      · have := hD₂.assumes m hm
        change (D₂ m.offset : Int) = ground + (c + m.depth)
        omega

end

/-! ### Loops -/

section

variable {v₀ v : View} {f : Frag}

/-- The loop entered with `pending` operands waiting. -/
def enteredLoop (pending : Nat) : LoopContext := { pendingAtEntry := pending }

/-- Other notes of the loops that are entered, but the same breaks and continues. -/
theorem Progress.setInner (h : Progress v₀ f v) {inner contexts : List LoopContext}
    (hwaiting : ∀ k, { f with inner := inner }.waiting k = f.waiting k)
    (hctxs : contexts =
      inner ++ v₀.contexts.modifyHead fun ctx => ctx.record f.breaks f.continues) :
    Progress v₀ { f with inner := inner } { v with contexts := contexts } :=
  h.refit { h.toEmitted with
    wf := { h.wf with }
    contexts := hctxs
    waiting := fun k => (hwaiting k).symm ▸ h.waiting k
    control := fun n hn hk => (hwaiting n.kind).symm ▸ h.control n hn hk }
    rfl rfl ⟨rfl, rfl, rfl, rfl, rfl⟩ fun _ _ hk => { hk with }

/-- A loop entered. -/
theorem Progress.enterLoop (h : Progress v₀ f v) :
    Progress v₀ { f with inner := enteredLoop v.pending :: f.inner }
      { v with contexts := enteredLoop v.pending :: v.contexts } :=
  h.setInner (fun k => by cases k <;> rfl) (by rw [h.contexts, cons_append])

/-- The innermost loop's own notes changed, but not its breaks and continues. -/
theorem Progress.setLoop (h : Progress v₀ f v) {rest : List LoopContext}
    (hinn : f.inner = ctx :: rest) (b : Bool) :
    Progress v₀ { f with inner := { ctx with inLoopStep := b } :: rest }
      { v with contexts := v.contexts.modifyHead fun ctx => { ctx with inLoopStep := b } } :=
  h.setInner (fun k => by cases k <;> simp [Frag.waiting, hinn]) (by rw [h.contexts, hinn]; rfl)

/-- Two loops of which the first ends before the second's body, or lies inside it. -/
def LoopSpan.Nests (l outer : LoopSpan) : Prop :=
  l.jump ≤ outer.body ∨ (outer.body ≤ l.body ∧ l.jump ≤ outer.jump)

/-- The innermost loop left: its breaks and continues have their targets. -/
structure Closes (v₀ : View) (f : Frag) (v : View) (ctx : LoopContext) (l : LoopSpan) : Prop where
  inner : f.inner = [ctx]
  body : v₀.stop ≤ l.body
  jump : l.jump ≤ v.stop
  outside : ∀ h ∈ f.holes, ¬ l.Encloses h.offset
  inside : ∀ p ∈ ctx.breakPositions ++ ctx.continuePositions, l.Encloses p
  nests : ∀ l' ∈ f.loops, l'.Nests l
  breaks : ∀ p ∈ ctx.breakPositions, (p, ⟨.opJump, [l.stop]⟩) ∈ f.resolved
  continues : ∀ p ∈ ctx.continuePositions, (p, ⟨.opJump, [l.resume]⟩) ∈ f.resolved
  marks : ∃ a : Int, ⟨l.start, a⟩ ∈ f.marks ∧ ⟨l.resume, a + l.cursor.toNat⟩ ∈ f.marks ∧
    ⟨l.stop, a + l.cursor.toNat⟩ ∈ f.marks

theorem Innermost.cons {outer : LoopSpan}
    (h : Innermost loops l p) (hnests : l.Nests outer) : Innermost (outer :: loops) l p where
  mem := mem_cons_of_mem _ h.mem
  encloses := h.encloses
  innermost := by
    refine forall_mem_cons.mpr ⟨fun henc => hnests.resolve_left fun hbef => ?_, h.innermost⟩
    exact absurd (h.encloses.2.trans_le (hbef.trans henc.1)) (Nat.lt_irrefl p)

theorem Innermost.self (h : l.Encloses p)
    (hnone : ∀ l' ∈ loops, ¬ l'.Encloses p) : Innermost (l :: loops) l p where
  mem := mem_cons_self
  encloses := h
  innermost := forall_mem_cons.mpr ⟨fun _ => ⟨Nat.le_refl _, Nat.le_refl _⟩,
    fun l' hl' henc => absurd henc (hnone l' hl')⟩

/-- What waits after the innermost loop is left waited before, outside that loop. -/
theorem Closes.waiting (hl : Closes v₀ f v ctx l) (hp : p ∈ { f with inner := [] }.waiting k) :
    p ∈ f.waiting k ∧ ¬ l.Encloses p := by
  have hw : p ∈ f.waiting k ∧ p ∈ f.holes.map Hole.offset := by
    cases k <;> simp only [Frag.waiting, Frag.holes, map_append, mem_append] at hp ⊢ <;> tauto
  obtain ⟨x, hx, rfl⟩ := mem_map.mp hw.2
  exact ⟨hw.1, hl.outside x hx⟩

/-- What waited before the innermost loop is left waits on, or was this loop's and has its target. -/
theorem Closes.control (hl : Closes v₀ f v ctx l) (hk : k.IsLoopControl) (hp : p ∈ f.waiting k) :
    p ∈ { f with inner := [] }.waiting k ∨
      (p, ⟨.opJump, [l.target k]⟩) ∈ f.resolved ∧ l.Encloses p := by
  rcases hk with rfl | rfl <;>
    simp only [Frag.waiting, hl.inner, flatMap_cons, flatMap_nil, append_nil,
      mem_append] at hp ⊢ <;>
    refine hp.imp_right fun hp => ?_
  · exact ⟨hl.breaks _ hp, hl.inside _ (mem_append_left _ hp)⟩
  · exact ⟨hl.continues _ hp, hl.inside _ (mem_append_right _ hp)⟩

/-- A loop ends: its breaks and continues have been patched, and its span is recorded. -/
theorem Progress.closeLoop (h : Progress v₀ f v) (hl : Closes v₀ f v ctx l) :
    Progress v₀ { f with inner := [], loops := l :: f.loops }
      { v with contexts := v.contexts.tail, loops := l :: v.loops } := by
  refine h.refit { h.toEmitted with
    wf := { h.wf with }
    contexts := by rw [h.contexts, hl.inner]; rfl
    loops := by rw [h.loops, cons_append]
    loopSpans := forall_mem_cons.mpr ⟨⟨hl.body, hl.jump⟩, h.loopSpans⟩
    waiting := fun k p hp => ?_
    control := fun n hn hk => ?_ }
    rfl rfl ⟨rfl, rfl, rfl, rfl, rfl⟩ fun D ground hk =>
      { hk with loops := forall_mem_cons.mpr ⟨?_, hk.loops⟩ }
  · obtain ⟨hp, hout⟩ := hl.waiting hp
    obtain ⟨h₁, h₂, h₃⟩ := h.waiting k p hp
    exact ⟨h₁, h₂, forall_mem_cons.mpr ⟨hout, h₃⟩⟩
  · rcases h.control n hn hk with hw | ⟨l', hl', hat, hopen⟩
    -- what was waiting for this loop has found it
    · refine (hl.control hk hw).imp_right fun ⟨hres, henc⟩ => ?_
      obtain ⟨hat, hopen⟩ := h.resolved _ hres
      exact ⟨l, .self henc (h.waiting _ _ hw).2.2, hat, hopen⟩
    · exact .inr ⟨l', hl'.cons (hl.nests l' hl'.mem), hat, hopen⟩
  · obtain ⟨a, h₁, h₂, h₃⟩ := hl.marks
    have h₁ := hk.marks _ h₁
    have h₂ := hk.marks _ h₂
    have h₃ := hk.marks _ h₃
    simp only [LoopSpan.landing] at *
    omega

end

end Mutant.Compiler
