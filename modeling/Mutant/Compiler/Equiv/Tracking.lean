import Mutant.Compiler.Equiv.Running
/-!
# Tracking a construct's code

`Tracks v₀ opens depth flow v` says that the code between `v₀` and `v` is accounted for, with the
jumps `opens` still open, the depth `depth` reached, and the loop control `flow`.
`Leaves m δ flow` says that the code of `m` is closed and leaves `δ` values.

Each rule below turns what a step of the compiler did into a step of `Tracks`; the constructs'
proofs are chains of these.

* `Tracks.land`, `Tracks.landAll`: jumps that are patched to the end of the stream;
* `Moves`, `Moves.bind`: code that goes from one depth to another, and how it composes.
-/

namespace Mutant.Compiler

open List Mutant.Code Mutant.Ast

variable {D : Nat → Nat} {a b : Nat} {post opens' : List OpenJump} {x : OpenJump}
  {flow' : LoopFlow} {assumes' : List Mark}

/-! ### Loop control -/

/-- The breaks and continues of a fragment are those its syntax says. -/
structure Frag.HasFlow (f : Frag) (flow : LoopFlow) : Prop where
  bad : f.bad ↔ flow.undisciplined = true
  control : f.holes ≠ [] ↔ flow.control = true
  leaks : (∃ h ∈ f.holes, 0 < h.excess) ↔ flow.leaks = true

/-- The flow of a part compiled over operands that are not all counted as waiting. -/
def LoopFlow.over (flow : LoopFlow) (n : Nat) (c : Int) : LoopFlow :=
  if c = n then flow else flow.folded

@[simp] theorem LoopFlow.over_self (flow : LoopFlow) (n : Nat) : flow.over n n = flow := if_pos rfl

@[simp] theorem LoopFlow.empty_join (flow : LoopFlow) : LoopFlow.join {} flow = flow := by
  simp [join]

@[simp] theorem LoopFlow.join_empty (flow : LoopFlow) : flow.join {} = flow := by simp [join]

theorem LoopFlow.join_assoc (a b c : LoopFlow) : (a.join b).join c = a.join (b.join c) := by
  simp [join, Bool.or_assoc]

/-- The loop control of two pieces of code in a row. -/
theorem Frag.HasFlow.seq {f g : Frag} {a b : LoopFlow} {n : Nat} {c : Int} (hf : f.HasFlow a)
    (hg : g.HasFlow b) (hinn : f.inner = []) (hn : (n : Int) ≤ c) :
    (f.seq n c g).HasFlow (a.join (b.over n c)) := by
  have hbad : (b.over n c).undisciplined = b.undisciplined := by unfold LoopFlow.over; split_ifs <;> rfl
  have hctl : (b.over n c).control = b.control := by unfold LoopFlow.over; split_ifs <;> rfl
  refine ⟨?_, ?_, ?_⟩
  · simp only [LoopFlow.join, hbad, Bool.or_eq_true, ← hf.bad, ← hg.bad]
    rfl
  · simp only [LoopFlow.join, hctl, Bool.or_eq_true, ← hf.control, ← hg.control, Frag.holes,
      Frag.seq, hinn, if_true, ne_eq, append_eq_nil_iff, map_eq_nil_iff]
    tauto
  -- operands that wait below the second piece make every jump out of it leak
  · have hraised : (∃ x ∈ g.holes, 0 < (x.raise (c - n).toNat).excess) ↔ (b.over n c).leaks = true := by
      unfold LoopFlow.over
      split_ifs with heq
      · simp [heq, Hole.raise, ← hg.leaks]
      · have hpos : 0 < (c - n).toNat := by omega
        simp only [Hole.raise, LoopFlow.folded, Bool.or_eq_true, ← hg.leaks, ← hg.control, ne_eq,
          eq_nil_iff_forall_not_mem, not_forall, not_not]
        constructor
        · rintro ⟨x, hx, -⟩
          exact .inr ⟨x, hx⟩
        · rintro (⟨x, hx, -⟩ | ⟨x, hx⟩) <;> exact ⟨x, hx, by omega⟩
    simp only [LoopFlow.join, Bool.or_eq_true, ← hf.leaks, ← hraised, Frag.mem_holes_seq, hinn,
      true_and]
    constructor
    · rintro ⟨x, hx | ⟨y, hy, rfl⟩, hpos⟩
      · exact .inl ⟨x, hx, hpos⟩
      · exact .inr ⟨y, hy, hpos⟩
    · rintro (⟨x, hx, hpos⟩ | ⟨y, hy, hpos⟩)
      · exact ⟨x, .inl hx, hpos⟩
      · exact ⟨_, .inr ⟨y, hy, rfl⟩, hpos⟩

/-! ### Tracking -/

/-- The shape of a fragment that is inside no loop of its own. -/
structure Tracked (f : Frag) (base : Nat) (opens : List OpenJump) (depth : Option Int)
    (flow : LoopFlow) (assumes : List Mark) : Prop where
  base : f.base = base
  opens : f.opens = opens
  inner : f.inner = []
  assumes : f.assumes = assumes
  depth : f.depth = depth
  flow : f.HasFlow flow

/-- The code between `v₀` and `v` is accounted for: from `base` values on the stack it reaches
`depth`, and leaves `opens` open. -/
def Tracks (v₀ : View) (base : Nat) (opens : List OpenJump) (depth : Option Int) (flow : LoopFlow)
    (v : View) (assumes : List Mark := []) : Prop :=
  ∃ f, Progress v₀ f v ∧ Tracked f base opens depth flow assumes

/-- Successful runs of `m` emit closed code that leaves `δ` values. -/
def Leaves (m : CompileM Unit) (δ : Int) (flow : LoopFlow) : Prop :=
  ∀ s s', m s = .ok () s' → s.view.Wf → Tracks s.view 0 [] (some δ) flow s'.view

/-- One instruction emitted that takes `a` operands, leaves `b` and does not jump. -/
def Emits (a b : Nat) (v v' : View) : Prop :=
  ∃ i : Instr, i.Fits ∧ i.pops = a ∧ i.falls = some b ∧ i.target? = none ∧ v' = v.put i false

namespace Tracks

variable {v₀ v v' : View} {base : Nat} {opens : List OpenJump} {depth : Option Int}
  {flow : LoopFlow} {c : Int}
  {assumes : List Mark}

theorem start (hv : v.Wf) (base : Nat) : Tracks v base [] (some base) {} v :=
  ⟨_, .start hv base, rfl, rfl, rfl, rfl, rfl, by simp, by simp [Frag.holes], by simp [Frag.holes]⟩

theorem wf (h : Tracks v₀ base opens depth flow v assumes) : v.Wf := by
  obtain ⟨f, hf, -⟩ := h
  exact hf.wf

/-- A depth map of the later stream is one of the earlier. -/
theorem depths (h : Tracks v₀ base opens depth flow v assumes) (hD : v.Depths D) : v₀.Depths D := by
  obtain ⟨f, hf, -⟩ := h
  exact hf.le.depths hD

/-- Every depth map of the stream agrees with the depth reached. -/
theorem depth_eq (h : Tracks v₀ base opens (some c) flow v) {g : Int}
    (hgnd : (D v₀.stop : Int) = g + base) (hD : v.Depths D) : (D v.stop : Int) = g + c := by
  obtain ⟨f, hf, ht⟩ := h
  exact (hf.known D g ⟨by rw [ht.base, hgnd], hD, by simp [ht.assumes]⟩).depth c ht.depth

section

variable (h : Tracks v₀ base opens (some c) flow v assumes)

include h

/-- An instruction that does not jump. -/
theorem put {i : Instr} (hfits : i.Fits) (htgt : i.target? = none) (hpops : (i.pops : Int) ≤ c) :
    Tracks v₀ base opens (i.falls.map fun n : Nat => c - i.pops + n) flow (v.put i false) assumes := by
  obtain ⟨f, hf, ht⟩ := h
  refine ⟨_, hf.put ht.depth hfits (by simp) (fun d _ => by omega) (by simp [htgt]), ?_⟩
  exact { ht with opens := ht.opens, depth := rfl, flow := { ht.flow with } }

theorem emits (he : Emits a b v v')
    (ha : (a : Int) ≤ c) : Tracks v₀ base opens (some (c - a + b)) flow v' assumes := by
  obtain ⟨i, hfits, rfl, hfalls, htgt, rfl⟩ := he
  have := h.put hfits htgt ha
  rwa [hfalls] at this

/-- A jump left open. -/
theorem leaveOpen {i : Instr} (hfits : i.Fits) (hjump : IsJump i) (hpops : (i.pops : Int) ≤ c) :
    Tracks v₀ base (⟨v.stop, i, c⟩ :: opens) (i.falls.map fun n : Nat => c - i.pops + n) flow
      (v.put i true) assumes := by
  obtain ⟨f, hf, ht⟩ := h
  refine ⟨_, hf.put ht.depth hfits (fun _ => hjump) (fun d _ => by omega) (by simp), ?_⟩
  exact { ht with
    opens := congrArg (_ :: ·) ht.opens
    depth := rfl
    flow := { ht.flow with } }

end

/-- An open jump given the current end as its target. -/
theorem patchEnd {pre : List OpenJump}
    (h : Tracks v₀ base (pre ++ x :: post) depth flow v assumes) (hfits : v.stop ≤ maxOperand 2)
    (hdep : ∀ c ∈ depth, c = x.landing) :
    Tracks v₀ base (pre ++ post) (some x.landing) flow (v.patch x.offset v.stop) assumes := by
  obtain ⟨f, hf, ht⟩ := h
  have hx : x ∈ f.opens := by simp [ht.opens]
  refine ⟨_, hf.patchEnd hx hfits (ht.depth ▸ hdep), ?_⟩
  exact { ht with
    opens := Frag.opens_patch hf.nodup ht.opens v.stop
    depth := rfl
    flow := { ht.flow with } }

variable {δ : Option Int}

/-- Code after code, with `n` of the `c` operands on the stack counted as waiting. -/
theorem seq {n : Nat} (h : Tracks v₀ base opens (some c) flow v assumes)
    (hn : (n : Int) ≤ c) (hg : Tracks (v.addPending n) 0 [] δ flow' v') :
    Tracks v₀ base opens (δ.map fun d : Int => c + d) (flow.join (flow'.over n c))
      (v'.subPending n) assumes := by
  obtain ⟨f, hf, ht⟩ := h
  obtain ⟨g, hg, ht'⟩ := hg
  refine ⟨f.seq n c g, hf.seq (by simp [ht.depth, ht'.base]) hn
    (by simp [Frag.EnteredAt, ht.inner]) hg ht'.inner, ?_⟩
  exact
  { base := ht.base
    opens := by simp [Frag.seq, ht.opens, ht'.opens, ht.inner]
    inner := by simp [Frag.seq, ht.inner]
    assumes := by simp [Frag.seq, ht.assumes, ht'.assumes]
    depth := congrArg (Option.map fun d : Int => c + d) ht'.depth
    flow := ht.flow.seq ht'.flow ht.inner hn }

/-- Code after code that starts from the values the first has left.  A loop can jump to where the
first starts and to where the second does. -/
theorem append_marks (h : Tracks v₀ base opens (some b) flow v assumes)
    (hg : Tracks v b opens' δ flow' v' assumes') :
    ∃ f, Progress v₀ f v' ∧
      Tracked f base (opens ++ opens') δ (flow.join flow') (assumes ++ assumes') ∧
      ⟨v₀.stop, base⟩ ∈ f.marks ∧ ⟨v.stop, b⟩ ∈ f.marks := by
  obtain ⟨f, hf, ht⟩ := h
  obtain ⟨g, hg, ht'⟩ := hg
  have hshift : OpenJump.shift 0 = id := by funext x; simp [OpenJump.shift]
  have hshift' : Mark.shift 0 = id := by funext m; simp [Mark.shift]
  -- the meeting point is marked, so that later jumps can be compared with it
  have hseq := (hf.mark ht.depth).markStart.seq (c := 0) (n := 0)
    (by simp [Frag.mark, ht.depth, ht'.base]) (Int.le_refl 0)
    (by simp [Frag.EnteredAt, Frag.mark, ht.inner]) hg ht'.inner
  refine ⟨_, hseq, ?_, by simp [Frag.seq, Frag.mark, ht.base], by simp [Frag.seq, Frag.mark]⟩
  have hflow := Frag.HasFlow.seq (n := 0) ht.flow ht'.flow ht.inner (Int.le_refl 0)
  exact
  { base := ht.base
    opens := by simp [Frag.seq, Frag.mark, ht.opens, ht'.opens, ht.inner, hshift]
    inner := by simp [Frag.seq, Frag.mark, ht.inner]
    assumes := by simp [Frag.seq, Frag.mark, ht.assumes, ht'.assumes, hshift']
    depth := by simp [Frag.seq, ht'.depth]
    flow := { hflow with } }

theorem append (h : Tracks v₀ base opens (some b) flow v assumes)
    (hg : Tracks v b opens' δ flow' v' assumes') :
    Tracks v₀ base (opens ++ opens') δ (flow.join flow') v' (assumes ++ assumes') := by
  obtain ⟨f, hf, ht, -⟩ := h.append_marks hg
  exact ⟨f, hf, ht⟩

theorem addConstant (h : Tracks v₀ base opens depth flow v assumes) {k : Constant}
    (hk : ∀ fn, k ≠ .function fn) :
    Tracks v₀ base opens depth flow { v with constants := v.constants ++ [k] } assumes := by
  obtain ⟨f, hf, ht⟩ := h
  have hgood : k.Good := fun fn hfn => absurd hfn (hk fn)
  refine ⟨_, hf.addConstant fun fn hfn => absurd hfn (hk fn), ?_⟩
  exact { ht with flow := { ht.flow with bad := by simp [Frag.addConstant, hgood, ht.flow.bad] } }

/-- The end of a node that is neither a break nor a continue. -/
theorem log (h : Tracks v₀ 0 opens depth flow v assumes) {kind : NodeKind} (hkind : ¬ kind.IsLoopControl)
    (hdep : ∀ c ∈ depth, c = kind.leaves) :
    Tracks v₀ 0 opens (some kind.leaves) flow (v.log ⟨kind, v₀.stop, v.stop⟩) assumes := by
  obtain ⟨f, hf, ht⟩ := h
  have hlog := hf.markStart.log (n := ⟨kind, v₀.stop, v.stop⟩) mem_cons_self (Nat.le_refl _) rfl
    (by simpa [ht.depth, ht.base] using hdep) fun hk => absurd hk hkind
  exact ⟨_, hlog, { ht with depth := by simp [Frag.log, ht.base], flow := { ht.flow with } }⟩

end Tracks

/-! ### Actions -/

/-- An action that emits one instruction, taking `a` operands and leaving `b`. -/
def EmitsOne (m : CompileM Unit) (a b : Nat) : Prop :=
  ∀ s s', m s = .ok () s' → Emits a b s.view s'.view

theorem EmitsOne.emit {op : Opcode} {ops : List Nat}
    (ha : Instr.pops ⟨op, ops⟩ = a) (hb : Instr.falls ⟨op, ops⟩ = some b)
    (ht : Instr.target? ⟨op, ops⟩ = none) : EmitsOne (discard (emit op ops)) a b := by
  intro s s' h
  obtain ⟨p, h⟩ := discard_ok.mp h
  obtain ⟨hfits, -, rfl⟩ := emit_ok.mp h
  exact ⟨_, hfits, ha, hb, ht, rfl⟩

theorem EmitsOne.fail {e : CompileError} : EmitsOne (fail e) a b := fun _ _ h =>
  (fail_ok.mp h).elim

theorem EmitsOne.bind {α : Type} {m : CompileM α} {k : α → CompileM Unit} (hm : Quiet m)
    (hk : ∀ x, EmitsOne (k x) a b) : EmitsOne (m >>= k) a b := by
  intro s s' h
  obtain ⟨x, s₁, h₁, h₂⟩ := bind_ok.mp h
  exact hm s x s₁ h₁ ▸ hk x s₁ s' h₂

theorem EmitsOne.ite {c : Prop} [Decidable c] {m m' : CompileM Unit}
    (hm : EmitsOne m a b) (hm' : EmitsOne m' a b) : EmitsOne (if c then m else m') a b := by
  split_ifs
  · exact hm
  · exact hm'

/-- A load is one instruction, whatever the scope. -/
theorem loadSymbol_emits (sym : Symbol) : EmitsOne (loadSymbol sym) 0 1 := by
  unfold loadSymbol
  cases sym.scope
  · exact .emit rfl rfl rfl
  · exact .emit rfl rfl rfl
  · exact .bind quiet_withTable fun _ => .emit rfl rfl rfl
  · exact .emit rfl rfl rfl
  · exact .emit rfl rfl rfl

theorem emitCapture_emits (sym : Symbol) : EmitsOne (emitCapture sym) 0 1 := by
  unfold emitCapture
  cases sym.scope
  · exact loadSymbol_emits sym
  · exact .emit rfl rfl rfl
  · exact loadSymbol_emits sym
  · exact .emit rfl rfl rfl
  · exact .emit rfl rfl rfl

/-- So is a store. -/
theorem emitStoreOnly_emits (sym : Symbol) : EmitsOne (emitStoreOnly sym) 1 0 := by
  unfold emitStoreOnly
  cases sym.scope
  · exact .emit rfl rfl rfl
  · exact .emit rfl rfl rfl
  · exact .fail
  · exact .bind .get fun _ => .ite (.bind (.fail _) fun _ => .emit rfl rfl rfl) (.emit rfl rfl rfl)
  · exact .fail

theorem emitBindingStore_emits (sym : Symbol) : EmitsOne (emitBindingStore sym) 1 0 :=
  .ite (.emit rfl rfl rfl) (.emit rfl rfl rfl)

/-! ### Jumps -/

/-- The conditional jump of a test, not yet given its target. -/
def openJumpFalse : Instr := ⟨.opJumpFalse, [placeholderTarget]⟩

section

variable {v₀ : View} {base : Nat} {opens : List OpenJump} {depth : Option Int}
  {flow : LoopFlow} {c : Int} {s s' : CompilerState} {p : Nat} {assumes : List Mark}

/-- A conditional jump forward. -/
theorem Tracks.jumpFalse (h : Tracks v₀ base opens (some c) flow s.view assumes) (hc : 1 ≤ c)
    (hrun : emitPlaceholder .opJumpFalse [] s = .ok p s') :
    Tracks v₀ base (⟨p, openJumpFalse, c⟩ :: opens) (some (c - 1)) flow s'.view assumes := by
  obtain ⟨hfits, rfl, hs'⟩ := emitPlaceholder_ok hrun
  have := h.leaveOpen hfits (by simp [IsJump]) hc
  rw [← hs'] at this
  simpa [openJumpFalse, Instr.falls, Instr.pops] using this

/-- A jump forward. -/
theorem Tracks.jump (h : Tracks v₀ base opens (some c) flow s.view assumes) (hc : 0 ≤ c)
    (hrun : emitPlaceholder .opJump [] s = .ok p s') :
    Tracks v₀ base (⟨p, openJump, c⟩ :: opens) none flow s'.view assumes := by
  obtain ⟨hfits, rfl, hs'⟩ := emitPlaceholder_ok hrun
  have := h.leaveOpen hfits (by simp [IsJump]) hc
  rw [← hs'] at this
  exact this

/-- A jump given the current end as its target.  The stream does not grow. -/
theorem Tracks.land (pre : List OpenJump)
    (h : Tracks v₀ base (pre ++ x :: post) depth flow s.view assumes) {u : Unit}
    (hrun : changeOperand x.offset s.view.stop s = .ok u s') (c : Int) (hc : x.landing = c)
    (hdep : ∀ d ∈ depth, d = c) :
    Tracks v₀ base (pre ++ post) (some c) flow s'.view assumes ∧ s'.view.stop = s.view.stop := by
  obtain ⟨hfits, hs'⟩ := changeOperand_ok hrun
  rw [hs', View.patch_stop, ← hc]
  exact ⟨h.patchEnd hfits (hc ▸ hdep), rfl⟩

/-- The two ends of a jump that has been given its target stand at the depths they should. -/
theorem Tracks.land_depths {opens : List OpenJump} (hx : x ∈ opens)
    (h : Tracks v₀ base opens depth flow s.view assumes) {u : Unit} {t : Nat}
    (hrun : changeOperand x.offset t s = .ok u s') (hD : s'.view.Depths D) :
    s.view.Depths D ∧ D t + x.instr.pops = D x.offset + x.instr.lands := by
  obtain ⟨f, hf, ht⟩ := h
  rw [← ht.opens] at hx
  obtain ⟨hat, hjump⟩ := hf.opensAt x hx
  rw [(changeOperand_ok hrun).2] at hD
  exact ⟨(View.le_patch hat hjump ((hf.opens _).mpr (.inr (Frag.mem_owed_of_opens hx)))).depths hD,
    hD.target hat hjump⟩

/-- Jumps from depth `c`, given the current end as their target. -/
theorem Tracks.landAll {ps : List Nat} {pre xs : List OpenJump}
    (hxs : xs.Perm (ps.map fun p => ⟨p, openJump, c⟩))
    (h : Tracks v₀ base (pre ++ xs ++ post) (some c) flow s.view assumes) {u : Unit}
    (hrun : changeOperands ps s.view.stop s = .ok u s') :
    Tracks v₀ base (pre ++ post) (some c) flow s'.view assumes ∧ s'.view.stop = s.view.stop := by
  induction ps generalizing xs s with
  | nil =>
    obtain ⟨-, rfl⟩ := pure_ok.mp hrun
    rw [map_nil, perm_nil] at hxs
    simpa [hxs] using h
  | cons p ps ih =>
    obtain ⟨_, s₁, h₁, hrun⟩ := bind_ok.mp hrun
    -- the jumps are patched in the order they were recorded, whatever order they are tracked in
    obtain ⟨a, b, rfl⟩ := append_of_mem (hxs.mem_iff.mpr mem_cons_self)
    rw [show pre ++ (a ++ ⟨p, openJump, c⟩ :: b) ++ post =
      (pre ++ a) ++ ⟨p, openJump, c⟩ :: (b ++ post) by simp] at h
    obtain ⟨t, hstop⟩ := h.land (pre ++ a) h₁ c (by simp [OpenJump.landing, openJump, Instr.pops,
      Instr.lands]) (by simp)
    have hab : (a ++ b).Perm (ps.map fun p => ⟨p, openJump, c⟩) :=
      (perm_middle.symm.trans hxs).cons_inv
    obtain ⟨t, hstop'⟩ := ih hab (by simpa using t) (hstop ▸ hrun)
    exact ⟨t, hstop'.trans hstop⟩

end

/-! ### Straight-line code -/

/-- Run where `c` values are on the stack, `m` emits closed code that takes the depth to `c'`. -/
structure Moves {α : Type} (m : CompileM α) (c c' : Int) (flow : LoopFlow) : Prop where
  run : ∀ {v₀ : View} {base : Nat} {opens : List OpenJump} {flow₀ : LoopFlow}
    {assumes : List Mark} {s : CompilerState} {a : α} {s' : CompilerState},
    Tracks v₀ base opens (some c) flow₀ s.view assumes → m s = .ok a s' →
    Tracks v₀ base opens (some c') (flow₀.join flow) s'.view assumes

section

variable {α β : Type} {c c' c'' : Int} {flow flow' : LoopFlow}

theorem Moves.leaves {m : CompileM Unit} (h : Moves m 0 c flow) : Leaves m c flow := by
  intro s s' hrun hv
  simpa using h.run (Tracks.start hv 0) hrun

variable {m : CompileM α} {k : α → CompileM β}

theorem Moves.bind (hm : Moves m c c' flow)
    (hk : ∀ a, Moves (k a) c' c'' flow') : Moves (m >>= k) c c'' (flow.join flow') := by
  refine ⟨fun {v₀ base opens flow₀ assumes s b s'} ht h => ?_⟩
  obtain ⟨a, s₁, h₁, h₂⟩ := bind_ok.mp h
  rw [← LoopFlow.join_assoc]
  exact (hk a).run (hm.run ht h₁) h₂

/-- After code that holds no loop control. -/
theorem Moves.after (hm : Moves m c c' {})
    (hk : ∀ a, Moves (k a) c' c'' flow) : Moves (m >>= k) c c'' flow := by
  simpa using hm.bind hk

/-- Before code that holds no loop control. -/
theorem Moves.before (hm : Moves m c c' flow)
    (hk : ∀ a, Moves (k a) c' c'' {}) : Moves (m >>= k) c c'' flow := by
  simpa using hm.bind hk

theorem Moves.fail {e : CompileError} : Moves (fail e : CompileM α) c c' flow :=
  ⟨fun _ h => (fail_ok.mp h).elim⟩

theorem Moves.fail_bind {e : CompileError} : Moves (Compiler.fail e >>= k) c c' flow := by
  refine ⟨fun _ h => ?_⟩
  obtain ⟨_, _, h, -⟩ := bind_ok.mp h
  exact (fail_ok.mp h).elim

theorem Moves.ite {p : Prop} [Decidable p] {m' : CompileM α} (hm : p → Moves m c c' flow)
    (hm' : ¬ p → Moves m' c c' flow) : Moves (if p then m else m') c c' flow := by
  split_ifs with hp
  · exact hm hp
  · exact hm' hp

theorem Quiet.moves (hm : Quiet m) : Moves m c c {} := by
  refine ⟨fun {v₀ base opens flow₀ assumes s a s'} ht h => ?_⟩
  rw [hm s a s' h, LoopFlow.join_empty]
  exact ht

theorem Moves.quiet_bind (hm : Quiet m)
    (hk : ∀ a, Moves (k a) c c' flow) : Moves (m >>= k) c c' flow :=
  hm.moves.after hk

theorem Moves.quiet_map_bind {γ : Type} {f : α → γ} {k : γ → CompileM β}
    (hm : Quiet m) (hk : ∀ a, Moves (k (f a)) c c' flow) : Moves ((f <$> m) >>= k) c c' flow := by
  rw [bind_map_left]
  exact .quiet_bind hm hk

theorem Moves.ensuring {after : CompilerState → CompilerState}
    (hm : Moves m c c' flow) (haft : ∀ s, (after s).view = s.view) :
    Moves (ensuring m after) c c' flow := by
  refine ⟨fun {v₀ base opens flow₀ assumes s a s'} ht h => ?_⟩
  obtain ⟨s₁, hrun, rfl⟩ := ensuring_ok.mp h
  rw [haft]
  exact hm.run ht hrun

theorem EmitsOne.moves {m : CompileM Unit} (hm : EmitsOne m a b) (ha : (a : Int) ≤ c)
    (hc : c - a + b = c') : Moves m c c' {} := by
  refine ⟨fun {v₀ base opens flow₀ assumes s _ s'} ht h => ?_⟩
  rw [LoopFlow.join_empty, ← hc]
  exact ht.emits (hm s s' h) ha

/-- An instruction after which control goes on to the next. -/
theorem Moves.emit {op : Opcode} {ops : List Nat} (a b : Nat)
    (ha : Instr.pops ⟨op, ops⟩ = a) (hb : Instr.falls ⟨op, ops⟩ = some b)
    (ht : Instr.target? ⟨op, ops⟩ = none) (hle : (a : Int) ≤ c) (hc : c - a + b = c') :
    Moves (discard (emit op ops)) c c' {} :=
  (EmitsOne.emit ha hb ht).moves hle hc

section

variable {m : CompileM Unit} {δ : Int} (h : Leaves m δ flow)

include h

/-- A part compiled with `n` operands counted as waiting, where `c` are on the stack. -/
theorem Leaves.withPending {n : Nat}
    (hn : (n : Int) ≤ c) : Moves (withPending n m) c (c + δ) (flow.over n c) := by
  refine ⟨fun {v₀ base opens flow₀ assumes s _ s'} ht hrun => ?_⟩
  obtain ⟨s₀, s₁, hs₀, hm, hs'⟩ := withPending_ok hrun
  have hwf : s₀.view.Wf := hs₀ ▸ { ht.wf with }
  rw [hs']
  exact ht.seq hn (hs₀ ▸ h s₀ s₁ hm hwf)

theorem Leaves.pending (n : Nat) : Moves (Compiler.withPending n m) n (n + δ) flow := by
  simpa using h.withPending (Int.le_refl n)

/-- A part compiled with no more operands counted as waiting. -/
theorem Leaves.over (hc : 0 ≤ c) : Moves m c (c + δ) (flow.over 0 c) := by
  refine ⟨fun {v₀ base opens flow₀ assumes s _ s'} ht hrun => ?_⟩
  exact ht.seq (n := 0) hc (h s s' hrun ht.wf)

theorem Leaves.moves : Moves m 0 δ flow := by
  simpa [LoopFlow.over] using h.over (Int.le_refl 0)

end

theorem addConstant_moves {k : Constant} (hk : ∀ fn, k ≠ .function fn) :
    Moves (addConstant k) c c {} := by
  refine ⟨fun {v₀ base opens flow₀ assumes s _ s'} ht h => ?_⟩
  rw [← addConstant_ok h, LoopFlow.join_empty]
  exact ht.addConstant hk

theorem emitConstant_moves {k : Constant} (hk : ∀ fn, k ≠ .function fn) (hc : 0 ≤ c) :
    Moves (emitConstant k) c (c + 1) {} :=
  (addConstant_moves hk).after fun _ => .emit 0 1 rfl rfl rfl hc (by omega)

theorem loadSymbol_moves (sym : Symbol) (hc : 0 ≤ c) (hc' : c + 1 = c') :
    Moves (loadSymbol sym) c c' {} :=
  (loadSymbol_emits sym).moves hc (by omega)

theorem emitStoreOnly_moves (sym : Symbol) (hc : 1 ≤ c) (hc' : c - 1 = c') :
    Moves (emitStoreOnly sym) c c' {} :=
  (emitStoreOnly_emits sym).moves hc (by omega)

theorem Leaves.node {m : CompileM Unit} {kind : NodeKind} (h : Leaves m kind.leaves flow)
    (hkind : ¬ kind.IsLoopControl) : Leaves (node kind m) kind.leaves flow := by
  intro s s' hrun hv
  obtain ⟨s₁, hm, rfl⟩ := node_ok hrun
  exact (h s s₁ hm hv).log hkind (by simp)

theorem Leaves.inBlock {m : CompileM Unit} {δ : Int} (h : Leaves m δ flow) :
    Leaves (inBlock m) δ flow := by
  intro s s' hrun hv
  obtain ⟨s₀, s₁, hs₀, hm, -, hs'⟩ := inBlock_ok hrun
  rw [hs', ← hs₀]
  exact h s₀ s₁ hm (hs₀ ▸ hv)

end

end Mutant.Compiler
