import Mutant.Compiler.Equiv.Statements
/-!
# Loops

The three loops differ in their headers and share `loopTail`.  `LoopHeader` is what a header leaves:
one exit jump, and marks where the loop began and where its test is.  `Looping` accounts for the code
between the test and the end, with the breaks and continues of the loop that have no target yet.

* `loopTail_tracks`: what the shared tail leaves after any header;
* `whileStatement_leaves`, `forStatement_leaves`, `forInStatement_leaves`: each loop leaves nothing,
  and what its body's jumps do to the stream.
-/

namespace Mutant.Compiler

open List Mutant.Code Mutant.Ast

variable {s s' s₁ s₂ : CompilerState} {flow : LoopFlow} {cond iterable : CompileM Unit}
  {m : Option (CompileM Unit)}

/-! ### Giving breaks and continues their target -/

section

variable {v₀ : View} {f : Frag} {s s' : CompilerState} {c : Int} {u : Unit}

/-- A fragment whose open jumps and patches have changed, and nothing else of it but whether depths
can be given. -/
def Frag.retarget (f : Frag) (opens : List OpenJump) (resolved : List (Nat × Instr)) (bad : Prop) :
    Frag :=
  { f with opens := opens, resolved := resolved, bad := bad }

theorem Hole.landing_opened (h : Hole) : (h.opened c).landing = c + h.excess := by
  simp [Hole.opened, OpenJump.landing]

/-- Breaks or continues given a mark as their target.  Those that leave an operand behind spoil the
code. -/
theorem Progress.patchHoles {hs : List Hole} {pre post : List OpenJump} {m : Mark}
    (h : Progress v₀ f s.view) (hops : f.opens = pre ++ hs.map (·.opened c) ++ post)
    (hm : m ∈ f.marks) (hc : m.depth = c)
    (hrun : changeOperands (hs.map Hole.offset) m.offset s = .ok u s') :
    ∃ resolved bad, Progress v₀ (f.retarget (pre ++ post) resolved bad) s'.view ∧
      s'.view.stop = s.view.stop ∧ (bad ↔ f.bad ∨ ∃ h ∈ hs, 0 < h.excess) ∧
      f.resolved ⊆ resolved ∧ ∀ h ∈ hs, (h.offset, ⟨.opJump, [m.offset]⟩) ∈ resolved := by
  -- induction on the holes still to be patched
  induction hs generalizing f s with
  | nil =>
    obtain ⟨-, rfl⟩ := pure_ok.mp hrun
    have hf : f.retarget (pre ++ post) f.resolved f.bad = f := by
      rw [show pre ++ post = f.opens by simpa using hops.symm]
      rfl
    exact ⟨f.resolved, f.bad, by rwa [hf], rfl, by simp, Subset.refl _, by simp⟩
  | cons x hs ih =>
    obtain ⟨_, s₁, h₁, hrun⟩ := bind_ok.mp hrun
    obtain ⟨hfits, hs₁⟩ := changeOperand_ok h₁
    have hx : x.opened c ∈ f.opens := by simp [hops]
    have hpatch := h.patchMark hx hm hfits
    rw [← show s₁.view = s.view.patch (x.opened c).offset m.offset from hs₁] at hpatch
    have hspl : f.opens = pre ++ x.opened c :: (hs.map (·.opened c) ++ post) := by simp [hops]
    have hrest : (f.patch (x.opened c) m.offset).opens = pre ++ hs.map (·.opened c) ++ post := by
      rw [Frag.opens_patch h.nodup hspl, append_assoc]
    obtain ⟨resolved, bad, hp, hstop, hbad, hsub, hres⟩ := ih hpatch hrest hm hrun
    refine ⟨resolved, bad, hp, by rw [hstop, hs₁, View.patch_stop], ?_, ?_, ?_⟩
    · have hne : m.depth ≠ (x.opened c).landing ↔ 0 < x.excess := by
        rw [Hole.landing_opened]
        omega
      simp only [hbad, Frag.spoil, Frag.patch, hne, mem_cons, exists_eq_or_imp, or_assoc]
    · exact Subset.trans (subset_cons_self _ _) hsub
    · intro y hy
      rcases mem_cons.mp hy with rfl | hy
      · exact hsub mem_cons_self
      · exact hres y hy

end

/-! ### A loop under way -/

/-- The code from the start of a loop's header to somewhere before its end.  `f₀` accounts for the
header; the loop's body starts at `start`, with `c` values on the stack; `hs` are the breaks and
continues of the loop without a target. -/
structure Looping (v₀ : View) (f₀ : Frag) (start : Nat) (c : Int) (ctx : LoopContext)
    (hs : List Hole) (f : Frag) (v : View) : Prop where
  progress : Progress v₀ f v
  base : f.base = f₀.base
  assumes : f.assumes = f₀.assumes
  holes : f.holes = f₀.holes
  inner : f.inner = [ctx]
  entered : ctx.pendingAtEntry = v.pending
  opens : f.opens = f₀.opens ++ hs.map (·.opened c)
  marks : f₀.marks ⊆ f.marks
  depth : f.depth = some c
  start_le : start ≤ v.stop
  before : ∀ h ∈ f.holes, h.offset < start
  after : ∀ p ∈ ctx.breakPositions ++ ctx.continuePositions, start ≤ p
  spans : ∀ l ∈ f.loops, l.jump ≤ start ∨ start ≤ l.body

section

variable {v₀ v v' : View} {f₀ f g : Frag} {start : Nat} {c : Int} {ctx : LoopContext}
  {hs : List Hole}

/-- The body is next. -/
theorem Looping.enter (h : Progress v₀ f v) (hinn : f.inner = []) (hc : f.depth = some c) :
    Looping v₀ f v.stop c (enteredLoop v.pending) [] { f with inner := [enteredLoop v.pending] }
      { v with contexts := enteredLoop v.pending :: v.contexts } where
  progress := hinn ▸ h.enterLoop
  base := rfl
  assumes := rfl
  holes := rfl
  inner := rfl
  entered := rfl
  opens := by simp
  marks := Subset.refl _
  depth := hc
  start_le := Nat.le_refl _
  before x hx := h.owed_lt (mem_append_right _ (mem_map_of_mem hx))
  after := by simp [enteredLoop]
  spans l hl := .inl (h.loopSpans l hl).2

section

variable (h : Looping v₀ f₀ start c ctx hs f v)

include h

/-- The body, or the post section, of the loop. -/
theorem Looping.seq (hc : 0 ≤ c) (hg : Progress v g v')
    (hinn : g.inner = []) (hops : g.opens = []) (has : g.assumes = []) (hbase : g.base = 0)
    (hdep : g.depth = some 0) :
    Looping v₀ f₀ start c (ctx.record g.breaks g.continues) (hs ++ g.holes) (f.seq 0 c g) v' where
  progress := h.progress.seq (n := 0) (by simp [h.depth, hbase]) hc
    (by simp [Frag.EnteredAt, h.inner, h.entered]) hg hinn
  base := h.base
  assumes := by simp [Frag.seq, has, h.assumes]
  holes := by
    rw [← h.holes]
    simp [Frag.holes, Frag.seq, h.inner]
  inner := by simp [Frag.seq, h.inner]
  entered := h.entered.trans hg.pending.symm
  opens := by simp [Frag.seq, h.opens, hops, h.inner]
  marks := h.marks
  depth := by simp [Frag.seq, hdep]
  start_le := h.start_le.trans hg.stop_le
  before x hx := by
    rw [show (f.seq 0 c g).holes = f.holes by simp [Frag.holes, Frag.seq, h.inner]] at hx
    exact h.before x hx
  after p hp := by
    have hlater : p ∈ g.holes.map Hole.offset → start ≤ p := fun hp =>
      h.start_le.trans (hg.owed p (mem_append_right _ hp))
    have hear := h.after p
    simp only [LoopContext.record, Frag.holes, map_append, mem_append] at *
    tauto
  spans l hl := by
    rcases mem_append.mp hl with hl | hl
    · exact .inr (h.start_le.trans (hg.loopSpans l hl).1)
    · exact h.spans l hl

/-- A place jumps can go to. -/
theorem Looping.mark : Looping v₀ f₀ start c ctx hs (f.mark v.stop c) v :=
  { h with
    progress := h.progress.mark h.depth
    marks := Subset.trans h.marks (subset_cons_self _ _) }

/-- Inside the post section, or out of it again. -/
theorem Looping.setLoop (b : Bool) : Looping v₀ f₀ start c { ctx with inLoopStep := b } hs
      { f with inner := [{ ctx with inLoopStep := b }] }
      { v with contexts := v.contexts.modifyHead fun ctx => { ctx with inLoopStep := b } } :=
  { h with
    progress := h.progress.setLoop h.inner b
    inner := rfl }

end

/-- Some of the loop's breaks and continues given their target. -/
theorem Looping.patch {as bs : List Hole} {m : Mark} {u : Unit}
    (h : Looping v₀ f₀ start c ctx (as ++ hs ++ bs) f s.view) (hm : m ∈ f.marks) (hc : m.depth = c)
    (hrun : changeOperands (hs.map Hole.offset) m.offset s = .ok u s') :
    ∃ f', Looping v₀ f₀ start c ctx (as ++ bs) f' s'.view ∧ s'.view.stop = s.view.stop ∧
      (f'.bad ↔ f.bad ∨ ∃ h ∈ hs, 0 < h.excess) ∧ f'.marks = f.marks ∧
      f'.loops = f.loops ∧ f.resolved ⊆ f'.resolved ∧
      ∀ h ∈ hs, (h.offset, ⟨.opJump, [m.offset]⟩) ∈ f'.resolved := by
  have hops : f.opens = (f₀.opens ++ as.map (·.opened c)) ++ hs.map (·.opened c) ++
      bs.map (·.opened c) := by simp [h.opens]
  obtain ⟨resolved, bad, hp, hstop, hbad, hsub, hres⟩ := h.progress.patchHoles hops hm hc hrun
  refine ⟨_, { h with
    progress := hp
    entered := h.entered.trans (h.progress.pending.trans hp.pending.symm)
    opens := by simp [Frag.retarget]
    start_le := hstop ▸ h.start_le }, hstop, hbad, rfl, rfl, hsub, hres⟩

theorem Looping.head_contexts (h : Looping v₀ f₀ start c ctx hs f v) :
    v.contexts.head? = some ctx := by
  rw [h.progress.contexts, h.inner]
  rfl

theorem Looping.currentLoop {ctx' : LoopContext}
    (h : Looping v₀ f₀ start c ctx hs f s.view) (hrun : currentLoop s = .ok ctx' s') :
    ctx' = ctx ∧ s = s' := by
  obtain ⟨_, _, ⟨rfl, rfl⟩, rfl, rfl⟩ := hrun
  have hhead : s.loopContexts.head? = some ctx := h.head_contexts
  rw [headD_eq_head?_getD, hhead]
  exact ⟨rfl, rfl⟩

/-- The jump back to the test, and the exit of the test given its target. -/
theorem Looping.exit {exit : OpenJump} {head back : Nat} {u : Unit}
    (h : Looping v₀ f₀ start c ctx hs f s.view) (hc : 0 ≤ c) (hops : f₀.opens = [exit])
    (hland : exit.landing = c) (hhead : ⟨head, c⟩ ∈ f.marks)
    (hback : emit .opJump [head] s = .ok back s₁)
    (hexit : changeOperand exit.offset s₁.view.stop s₁ = .ok u s₂) :
    ∃ f', Looping v₀ { f₀ with opens := [] } start c ctx hs f' s₂.view ∧
      s₂.view.stop = s₁.view.stop ∧ s.view.stop ≤ s₁.view.stop ∧ f'.bad = f.bad ∧
      f'.marks = f.marks ∧ f'.loops = f.loops ∧ f.resolved ⊆ f'.resolved := by
  obtain ⟨hfits, -, hs₁⟩ := emit_ok.mp hback
  have hview : s₁.view = s.view.put ⟨.opJump, [head]⟩ false := by
    rw [← hs₁]
    rfl
  -- the jump back lands on the mark of the test
  have h₁ : Progress v₀ _ (s.view.put ⟨.opJump, [head]⟩ false) :=
    h.progress.put h.depth hfits (by simp) (fun ground _ => by simp only [Instr.pops]; omega)
      fun _ t ht => by
        obtain rfl : head = t := Option.some.inj ht
        simpa [Instr.pops, Instr.lands] using hhead
  rw [← hview] at h₁
  obtain ⟨hle, hs₂⟩ := changeOperand_ok hexit
  have hspl : f.opens = [] ++ exit :: hs.map (·.opened c) := by simp [h.opens, hops]
  -- the exit jump lands here, where the depth is that of the test again
  have h₂ := h₁.patchEnd (x := exit) (by simp [Frag.put, hspl]) hle
    (by simp [Frag.put, Instr.falls])
  rw [← hs₂] at h₂
  have hstop : s₂.view.stop = s₁.view.stop := by rw [hs₂, View.patch_stop]
  have hput : s.view.stop ≤ s₁.view.stop := by
    rw [hview, View.put_stop]
    omega
  refine ⟨_, { h with
    progress := h₂
    entered := h.entered.trans (h.progress.pending.trans h₂.pending.symm)
    opens := Frag.opens_patch h₁.nodup hspl s₁.view.stop
    depth := congrArg some hland
    start_le := h.start_le.trans (hput.trans hstop.ge) }, hstop, hput, rfl, rfl, rfl,
    subset_cons_self _ _⟩

theorem Looping.lt (h : Looping v₀ f₀ start c ctx hs f v) {p : Nat}
    (hp : p ∈ ctx.breakPositions ++ ctx.continuePositions) : p < v.stop := by
  rcases mem_append.mp hp with hp | hp
  · exact (h.progress.waiting .breakStatement p (by simp [Frag.waiting, h.inner, hp])).2.1
  · exact (h.progress.waiting .continueStatement p (by simp [Frag.waiting, h.inner, hp])).2.1

/-- The loop left, once all its breaks and continues have their targets. -/
theorem Looping.close (h : Looping v₀ f₀ start c ctx [] f v) {l : LoopSpan} (hops : f₀.opens = [])
    (hbody : v₀.stop ≤ start) (hl : l.body = start) (hjump : l.jump ≤ v.stop)
    (hins : ∀ p ∈ ctx.breakPositions ++ ctx.continuePositions, p < l.jump)
    (hspans : ∀ l' ∈ f.loops, l'.jump ≤ l.jump)
    (hbreaks : ∀ p ∈ ctx.breakPositions, (p, ⟨.opJump, [l.stop]⟩) ∈ f.resolved)
    (hconts : ∀ p ∈ ctx.continuePositions, (p, ⟨.opJump, [l.resume]⟩) ∈ f.resolved)
    (hc : c = l.cursor.toNat) (hst : ⟨l.start, 0⟩ ∈ f.marks) (hresume : ⟨l.resume, c⟩ ∈ f.marks)
    (hstop : ⟨l.stop, c⟩ ∈ f.marks) (hbase : f₀.base = 0)
    (has : f₀.assumes = []) (hflow : f.HasFlow flow) :
    Tracks v₀ 0 [] (some c) flow { v with contexts := v.contexts.tail, loops := l :: v.loops } := by
  subst hl hc
  have hcl : Closes v₀ f v ctx l :=
  { inner := h.inner
    body := hbody
    jump := hjump
    -- what waited before the loop lies in front of its body
    outside := fun x hx henc => by
      have := h.before x hx
      have := henc.1
      omega
    inside := fun p hp => ⟨h.after p hp, hins p hp⟩
    nests := fun l' hl' => (h.spans l' hl').imp_right fun hle => ⟨hle, hspans l' hl'⟩
    breaks := hbreaks
    continues := hconts
    marks := ⟨0, hst, by simpa using hresume, by simpa using hstop⟩ }
  exact ⟨_, h.progress.closeLoop hcl, h.base.trans hbase, by simp [h.opens, hops], rfl,
    h.assumes.trans has, h.depth, { hflow with }⟩

end

/-! ### The post section -/

/-- What stands between the body of a loop and its back jump adds breaks, and no continues, of the
loop. -/
structure LoopStep (step : CompileM Unit) (flow : LoopFlow) : Prop where
  run : ∀ {v₀ : View} {f₀ : Frag} {start : Nat} {c : Int} {ctx : LoopContext} {hs : List Hole}
    {f : Frag} {s s' : CompilerState}, Looping v₀ f₀ start c ctx hs f s.view → 0 ≤ c →
    step s = .ok () s' → ∃ (ctx' : LoopContext) (g f' : Frag),
      Looping v₀ f₀ start c ctx' (hs ++ g.breaks) f' s'.view ∧
      ctx'.breakPositions = ctx.breakPositions ++ g.breaks.map Hole.offset ∧
      ctx'.continuePositions = ctx.continuePositions ∧ g.HasFlow flow ∧ g.continues = [] ∧
      (f'.bad ↔ f.bad ∨ g.bad) ∧ f'.marks = f.marks ∧ f'.resolved = f.resolved

theorem Frag.hasFlow_empty : Frag.HasFlow {} {} :=
  ⟨by simp, by simp [Frag.holes], by simp [Frag.holes]⟩

theorem loopStep_none : LoopStep (pure ()) {} := by
  refine ⟨fun {v₀ f₀ start c ctx hs f s s'} h _ hrun => ?_⟩
  obtain ⟨-, rfl⟩ := pure_ok.mp hrun
  exact ⟨ctx, {}, f, by simpa using h, by simp, rfl, Frag.hasFlow_empty, rfl, by simp, rfl, rfl⟩

theorem forStep_none : LoopStep (forStep none) {} := by
  refine ⟨fun {v₀ f₀ start c ctx hs f s s'} h _ hrun => ?_⟩
  obtain rfl := modify_ok.mp hrun
  have hL := h.setLoop true
  rw [← append_nil hs] at hL
  exact ⟨_, {}, _, hL, by simp, rfl, Frag.hasFlow_empty, rfl, by simp, rfl, rfl⟩

/-- The step of a `for` is a step of its loop, and makes no jump to itself. -/
theorem forStep_some {post : CompileM Unit} (hpost : Leaves post 1 flow) :
    LoopStep (forStep (some post)) flow := by
  refine ⟨fun {v₀ f₀ start c ctx hs f s s'} h hc hrun => ?_⟩
  simp only [forStep, modifyLoop, bind_ok, modify_ok, onError_ok] at hrun
  obtain ⟨_, _, rfl, _, s₁, h₁, _, s₂, h₂, rfl⟩ := hrun
  have hL := h.setLoop true
  obtain ⟨g, hg, ht⟩ := (hpost _ _ h₁ hL.progress.wf).emits
    (EmitsOne.emit (a := 1) (b := 0) rfl rfl rfl _ _ h₂) (by simp)
  have hnone : g.continues = [] := hg.noContinue _ hL.head_contexts rfl
  have hL' := (hL.seq hc hg ht.inner ht.opens ht.assumes ht.base ht.depth).setLoop false
  rw [show g.holes = g.breaks by simp [Frag.holes, hnone]] at hL'
  refine ⟨_, g, _, hL', rfl, ?_, ht.flow, hnone, Iff.rfl, rfl, rfl⟩
  simp [LoopContext.record, hnone]

/-! ### From the test to the end -/

/-- The header of a loop: it began at `start`, its test is at `head`, where `c` values are on the
stack, and `exit` is the jump out of it. -/
def LoopHeader (v₀ : View) (start head : Nat) (c : Int) (exit : OpenJump) (flow : LoopFlow)
    (v : View) : Prop :=
  ∃ f, Progress v₀ f v ∧ Tracked f 0 [exit] (some c) flow [] ∧ ⟨start, 0⟩ ∈ f.marks ∧
    ⟨head, c⟩ ∈ f.marks

/-- The flow of a loop, from what became of its breaks and continues. -/
theorem Frag.HasFlow.looped {f₀ f g g' : Frag} {header flow' : LoopFlow}
    (h₀ : f₀.HasFlow header) (hg : g.HasFlow flow) (hg' : g'.HasFlow flow') (hnone : g'.continues = [])
    (hhs : f.holes = f₀.holes)
    (hbad : f.bad ↔ (((f₀.bad ∨ g.bad) ∨ ∃ h ∈ g.continues, 0 < h.excess) ∨ g'.bad) ∨
      ∃ h ∈ g.breaks ++ g'.breaks, 0 < h.excess) :
    f.HasFlow (header.join (flow.join flow').looped) := by
  refine ⟨?_, ?_, ?_⟩
  · have hleaks : (∃ h ∈ g.continues, 0 < h.excess) ∨ (∃ h ∈ g.breaks ++ g'.breaks, 0 < h.excess) ↔
        flow.leaks = true ∨ flow'.leaks = true := by
      rw [← hg.leaks, ← hg'.leaks]
      simp only [Frag.holes, hnone, mem_append, or_and_right, exists_or, append_nil,
        or_assoc, or_left_comm]
    simp only [hbad, LoopFlow.join, LoopFlow.looped, Bool.or_eq_true, ← h₀.bad, ← hg.bad, ← hg'.bad,
      ← hleaks, or_assoc, or_left_comm]
  · simp [hhs, h₀.control, LoopFlow.join, LoopFlow.looped]
  · simp [hhs, h₀.leaks, LoopFlow.join, LoopFlow.looped]

section

variable {v₀ : View} {start head : Nat} {resumesAtHead : Bool} {exit : OpenJump}
  {header flow flow' : LoopFlow} {body step : CompileM Unit} {s s' : CompilerState}

/-- Behind any header the shared tail leaves the cursor at most: the body's jumps are all patched.
-/
theorem loopTail_tracks (cursor : Bool)
    (hhdr : LoopHeader v₀ start head cursor.toNat exit header s.view)
    (hland : exit.landing = cursor.toNat) (hbody : Leaves body 0 flow) (hstep : LoopStep step flow')
    (hrun : loopTail start head exit.offset resumesAtHead cursor body step s = .ok () s') :
    Tracks v₀ 0 [] (some cursor.toNat) (header.join (flow.join flow').looped) s'.view := by
  obtain ⟨f₀, hp, ht, hst, hhead⟩ := hhdr
  simp only [loopTail, noteLoop, bind_ok, modify_ok, onError_ok, modifyScope_ok] at hrun
  obtain ⟨_, _, ⟨rfl, rfl⟩, _, _, rfl, _, s₁, hrunBody, _, _, ⟨rfl, rfl⟩, ctx, _, hctx, _, s₂, hcont,
    _, s₃, hrunStep, back, s₄, hback, _, _, ⟨rfl, rfl⟩, _, s₅, hexit, ctx', _, hctx', _, s₆, hbreak,
    _, _, rfl, rfl⟩ := hrun
  have hc : (0 : Int) ≤ cursor.toNat := Int.natCast_nonneg _
  -- the body, with the place where it ends marked
  have hL := Looping.enter hp ht.inner ht.depth
  obtain ⟨g, hg, htg⟩ := blockStatement_leaves hbody _ _ hrunBody hL.progress.wf
  have hL₁ := (hL.seq hc hg htg.inner htg.opens htg.assumes htg.base htg.depth).mark
  obtain ⟨rfl, rfl⟩ := hL₁.currentLoop hctx
  have hspl : [] ++ g.holes = g.breaks ++ g.continues ++ [] := by simp [Frag.holes]
  rw [hspl] at hL₁
  have hresume : ∀ f : Frag, ⟨head, cursor.toNat⟩ ∈ f.marks →
      (⟨if resumesAtHead then head else s₁.view.stop, cursor.toNat⟩ : Mark) ∈
        (f.mark s₁.view.stop cursor.toNat).marks := by
    intro f hf
    cases resumesAtHead
    · exact mem_cons_self
    · exact mem_cons_of_mem _ hf
  -- the continues, the step, and the jump back with the exit jump
  obtain ⟨f₂, hL₂, -, hbad₂, hmarks₂, -, -, hres₂⟩ := hL₁.patch (hresume _ hhead) rfl hcont
  obtain ⟨ctx₃, g', f₃, hL₃, hbreaks₃, hconts₃, hflow', hnone, hbad₃, hmarks₃, hres₃⟩ :=
    hstep.run hL₂ hc hrunStep
  obtain ⟨f₄, hL₄, hstop₄, hle₄, hbad₄, hmarks₄, hloops₄, hsub₄⟩ :=
    hL₃.exit hc ht.opens hland (hL₃.marks hhead) hback hexit
  have hL₅ := hL₄.mark
  rw [hstop₄] at hL₅
  obtain ⟨rfl, rfl⟩ := hL₅.currentLoop hctx'
  -- the breaks of the body and of the step, all to the end
  have hbreaks : ctx'.breakPositions = (g.breaks ++ g'.breaks).map Hole.offset := by
    simp [hbreaks₃, LoopContext.record, enteredLoop]
  have hconts : ctx'.continuePositions = g.continues.map Hole.offset := by
    simp [hconts₃, LoopContext.record, enteredLoop]
  rw [hbreaks] at hbreak
  have hspl' : g.breaks ++ [] ++ g'.breaks = [] ++ (g.breaks ++ g'.breaks) ++ [] := by simp
  rw [hspl'] at hL₅
  obtain ⟨f₆, hL₆, hstop₆, hbad₆, hmarks₆, hloops₆, hsub₆, hres₆⟩ :=
    hL₅.patch mem_cons_self rfl hbreak
  have hback₃ : back = s₃.view.stop := (emit_ok.mp hback).2.1
  have hmarks : f₂.marks ⊆ f₆.marks := by
    rw [hmarks₆, ← hmarks₃, ← hmarks₄]
    exact subset_cons_self _ _
  -- nothing is waiting any more, so the loop can be noted
  refine hL₆.close (l := ⟨start, _, s.view.stop, back, s₄.view.stop, cursor⟩) rfl hp.stop_le rfl
    ?_ ?_ ?_ ?_ ?_ rfl (hL₆.marks hst) (hmarks (hmarks₂ ▸ hresume _ hhead)) ?_ ht.base ht.assumes
    ?_
  · change back ≤ _
    omega
  · exact fun p hp => hback₃ ▸ hL₃.lt hp
  · intro l hl
    rw [hloops₆] at hl
    exact hback₃ ▸ (hL₃.progress.loopSpans l (hloops₄ ▸ hl)).2
  · intro p hp
    rw [hbreaks] at hp
    obtain ⟨x, hx, rfl⟩ := mem_map.mp hp
    exact hres₆ x hx
  · intro p hp
    rw [hconts] at hp
    obtain ⟨x, hx, rfl⟩ := mem_map.mp hp
    exact hsub₆ (hsub₄ (hres₃ ▸ hres₂ x hx))
  · exact hmarks₆ ▸ mem_cons_self
  · refine .looped ht.flow htg.flow hflow' hnone hL₆.holes ?_
    rw [hbad₆]
    change f₄.bad ∨ _ ↔ _
    rw [hbad₄, hbad₃, hbad₂]
    rfl

end

/-! ### The three loops -/

theorem Tracks.loopHeader {v₀ v v' : View} {b : Nat} {exit : OpenJump} {flow' : LoopFlow}
    (h : Tracks v₀ 0 [] (some b) flow v) (hg : Tracks v b [exit] (some b) flow' v') :
    LoopHeader v₀ v₀.stop v.stop b exit (flow.join flow') v' :=
  h.append_marks hg

section

variable {flow flow' : LoopFlow} {body : CompileM Unit}

/-- A test that jumps out of the loop when it fails. -/
theorem Leaves.test (h : Leaves cond 1 flow) {p : Nat} (hv : s.view.Wf) (hrun : cond s = .ok () s₁)
    (hjump : emitPlaceholder .opJumpFalse [] s₁ = .ok p s') :
    Tracks s.view 0 [⟨p, openJumpFalse, 1⟩] (some 0) flow s'.view :=
  (h _ _ hrun hv).jumpFalse (Int.le_refl 1) hjump

theorem whileStatement_leaves (hcond : Leaves cond 1 flow) (hbody : Leaves body 0 flow') :
    Leaves (whileStatement cond body) 0 (flow.join flow'.looped) := by
  intro s s' hrun hv
  simp only [whileStatement, bind_ok] at hrun
  obtain ⟨_, _, ⟨rfl, rfl⟩, _, s₁, h₁, p, s₂, h₂, hrun⟩ := hrun
  have hhdr := (Tracks.start hv 0).loopHeader (hcond.test hv h₁ h₂)
  simpa using loopTail_tracks false hhdr rfl hbody loopStep_none hrun

/-- Code that may be absent. -/
inductive LeavesOption (δ : Int) : Option (CompileM Unit) → LoopFlow → Prop
  | none : LeavesOption δ none {}
  | some {m : CompileM Unit} {flow : LoopFlow} : Leaves m δ flow → LeavesOption δ (some m) flow

theorem LeavesOption.getD (h : LeavesOption 0 m flow) : Leaves (m.getD (pure ())) 0 flow := by
  cases h with
  | none => exact (Quiet.pure ()).moves.leaves
  | some h => exact h

theorem LeavesOption.forCondition (h : LeavesOption 1 m flow) : Leaves (forCondition m) 1 flow := by
  cases h with
  | none => exact (Moves.emit 0 1 rfl rfl rfl (Int.le_refl 0) rfl).leaves
  | some h => exact h

theorem LeavesOption.forStep (h : LeavesOption 1 m flow) : LoopStep (forStep m) flow := by
  cases h with
  | none => exact forStep_none
  | some h => exact forStep_some h

/-- A `for` leaves nothing on the stack. -/
theorem forStatement_leaves {init cond post : Option (CompileM Unit)}
    {flowInit flowCondition flowPost : LoopFlow} (hinit : LeavesOption 0 init flowInit)
    (hcond : LeavesOption 1 cond flowCondition) (hpost : LeavesOption 1 post flowPost)
    (hbody : Leaves body 0 flow) :
    Leaves (forStatement init cond post body) 0
      ((flowInit.join flowCondition).join (flow.join flowPost).looped) := by
  refine Leaves.inBlock fun s s' hrun hv => ?_
  simp only [bind_ok] at hrun
  obtain ⟨_, _, ⟨rfl, rfl⟩, _, s₁, h₁, _, _, ⟨rfl, rfl⟩, _, s₂, h₂, p, s₃, h₃, hrun⟩ := hrun
  have ht := hinit.getD _ _ h₁ hv
  have hhdr := ht.loopHeader (b := 0) (hcond.forCondition.test ht.wf h₂ h₃)
  exact loopTail_tracks false hhdr rfl hbody hpost.forStep hrun

/-- The head of a for-in: the cursor yields its next value, and key, or the loop ends. -/
theorem iterNext_tracks {s₃ : CompilerState} {key : Option Symbol} {value : Symbol} {p : Nat}
    (hv : s.view.Wf) (h₁ : emitPlaceholder .opIterNext [if key.isSome then 2 else 1] s = .ok p s₁)
    (h₂ : emitBindingStore value s₁ = .ok () s₂)
    (h₃ : key.elim (pure ()) emitBindingStore s₂ = .ok () s₃) :
    Tracks s.view 1
      [⟨p, ⟨.opIterNext, [placeholderTarget, if key.isSome then 2 else 1]⟩, 1⟩] (some 1) {}
      s₃.view := by
  obtain ⟨hfits, rfl, hs₁⟩ := emitPlaceholder_ok h₁
  have ht := (Tracks.start hv 1).leaveOpen hfits (by simp [IsJump]) (Int.le_refl 1)
  rw [← hs₁] at ht
  cases key with
  | none =>
    obtain ⟨-, rfl⟩ := pure_ok.mp h₃
    exact ht.emits (emitBindingStore_emits value _ _ h₂) (by simp [Instr.pops])
  | some key =>
    exact (ht.emits (emitBindingStore_emits value _ _ h₂) (by simp [Instr.pops])).emits
      (emitBindingStore_emits key _ _ h₃) (by simp [Instr.pops])

/-- A `for in` keeps its cursor on the stack while it runs, and pops it at the end. -/
theorem forInLoop_leaves {key : Option String} {value : String}
    (hit : Leaves iterable 1 flow) (hbody : Leaves body 0 flow') :
    Leaves (forInLoop key value iterable body) 0 (flow.join flow'.looped) := by
  intro s s' hrun hv
  simp only [forInLoop, bind_ok] at hrun
  obtain ⟨_, _, ⟨rfl, rfl⟩, _, s₁, h₁, _, s₂, h₂, ⟨valueSymbol, keySymbol⟩, s₃, h₃, _, _, ⟨rfl, rfl⟩,
    p, s₄, h₄, _, s₅, h₅, hrun⟩ := hrun
  -- the store of the key is empty when there is no key
  obtain ⟨s₆, h₆, _, s₇, h₇, h₈⟩ : ∃ s₆, keySymbol.elim (pure ()) emitBindingStore s₅ = .ok () s₆ ∧
      ∃ u s₇, loopTail s.view.stop s₃.view.stop p true true body (pure ()) s₆ = .ok u s₇ ∧
        discard (emit .opPop) s₇ = .ok () s' := by
    cases keySymbol with
    | none => exact ⟨s₅, rfl, bind_ok.mp hrun⟩
    | some key =>
      obtain ⟨_, s₆, h₆, hrun⟩ := bind_ok.mp hrun
      exact ⟨s₆, h₆, bind_ok.mp hrun⟩
  have ht := (hit _ _ h₁ hv).emits (EmitsOne.emit (a := 1) (b := 1) rfl rfl rfl _ _ h₂)
    (Int.le_refl 1)
  rw [← quiet_forInBindings key value _ _ _ h₃] at ht
  have hhdr := ht.loopHeader (b := 1) (iterNext_tracks ht.wf h₄ h₅ h₆)
  have hloop := loopTail_tracks true hhdr ?_ hbody loopStep_none h₇
  · simpa using hloop.emits (EmitsOne.emit (a := 1) (b := 0) rfl rfl rfl _ _ h₈) (Int.le_refl 1)
  · simp [OpenJump.landing, Instr.pops, Instr.lands]

/-- A `for in` leaves nothing on the stack. -/
theorem forInStatement_leaves {key value : Option String}
    (hit : Leaves iterable 1 flow) (hbody : Leaves body 0 flow') :
    Leaves (forInStatement key value iterable body) 0 (flow.join flow'.looped) := by
  refine Leaves.inBlock ?_
  cases value with
  | none => exact fun _ _ hrun => (fail_ok.mp hrun).elim
  | some value =>
    intro s s' hrun hv
    simp only [ite_ok, bind_ok, fail_ok, false_and, exists_false, and_false, false_or] at hrun
    exact forInLoop_leaves hit hbody s s' hrun.2 hv

end

end Mutant.Compiler
