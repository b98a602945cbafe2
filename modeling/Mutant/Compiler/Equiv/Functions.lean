import Mutant.Compiler.Equiv.Loops
/-!
# Functions and whole streams

A function body is compiled into a stream of its own, outside every loop.  `Progress.jumpsResolved`
and `Progress.stackDiscipline` say what the accounting of such a stream comes to when it is complete;
`boxCapturedLocals` keeps both; and the enclosing stream sees a function literal as one value pushed
and some constants added.
-/

namespace Mutant.Compiler

open List Mutant.Code Mutant.Ast

variable {s s' s₁ s₂ : CompilerState} {body : ValueBlock} {flow : LoopFlow} {params : List String}

/-! ### Complete streams -/

/-- A stream not yet begun, inside no loop. -/
structure View.Fresh (v : View) : Prop where
  code : v.code = []
  opens : v.opens = []
  nodes : v.nodes = []
  loops : v.loops = []
  contexts : v.contexts = []

/-- An operand that is an offset is the jump's target. -/
theorem exists_target_of_mem_jumpOperands {i : Instr} (hfits : i.Fits) {k : Nat}
    (hk : k ∈ i.op.jumpOperands) : ∃ t, i.operands[k]? = some t ∧ i.target? = some t := by
  obtain ⟨op, operands⟩ := i
  have hop : (op = .opJump ∨ op = .opJumpFalse ∨ op = .opIterNext) ∧ k = 0 := by
    unfold Opcode.jumpOperands at hk
    split at hk <;> simp_all
  obtain ⟨hop, rfl⟩ := hop
  cases operands with
  | nil => rcases hop with rfl | rfl | rfl <;> exact absurd hfits (by decide)
  | cons t rest => rcases hop with rfl | rfl | rfl <;> exact ⟨t, rfl, rfl⟩

section

variable {v₀ v : View} {f : Frag} {d : Option Int} {flow : LoopFlow}

theorem View.Fresh.wf (h : v.Fresh) : v.Wf where
  fits p i hi := absurd (h.code ▸ hi) not_at_nil
  opens p hp := by simp [h.opens] at hp
  targets p i t hi := absurd (h.code ▸ hi) not_at_nil
  spans n hn := by simp [h.nodes] at hn

theorem View.Fresh.depths (h : v.Fresh) (D : Nat → Nat) : v.Depths D where
  pops p i hi := absurd (h.code ▸ hi) not_at_nil
  falls p i n hi := absurd (h.code ▸ hi) not_at_nil
  jumps p i t hi := absurd (h.code ▸ hi) not_at_nil
  nodes n hn := by simp [h.nodes] at hn

theorem View.Fresh.stop (h : v.Fresh) : v.stop = 0 := by simp [View.stop, h.code]

section

variable (h : Progress v₀ f v)

include h

/-- Outside every loop no break or continue is left. -/
theorem Progress.waiting_nil (hv : v₀.Fresh) (hinn : f.inner = [])
    (k : NodeKind) : f.waiting k = [] := by
  have hhs := h.noLoop hv.contexts
  rw [Frag.holes, append_eq_nil_iff] at hhs
  cases k <;> simp [Frag.waiting, hhs, hinn]

theorem Progress.opens_nil (hv : v₀.Fresh) (hops : f.opens = []) : v.opens = [] := by
  rw [eq_nil_iff_forall_not_mem]
  intro p hp
  simpa [hv.opens, Frag.owed, hops, h.noLoop hv.contexts] using (h.opens p).mp hp

/-- Where the breaks and continues of a complete stream go. -/
theorem Progress.control_resolved (hv : v₀.Fresh) (hinn : f.inner = [])
    {n : NodeSpan} (hn : n ∈ v.nodes) (hk : n.kind.IsLoopControl) :
    ∃ l, Innermost f.loops l n.jumpOffset ∧ At v.code n.jumpOffset ⟨.opJump, [l.target n.kind]⟩ := by
  rw [h.nodes, hv.nodes, append_nil] at hn
  rcases h.control n hn hk with hw | ⟨l, hl, hat, -⟩
  · simp [h.waiting_nil hv hinn] at hw
  · exact ⟨l, hl, hat⟩

theorem Progress.jumpsResolved (hv : v₀.Fresh) (hops : f.opens = [])
    (hinn : f.inner = []) : JumpsResolved v.code v.nodes v.loops where
  boundary p i hi k hk := by
    obtain ⟨t, ht, htgt⟩ := exists_target_of_mem_jumpOperands (h.wf.fits p i hi) hk
    exact ⟨t, ht, h.wf.targets p i t hi (by simp [h.opens_nil hv hops]) htgt⟩
  control n hn hk := by
    rw [h.loops, hv.loops, append_nil]
    exact h.control_resolved hv hinn hn hk

/-- A complete stream keeps the stack discipline exactly when its accounting found nothing bad. -/
theorem Progress.stackDiscipline (hv : v₀.Fresh)
    (ht : Tracked f 0 [] d flow []) (hdep : ∀ c ∈ d, c = 0) :
    StackDiscipline v.code v.nodes v.loops ∧ f.FunctionsGood ↔ ¬ f.bad := by
  have hops := h.opens_nil hv ht.opens
  constructor
  -- a depth map of the whole stream is one the accounting allows
  · rintro ⟨⟨D, h0, hD, -⟩, hgood⟩
    refine h.good ⟨D, 0, ?_, ?_, by simp [ht.assumes]⟩ hgood
    · simp [hv.stop, h0, ht.base]
    · rwa [View.Depths, hops]
  -- without a bad jump, the depths extend from the empty stream
  · intro hbad
    obtain ⟨D, hagr, hD, -⟩ := h.extend hbad (fun _ => 0) 0 (hv.depths _) (by simp [ht.base])
      (by simp [View.Affords, hv.contexts]) 0 (by simpa [ht.depth, eq_comm] using hdep)
    have hmap : DepthMap v.code [] v.nodes D := hops ▸ hD.depths
    refine ⟨⟨D, by simpa [hv.stop] using hagr 0 (Nat.zero_le _), hmap, ?_⟩, h.functionsGood hbad⟩
    -- a break or a continue lands where its loop says, at the same depth
    intro n hn hk
    obtain ⟨l, hl, hat⟩ := h.control_resolved hv ht.inner hn hk
    obtain ⟨hstop, hresume⟩ := (h.known D 0 hD).loops l hl.mem
    have hland : D (l.target n.kind) = l.landing D := by
      unfold LoopSpan.target
      split <;> assumption
    have hjump := hmap.jumps _ _ _ hat (by simp) rfl
    refine ⟨l, ?_, hat, ?_, hland⟩
    · rwa [h.loops, hv.loops, append_nil]
    · rw [← hland]
      exact hjump.symm

end

end

/-! ### Boxing captured locals -/

section

variable {cap : List Nat} {is : Instructions} {nodes : List NodeSpan} {loops : List LoopSpan}

/-- An instruction that is not an access of a captured local stays; one that is keeps its operand and
its effect. -/
theorem boxCapturedLocal_cases (cap : List Nat) (i : Instr) : boxCapturedLocal cap i = i ∨
      ∃ slot, (i = ⟨.opGetLocal, [slot]⟩ ∧ boxCapturedLocal cap i = ⟨.opGetLocalCell, [slot]⟩) ∨
        (i = ⟨.opSetLocal, [slot]⟩ ∧ boxCapturedLocal cap i = ⟨.opSetLocalCell, [slot]⟩) := by
  unfold boxCapturedLocal
  split
  · split_ifs
    · exact .inr ⟨_, .inl ⟨rfl, rfl⟩⟩
    · exact .inl rfl
  · split_ifs
    · exact .inr ⟨_, .inr ⟨rfl, rfl⟩⟩
    · exact .inl rfl
  · exact .inl rfl

/-- What the stack and the layout see of an instruction. -/
structure SameEffect (i j : Instr) : Prop where
  size : j.size = i.size
  pops : j.pops = i.pops
  falls : j.falls = i.falls
  lands : j.lands = i.lands
  target : j.target? = i.target?
  jumpOperands : j.op.jumpOperands = i.op.jumpOperands
  operands : j.operands = i.operands
  jump : ∀ t, j = ⟨.opJump, [t]⟩ ↔ i = ⟨.opJump, [t]⟩

theorem sameEffect_box (cap : List Nat) (i : Instr) : SameEffect i (boxCapturedLocal cap i) := by
  rcases boxCapturedLocal_cases cap i with h | ⟨slot, ⟨rfl, h⟩ | ⟨rfl, h⟩⟩ <;> rw [h]
  · exact ⟨rfl, rfl, rfl, rfl, rfl, rfl, rfl, fun _ => Iff.rfl⟩
  · exact ⟨rfl, rfl, rfl, rfl, rfl, rfl, rfl, by simp⟩
  · exact ⟨rfl, rfl, rfl, rfl, rfl, rfl, rfl, by simp⟩

theorem at_boxCapturedLocals {p : Nat} {i : Instr} :
    At (boxCapturedLocals cap is) p i ↔ ∃ j, At is p j ∧ i = boxCapturedLocal cap j :=
  at_map fun i => (sameEffect_box cap i).size

theorem at_jump_boxCapturedLocals {p t : Nat} :
    At (boxCapturedLocals cap is) p ⟨.opJump, [t]⟩ ↔ At is p ⟨.opJump, [t]⟩ := by
  rw [at_boxCapturedLocals]
  constructor
  · rintro ⟨j, hj, heq⟩
    rwa [((sameEffect_box cap j).jump t).mp heq.symm] at hj
  · intro h
    exact ⟨_, h, (((sameEffect_box cap _).jump t).mpr rfl).symm⟩

/-- Boxing keeps every size, pop and jump target, so the depths of the stream are the same. -/
theorem depthMap_boxCapturedLocals {D : Nat → Nat} :
    DepthMap (boxCapturedLocals cap is) [] nodes D ↔ DepthMap is [] nodes D := by
  constructor
  -- boxing replaces an instruction by one of the same effect, so both ways are alike
  · intro h
    have hbox : ∀ {p i}, At is p i → At (boxCapturedLocals cap is) p _ := fun hi =>
      at_boxCapturedLocals.mpr ⟨_, hi, rfl⟩
    refine ⟨fun p i hi => ?_, fun p i n hi hn => ?_, fun p i t hi hp ht => ?_, h.nodes⟩ <;>
      obtain ⟨hsize, hpops, hfalls, hlands, htgt, -, -, -⟩ := sameEffect_box cap i
    · exact hpops ▸ h.pops p _ (hbox hi)
    · exact hsize ▸ hpops ▸ h.falls p _ n (hbox hi) (hfalls ▸ hn)
    · exact hpops ▸ hlands ▸ h.jumps p _ t (hbox hi) hp (htgt ▸ ht)
  · intro h
    refine ⟨fun p i hi => ?_, fun p i n hi hn => ?_, fun p i t hi hp ht => ?_, h.nodes⟩ <;>
      obtain ⟨j, hj, rfl⟩ := at_boxCapturedLocals.mp hi <;>
      obtain ⟨hsize, hpops, hfalls, hlands, htgt, -, -, -⟩ := sameEffect_box cap j
    · exact hpops ▸ h.pops p j hj
    · exact hsize ▸ hpops ▸ h.falls p j n hj (hfalls ▸ hn)
    · exact hpops ▸ hlands ▸ h.jumps p j t hj hp (htgt ▸ ht)

theorem stackDiscipline_boxCapturedLocals :
    StackDiscipline (boxCapturedLocals cap is) nodes loops ↔ StackDiscipline is nodes loops := by
  simp only [StackDiscipline, depthMap_boxCapturedLocals, at_jump_boxCapturedLocals]

/-- Boxing the captured locals keeps the jumps resolved. -/
theorem JumpsResolved.boxCapturedLocals (h : JumpsResolved is nodes loops) :
    JumpsResolved (boxCapturedLocals cap is) nodes loops where
  boundary p i hi k hk := by
    obtain ⟨j, hj, rfl⟩ := at_boxCapturedLocals.mp hi
    have hsame := sameEffect_box cap j
    obtain ⟨t, ht, hb⟩ := h.boundary p j hj k (hsame.jumpOperands ▸ hk)
    exact ⟨t, hsame.operands ▸ ht, (boundary_map fun i => (sameEffect_box cap i).size).mpr hb⟩
  control n hn hk := by
    obtain ⟨l, hl, hat⟩ := h.control n hn hk
    exact ⟨l, hl, at_jump_boxCapturedLocals.mpr hat⟩

end

/-! ### Function bodies -/

theorem quiet_parameters (ns : List String) : Quiet (parameters ns) := by
  induction ns with
  | nil => exact .pure ()
  | cons name ns ih =>
    have hdeclare : Quiet (discard (declare name) >>= fun _ => parameters ns) :=
      .bind (Quiet.discard (quiet_declare name)) fun _ => ih
    exact .bind .get fun s => .ite (.bind (.fail _) fun _ => hdeclare) hdeclare

/-- The last pop made a return. -/
theorem view_replaceLastPopWithReturn {w u : View}
    (hview : s.view = w.popped u) (hlast : s.scope.lastInstruction = ⟨.opPop, u.stop⟩)
    (hrun : replaceLastPopWithReturn s = .ok () s') :
    s'.view = (u.put ⟨.opReturnValue, []⟩ false).log ⟨.statement, w.stop, u.stop + 1⟩ := by
  have hcode : s.scope.instructions = u.code ++ [⟨.opPop, []⟩] := congrArg View.code hview
  obtain rfl := modifyScope_ok.mp hrun
  have hs : ∀ code, ({ s with scope := { s.scope with
      instructions := code
      lastInstruction := { s.scope.lastInstruction with opcode := .opReturnValue } } } :
        CompilerState).view = { s.view with code := code } := fun _ => rfl
  rw [hs, hlast, hcode]
  have hedit : modifyAt (fun _ => ⟨.opReturnValue, []⟩) u.stop (u.code ++ [⟨.opPop, []⟩]) =
      u.code ++ [⟨.opReturnValue, []⟩] := modifyAt_append _ 0 u.code _
  rw [hedit, hview]
  rfl

/-- A body whose value, if it ends in one, is returned. -/
theorem replaceLastPop_tracks (h : BlockLeaves body flow) (hv : s.view.Wf)
    (hbody : body.body s = .ok () s₁)
    (hends : body.endsInValue = true) (hreturn : replaceLastPopWithReturn s₁ = .ok () s₂) :
    Tracks s.view 0 [] (some 0) flow s₂.view := by
  obtain ⟨w, u, flow₁, flow₂, hw, hu, rfl, hview, hlast⟩ := h.ends hends s s₁ hbody hv
  rw [view_replaceLastPopWithReturn hview hlast hreturn]
  have hput : Tracks w 0 [] none flow₂ (u.put ⟨.opReturnValue, []⟩ false) :=
    hu.put (by decide) rfl (by decide)
  have ht := hput.log (not_isLoopControl_statement) (by simp)
  rw [View.put_stop] at ht
  exact hw.append ht

/-- The end of a body is at depth zero, where control arrives at all. -/
theorem endFunction_tracks (h : BlockLeaves body flow) (hv : s.view.Wf) (hbody : body.body s = .ok () s₁)
    (hend : endFunction body.endsInValue s₁ = .ok () s₂) :
    ∃ d, Tracks s.view 0 [] d flow s₂.view ∧ ∀ c ∈ d, c = 0 := by
  obtain ⟨s', ht, hend⟩ : ∃ s', Tracks s.view 0 [] (some 0) flow s'.view ∧
      (do if !(← lastInstructionIs .opReturnValue) then discard (emit .opReturn) : CompileM Unit) s' =
        .ok () s₂ := by
    rcases ite_ok.mp hend with ⟨hends, hend⟩ | ⟨-, hend⟩
    · obtain ⟨_, s', hreturn, hend⟩ := bind_ok.mp hend
      exact ⟨s', replaceLastPop_tracks h hv hbody hends hreturn, hend⟩
    · exact ⟨s₁, h.body s s₁ hbody hv, hend⟩
  simp only [bind_ok, ite_ok] at hend
  obtain ⟨_, _, ⟨_, _, ⟨rfl, rfl⟩, rfl, rfl⟩, ⟨-, hemit⟩ | ⟨-, -, rfl⟩⟩ := hend
  · obtain ⟨_, hemit⟩ := discard_ok.mp hemit
    obtain ⟨hfits, -, rfl⟩ := emit_ok.mp hemit
    exact ⟨none, ht.put hfits rfl (Int.le_refl 0), by simp⟩
  · exact ⟨some 0, ht, by simp⟩

/-- The end of a body does not look at the loops around the function. -/
theorem endFunction_contexts {b : Bool} {contexts : List LoopContext} {u : Unit}
    (hrun : endFunction b { s with loopContexts := contexts } = .ok u s') :
    ∃ s'', endFunction b s = .ok u s'' ∧ s' = { s'' with loopContexts := contexts } := by
  simp only [endFunction, replaceLastPopWithReturn, lastInstructionIs, bind_ok, ite_ok, get_ok, pure_ok,
    modifyScope_ok, discard_ok, emit_ok] at hrun ⊢
  rcases hrun with ⟨hb, _, _, rfl, _, _, ⟨_, _, ⟨rfl, rfl⟩, rfl, rfl⟩,
      ⟨hlast, _, hfits, -, rfl⟩ | ⟨hlast, -, rfl⟩⟩ |
    ⟨hb, _, _, ⟨_, _, ⟨rfl, rfl⟩, rfl, rfl⟩, ⟨hlast, _, hfits, -, rfl⟩ | ⟨hlast, -, rfl⟩⟩
  · exact ⟨_, .inl ⟨hb, (), _, rfl, _, _, ⟨_, _, ⟨rfl, rfl⟩, rfl, rfl⟩, .inl ⟨hlast, _, hfits, rfl, rfl⟩⟩,
      rfl⟩
  · exact ⟨_, .inl ⟨hb, (), _, rfl, _, _, ⟨_, _, ⟨rfl, rfl⟩, rfl, rfl⟩, .inr ⟨hlast, trivial, rfl⟩⟩, rfl⟩
  · exact ⟨_, .inr ⟨hb, _, _, ⟨_, _, ⟨rfl, rfl⟩, rfl, rfl⟩, .inl ⟨hlast, _, hfits, rfl, rfl⟩⟩, rfl⟩
  · exact ⟨_, .inr ⟨hb, _, _, ⟨_, _, ⟨rfl, rfl⟩, rfl, rfl⟩, .inr ⟨hlast, trivial, rfl⟩⟩, rfl⟩

theorem quiet_nameFunction (name : String) : Quiet (nameFunction name) :=
  .ite (.modify fun _ => rfl) (.pure _)

/-- A function body compiled: nothing of the enclosing stream changes but the constants. -/
theorem functionBody_ok {name : String} (hbody : BlockLeaves body flow) {fn : CompiledFunction}
    {free : List Symbol}
    (hrun : functionBody name params body.body body.endsInValue s = .ok (fn, free) s') :
    ∃ ks, s'.view = { s.view with constants := s.view.constants ++ ks } ∧
      (∀ k, .function k ∈ ks ∨ k = fn → JumpsResolved k.instructions k.nodes k.loops) ∧
      ((∀ k ∈ ks, k.Good) ∧ StackDiscipline fn.instructions fn.nodes fn.loops ↔
        flow.undisciplined = false) := by
  simp only [functionBody, enterScope, withoutLoops, bind_ok, modify_ok, set_ok,
    ensuring_ok] at hrun
  obtain ⟨_, _, rfl, _, s₁, h₁, _, s₂, h₂, _, s₃, ⟨_, _, ⟨rfl, rfl⟩, _, _, rfl, s₄, h₄, rfl⟩, _, s₅, h₅,
    _, s₆, h₆, _, _, ⟨rfl, rfl⟩, _, _, rfl, ⟨rfl, rfl⟩, rfl⟩ := hrun
  obtain ⟨rfl, -⟩ := assertJumpsResolved_ok h₆
  obtain ⟨t, hend, rfl⟩ := endFunction_contexts h₅
  have hview := (quiet_parameters params _ _ _ h₂).trans (quiet_nameFunction name _ _ _ h₁)
  -- the body starts on an empty stream, outside every loop
  have hfresh : ({ s₂ with loopContexts := [] } : CompilerState).view.Fresh := by
    have hs₂ : ({ s₂ with loopContexts := [] } : CompilerState).view = { s₂.view with contexts := [] } :=
      rfl
    rw [hs₂, hview]
    exact ⟨rfl, rfl, rfl, rfl, rfl⟩
  obtain ⟨d, ⟨f, hf, ht⟩, hdep⟩ := endFunction_tracks hbody hfresh.wf h₄ hend
  have hout' : t.outerScopes = s.scope :: s.outerScopes :=
    hf.outer.trans (congrArg View.outer hview)
  have hcs : t.constants = s.constants ++ f.constants :=
    hf.constants.trans (congrArg (View.constants · ++ f.constants) hview)
  have hpend : t.pendingOperands = s.pendingOperands :=
    hf.pending.trans (congrArg View.pending hview)
  have hctxs : s₂.loopContexts = s.loopContexts := congrArg View.contexts hview
  -- leaving the scope restores all but the constants
  refine ⟨f.constants, ?_, ?_, ?_⟩
  · simp [CompilerState.view, CompilerState.leaveScope, hout', hcs, hpend, hctxs]
  · rintro k (hk | rfl)
    · exact hf.functions k hk
    · exact (hf.jumpsResolved hfresh ht.opens ht.inner).boxCapturedLocals
  · have hgood : (∀ k ∈ f.constants, k.Good) ↔ f.FunctionsGood :=
      ⟨fun h fn hfn => h _ hfn fn rfl, fun h k hk fn hfn => h fn (hfn ▸ hk)⟩
    have hdisc := hf.stackDiscipline hfresh ht hdep
    rw [stackDiscipline_boxCapturedLocals, hgood, and_comm]
    refine hdisc.trans ?_
    rw [ht.flow.bad, Bool.not_eq_true]

/-! ### Function literals -/

/-- Constants added to a stream spoil it exactly when one of them is a function that is not good. -/
theorem Progress.addConstants {v₀ v : View} {f : Frag} (h : Progress v₀ f v) (ks : List Constant)
    (hjumps : ∀ fn, .function fn ∈ ks → JumpsResolved fn.instructions fn.nodes fn.loops) :
    ∃ bad, Progress v₀ { f with constants := f.constants ++ ks, bad := bad }
        { v with constants := v.constants ++ ks } ∧ (bad ↔ f.bad ∨ ∃ k ∈ ks, ¬ k.Good) := by
  induction ks generalizing f v with
  | nil => exact ⟨f.bad, by simpa using h, by simp⟩
  | cons k ks ih =>
    have hk := h.addConstant fun fn hfn => hjumps fn (hfn ▸ mem_cons_self)
    obtain ⟨bad, hp, hbad⟩ := ih hk fun fn hfn => hjumps fn (mem_cons_of_mem _ hfn)
    refine ⟨bad, by simpa [Frag.addConstant] using hp, ?_⟩
    simp only [hbad, Frag.addConstant, mem_cons, exists_eq_or_imp, or_assoc]

/-- Constants added to the pool, among them functions. -/
theorem Tracks.addConstants {v₀ v : View} {base : Nat} {opens : List OpenJump} {d : Option Int}
    {assumes : List Mark} (h : Tracks v₀ base opens d flow v assumes)
    (ks : List Constant)
    (hjumps : ∀ fn, .function fn ∈ ks → JumpsResolved fn.instructions fn.nodes fn.loops) {b : Bool}
    (hb : (∀ k ∈ ks, k.Good) ↔ b = false) :
    Tracks v₀ base opens d (flow.join { undisciplined := b })
      { v with constants := v.constants ++ ks } assumes := by
  obtain ⟨f, hf, ht⟩ := h
  obtain ⟨bad, hp, hbad⟩ := hf.addConstants ks hjumps
  have hb' : (∃ k ∈ ks, ¬ k.Good) ↔ b = true := by
    simp only [← Bool.not_eq_false, ← hb, not_forall, exists_prop]
  refine ⟨_, hp, { ht with flow := ⟨?_, ?_, ?_⟩ }⟩
  · simp [hbad, ht.flow.bad, hb', LoopFlow.join]
  · exact ht.flow.control.trans (by simp [LoopFlow.join])
  · exact ht.flow.leaks.trans (by simp [LoopFlow.join])

/-- The captures of a closure push one value each. -/
theorem captures_moves : ∀ (symbols : List Symbol) (n : Nat),
    Moves (symbols.forM emitCapture) n (n + symbols.length) {}
  | [], n => by simpa using (Quiet.pure ()).moves
  | symbol :: symbols, n => by
    have hrest := captures_moves symbols (n + 1)
    refine ((emitCapture_emits symbol).moves (Int.natCast_nonneg n) rfl).after fun _ => ?_
    have hlen : ((n : Int) + (symbol :: symbols).length) = (n + 1 : Nat) + symbols.length := by
      simp only [length_cons]
      omega
    convert hrest using 1
    omega

/-- A function literal leaves one value; a body that is undisciplined spoils the enclosing stream.
-/
theorem functionLiteral_leaves {name : String} {body : CompileM Unit}
    {endsInValue : Bool} (hbody : BlockLeaves ⟨body, endsInValue⟩ flow) :
    Leaves (functionLiteral name params body endsInValue) 1 flow.inFunction := by
  intro s s' hrun hv
  simp only [functionLiteral, bind_ok, within_ok] at hrun
  obtain ⟨⟨fn, free⟩, s₁, h₁, _, s₂, h₂, index, s₃, h₃, h₄⟩ := hrun
  obtain ⟨ks, hs₁, hjumps, hgood⟩ := functionBody_ok hbody h₁
  have hbool : ∀ P : Prop, ∃ b : Bool, P ↔ b = false := fun P => by
    classical exact ⟨!decide P, by simp⟩
  obtain ⟨b₁, hb₁⟩ := hbool (∀ k ∈ ks, k.Good)
  obtain ⟨b₂, hb₂⟩ := hbool (∀ k ∈ [Constant.function fn], k.Good)
  -- the body's constants, the captures, the function, the closure
  have ht := (Tracks.start hv 0).addConstants ks (fun k hk => hjumps k (.inl hk)) hb₁
  rw [← hs₁] at ht
  have ht := (captures_moves free 0).run ht h₂
  have ht := ht.addConstants [.function fn] (fun k hk => hjumps k (.inr (by simpa using hk))) hb₂
  obtain rfl := addConstant_ok h₃
  have ht := ht.emits (EmitsOne.emit (a := free.length) (b := 1) rfl rfl rfl _ _ h₄) (by simp)
  -- the constants are all good exactly when the body is disciplined
  have hflow : (b₁ || b₂) = flow.undisciplined := by
    have hfn : (∀ k ∈ [Constant.function fn], k.Good) ↔
        StackDiscipline fn.instructions fn.nodes fn.loops := by
      simp [Constant.Good]
    rw [hb₁, ← hfn, hb₂] at hgood
    cases b₁ <;> cases b₂ <;> simpa using hgood
  simpa [LoopFlow.join, LoopFlow.inFunction, hflow] using ht

end Mutant.Compiler
