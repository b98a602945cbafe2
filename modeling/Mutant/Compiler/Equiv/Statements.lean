import Mutant.Compiler.Equiv.Expressions
/-!
# The code of statements

Statements leave nothing on the stack.  A return, a break and a continue do not fall through, and
what follows them is taken to be where the statement began.

* `letStatement_leaves`, `returnStatement_tracks`: what these two do to the stack;
* `LeavesLoop.tracks`: a break or a continue, as a jump handed to its loop.
-/

namespace Mutant.Compiler

open Mutant.Code Mutant.Ast

variable {v : CompileM Unit} {vs : List (CompileM Unit)} {s s' : CompilerState}

/-! ### Simple statements -/

section

variable {flow : LoopFlow}

theorem not_isLoopControl_statement : ¬ NodeKind.statement.IsLoopControl := by
  simp [NodeKind.IsLoopControl]

theorem expressionStatement_leaves (h : Leaves v 1 flow) : Leaves (expressionStatement v) 0 flow :=
  (h.moves.before fun _ => .emit 1 0 rfl rfl rfl (by omega) (by omega)).leaves

/-- An expression statement ends in the pop of its value. -/
theorem expressionStatement_endsInPop (h : Leaves v 1 flow) :
    EndsInPop (node .statement (expressionStatement v)) flow := by
  intro s s' hrun hv
  obtain ⟨s₁, h₁, rfl⟩ := node_ok hrun
  simp only [expressionStatement, bind_ok] at h₁
  obtain ⟨_, s₂, h₂, _, -, -, rfl⟩ := h₁
  refine ⟨s.view, s₂.view, {}, flow, .start hv 0, h s s₂ h₂ hv, by simp, ?_, rfl⟩
  rw [View.popped, show s₂.view.stop + 1 = (s₂.view.put ⟨.opPop, []⟩ false).stop by simp; rfl]
  rfl

/-- Stores into the names, the last one first. -/
theorem bindNames_moves (ns : List String) : Moves (bindNames ns) ns.length 0 {} := by
  induction ns with
  | nil => exact (Quiet.pure ()).moves
  | cons name ns ih =>
    refine .quiet_bind (quiet_declare name) fun sym =>
      ((emitBindingStore_emits sym).moves ?_ ?_).after fun _ => ih
    · simp
    · simp

/-- A `let` leaves nothing: it stores as many values as it has names. -/
theorem letStatement_leaves (name : String) (ns : List String)
    (h : Leaves v 1 flow) : Leaves (letStatement name ns v) 0 flow := by
  refine (Moves.quiet_bind (quiet_refuseIfNothingIsNew _) fun _ => h.moves.before fun _ =>
    .ite (fun _ => ?_) fun _ => ?_).leaves
  · exact .quiet_bind (quiet_declare name) fun sym =>
      (emitBindingStore_emits sym).moves (by omega) rfl
  · generalize (if ns = [] then [name] else ns) = written
    have hbind := bindNames_moves written.reverse
    rw [List.length_reverse] at hbind
    exact Moves.after (.emit 1 written.length rfl rfl rfl (by omega) (by omega)) fun _ => hbind

theorem blockStatement_leaves {body : CompileM Unit} (h : Leaves body 0 flow) :
    Leaves (blockStatement body) 0 flow :=
  Leaves.node h.inBlock not_isLoopControl_statement

theorem quiet_claimTypeName {kind name : String} : Quiet (claimTypeName kind name) := by
  intro s _ s' h
  replace h := get_bind_ok.mp h
  rcases hlook : s.typeOwners.lookup name with _ | owner
  · simp only [hlook, set_ok] at h
    exact h ▸ rfl
  · simp only [hlook, ite_ok, bind_ok, fail_ok, false_and, exists_false, and_false, false_or,
      set_ok] at h
    exact h.2 ▸ rfl

theorem structStatement_leaves (name : String) (fs : List String) :
    Leaves (structStatement name fs) 0 {} := by
  refine (Moves.quiet_bind quiet_claimTypeName fun _ => ?_).leaves
  cases firstRepeated [] fs with
  | some field => exact .fail
  | none => exact Quiet.moves (.modify (by intro s; rfl))

theorem enumStatement_leaves (name : String) (variants : List String) :
    Leaves (enumStatement name variants) 0 {} := by
  refine (Moves.quiet_bind quiet_claimTypeName fun _ => ?_).leaves
  exact Quiet.moves (.modify (by intro s; rfl))

/-! ### Returns -/

/-- A return does not fall through. -/
theorem returnStatement_tracks (h : LeavesAll vs flow) (hv : s.view.Wf)
    (hrun : returnStatement vs s = .ok () s') :
    Tracks s.view 0 [] none flow s'.view := by
  -- several values are packed into one first
  have hreturn : ∀ {s₁ s₂ : CompilerState} {u : Unit} {flow}, Tracks s.view 0 [] (some 1) flow s₁.view →
      discard (emit .opReturnValue) s₁ = .ok u s₂ → Tracks s.view 0 [] none flow s₂.view := by
    intro s₁ s₂ u flow t h
    obtain ⟨_, h⟩ := discard_ok.mp h
    obtain ⟨hfits, -, rfl⟩ := emit_ok.mp h
    exact t.put hfits rfl (Int.le_refl 1)
  match vs, h with
  | [], .nil =>
    obtain ⟨_, h⟩ := discard_ok.mp hrun
    obtain ⟨hfits, -, rfl⟩ := emit_ok.mp h
    exact (Tracks.start hv 0).put hfits rfl (Int.le_refl 0)
  | [v], .cons hval .nil =>
    obtain ⟨_, s₁, h₁, hrun⟩ := bind_ok.mp hrun
    simpa using hreturn (hval s s₁ h₁ hv) hrun
  | first :: second :: rest, h =>
    obtain ⟨_, s₁, h₁, hrun⟩ := bind_ok.mp hrun
    obtain ⟨_, s₂, h₂, hrun⟩ := bind_ok.mp hrun
    have t := (operands_moves h 0).run (.start hv 0) h₁
    have hpack : Moves (discard (emit .opMultiValue [(first :: second :: rest).length]))
        (0 + (first :: second :: rest).length : Nat) 1 {} :=
      .emit (first :: second :: rest).length 1 rfl rfl rfl (by omega) (by omega)
    simpa using hreturn (hpack.run t h₂) hrun

theorem returnNode_leaves (h : LeavesAll vs flow) :
    Leaves (node .statement (returnStatement vs)) 0 flow := by
  intro s s' hrun hv
  obtain ⟨s₁, h₁, rfl⟩ := node_ok hrun
  exact (returnStatement_tracks h hv h₁).log not_isLoopControl_statement (by simp)

/-! ### Breaks and continues -/

theorem Frag.put_pop {f : Frag} {pos : Nat} {c : Int} :
    f.put pos c ⟨.opPop, []⟩ false = f.reach (c - 1) := by
  simp [put, reach, Instr.falls, Instr.pops]

/-- A row of pops, as far as the stack can afford them. -/
theorem pops_progress {v₀ : View} {f : Frag} {c : Int} {k : Nat} {u : Unit}
    (h : Progress v₀ f s.view) (hc : f.depth = some c)
    (haff : ∀ g : Nat, v₀.Affords g → (k : Int) ≤ g + c)
    (hrun : (List.replicate k ()).forM (fun _ => discard (emit .opPop)) s = .ok u s') :
    Progress v₀ (f.reach (c - k)) s'.view := by
  induction k generalizing f c s with
  | zero =>
    obtain ⟨-, rfl⟩ := pure_ok.mp hrun
    have : f.reach (c - (0 : Nat)) = f := by simp [Frag.reach, ← hc]
    rwa [this]
  | succ k ih =>
    obtain ⟨_, s₁, h₁, hrun⟩ := bind_ok.mp hrun
    obtain ⟨_, h₁⟩ := discard_ok.mp h₁
    obtain ⟨hfits, -, rfl⟩ := emit_ok.mp h₁
    -- one pop, which the stack below still affords
    have hput : Progress v₀ (f.put s.view.stop c ⟨.opPop, []⟩ false)
        (s.view.put ⟨.opPop, []⟩ false) := h.put hc hfits (by simp)
      (fun g hgnd => by have := haff g hgnd; simp only [Instr.pops]; omega)
      (by simp [Instr.target?])
    rw [Frag.put_pop] at hput
    have hlast := ih hput rfl (fun g hgnd => by have := haff g hgnd; omega) hrun
    have heq : (f.reach (c - 1)).reach (c - 1 - k) = f.reach (c - (k + 1 : Nat)) := by
      simp only [Frag.reach]
      congr 2
      omega
    rwa [heq] at hlast

/-- What a break or a continue does: it drops what its loop did not find on the stack, and jumps. -/
structure LeavesLoop (s : CompilerState) (bs cs : Nat → List Hole) (s' : CompilerState) : Prop where
  run : ∃ ctx rest s₁ s₂ p, s.loopContexts = ctx :: rest ∧
    emitPendingPops ctx.pendingAtEntry s = .ok () s₁ ∧ emitPlaceholder .opJump [] s₁ = .ok p s₂ ∧
    s'.view = s₂.view.hand (bs p) (cs p) ∧
    (ctx.inLoopStep = true → cs p = [])

theorem leavesLoop_of_break (hrun : breakStatement s = .ok () s') :
    LeavesLoop s (fun p => [⟨p, 0⟩]) (fun _ => []) s' := by
  replace hrun := get_bind_ok.mp hrun
  rcases hctx : s.loopContexts with _ | ⟨ctx, rest⟩
  · simp only [hctx, fail_ok] at hrun
  · simp only [hctx, bind_ok, modifyLoop, modify_ok] at hrun
    obtain ⟨_, s₁, h₁, p, s₂, h₂, rfl⟩ := hrun
    refine ⟨ctx, rest, s₁, s₂, p, hctx, h₁, h₂, ?_, by simp⟩
    simp [CompilerState.view, View.hand, LoopContext.record]

/-- A `continue` pops what is pending and hands its jump to the loop. -/
theorem leavesLoop_of_continue (hrun : continueStatement s = .ok () s') :
    LeavesLoop s (fun _ => []) (fun p => [⟨p, 0⟩]) s' := by
  replace hrun := get_bind_ok.mp hrun
  rcases hctx : s.loopContexts with _ | ⟨ctx, rest⟩
  · simp only [hctx, fail_ok] at hrun
  · simp only [hctx, ite_ok, bind_ok, fail_ok, false_and, exists_false, and_false, false_or,
      modifyLoop, modify_ok] at hrun
    obtain ⟨hstep, _, s₁, h₁, p, s₂, h₂, rfl⟩ := hrun
    refine ⟨ctx, rest, s₁, s₂, p, hctx, h₁, h₂, ?_, fun h => absurd h hstep⟩
    simp [CompilerState.view, View.hand, LoopContext.record]

/-- A jump out of a body is handed to the loop, and what follows it is taken to be where it began.
-/
theorem LeavesLoop.tracks {bs cs : Nat → List Hole} (h : LeavesLoop s bs cs s')
    (hv : s.view.Wf) {kind : NodeKind} (hleaves : kind.leaves = 0)
    (hkind : ∀ f : Frag, ∀ p, p ∈ (f.hand (bs p) (cs p)).waiting kind)
    (hone : ∀ p, bs p ++ cs p = [⟨p, 0⟩]) : Tracks s.view 0 [] (some 0) { control := true }
      (s'.view.log ⟨kind, s.view.stop, s'.view.stop⟩) := by
  obtain ⟨ctx, rest, s₁, s₂, p, hctx, hpops, hjump, hs', hstep⟩ := h
  have hhead : ∀ c ∈ s.view.contexts.head?, c = ctx := by
    intro c hc
    simpa [CompilerState.view, hctx, eq_comm] using hc
  simp only [emitPendingPops, bind_ok, ite_ok, fail_ok, false_and, exists_false, and_false,
    false_or] at hpops
  obtain ⟨_, _, ⟨rfl, rfl⟩, hle, hpops⟩ := hpops
  have hpend : s.view.pending = s.pendingOperands := rfl
  -- the loop noted how much was pending, so the pops can be afforded
  have h₁ := pops_progress (Progress.start hv 0) rfl (fun g hgnd => by
    have := hgnd ctx (by simp [CompilerState.view, hctx])
    omega) hpops
  obtain ⟨hfits, hp, hs₂⟩ := emitPlaceholder_ok hjump
  have hstop : s'.view.stop = p + jumpSize := by
    have hput : (s₁.view.put openJump true).stop = s₁.view.stop + jumpSize := View.put_stop
    rw [hs', hs₂, hp]
    exact hput
  have h₂ : Progress s.view _ (s₁.view.put openJump true) := h₁.put rfl hfits
    (fun _ => openJump_isJump) (fun g hgnd => by
      have := hgnd ctx (by simp [CompilerState.view, hctx])
      rw [openJump_pops]
      omega) (by simp)
  rw [← hp] at h₂
  -- the jump is open until the loop ends
  have h₃ := h₂.hand (e := 0) rfl rfl (hone p) rfl rfl (by simp [CompilerState.view, hctx])
    (fun c hc => hhead c hc ▸ hstep) (fun c hc => by
      rw [hhead c hc]
      simp only
      omega)
  have h₄ := h₃.markStart.log (n := ⟨kind, s.view.stop, s'.view.stop⟩) List.mem_cons_self
    (Nat.le_refl _) (by rw [hs', hs₂]; rfl) (by simp [Frag.hand, Frag.put]) fun _ => by
      rw [hstop]
      exact hkind _ _
  rw [hs', hs₂] at h₄ ⊢
  refine ⟨_, h₄, rfl, rfl, rfl, rfl,
    by simp [Frag.log, Frag.hand, Frag.put, Frag.reach, hleaves], ?_, ?_, ?_⟩
  · simp [Frag.log, Frag.hand, Frag.put, Frag.reach]
  · change bs p ++ cs p ≠ [] ↔ _
    simp [hone]
  · change (∃ h ∈ bs p ++ cs p, _) ↔ _
    simp [hone]

theorem breakNode_leaves : Leaves (node .breakStatement breakStatement) 0 { control := true } := by
  intro s s' hrun hv
  obtain ⟨s₁, h₁, rfl⟩ := node_ok hrun
  exact (leavesLoop_of_break h₁).tracks hv rfl (by simp [Frag.waiting, Frag.hand]) (by simp)

theorem continueNode_leaves :
    Leaves (node .continueStatement continueStatement) 0 { control := true } := by
  intro s s' hrun hv
  obtain ⟨s₁, h₁, rfl⟩ := node_ok hrun
  exact (leavesLoop_of_continue h₁).tracks hv rfl (by simp [Frag.waiting, Frag.hand]) (by simp)

end

end Mutant.Compiler
