import Mutant.Compiler.Equiv.Tree

/-!
# Whole programs

What the accounting comes to for a program, whose modules are compiled one after another into one main
stream.

* `compileModules_jumpsResolved`: every jump of every stream is resolved.
* `compileModules_stackDiscipline_iff`: the streams keep the stack discipline exactly when the syntax
  says that no break or continue leaves an operand behind.
-/

namespace Mutant.Compiler

open Mutant.Code Mutant.Ast

/-! ### The main stream -/

theorem quiet_randomChance : Quiet randomChance := by
  intro s a s' h
  unfold randomChance at h
  split at h <;> cases h <;> rfl

theorem emitChkDbg_moves : Moves emitChkDbg 0 0 {} := by
  have hemit : Moves (discard (emit .opChkDbg)) 0 0 {} := .emit 0 0 rfl rfl rfl (Int.le_refl 0) rfl
  exact hemit.after fun _ => (Quiet.modify (by intro s; rfl)).moves

theorem emitChkSnd_moves : Moves emitChkSnd 0 0 {} := by
  have hemit : Moves (discard (emit .opChkSnd)) 0 0 {} := .emit 0 0 rfl rfl rfl (Int.le_refl 0) rfl
  exact hemit.after fun _ => (Quiet.modify (by intro s; rfl)).moves

/-- The security checks leave the stack alone. -/
theorem maybeEmitRandomSecurityCheckOpcodes_moves :
    Moves maybeEmitRandomSecurityCheckOpcodes 0 0 {} := by
  have hsnd : Moves (do if ← randomChance then emitChkSnd) 0 0 {} :=
    .quiet_bind quiet_randomChance fun _ => .ite (fun _ => emitChkSnd_moves) fun _ =>
      (Quiet.pure ()).moves
  refine .quiet_bind .get fun s => .ite (fun _ => ?_) fun _ => (Quiet.pure ()).moves
  exact .quiet_bind quiet_randomChance fun _ => .ite (fun _ => emitChkDbg_moves.after fun _ => hsnd)
    fun _ => hsnd

theorem ensureRequiredSecurityCheckOpcodes_moves :
    Moves ensureRequiredSecurityCheckOpcodes 0 0 {} := by
  have hsnd : Moves (do if !(← get).hasChkSnd then emitChkSnd) 0 0 {} :=
    .quiet_bind .get fun _ => .ite (fun _ => emitChkSnd_moves) fun _ => (Quiet.pure ()).moves
  refine .quiet_bind .get fun s => .ite (fun _ => ?_) fun _ => (Quiet.pure ()).moves
  exact .quiet_bind .get fun _ => .ite (fun _ => emitChkDbg_moves.after fun _ => hsnd) fun _ => hsnd

/-- The statements of a program leave nothing. -/
theorem programStatements_leaves (registry : String → Bool) (ss : List Stmt) :
    Leaves (programStatements registry ss) 0 (stmtsFlow ss) := by
  induction ss with
  | nil =>
    exact (Quiet.pure ()).moves.leaves
  | cons s ss ih =>
    exact (compileStmt_leaves registry s).leaves.after
      (maybeEmitRandomSecurityCheckOpcodes_moves.after fun _ => ih.moves).leaves

section

variable {registry : String → Bool} {modules : List (Option ModuleScope × Program)}
  {s s₁ s₂ : CompilerState}

theorem CompilerState.AtStart.fresh (hs : s.AtStart) : s.view.Fresh := by
  refine ⟨?_, ?_, ?_, ?_, ?_⟩ <;> simp [CompilerState.view, hs.scope, hs.loopContexts]

theorem compileProgram_leaves (registry : String → Bool) (program : Program) :
    Leaves (compileProgram registry program) 0 (stmtsFlow program.statements) := by
  intro s s₁ hrun hwf
  simp only [compileProgram, bind_ok] at hrun
  obtain ⟨_, _, ⟨rfl, rfl⟩, _, s', h₁, h₂⟩ := hrun
  obtain ⟨rfl, -⟩ := assertJumpsResolved_ok h₂
  exact programStatements_leaves registry program.statements s s' h₁ hwf

/-- The loop control of the modules of a program. -/
def modulesFlow : List (Option ModuleScope × Program) → LoopFlow
  | [] => {}
  | (_, program) :: modules => (stmtsFlow program.statements).join (modulesFlow modules)

theorem modulesFlow_undisciplined :
    (modulesFlow modules).undisciplined = false ↔ ∀ m ∈ modules, Disciplined m.2 := by
  induction modules with
  | nil => simp [modulesFlow]
  | cons m modules ih =>
    rw [List.forall_mem_cons, ← ih, modulesFlow, LoopFlow.join, Bool.or_eq_false_iff, Disciplined]

/-- Entering a module writes nothing, so a module is compiled onto what those before it wrote. -/
theorem compileModules_leaves (registry : String → Bool)
    (modules : List (Option ModuleScope × Program)) :
    Leaves (compileModules registry modules) 0 (modulesFlow modules) := by
  induction modules with
  | nil => exact (Quiet.pure ()).moves.leaves
  | cons m modules ih =>
    obtain ⟨scope, program⟩ := m
    have hmodule := (compileProgram_leaves registry program).after ih
    cases scope with
    | none => exact hmodule
    | some scope =>
      have henter : Quiet (enterModule scope) := .modify fun _ => rfl
      exact (Moves.quiet_bind henter fun _ => hmodule.moves).leaves

theorem compileModules_tracks (hs : s.AtStart)
    (hrun : compileModules registry modules s = .ok () s₁) :
    Tracks s.view 0 [] (some 0) (modulesFlow modules) s₁.view :=
  compileModules_leaves registry modules s s₁ hrun hs.fresh.wf

/-- The functions added to the constants are those the accounting lists. -/
theorem Progress.drop_constants {f : Frag} (h : Progress s.view f s₁.view) :
    s₁.constants.drop s.constants.length = f.constants := by
  have hcs : s₁.constants = s.constants ++ f.constants := h.constants
  rw [hcs, List.drop_left]

theorem Tracks.everyStream_jumpsResolved {flow : LoopFlow} (hs : s.AtStart)
    (h : Tracks s.view 0 [] (some 0) flow s₁.view) :
    EveryStream JumpsResolved s s₁ ∧ s₁.scope.unresolvedJumps = [] := by
  obtain ⟨f, hf, ht⟩ := h
  refine ⟨⟨hf.jumpsResolved hs.fresh ht.opens ht.inner, fun fn hfn => hf.functions fn ?_⟩, ?_⟩
  · rwa [hf.drop_constants] at hfn
  · exact List.map_eq_nil_iff.mp (hf.opens_nil hs.fresh ht.opens)

theorem Tracks.everyStream_stackDiscipline {flow : LoopFlow} (hs : s.AtStart)
    (h : Tracks s.view 0 [] (some 0) flow s₁.view) :
    EveryStream StackDiscipline s s₁ ↔ flow.undisciplined = false := by
  obtain ⟨f, hf, ht⟩ := h
  rw [EveryStream, hf.drop_constants, ← Bool.not_eq_true, ← ht.flow.bad]
  exact hf.stackDiscipline hs.fresh ht (by simp)

/-! ### Jumps -/

/-- When the modules of a program compile, every jump of every stream goes to an instruction of that
stream or to its end, no jump of the main stream is owed a target, and every break and continue goes to
the end or the resumption point of the innermost loop around it.  The checks `ByteCode` may add keep
that. -/
theorem compileModules_jumpsResolved (hs : s.AtStart)
    (hrun : compileModules registry modules s = .ok () s₁) :
    EveryStream JumpsResolved s s₁ ∧ s₁.scope.unresolvedJumps = [] ∧
      ∀ s₂, ensureRequiredSecurityCheckOpcodes s₁ = .ok () s₂ →
        EveryStream JumpsResolved s s₂ ∧ s₂.scope.unresolvedJumps = [] := by
  have ht := compileModules_tracks hs hrun
  obtain ⟨hjumps, hopen⟩ := ht.everyStream_jumpsResolved hs
  refine ⟨hjumps, hopen, fun s₂ h₂ => ?_⟩
  exact (ensureRequiredSecurityCheckOpcodes_moves.run ht h₂).everyStream_jumpsResolved hs

/-- Two loops, a break of the inner one inside a call's argument and a continue of the outer:
`for (v in [1]) { while (true) { f([break]); } continue; }`, with `f` a function of one parameter. -/
def nestedControl : Program := ⟨[ .letIn "f" [] (.function "f" ["x"] [.expression (.ident "x")]),
  .forIn none (some "v") (.array [.integer 1]) [
    .whileLoop (.boolean true) [.expression (.call (.ident "f") [.array [
      .ifThen (.boolean true) [.breakLoop] none]])],
    .continueLoop]]⟩

/-- Whether a run ended without an error. -/
def succeeds (m : CompileM Unit) (s : CompilerState) : Bool :=
  match m s with
  | .ok _ _ => true
  | .error _ _ => false

theorem exists_ok_of_succeeds {m : CompileM Unit} {s : CompilerState} (h : succeeds m s = true) :
    ∃ s', m s = .ok () s' := by
  unfold succeeds at h
  split at h
  · exact ⟨_, ‹_›⟩
  · cases h

/-- A module that uses a name another declares: `while (lib.ready) { break; }`, compiled after
`nestedControl` and `let ready = true;`. -/
def linkedModules : List (Option ModuleScope × Program) := [
  (some ⟨"/lib.mut", "lib.mut", []⟩,
    ⟨.letIn "ready" [] (.boolean true) :: nestedControl.statements⟩),
  (some ⟨"/main.mut", "main.mut", [("lib", "/lib.mut")]⟩,
    ⟨[.whileLoop (.field (.ident "lib") "ready") [.breakLoop]]⟩)]

theorem linkedModules_jumpsResolved :
    ∃ s₁, compileModules (fun _ => false) linkedModules {} = .ok () s₁ ∧
      EveryStream JumpsResolved {} s₁ := by
  obtain ⟨s₁, hrun⟩ := exists_ok_of_succeeds
    (m := compileModules (fun _ => false) linkedModules) (s := {}) (by decide +kernel)
  exact ⟨s₁, hrun, (compileModules_jumpsResolved ⟨rfl, rfl⟩ hrun).1⟩

/-! ### Stack discipline -/

/-- The streams of a program keep the stack discipline exactly when none of the breaks and continues
of its modules stands in the right-hand side of a compound assignment inside its loop whose target
ends in an index that must not be evaluated twice. -/
theorem compileModules_stackDiscipline_iff (hs : s.AtStart)
    (hrun : compileModules registry modules s = .ok () s₁) :
    (EveryStream StackDiscipline s s₁ ↔ ∀ m ∈ modules, Disciplined m.2) ∧
      ∀ s₂, ensureRequiredSecurityCheckOpcodes s₁ = .ok () s₂ →
        (EveryStream StackDiscipline s s₂ ↔ ∀ m ∈ modules, Disciplined m.2) := by
  have ht := compileModules_tracks hs hrun
  rw [← modulesFlow_undisciplined]
  refine ⟨ht.everyStream_stackDiscipline hs, fun s₂ h₂ => ?_⟩
  have ht₂ := ensureRequiredSecurityCheckOpcodes_moves.run ht h₂
  rw [LoopFlow.join_empty] at ht₂
  exact ht₂.everyStream_stackDiscipline hs

theorem linkedModules_stackDiscipline :
    (∀ m ∈ linkedModules, Disciplined m.2) ∧
      ∃ s₁, compileModules (fun _ => false) linkedModules {} = .ok () s₁ ∧
        EveryStream StackDiscipline {} s₁ := by
  have hd : ∀ m ∈ linkedModules, Disciplined m.2 := by decide +kernel
  obtain ⟨s₁, hrun⟩ := exists_ok_of_succeeds
    (m := compileModules (fun _ => false) linkedModules) (s := {}) (by decide +kernel)
  exact ⟨hd, s₁, hrun, (compileModules_stackDiscipline_iff ⟨rfl, rfl⟩ hrun).1.mpr hd⟩

/-- A break in the right-hand side of `a[f()] += …`:
`for (v in a) { a[f()] += if (true) { break; } else { 1 }; }`.  Three operands wait under it, the
array, the index and the element read through the spilled index; the last is not counted, so the break
drops two and leaves one behind. -/
def leakingBreak : Program := ⟨[ .letIn "a" [] (.array [.integer 1]),
  .letIn "f" [] (.function "f" [] [.expression (.integer 0)]),
  .forIn none (some "v") (.ident "a") [.expression (.assign "+"
    (.index (.ident "a") (.call (.ident "f") []))
    (.ifThen (.boolean true) [.breakLoop] (some [.expression (.integer 1)])))]]⟩

theorem leakingBreak_undisciplined :
    ∃ s₁, compileProgram (fun _ => false) leakingBreak {} = .ok () s₁ ∧
      ¬ EveryStream StackDiscipline {} s₁ := by
  obtain ⟨s₁, hrun⟩ := exists_ok_of_succeeds
    (m := compileProgram (fun _ => false) leakingBreak) (s := {}) (by decide +kernel)
  have hstart : ({} : CompilerState).AtStart := ⟨rfl, rfl⟩
  have htracks := compileProgram_leaves _ leakingBreak _ s₁ hrun hstart.fresh.wf
  refine ⟨s₁, hrun, fun h => ?_⟩
  have hflow := (htracks.everyStream_stackDiscipline hstart).mp h
  exact absurd hflow (by decide +kernel)

end

end Mutant.Compiler
