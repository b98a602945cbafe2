import Mutant.Compiler.Equiv.Progress
/-!
# Successful runs of the compiler's actions

For each primitive action, what a run that succeeds did to the state.  Proofs about a construct take
its run apart with these and never unfold an action.

* `emit_ok`, `changeOperand_ok`, `assertJumpsResolved_ok`: the actions that touch the stream;
* `Quiet`: the actions that do not.
-/

namespace Mutant.Compiler

open Mutant.Code Mutant.Ast

variable {α β : Type} {s s' : CompilerState} {m : CompileM α} {a : α} {u : Unit}
  {f after : CompilerState → CompilerState}

/-! ### Control -/

theorem bind_ok {k : α → CompileM β} {b : β} :
    (m >>= k) s = .ok b s' ↔ ∃ a s₁, m s = .ok a s₁ ∧ k a s₁ = .ok b s' := by
  change EStateM.bind m k s = _ ↔ _
  unfold EStateM.bind
  cases m s <;> simp

theorem bind_of_ok (h : m s = .ok a s') (k : α → CompileM β) : (m >>= k) s = k a s' := by
  change EStateM.bind m k s = _
  unfold EStateM.bind
  rw [h]

theorem bind_of_error {e : Failure} (h : m s = .error e s')
    (k : α → CompileM β) : (m >>= k) s = .error e s' := by
  change EStateM.bind m k s = _
  unfold EStateM.bind
  rw [h]

theorem pure_ok {b : α} : (pure a : CompileM α) s = .ok b s' ↔ a = b ∧ s = s' := by
  change EStateM.Result.ok a s = _ ↔ _
  simp

theorem discard_ok : discard m s = .ok u s' ↔ ∃ a, m s = .ok a s' := by
  change EStateM.map _ m s = _ ↔ _
  unfold EStateM.map
  cases m s <;> simp

theorem get_ok {t : CompilerState} : (get : CompileM CompilerState) s = .ok t s' ↔ s = t ∧ s = s' := by
  change EStateM.Result.ok s s = _ ↔ _
  simp

theorem get_bind_ok {k : CompilerState → CompileM β} {b : β} :
    (get >>= k) s = .ok b s' ↔ k s s = .ok b s' := .rfl

theorem set_ok {t : CompilerState} {u : PUnit} :
    (set t : CompileM PUnit) s = .ok u s' ↔ t = s' := by
  change EStateM.Result.ok _ t = _ ↔ _
  simp

theorem modify_ok {u : PUnit} : (modify f : CompileM PUnit) s = .ok u s' ↔ f s = s' := by
  change EStateM.Result.ok _ (f s) = _ ↔ _
  simp

theorem fail_ok {e : CompileError} : (fail e : CompileM α) s = .ok a s' ↔ False := by
  change EStateM.Result.error _ s = _ ↔ _
  simp

theorem ensuring_ok : ensuring m after s = .ok a s' ↔ ∃ s₁, m s = .ok a s₁ ∧ after s₁ = s' := by
  unfold ensuring
  cases m s <;> simp

theorem onError_ok : onError m after s = .ok a s' ↔ m s = .ok a s' := by
  unfold onError
  cases m s <;> simp

theorem within_ok {enclosure : Enclosure} : within enclosure m s = .ok a s' ↔ m s = .ok a s' := by
  unfold within
  cases m s <;> simp

theorem ite_ok {c : Prop} [Decidable c] {m' : CompileM α} :
    (if c then m else m') s = .ok a s' ↔ (c ∧ m s = .ok a s') ∨ (¬ c ∧ m' s = .ok a s') := by
  by_cases h : c <;> simp [h]

/-! ### Emission -/

theorem currentPosition_ok {p : Nat} : currentPosition s = .ok p s' ↔ p = s.view.stop ∧ s = s' := by
  change EStateM.Result.ok (codeSize _) s = _ ↔ _
  simp [CompilerState.view, View.stop, eq_comm]

theorem modifyScope_ok {f : CompilationScope → CompilationScope} :
    modifyScope f s = .ok u s' ↔ { s with scope := f s.scope } = s' := modify_ok

/-- An instruction that fits is put at the end of the stream, and one that does not fit is refused.
-/
theorem emit_ok {op : Opcode} {ops : List Nat} {p : Nat} :
    emit op ops s = .ok p s' ↔
      Instr.Fits ⟨op, ops⟩ ∧ p = s.view.stop ∧
        { s with scope := s.scope.append ⟨op, ops⟩ } = s' := by
  unfold emit make?
  by_cases h : Instr.Fits ⟨op, ops⟩
  · simp only [h, if_true, bind_ok, currentPosition_ok, modifyScope_ok, pure_ok, true_and]
    constructor
    · rintro ⟨_, _, ⟨rfl, rfl⟩, _, _, rfl, rfl, rfl⟩
      exact ⟨rfl, rfl⟩
    · rintro ⟨rfl, rfl⟩
      exact ⟨_, _, ⟨rfl, rfl⟩, (), _, rfl, rfl, rfl⟩
  · simp only [h, if_false, fail_ok, false_and]

theorem view_append (i : Instr) :
    ({ s with scope := s.scope.append i } : CompilerState).view = s.view.put i false := rfl

theorem emitPlaceholder_ok {op : Opcode} {rest : List Nat} {p : Nat}
    (h : emitPlaceholder op rest s = .ok p s') :
    Instr.Fits ⟨op, placeholderTarget :: rest⟩ ∧ p = s.view.stop ∧
      s'.view = s.view.put ⟨op, placeholderTarget :: rest⟩ true := by
  unfold emitPlaceholder at h
  simp only [bind_ok, emit_ok, modifyScope_ok] at h
  obtain ⟨_, _, ⟨hfits, rfl, rfl⟩, _, _, rfl, rfl, rfl⟩ := h
  exact ⟨hfits, rfl, rfl⟩

theorem changeOperand_ok {pos target : Nat} (h : changeOperand pos target s = .ok u s') :
    target ≤ maxOperand 2 ∧ s'.view = s.view.patch pos target := by
  unfold changeOperand at h
  simp only [ite_ok, bind_ok, fail_ok, false_and, exists_false, and_false, false_or,
    Nat.not_lt] at h
  obtain ⟨hle, -, -, ⟨-, rfl⟩, rfl⟩ := h
  refine ⟨hle, ?_⟩
  simp only [CompilerState.view, View.patch, List.filter_map]
  rfl

theorem addConstant_ok {con : Constant} {idx : Nat} (h : addConstant con s = .ok idx s') :
    { s with constants := s.constants ++ [con] } = s' := by
  obtain ⟨_, _, ⟨rfl, rfl⟩, _, _, rfl, -, rfl⟩ := h
  rfl

/-- The check at the end of a stream passes when every open jump lies before the mark. -/
theorem assertJumpsResolved_ok {mark : Nat} {place : String}
    (h : assertJumpsResolved mark place s = .ok u s') : s = s' ∧ ∀ p ∈ s.view.opens, p < mark := by
  unfold assertJumpsResolved at h
  simp only [ite_ok, bind_ok, fail_ok, and_false, false_or, not_not] at h
  obtain ⟨_, _, ⟨rfl, rfl⟩, hnil, -, rfl⟩ := h
  refine ⟨rfl, fun p hp => ?_⟩
  obtain ⟨x, hx, rfl⟩ := List.mem_map.mp hp
  by_contra hlt
  have : x ∈ s.scope.unresolvedJumps.filter (mark ≤ ·.1) := by simp [hx]; omega
  rw [hnil] at this
  exact List.not_mem_nil this

theorem withPending_ok {n : Nat} {m : CompileM Unit} (h : withPending n m s = .ok u s') :
    ∃ s₀ s₁, s₀.view = s.view.addPending n ∧ m s₀ = .ok () s₁ ∧ s'.view = s₁.view.subPending n := by
  unfold withPending at h
  simp only [bind_ok, modify_ok, ensuring_ok] at h
  obtain ⟨_, _, rfl, s₁, hm, rfl⟩ := h
  exact ⟨_, s₁, rfl, hm, rfl⟩

theorem node_ok {kind : NodeKind} {m : CompileM Unit} (h : node kind m s = .ok u s') :
    ∃ s₁, m s = .ok () s₁ ∧ s' = { s₁ with scope := { s₁.scope with
        nodes := ⟨kind, s.view.stop, s₁.view.stop⟩ :: s₁.scope.nodes } } := by
  unfold node at h
  simp only [bind_ok, modifyScope_ok] at h
  obtain ⟨_, _, ⟨rfl, rfl⟩, _, s₁, hm, _, _, ⟨rfl, rfl⟩, rfl⟩ := h
  exact ⟨s₁, hm, rfl⟩

theorem inBlock_ok {m : CompileM Unit} (h : inBlock m s = .ok u s') :
    ∃ s₀ s₁, s₀.view = s.view ∧ m s₀ = .ok () s₁ ∧ s'.scope = s₁.scope ∧ s'.view = s₁.view := by
  unfold inBlock at h
  simp only [bind_ok, modify_ok, ensuring_ok, within_ok] at h
  obtain ⟨_, _, rfl, s₁, hm, rfl⟩ := h
  exact ⟨s.openBlock, s₁, rfl, hm, rfl, rfl⟩

/-! ### Actions that emit nothing -/

/-- An action that leaves the stream alone. -/
def Quiet (m : CompileM α) : Prop := ∀ s a s', m s = .ok a s' → s'.view = s.view

theorem Quiet.bind {k : α → CompileM β} (hm : Quiet m) (hk : ∀ a, Quiet (k a)) :
    Quiet (m >>= k) := by
  intro s b s' h
  obtain ⟨a, s₁, h₁, h₂⟩ := bind_ok.mp h
  exact (hk a s₁ b s' h₂).trans (hm s a s₁ h₁)

theorem Quiet.discard (hm : Quiet m) : Quiet (discard m) := by
  intro s a s' h
  obtain ⟨x, h⟩ := discard_ok.mp h
  exact hm s x s' h

theorem Quiet.pure (a : α) : Quiet (pure a) := by
  intro s b s' h
  rw [(pure_ok.mp h).2]

theorem Quiet.fail (e : CompileError) : Quiet (fail e : CompileM α) := fun _ _ _ h =>
  (fail_ok.mp h).elim

theorem Quiet.get : Quiet get := by
  intro s b s' h
  rw [(get_ok.mp h).2]

theorem Quiet.modify (hf : ∀ s, (f s).view = s.view) : Quiet (modify f) := by
  intro s b s' h
  rw [← modify_ok.mp h, hf]

theorem Quiet.ite {c : Prop} [Decidable c] {m' : CompileM α} (hm : Quiet m) (hm' : Quiet m') :
    Quiet (if c then m else m') := by
  split_ifs
  · exact hm
  · exact hm'

theorem quiet_withTable {f : SymbolTable → α × SymbolTable} : Quiet (withTable f) := by
  intro s a s' h
  cases h
  rfl

theorem quiet_noteDeclared (name : String) : Quiet (noteDeclared name) := by
  refine .modify fun s => ?_
  split_ifs
  · rfl
  · cases s.declScopes <;> rfl

theorem quiet_declare (name : String) : Quiet (declare name) :=
  .bind quiet_withTable fun _ => .bind (quiet_noteDeclared name) fun _ => .pure _

theorem quiet_internalSlot {kind : String} : Quiet (internalSlot kind) := quiet_withTable

theorem quiet_refuseIfNothingIsNew (ns : List String) : Quiet (refuseIfNothingIsNew ns) :=
  .bind .get fun _ => .ite (.fail _) (.pure _)

theorem quiet_checkFieldIsDeclared {structType field : String} {isWrite : Bool} :
    Quiet (checkFieldIsDeclared structType field isWrite) := by
  refine .bind .get fun s => ?_
  split
  · exact .pure _
  · exact .ite (.fail _) (.pure _)

/-- The refusals made before an assignment emit nothing. -/
theorem quiet_checkFirstHop (base : String) (steps : List AssignStep) :
    Quiet (checkFirstHop base steps) := by
  rcases steps with _ | ⟨_ | name, rest⟩
  · exact .pure _
  · exact .pure _
  · refine .ite (.bind .get fun s => ?_) (.pure _)
    split
    · exact .fail _
    · split
      · exact .pure _
      · exact quiet_checkFieldIsDeclared

theorem quiet_resolveField (reg : String → Bool) (left field : String) :
    Quiet (resolveField reg left field) := by
  refine .ite (.pure _) (.bind .get fun s => .ite (.pure _) ?_)
  split
  · exact .pure _
  · exact .bind quiet_withTable fun _ => .ite (.pure _) (.pure _)

theorem quiet_forInBindings (key : Option String) (v : String) : Quiet (forInBindings key v) := by
  refine .bind quiet_withTable fun _ => ?_
  cases key
  · exact .pure _
  · exact .bind quiet_withTable fun _ => .pure _

/-! ### Operators -/

/-- The opcodes binary operators compile to. -/
theorem mem_of_infixOpcode {operator : String} {op : Opcode} (h : infixOpcode operator = some op) :
    op ∈ [.opAdd, .opSub, .opMul, .opDiv, .opMod, .opBitAnd, .opBitOr, .opBitXor, .opShiftLeft,
      .opShiftRight, .opGreater, .opGreaterEqual, .opLess, .opLessEqual, .opEqual, .opUnEqual] := by
  obtain ⟨pre, after, htab, -⟩ := List.lookup_eq_some_iff.mp h
  have hmem : op ∈ (pre ++ (operator, op) :: after).map Prod.snd := by simp
  rw [← htab] at hmem
  exact hmem

/-! ### Function bodies -/

/-- A function's own stream: `functionBody` between `enterScope` and `leaveScope`. -/
def functionStream (name : String) (params : List String) (body : CompileM Unit)
    (endsInValue : Bool) : CompileM Unit := do
  nameFunction name
  parameters params
  withoutLoops body
  endFunction endsInValue
  assertJumpsResolved 0 "this function body"

/-- The end of `functionBody`: the stream is left, and what it came to is answered. -/
def leaveFunction (name : String) (params : List String) :
    CompileM (CompiledFunction × List Symbol) := do
  let s ← get
  set s.leaveScope
  let table := s.symbolTable.table
  return (
    { instructions := boxCapturedLocals table.capturedLocals s.scope.instructions
      numLocals := table.numDefinitions
      numParams := params.length
      capturedLocals := table.capturedLocals
      name, params
      nodes := s.scope.nodes
      loops := s.scope.loops },
    table.freeSymbols)

theorem functionBody_eq (name : String) (params : List String) (body : CompileM Unit)
    (endsInValue : Bool) : functionBody name params body endsInValue = (do
      enterScope
      functionStream name params body endsInValue
      leaveFunction name params) := by
  simp only [functionBody, functionStream, leaveFunction, bind_assoc]

/-! ### Assignment targets -/

section

variable {reg : String → Bool} {left idx : Expr} {name base : String}
  {steps : List AssignStep}

/-- The last step of an indexed target is its index. -/
theorem flattenAssignTarget_index
    (h : flattenAssignTarget reg (.index left idx) = some (base, steps)) :
    ∃ outer, flattenAssignTarget reg left = some (base, outer) ∧
      steps = outer ++ [.index (pureAssignIndex idx) (compileExpr reg idx)] := by
  by_cases hidx : idx = .missing
  · rw [hidx, flattenAssignTarget] at h
    simp at h
  · rw [flattenAssignTarget] at h
    · obtain ⟨⟨_, outer⟩, hleft, heq⟩ := Option.map_eq_some_iff.mp h
      cases heq
      exact ⟨outer, hleft, rfl⟩
    · exact hidx

theorem flattenAssignTarget_field
    (h : flattenAssignTarget reg (.field left name) = some (base, steps)) :
    ∃ outer, flattenAssignTarget reg left = some (base, outer) ∧
      steps = outer ++ [.field name] := by
  obtain ⟨⟨_, outer⟩, hleft, heq⟩ := Option.map_eq_some_iff.mp h
  cases heq
  exact ⟨outer, hleft, rfl⟩

end

end Mutant.Compiler
