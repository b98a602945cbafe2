import Mutant.Compiler.Equiv.Assignment
import Mutant.Compiler.Equiv.Functions
import Mutant.Compiler.Equiv.Matching
/-!
# Every node of the tree

The rules of the constructs put together, by recursion on the tree: compiled code leaves one value
for an expression and none for a statement, and its loop control is what the syntax says.

* `compileExpr_leaves`, `compileStmt_leaves`: every expression and every statement, whatever is in
  it.
-/

namespace Mutant.Compiler

open List Mutant.Code Mutant.Ast

variable {m : CompileM Unit}

/-! ### Syntax -/

/-- An index that may be evaluated twice holds no loop control. -/
theorem exprFlow_of_pure {e : Expr} (h : pureAssignIndex e = true) : exprFlow e = {} := by
  fun_induction pureAssignIndex e with
  | case1 | case2 | case3 | case4 | case5 => simp [exprFlow]
  | case6 left idx ihleft ihindex =>
    obtain ⟨hleft, hidx⟩ := Bool.and_eq_true_iff.mp h
    simp [exprFlow, ihleft hleft, ihindex hidx]
  | case7 left name ih => simp [exprFlow, ih h]
  | case8 => simp at h

theorem exprFlow_of_identName {e : Expr} (h : identName e ≠ none) : exprFlow e = {} := by
  cases e <;> simp_all [identName, exprFlow]

/-! ### Statements in sequence -/

section

variable {flow flow' : LoopFlow}

theorem EndsInPop.after {k : CompileM Unit} (hm : Leaves m 0 flow) (hk : EndsInPop k flow') :
    EndsInPop (m >>= fun _ => k) (flow.join flow') := by
  intro s s' hrun hv
  obtain ⟨_, s₁, h₁, h₂⟩ := bind_ok.mp hrun
  have ht := hm s s₁ h₁ hv
  obtain ⟨w, u, flow₁, flow₂, hw, hu, rfl, hview, hlast⟩ := hk s₁ s' h₂ ht.wf
  exact ⟨w, u, flow.join flow₁, flow₂, ht.append hw, hu, (LoopFlow.join_assoc _ _ _).symm, hview, hlast⟩

theorem Leaves.after {k : CompileM Unit} (hm : Leaves m 0 flow) (hk : Leaves k 0 flow') :
    Leaves (m >>= fun _ => k) 0 (flow.join flow') :=
  (hm.moves.bind fun _ => hk.moves).leaves

end

/-- A statement leaves nothing; an expression statement ends in its pop. -/
structure StmtLeaves (registry : String → Bool) (s : Stmt) : Prop where
  leaves : Leaves (compileStmt registry s) 0 (stmtFlow s)
  ends : ∀ e, s = .expression e → EndsInPop (compileStmt registry s) (stmtFlow s)

section

variable {registry : String → Bool}

/-- The statements of a block one after the other; the last one decides whether a value was thrown
away. -/
theorem blockLeaves_of_each : ∀ {body : List Stmt}, (∀ s ∈ body, StmtLeaves registry s) →
    BlockLeaves ⟨compileStmts registry body, endsInExpressionStatement body⟩ (stmtsFlow body)
  | [], _ => by
    refine ⟨?_, by simp [endsInExpressionStatement]⟩
    exact (Quiet.pure ()).moves.leaves
  | [s], h => by
    have hs := h s mem_cons_self
    rw [compileStmts, compileStmts, stmtsFlow, stmtsFlow, LoopFlow.join_empty, bind_pure_unit]
    refine ⟨hs.leaves, fun hends => ?_⟩
    cases s <;> simp only [endsInExpressionStatement, Bool.false_eq_true] at hends
    exact hs.ends _ rfl
  | s :: t :: ts, h => by
    have hs := h s mem_cons_self
    have hrest := blockLeaves_of_each (forall_mem_cons.mp h).2
    refine ⟨hs.leaves.after hrest.body, fun hends => EndsInPop.after hs.leaves (hrest.ends ?_)⟩
    simpa [endsInExpressionStatement] using hends

/-- Expressions in a row. -/
theorem leavesAll_of_each {es : List Expr}
    (h : ∀ e ∈ es, Leaves (compileExpr registry e) 1 (exprFlow e)) :
    LeavesAll (compileExprs registry es) (exprsFlow es) := by
  induction es with
  | nil =>
    exact .nil
  | cons e es ih =>
    exact .cons (h e mem_cons_self) (ih (forall_mem_cons.mp h).2)

/-- Only as many parts of an interpolated string are compiled as it has texts. -/
theorem leavesParts_of_each {es : List Expr} (n : Nat)
    (h : ∀ e ∈ es, Leaves (compileExpr registry e) 1 (exprFlow e)) :
    LeavesAll ((compileExprs registry es).take n) (partsFlow n es) := by
  induction es generalizing n with
  | nil =>
    cases n <;> exact .nil
  | cons e es ih =>
    cases n with
    | zero => exact .nil
    | succ n =>
      exact .cons (h e mem_cons_self) (ih n (forall_mem_cons.mp h).2)

/-- The pairs of a hash. -/
theorem leavesPairs_of_each {pairs : List (Expr × Expr)}
    (h : ∀ p ∈ pairs, Leaves (compileExpr registry p.1) 1 (exprFlow p.1) ∧
      Leaves (compileExpr registry p.2) 1 (exprFlow p.2)) :
    LeavesPairs (compilePairs registry pairs) (pairsFlow pairs) := by
  induction pairs with
  | nil =>
    exact .nil
  | cons p pairs ih =>
    obtain ⟨hkey, hval⟩ := h _ mem_cons_self
    exact .cons hkey hval (ih (forall_mem_cons.mp h).2)

/-- The values of fields in a row. -/
theorem leavesFields_of_each {fs : List (String × Expr)}
    (h : ∀ f ∈ fs, Leaves (compileExpr registry f.2) 1 (exprFlow f.2)) :
    LeavesAll ((compileFields registry fs).map Prod.snd) (fieldsFlow fs) := by
  induction fs with
  | nil =>
    exact .nil
  | cons f fs ih =>
    exact .cons (h _ mem_cons_self) (ih (forall_mem_cons.mp h).2)

theorem alternativeLeaves_of_each {alt : Option (List Stmt)}
    (h : ∀ ss, alt = some ss → ∀ s ∈ ss, StmtLeaves registry s) :
    (∀ block ∈ compileBlock? registry alt, BlockLeaves block (blockFlow alt)) ∧
      (compileBlock? registry alt = none → blockFlow alt = {}) := by
  cases alt with
  | none => simp [compileBlock?, blockFlow]
  | some ss => simpa [compileBlock?, blockFlow] using blockLeaves_of_each (h ss rfl)

/-- The arms of a `match`. -/
theorem leavesArms_of_each {arms : List MatchArm} (h : ∀ pats body, MatchArm.mk pats body ∈ arms →
      (∀ e ∈ pats, Leaves (compileExpr registry e) 1 (exprFlow e)) ∧
        ∀ ss, body = some ss → ∀ s ∈ ss, StmtLeaves registry s) :
    LeavesArms (compileArms registry arms) (armsFlow arms) := by
  induction arms with
  | nil =>
    exact .nil
  | cons arm arms ih =>
    obtain ⟨pats, body⟩ := arm
    obtain ⟨hpats, hbody⟩ := h pats body mem_cons_self
    cases body with
    | none => exact .missing
    | some ss =>
      exact .cons (leavesAll_of_each hpats) (blockLeaves_of_each (hbody ss rfl))
        (ih fun p b hm => h p b (mem_cons_of_mem _ hm))

end

/-! ### The recursion -/

theorem StmtLeaves.of_leaves {registry : String → Bool} {s : Stmt} (hs : ∀ e, s ≠ .expression e)
    (h : Leaves (compileStmt registry s) 0 (stmtFlow s)) : StmtLeaves registry s :=
  ⟨h, fun e he => absurd he (hs e)⟩

theorem expressionNode_leaves {flow : LoopFlow} (h : Leaves m 1 flow) :
    Leaves (node .expression m) 1 flow :=
  Leaves.node h (by simp [NodeKind.IsLoopControl])

theorem statementNode_leaves {flow : LoopFlow} (h : Leaves m 0 flow) :
    Leaves (node .statement m) 0 flow :=
  Leaves.node h not_isLoopControl_statement

section

variable {registry : String → Bool} {left idx tgt : Expr} {name base : String}
  {steps : List AssignStep}

/-- The last hop of a target. -/
theorem getLast?_flattenAssignTarget
    (h : flattenAssignTarget registry tgt = some (base, steps)) :
    steps.getLast?.any AssignStep.isImpure = endsInImpureIndex tgt := by
  cases tgt with
  | ident name =>
    obtain ⟨-, rfl⟩ : name = base ∧ [] = steps := by simpa [flattenAssignTarget] using h
    rfl
  | index left idx =>
    obtain ⟨outer, -, rfl⟩ := flattenAssignTarget_index h
    simp [endsInImpureIndex, AssignStep.isImpure]
  | field left name =>
    obtain ⟨outer, -, rfl⟩ := flattenAssignTarget_field h
    simp [endsInImpureIndex, AssignStep.isImpure]
  | _ => simp [flattenAssignTarget] at h

end

section

variable (registry : String → Bool)

mutual

/-- Every expression leaves one value, and its loop control is what the syntax says. -/
theorem compileExpr_leaves :
    ∀ e : Expr, Leaves (compileExpr registry e) 1 (exprFlow e)
  | .missing => fun _ _ h => (fail_ok.mp h).elim
  | .ident name => expressionNode_leaves (identifier_leaves name)
  | .integer value => expressionNode_leaves (emitConstant_moves (by simp) (Int.le_refl 0)).leaves
  | .float bits => expressionNode_leaves (emitConstant_moves (by simp) (Int.le_refl 0)).leaves
  | .string value => expressionNode_leaves (emitConstant_moves (by simp) (Int.le_refl 0)).leaves
  | .boolean value => by
    cases value <;> exact expressionNode_leaves (Moves.emit 0 1 rfl rfl rfl (Int.le_refl 0) rfl).leaves
  | .template texts parts =>
    expressionNode_leaves (templateLiteral_leaves (leavesParts_of_each _ (exprs_leaves parts)))
  | .array elements =>
    expressionNode_leaves (arrayLiteral_leaves (leavesAll_of_each (exprs_leaves elements)))
  | .hash pairs =>
    expressionNode_leaves (hashLiteral_leaves (leavesPairs_of_each (pairs_leaves pairs)))
  | .unary operator right =>
    expressionNode_leaves (unaryExpression_leaves operator (compileExpr_leaves right))
  | .binary operator left right =>
    expressionNode_leaves (binaryExpression_leaves operator (compileExpr_leaves left)
      (compileExpr_leaves right))
  | .index left idx => expressionNode_leaves (indexExpression_leaves (compileExpr_leaves left)
      (compileExpr_leaves idx))
  | .field left name =>
    expressionNode_leaves (fieldExpression_leaves registry _ (compileExpr_leaves left)
      exprFlow_of_identName name)
  | .call function arguments =>
    expressionNode_leaves (callExpression_leaves (compileExpr_leaves function)
      (leavesAll_of_each (exprs_leaves arguments)))
  | .ifThen condition consequence alternative => by
    have hcons := blockLeaves_of_each (stmts_leaves consequence)
    have halt := alternativeLeaves_of_each (block_leaves alternative)
    exact expressionNode_leaves (ifExpression_leaves (compileExpr_leaves condition)
      hcons halt.1 halt.2)
  | .matchOn subject arms =>
    expressionNode_leaves (matchExpression_leaves (compileExpr_leaves subject)
      (leavesArms_of_each (arms_leaves arms)))
  | .function name parameters body => expressionNode_leaves
      (functionLiteral_leaves (blockLeaves_of_each (stmts_leaves body)))
  | .macroLit => fun _ _ h => (fail_ok.mp h).elim
  -- what a compound assignment through an impure index adds is in `exprFlow`
  | .assign operator tgt value => expressionNode_leaves (assignExpression_leaves operator tgt
      (steps_leaves tgt) (compileExpr_leaves tgt)
      (compileExpr_leaves value) (endsInImpureIndex tgt) fun _ _ => getLast?_flattenAssignTarget)
  | .structLit name fields =>
    expressionNode_leaves (structLiteral_leaves name (leavesFields_of_each (fields_leaves fields)))

/-- The hops of an assignment target; one that may be compiled twice holds no loop control. -/
theorem steps_leaves : ∀ (tgt : Expr) (base : String)
    (steps : List AssignStep), flattenAssignTarget registry tgt = some (base, steps) →
    LeavesSteps steps (exprFlow tgt)
  | .ident name, base, steps, h => by
    obtain ⟨-, rfl⟩ : name = base ∧ [] = steps := by simpa [flattenAssignTarget] using h
    exact .nil
  | .index left idx, base, steps, h => by
    obtain ⟨outer, hleft, rfl⟩ := flattenAssignTarget_index h
    refine .snoc (steps_leaves left base outer hleft) (compileExpr_leaves idx)
      fun hpure => exprFlow_of_pure ?_
    simpa [AssignStep.isImpure] using hpure
  | .field left name, base, steps, h => by
    obtain ⟨outer, hleft, rfl⟩ := flattenAssignTarget_field h
    have hss : LeavesSteps (outer ++ [.field name]) ((exprFlow left).join {}) :=
      .snoc (steps_leaves left base outer hleft) rfl fun _ => rfl
    rwa [LoopFlow.join_empty] at hss
  | .missing, _, _, h | .integer _, _, _, h | .float _, _, _, h | .string _, _, _, h
  | .boolean _, _, _, h | .template _ _, _, _, h | .array _, _, _, h | .hash _, _, _, h
  | .unary _ _, _, _, h | .binary _ _ _, _, _, h | .call _ _, _, _, h | .ifThen _ _ _, _, _, h
  | .matchOn _ _, _, _, h | .function _ _ _, _, _, h | .macroLit, _, _, h | .assign _ _ _, _, _, h
  | .structLit _ _, _, _, h => by simp [flattenAssignTarget] at h

theorem exprs_leaves :
    ∀ es : List Expr, ∀ e ∈ es, Leaves (compileExpr registry e) 1 (exprFlow e)
  | [] => by simp
  | e :: es => List.forall_mem_cons.mpr ⟨compileExpr_leaves e, exprs_leaves es⟩

theorem pairs_leaves : ∀ pairs : List (Expr × Expr), ∀ p ∈ pairs,
    Leaves (compileExpr registry p.1) 1 (exprFlow p.1) ∧
      Leaves (compileExpr registry p.2) 1 (exprFlow p.2)
  | [] => by simp
  | (key, value) :: pairs => List.forall_mem_cons.mpr
    ⟨⟨compileExpr_leaves key, compileExpr_leaves value⟩, pairs_leaves pairs⟩

theorem fields_leaves : ∀ fs : List (String × Expr), ∀ f ∈ fs,
    Leaves (compileExpr registry f.2) 1 (exprFlow f.2)
  | [] => by simp
  | (_, value) :: fs => List.forall_mem_cons.mpr
    ⟨compileExpr_leaves value, fields_leaves fs⟩

theorem block_leaves : ∀ body : Option (List Stmt),
    ∀ ss, body = some ss → ∀ s ∈ ss, StmtLeaves registry s
  | none => by simp
  | some ss => by
    have hss := stmts_leaves ss
    rintro _ ⟨⟩
    exact hss

/-- The patterns and the bodies of a `match`. -/
theorem arms_leaves : ∀ arms : List MatchArm, ∀ pats body,
    MatchArm.mk pats body ∈ arms →
      (∀ e ∈ pats, Leaves (compileExpr registry e) 1 (exprFlow e)) ∧
        ∀ ss, body = some ss → ∀ s ∈ ss, StmtLeaves registry s
  | [] => by simp
  | .mk pats body :: arms => by
    have harm := And.intro (exprs_leaves pats) (block_leaves body)
    have harms := arms_leaves arms
    intro pats' body' h
    rcases List.mem_cons.mp h with heq | h
    · obtain ⟨rfl, rfl⟩ := MatchArm.mk.inj heq
      exact harm
    · exact harms pats' body' h

theorem stmts_leaves : ∀ ss : List Stmt, ∀ s ∈ ss, StmtLeaves registry s
  | [] => by simp
  | s :: ss => List.forall_mem_cons.mpr ⟨compileStmt_leaves s, stmts_leaves ss⟩

theorem leavesExpr? :
    ∀ e : Option Expr, LeavesOption 1 (compileExpr? registry e) (exprFlow? e)
  | none => .none
  | some e => .some (compileExpr_leaves e)

theorem leavesStmt? :
    ∀ s : Option Stmt, LeavesOption 0 (compileStmt? registry s) (stmtFlow? s)
  | none => .none
  | some s => .some (compileStmt_leaves s).leaves

/-- Every statement leaves nothing. -/
theorem compileStmt_leaves : ∀ s : Stmt, StmtLeaves registry s
  | .expression v => by
    have hval := compileExpr_leaves v
    refine ⟨?_, fun _ _ => ?_⟩ <;> rw [compileStmt, stmtFlow]
    · exact statementNode_leaves (expressionStatement_leaves hval)
    · exact expressionStatement_endsInPop hval
  | .missing => by
    refine ⟨?_, by simp⟩
    exact fun _ _ h => (fail_ok.mp h).elim
  | .letIn name ns v =>
    .of_leaves nofun <| statementNode_leaves (letStatement_leaves name ns (compileExpr_leaves v))
  | .ret vs => .of_leaves nofun <| returnNode_leaves (leavesAll_of_each (exprs_leaves vs))
  | .block body =>
    .of_leaves nofun <| blockStatement_leaves (blockLeaves_of_each (stmts_leaves body)).body
  | .forLoop init cond post body =>
    .of_leaves nofun <| statementNode_leaves (forStatement_leaves (leavesStmt? init)
      (leavesExpr? cond) (leavesExpr? post) (blockLeaves_of_each (stmts_leaves body)).body)
  | .whileLoop cond body => by
    refine ⟨?_, by simp⟩
    have hbody := (blockLeaves_of_each (stmts_leaves body)).body
    have hcond := compileExpr_leaves cond
    cases cond with
    -- without a condition the compiler fails
    | missing =>
      exact fun _ _ h => (fail_ok.mp h).elim
    | _ =>
      rw [compileStmt]
      · exact statementNode_leaves (whileStatement_leaves hcond hbody)
      · simp
  | .forIn key v iterable body =>
    .of_leaves nofun <| statementNode_leaves (forInStatement_leaves (compileExpr_leaves iterable)
      (blockLeaves_of_each (stmts_leaves body)).body)
  | .breakLoop => .of_leaves nofun <| breakNode_leaves
  | .continueLoop => .of_leaves nofun <| continueNode_leaves
  | .structDecl name fs =>
    .of_leaves nofun <| statementNode_leaves (structStatement_leaves name fs)
  | .enumDecl name variants =>
    .of_leaves nofun <| statementNode_leaves (enumStatement_leaves name variants)
  | .importModule => .of_leaves nofun <| statementNode_leaves (Quiet.pure ()).moves.leaves

end

end

end Mutant.Compiler
