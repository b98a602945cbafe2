import Mutant.Compiler.Equiv.WalkStatements

/-!
# Walks and the tree

The constructs put together, by recursion on the tree: whatever the program, its compilation obeys
every lawful walk.

* `keeps_compileExpr`, `keeps_compileStmt`: an expression and a statement obey the walk wherever the
  places of their nodes are allowed, and the names that the statement declares.
* `keeps_compileProgram`: so does a program.
-/

namespace Mutant.Compiler.Walk

open List Mutant.Code Mutant.Ast

variable {W : Walk} {reach : Reach}

/-- The names a statement declares, as a set. -/
def declared (s : Stmt) : Set String := { name | name ∈ declaredNames s }

theorem nil_mem_stmtsPlaces (ss : List Stmt) : [] ∈ stmtsPlaces ss := by
  induction ss with
  | nil => exact mem_cons_self
  | cons s ss ih => exact mem_append_right _ ih

/-- What the statements of a block or a function may do. -/
def bodyReach (ss : List Stmt) : Reach := ⟨Set.univ, stmtsPlaces ss, nil_mem_stmtsPlaces ss⟩

theorem bodyReach_inside {ss : List Stmt} {enclosure : Enclosure}
    (h : inside enclosure (stmtsPlaces ss) ⊆ reach.places) :
    (bodyReach ss).Inside enclosure reach := ⟨rfl, h⟩

/-! ### The recursion -/

section

variable (reg : String → Bool)

mutual

/-- Every expression obeys the walk, in a reach that has its places. -/
theorem keeps_compileExpr [W.Lawful] : ∀ (e : Expr) {reach : Reach}, exprPlaces e ⊆ reach.places →
    W.Keeps reach (compileExpr reg e)
  | .missing, _, _ => .fail _
  | .ident name, _, _ => keeps_node (keeps_identifier name)
  | .integer value, _, _ => keeps_node keeps_emitConstant
  | .float bits, _, _ => keeps_node keeps_emitConstant
  | .string value, _, _ => keeps_node keeps_emitConstant
  | .boolean value, _, _ => by
    cases value <;> exact keeps_node keeps_emit_discard
  | .template texts parts, _, h => by
    rw [exprPlaces, cons_subset] at h
    exact keeps_node (keeps_templateLiteral (keeps_exprs parts h.2))
  | .array elements, _, h => by
    rw [exprPlaces, cons_subset] at h
    exact keeps_node (keeps_arrayLiteral (keeps_exprs elements h.2))
  | .hash pairs, _, h => by
    rw [exprPlaces, cons_subset] at h
    exact keeps_node (keeps_hashLiteral (keeps_pairs pairs h.2))
  | .unary operator right, _, h => by
    rw [exprPlaces, cons_subset] at h
    exact keeps_node (keeps_unaryExpression operator (keeps_compileExpr right h.2))
  | .binary operator left right, _, h => by
    rw [exprPlaces, cons_subset, append_subset] at h
    exact keeps_node (keeps_binaryExpression operator (keeps_compileExpr left h.2.1)
      (keeps_compileExpr right h.2.2))
  | .index left index, _, h => by
    rw [exprPlaces, cons_subset, append_subset] at h
    exact keeps_node (keeps_indexExpression (keeps_compileExpr left h.2.1)
      (keeps_compileExpr index h.2.2))
  | .field left name, _, h => by
    rw [exprPlaces, cons_subset] at h
    exact keeps_node (keeps_fieldExpression reg _ (keeps_compileExpr left h.2) name)
  | .call function arguments, _, h => by
    rw [exprPlaces, cons_subset, append_subset] at h
    exact keeps_node (keeps_callExpression (keeps_compileExpr function h.2.1)
      (keeps_exprs arguments h.2.2))
  | .ifThen condition consequence alternative, _, h => by
    rw [exprPlaces, cons_subset, append_subset, append_subset] at h
    obtain ⟨-, hcond, hcons, halt⟩ := h
    -- the body is a block, with places of its own inside those of the whole
    have hbody := keeps_compileStmts consequence rfl (Subset.refl (bodyReach consequence).places)
    exact keeps_node (keeps_ifExpression (keeps_compileExpr condition hcond)
      ⟨_, bodyReach_inside hcons, hbody⟩ (keeps_block? alternative halt))
  | .matchOn subject arms, _, h => by
    rw [exprPlaces, cons_subset, append_subset] at h
    exact keeps_node (keeps_matchExpression (keeps_compileExpr subject h.2.1)
      (keeps_arms arms h.2.2))
  | .function name parameters body, _, h => by
    rw [exprPlaces, cons_subset] at h
    have hbody := keeps_compileStmts body rfl (Subset.refl (bodyReach body).places)
    exact keeps_node (keeps_functionLiteral name parameters (bodyReach_inside h.2) hbody _)
  | .macroLit, _, _ => .fail _
  | .assign operator target value, _, h => by
    rw [exprPlaces, cons_subset, append_subset] at h
    obtain ⟨-, htarget, hvalue⟩ := h
    exact keeps_node (keeps_assignExpression operator target (keeps_steps target htarget)
      (keeps_compileExpr target htarget) (keeps_compileExpr value hvalue))
  | .structLit name fields, _, h => by
    rw [exprPlaces, cons_subset] at h
    exact keeps_node (keeps_structLiteral name (keeps_fields fields h.2))

/-- The steps of an assignment's target obey the walk. -/
theorem keeps_steps [W.Lawful] : ∀ (tgt : Expr) {reach : Reach}, exprPlaces tgt ⊆ reach.places →
    ∀ (base : String) (steps : List AssignStep),
      flattenAssignTarget reg tgt = some (base, steps) → ∀ step ∈ steps, W.StepKeeps reach step
  | .ident name, _, _, base, steps, h => by
    obtain ⟨-, rfl⟩ : name = base ∧ [] = steps := by simpa [flattenAssignTarget] using h
    simp
  | .index left index, _, hplaces, base, steps, h => by
    rw [exprPlaces, cons_subset, append_subset] at hplaces
    obtain ⟨outer, hout', rfl⟩ := flattenAssignTarget_index h
    exact forall_mem_append.mpr ⟨keeps_steps left hplaces.2.1 base outer hout',
      forall_mem_singleton.mpr (keeps_compileExpr index hplaces.2.2)⟩
  | .field left name, _, hplaces, base, steps, h => by
    rw [exprPlaces, cons_subset] at hplaces
    obtain ⟨outer, hout', rfl⟩ := flattenAssignTarget_field h
    exact forall_mem_append.mpr ⟨keeps_steps left hplaces.2 base outer hout',
      forall_mem_singleton.mpr trivial⟩
  | .missing, _, _, _, _, h | .integer _, _, _, _, _, h | .float _, _, _, _, _, h
  | .string _, _, _, _, _, h | .boolean _, _, _, _, _, h | .template _ _, _, _, _, _, h
  | .array _, _, _, _, _, h | .hash _, _, _, _, _, h | .unary _ _, _, _, _, _, h
  | .binary _ _ _, _, _, _, _, h | .call _ _, _, _, _, _, h | .ifThen _ _ _, _, _, _, _, h
  | .matchOn _ _, _, _, _, _, h | .function _ _ _, _, _, _, _, h | .macroLit, _, _, _, _, h
  | .assign _ _ _, _, _, _, _, h | .structLit _ _, _, _, _, _, h => by
    simp [flattenAssignTarget] at h

theorem keeps_exprs [W.Lawful] : ∀ (es : List Expr) {reach : Reach}, exprsPlaces es ⊆ reach.places →
    ∀ m ∈ compileExprs reg es, W.Keeps reach m
  | [], _, _ => by simp [compileExprs]
  | e :: es, _, h => by
    rw [exprsPlaces, append_subset] at h
    exact forall_mem_cons.mpr ⟨keeps_compileExpr e h.1, keeps_exprs es h.2⟩

theorem keeps_pairs [W.Lawful] : ∀ (pairs : List (Expr × Expr)) {reach : Reach},
    pairsPlaces pairs ⊆ reach.places →
      ∀ p ∈ compilePairs reg pairs, W.Keeps reach p.1 ∧ W.Keeps reach p.2
  | [], _, _ => by simp [compilePairs]
  | (key, value) :: pairs, _, h => by
    rw [pairsPlaces, append_subset, append_subset] at h
    obtain ⟨hkey, hvalue, hpairs⟩ := h
    exact forall_mem_cons.mpr ⟨⟨keeps_compileExpr key hkey, keeps_compileExpr value hvalue⟩,
      keeps_pairs pairs hpairs⟩

theorem keeps_fields [W.Lawful] : ∀ (fs : List (String × Expr)) {reach : Reach},
    fieldsPlaces fs ⊆ reach.places → ∀ f ∈ compileFields reg fs, W.Keeps reach f.2
  | [], _, _ => by simp [compileFields]
  | (_, value) :: fs, _, h => by
    rw [fieldsPlaces, append_subset] at h
    exact forall_mem_cons.mpr ⟨keeps_compileExpr value h.1, keeps_fields fs h.2⟩

theorem keeps_block? [W.Lawful] : ∀ (body : Option (List Stmt)) {reach : Reach},
    blockPlaces body ⊆ reach.places → ∀ b ∈ compileBlock? reg body, W.BlockKeeps reach b.body
  | none, _, _ => by simp [compileBlock?]
  | some ss, _, h => by
    have hss := keeps_compileStmts ss rfl (Subset.refl (bodyReach ss).places)
    rintro _ ⟨⟩
    exact ⟨_, bodyReach_inside h, hss⟩

theorem keeps_arms [W.Lawful] : ∀ (arms : List MatchArm) {reach : Reach},
    armsPlaces arms ⊆ reach.places → W.ArmsKeep reach (compileArms reg arms)
  | [], _, _ => by simp [compileArms, ArmsKeep]
  | .mk patterns body :: arms, _, h => by
    rw [armsPlaces, append_subset, append_subset] at h
    obtain ⟨hpatterns, hbody, harms⟩ := h
    exact forall_mem_cons.mpr
      ⟨⟨keeps_exprs patterns hpatterns, keeps_block? body hbody⟩, keeps_arms arms harms⟩

theorem keeps_compileStmts [W.Lawful] : ∀ (ss : List Stmt) {reach : Reach}, reach.names = Set.univ →
    stmtsPlaces ss ⊆ reach.places → W.Keeps reach (compileStmts reg ss)
  | [], _, _, _ => .pure ()
  | s :: ss, _, hall, h => by
    rw [stmtsPlaces, append_subset] at h
    exact .bind (keeps_compileStmt s (hall ▸ Set.subset_univ _) h.1) fun _ =>
      keeps_compileStmts ss hall h.2

theorem keeps_expr? [W.Lawful] : ∀ (e : Option Expr) {reach : Reach}, exprPlaces? e ⊆ reach.places →
    ∀ m ∈ compileExpr? reg e, W.Keeps reach m
  | none, _, _ => by simp [compileExpr?]
  | some e, _, h => by
    have he := keeps_compileExpr e h
    rintro _ ⟨⟩
    exact he

theorem keeps_stmt? [W.Lawful] : ∀ (s : Option Stmt) {reach : Reach}, reach.names = Set.univ →
    stmtPlaces? s ⊆ reach.places → ∀ m ∈ compileStmt? reg s, W.Keeps reach m
  | none, _, _, _ => by simp [compileStmt?]
  | some s, _, hall, h => by
    have hs := keeps_compileStmt s (hall ▸ Set.subset_univ _) h
    rintro _ ⟨⟩
    exact hs

/-- Every statement obeys the walk, in a reach that has its names and its places. -/
theorem keeps_compileStmt [W.Lawful] : ∀ (s : Stmt) {reach : Reach}, declared s ⊆ reach.names →
    stmtPlaces s ⊆ reach.places → W.Keeps reach (compileStmt reg s)
  | .missing, _, _, _ => .fail _
  | .expression value, _, _, h => by
    rw [stmtPlaces, cons_subset] at h
    exact keeps_node (keeps_expressionStatement (keeps_compileExpr value h.2))
  | .letIn name ns value, _, hnames, h => by
    rw [stmtPlaces, cons_subset] at h
    exact keeps_node (keeps_letStatement (fun _ hn => hnames hn) (keeps_compileExpr value h.2))
  | .ret values, _, _, h => by
    rw [stmtPlaces, cons_subset] at h
    exact keeps_node (keeps_returnStatement (keeps_exprs values h.2))
  | .block body, _, _, h => by
    rw [stmtPlaces, cons_subset] at h
    have hbody := keeps_compileStmts body rfl (Subset.refl (bodyReach body).places)
    exact keeps_blockStatement ⟨_, bodyReach_inside h.2, hbody⟩
  | .forLoop init condition post body, reach, _, h => by
    rw [stmtPlaces, cons_subset] at h
    -- the loop's own block, which the init, the condition and the post section stand in
    obtain ⟨inner, hin, hplaces⟩ : ∃ inner : Reach, inner.Inside .block reach ∧
        stmtPlaces? init ++ (exprPlaces? condition ++ (exprPlaces? post ++
          inside .block (stmtsPlaces body))) ⊆ inner.places :=
      ⟨⟨Set.univ, _, mem_cons_self⟩, ⟨rfl, h.2⟩, subset_cons_self _ _⟩
    rw [append_subset, append_subset, append_subset] at hplaces
    obtain ⟨hinit, hcond, hpost, hbody'⟩ := hplaces
    have hbody := keeps_compileStmts body rfl (Subset.refl (bodyReach body).places)
    exact keeps_node (keeps_forStatement hin (keeps_stmt? init hin.names hinit)
      (keeps_expr? condition hcond) (keeps_expr? post hpost) ⟨_, bodyReach_inside hbody', hbody⟩)
  | .whileLoop condition body, _, _, h => by
    rw [stmtPlaces, cons_subset, append_subset] at h
    have hcond := keeps_compileExpr condition h.2.1
    have hbody := keeps_compileStmts body rfl (Subset.refl (bodyReach body).places)
    cases condition with
    | missing =>
      exact .fail _
    | _ =>
      rw [compileStmt]
      · exact keeps_node (keeps_whileStatement hcond ⟨_, bodyReach_inside h.2.2, hbody⟩)
      · simp
  | .forIn key value iterable body, reach, _, h => by
    rw [stmtPlaces, cons_subset] at h
    obtain ⟨inner, hin, hplaces⟩ : ∃ inner : Reach, inner.Inside .block reach ∧
        exprPlaces iterable ++ inside .block (stmtsPlaces body) ⊆ inner.places :=
      ⟨⟨Set.univ, _, mem_cons_self⟩, ⟨rfl, h.2⟩, subset_cons_self _ _⟩
    rw [append_subset] at hplaces
    have hbody := keeps_compileStmts body rfl (Subset.refl (bodyReach body).places)
    exact keeps_node (keeps_forInStatement key value hin (keeps_compileExpr iterable hplaces.1)
      ⟨_, bodyReach_inside hplaces.2, hbody⟩)
  | .breakLoop, _, _, _ => keeps_node keeps_breakStatement
  | .continueLoop, _, _, _ => keeps_node keeps_continueStatement
  | .structDecl name fields, _, _, _ => keeps_node (keeps_structStatement name fields)
  | .enumDecl name variants, _, _, _ => keeps_node (keeps_enumStatement name variants)
  | .importModule, _, _, _ => keeps_node (.pure ())

end

end

/-! ### Programs -/

variable [W.Lawful]

theorem keeps_randomChance : W.Keeps reach randomChance := by
  intro s hs
  unfold randomChance
  cases s.chances <;> exact allows_refl hs

theorem keeps_maybeEmitRandomSecurityCheckOpcodes :
    W.Keeps reach maybeEmitRandomSecurityCheckOpcodes := by
  have hdbg : W.Keeps reach emitChkDbg :=
    .bind keeps_emit_discard fun _ => .modify fun _ => rfl
  have hsnd : W.Keeps reach (do if ← randomChance then emitChkSnd) :=
    .bind keeps_randomChance fun _ =>
      .ite (.bind keeps_emit_discard fun _ => .modify fun _ => rfl) (.pure ())
  refine .bind .get fun _ => .ite ?_ (.pure ())
  exact .bind keeps_randomChance fun _ => .ite (.bind hdbg fun _ => hsnd) hsnd

/-- So do the statements of a program. -/
theorem keeps_programStatements (reg : String → Bool) {ss : List Stmt}
    (hnames : ∀ s ∈ ss, declared s ⊆ reach.names) (hplaces : stmtsPlaces ss ⊆ reach.places) :
    W.Keeps reach (programStatements reg ss) := by
  induction ss with
  | nil => exact .pure ()
  | cons s ss ih =>
    rw [stmtsPlaces, append_subset] at hplaces
    have hs : W.Keeps reach (compileStmt reg s) :=
      keeps_compileStmt reg s (hnames s mem_cons_self) hplaces.1
    refine .bind hs fun _ => .bind keeps_maybeEmitRandomSecurityCheckOpcodes fun _ => ?_
    exact ih (forall_mem_cons.mp hnames).2 hplaces.2

/-- What a program may do: the names it declares at its top level are its own, and it may fail at
its own nodes. -/
def programReach (program : Program) : Reach :=
  ⟨{ name | name ∈ topLevelNames program }, stmtsPlaces program.statements, nil_mem_stmtsPlaces _⟩

/-- Every program obeys a lawful walk. -/
theorem keeps_compileProgram (reg : String → Bool) (program : Program) :
    W.Keeps (programReach program) (compileProgram reg program) := by
  refine .bind keeps_currentPosition fun _ => ?_
  refine .bind (keeps_programStatements reg (fun s hs name hname => ?_) (Subset.refl _)) fun _ => ?_
  · exact mem_flatMap.mpr ⟨s, hs, hname⟩
  · exact .bind .get fun _ => .ite (.fail _) (.pure ())

end Mutant.Compiler.Walk
