import Mutant.Compiler.Equiv.WalkExpressions

/-!
# Walks, fields, assignments and statements

The remaining constructs obey a lawful walk when their parts do.

* `Walk.keeps_fieldExpression`, `Walk.keeps_structLiteral`: reading a field, building a struct;
* `Walk.keeps_assignExpression`: an assignment, through `Walk.keeps_assignThroughSteps`;
* `Walk.keeps_forStatement`, `Walk.keeps_forInStatement`: the loops, through `Walk.keeps_loopTail`.
-/

namespace Mutant.Compiler.Walk

open List Mutant.Code Mutant.Ast

variable {left emitValue v body : CompileM Unit} {fs : List (String × CompileM Unit)}
  {steps : List AssignStep} {bound : List String} {post : Option (CompileM Unit)}

variable {W : Walk} [hW : W.Lawful] {reach inner : Reach}

/-! ### Fields and structs -/

theorem keeps_checkFieldIsDeclared {structType field : String} {isWrite : Bool} :
    W.Keeps reach (checkFieldIsDeclared structType field isWrite) := by
  refine .bind .get fun s => ?_
  cases s.structDefinitions.lookup structType with
  | none => exact .pure ()
  | some declared => exact .ite (.fail _) (.pure ())

theorem keeps_resolveField (reg : String → Bool) (left field : String) :
    W.Keeps reach (resolveField reg left field) := by
  refine .ite (.pure _) (.bind .get fun s => .ite (.pure _) ?_)
  cases s.symbolTable.lookupNamespace left with
  | some key => exact .pure _
  | none => exact .bind (keeps_resolve left) fun _ => .ite (.pure _) (.pure _)

theorem keeps_fieldRead (hleft : W.Keeps reach left) (field : String) :
    W.Keeps reach (fieldRead left field) :=
  .bind hleft fun _ => .bind (keeps_addConstant _) fun _ => keeps_emit_discard

/-- A field read obeys the walk whichever of the meanings of `name.field` applies. -/
theorem keeps_fieldExpression (reg : String → Bool) (name : Option String)
    (hleft : W.Keeps reach left) (field : String) :
    W.Keeps reach (fieldExpression reg name left field) := by
  cases name with
  | none => exact keeps_fieldRead hleft field
  | some ident =>
    refine .bind (keeps_resolveField reg ident field) fun resolution => ?_
    cases resolution with
    | enumValue =>
      refine .bind (keeps_addConstant _) fun _ => ?_
      exact .bind (keeps_addConstant _) fun _ => keeps_emit_discard
    | moduleMember key =>
      refine .bind .get fun s => ?_
      cases s.symbolTable.resolveIn key field with
      | none => exact .fail _
      | some sym => exact keeps_loadSymbol sym
    | builtinFold flat => exact keeps_loadSymbol _
    | refused refusal => exact .fail _
    -- only this branch compiles the left side
    | valueAccess =>
      refine .bind .get fun s => ?_
      cases structTypeOfBinding s ident with
      | none => exact keeps_fieldRead hleft field
      | some structType =>
        exact .bind keeps_checkFieldIsDeclared fun _ => keeps_fieldRead hleft field

theorem nulFree_append {s s' : String} (h : NulFree s) (h' : NulFree s') : NulFree (s ++ s') := by
  intro c hc
  rw [String.toList_append] at hc
  exact (mem_append.mp hc).elim (h c) (h' c)

theorem nulFree_toString (n : Nat) : NulFree (toString n) := by
  intro c hc
  have hmem : c ∈ Nat.toDigits 10 n := by
    rw [Nat.toString_eq_repr, Nat.repr, String.toList_ofList] at hc
    exact hc
  have hdig := Nat.isDigit_of_mem_toDigits (by decide) (by decide) hmem
  rintro rfl
  exact absurd hdig (by decide)

/-- The kind of the slot that holds an initialiser. -/
theorem nulFree_structSlot (d pos : Nat) :
    NulFree ("struct " ++ toString d ++ " " ++ toString pos) :=
  nulFree_append (nulFree_append (nulFree_append (by decide) (nulFree_toString d)) (by decide))
    (nulFree_toString pos)

theorem keeps_spillFields (d : Nat) (h : ∀ f ∈ fs, W.Keeps reach f.2) (pos : Nat) :
    W.Keeps reach (spillFields d pos fs) := by
  induction fs generalizing pos with
  | nil => exact .pure _
  | cons f fs ih =>
    refine .bind (h f mem_cons_self) fun _ => ?_
    refine .bind (keeps_internalSlot (nulFree_structSlot d pos)) fun _ => ?_
    refine .bind (keeps_emitStoreOnly _) fun _ => ?_
    exact .bind (ih (forall_mem_cons.mp h).2 _) fun _ => .pure _

theorem keeps_loadFields (sname : String) (slots : List (String × Symbol))
    (declared : List String) : W.Keeps reach (loadFields sname slots declared) := by
  induction declared with
  | nil => exact .pure ()
  | cons field declared ih =>
    unfold Mutant.Compiler.loadFields
    cases slots.lookup field with
    | none => exact .fail_bind _
    | some slot => exact .bind (keeps_loadSymbol slot) fun _ => ih

theorem keeps_emitStructFieldsInSourceOrder (sname : String) (h : ∀ f ∈ fs, W.Keeps reach f.2)
    (declared : List String) : W.Keeps reach (emitStructFieldsInSourceOrder sname fs declared) :=
  .bind .get fun _ => .bind (.modify fun _ => rfl) fun _ => .ensuring
    (.bind (keeps_spillFields _ h 0) fun slots => keeps_loadFields sname slots declared)
    fun _ => rfl

/-- A struct literal obeys the walk when its fields do. -/
theorem keeps_structLiteral (sname : String)
    (h : ∀ f ∈ fs, W.Keeps reach f.2) : W.Keeps reach (structLiteral sname fs) := by
  refine .bind .get fun s => ?_
  cases s.structDefinitions.lookup sname with
  | none => exact .fail _
  | some declared =>
    dsimp only
    cases firstRepeated [] (fs.map Prod.fst) with
    | some field => exact .fail _
    | none =>
      refine .ite (.fail_bind _) (.bind (keeps_addConstant _) fun _ => ?_)
      -- the fields in declared order, or in source order and loaded back in the declared one
      refine .ite (.bind (keeps_operands ?_ 0) fun _ => keeps_emit_discard)
        (.bind (keeps_emitStructFieldsInSourceOrder sname h declared) fun _ =>
          keeps_emit_discard)
      intro m hm
      obtain ⟨f, hf, rfl⟩ := mem_map.mp hm
      exact h f hf

/-! ### Assignment -/

/-- The index of a hop obeys the walk. -/
def StepKeeps (W : Walk) (reach : Reach) : AssignStep → Prop
  | .index _ compile => W.Keeps reach compile
  | .field _ => True

section

variable {sym : Symbol} {indexSlot : Option Symbol} {steps : List AssignStep}

/-- Reading along a path obeys the walk: one pushed operand is pending below each index. -/
theorem keeps_pathSteps (hss : ∀ step ∈ steps, W.StepKeeps reach step) :
    W.Keeps reach (pathSteps indexSlot steps) := by
  induction steps with
  | nil => exact .pure ()
  | cons step rest ih =>
    have hstep := hss step mem_cons_self
    have hrest := ih (forall_mem_cons.mp hss).2
    cases step with
    | field name =>
      exact .bind (keeps_addConstant _) fun _ => .bind keeps_emit_discard fun _ => hrest
    | index isPure comp =>
      -- an index is recomputed, or loaded from the slot it was spilled to
      have hidx : W.Keeps reach (do
          discard (emit .opIndex); Mutant.Compiler.pathSteps indexSlot rest) :=
        .bind keeps_emit_discard fun _ => hrest
      unfold Mutant.Compiler.pathSteps
      split
      · exact .bind (keeps_loadSymbol _) fun _ => hidx
      · exact .bind (keeps_withPending 1 hstep) fun _ => hidx

theorem keeps_emitPathLoad (hss : ∀ step ∈ steps, W.StepKeeps reach step) :
    W.Keeps reach (emitPathLoad sym steps indexSlot) :=
  .bind (keeps_loadSymbol _) fun _ => keeps_pathSteps hss

/-- The store through the last step obeys the walk, with its index spilled or not. -/
theorem keeps_storeThrough {last : AssignStep}
    (hlast : W.StepKeeps reach last) (hval : W.Keeps reach emitValue) :
    W.Keeps reach (storeThrough last indexSlot emitValue) := by
  cases last with
  | field name =>
    refine .bind (keeps_withPending 1 hval) fun _ => ?_
    exact .bind (keeps_addConstant _) fun _ => keeps_emit_discard
  | index isPure comp =>
    refine .bind (keeps_withPending 1 hlast) fun _ => ?_
    have hend : W.Keeps reach (do withPending 2 emitValue; discard (emit .opSetIndex)) :=
      .bind (keeps_withPending 2 hval) fun _ => keeps_emit_discard
    cases indexSlot with
    | none => exact hend
    | some slot =>
      exact .bind (keeps_emitStoreOnly slot) fun _ => .bind (keeps_loadSymbol slot) fun _ => hend

/-- The stores of an assignment obey the walk, from the last step outwards. -/
theorem keeps_emitAssignChain
    {indexSlot : Option Symbol} (hss : ∀ step ∈ steps, W.StepKeeps reach step)
    (hval : W.Keeps reach emitValue) :
    W.Keeps reach (emitAssignChain sym steps indexSlot emitValue) := by
  -- each store is the value of the next one outwards
  induction steps generalizing indexSlot emitValue with
  | nil => exact .pure ()
  | cons last outer ih =>
    have hsto : W.Keeps reach (storeThrough last indexSlot emitValue) :=
      keeps_storeThrough (hss last mem_cons_self) hval
    have hout' : ∀ step ∈ outer, W.StepKeeps reach step := (forall_mem_cons.mp hss).2
    cases outer with
    | nil =>
      exact .bind (keeps_loadSymbol _) fun _ => .bind hsto fun _ => keeps_emitStoreOnly _
    | cons step outer =>
      refine ih hout' (.bind (keeps_emitPathLoad ?_) fun _ => hsto)
      exact fun step hmem => hout' step (mem_reverse.mp hmem)

end

/-- The refusals made before an assignment is compiled obey the walk. -/
theorem keeps_checkFirstHop (base : String) (steps : List AssignStep) :
    W.Keeps reach (checkFirstHop base steps) := by
  rcases steps with _ | ⟨_ | name, rest⟩
  · exact .pure ()
  · exact .pure ()
  · refine .ite (.bind .get fun s => ?_) (.pure ())
    cases s.symbolTable.lookupNamespace base with
    | some key => exact .fail _
    | none =>
      cases structTypeOfBinding s base with
      | none => exact .pure ()
      | some structType => exact keeps_checkFieldIsDeclared

/-- An assignment through at least one step obeys the walk. -/
theorem keeps_assignThroughSteps (base : String) (tgt : Expr) (foldOperator : String)
    (hss : ∀ step ∈ steps, W.StepKeeps reach step) (hval : W.Keeps reach v) :
    W.Keeps reach (assignThroughSteps base steps tgt foldOperator v) := by
  refine .bind (keeps_checkFirstHop base steps) fun _ => .bind (keeps_resolve base) fun x => ?_
  cases x with
  | none => exact .fail _
  | some sym =>
    refine .ite (.fail_bind _) (.bind (keeps_internalSlot (by decide)) fun spill => ?_)
    -- the assignment itself, once it is settled whether the last index is spilled
    have hassign : ∀ indexSlot, W.Keeps reach (do
        emitAssignChain sym steps.reverse indexSlot (do
          if foldOperator ≠ "" then foldedValue foldOperator sym steps indexSlot v
          else v
          emitStoreOnly spill
          loadSymbol spill)
        loadSymbol spill) := by
      intro indexSlot
      have hsp : W.Keeps reach (do emitStoreOnly spill; loadSymbol spill) :=
        .bind (keeps_emitStoreOnly _) fun _ => keeps_loadSymbol _
      have hfolded : W.Keeps reach (foldedValue foldOperator sym steps indexSlot v) :=
        .bind (keeps_emitPathLoad hss) fun _ => .bind hval fun _ => keeps_operator _ _
      refine .bind (keeps_emitAssignChain (by simpa using hss) ?_) fun _ => keeps_loadSymbol _
      exact .ite (.bind hfolded fun _ => hsp) (.bind hval fun _ => hsp)
    have hslot : W.Keeps reach (some <$> internalSlot "assignindex") := by
      exact .bind (keeps_internalSlot (by decide)) fun _ => .pure _
    exact .ite (.bind hslot hassign) (.bind (.pure _) hassign)

/-- An assignment expression obeys the walk when its target's steps, its target and its value do. -/
theorem keeps_assignExpression (op : String) (tgt : Expr)
    {flattened : Option (String × List AssignStep)}
    (hss : ∀ base steps, flattened = some (base, steps) → ∀ step ∈ steps, W.StepKeeps reach step)
    (hleft : W.Keeps reach left) (hval : W.Keeps reach v) :
    W.Keeps reach (assignExpression op tgt flattened left v) := by
  cases flattened with
  | none => exact .fail _
  | some parts =>
    obtain ⟨base, steps⟩ := parts
    have hread : ∀ c : Prop, [Decidable c] → W.Keeps reach (if c then
        node .expression (binaryExpression op left v) else v) := fun c _ =>
      .ite (keeps_node (keeps_binaryExpression op hleft hval)) hval
    refine .ite (.bind (hread _) fun _ => .bind (keeps_resolve base) fun x => ?_)
      (keeps_assignThroughSteps base tgt _ (hss base steps rfl) (hread _))
    cases x with
    | none => exact .fail _
    | some sym => exact .bind (keeps_emitStoreOnly sym) fun _ => keeps_loadSymbol sym

/-! ### Statements -/

theorem keeps_expressionStatement (h : W.Keeps reach v) :
    W.Keeps reach (expressionStatement v) := .bind h fun _ => keeps_emit_discard

theorem keeps_bindNames (h : ∀ name ∈ bound, name ∈ reach.names) : W.Keeps reach (bindNames bound) := by
  induction bound with
  | nil => exact .pure ()
  | cons name bound ih =>
    refine .bind (keeps_declare (h name mem_cons_self)) fun _ => ?_
    exact .bind (keeps_emitBindingStore _) fun _ => ih (forall_mem_cons.mp h).2

theorem keeps_letStatement {name : String}
    (h : ∀ n ∈ letNames name bound, n ∈ reach.names) (hval : W.Keeps reach v) :
    W.Keeps reach (letStatement name bound v) := by
  refine .bind (.bind .get fun _ => .ite (.fail _) (.pure _)) fun _ => .bind hval fun _ => ?_
  rcases bound with _ | ⟨first, _ | ⟨second, rest⟩⟩
  · exact .bind (keeps_declare (h name (by simp [letNames]))) fun _ => keeps_emitBindingStore _
  · exact .bind (keeps_declare (h name (by simp [letNames]))) fun _ => keeps_emitBindingStore _
  · refine .bind keeps_emit_discard fun _ => keeps_bindNames fun n hn => h n ?_
    simpa [letNames] using mem_reverse.mp hn

theorem keeps_returnStatement {vs : List (CompileM Unit)} (h : ∀ m ∈ vs, W.Keeps reach m) :
    W.Keeps reach (returnStatement vs) := by
  rcases vs with _ | ⟨v, _ | ⟨value', vs⟩⟩
  · exact keeps_emit_discard
  · exact .bind (h v mem_cons_self) fun _ => keeps_emit_discard
  · refine .bind (keeps_operands h 0) fun _ => ?_
    exact .bind keeps_emit_discard fun _ => keeps_emit_discard

theorem keeps_blockStatement (h : W.BlockKeeps reach body) :
    W.Keeps reach (blockStatement body) := by
  obtain ⟨inner, hin, hbody⟩ := h
  exact keeps_node (keeps_inBlock hin hbody)

/-- Claiming the name of a type obeys the walk: it only refuses, or does nothing. -/
theorem keeps_claimTypeName {kind name : String} : W.Keeps reach (claimTypeName kind name) := by
  intro s hs
  unfold claimTypeName
  rw [bind_of_ok (m := get) rfl]
  cases s.typeOwners.lookup name with
  | none => exact allows_refl hs
  | some owner =>
    dsimp only
    split_ifs
    · exact hW.fail hs
    · exact allows_refl hs

theorem keeps_structStatement (name : String) (fs : List String) :
    W.Keeps reach (structStatement name fs) := by
  refine .bind keeps_claimTypeName fun _ => ?_
  cases firstRepeated [] fs with
  | some field => exact .fail _
  | none => exact .modify fun _ => rfl

theorem keeps_enumStatement (name : String) (variants : List String) :
    W.Keeps reach (enumStatement name variants) :=
  .bind keeps_claimTypeName fun _ => .modify fun _ => rfl

/-! ### Loops -/

/-- What the three loops share obeys the walk. -/
theorem keeps_loopTail (start head exitJump : Nat) (resumesAtHead cursor : Bool)
    {step : CompileM Unit} (hbody : W.BlockKeeps reach body) (hstep : W.Keeps reach step) :
    W.Keeps reach (loopTail start head exitJump resumesAtHead cursor body step) := by
  have hloop : W.Keeps reach currentLoop := .bind .get fun _ => .pure _
  refine .bind keeps_currentPosition fun _ => .bind (.modify fun _ => rfl) fun _ => ?_
  refine .bind (.onError (keeps_blockStatement hbody) fun _ => rfl) fun _ => ?_
  refine .bind keeps_currentPosition fun _ => .bind hloop fun _ => ?_
  refine .bind keeps_changeOperands fun _ => .bind hstep fun _ => ?_
  refine .bind (keeps_emit _ _) fun _ => .bind keeps_currentPosition fun _ => ?_
  refine .bind keeps_changeOperand fun _ => .bind hloop fun _ => ?_
  exact .bind keeps_changeOperands fun _ => .bind (.modify fun _ => rfl) fun _ => .modify fun _ => rfl

theorem keeps_whileStatement {cond : CompileM Unit} (hcond : W.Keeps reach cond)
    (hbody : W.BlockKeeps reach body) : W.Keeps reach (whileStatement cond body) :=
  .bind keeps_currentPosition fun _ => .bind hcond fun _ =>
    .bind keeps_emitPlaceholder fun _ => keeps_loopTail _ _ _ _ _ hbody (.pure ())

theorem keeps_forStep (hpost : ∀ m ∈ post, W.Keeps reach m) : W.Keeps reach (forStep post) := by
  cases post with
  | none => exact .modify fun _ => rfl
  | some post =>
    refine .bind (.modify fun _ => rfl) fun _ => ?_
    refine .bind (.onError (hpost post rfl) fun _ => rfl) fun _ => ?_
    exact .bind keeps_emit_discard fun _ => .modify fun _ => rfl

/-- A `for` obeys the walk in its own block. -/
theorem keeps_forStatement {init cond : Option (CompileM Unit)} (hin : inner.Inside .block reach)
    (hinit : ∀ m ∈ init, W.Keeps inner m) (hcond : ∀ m ∈ cond, W.Keeps inner m)
    (hpost : ∀ m ∈ post, W.Keeps inner m) (hbody : W.BlockKeeps inner body) :
    W.Keeps reach (forStatement init cond post body) := by
  have hinit' : W.Keeps inner (init.getD (pure ())) := by
    cases init with
    | none => exact .pure ()
    | some m => exact hinit m rfl
  have hcond' : W.Keeps inner (forCondition cond) := by
    cases cond with
    | none => exact keeps_emit_discard
    | some m => exact hcond m rfl
  refine keeps_inBlock hin (.bind keeps_currentPosition fun _ => .bind hinit' fun _ => ?_)
  refine .bind keeps_currentPosition fun _ => .bind hcond' fun _ => ?_
  exact .bind keeps_emitPlaceholder fun _ => keeps_loopTail _ _ _ _ _ hbody (keeps_forStep hpost)

theorem keeps_forInBindings (hall : reach.names = Set.univ) (key : Option String) (v : String) :
    W.Keeps reach (forInBindings key v) := by
  refine .bind (keeps_define (hall ▸ Set.mem_univ v)) fun _ => ?_
  cases key with
  | none => exact .pure _
  | some key => exact .bind (keeps_define (hall ▸ Set.mem_univ key)) fun _ => .pure _

/-- A `for in` obeys the walk in its own block. -/
theorem keeps_forInStatement (key v : Option String) {iterable : CompileM Unit}
    (hin : inner.Inside .block reach) (hit : W.Keeps inner iterable)
    (hbody : W.BlockKeeps inner body) : W.Keeps reach (forInStatement key v iterable body) := by
  refine keeps_inBlock hin ?_
  cases v with
  | none => exact .fail _
  | some v =>
    refine .ite (.fail_bind _) (.bind keeps_currentPosition fun _ => .bind hit fun _ => ?_)
    refine .bind keeps_emit_discard fun _ => .bind (keeps_forInBindings hin.names key v) fun r => ?_
    obtain ⟨valueSymbol, keySymbol⟩ := r
    refine .bind keeps_currentPosition fun _ => .bind keeps_emitPlaceholder fun exitJump => ?_
    refine .bind (keeps_emitBindingStore _) fun _ => ?_
    -- the rest is the same with a key and without
    have hloop : ∀ start head, W.Keeps inner (do
        loopTail start head exitJump true true body (pure ())
        discard (emit .opPop)) := fun _ _ =>
      .bind (keeps_loopTail _ _ _ _ _ hbody (.pure ())) fun _ => keeps_emit_discard
    cases keySymbol with
    | none => exact hloop _ _
    | some keySymbol => exact .bind (keeps_emitBindingStore keySymbol) fun _ => hloop _ _

theorem keeps_emitPendingPops {e : Nat} : W.Keeps reach (emitPendingPops e) :=
  .bind .get fun _ => .ite (.fail_bind _) (.forM fun _ _ => keeps_emit_discard)

theorem keeps_breakStatement : W.Keeps reach breakStatement := by
  refine .bind .get fun s => ?_
  cases s.loopContexts with
  | nil => exact .fail _
  | cons ctx rest =>
    refine .bind keeps_emitPendingPops fun _ => ?_
    exact .bind keeps_emitPlaceholder fun _ => .modify fun _ => rfl

theorem keeps_continueStatement : W.Keeps reach continueStatement := by
  refine .bind .get fun s => ?_
  cases s.loopContexts with
  | nil => exact .fail _
  | cons ctx rest =>
    refine .ite (.fail_bind _) (.bind keeps_emitPendingPops fun _ => ?_)
    exact .bind keeps_emitPlaceholder fun _ => .modify fun _ => rfl

end Mutant.Compiler.Walk
