import Mutant.Compiler.Equiv.Walk

/-!
# Walks and expressions

Each construct of an expression obeys a lawful walk when its parts do.

* `Walk.keeps_logicalAnd`, `Walk.keeps_logicalOr`, `Walk.keeps_ifExpression`: the branching ones;
* `Walk.keeps_matchArms`: the arms of a `match`, over `Walk.keeps_patternTests`.
-/

namespace Mutant.Compiler.Walk

open List Mutant.Code Mutant.Ast

variable {pairs : List (CompileM Unit × CompileM Unit)} {texts : List String}
  {parts : List (CompileM Unit)} {arms : List (List (CompileM Unit) × Option ValueBlock)}

variable {W : Walk} [hW : W.Lawful] {reach : Reach} {left right : CompileM Unit}

/-! ### Operators -/

theorem keeps_identifier (name : String) : W.Keeps reach (identifier name) := by
  refine .bind (keeps_resolve name) fun x => ?_
  cases x with
  | none => exact .fail _
  | some sym => exact keeps_loadSymbol sym

/-- The end of an operator: its opcode, if it has one. -/
theorem keeps_operator (op? : Option Opcode) (e : CompileError) : W.Keeps reach (match op? with
    | none => fail e
    | some op => discard (emit op)) := by
  cases op? with
  | none => exact .fail _
  | some op => exact keeps_emit_discard

theorem keeps_unaryExpression (op : String) (hrt : W.Keeps reach right) :
    W.Keeps reach (unaryExpression op right) :=
  .bind hrt fun _ => keeps_operator _ _

theorem keeps_logicalAnd (hleft : W.Keeps reach left) (hrt : W.Keeps reach right) :
    W.Keeps reach (logicalAnd left right) := by
  refine .bind hleft fun _ => .bind keeps_emitPlaceholder fun _ => ?_
  refine .bind hrt fun _ => .bind keeps_emitPlaceholder fun _ => ?_
  refine .bind keeps_emit_discard fun _ => .bind keeps_emitPlaceholder fun _ => ?_
  refine .bind keeps_currentPosition fun _ => .bind keeps_changeOperand fun _ => ?_
  refine .bind keeps_changeOperand fun _ => .bind keeps_emit_discard fun _ => ?_
  exact keeps_patchHere

/-- `||` obeys the walk: each side is tested by its own pair of jumps. -/
theorem keeps_logicalOr (hleft : W.Keeps reach left) (hrt : W.Keeps reach right) :
    W.Keeps reach (logicalOr left right) := by
  refine .bind hleft fun _ => .bind keeps_emitPlaceholder fun _ => ?_
  refine .bind keeps_emit_discard fun _ => .bind keeps_emitPlaceholder fun _ => ?_
  refine .bind keeps_currentPosition fun _ => .bind keeps_changeOperand fun _ => ?_
  refine .bind hrt fun _ => .bind keeps_emitPlaceholder fun _ => ?_
  refine .bind keeps_emit_discard fun _ => .bind keeps_emitPlaceholder fun _ => ?_
  refine .bind keeps_currentPosition fun _ => .bind keeps_changeOperand fun _ => ?_
  refine .bind keeps_emit_discard fun _ => .bind keeps_currentPosition fun _ => ?_
  exact .bind keeps_changeOperand fun _ => keeps_changeOperand

theorem keeps_binaryExpression (op : String) (hleft : W.Keeps reach left)
    (hrt : W.Keeps reach right) : W.Keeps reach (binaryExpression op left right) := by
  refine .ite (keeps_logicalAnd hleft hrt) (.ite (keeps_logicalOr hleft hrt) ?_)
  exact .bind hleft fun _ => .bind (keeps_withPending 1 hrt) fun _ => keeps_operator _ _

theorem keeps_indexExpression (hleft : W.Keeps reach left) (hrt : W.Keeps reach right) :
    W.Keeps reach (indexExpression left right) :=
  .bind hleft fun _ => .bind (keeps_withPending 1 hrt) fun _ => keeps_emit_discard

/-- A block obeys the walk where it stands, by what it may do inside. -/
def BlockKeeps (W : Walk) (reach : Reach) (body : CompileM Unit) : Prop :=
  ∃ inner : Reach, inner.Inside .block reach ∧ W.Keeps inner body

theorem keeps_valueBlock {block : ValueBlock} (h : W.BlockKeeps reach block.body) :
    W.Keeps reach (valueBlock block) := by
  obtain ⟨inner, hin, hbody⟩ := h
  exact .bind (keeps_inBlock hin hbody) fun _ => keeps_leaveOneValue _

/-- An `if` obeys the walk, with an alternative or without. -/
theorem keeps_ifExpression {cond : CompileM Unit} {consequence : ValueBlock}
    {alt : Option ValueBlock} (hcond : W.Keeps reach cond)
    (hcons : W.BlockKeeps reach consequence.body) (halt : ∀ b ∈ alt, W.BlockKeeps reach b.body) :
    W.Keeps reach (ifExpression cond consequence alt) := by
  refine .bind hcond fun _ => .bind keeps_emitPlaceholder fun _ => ?_
  refine .bind (keeps_valueBlock hcons) fun _ => .bind keeps_emitPlaceholder fun _ => ?_
  refine .bind keeps_currentPosition fun _ => .bind keeps_changeOperand fun _ => ?_
  cases alt with
  | none => exact .bind keeps_emit_discard fun _ => keeps_patchHere
  | some block =>
    exact .bind (keeps_valueBlock (halt block rfl)) fun _ => keeps_patchHere

/-! ### Operands -/

theorem keeps_operands {ms : List (CompileM Unit)} (h : ∀ m ∈ ms, W.Keeps reach m) (pending : Nat) :
    W.Keeps reach (operands pending ms) := by
  induction ms generalizing pending with
  | nil => exact .pure ()
  | cons m ms ih =>
    refine .bind (keeps_withPending pending (h m mem_cons_self)) fun _ => ?_
    exact ih (forall_mem_cons.mp h).2 (pending + 1)

theorem keeps_arrayLiteral {elems : List (CompileM Unit)}
    (h : ∀ m ∈ elems, W.Keeps reach m) : W.Keeps reach (arrayLiteral elems) :=
  .bind (keeps_operands h 0) fun _ => keeps_emit_discard

theorem keeps_hashPairs (h : ∀ p ∈ pairs, W.Keeps reach p.1 ∧ W.Keeps reach p.2) (pending : Nat) :
    W.Keeps reach (hashPairs pending pairs) := by
  induction pairs generalizing pending with
  | nil => exact .pure ()
  | cons p pairs ih =>
    obtain ⟨hkey, hval⟩ := h p mem_cons_self
    refine .bind (keeps_withPending pending hkey) fun _ => ?_
    refine .bind (keeps_withPending (pending + 1) hval) fun _ => ?_
    exact ih (forall_mem_cons.mp h).2 (pending + 2)

theorem keeps_hashLiteral
    (h : ∀ p ∈ pairs, W.Keeps reach p.1 ∧ W.Keeps reach p.2) : W.Keeps reach (hashLiteral pairs) :=
  .bind (keeps_hashPairs h 0) fun _ => keeps_emit_discard

theorem keeps_callExpression {function : CompileM Unit} {args : List (CompileM Unit)}
    (hfun : W.Keeps reach function) (h : ∀ m ∈ args, W.Keeps reach m) :
    W.Keeps reach (callExpression function args) :=
  .bind hfun fun _ => .bind (keeps_operands h 1) fun _ => keeps_emit_discard

/-- A template obeys the walk: what was pushed before a part is pending below it. -/
theorem keeps_templatePieces (h : ∀ m ∈ parts, W.Keeps reach m) (ps : Nat) :
    W.Keeps reach (templatePieces ps texts parts) := by
  induction texts generalizing parts ps with
  | nil => exact .pure _
  | cons text texts ih =>
    have hrest : ∀ ps, W.Keeps reach (templatePieces ps ("" :: texts) parts) := by
      intro ps
      cases parts with
      | nil => exact ih h _
      | cons part parts =>
        refine .bind (keeps_withPending _ (h part mem_cons_self)) fun _ => ?_
        exact ih (forall_mem_cons.mp h).2 _
    by_cases htext : text = ""
    · subst htext
      exact hrest ps
    · simp only [templatePieces, htext, ne_eq]
      exact .bind keeps_emitConstant fun _ => hrest (ps + 1)

theorem keeps_templateLiteral
    (h : ∀ m ∈ parts, W.Keeps reach m) : W.Keeps reach (templateLiteral texts parts) :=
  .bind (keeps_templatePieces h 0) fun _ => .ite keeps_emitConstant keeps_emit_discard

/-! ### Matching -/

/-- The tests of an arm obey the walk; the subject and its copy are pending below each pattern. -/
theorem keeps_patternTests : ∀ {pats : List (CompileM Unit)},
    (∀ m ∈ pats, W.Keeps reach m) → W.Keeps reach (patternTests pats)
  | [], _ => .pure _
  | [pattern], h => by
    refine .bind keeps_emit_discard fun _ => ?_
    refine .bind (keeps_withPending 2 (h pattern mem_cons_self)) fun _ => ?_
    refine .bind keeps_emit_discard fun _ => .bind keeps_emitPlaceholder fun _ => ?_
    exact .pure _
  | pattern :: pattern' :: pats, h => by
    refine .bind keeps_emit_discard fun _ => ?_
    refine .bind (keeps_withPending 2 (h pattern mem_cons_self)) fun _ => ?_
    refine .bind keeps_emit_discard fun _ => .bind keeps_emitPlaceholder fun _ => ?_
    refine .bind keeps_emitPlaceholder fun _ => .bind keeps_currentPosition fun _ => ?_
    refine .bind keeps_changeOperand fun _ => ?_
    exact .bind (keeps_patternTests (forall_mem_cons.mp h).2) fun _ => .pure _

/-- One arm of a `match` obeys the walk. -/
theorem keeps_matchArm {pats : List (CompileM Unit)} {body : ValueBlock}
    (hpats : ∀ m ∈ pats, W.Keeps reach m) (hbody : W.BlockKeeps reach body.body) :
    W.Keeps reach (matchArm pats body) := by
  refine .bind (keeps_patternTests hpats) fun r => .bind keeps_currentPosition fun _ => ?_
  refine .bind keeps_changeOperands fun _ => .bind keeps_emit_discard fun _ => ?_
  refine .bind (keeps_valueBlock hbody) fun _ => .bind keeps_emitPlaceholder fun _ => ?_
  obtain ⟨matchedJumps, missed⟩ := r
  cases missed with
  | none => exact .pure _
  | some p =>
    exact .bind keeps_currentPosition fun _ => .bind keeps_changeOperand fun _ => .pure _

/-- The patterns and the body of every arm obey the walk. -/
def ArmsKeep (W : Walk) (reach : Reach)
    (arms : List (List (CompileM Unit) × Option ValueBlock)) : Prop :=
  ∀ arm ∈ arms, (∀ m ∈ arm.1, W.Keeps reach m) ∧ ∀ body ∈ arm.2, W.BlockKeeps reach body.body

/-- The arms of a `match` obey the walk; one without a body is refused. -/
theorem keeps_matchArms (h : W.ArmsKeep reach arms) : W.Keeps reach (matchArms arms) := by
  induction arms with
  | nil => exact .pure _
  | cons arm arms ih =>
    obtain ⟨pats, body⟩ := arm
    obtain ⟨hpats, hbody⟩ := h _ mem_cons_self
    cases body with
    | none => exact .fail _
    | some body =>
      refine .bind (keeps_matchArm hpats (hbody body rfl)) fun _ => ?_
      exact .bind (ih (forall_mem_cons.mp h).2) fun _ => .pure _

theorem keeps_matchExpression {subject : CompileM Unit} (hsubject : W.Keeps reach subject)
    (h : W.ArmsKeep reach arms) : W.Keeps reach (matchExpression subject arms) := by
  refine .ite (.fail_bind _) (.bind hsubject fun _ => .bind (keeps_matchArms h) fun r => ?_)
  have hend : W.Keeps reach (do changeOperands r.1 (← currentPosition)) :=
    .bind keeps_currentPosition fun _ => keeps_changeOperands
  exact .ite (.bind keeps_emit_discard fun _ => hend) hend

end Mutant.Compiler.Walk
