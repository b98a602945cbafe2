import Mutant.Compiler.Equiv.Expressions
/-!
# The code of assignments

A write through hops reads its container, writes into it and stores it back, one level inside the
other.  Every operand is counted as waiting, except in a compound assignment that reads its target
through a spilled index: there the value read lies under the right-hand side uncounted
(`foldedValue_leaves`).
-/

namespace Mutant.Compiler

open List Mutant.Code Mutant.Ast

variable {steps : List AssignStep} {indexSlot : Option Symbol}
  {emitValue v left : CompileM Unit}

/-! ### Hops -/

/-- A hop whose index, if it has one, leaves one value. -/
def StepLeaves : AssignStep → LoopFlow → Prop
  | .index _ compile, flow => Leaves compile 1 flow
  | .field _, flow => flow = {}

/-- The hops of a target.  An index that may be evaluated twice holds no loop control. -/
inductive LeavesSteps : List AssignStep → LoopFlow → Prop
  | nil : LeavesSteps [] {}
  | snoc {steps step flow flow'} : LeavesSteps steps flow → StepLeaves step flow' →
    (step.isImpure = false → flow' = {}) → LeavesSteps (steps ++ [step]) (flow.join flow')

/-- Hops that may all be evaluated twice hold no loop control. -/
theorem LeavesSteps.of_pure {flow : LoopFlow} (h : LeavesSteps steps flow)
    (hpure : steps.any AssignStep.isImpure = false) :
    flow = {} ∧ ∀ step ∈ steps, StepLeaves step {} := by
  induction h with
  | nil => exact ⟨rfl, by simp⟩
  | @snoc steps step flow flow' _ hstep himp ih =>
    simp only [any_append, any_cons, any_nil, Bool.or_false, Bool.or_eq_false_iff]
      at hpure
    obtain ⟨rfl, hss⟩ := ih hpure.1
    obtain rfl := himp hpure.2
    refine ⟨rfl, fun st hst => ?_⟩
    rcases mem_append.mp hst with hst | hst
    · exact hss st hst
    · rw [mem_singleton.mp hst]
      exact hstep

/-- When only the last hop may be impure, the loop control is that of the last hop. -/
theorem LeavesSteps.last {flow : LoopFlow} (h : LeavesSteps steps flow)
    (hne : steps ≠ []) (hpure : steps.dropLast.any AssignStep.isImpure = false) :
    ∃ outer last, steps = outer ++ [last] ∧ (∀ step ∈ outer, StepLeaves step {}) ∧
      StepLeaves last flow ∧ (last.isImpure = false → flow = {}) := by
  cases h with
  | nil => exact absurd rfl hne
  | @snoc outer last flow flow' hout' hlast himp =>
    rw [dropLast_concat] at hpure
    obtain ⟨rfl, hss⟩ := hout'.of_pure hpure
    exact ⟨outer, last, rfl, hss, hlast, himp⟩

/-! ### Loads and stores -/

section

variable {flow flow' : LoopFlow}

/-- A path can be followed when its hops hold no loop control, the last one possibly replaced by a
spilled index. -/
theorem pathSteps_moves (h : ∀ outer step inner, steps = outer ++ step :: inner →
      StepLeaves step {} ∨ (indexSlot.isSome ∧ inner = [])) :
    Moves (pathSteps indexSlot steps) 1 1 {} := by
  induction steps with
  | nil => exact (Quiet.pure ()).moves
  | cons step rest ih =>
    have hrest := ih fun outer step' inner heq => h (step :: outer) step' inner (by simp [heq])
    have hstep := h [] step rest rfl
    cases step with
    | field name =>
      exact (addConstant_moves (by simp)).after fun _ =>
        Moves.after (.emit 1 1 rfl rfl rfl (by omega) (by omega)) fun _ => hrest
    | index isPure comp =>
      have hidx : Moves (discard (emit .opIndex)) 2 1 {} :=
        .emit 2 1 rfl rfl rfl (by omega) (by omega)
      -- only the last index may come from a slot
      rcases indexSlot with _ | slot
      · have hcomp : Leaves comp 1 {} := hstep.resolve_right (by simp)
        exact (hcomp.pending 1).after fun _ => hidx.after fun _ => hrest
      · cases rest with
        | nil =>
          exact (loadSymbol_moves slot (by omega) rfl).after fun _ => hidx.after fun _ => hrest
        | cons next rest =>
          have hcomp : Leaves comp 1 {} := hstep.resolve_right (by simp)
          exact (hcomp.pending 1).after fun _ => hidx.after fun _ => hrest

theorem emitPathLoad_moves (sym : Symbol) (h : ∀ outer step inner, steps = outer ++ step :: inner →
      StepLeaves step {} ∨ (indexSlot.isSome ∧ inner = [])) :
    Moves (emitPathLoad sym steps indexSlot) 0 1 {} :=
  (loadSymbol_moves sym (by omega) rfl).after fun _ => pathSteps_moves h

/-- The write into the container on the stack. -/
theorem storeThrough_moves {last : AssignStep} (hlast : StepLeaves last flow)
    (indexSlot : Option Symbol) (hval : Leaves emitValue 1 flow') :
    Moves (storeThrough last indexSlot emitValue) 1 1 (flow.join flow') := by
  cases last with
  | field name =>
    obtain rfl := hlast
    exact (hval.pending 1).before fun _ => (addConstant_moves (by simp)).after fun _ =>
      .emit 2 1 rfl rfl rfl (by omega) (by omega)
  | index isPure comp =>
    have htail : Moves (do withPending 2 emitValue; discard (emit .opSetIndex)) 2 1 flow' :=
      (hval.pending 2).before fun _ => .emit 3 1 rfl rfl rfl (by omega) (by omega)
    refine (Leaves.pending hlast 1).bind fun _ => ?_
    cases indexSlot with
    | none => exact htail
    | some slot =>
      exact (emitStoreOnly_moves slot (by omega) rfl).after fun _ =>
        (loadSymbol_moves slot (by omega) rfl).after fun _ => htail

/-- The chain of stores leaves the stack as it was. -/
theorem emitAssignChain_moves (sym : Symbol) {last : AssignStep} {outer : List AssignStep}
    (hlast : StepLeaves last flow) (hout' : ∀ step ∈ outer, StepLeaves step {})
    (indexSlot : Option Symbol) (hval : Leaves emitValue 1 flow') :
    Moves (emitAssignChain sym (last :: outer) indexSlot emitValue) 0 0 (flow.join flow') := by
  induction outer generalizing last indexSlot emitValue flow flow' with
  | nil =>
    exact (loadSymbol_moves sym (by omega) rfl).after fun _ =>
      (storeThrough_moves hlast indexSlot hval).before fun _ =>
        emitStoreOnly_moves sym (by omega) rfl
  | cons next outer ih =>
    have hpath : Moves (emitPathLoad sym (next :: outer).reverse none) 0 1 {} := by
      refine emitPathLoad_moves sym fun a step b heq => .inl (hout' step ?_)
      rw [← mem_reverse, heq]
      simp
    -- the inner write is the value of the outer one
    have hinn : Leaves (do
        emitPathLoad sym (next :: outer).reverse none
        storeThrough last indexSlot emitValue) 1 (flow.join flow') :=
      (hpath.after fun _ => storeThrough_moves hlast indexSlot hval).leaves
    have hch := ih (hout' next mem_cons_self)
      (forall_mem_cons.mp hout').2 none hinn
    rwa [LoopFlow.empty_join] at hch

/-- The value read through the path is on the stack, and not counted, while the right-hand side is
compiled. -/
theorem foldedValue_leaves (op : String) (sym : Symbol) (hval : Leaves v 1 flow)
    (h : ∀ outer step inner, steps = outer ++ step :: inner →
      StepLeaves step {} ∨ (indexSlot.isSome ∧ inner = [])) :
    Leaves (foldedValue op sym steps indexSlot v) 1 flow.folded := by
  have hover : Moves v 1 2 flow.folded := hval.over (by omega)
  refine ((emitPathLoad_moves sym h).after fun _ => hover.before fun _ => ?_).leaves
  split
  · exact .fail
  · exact infixOpcode_moves ‹_›

/-! ### Assignments -/

/-- What a plain or compound assignment writes, spilled so that it can be the assignment's value. -/
theorem spilled_leaves (spill : Symbol) (hval : Leaves v 1 flow) :
    Leaves (do v; emitStoreOnly spill; loadSymbol spill) 1 flow :=
  (hval.moves.before fun _ => (emitStoreOnly_moves spill (by omega) rfl).after fun _ =>
    loadSymbol_moves spill (by omega) rfl).leaves

/-- An assignment through hops leaves one value. -/
theorem assignThroughSteps_leaves (base : String) (tgt : Expr)
    (foldOperator : String) (hss : LeavesSteps steps flow) (hne : steps ≠ [])
    (hval : steps.dropLast.any AssignStep.isImpure = false → Leaves v 1 flow') :
    Leaves (assignThroughSteps base steps tgt foldOperator v) 1
      (flow.join (if foldOperator ≠ "" then flow'.folded else flow')) := by
  refine (Moves.quiet_bind (quiet_checkFirstHop base steps) fun _ =>
    .quiet_bind quiet_withTable fun sym => ?_).leaves
  cases sym with
  | none => exact .fail
  | some sym =>
    refine .ite (fun _ => .fail_bind) fun hpure => .quiet_bind quiet_internalSlot fun spill => ?_
    obtain ⟨outer, last, rfl, hout', hlast, -⟩ := hss.last hne (by simpa using hpure)
    replace hval := hval (by simpa using hpure)
    -- the chain, and the value loaded back
    have hch : ∀ indexSlot {m : CompileM Unit} {flow''}, Leaves m 1 flow'' → Moves (do
          emitAssignChain sym (outer ++ [last]).reverse indexSlot m
          loadSymbol spill) 0 1 (flow.join flow'') := by
      intro indexSlot m flow'' hm
      rw [reverse_concat]
      exact (emitAssignChain_moves sym hlast (by simpa using hout') indexSlot hm).before fun _ =>
        loadSymbol_moves spill (by omega) rfl
    by_cases hfold : foldOperator = ""
    · simp only [hfold]
      exact .quiet_bind (.pure none) fun _ => hch _ (spilled_leaves spill hval)
    · simp only [hfold, ne_eq]
      refine .quiet_map_bind quiet_internalSlot fun slot => hch _ (spilled_leaves spill ?_)
      refine foldedValue_leaves foldOperator sym hval fun a step b heq => ?_
      -- every hop but the last one is pure, and the last one is read from its slot
      rcases eq_nil_or_concat' b with rfl | ⟨b, last', rfl⟩
      · exact .inr ⟨rfl, rfl⟩
      · refine .inl (hout' step ?_)
        rw [← cons_append, ← append_assoc] at heq
        rw [(append_inj' heq rfl).1]
        simp

/-- The value of a compound assignment that may read its target as the expression it is. -/
theorem readTarget_leaves (op : String) (hleft : Leaves left 1 {}) (hval : Leaves v 1 flow') :
    Leaves (node .expression (binaryExpression op left v)) 1 flow' := by
  have hbinary := binaryExpression_leaves op hleft hval
  exact Leaves.node hbinary (by simp [NodeKind.IsLoopControl])

/-- An assignment leaves one value; a compound one through an impure index can leak. -/
theorem assignExpression_leaves (op : String) (tgt : Expr)
    {flattened : Option (String × List AssignStep)}
    (hss : ∀ base steps, flattened = some (base, steps) → LeavesSteps steps flow)
    (hleft : Leaves left 1 flow) (hval : Leaves v 1 flow') (impure : Bool)
    (himp : ∀ base steps, flattened = some (base, steps) →
      steps.getLast?.any AssignStep.isImpure = impure) :
    Leaves (assignExpression op tgt flattened left v) 1
      (flow.join (if op ≠ "" ∧ impure then flow'.folded else flow')) := by
  cases flattened with
  | none => exact Moves.fail.leaves
  | some parts =>
    obtain ⟨base, steps⟩ := parts
    have hss := hss base steps rfl
    have himp := himp base steps rfl
    unfold assignExpression
    simp only [himp]
    by_cases hfold : op ≠ "" ∧ impure = true
    · obtain ⟨hop, rfl⟩ := hfold
      have hne : steps ≠ [] := by
        rintro rfl
        cases himp
      simp only [List.isEmpty_iff, hne]
      simpa [hop] using assignThroughSteps_leaves base tgt op hss hne fun _ => hval
    · simp only [hfold, not_false_iff, and_true, if_false]
      -- a target that is read as an expression has no impure hop, once its outer hops are checked
      have hread : steps.dropLast.any AssignStep.isImpure = false → Leaves (if op ≠ "" then
          node .expression (binaryExpression op left v) else v) 1 flow' := by
        intro hpure
        split_ifs with hop
        · obtain rfl : flow = {} := by
            by_cases hne : steps = []
            · subst hne
              exact (hss.of_pure rfl).1
            · obtain ⟨outer, last, rfl, -, -, hflow⟩ := hss.last hne hpure
              refine hflow ?_
              simp only [hop, ne_eq, not_false_iff, true_and] at hfold
              simpa [hfold] using himp
          exact readTarget_leaves op hleft hval
        · exact hval
      generalize (if op ≠ "" then node .expression (binaryExpression op left v)
        else v) = valueExpr at hread ⊢
      split_ifs with hnil
      · rw [List.isEmpty_iff] at hnil
        subst hnil
        obtain ⟨rfl, -⟩ := hss.of_pure rfl
        refine ((hread rfl).moves.before fun _ => .quiet_bind quiet_withTable fun sym => ?_).leaves
        cases sym with
        | none => exact .fail
        | some sym =>
          exact (emitStoreOnly_moves sym (by omega) rfl).after fun _ =>
            loadSymbol_moves sym (by omega) rfl
      · rw [List.isEmpty_iff] at hnil
        simpa using assignThroughSteps_leaves base tgt "" hss hnil hread

end

end Mutant.Compiler
