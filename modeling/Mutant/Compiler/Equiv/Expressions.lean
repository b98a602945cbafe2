import Mutant.Compiler.Equiv.Tracking
/-!
# The code of expressions

Each construct leaves one value when its parts do, and its loop control is that of its parts.

* `binaryExpression_leaves`, `templateLiteral_leaves`, `fieldExpression_leaves`,
  `structLiteral_leaves`, `ifExpression_leaves`: the constructs with an argument of their own.
-/

namespace Mutant.Compiler

open Mutant.Code Mutant.Ast

variable {flow : LoopFlow} {texts : List String} {parts : List (CompileM Unit)} {operator : String}
  {op : Opcode} {fs : List (String × CompileM Unit)} {alt : Option ValueBlock}

/-! ### Parts -/

/-- Parts that leave one value each. -/
inductive LeavesAll : List (CompileM Unit) → LoopFlow → Prop
  | nil : LeavesAll [] {}
  | cons {m ms flow flows} : Leaves m 1 flow → LeavesAll ms flows →
    LeavesAll (m :: ms) (flow.join flows)

/-- Pairs of parts that leave one value each. -/
inductive LeavesPairs : List (CompileM Unit × CompileM Unit) → LoopFlow → Prop
  | nil : LeavesPairs [] {}
  | cons {k m ms flow flow' flows} : Leaves k 1 flow → Leaves m 1 flow' → LeavesPairs ms flows →
    LeavesPairs ((k, m) :: ms) ((flow.join flow').join flows)

/-- The operands leave one value each, on top of those already waiting. -/
theorem operands_moves {ms : List (CompileM Unit)} (h : LeavesAll ms flow)
    (n : Nat) : Moves (operands n ms) n (n + ms.length : Nat) flow := by
  induction h generalizing n with
  | nil => exact (Quiet.pure ()).moves
  | @cons m ms flow flows hm _ ih =>
    have := (hm.pending n).bind fun _ => ih (n + 1)
    rwa [show n + 1 + ms.length = n + (m :: ms).length by simp; omega] at this

/-- The pairs of a hash push two values each. -/
theorem hashPairs_moves {ms : List (CompileM Unit × CompileM Unit)}
    (h : LeavesPairs ms flow) (n : Nat) :
    Moves (hashPairs n ms) n (n + ms.length * 2 : Nat) flow := by
  induction h generalizing n with
  | nil => exact (Quiet.pure ()).moves
  | @cons k m ms flow flow' flows hk hm _ ih =>
    have := (hk.pending n).bind fun _ => (hm.pending (n + 1)).bind fun _ => ih (n + 2)
    rw [← LoopFlow.join_assoc] at this
    rwa [show n + 2 + ms.length * 2 = n + ((k, m) :: ms).length * 2 by simp; omega] at this

/-- The pieces of an interpolated string, on top of those already there. -/
theorem templatePieces_tracks
    (h : LeavesAll (parts.take texts.length) flow) {n k base : Nat} {v₀ : View}
    {opens : List OpenJump} {flow₀ : LoopFlow} {s s' : CompilerState}
    (ht : Tracks v₀ base opens (some n) flow₀ s.view)
    (hrun : templatePieces n texts parts s = .ok k s') :
    Tracks v₀ base opens (some k) (flow₀.join flow) s'.view := by
  induction texts generalizing parts flow flow₀ n s with
  | nil =>
    cases h
    obtain ⟨rfl, rfl⟩ := pure_ok.mp hrun
    simpa using ht
  | cons text texts ih =>
    -- a text that is not empty is one more piece, and an empty one is none
    have htext : ∃ (n' : Nat) (s₁ : CompilerState), Tracks v₀ base opens (some n') flow₀ s₁.view ∧
        templatePieces n' ("" :: texts) parts s₁ = .ok k s' := by
      by_cases hemp : text = ""
      · exact ⟨n, s, ht, hemp ▸ hrun⟩
      · simp only [templatePieces, hemp, ne_eq, not_false_iff, if_true, bind_ok] at hrun
        obtain ⟨_, s₁, h₁, hrun⟩ := hrun
        have := (emitConstant_moves (by simp) (by omega)).run ht h₁
        exact ⟨n + 1, s₁, by simpa using this, hrun⟩
    obtain ⟨n', s₁, ht, hrun⟩ := htext
    cases parts with
    | nil =>
      cases h
      exact ih (by simpa using LeavesAll.nil) ht hrun
    | cons part parts =>
      rcases h with _ | ⟨hpart, h⟩
      obtain ⟨_, s₂, h₂, hrun⟩ := bind_ok.mp hrun
      rw [← LoopFlow.join_assoc]
      exact ih h ((hpart.pending n').run ht h₂) hrun

/-! ### Constructs -/

section

variable {left right : CompileM Unit} {flow flow' : LoopFlow}

theorem identifier_leaves (name : String) : Leaves (identifier name) 1 {} := by
  refine (Moves.quiet_bind quiet_withTable fun sym => ?_).leaves
  cases sym with
  | none => exact .fail
  | some sym => exact loadSymbol_moves sym (by omega) rfl

/-- A unary operator takes its operand and leaves its value. -/
theorem unaryExpression_leaves (operator : String) (h : Leaves right 1 flow) :
    Leaves (unaryExpression operator right) 1 flow := by
  have hop : ∀ op, unaryOpcode operator = some op → Moves (discard (emit op)) 1 1 {} := by
    intro op hop
    unfold unaryOpcode at hop
    split_ifs at hop <;> cases hop <;> exact .emit 1 1 rfl rfl rfl (by omega) (by omega)
  refine (h.moves.before fun _ => ?_).leaves
  split
  · exact .fail
  · exact hop _ ‹_›

/-- The binary operators take two operands and leave one. -/
theorem infixOpcode_effect (h : infixOpcode operator = some op) :
    Instr.pops ⟨op, []⟩ = 2 ∧ Instr.falls ⟨op, []⟩ = some 1 ∧ Instr.target? ⟨op, []⟩ = none := by
  have hops := mem_of_infixOpcode h
  clear h
  revert op
  decide

theorem infixOpcode_moves (h : infixOpcode operator = some op) :
    Moves (discard (emit op)) 2 1 {} := by
  obtain ⟨hpops, hfalls, htgt⟩ := infixOpcode_effect h
  exact .emit 2 1 hpops hfalls htgt (by omega) (by omega)

/-- A value pushed. -/
theorem push_moves {c : Int} (hc : 0 ≤ c) (hpops : Instr.pops ⟨op, []⟩ = 0)
    (hfalls : Instr.falls ⟨op, []⟩ = some 1) (htgt : Instr.target? ⟨op, []⟩ = none) :
    Moves (discard (emit op)) c (c + 1) {} := .emit 0 1 hpops hfalls htgt hc (by omega)

/-- The value of `&&` is pushed on each of its two ways, which meet at the end. -/
theorem logicalAnd_leaves (hleft : Leaves left 1 flow) (hrt : Leaves right 1 flow') :
    Leaves (logicalAnd left right) 1 (flow.join flow') := by
  intro s s' hrun hv
  simp only [logicalAnd, bind_ok, currentPosition_ok] at hrun
  obtain ⟨_, s₁, h₁, p₁, s₂, h₂, _, s₃, h₃, p₂, s₄, h₄, _, s₅, h₅, p₃, s₆, h₆, _, _, ⟨rfl, rfl⟩, _, s₇,
    h₇, _, s₈, h₈, _, s₉, h₉, _, _, ⟨rfl, rfl⟩, hrun⟩ := hrun
  -- the two tests, the value when both hold, and a jump over the other value
  have t := hleft.moves.run (.start hv 0) h₁
  have t := t.jumpFalse (by omega) h₂
  have t := hrt.moves.run t h₃
  have t := t.jumpFalse (by omega) h₄
  have t := (push_moves (by omega) rfl rfl rfl).run t h₅
  have t := t.jump (by omega) h₆
  -- both tests come out here, each having taken its operand
  obtain ⟨t, hstop⟩ := t.land [_, _] h₇ 0 rfl (by simp)
  obtain ⟨t, -⟩ := t.land [_] (hstop ▸ h₈) 0 rfl (by simp)
  have t := (push_moves (by omega) rfl rfl rfl).run t h₉
  obtain ⟨t, -⟩ := t.land [] hrun 1 rfl (by simp)
  simpa using t

/-- The value of `||` is pushed on each of its three ways. -/
theorem logicalOr_leaves (hleft : Leaves left 1 flow) (hrt : Leaves right 1 flow') :
    Leaves (logicalOr left right) 1 (flow.join flow') := by
  intro s s' hrun hv
  simp only [logicalOr, bind_ok, currentPosition_ok] at hrun
  obtain ⟨_, s₁, h₁, p₁, s₂, h₂, _, s₃, h₃, p₂, s₄, h₄, _, _, ⟨rfl, rfl⟩, _, s₅, h₅, _, s₆, h₆, p₃, s₇,
    h₇, _, s₈, h₈, p₄, s₉, h₉, _, _, ⟨rfl, rfl⟩, _, s₁₀, h₁₀, _, s₁₁, h₁₁, _, _, ⟨rfl, rfl⟩, _, s₁₂, h₁₂,
    hrun⟩ := hrun
  have t := hleft.moves.run (.start hv 0) h₁
  have t := t.jumpFalse (by omega) h₂
  have t := (push_moves (by omega) rfl rfl rfl).run t h₃
  have t := t.jump (by omega) h₄
  obtain ⟨t, -⟩ := t.land [_] h₅ 0 rfl (by simp)
  -- the left side was false: the right side decides
  have t := hrt.moves.run t h₆
  have t := t.jumpFalse (by omega) h₇
  have t := (push_moves (by omega) rfl rfl rfl).run t h₈
  have t := t.jump (by omega) h₉
  obtain ⟨t, -⟩ := t.land [_] h₁₀ 0 rfl (by simp)
  have t := (push_moves (by omega) rfl rfl rfl).run t h₁₁
  obtain ⟨t, hstop⟩ := t.land [_] h₁₂ 1 rfl (by simp)
  obtain ⟨t, -⟩ := t.land [] (hstop ▸ hrun) 1 rfl (by simp)
  simpa using t

/-- While the right side is compiled the left one waits, except where the operator tests it first.
-/
theorem binaryExpression_leaves (operator : String) (hleft : Leaves left 1 flow)
    (hrt : Leaves right 1 flow') :
    Leaves (binaryExpression operator left right) 1 (flow.join flow') := by
  unfold binaryExpression
  split_ifs
  · exact logicalAnd_leaves hleft hrt
  · exact logicalOr_leaves hleft hrt
  · refine (hleft.moves.bind fun _ => (hrt.pending 1).before fun _ => ?_).leaves
    split
    · exact .fail
    · exact infixOpcode_moves ‹_›

theorem indexExpression_leaves (hleft : Leaves left 1 flow) (hrt : Leaves right 1 flow') :
    Leaves (indexExpression left right) 1 (flow.join flow') := by
  exact (hleft.moves.bind fun _ => (hrt.pending 1).before fun _ =>
    .emit 2 1 rfl rfl rfl (by omega) (by omega)).leaves

theorem arrayLiteral_leaves {elems : List (CompileM Unit)} (h : LeavesAll elems flow) :
    Leaves (arrayLiteral elems) 1 flow := by
  exact ((operands_moves h 0).before fun _ =>
    .emit elems.length 1 rfl rfl rfl (by omega) (by omega)).leaves

theorem hashLiteral_leaves {pairs : List (CompileM Unit × CompileM Unit)}
    (h : LeavesPairs pairs flow) : Leaves (hashLiteral pairs) 1 flow := by
  exact ((hashPairs_moves h 0).before fun _ =>
    .emit (pairs.length * 2) 1 rfl rfl rfl (by omega) (by omega)).leaves

/-- An interpolated string joins its pieces, and one without any is the empty string. -/
theorem templateLiteral_leaves
    (h : LeavesAll (parts.take texts.length) flow) : Leaves (templateLiteral texts parts) 1 flow := by
  intro s s' hrun hv
  obtain ⟨k, s₁, h₁, hrun⟩ := bind_ok.mp hrun
  have t := templatePieces_tracks (n := 0) h (.start hv 0) h₁
  by_cases hk : k = 0
  · subst hk
    simpa using (emitConstant_moves (by simp) (by omega)).run t hrun
  · rw [if_neg hk] at hrun
    have hconcat : Moves (discard (emit .opConcat [k])) k 1 {} :=
      .emit k 1 rfl rfl rfl (by omega) (by omega)
    simpa using hconcat.run t hrun

theorem callExpression_leaves {function : CompileM Unit} {args : List (CompileM Unit)}
    (hfun : Leaves function 1 flow) (h : LeavesAll args flow') :
    Leaves (callExpression function args) 1 (flow.join flow') := by
  exact (hfun.moves.bind fun _ => (operands_moves h 1).before fun _ =>
    .emit (args.length + 1) 1 rfl rfl rfl (by omega) (by omega)).leaves

/-! ### Fields and structs -/

theorem fieldRead_leaves (hleft : Leaves left 1 flow) (field : String) :
    Leaves (fieldRead left field) 1 flow :=
  (hleft.moves.before fun _ => (addConstant_moves (by simp)).after fun _ =>
    .emit 1 1 rfl rfl rfl (by omega) (by omega)).leaves

/-- A field expression leaves one value, whatever it means. Where its receiver is a name the code of
the receiver may not be emitted at all, and so must hold no loop control. -/
theorem fieldExpression_leaves (reg : String → Bool) (name : Option String)
    (hleft : Leaves left 1 flow) (hname : name ≠ none → flow = {}) (field : String) :
    Leaves (fieldExpression reg name left field) 1 flow := by
  cases name with
  | none => exact fieldRead_leaves hleft field
  | some ident =>
    obtain rfl := hname (by simp)
    refine (Moves.quiet_bind (quiet_resolveField reg ident field) fun resolution => ?_).leaves
    cases resolution with
    | enumValue =>
      exact (addConstant_moves (by simp)).after fun _ => (addConstant_moves (by simp)).after fun _ =>
        .emit 0 1 rfl rfl rfl (by omega) (by omega)
    | moduleMember key =>
      refine .quiet_bind .get fun s => ?_
      cases s.symbolTable.resolveIn key field with
      | none => exact .fail
      | some sym => exact loadSymbol_moves sym (by omega) rfl
    | builtinFold flat => exact loadSymbol_moves _ (by omega) rfl
    | valueAccess =>
      refine .quiet_bind .get fun s => ?_
      cases structTypeOfBinding s ident with
      | none => exact (fieldRead_leaves hleft field).moves
      | some structType =>
        exact .quiet_bind quiet_checkFieldIsDeclared fun _ =>
          (fieldRead_leaves hleft field).moves
    | refused refusal => exact .fail

/-- Initialisers are stored away one by one, so none waits under another. -/
theorem spillFields_moves (h : LeavesAll (fs.map Prod.snd) flow) (d pos : Nat) :
    Moves (spillFields d pos fs) 0 0 flow := by
  induction fs generalizing pos flow with
  | nil =>
    cases h
    exact (Quiet.pure []).moves
  | cons field fs ih =>
    rcases h with _ | ⟨hval, h⟩
    refine hval.moves.bind fun _ => .quiet_bind quiet_internalSlot fun slot =>
      (emitStoreOnly_moves slot (by omega) rfl).after fun _ =>
        (ih h (pos + 1)).before fun _ => (Quiet.pure _).moves

/-- The fields are loaded in the order they were declared in. -/
theorem loadFields_moves (sname : String) (slots : List (String × Symbol))
    (declared : List String) (c : Nat) :
    Moves (loadFields sname slots declared) c (c + declared.length : Nat) {} := by
  induction declared generalizing c with
  | nil => exact (Quiet.pure ()).moves
  | cons field declared ih =>
    have hrest := ih (c + 1)
    rw [show c + 1 + declared.length = c + (field :: declared).length by simp; omega] at hrest
    unfold loadFields
    split
    · exact .fail_bind
    · exact (loadSymbol_moves _ (by omega) (by omega)).after fun _ => hrest

/-- A struct literal, with its initialisers in the order of the fields or spilled into slots. -/
theorem structLiteral_leaves (sname : String)
    (h : LeavesAll (fs.map Prod.snd) flow) : Leaves (structLiteral sname fs) 1 flow := by
  refine (Moves.quiet_bind .get fun s => ?_).leaves
  cases s.structDefinitions.lookup sname with
  | none => exact .fail
  | some declared =>
    dsimp only
    cases firstRepeated [] (fs.map Prod.fst) with
    | some field => exact .fail
    | none =>
      refine .ite (fun _ => .fail_bind) fun _ =>
        (addConstant_moves (k := .string sname) (by simp)).after fun tname => ?_
      have hmake : Moves (discard (emit .opMakeStruct [tname, declared.length])) declared.length 1
          {} := .emit declared.length 1 rfl rfl rfl (by omega) (by omega)
      refine .ite (fun hord => ?_) fun _ => ?_
      -- the initialisers are in order: they are operands like those of an array
      · have hlen : (fs.map Prod.snd).length = declared.length := by simp [← hord]
        have hoperands := operands_moves h 0
        rw [hlen, Nat.zero_add] at hoperands
        exact hoperands.before fun _ => hmake
      · refine Moves.before (.quiet_bind .get fun s => .quiet_bind (.modify fun _ => rfl) fun _ => ?_)
          fun _ => hmake
        refine .ensuring ((spillFields_moves h _ 0).before fun slots => ?_) fun _ => rfl
        have := loadFields_moves sname slots declared 0
        rwa [Nat.zero_add] at this

end

/-! ### Blocks with a value -/

/-- The stream after an expression statement that began at `w`, whose value was computed by `u`. -/
def View.popped (w u : View) : View :=
  (u.put ⟨.opPop, []⟩ false).log ⟨.statement, w.stop, u.stop + 1⟩

/-- Code that ends in an expression statement. -/
def EndsInPop (m : CompileM Unit) (flow : LoopFlow) : Prop :=
  ∀ s s', m s = .ok () s' → s.view.Wf → ∃ w u flow₁ flow₂, Tracks s.view 0 [] (some 0) flow₁ w ∧
    Tracks w 0 [] (some 1) flow₂ u ∧ flow = flow₁.join flow₂ ∧ s'.view = w.popped u ∧
    s'.scope.lastInstruction = ⟨.opPop, u.stop⟩

/-- A block whose statements leave nothing, and which may end in a value. -/
structure BlockLeaves (block : ValueBlock) (flow : LoopFlow) : Prop where
  body : Leaves block.body 0 flow
  ends : block.endsInValue = true → EndsInPop block.body flow

/-- Cutting the stream at the last pop takes it back to where the value had been computed. -/
theorem view_removeLastPop {s : CompilerState} {w u : View} (hu : u.Wf) (hview : s.view = w.popped u)
    (hlast : s.scope.lastInstruction = ⟨.opPop, u.stop⟩) :
    ({ s with scope := s.scope.removeLastPop } : CompilerState).view = u := by
  have hcode : s.scope.instructions = u.code ++ [⟨.opPop, []⟩] := congrArg View.code hview
  have hnodes : s.scope.nodes = ⟨.statement, w.stop, u.stop + 1⟩ :: u.nodes :=
    congrArg View.nodes hview
  have htrunc : truncateAt u.stop s.scope.instructions = u.code := by
    rw [hcode]
    exact truncateAt_append u.code _
  have hfilter : s.scope.nodes.filter (·.stop ≤ u.stop) = u.nodes := by
    rw [hnodes, List.filter_cons_of_neg (by simp), List.filter_eq_self]
    intro n hn
    simpa using (hu.spans n hn).2
  have hs : ({ s with scope := s.scope.removeLastPop } : CompilerState).view = { s.view with
        code := truncateAt s.scope.lastInstruction.position s.scope.instructions
        nodes := s.scope.nodes.filter (·.stop ≤ s.scope.lastInstruction.position) } := rfl
  rw [hs, hlast, htrunc, hfilter, hview]
  rfl

section

variable {flow flow' : LoopFlow}

/-- A block that ends in an expression keeps its value, by taking the last pop back; another one
pushes null. -/
theorem valueBlock_leaves {block : ValueBlock} (h : BlockLeaves block flow) :
    Leaves (valueBlock block) 1 flow := by
  intro s s' hrun hv
  obtain ⟨_, s₁, hblk, hrun⟩ := bind_ok.mp hrun
  unfold leaveOneValue at hrun
  split_ifs at hrun with hends
  · obtain ⟨s₀, s₂, hs₀, hbody, hsc, hview⟩ := inBlock_ok hblk
    -- the body without its last pop, which is the instruction that is removed
    obtain ⟨w, u, flow₁, flow₂, hw, hu, rfl, hs₂, hlast⟩ := h.ends hends s₀ s₂ hbody (hs₀ ▸ hv)
    rw [removeLastPop, modifyScope_ok] at hrun
    rw [← hrun, view_removeLastPop hu.wf (hview.trans hs₂) (hsc ▸ hlast)]
    exact hs₀ ▸ hw.append hu
  · have t := h.body.inBlock s s₁ hblk hv
    simpa using (push_moves (by omega) rfl rfl rfl).run t hrun

/-- The alternative of an `if`, null when there is none. -/
theorem alternative_moves
    (h : ∀ block ∈ alt, BlockLeaves block flow) (hnone : alt = none → flow = {}) :
    Moves (match alt with
      | none => discard (emit .opNull)
      | some block => valueBlock block) 0 1 flow := by
  cases alt with
  | none =>
    rw [hnone rfl]
    exact push_moves (by omega) rfl rfl rfl
  | some block => exact (valueBlock_leaves (h block rfl)).moves

/-- The two branches start at the depth the test leaves, and end with one value more. -/
theorem ifExpression_leaves {cond : CompileM Unit} {consequence : ValueBlock} {flow₁ flow₂ : LoopFlow}
    (hcond : Leaves cond 1 flow)
    (hcons : BlockLeaves consequence flow₁) (halt : ∀ block ∈ alt, BlockLeaves block flow₂)
    (hnone : alt = none → flow₂ = {}) :
    Leaves (ifExpression cond consequence alt) 1 (flow.join (flow₁.join flow₂)) := by
  intro s s' hrun hv
  simp only [ifExpression, bind_ok] at hrun
  obtain ⟨_, s₁, h₁, p₁, s₂, h₂, _, s₃, h₃, p₂, s₄, h₄, _, _, ⟨rfl, rfl⟩, _, s₅, h₅, hrun⟩ := hrun
  -- with or without an alternative, one value is pushed and the jump comes out behind it
  have hrun : ∃ u s₆, (match alt with
      | none => discard (emit .opNull)
      | some block => valueBlock block) s₅ = .ok u s₆ ∧
        changeOperand p₂ s₆.view.stop s₆ = .ok () s' := by
    cases alt <;> simp only [bind_ok] at hrun <;>
      · obtain ⟨u, s₆, h₆, _, _, ⟨rfl, rfl⟩, hrun⟩ := hrun
        exact ⟨u, s₆, h₆, hrun⟩
  obtain ⟨_, s₆, h₆, hrun⟩ := hrun
  have t := hcond.moves.run (.start hv 0) h₁
  have t := t.jumpFalse (by omega) h₂
  have t := (valueBlock_leaves hcons).moves.run t h₃
  have t := t.jump (by omega) h₄
  obtain ⟨t, -⟩ := t.land [_] h₅ 0 rfl (by simp)
  have t := (alternative_moves halt hnone).run t h₆
  obtain ⟨t, -⟩ := t.land [] hrun 1 rfl (by simp)
  simpa [LoopFlow.join_assoc] using t

end

end Mutant.Compiler
