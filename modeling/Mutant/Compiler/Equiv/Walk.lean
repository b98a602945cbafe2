import Mathlib.Data.Set.Basic
import Mutant.Compiler.Equiv.Running
import Mutant.Compiler.Recovery

/-!
# What every compilation does to the symbol tables

A `Walk` is a relation between the symbol tables before an action of the compiler and those after
it, one for a run that succeeds and one for a run that fails.  It is lawful when the operations of
the tables, a block around a change of them and a function around one all obey it; then every
construct of the language obeys it, and by recursion on the tree every program.

What an action may do is given by its `Reach`: the names it may declare in the scope it is run in, and
the places it may fail at.

* `Keeps.bind`, `Keeps.ite`, `Keeps.forM`: the rules that put actions together.
* `keeps_inBlock`, `keeps_functionLiteral`: what runs inside an enclosure, by what it encloses.
-/

namespace Mutant.Compiler

open Mutant.Code Mutant.Ast

variable {st : SymbolTable} {after : CompilerState → CompilerState}

/-- What an action may do: the names it may declare in the scope it is run in, and the places it may
fail at, each by the enclosures around it, innermost first. -/
structure Reach where
  names : Set String
  places : List (List Enclosure)
  here : [] ∈ places

/-- What an action may do that is run inside an enclosure.  Its names are the enclosure's. -/
structure Reach.Inside (inner : Reach) (enclosure : Enclosure) (outer : Reach) : Prop where
  names : inner.names = Set.univ
  places : inside enclosure inner.places ⊆ outer.places

structure Walk where
  /-- What holds of the tables between actions. -/
  Ok : SymbolTable → Prop
  /-- What a successful run that may declare `names` did. -/
  Rel : (names : Set String) → SymbolTable → SymbolTable → Prop
  /-- What a run did that failed inside of the enclosures given, innermost first. -/
  Err : Reach → SymbolTable → List Enclosure → SymbolTable → Prop

namespace Walk

variable {α β : Type}

/-- The tables may be changed so. -/
def Allows (W : Walk) (names : Set String) (st st' : SymbolTable) : Prop :=
  W.Ok st' ∧ W.Rel names st st'

/-- What the result of a run from `st` says. -/
def Ran (W : Walk) (reach : Reach) (st : SymbolTable) :
    EStateM.Result Failure CompilerState α → Prop
  | .ok _ s' => W.Allows reach.names st s'.symbolTable
  | .error e s' => W.Err reach st e.path s'.symbolTable

/-- Every run of an action obeys the walk. -/
def Keeps (W : Walk) (reach : Reach) (m : CompileM α) : Prop :=
  ∀ s, W.Ok s.symbolTable → W.Ran reach s.symbolTable (m s)

/-- What has to be shown of the tables. -/
class Lawful (W : Walk) : Prop where
  refl : ∀ {names st}, W.Ok st → W.Rel names st st
  trans : ∀ {names st₁ st₂ st₃}, W.Rel names st₁ st₂ → W.Rel names st₂ st₃ → W.Rel names st₁ st₃
  err_trans : ∀ {reach st₁ st₂ path st₃}, W.Rel reach.names st₁ st₂ → W.Err reach st₂ path st₃ →
    W.Err reach st₁ path st₃
  fail : ∀ {reach st}, W.Ok st → W.Err reach st [] st
  resolve : ∀ {names st} (name : String), W.Ok st → W.Allows names st (st.resolve name).2
  define : ∀ {names st name}, name ∈ names → W.Ok st → W.Allows names st (st.define name).2
  internal : ∀ {names st kind}, NulFree kind → st.resolveInternal (" " ++ kind) = none → W.Ok st →
    W.Allows names st (st.defineInternal (" " ++ kind)).2
  builtin : ∀ {names st} (name : String), W.Ok st → W.Allows names st (st.referenceBuiltin name).2
  openBlock : ∀ {st}, W.Ok st → W.Ok st.openBlock
  closeBlock : ∀ {names st st'}, W.Ok st → W.Allows Set.univ st.openBlock st' →
    W.Allows names st st'.closeBlock
  closeBlock_err : ∀ {reach inner st path st'}, inner.Inside .block reach → W.Ok st →
    W.Err inner st.openBlock path st' → W.Err reach st (path ++ [.block]) st'.closeBlock
  enter : ∀ {st}, W.Ok st → W.Ok st.newEnclosed
  functionName : ∀ {st} (name : String), W.Ok st →
    W.Allows Set.univ st.newEnclosed (st.newEnclosed.defineFunctionName name)
  leave : ∀ {names st st'}, W.Ok st → W.Allows Set.univ st.newEnclosed st' →
    W.Allows names st (st'.outer?.getD st')
  leave_err : ∀ {reach inner st path st'}, inner.Inside .function reach → W.Ok st →
    W.Err inner st.newEnclosed path st' → W.Err reach st (path ++ [.function]) st'

variable {W : Walk} [hW : W.Lawful] {names : Set String} {reach inner : Reach} {m m' : CompileM α}
  {k : α → CompileM β}

/-! ### Rules -/

theorem allows_refl (h : W.Ok st) : W.Allows names st st := ⟨h, hW.refl h⟩

/-- One action, then others that obey the walk. -/
theorem Ran.bind {s : CompilerState} (h : W.Ran reach st (m s))
    (hk : ∀ a, W.Keeps reach (k a)) : W.Ran reach st ((m >>= k) s) := by
  cases hrun : m s with
  | error e s₁ =>
    rw [bind_of_error hrun]
    rw [hrun] at h
    exact h
  | ok a s₁ =>
    rw [bind_of_ok hrun]
    rw [hrun] at h
    have hrest := hk a s₁ h.1
    cases hrun' : k a s₁ with
    | error e s₂ =>
      rw [hrun'] at hrest
      exact hW.err_trans h.2 hrest
    | ok b s₂ =>
      rw [hrun'] at hrest
      exact ⟨hrest.1, hW.trans h.2 hrest.2⟩

theorem Keeps.bind (hm : W.Keeps reach m) (hk : ∀ a, W.Keeps reach (k a)) :
    W.Keeps reach (m >>= k) := fun s hs => (hm s hs).bind hk

theorem Keeps.pure (a : α) : W.Keeps reach (pure a : CompileM α) := fun _ hs => allows_refl hs

theorem Keeps.fail (e : CompileError) : W.Keeps reach (fail e : CompileM α) := fun _ hs =>
  hW.fail hs

theorem Keeps.fail_bind (e : CompileError) : W.Keeps reach (Mutant.Compiler.fail e >>= k) :=
  fun _ hs => hW.fail hs

theorem Keeps.get : W.Keeps reach get := fun _ hs => allows_refl hs

/-- A change of the state that leaves the tables alone. -/
theorem Keeps.modify {f : CompilerState → CompilerState}
    (hf : ∀ s, (f s).symbolTable = s.symbolTable) : W.Keeps reach (modify f) := by
  intro s hs
  show W.Allows reach.names s.symbolTable (f s).symbolTable
  rw [hf]
  exact allows_refl hs

omit hW in
theorem Keeps.ite {c : Prop} [Decidable c] (hm : W.Keeps reach m) (hm' : W.Keeps reach m') :
    W.Keeps reach (if c then m else m') := by
  split_ifs
  · exact hm
  · exact hm'

theorem Keeps.discard (h : W.Keeps reach m) : W.Keeps reach (discard m) := by
  exact h.bind fun _ => .pure _

omit hW in
theorem Keeps.ensuring (hm : W.Keeps reach m)
    (haft : ∀ s, (after s).symbolTable = s.symbolTable) : W.Keeps reach (ensuring m after) := by
  intro s hs
  have h := hm s hs
  unfold Mutant.Compiler.ensuring
  cases hrun : m s <;> rw [hrun] at h <;> unfold Ran at * <;> simpa only [haft] using h

omit hW in
theorem Keeps.onError (hm : W.Keeps reach m) (haft : ∀ s, (after s).symbolTable = s.symbolTable) :
    W.Keeps reach (onError m after) := by
  intro s hs
  have h := hm s hs
  unfold Mutant.Compiler.onError
  cases hrun : m s <;> rw [hrun] at h <;> unfold Ran at * <;> simpa only [haft] using h

theorem Keeps.forM {f : β → CompileM Unit} {xs : List β} (hf : ∀ x ∈ xs, W.Keeps reach (f x)) :
    W.Keeps reach (xs.forM f) := by
  induction xs with
  | nil => exact .pure ()
  | cons x xs ih =>
    exact .bind (hf x List.mem_cons_self) fun _ => ih (List.forall_mem_cons.mp hf).2

/-! ### Actions that leave the tables alone -/

theorem keeps_emit (op : Opcode) (ops : List Nat) : W.Keeps reach (emit op ops) := by
  unfold emit
  cases make? op ops with
  | none => exact .fail _
  | some i => exact .bind .get fun _ => .bind (.modify fun _ => rfl) fun _ => .pure _

theorem keeps_emit_discard {op : Opcode} {ops : List Nat} :
    W.Keeps reach (discard (emit op ops)) := (keeps_emit op ops).discard

theorem keeps_currentPosition : W.Keeps reach currentPosition := fun _ hs => allows_refl hs

theorem keeps_emitPlaceholder {op : Opcode} {rest : List Nat} :
    W.Keeps reach (emitPlaceholder op rest) :=
  .bind (keeps_emit op _) fun _ => .bind (.modify fun _ => rfl) fun _ => .pure _

theorem keeps_changeOperand {p tgt : Nat} : W.Keeps reach (changeOperand p tgt) :=
  .ite (.fail_bind _) (.modify fun _ => rfl)

theorem keeps_changeOperands {ps : List Nat} {tgt : Nat} :
    W.Keeps reach (changeOperands ps tgt) := .forM fun _ _ => keeps_changeOperand

/-- A jump that is patched to lead here. -/
theorem keeps_patchHere {p : Nat} : W.Keeps reach (do changeOperand p (← currentPosition)) :=
  .bind keeps_currentPosition fun _ => keeps_changeOperand

theorem keeps_addConstant (c : Constant) : W.Keeps reach (addConstant c) := fun _ hs =>
  allows_refl hs

theorem keeps_emitConstant {c : Constant} : W.Keeps reach (emitConstant c) :=
  .bind (keeps_addConstant c) fun _ => keeps_emit_discard

theorem keeps_leaveOneValue (endsInValue : Bool) : W.Keeps reach (leaveOneValue endsInValue) :=
  .ite (.modify fun _ => rfl) keeps_emit_discard

variable {m : CompileM Unit}

theorem keeps_withPending (n : Nat) (hm : W.Keeps reach m) : W.Keeps reach (withPending n m) :=
  .bind (.modify fun _ => rfl) fun _ => .ensuring hm fun _ => rfl

theorem keeps_node {kind : NodeKind} (hm : W.Keeps reach m) : W.Keeps reach (node kind m) :=
  .bind keeps_currentPosition fun _ => .bind hm fun _ => .bind keeps_currentPosition fun _ =>
    .modify fun _ => rfl

/-! ### Symbols -/

omit hW in
theorem keeps_withTable {f : SymbolTable → α × SymbolTable}
    (h : ∀ st, W.Ok st → W.Allows reach.names st (f st).2) : W.Keeps reach (withTable f) := fun s hs =>
  h s.symbolTable hs

theorem keeps_resolve (name : String) : W.Keeps reach (resolve name) :=
  keeps_withTable fun _ h => hW.resolve name h

theorem keeps_define {name : String} (hname : name ∈ reach.names) : W.Keeps reach (define name) :=
  keeps_withTable fun _ h => hW.define hname h

theorem keeps_internalSlot {kind : String} (hkind : NulFree kind) :
    W.Keeps reach (internalSlot kind) := by
  refine keeps_withTable fun st h => ?_
  cases hslot : st.resolveInternal (" " ++ kind) with
  | some x => exact allows_refl h
  | none => exact hW.internal hkind hslot h

theorem keeps_declare {name : String} (hname : name ∈ reach.names) : W.Keeps reach (declare name) := by
  refine .bind (keeps_define hname) fun _ => .bind (.modify fun s => ?_) fun _ => .pure _
  split_ifs
  · rfl
  · cases s.declScopes <;> rfl

theorem keeps_loadSymbol (x : Symbol) : W.Keeps reach (loadSymbol x) := by
  obtain ⟨name, scope, index⟩ := x
  cases scope with
  | builtinScope =>
    exact .bind (keeps_withTable fun _ h => hW.builtin name h) fun _ => keeps_emit_discard
  | _ => exact keeps_emit_discard

theorem keeps_emitCapture (x : Symbol) : W.Keeps reach (emitCapture x) := by
  obtain ⟨name, scope, index⟩ := x
  cases scope with
  | globalScope => exact keeps_loadSymbol ⟨name, .globalScope, index⟩
  | builtinScope => exact keeps_loadSymbol ⟨name, .builtinScope, index⟩
  | _ => exact keeps_emit_discard

theorem keeps_emitStoreOnly (x : Symbol) : W.Keeps reach (emitStoreOnly x) := by
  obtain ⟨name, scope, index⟩ := x
  cases scope with
  | globalScope | localScope => exact keeps_emit_discard
  | builtinScope | functionScope => exact .fail _
  | freeScope => exact .bind .get fun _ => .ite (.fail_bind _) keeps_emit_discard

theorem keeps_emitBindingStore (x : Symbol) : W.Keeps reach (emitBindingStore x) :=
  .ite keeps_emit_discard keeps_emit_discard

/-! ### Blocks and functions -/

/-- An action in a block of its own obeys the walk. -/
theorem keeps_inBlock (hin : inner.Inside .block reach) (hm : W.Keeps inner m) :
    W.Keeps reach (inBlock m) := by
  intro s hs
  have h := hm s.openBlock (hW.openBlock hs)
  show W.Ran reach _ (ensuring (within .block m) CompilerState.closeBlock s.openBlock)
  unfold ensuring within
  cases hrun : m s.openBlock with
  | ok u s' =>
    rw [hrun] at h
    exact hW.closeBlock hs (hin.names ▸ h)
  | error e s' =>
    rw [hrun] at h
    exact hW.closeBlock_err hin hs h

theorem keeps_parameters (hall : reach.names = Set.univ) (params : List String) :
    W.Keeps reach (parameters params) := by
  induction params with
  | nil => exact .pure ()
  | cons name params ih =>
    exact .bind .get fun _ => .ite (.fail_bind _)
      (.bind (keeps_declare (hall ▸ Set.mem_univ name)).discard fun _ => ih)

theorem keeps_endFunction (endsInValue : Bool) : W.Keeps reach (endFunction endsInValue) := by
  have hend : W.Keeps reach (do
      if !(← lastInstructionIs .opReturnValue) then discard (emit .opReturn)) :=
    .bind (.bind .get fun _ => .pure _) fun _ => .ite keeps_emit_discard (.pure ())
  exact .ite (.bind (.modify fun _ => rfl) fun _ => hend) hend

variable {body : CompileM Unit}

/-- A function's own stream, in the table that `enterScope` puts inside of `st`. -/
theorem ran_functionStream (name : String) (params : List String)
    (hall : inner.names = Set.univ) (hbody : W.Keeps inner body) (endsInValue : Bool)
    {s : CompilerState} (hst : W.Ok st) (hs : s.symbolTable = st.newEnclosed) :
    W.Ran inner st.newEnclosed (functionStream name params body endsInValue s) := by
  have hname : W.Ran inner st.newEnclosed (nameFunction name s) := by
    unfold nameFunction
    split_ifs
    · show W.Allows _ _ (s.symbolTable.defineFunctionName name)
      rw [hs, hall]
      exact hW.functionName name hst
    · show W.Allows _ _ s.symbolTable
      rw [hs]
      exact allows_refl (hW.enter hst)
  have hloops : W.Keeps inner (withoutLoops body) :=
    .bind .get fun _ => .bind (.modify fun _ => rfl) fun _ => .ensuring hbody fun _ => rfl
  have hassert : W.Keeps inner (assertJumpsResolved 0 "this function body") :=
    .bind .get fun _ => .ite (.fail _) (.pure ())
  exact hname.bind fun _ => .bind (keeps_parameters hall params) fun _ => .bind hloops fun _ =>
    .bind (keeps_endFunction endsInValue) fun _ => hassert

/-- The body of a function obeys the walk in a scope of its own. -/
theorem keeps_functionBody (name : String) (params : List String)
    (hin : inner.Inside .function reach) (hbody : W.Keeps inner body) (endsInValue : Bool) :
    W.Keeps reach (within .function (functionBody name params body endsInValue)) := by
  intro s hs
  obtain ⟨s₀, henter, hs₀⟩ : ∃ s₀, enterScope s = .ok () s₀ ∧
    s₀.symbolTable = s.symbolTable.newEnclosed := ⟨_, rfl, rfl⟩
  have h := ran_functionStream name params hin.names hbody endsInValue hs hs₀
  rw [functionBody_eq]
  unfold within
  rw [bind_of_ok henter]
  cases hrun : functionStream name params body endsInValue s₀ with
  | error e s₁ =>
    rw [hrun] at h
    rw [bind_of_error hrun]
    exact hW.leave_err hin hs h
  | ok u s₁ =>
    rw [hrun] at h
    rw [bind_of_ok hrun]
    exact hW.leave hs (hin.names ▸ h)

theorem keeps_functionLiteral (name : String) (params : List String)
    (hin : inner.Inside .function reach) (hbody : W.Keeps inner body) (endsInValue : Bool) :
    W.Keeps reach (functionLiteral name params body endsInValue) := by
  refine .bind (keeps_functionBody name params hin hbody endsInValue) fun _ => ?_
  refine .bind (.forM fun _ _ => keeps_emitCapture _) fun _ => ?_
  exact .bind (keeps_addConstant _) fun _ => keeps_emit_discard

end Walk

end Mutant.Compiler
