import Mutant.Compiler.Equiv.Executing
import Mutant.Compiler.Equiv.Steady
/-!
# Code that only reads

The hops of an assignment before the last are compiled once for every level of the chain, and the
compiler allows only names, literals and paths through them there (`pureAssignIndex`).  The code of
such an expression changes nothing and reads the same value (`Reading`) each time it is compiled
(`Repeatable`).

* `Repeatable.of_emits`, `Repeatable.of_alike`, `Decides.bind`: how code that reads is put together.
* `repeatable_compileExpr`: a pure index compiles to code that reads, and again to code that reads
  the same.
-/

namespace Mutant.Compiler

open Mutant.Ast Mutant.Code Mutant.Vm

variable {r : Reading} {m left : CompileM Unit} {u : Unit} {op : Opcode} {ops : List Nat}
  {c : Constant} {k : Nat} {pool : List Constant} {name : String} {reg : String → Bool}

/-! ### Readings -/

/-- What the code of an expression that only reads pushes. -/
inductive Reading
  | slot (x : Slot)
  | constant (c : Constant)
  | boolean (b : Bool)
  | builtin (operand : Nat)
  | closure
  | enumValue (typeName tag : String)
  | index (left index : Reading)
  | field (left : Reading) (name : String)

def Reading.value {K A W : Type} (M : Machine K A W) (memory : Memory K A W) :
    Reading → Except Fault (Value K A)
  | .slot x => .ok (memory.slots x)
  | .constant c => .ok (M.constant c)
  | .boolean b => .ok (.boolean b)
  | .builtin operand => M.builtin operand
  | .closure => .ok (M.currentClosure memory.world)
  | .enumValue typeName tag => M.enumValue typeName tag
  | .index left i =>
    (left.value M memory).bind fun container =>
      (i.value M memory).bind fun i => execIndexOperation M.toObjects container i
  | .field left name =>
    (left.value M memory).bind fun object => execGetField M.toObjects object name

/-- The code emitted between two states pushes what a reading gives, and changes nothing. -/
structure Reads (r : Reading) (s s' : CompilerState) : Prop where
  yields : ∀ {K A W : Type} [DecidableEq K] (M : Machine K A W) (pool : List Constant)
    (is : Instructions) (memory : Memory K A W), Carries s'.view is pool →
    Yields M pool is s.view.stop s'.view.stop memory ((r.value M memory).map fun v => (v, memory))

/-! ### Steady states -/

/-- What a pure expression depends on means the same in the second state. -/
structure CompilerState.Steady (s t : CompilerState) : Prop where
  tables : s.symbolTable.Steady t.symbolTable
  enums : t.enumDefinitions = s.enumDefinitions
  displays : t.moduleDisplays = s.moduleDisplays

theorem CompilerState.Steady.refl (s : CompilerState) : s.Steady s := ⟨.refl _, rfl, rfl⟩

theorem CompilerState.Steady.trans {s s₁ s' : CompilerState} (h : s.Steady s₁) (h' : s₁.Steady s') :
    s.Steady s' :=
  ⟨h.tables.trans h'.tables, h'.enums.trans h.enums, h'.displays.trans h.displays⟩

/-- A run that only reads, and reads the same when it is made again. -/
structure Repeats (m : CompileM Unit) (s s' : CompilerState) (r : Reading) : Prop where
  named : s'.symbolTable.Named
  grown : s.view.Grown s'.view
  steady : s.Steady s'
  reads : Reads r s s'
  again : ∀ t t', s'.Steady t → t.symbolTable.Named → m t = .ok () t' → Reads r t t'

/-- Every successful run only reads, and reads the same when it is made again. -/
def Repeatable (m : CompileM Unit) : Prop :=
  ∀ s s', s.symbolTable.Named → m s = .ok () s' → ∃ r, Repeats m s s' r

/-- An action that emits nothing and gives the same answer when it is made again. -/
def Decides {α : Type} (a : CompileM α) : Prop := ∀ s x s', s.symbolTable.Named → a s = .ok x s' →
    s'.symbolTable.Named ∧ s'.view = s.view ∧ s.Steady s' ∧
      ∀ t y t', s'.Steady t → a t = .ok y t' → y = x ∧ t' = t

section

variable {α : Type} {s s₁ s₂ s' : CompilerState}

/-- What is found in the tables, and then code that reads by what was found. -/
theorem Decides.bind {a : CompileM α} {k : α → CompileM Unit} (ha : Decides a)
    (hk : ∀ x, Repeatable (k x)) : Repeatable (a >>= k) := by
  intro s s' hs hrun
  obtain ⟨x, s₁, hax, hkx⟩ := bind_ok.mp hrun
  obtain ⟨hnm, hview, hsty, hag⟩ := ha s x s₁ hs hax
  obtain ⟨r, hr⟩ := hk x s₁ s' hnm hkx
  refine ⟨r, hr.named, hview ▸ hr.grown, hsty.trans hr.steady, ?_, ?_⟩
  · constructor
    intro K A W _ M pool is memory hcar
    rw [← hview]
    exact hr.reads.yields M pool is memory hcar
  · intro t t' ht htn htrun
    obtain ⟨y, t₁, hty, hky⟩ := bind_ok.mp htrun
    -- a later run finds the same, so it compiles the same code
    obtain ⟨rfl, rfl⟩ := hag t y t₁ (hr.steady.trans ht) hty
    exact hr.again t₁ t' ht htn hky

theorem Repeatable.fail (e : CompileError) : Repeatable (fail e) := fun _ _ _ h =>
  (fail_ok.mp h).elim

/-- What was emitted between two states left the tables alone. -/
structure CompilerState.Emits (s s' : CompilerState) : Prop where
  grown : s.view.Grown s'.view
  steady : s.Steady s'
  symbolTable : s'.symbolTable = s.symbolTable

theorem CompilerState.Emits.trans (h : s.Emits s₁) (h' : s₁.Emits s') : s.Emits s' :=
  ⟨h.grown.trans h'.grown, h.steady.trans h'.steady, h'.symbolTable.trans h.symbolTable⟩

/-- An action whose every run emits code that reads the same. -/
theorem Repeatable.of_emits (h : ∀ s s', m s = .ok () s' → s.Emits s' ∧ Reads r s s') :
    Repeatable m := by
  intro s s' hs hrun
  obtain ⟨hem, hrds⟩ := h s s' hrun
  exact ⟨r, hem.symbolTable ▸ hs, hem.grown, hem.steady, hrds,
    fun t t' _ _ ht => (h t t' ht).2⟩

/-- Two states that differ only in what no code depends on. -/
structure CompilerState.Alike (s t : CompilerState) : Prop where
  code : t.view.code = s.view.code
  constants : t.view.constants = s.view.constants
  symbolTable : t.symbolTable = s.symbolTable
  enums : t.enumDefinitions = s.enumDefinitions
  displays : t.moduleDisplays = s.moduleDisplays

/-- Such states agree on everything that settles. -/
theorem CompilerState.Alike.steady (h : s.Alike s') : s.Steady s' :=
  ⟨h.symbolTable ▸ .refl _, h.enums, h.displays⟩

theorem CompilerState.Alike.grown (h : s.Alike s') : s.view.Grown s'.view :=
  ⟨h.code ▸ List.prefix_refl _, h.constants ▸ List.prefix_refl _⟩

theorem CompilerState.Alike.stop (h : s.Alike s') : s'.view.stop = s.view.stop := by
  unfold View.stop
  rw [h.code]

/-- Code that reads, run on a given stack. -/
theorem Reads.goes {K A W : Type} [DecidableEq K] {M : Machine K A W} {is : Instructions}
    {memory : Memory K A W} (h : Reads r s s') (hcar : Carries s'.view is pool)
    (stk : List (Value K A)) : Goes M pool is s.view.stop s'.view.stop stk memory
      ((r.value M memory).map fun v => (v :: stk, memory)) := by
  have hgoes := (h.yields M pool is memory hcar).goes stk
  rwa [Result.map_map] at hgoes

/-- Code reads a value when every machine that runs it pushes that value and changes nothing. -/
theorem reads_of_goes (h : ∀ {K A W : Type} [DecidableEq K] (M : Machine K A W)
    (pool : List Constant) (is : Instructions) (memory : Memory K A W), Carries s'.view is pool →
    ∀ stk, Goes M pool is s.view.stop s'.view.stop stk memory
      ((r.value M memory).map fun v => (v :: stk, memory))) : Reads r s s' := by
  constructor
  intro K A W _ M pool is memory hcar
  apply yields_of_goes
  intro stk
  rw [Result.map_map]
  exact h M pool is memory hcar stk

theorem Reads.of_alike (h : Reads r s₁ s₂) (hst : s.Alike s₁) (hend : s₂.Alike s') :
    Reads r s s' := by
  constructor
  intro K A W _ M pool is memory hcar
  rw [← hst.stop, hend.stop]
  exact h.yields M pool is memory (hcar.of_grown hend.grown)

/-- An action that makes the run of another among states alike. -/
theorem Repeatable.of_alike {m' : CompileM Unit} (hm : Repeatable m)
    (h : ∀ s s', m' s = .ok () s' → ∃ s₀ s₁, s.Alike s₀ ∧ m s₀ = .ok () s₁ ∧ s₁.Alike s') :
    Repeatable m' := by
  intro s s' hs hrun
  obtain ⟨s₀, s₁, hst, hrun₁, hend⟩ := h s s' hrun
  obtain ⟨r, hr⟩ := hm s₀ s₁ (hst.symbolTable ▸ hs) hrun₁
  refine ⟨r, hend.symbolTable ▸ hr.named, (hst.grown.trans hr.grown).trans hend.grown,
    (hst.steady.trans hr.steady).trans hend.steady, hr.reads.of_alike hst hend, ?_⟩
  intro t t' ht htn htrun
  obtain ⟨t₀, t₁, htstart, htrun₁, htend⟩ := h t t' htrun
  have hag := hr.again t₀ t₁ ((hend.steady.trans ht).trans htstart.steady)
    (htstart.symbolTable ▸ htn) htrun₁
  exact hag.of_alike htstart htend

/-- Counting operands as waiting does not change the code. -/
theorem withPending_alike {n : Nat} (h : withPending n m s = .ok u s') :
    ∃ s₀ s₁, s.Alike s₀ ∧ m s₀ = .ok () s₁ ∧ s₁.Alike s' := by
  unfold withPending at h
  simp only [bind_ok, modify_ok, ensuring_ok] at h
  obtain ⟨_, _, rfl, s₁, hm, rfl⟩ := h
  refine ⟨_, s₁, ?_, hm, ?_⟩
  · exact ⟨rfl, rfl, rfl, rfl, rfl⟩
  · exact ⟨rfl, rfl, rfl, rfl, rfl⟩

theorem node_alike {kind : NodeKind} (h : node kind m s = .ok u s') :
    ∃ s₀ s₁, s.Alike s₀ ∧ m s₀ = .ok () s₁ ∧ s₁.Alike s' := by
  obtain ⟨s₁, hm, rfl⟩ := node_ok h
  exact ⟨s, s₁, ⟨rfl, rfl, rfl, rfl, rfl⟩, hm, ⟨rfl, rfl, rfl, rfl, rfl⟩⟩

theorem Repeatable.withPending (hm : Repeatable m) (n : Nat) :
    Repeatable (withPending n m) := hm.of_alike fun _ _ h => withPending_alike h

theorem Repeatable.node (hm : Repeatable m) (kind : NodeKind) :
    Repeatable (node kind m) := hm.of_alike fun _ _ h => node_alike h

/-! ### Instructions that push -/

/-- Emitting an instruction adds to the code and touches no table. -/
theorem emit_grown (h : discard (emit op ops) s = .ok u s') : s.Emits s' := by
  obtain ⟨p, hemit⟩ := discard_ok.mp h
  obtain ⟨-, -, rfl⟩ := emit_ok.mp hemit
  exact ⟨⟨⟨[_], rfl⟩, List.prefix_refl _⟩, ⟨.refl _, rfl, rfl⟩, rfl⟩

/-- An instruction that pushes the value of a reading, with every pool that extends the constants. -/
def Instr.Pushes (i : Instr) (r : Reading) (constants : List Constant) : Prop :=
  ∀ {K A W : Type} [DecidableEq K] (M : Machine K A W) (pool : List Constant)
    (stack : List (Value K A)) (memory : Memory K A W), constants <+: pool →
    operate M pool i stack memory = some ((r.value M memory).map fun v => (v :: stack, memory))

/-- An instruction that pushes one value. -/
theorem reads_emit (hrun : discard (emit op ops) s = .ok u s')
    (h : Instr.Pushes ⟨op, ops⟩ r s'.view.constants) : Reads r s s' := by
  refine reads_of_goes fun M pool is memory hcar stk => ?_
  exact emit_goes hrun hcar (h M pool stk memory hcar.constants)

theorem Repeatable.emit (h : Instr.Pushes ⟨op, ops⟩ r []) : Repeatable (discard (emit op ops)) :=
  .of_emits fun _ _ hrun => ⟨emit_grown hrun,
    reads_emit hrun fun M pool stk memory _ => h M pool stk memory List.nil_prefix⟩

/-- A constant is added to the pool, and no code is written. -/
theorem addConstant_run (h : addConstant c s = .ok k s') :
    s.Emits s' ∧ s'.view.stop = s.view.stop ∧ s'.view.constants[k]? = some c := by
  obtain ⟨_, _, ⟨rfl, rfl⟩, _, _, rfl, rfl, rfl⟩ := h
  refine ⟨⟨⟨List.prefix_refl _, ⟨[c], rfl⟩⟩, ⟨.refl _, rfl, rfl⟩, rfl⟩, rfl, ?_⟩
  exact List.getElem?_concat_length

theorem constantString_of_getElem? {text : String}
    (h : pool[k]? = some (.string text)) (what : String) : constantString pool what k = .ok text := by
  simp only [constantString, constantAt, h]

/-! ### Symbols and constants -/

/-- A question to the tables that is answered alike once they have settled. -/
theorem decides_withTable {f : SymbolTable → α × SymbolTable}
    (hnm : ∀ st : SymbolTable, st.Named → (f st).2.Named)
    (hsty : ∀ st : SymbolTable, st.Named → st.Steady (f st).2)
    (hag : ∀ st st' : SymbolTable, st.Named → (f st).2.Steady st' → f st' = ((f st).1, st')) :
    Decides (withTable f) := by
  intro s x s' hs hrun
  cases hrun
  refine ⟨hnm _ hs, rfl, ⟨hsty _ hs, rfl, rfl⟩, ?_⟩
  intro t y t' ht htrun
  have hsame := hag _ t.symbolTable hs ht.tables
  unfold withTable at htrun
  rw [hsame] at htrun
  cases htrun
  exact ⟨rfl, rfl⟩

/-- A symbol is loaded from one slot, whatever its scope. -/
theorem repeatable_loadSymbol (x : Symbol) : Repeatable (loadSymbol x) := by
  obtain ⟨name, scope, index⟩ := x
  cases scope with
  | globalScope => exact .emit (r := .slot (.globalSlot index)) fun _ _ _ _ _ => rfl
  | localScope => exact .emit (r := .slot (.localSlot index)) fun _ _ _ _ _ => rfl
  | freeScope => exact .emit (r := .slot (.freeSlot index)) fun _ _ _ _ _ => rfl
  | functionScope => exact .emit (r := .closure) fun _ _ _ _ _ => rfl
  | builtinScope =>
    -- the name is interned at its first use, and found there at every later one
    apply Decides.bind (a := withTable (·.referenceBuiltin name))
    · refine decides_withTable (fun st hst => hst.referenceBuiltin name)
        (fun st _ => st.steady_referenceBuiltin name) ?_
      exact fun st st' _ hst' => hst'.interned name _ (st.interned_referenceBuiltin name)
    · intro ref
      refine .emit (r := .builtin (builtinNameTableFlag ||| ref)) ?_
      intro K A W _ M pool stk memory _
      show some _ = some _
      simp only [Reading.value]
      cases M.builtin (builtinNameTableFlag ||| ref) <;> rfl

/-- The code of a constant pushes it, in whatever state it was compiled. -/
theorem reads_emitConstant (hrun : emitConstant c s = .ok u s') :
    s.Emits s' ∧ Reads (.constant c) s s' := by
  obtain ⟨k, s₁, hadd, hemit⟩ := bind_ok.mp hrun
  obtain ⟨hadds, hstop, hk⟩ := addConstant_run hadd
  have hem := emit_grown hemit
  have hrds : Reads (.constant c) s₁ s' := by
    refine reads_emit hemit ?_
    intro K A W _ M pool stk memory hpool
    show some _ = some _
    rw [constantAt, getElem?_of_grown hk (hem.grown.constants.trans hpool)]
    rfl
  refine ⟨hadds.trans hem, ⟨?_⟩⟩
  rw [← hstop]
  exact hrds.yields

theorem repeatable_emitConstant (c : Constant) : Repeatable (emitConstant c) :=
  .of_emits fun _ _ => reads_emitConstant

theorem decides_resolve (hname : SourceName name) : Decides (resolve name) :=
  decides_withTable (fun _ hst => hst.resolve name) (fun _ hst => hst.steady_resolve hname)
    fun _ _ hst hst' => hst'.fixed name _ (hst.fixed hname)

theorem repeatable_identifier (hname : SourceName name) : Repeatable (identifier name) := by
  apply (decides_resolve hname).bind
  rintro (_ | x)
  · exact .fail _
  · exact repeatable_loadSymbol x

/-! ### Hops -/

section

variable {K A W : Type} [DecidableEq K] {M : Machine K A W} {is : Instructions}
  {memory : Memory K A W} {stk : List (Value K A)} {object : Value K A}

/-- The instruction that reads the element at the index on the stack. -/
theorem getIndex_goes {i : Value K A} (hemit : discard (emit .opIndex) s = .ok u s')
    (hcar : Carries s'.view is pool) :
    Goes M pool is s.view.stop s'.view.stop (i :: object :: stk) memory
      ((execIndexOperation M.toObjects object i).map fun v => (v :: stk, memory)) := by
  apply emit_goes hemit hcar
  show some _ = some _
  rw [indexTop]
  cases execIndexOperation M.toObjects object i <;> rfl

/-- Reading a field: the constant holds the name by the time the code is run. -/
theorem getField_goes (hadd : addConstant (.string name) s = .ok k s₁)
    (hemit : discard (emit .opGetField [k]) s₁ = .ok u s') (hcar : Carries s'.view is pool) :
    Goes M pool is s.view.stop s'.view.stop (object :: stk) memory
      ((execGetField M.toObjects object name).map fun v => (v :: stk, memory)) := by
  obtain ⟨-, hstop, hk⟩ := addConstant_run hadd
  have hname := getElem?_of_grown hk ((emit_grown hemit).1.constants.trans hcar.constants)
  rw [← hstop]
  apply emit_goes hemit hcar
  show some _ = some _
  rw [constantString_of_getElem? hname]
  simp only [Except.bind, getFieldTop]
  cases execGetField M.toObjects object name <;> rfl

end

/-- Indexing one reading by another is a reading. -/
theorem reads_index {l i : Reading} (hl : Reads l s s₁) (hi : Reads i s₁ s₂)
    (hgr : s₁.view.Grown s₂.view) (hemit : discard (emit .opIndex) s₂ = .ok u s') :
    Reads (.index l i) s s' := by
  refine reads_of_goes fun M pool is memory hcar stk => ?_
  have hcar₂ := hcar.of_grown (emit_grown hemit).1
  simp only [Reading.value, Result.map_bind]
  refine (hl.goes (hcar₂.of_grown hgr) stk).bind fun c _ => ?_
  exact (hi.goes hcar₂ (c :: stk)).bind fun k _ => getIndex_goes hemit hcar

/-- A field of a reading is a reading. -/
theorem reads_field {l : Reading} (hl : Reads l s s₁)
    (hadd : addConstant (.string name) s₁ = .ok k s₂)
    (hemit : discard (emit .opGetField [k]) s₂ = .ok u s') : Reads (.field l name) s s' := by
  refine reads_of_goes fun M pool is memory hcar stk => ?_
  have hem := (addConstant_run hadd).1.trans (emit_grown hemit)
  simp only [Reading.value, Result.map_bind]
  refine (hl.goes (hcar.of_grown hem.grown) stk).bind fun c _ => ?_
  exact getField_goes hadd hemit hcar

/-- An index whose two sides read is itself code that reads. -/
theorem repeatable_indexExpression {idx : CompileM Unit} (hleft : Repeatable left)
    (hidx : Repeatable idx) : Repeatable (indexExpression left idx) := by
  have hpend := hidx.withPending 1
  intro s s' hs hrun
  obtain ⟨_, s₁, hrun₁, hrun⟩ := bind_ok.mp hrun
  obtain ⟨_, s₂, hrun₂, hemit⟩ := bind_ok.mp hrun
  obtain ⟨l, hl⟩ := hleft s s₁ hs hrun₁
  obtain ⟨i, hi⟩ := hpend s₁ s₂ hl.named hrun₂
  obtain ⟨hgr, hsty, htab⟩ := emit_grown hemit
  refine ⟨.index l i, htab ▸ hi.named, (hl.grown.trans hi.grown).trans hgr,
    (hl.steady.trans hi.steady).trans hsty, reads_index hl.reads hi.reads hi.grown hemit, ?_⟩
  intro t t' ht htn htrun
  obtain ⟨_, t₁, htrun₁, htrun⟩ := bind_ok.mp htrun
  obtain ⟨_, t₂, htrun₂, htemit⟩ := bind_ok.mp htrun
  -- the second run is steady too, so that the index finds what the first one fixed
  obtain ⟨_, hl'⟩ := hleft t t₁ htn htrun₁
  obtain ⟨_, hi'⟩ := hpend t₁ t₂ hl'.named htrun₂
  have ht₂ := hsty.trans ht
  refine reads_index ?_ ?_ hi'.grown htemit
  · exact hl.again t t₁ (hi.steady.trans ht₂) htn htrun₁
  · exact hi.again t₁ t₂ (ht₂.trans hl'.steady) hl'.named htrun₂

/-- A field of something that is read. -/
theorem repeatable_fieldRead (hleft : Repeatable left) (field : String) :
    Repeatable (fieldRead left field) := by
  intro s s' hs hrun
  obtain ⟨_, s₁, hrun₁, hrun⟩ := bind_ok.mp hrun
  obtain ⟨k, s₂, hadd, hemit⟩ := bind_ok.mp hrun
  obtain ⟨l, hl⟩ := hleft s s₁ hs hrun₁
  have hem := (addConstant_run hadd).1.trans (emit_grown hemit)
  refine ⟨.field l field, hem.symbolTable ▸ hl.named, hl.grown.trans hem.grown,
    hl.steady.trans hem.steady, reads_field hl.reads hadd hemit, ?_⟩
  intro t t' ht htn htrun
  obtain ⟨_, t₁, htrun₁, htrun⟩ := bind_ok.mp htrun
  obtain ⟨k', t₂, htadd, htemit⟩ := bind_ok.mp htrun
  have hag := hl.again t t₁ (hem.steady.trans ht) htn htrun₁
  exact reads_field hag htadd htemit

/-! ### Fields of names -/

theorem Decides.pure (x : α) : Decides (pure x) := by
  intro s y s' hs hrun
  obtain ⟨rfl, rfl⟩ := pure_ok.mp hrun
  refine ⟨hs, rfl, .refl s, ?_⟩
  intro t z t' _ htrun
  obtain ⟨rfl, rfl⟩ := pure_ok.mp htrun
  exact ⟨rfl, rfl⟩

/-- Two questions to the tables, one after the other. -/
theorem Decides.andThen {β : Type} {a : CompileM α} {k : α → CompileM β} (ha : Decides a)
    (hk : ∀ x, Decides (k x)) : Decides (a >>= k) := by
  intro s y s' hs hrun
  obtain ⟨x, s₁, hax, hkx⟩ := bind_ok.mp hrun
  obtain ⟨hnm, hview, hsty, hag⟩ := ha s x s₁ hs hax
  obtain ⟨hnm', hview', hsty', hag'⟩ := hk x s₁ y s' hnm hkx
  refine ⟨hnm', hview'.trans hview, hsty.trans hsty', ?_⟩
  intro t z t' ht htrun
  obtain ⟨x', t₁, hta, htk⟩ := bind_ok.mp htrun
  obtain ⟨rfl, rfl⟩ := hag t x' t₁ (hsty'.trans ht) hta
  exact hag' t₁ z t' ht htk

/-- An action that asks the state only for what is steady. -/
theorem Decides.get {k : CompilerState → CompileM α} (hk : ∀ s, Decides (k s))
    (hsame : ∀ s t, s.Steady t → k t = k s) : Decides (get >>= k) := by
  intro s x s' hs hrun
  replace hrun := get_bind_ok.mp hrun
  obtain ⟨hnm, hview, hsty, hag⟩ := hk s s x s' hs hrun
  refine ⟨hnm, hview, hsty, ?_⟩
  intro t y t' ht htrun
  replace htrun := get_bind_ok.mp htrun
  rw [hsame s t (hsty.trans ht)] at htrun
  exact hag t y t' ht htrun

/-- Code that looks at the compiler's state, as long as it looks only at what settles. -/
theorem Repeatable.get {k : CompilerState → CompileM Unit} (hk : ∀ s, Repeatable (k s))
    (hsame : ∀ s t, s.Steady t → k t = k s) : Repeatable (get >>= k) := by
  intro s s' hs hrun
  replace hrun := get_bind_ok.mp hrun
  obtain ⟨r, hr⟩ := hk s s s' hs hrun
  refine ⟨r, hr.named, hr.grown, hr.steady, hr.reads, ?_⟩
  intro t t' ht htn htrun
  replace htrun := get_bind_ok.mp htrun
  rw [hsame s t (hr.steady.trans ht)] at htrun
  exact hr.again t t' ht htn htrun

theorem resolveModuleMember_of_steady {ns key : String} (h : s.Steady s') :
    resolveModuleMember s' ns key name = resolveModuleMember s ns key name := by
  unfold resolveModuleMember moduleName
  rw [h.displays, h.tables.resolveIn]

/-- What a field expression means is settled by the tables. -/
theorem decides_resolveField {left : String} (hleft : SourceName left)
    (field : String) : Decides (resolveField reg left field) := by
  unfold resolveField
  split
  -- an empty name on either side is a plain access
  · exact .pure _
  · apply Decides.get
    · intro s
      split
      · exact .pure _
      · split
        · exact .pure _
        · apply (decides_resolve hleft).andThen
          intro sym
          dsimp only
          split
          · exact .pure _
          · exact .pure _
    · intro s t ht
      rw [ht.enums, ht.tables.lookupNamespace]
      simp only [resolveModuleMember_of_steady ht]

/-- A variant of an enum, from the two constants that name it. -/
theorem reads_enumValue {tname tag : String} {j : Nat}
    (hadd : addConstant (.string tname) s = .ok j s₁)
    (hadd' : addConstant (.string tag) s₁ = .ok k s₂)
    (hemit : discard (emit .opEnumValue [j, k]) s₂ = .ok u s') :
    s.Emits s' ∧ Reads (.enumValue tname tag) s s' := by
  obtain ⟨hadds, hstop, hj⟩ := addConstant_run hadd
  obtain ⟨hadds', hstop', hk⟩ := addConstant_run hadd'
  have hem := emit_grown hemit
  have hrds : Reads (.enumValue tname tag) s₂ s' := by
    refine reads_emit hemit ?_
    intro K A W _ M pool stk memory hpool
    have hpool₂ := hem.grown.constants.trans hpool
    show some _ = some _
    rw [constantString_of_getElem? (getElem?_of_grown hj (hadds'.grown.constants.trans hpool₂)),
      constantString_of_getElem? (getElem?_of_grown hk hpool₂)]
    simp only [Except.bind, Reading.value]
    cases M.enumValue tname tag <;> rfl
  refine ⟨(hadds.trans hadds').trans hem, ⟨?_⟩⟩
  rw [← hstop, ← hstop']
  exact hrds.yields

/-- The check of a field emits nothing. -/
theorem checkFieldIsDeclared_ok {structType field : String} {isWrite : Bool}
    (h : checkFieldIsDeclared structType field isWrite s = .ok u s') : s' = s := by
  have hrun := get_bind_ok.mp h
  cases hlook : s.structDefinitions.lookup structType with
  | none =>
    rw [hlook] at hrun
    exact (pure_ok.mp hrun).2.symm
  | some declared =>
    rw [hlook] at hrun
    obtain ⟨-, hfail⟩ | ⟨-, hpure⟩ := ite_ok.mp hrun
    · exact (fail_ok.mp hfail).elim
    · exact (pure_ok.mp hpure).2.symm

theorem CompilerState.Alike.refl (s : CompilerState) : s.Alike s := ⟨rfl, rfl, rfl, rfl, rfl⟩

/-- A field expression, for each thing it can turn out to mean. -/
theorem repeatable_fieldExpression {name : Option String}
    (hname : ∀ ident, name = some ident → SourceName ident)
    (hleft : Repeatable left) (field : String) :
    Repeatable (fieldExpression reg name left field) := by
  cases name with
  | none => exact repeatable_fieldRead hleft field
  | some ident =>
    apply (decides_resolveField (hname ident rfl) field).bind
    rintro (_ | key | flat | _ | refusal)
    case enumValue =>
      refine .of_emits (r := .enumValue ident field) fun s s' hrun => ?_
      obtain ⟨j, s₁, hadd, hrun⟩ := bind_ok.mp hrun
      obtain ⟨k, s₂, hadd', hemit⟩ := bind_ok.mp hrun
      exact reads_enumValue hadd hadd' hemit
    case moduleMember =>
      -- a member of a module is a global of the root table, which nothing here changes
      apply Repeatable.get
      · intro s
        cases s.symbolTable.resolveIn key field with
        | none => exact .fail _
        | some sym => exact repeatable_loadSymbol sym
      · intro s t ht
        rw [ht.tables.resolveIn]
    case builtinFold => exact repeatable_loadSymbol _
    case refused => exact .fail _
    case valueAccess =>
      -- the check of the field, where the type is known, leaves no trace
      refine (repeatable_fieldRead hleft field).of_alike fun s s' hrun => ⟨s, s', .refl s, ?_, .refl s'⟩
      replace hrun := get_bind_ok.mp hrun
      cases htype : structTypeOfBinding s ident with
      | none =>
        rw [htype] at hrun
        exact hrun
      | some structType =>
        rw [htype] at hrun
        obtain ⟨_, s₁, hcheck, hrun⟩ := bind_ok.mp hrun
        rwa [checkFieldIsDeclared_ok hcheck] at hrun

end

/-! ### The tree -/

/-- The names a path through names reads. -/
def pathNames : Expr → List String
  | .ident name => [name]
  | .index left index => pathNames left ++ pathNames index
  | .field left _ => pathNames left
  | _ => []

/-- An index that may be evaluated more than once reads the same each time. -/
theorem repeatable_compileExpr {e : Expr} (hpure : pureAssignIndex e = true)
    (hns : ∀ name ∈ pathNames e, SourceName name) : Repeatable (compileExpr reg e) := by
  fun_induction pureAssignIndex e with
  | case1 name =>
    exact (repeatable_identifier (hns name (List.mem_singleton_self name))).node _
  | case2 v | case3 bits | case4 v =>
    exact (repeatable_emitConstant _).node _
  | case5 v =>
    cases v
    · exact (Repeatable.emit (r := .boolean false) fun _ _ _ _ _ => rfl).node _
    · exact (Repeatable.emit (r := .boolean true) fun _ _ _ _ _ => rfl).node _
  | case6 left idx ihleft ihindex =>
    obtain ⟨hleft, hidx⟩ := Bool.and_eq_true_iff.mp hpure
    refine (repeatable_indexExpression (ihleft hleft ?_) (ihindex hidx ?_)).node _
    · exact fun name hname => hns name (List.mem_append_left _ hname)
    · exact fun name hname => hns name (List.mem_append_right _ hname)
  | case7 left name ih =>
    refine (repeatable_fieldExpression ?_ (ih hpure hns) name).node _
    intro ident hident
    cases left with
    | ident text =>
      cases hident
      exact hns _ (List.mem_singleton_self _)
    | _ => cases hident
  | case8 => cases hpure

end Mutant.Compiler
