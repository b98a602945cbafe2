import Mutant.Compiler.Equiv.AssignRuns
import Mutant.Compiler.Equiv.NamedTree
import Mutant.Compiler.Equiv.Program
/-!
# What an assignment through a container leaves in the variable

The assignment `x<hops> = e` as a whole.  Its parts are the variable, the compiler's own slots, what
the outer hops read, and the code of the last hop and of the value, one after the other in what the
assignment emits (`AssignParts.Of`).  What the whole does with them (`compileExpr_assigns`) is to put
the value into the variable as it was before the last hop.  So nothing else of the variable changes
exactly when the last hop and the value leave it alone (`assignment_updates_element_iff`), and a value
that assigns to another element of the same variable is lost (`nestedAssignment_losesUpdate`).
-/

namespace Mutant.Compiler

open List Mutant.Ast Mutant.Code Mutant.Vm

variable {spill x : Symbol} {last : AssignStep} {indexSlot : Option Symbol}
  {outer steps : List AssignStep} {value : CompileM Unit}

/-! ### The last hop and the value -/

/-- Where the code of the last hop lies. -/
inductive HopCode
  | index (p q : Nat)
  | field (name : String)

/-- The code is that of a hop: the index was compiled there, between two views. -/
def HopCode.Of (v v' : View) (last : AssignStep) : HopCode → Prop
  | .index p q => ∃ isPure compile t t', last = .index isPure compile ∧ Inside v v' compile t t' ∧
      t.view.stop = p ∧ t'.view.stop = q
  | .field name => last = .field name

theorem HopCode.Of.mono {v₁ v v' : View} {code : HopCode} (h : code.Of v₁ v' last)
    (hst : v.Grown v₁) : code.Of v v' last := by
  cases code with
  | index p q =>
    obtain ⟨isPure, comp, t, t', hlast, hin, hp, hq⟩ := h
    exact ⟨isPure, comp, t, t', hlast, hin.mono hst (.refl _), hp, hq⟩
  | field name => exact h

/-- Evaluating the last hop. -/
def HopCode.Runs {K A W : Type} [DecidableEq K] (M : Machine K A W) (pool : List Constant)
    (is : Instructions) (memory : Memory K A W) : HopCode → Hop K A → Memory K A W → Prop
  | .index p q, .index i, memory' => Yields M pool is p q memory (.ok (i, memory'))
  | .field name, .field name', memory' => name' = name ∧ memory' = memory
  | _, _, _ => False

/-- The memory the value is evaluated in, when the index is kept in a scratch slot. -/
def keepIndex {K A W : Type} (scratch : Option Slot) (memory : Memory K A W) : Hop K A → Memory K A W
  | .index i => scratch.elim memory (memory.set · i)
  | .field _ => memory

section

variable {s s' : CompilerState} {value : CompileM Unit}

theorem spilled_growing (hval : Growing value) (spill : Symbol) :
    Growing (do value; emitStoreOnly spill; loadSymbol spill) :=
  hval.bind fun _ => (growing_emitStoreOnly spill).bind fun _ => growing_loadSymbol spill

theorem growing_tail (spill : Symbol) (hval : Growing value) : Growing (do
    withPending 2 (do value; emitStoreOnly spill; loadSymbol spill)
    discard (emit .opSetIndex)) :=
  ((spilled_growing hval spill).withPending 2).bind fun _ => growing_emit rfl

theorem grown_loadSymbol {slot : Slot} {u : Unit} (hx : x.slot? = some slot)
    (hrun : loadSymbol x s = .ok u s') : s.view.Grown s'.view := by
  obtain ⟨name, scope, index⟩ := x
  cases scope with
  | globalScope | localScope | freeScope | functionScope => exact (emit_grown hrun).1
  | builtinScope => cases hx

/-- A store that is compiled is appended. -/
theorem grown_emitStoreOnly {u : Unit} (hrun : emitStoreOnly x s = .ok u s') :
    s.view.Grown s'.view := by
  obtain ⟨name, scope, index⟩ := x
  cases scope with
  | globalScope | localScope => exact (emit_grown hrun).1
  | freeScope =>
    obtain ⟨-, hrun⟩ | ⟨-, hrun⟩ := ite_ok.mp (get_bind_ok.mp hrun)
    · obtain ⟨_, _, hfail, -⟩ := bind_ok.mp hrun
      exact (fail_ok.mp hfail).elim
    · exact (emit_grown hrun).1
  | builtinScope | functionScope => exact (fail_ok.mp hrun).elim

/-- What is stored and loaded again stays on the stack. -/
theorem storeLoad_goes {K A W : Type} [DecidableEq K] {M : Machine K A W} {pool : List Constant}
    {is : Instructions} {mem : Memory K A W} {v : Value K A} {stk : List (Value K A)} {slot : Slot}
    {u : CompilerState} (hx : x.slot? = some slot) (hsto : emitStoreOnly x s = .ok () u)
    (hload : loadSymbol x u = .ok () s') (hcar : Carries s'.view is pool) :
    Goes M pool is s.view.stop s'.view.stop (v :: stk) mem (.ok (v :: stk, mem.set slot v)) := by
  have hcar' := hcar.of_grown (grown_loadSymbol hx hload)
  refine Goes.trans (emitStoreOnly_goes hx hsto hcar') ?_
  have hfinal : Goes M pool is _ _ stk (mem.set slot v) _ := loadSymbol_goes hx hload hcar
  rwa [Memory.slots_set_self] at hfinal

/-- The value, kept in its scratch slot and loaded again. -/
theorem spilled_goes (hrun : (do value; emitStoreOnly spill; loadSymbol spill) s = .ok () s') :
    ∃ t' spillSlot, value s = .ok () t' ∧ t'.view.Grown s'.view ∧ spill.slot? = some spillSlot ∧
      ∀ {K A W : Type} [DecidableEq K] (M : Machine K A W) (pool : List Constant)
        (is : Instructions) (mem mem' : Memory K A W) (v : Value K A),
        Carries s'.view is pool →
        Yields M pool is s.view.stop t'.view.stop mem (.ok (v, mem')) → ∀ stk,
        Goes M pool is s.view.stop s'.view.stop stk mem
          (.ok (v :: stk, mem'.set spillSlot v)) := by
  obtain ⟨_, t', hval', hrun⟩ := bind_ok.mp hrun
  obtain ⟨_, u, hsto, hload⟩ := bind_ok.mp hrun
  obtain ⟨spillSlot, hslot⟩ := exists_slot_of_emitStoreOnly hsto
  refine ⟨t', spillSlot, hval', (grown_emitStoreOnly hsto).trans (grown_loadSymbol hslot hload),
    hslot, ?_⟩
  intro K A W _ M pool is mem mem' v hcar hyields stk
  exact Goes.trans (hyields.goes stk) (storeLoad_goes hslot hsto hload hcar)

/-- The end of a write through an index: the value is evaluated above the container and the index. -/
theorem storeIndex_goes (hrun : (do
      withPending 2 (do value; emitStoreOnly spill; loadSymbol spill)
      discard (emit .opSetIndex)) s = .ok () s') :
    ∃ t t' spillSlot, Inside s.view s'.view value t t' ∧ spill.slot? = some spillSlot ∧
      ∀ {K A W : Type} [DecidableEq K] (M : Machine K A W) (pool : List Constant)
        (is : Instructions) (mem mem' : Memory K A W) (v : Value K A),
        Carries s'.view is pool →
        Yields M pool is t.view.stop t'.view.stop mem (.ok (v, mem')) → ∀ i c stk,
        Goes M pool is s.view.stop s'.view.stop (i :: c :: stk) mem
          (((access M.toObjects).set c (.index i) v).map fun c' =>
            (c' :: stk, mem'.set spillSlot v)) := by
  obtain ⟨_, s₁, hpend, hemit⟩ := bind_ok.mp hrun
  obtain ⟨t, u, hst, hsp, hend⟩ := withPending_alike hpend
  obtain ⟨t', spillSlot, hval', hgr', hslot, hgoes⟩ := spilled_goes hsp
  have hgr : u.view.Grown s'.view := hend.grown.trans (emit_grown hemit).1
  refine ⟨t, t', spillSlot, ⟨hval', hst.grown, hgr'.trans hgr⟩, hslot, ?_⟩
  intro K A W _ M pool is mem mem' v hcar hyields i c stk
  have hfst := hgoes M pool is _ _ _ (hcar.of_grown hgr) hyields (i :: c :: stk)
  exact Goes.trans (goes_of_alike hst hend hfst) (setIndex_goes hemit hcar)

/-- Whether the index is kept in a scratch slot or not, the code goes on above it. -/
theorem keepIndex_goes {rest : CompileM Unit} (hwf : s.view.Wf) (hrun : (do
      match indexSlot with
      | some slot =>
        emitStoreOnly slot
        loadSymbol slot
      | none => pure ()
      rest) s = .ok () s') :
    ∃ t : CompilerState, t.view.Wf ∧ s.view.Grown t.view ∧ rest t = .ok () s' ∧
      ∀ {K A W : Type} [DecidableEq K] (M : Machine K A W) (pool : List Constant)
        (is : Instructions) (mem : Memory K A W), Carries t.view is pool → ∀ i stk,
        Goes M pool is s.view.stop t.view.stop (i :: stk) mem
          (.ok (i :: stk, keepIndex (indexSlot.bind Symbol.slot?) mem (.index i))) := by
  cases indexSlot with
  | none => exact ⟨s, hwf, .refl _, hrun, fun _ _ _ _ _ _ _ => Goes.refl⟩
  | some slot =>
    obtain ⟨_, s₁, hsto, hrun⟩ := bind_ok.mp hrun
    obtain ⟨_, t, hload, hrun⟩ := bind_ok.mp hrun
    obtain ⟨scratch, hscratch⟩ := exists_slot_of_emitStoreOnly hsto
    obtain ⟨hwf₁, hgr₁⟩ := growing_emitStoreOnly slot s () s₁ hsto hwf
    obtain ⟨hwf₂, hgr₂⟩ := growing_loadSymbol slot s₁ () t hload hwf₁
    rw [Option.bind_some, hscratch]
    exact ⟨t, hwf₂, hgr₁.trans hgr₂, hrun,
      fun _ _ _ _ hcar _ _ => storeLoad_goes hscratch hsto hload hcar⟩

/-- The write through the last hop: the hop is evaluated, then the value, each once and in that order,
and the value is written into the container that was on the stack before. -/
theorem storeLast_goes (hlast : last.Appends) (hval : Growing value) (hs : s.view.Wf)
    (hrun : storeThrough last indexSlot (do value; emitStoreOnly spill; loadSymbol spill) s =
      .ok () s') :
    ∃ (code : HopCode) (mid : View) (t t' : CompilerState) (spillSlot : Slot),
      code.Of s.view mid last ∧ mid.Grown s'.view ∧ Inside mid s'.view value t t' ∧
      spill.slot? = some spillSlot ∧
      ∀ {K A W : Type} [DecidableEq K] (M : Machine K A W) (pool : List Constant)
        (is : Instructions) (mem mem₁ mem₂ : Memory K A W) (hop : Hop K A) (v : Value K A),
        Carries s'.view is pool → code.Runs M pool is mem hop mem₁ →
        Yields M pool is t.view.stop t'.view.stop
          (keepIndex (indexSlot.bind Symbol.slot?) mem₁ hop) (.ok (v, mem₂)) → ∀ c stk,
        Goes M pool is s.view.stop s'.view.stop (c :: stk) mem
          (((access M.toObjects).set c hop v).map fun c' => (c' :: stk, mem₂.set spillSlot v)) := by
  have hwhole : s.view.Grown s'.view :=
    (growing_storeThrough hlast (spilled_growing hval spill) s () s' hrun hs).2
  cases last with
  | field name =>
    -- nothing is evaluated for the hop; its name is a constant
    obtain ⟨_, s₁, hpend, hrun⟩ := bind_ok.mp hrun
    obtain ⟨k, s₂, hadd, hemit⟩ := bind_ok.mp hrun
    obtain ⟨t, u, hst, hsp, hend⟩ := withPending_alike hpend
    obtain ⟨t', spillSlot, hval', hgr', hslot, hgoes⟩ := spilled_goes hsp
    have hgr : u.view.Grown s'.view :=
      (hend.grown.trans (addConstant_run hadd).1.1).trans (emit_grown hemit).1
    refine ⟨.field name, s.view, t, t', spillSlot, rfl, hwhole, ⟨hval', hst.grown, hgr'.trans hgr⟩,
      hslot, ?_⟩
    intro K A W _ M pool is mem mem₁ mem₂ hop v hcar hhop hyields c stk
    cases hop with
    | index i => exact hhop.elim
    | field name' =>
      obtain ⟨rfl, rfl⟩ := hhop
      have hfst := hgoes M pool is _ _ _ (hcar.of_grown hgr) hyields (c :: stk)
      exact Goes.trans (goes_of_alike hst hend hfst) (setField_goes hadd hemit hcar)
  | index isPure comp =>
    -- the index, kept or not, then the value above it and the container
    obtain ⟨_, s₁, hcomp, hrun⟩ := bind_ok.mp hrun
    obtain ⟨u, u', hustart, hu, huend⟩ := withPending_alike hcomp
    have hwf₁ := (Growing.withPending hlast 1 s _ s₁ hcomp hs).1
    have htail := growing_tail spill hval
    obtain ⟨s₂, hwf₂, hgr₂, hrun₂, hkeep⟩ := keepIndex_goes hwf₁ hrun
    obtain ⟨t, t', spillSlot, hin, hslot, hgoes⟩ := storeIndex_goes hrun₂
    have hgr₃ := (htail s₂ () s' hrun₂ hwf₂).2
    refine ⟨.index u.view.stop u'.view.stop, s₁.view, t, t', spillSlot,
      ⟨isPure, comp, u, u', rfl, ⟨hu, hustart.grown, huend.grown⟩, rfl, rfl⟩,
      hgr₂.trans hgr₃, hin.mono hgr₂ (.refl _), hslot, ?_⟩
    intro K A W _ M pool is mem mem₁ mem₂ hop v hcar hhop hyields c stk
    cases hop with
    | field name => exact hhop.elim
    | index i =>
      have hcar₂ := hcar.of_grown hgr₃
      have hidx := goes_of_alike hustart huend (Yields.goes hhop (c :: stk))
      exact Goes.trans hidx (Goes.trans (hkeep M pool is mem₁ hcar₂ i (c :: stk))
        (hgoes M pool is _ _ v hcar hyields i c stk))

end

/-! ### The parts of an assignment -/

/-- The parts of a compiled assignment: the variable, the scratch slots for the value and the index,
the hops before the last, the code of the last one, and where the code of the value lies. -/
structure AssignParts where
  target : Slot
  spill : Slot
  scratch : Option Slot
  outer : List HopReading
  last : HopCode
  valueStart : Nat
  valueStop : Nat

/-- The compiler's own slot for the index of an assignment that reads its target through it. -/
def keptIndex (s : CompilerState) (base foldOperator : String) : Option Symbol :=
  if foldOperator ≠ "" then
    some (((s.symbolTable.resolve base).2.internal "assign").2.internal "assignindex").1
  else none

/-- The parts are those of an assignment to a name through some hops, compiled from one state to
another: the code of the value comes after that of the last hop. -/
structure AssignParts.Of (parts : AssignParts) (s s' : CompilerState) (base : String)
    (steps : List AssignStep) (foldOperator : String)
    (value : Symbol → Option Symbol → CompileM Unit) : Prop where
  target : ∃ x, (s.symbolTable.resolve base).1 = some x ∧ x.slot? = some parts.target
  spill : ((s.symbolTable.resolve base).2.internal "assign").1.slot? = some parts.spill
  scratch : parts.scratch = (keptIndex s base foldOperator).bind Symbol.slot?
  outer : List.Forall₂ (HopReading.Of s.view s'.view) steps.dropLast parts.outer
  order : ∃ x last mid t t', (s.symbolTable.resolve base).1 = some x ∧ steps.getLast? = some last ∧
    parts.last.Of s.view mid last ∧ mid.Grown s'.view ∧
    Inside mid s'.view (value x (keptIndex s base foldOperator)) t t' ∧
    t.view.stop = parts.valueStart ∧ t'.view.stop = parts.valueStop
  spill_ne : parts.target ≠ parts.spill

/-- The parts lie as well in what goes on from the code of the assignment. -/
theorem AssignParts.Of.grow {parts : AssignParts} {s s₁ s' : CompilerState} {base foldOperator : String}
    {value : Symbol → Option Symbol → CompileM Unit}
    (h : parts.Of s s₁ base steps foldOperator value) (hgr : s₁.view.Grown s'.view) :
    parts.Of s s' base steps foldOperator value := by
  obtain ⟨x, last, mid, t, t', hx, hlast, hcode, hmid, hin, hst, hstop⟩ := h.order
  exact ⟨h.target, h.spill, h.scratch, h.outer.imp fun _ _ h => h.mono (.refl _) hgr,
    ⟨x, last, mid, t, t', hx, hlast, hcode, hmid.trans hgr, hin.mono (.refl _) hgr, hst, hstop⟩,
    h.spill_ne⟩

/-- Evaluating the parts, in their order: the outer hops only read, the last hop leaves a memory, and
the value is evaluated there. -/
structure AssignParts.Evaluates (parts : AssignParts) {K A W : Type} [DecidableEq K]
    (M : Machine K A W) (pool : List Constant) (is : Instructions)
    (memory memory₁ memory₂ : Memory K A W) (path : List (Hop K A)) (hop : Hop K A)
    (v : Value K A) : Prop where
  outer : List.Forall₂ (fun h hop => HopReading.hop M memory h = .ok hop) parts.outer path
  last : parts.last.Runs M pool is memory hop memory₁
  value : Yields M pool is parts.valueStart parts.valueStop (keepIndex parts.scratch memory₁ hop)
    (.ok (v, memory₂))

/-- What the code of an assignment does once its parts have been evaluated. -/
def AssignParts.Assigns (parts : AssignParts) (s s' : CompilerState) : Prop :=
  ∀ (K A W : Type) [DecidableEq K] (M : Machine K A W) (pool : List Constant) (is : Instructions)
    (memory memory₁ memory₂ : Memory K A W) (path : List (Hop K A)) (hop : Hop K A) (v : Value K A),
    Carries s'.view is pool → parts.Evaluates M pool is memory memory₁ memory₂ path hop v →
    ∀ stack, Goes M pool is s.view.stop s'.view.stop stack memory
      (((access M.toObjects).replaceAt (memory.slots parts.target) (path ++ [hop]) v).map fun a =>
        (v :: stack, (memory₂.set parts.spill v).set parts.target a))

section

variable {s s' : CompilerState}

theorem exists_slot_of_emitAssignChain {emitValue : CompileM Unit}
    (hrun : emitAssignChain x (last :: outer) indexSlot emitValue s = .ok () s') :
    ∃ slot, x.slot? = some slot := by
  induction outer generalizing last indexSlot emitValue with
  | nil =>
    obtain ⟨_, _, -, hrun⟩ := bind_ok.mp hrun
    obtain ⟨_, _, -, hsto⟩ := bind_ok.mp hrun
    exact exists_slot_of_emitStoreOnly hsto
  | cons next outer ih => exact ih hrun

theorem slot_ne {y : Symbol} {slot slot' : Slot} (hx : x.slot? = some slot)
    (hy : y.slot? = some slot') (h : y.scope = x.scope → x.index ≠ y.index) : slot ≠ slot' := by
  obtain ⟨name, scope, index⟩ := x
  obtain ⟨name', scope', index'⟩ := y
  rintro rfl
  cases scope <;> cases hx <;> cases scope' <;> cases hy <;> exact h rfl rfl

theorem chainResult_set {K A W : Type} [DecidableEq K] (O : Objects K A) (x : Value K A)
    (path : List (Hop K A)) (hop : Hop K A) (v : Value K A) (mem : Memory K A W) :
    chainResult O x path (fun c => ((access O).set c hop v).map fun c' => (c', mem)) =
      ((access O).replaceAt x (path ++ [hop]) v).map fun a => (a, mem) := by
  simp only [chainResult, PathUpdate.Access.replaceAt_concat, Result.map_bind, Result.bind_map]

/-- The chain and the load of the value after it. -/
theorem chain_assigns {s₁ : CompilerState} (hlast : last.Appends)
    (hout' : ∀ step ∈ outer, step.Reusable) (hval : Growing value) (hs : s.Sound)
    (hne : x.slot? ≠ spill.slot?) (hch : emitAssignChain x (outer ++ [last]).reverse indexSlot (do
      value; emitStoreOnly spill; loadSymbol spill) s = .ok () s₁)
    (hload : loadSymbol spill s₁ = .ok () s') :
    ∃ (parts : AssignParts) (mid : View) (t t' : CompilerState), x.slot? = some parts.target ∧
      spill.slot? = some parts.spill ∧ parts.scratch = indexSlot.bind Symbol.slot? ∧
      List.Forall₂ (HopReading.Of s.view s'.view) outer parts.outer ∧
      parts.last.Of s.view mid last ∧ mid.Grown s'.view ∧ Inside mid s'.view value t t' ∧
      t.view.stop = parts.valueStart ∧ t'.view.stop = parts.valueStop ∧ parts.Assigns s s' := by
  rw [reverse_concat] at hch
  obtain ⟨slot, hx⟩ := exists_slot_of_emitAssignChain hch
  have hsp := spilled_growing hval spill
  obtain ⟨hs, t, t', hsto, hon, hgr, -, hof, hgoes⟩ :=
    emitAssignChain_goes hx hlast (fun step hstep => hout' step (mem_reverse.mp hstep))
      hsp hs hch
  obtain ⟨code, mid, u, u', spillSlot, hcode, hmid, hin, hspill, hlastGoes⟩ :=
    storeLast_goes hlast hval hon.sound.wf hsto
  have hgr' := grown_loadSymbol hspill hload
  rw [reverse_reverse] at hof
  refine ⟨⟨slot, spillSlot, indexSlot.bind Symbol.slot?, hs, code, u.view.stop, u'.view.stop⟩, mid,
    u, u', hx, hspill, rfl, hof.imp fun _ _ h => h.mono (.refl _) hgr',
    hcode.mono hon.grown, hmid.trans (hgr.trans hgr'), hin.mono (.refl _) (hgr.trans hgr'), rfl, rfl,
    ?_⟩
  intro K A W _ M pool is mem mem₁ mem₂ path hop v hcar heval stk
  have hcar₁ := hcar.of_grown (grown_loadSymbol hspill hload)
  -- the stores, innermost first, then the value loaded back from its slot
  have hrun := hgoes M pool is mem path hcar₁ heval.outer
    (fun c => ((access M.toObjects).set c hop v).map fun c' => (c', mem₂.set spillSlot v))
    (fun c stk _ => ?_) stk
  · rw [chainResult_set, Result.map_map] at hrun
    refine hrun.bind fun a _ => ?_
    have hfinal : Goes M pool is _ _ stk ((mem₂.set spillSlot v).set slot a) _ :=
      loadSymbol_goes hspill hload hcar
    -- the variable is not the slot the value was spilled to
    have hkept : ((mem₂.set spillSlot v).set slot a).slots spillSlot = v := by
      have hsl : spillSlot ≠ slot := by
        rintro rfl
        exact hne (hx.trans hspill.symm)
      rw [Memory.slots_set_of_ne hsl, Memory.slots_set_self]
    rwa [hkept] at hfinal
  · have hwr := hlastGoes M pool is mem mem₁ mem₂ hop v (hcar₁.of_grown hgr)
      heval.last heval.value c stk
    rwa [Result.map_map]

/-! ### The assignment -/

/-- The value of a compound assignment only makes the stream longer. -/
theorem growing_foldedValue {operator : String} (hss : ∀ step ∈ steps, step.Appends)
    (hval : Growing value) : Growing (foldedValue operator x steps indexSlot value) := by
  refine ((growing_loadSymbol x).bind fun _ => growing_pathSteps hss).bind fun _ =>
    hval.bind fun _ => ?_
  cases hop : infixOpcode operator with
  | none => exact fun _ _ _ h => (fail_ok.mp h).elim
  | some op =>
    apply growing_emit
    have hmem := mem_of_infixOpcode hop
    simp only [mem_cons, not_mem_nil, or_false] at hmem
    rcases hmem with rfl | rfl | rfl | rfl | rfl | rfl | rfl | rfl | rfl | rfl | rfl | rfl | rfl |
      rfl | rfl | rfl <;> rfl

theorem forall_appends (hout' : ∀ step ∈ outer, step.Reusable) (hlast : last.Appends) :
    ∀ step ∈ outer ++ [last], step.Appends := by
  intro step hstep
  rcases mem_append.mp hstep with hstep | hstep
  · exact (hout' step hstep).appends
  · rw [mem_singleton.mp hstep]
    exact hlast

/-- A check that passes leaves the state alone. -/
theorem checkFirstHop_ok {base : String} {u : Unit}
    (h : checkFirstHop base steps s = .ok u s') : s' = s := by
  rcases steps with _ | ⟨_ | name, rest⟩
  · exact (pure_ok.mp h).2.symm
  · exact (pure_ok.mp h).2.symm
  · obtain ⟨-, h⟩ | ⟨-, h⟩ := ite_ok.mp h
    · replace h := get_bind_ok.mp h
      -- a namespace is refused, a field of a known struct is checked
      cases hns : s.symbolTable.lookupNamespace base with
      | some key =>
        rw [hns] at h
        exact (fail_ok.mp h).elim
      | none =>
        rw [hns] at h
        cases htype : structTypeOfBinding s base with
        | none =>
          simp only [htype] at h
          exact (pure_ok.mp h).2.symm
        | some structType =>
          simp only [htype] at h
          exact checkFieldIsDeclared_ok h
    · exact (pure_ok.mp h).2.symm

theorem withTable_ok {α : Type} {f : SymbolTable → α × SymbolTable} {x : α}
    (h : withTable f s = .ok x s') :
    x = (f s.symbolTable).1 ∧ s'.symbolTable = (f s.symbolTable).2 ∧ s'.view = s.view := by
  cases h
  exact ⟨rfl, rfl, rfl⟩

theorem internalSlot_ok {kind : String} (h : internalSlot kind s = .ok x s') :
    x = (s.symbolTable.internal kind).1 ∧ s'.symbolTable = (s.symbolTable.internal kind).2 ∧
      s'.view = s.view :=
  withTable_ok (f := (·.internal kind)) h

/-- The value an assignment through hops compiles. -/
def assignedValue (foldOperator : String) (steps : List AssignStep) (value : CompileM Unit)
    (x : Symbol) (indexSlot : Option Symbol) : CompileM Unit :=
  if foldOperator ≠ "" then foldedValue foldOperator x steps indexSlot value else value

/-- What an assignment through hops compiles once the variable and the compiler's own slots have been
found: the chain of stores, and the value loaded back. -/
theorem assignThroughSteps_ok {base : String} {target : Expr} {foldOperator : String} (hs : s.Sound)
    (hrun : assignThroughSteps base steps target foldOperator value s = .ok () s') :
    ∃ x spill s₁ s₂, (s.symbolTable.resolve base).1 = some x ∧
      ((s.symbolTable.resolve base).2.internal "assign").1 = spill ∧
      steps.dropLast.any AssignStep.isImpure = false ∧ s₁.Sound ∧ s₁.view = s.view ∧
      emitAssignChain x steps.reverse (keptIndex s base foldOperator) (do
        assignedValue foldOperator steps value x (keptIndex s base foldOperator)
        emitStoreOnly spill
        loadSymbol spill) s₁ = .ok () s₂ ∧ loadSymbol spill s₂ = .ok () s' := by
  obtain ⟨_, s₀, hcheck, hrun₀⟩ := bind_ok.mp hrun
  rw [checkFirstHop_ok hcheck] at hrun₀
  obtain ⟨r, s₁, hres, hrun₁⟩ := bind_ok.mp hrun₀
  obtain ⟨rfl, htab₁, hview₁⟩ := withTable_ok hres
  cases hx : (s.symbolTable.resolve base).1 with
  | none =>
    simp only [hx] at hrun₁
    exact (fail_ok.mp hrun₁).elim
  | some x =>
    simp only [hx] at hrun₁
    obtain ⟨-, hrun₁⟩ | ⟨hpure, hrun₁⟩ := ite_ok.mp hrun₁
    · obtain ⟨_, _, hfail, -⟩ := bind_ok.mp hrun₁
      exact (fail_ok.mp hfail).elim
    obtain ⟨spill, s₂, hspill, hrun₂⟩ := bind_ok.mp hrun₁
    obtain ⟨hspillEq, htab₂, hview₂⟩ := internalSlot_ok hspill
    have hnm₂ : s₂.symbolTable.Named := by
      rw [htab₂, htab₁]
      exact (hs.named.resolve base).internal (by decide)
    rw [htab₁] at hspillEq htab₂
    rw [Bool.not_eq_true] at hpure
    unfold assignedValue keptIndex
    -- a compound assignment asks for one more slot, for the index it reads through
    obtain ⟨hfold, hrun₂⟩ | ⟨hfold, hrun₂⟩ := ite_ok.mp hrun₂
    · simp only [if_pos hfold] at hrun₂ ⊢
      obtain ⟨_, s₃, hmap, hrun₃⟩ := bind_ok.mp hrun₂
      rw [map_eq_pure_bind] at hmap
      obtain ⟨scratch, s₃, hscratch, hmap⟩ := bind_ok.mp hmap
      obtain ⟨rfl, rfl⟩ := pure_ok.mp hmap
      obtain ⟨_, s₄, hch, hload⟩ := bind_ok.mp hrun₃
      obtain ⟨hscratchEq, htab₃, hview₃⟩ := internalSlot_ok hscratch
      rw [htab₂] at hscratchEq
      have hview := hview₃.trans (hview₂.trans hview₁)
      rw [hscratchEq] at hch
      refine ⟨x, spill, s₃, s₄, rfl, hspillEq.symm, hpure, ⟨?_, hview ▸ hs.wf⟩, hview, hch, hload⟩
      rw [htab₃]
      exact hnm₂.internal (by decide)
    · simp only [if_neg hfold] at hrun₂ ⊢
      obtain ⟨_, s₃, hpure', hrun₃⟩ := bind_ok.mp hrun₂
      obtain ⟨rfl, rfl⟩ := pure_ok.mp hpure'
      obtain ⟨_, s₄, hch, hload⟩ := bind_ok.mp hrun₃
      have hview := hview₂.trans hview₁
      exact ⟨x, spill, s₂, s₄, rfl, hspillEq.symm, hpure, ⟨hnm₂, hview ▸ hs.wf⟩, hview, hch, hload⟩

/-- An assignment through hops has parts, and assigns with them. -/
theorem assignThroughSteps_assigns {base : String}
    {target : Expr} {foldOperator : String} (hbase : SourceName base)
    (hbase' : base ≠ "") (hlast : last.Appends)
    (hout' : ∀ step ∈ outer, step.isImpure = false → step.Reusable) (hval : Growing value)
    (hs : s.Sound)
    (hrun : assignThroughSteps base (outer ++ [last]) target foldOperator value s = .ok () s') :
    ∃ parts : AssignParts, parts.Of s s' base (outer ++ [last]) foldOperator
      (assignedValue foldOperator (outer ++ [last]) value) ∧ parts.Assigns s s' := by
  obtain ⟨x, spill, s₁, s₂, hx, rfl, hpure, hs₁, hview, hch, hload⟩ := assignThroughSteps_ok hs hrun
  have hout'' : ∀ step ∈ outer, step.Reusable := by
    intro step hstep
    rw [dropLast_concat] at hpure
    exact hout' step hstep (Bool.eq_false_of_not_eq_true (any_eq_false.mp hpure step hstep))
  have hval' : Growing (assignedValue foldOperator (outer ++ [last]) value x
      (keptIndex s base foldOperator)) := by
    unfold assignedValue
    split_ifs
    · exact growing_foldedValue (forall_appends hout'' hlast) hval
    · exact hval
  -- a name of the program never shares a slot with the compiler
  have hne : x.slot? ≠ ((s.symbolTable.resolve base).2.internal "assign").1.slot? := by
    intro heq
    rw [reverse_concat] at hch
    obtain ⟨slot, hslot⟩ := exists_slot_of_emitAssignChain hch
    refine slot_ne hslot (heq ▸ hslot) ?_ rfl
    apply hs.named.index_ne hbase hbase' (by decide) hx
    all_goals
      intro hsc
      obtain ⟨name, scope, index⟩ := x
      cases hsc
      cases hslot
  obtain ⟨parts, mid, t, t', htgt, hspill, hscratch, houterOf, hlastOf, hmid, hin, hst, hstop,
    hasg⟩ := chain_assigns hlast hout'' hval' hs₁ hne hch hload
  rw [hview] at houterOf hlastOf
  refine ⟨parts, ⟨⟨x, hx, htgt⟩, hspill, hscratch, ?_,
    ⟨x, last, mid, t, t', hx, getLast?_concat, hlastOf, hmid, hin, hst, hstop⟩, ?_⟩, ?_⟩
  · rwa [dropLast_concat]
  · intro heq
    exact hne (htgt.trans (heq ▸ hspill.symm))
  · unfold AssignParts.Assigns at hasg ⊢
    rw [hview] at hasg
    exact hasg

end

/-! ### The expression -/

section

variable {registry : String → Bool} {operator base : String} {target value : Expr}
  {steps : List AssignStep} {s s' : CompilerState}

/-- The hops of a target: all of them are compiled by appending, and those that may be evaluated more
than once read the same each time. -/
theorem flattenAssignTarget_hops (h : flattenAssignTarget registry target = some (base, steps)) :
    base ∈ pathNames target ∧ ∀ step ∈ steps, step.Appends ∧
      ((∀ name ∈ pathNames target, SourceName name) → step.isImpure = false → step.Reusable) := by
  -- the hops of a target, from the base outwards
  fun_induction pathNames target generalizing steps with
  | case1 name =>
    obtain ⟨rfl, rfl⟩ : name = base ∧ [] = steps := by simpa [flattenAssignTarget] using h
    exact ⟨mem_singleton_self name, nofun⟩
  | case2 left index ihleft _ =>
    obtain ⟨outer, hleft, rfl⟩ := flattenAssignTarget_index h
    obtain ⟨hbase, hout'⟩ := ihleft hleft
    refine ⟨mem_append_left _ hbase, fun step hstep => ?_⟩
    have hgrow := (compileExpr_leaves registry index).growing
    rcases mem_append.mp hstep with hstep | hstep
    · obtain ⟨happends, hreuse⟩ := hout' step hstep
      exact ⟨happends, fun hns => hreuse fun name hname =>
        hns name (mem_append_left _ hname)⟩
    · rw [mem_singleton.mp hstep]
      refine ⟨hgrow, fun hns hpure => ⟨repeatable_compileExpr ?_ ?_, hgrow⟩⟩
      · simpa [AssignStep.isImpure] using hpure
      · exact fun name hname => hns name (mem_append_right _ hname)
  | case3 left name ih =>
    obtain ⟨outer, hleft, rfl⟩ := flattenAssignTarget_field h
    obtain ⟨hbase, hout'⟩ := ih hleft
    refine ⟨hbase, fun step hstep => ?_⟩
    rcases mem_append.mp hstep with hstep | hstep
    · exact hout' step hstep
    · rw [mem_singleton.mp hstep]
      exact ⟨trivial, fun _ _ => trivial⟩
  | case4 target hident hidx hfld =>
    cases target with
    | ident name => exact (hident name rfl).elim
    | index left index => exact (hidx left index rfl).elim
    | field left name => exact (hfld left name rfl).elim
    | _ => simp [flattenAssignTarget] at h

/-- The operator that is applied to the target read through the index that was kept, if any: that of a
compound assignment whose last index must not be evaluated twice. -/
def foldedOperator (operator : String) (steps : List AssignStep) : String :=
  if operator ≠ "" ∧ steps.getLast?.any AssignStep.isImpure then operator else ""

/-- What an assignment through hops evaluates as its value.  A compound assignment applies the operator
to the target, read as an expression or, when the last index must not be evaluated twice, through
the index that was kept. -/
def assignmentValue (registry : String → Bool) (operator : String) (target value : Expr)
    (steps : List AssignStep) : Symbol → Option Symbol → CompileM Unit :=
  let folds := operator ≠ "" ∧ steps.getLast?.any AssignStep.isImpure
  assignedValue (foldedOperator operator steps) steps (if operator ≠ "" ∧ ¬ folds then
      node .expression (binaryExpression operator (compileExpr registry target)
        (compileExpr registry value))
    else compileExpr registry value)

/-- The parts of a compiled assignment, and what its code does with them. -/
theorem compileExpr_assigns (htgt : flattenAssignTarget registry target = some (base, steps))
    (hhops : steps ≠ []) (hns : ∀ name ∈ pathNames target, name ≠ "" ∧ SourceName name)
    (hs : s.Sound) (hrun : compileExpr registry (.assign operator target value) s = .ok () s') :
    ∃ parts : AssignParts,
      parts.Of s s' base steps (foldedOperator operator steps)
        (assignmentValue registry operator target value steps) ∧
        parts.Assigns s s' := by
  rw [compileExpr, htgt] at hrun
  obtain ⟨s₁, hassign, rfl⟩ := node_ok hrun
  obtain ⟨hbase, hss⟩ := flattenAssignTarget_hops htgt
  obtain ⟨outer, last, rfl⟩ := (eq_nil_or_concat' steps).resolve_left hhops
  have hsrc : ∀ name ∈ pathNames target, SourceName name := fun name hname =>
    (hns name hname).2
  -- a compound assignment reads its target as part of the value
  have hgrow : ∀ fold : Prop, ∀ [Decidable fold], Growing (if fold then
      node .expression (binaryExpression operator (compileExpr registry target)
        (compileExpr registry value)) else compileExpr registry value) := by
    intro fold _
    split_ifs
    · exact (expressionNode_leaves (binaryExpression_leaves operator (compileExpr_leaves registry _)
        (compileExpr_leaves registry _))).growing
    · exact (compileExpr_leaves registry value).growing
  unfold assignExpression at hassign
  simp only [List.isEmpty_iff, hhops] at hassign
  obtain ⟨parts, hpts, hasg⟩ := assignThroughSteps_assigns (hns base hbase).2
    (hns base hbase).1 (hss last (by simp)).1
    (fun step hstep => (hss step (mem_append_left _ hstep)).2 hsrc) (hgrow _) hs hassign
  refine ⟨parts, hpts.grow ⟨prefix_refl _, prefix_refl _⟩, ?_⟩
  intro K A W _ M pool is mem mem₁ mem₂ path hop v hcar
  exact hasg K A W M pool is mem mem₁ mem₂ path hop v
    ⟨hcar.code, hcar.constants⟩

/-- An assignment through a container leaves its value on the stack, and in the variable the value the
variable had before the last index and the value were evaluated, with the element replaced.  That is
what the variable had after they were evaluated, with the element replaced, exactly when their
evaluation left the rest of the variable alone. -/
theorem assignment_updates_element_iff
    (htarget : flattenAssignTarget registry target = some (base, steps)) (hhops : steps ≠ [])
    (hnames : ∀ name ∈ pathNames target, name ≠ "" ∧ SourceName name) (hs : s.Sound)
    (hrun : compileExpr registry (.assign operator target value) s = .ok () s') :
    ∃ parts : AssignParts,
      parts.Of s s' base steps (foldedOperator operator steps)
        (assignmentValue registry operator target value steps) ∧
      ∀ (K A W : Type) [DecidableEq K] (M : Machine K A W) (pool : List Constant)
        (is : Instructions) (memory memory₁ memory₂ : Memory K A W) (path : List (Hop K A))
        (hop : Hop K A) (v updated : Value K A), Carries s'.view is pool →
        parts.Evaluates M pool is memory memory₁ memory₂ path hop v →
        (access M.toObjects).replaceAt (memory₂.slots parts.target) (path ++ [hop]) v = .ok updated →
        ∃ result : List (Value K A) → Except Fault (List (Value K A) × Memory K A W),
          (∀ stack, Goes M pool is s.view.stop s'.view.stop stack memory (result stack)) ∧
          ((∀ stack, ∃ memory', result stack = .ok (v :: stack, memory') ∧
              memory'.slots parts.target = updated) ↔
            AgreeOff M.toObjects (path ++ [hop]) (memory₂.slots parts.target)
              (memory.slots parts.target)) := by
  obtain ⟨parts, hparts, hassigns⟩ := compileExpr_assigns htarget hhops hnames hs hrun
  refine ⟨parts, hparts, ?_⟩
  intro K A W _ M pool is memory memory₁ memory₂ path hop v updated hcarries heval hupdated
  have hgoes := hassigns K A W M pool is memory memory₁ memory₂ path hop v hcarries heval
  refine ⟨_, hgoes, ?_⟩
  rw [← replaceAt_eq_iff_agreeOff hupdated]
  constructor
  -- what the variable ends as is the old value with the element replaced
  · intro hresult
    obtain ⟨memory', hmemory', hslot⟩ := hresult []
    cases hreplace : (access M.toObjects).replaceAt (memory.slots parts.target) (path ++ [hop]) v with
    | error e =>
      rw [hreplace] at hmemory'
      cases hmemory'
    | ok a =>
      rw [hreplace] at hmemory'
      obtain rfl := (Prod.mk.inj (Except.ok.inj hmemory')).2
      rw [← hslot, Memory.slots_set_self]
  · intro hreplace stack
    rw [hreplace]
    exact ⟨_, rfl, Memory.slots_set_self ..⟩

end

/-! ### An update that is lost -/

/-- A machine of integers and arrays. -/
def plainMachine : Machine Unit Empty Unit where
  type := nofun
  hashKey _ := none
  index := nofun
  field := nofun
  constant
    | .integer i => .integer i
    | _ => .null
  structDefs _ := none
  enumValue _ _ := .ok .null
  builtin _ := .ok .null
  currentClosure _ := .null
  other _ c := .ok c

/-- A session in which `a` has been declared. -/
def declaresA : CompilerState := { symbolTable := (SymbolTable.new.define "a").2 }

theorem declaresA_sound : declaresA.Sound where
  named := new_named.define "a"
  wf := View.Fresh.wf ⟨rfl, rfl, rfl, rfl, rfl⟩

/-- `a[0] = (a[1] = 5)`. -/
def nestedAssignment : Expr := .assign "" (.index (.ident "a") (.integer 0))
    (.assign "" (.index (.ident "a") (.integer 1)) (.integer 5))

/-- The code of a run that succeeds, and its constants. -/
def emitted (m : CompileM Unit) (s : CompilerState) : Option (Instructions × List Constant) :=
  match m s with
  | .ok _ s' => some (s'.view.code, s'.view.constants)
  | .error _ _ => none

/-- The inner assignment is the code from 6 to 28. -/
def nestedAssignmentCode : Instructions := [ ⟨.opGetGlobal, [0]⟩, ⟨.opConstant, [0]⟩,
  ⟨.opGetGlobal, [0]⟩, ⟨.opConstant, [1]⟩, ⟨.opConstant, [2]⟩, ⟨.opSetGlobal, [1]⟩,
  ⟨.opGetGlobal, [1]⟩, ⟨.opSetIndex, []⟩, ⟨.opSetGlobal, [0]⟩, ⟨.opGetGlobal, [1]⟩,
  ⟨.opSetGlobal, [1]⟩, ⟨.opGetGlobal, [1]⟩, ⟨.opSetIndex, []⟩, ⟨.opSetGlobal, [0]⟩,
  ⟨.opGetGlobal, [1]⟩]

def twoZeros : Memory Unit Empty Unit where
  slots
    | .globalSlot 0 => .array [.integer 0, .integer 0]
    | _ => .null
  world := ()

/-- `a[0] = 5`. -/
def literalAssignment : Expr := .assign "" (.index (.ident "a") (.integer 0)) (.integer 5)

theorem yields_integer {K A W : Type} [DecidableEq K] {M : Machine K A W} {pool : List Constant}
    {is : Instructions} {s s' : CompilerState} {v v' : View} {registry : String → Bool} {n : Int64}
    (h : Inside v v' (compileExpr registry (.integer n)) s s') (hcar : Carries v' is pool)
    (mem : Memory K A W) :
    Yields M pool is s.view.stop s'.view.stop mem (.ok (M.constant (.integer n), mem)) := by
  obtain ⟨s₁, s₂, hst, hrun, hend⟩ := node_alike h.run
  exact ((reads_emitConstant hrun).2.of_alike hst hend).yields M pool is mem (hcar.of_grown h.stop)

/-- A stream holds its own code. -/
theorem carries_self (v : View) : Carries v v.code v.constants := by
  refine ⟨fun p i hi _ => ⟨[], ?_⟩, prefix_refl _⟩
  have hsame : boxCapturedLocal [] i = i := by
    unfold boxCapturedLocal
    split <;> simp
  rwa [hsame]

/-- With `a = [0, 0]`, the code of `a[0] = 5` leaves `a = [5, 0]`. -/
theorem assignment_updates_element_iff_literal :
    ∃ s' memory', compileExpr (fun _ => false) literalAssignment declaresA = .ok () s' ∧
      Goes plainMachine s'.view.constants s'.view.code 0 s'.view.stop [] twoZeros
        (.ok ([.integer 5], memory')) ∧
      memory'.slots (.globalSlot 0) = .array [.integer 5, .integer 0] := by
  obtain ⟨s', hrun⟩ := exists_ok_of_succeeds
    (m := compileExpr (fun _ => false) literalAssignment) (s := declaresA) (by decide +kernel)
  have htarget : flattenAssignTarget (fun _ => false) (.index (.ident "a") (.integer 0)) =
      some ("a", [.index true (compileExpr (fun _ => false) (.integer 0))]) := by
    simp [flattenAssignTarget, pureAssignIndex]
  obtain ⟨parts, hparts, hruns⟩ := assignment_updates_element_iff htarget (by simp) (by decide)
    declaresA_sound hrun
  have hcarries := carries_self s'.view
  have hslot : parts.target = .globalSlot 0 := by
    obtain ⟨x, hx, hslot⟩ := hparts.target
    obtain rfl : ⟨"a", .globalScope, 0⟩ = x := Option.some.inj (hx ▸ by decide +kernel)
    exact (Option.some.inj hslot).symm
  have heval : parts.Evaluates plainMachine s'.view.constants s'.view.code twoZeros twoZeros twoZeros
      [] (.index (.integer 0)) (.integer 5) := by
    obtain ⟨x, last, mid, t, t', -, hlast, hcode, hmid, hvalue, hst, hstop⟩ := hparts.order
    obtain rfl := Option.some.inj hlast
    refine ⟨?_, ?_, ?_⟩
    -- no outer hops, the constant 0, and the constant 5 after it
    · have hnone := hparts.outer.length_eq
      rw [eq_nil_of_length_eq_zero hnone.symm]
      exact .nil
    · cases hlastCode : parts.last with
      | field name =>
        rw [hlastCode] at hcode
        cases hcode
      | index p q =>
        rw [hlastCode] at hcode
        obtain ⟨_, _, u, u', heq, hin, rfl, rfl⟩ := hcode
        cases heq
        exact yields_integer hin (hcarries.of_grown hmid) twoZeros
    · have hinteger : Inside mid s'.view (compileExpr (fun _ => false) (.integer 5)) t t' := hvalue
      rw [hparts.scratch, ← hst, ← hstop]
      exact yields_integer hinteger hcarries twoZeros
  have hupdated : (access plainMachine.toObjects).replaceAt (twoZeros.slots parts.target)
      [.index (.integer 0)] (.integer 5) = .ok (.array [.integer 5, .integer 0]) := by
    rw [hslot]
    rfl
  obtain ⟨result, hgoes, hiff⟩ := hruns Unit Empty Unit plainMachine _ _ twoZeros twoZeros twoZeros []
    (.index (.integer 0)) (.integer 5) _ hcarries heval hupdated
  obtain ⟨memory', hresult, hleft⟩ := hiff.mpr ((replaceAt_eq_iff_agreeOff hupdated).mp hupdated) []
  rw [hslot] at hleft
  exact ⟨s', memory', hrun, hresult ▸ hgoes [], hleft⟩

/-- With `a = [0, 0]`, the value of `a[0] = (a[1] = 5)` leaves `a = [0, 5]`, and the assignment leaves
`a = [5, 0]`: the update of `a[1]` is lost. -/
theorem nestedAssignment_losesUpdate :
    emitted (compileExpr (fun _ => false) nestedAssignment) declaresA =
        some (nestedAssignmentCode, [.integer 0, .integer 1, .integer 5]) ∧
      (∃ memory₂, Yields plainMachine [.integer 0, .integer 1, .integer 5] nestedAssignmentCode 6 28
          twoZeros (.ok (.integer 5, memory₂)) ∧
        memory₂.slots (.globalSlot 0) = .array [.integer 0, .integer 5] ∧
        (access plainMachine.toObjects).replaceAt (memory₂.slots (.globalSlot 0))
          [.index (.integer 0)] (.integer 5) = .ok (.array [.integer 5, .integer 5])) ∧
      ∃ memory', Goes plainMachine [.integer 0, .integer 1, .integer 5] nestedAssignmentCode 0 41 []
          twoZeros (.ok ([.integer 5], memory')) ∧
        memory'.slots (.globalSlot 0) = .array [.integer 5, .integer 0] := by
  refine ⟨by decide +kernel, ⟨(twoZeros.set (.globalSlot 1) (.integer 5)).set (.globalSlot 0)
    (.array [.integer 0, .integer 5]), ?_, rfl, rfl⟩, ?_⟩
  · intro stack
    exact steps_of_turns (n := 8) rfl
  · exact ⟨_, steps_of_turns (n := 15) rfl, rfl⟩

end Mutant.Compiler
