import Mutant.Compiler.Equiv.Rereading
import Mutant.Vm.Equiv.Containers
/-!
# Running an assignment through a container

The chain of an assignment loads the variable, and the containers on the way to the element, before
the last index and the value are evaluated; it then writes every container back into the one around
it, and the outermost into the variable.  What the variable ends as is therefore the value it had
*before* the index and the value were evaluated, with the element replaced.  That is the value it had
after them, with the element replaced, exactly when their evaluation left the rest of it alone.

* `pathSteps_goes`, `storeThrough_goes`: running the reads along the path, and one store;
* `emitAssignChain_goes`: running the whole chain.
-/

namespace Mutant.Compiler

open List Mutant.Ast Mutant.Code Mutant.Vm

variable {ops : List Nat} {K A W : Type} {M : Machine K A W} {memory : Memory K A W}
  {step last : AssignStep} {s t : CompilerState} {indexSlot : Option Symbol} {u : Unit}
  {pool : List Constant} {is : Instructions} {stk : List (Value K A)}

/-! ### Actions that only append -/

section

variable {α β : Type} {s s₁ s' : CompilerState}

theorem Growing.bind {m : CompileM α} {k : α → CompileM β} (hm : Growing m) (hk : ∀ a, Growing (k a)) :
    Growing (m >>= k) := by
  intro s b s' hrun hwf
  obtain ⟨a, s₁, hm₁, hk₁⟩ := bind_ok.mp hrun
  obtain ⟨hwf₁, hgr₁⟩ := hm s a s₁ hm₁ hwf
  obtain ⟨hwf', hgr'⟩ := hk a s₁ b s' hk₁ hwf₁
  exact ⟨hwf', hgr₁.trans hgr'⟩

theorem Growing.withPending {m : CompileM Unit} (hm : Growing m) (n : Nat) :
    Growing (withPending n m) := by
  intro s u s' hrun hwf
  obtain ⟨s₀, s₁, hview, hrun₁, hview'⟩ := withPending_ok hrun
  have hwf₀ : s₀.view.Wf := hview ▸ ⟨hwf.fits, hwf.opens, hwf.targets, hwf.spans⟩
  obtain ⟨hwf₁, hgr⟩ := hm s₀ () s₁ hrun₁ hwf₀
  rw [hview] at hgr
  rw [hview']
  exact ⟨⟨hwf₁.fits, hwf₁.opens, hwf₁.targets, hwf₁.spans⟩, ⟨hgr.code, hgr.constants⟩⟩

/-- An instruction without a target only makes the stream longer. -/
theorem growing_emit {op : Opcode}
    (h : Instr.target? ⟨op, ops⟩ = none) : Growing (discard (emit op ops)) := by
  intro s u s' hrun hwf
  refine ⟨?_, (emit_grown hrun).1⟩
  obtain ⟨p, hemit⟩ := discard_ok.mp hrun
  obtain ⟨hfits, -, rfl⟩ := emit_ok.mp hemit
  rw [view_append]
  refine hwf.put hfits fun _ t ht => ?_
  rw [h] at ht
  cases ht

theorem growing_loadSymbol (x : Symbol) : Growing (loadSymbol x) :=
  (loadSymbol_moves x (Int.le_refl 0) rfl).growing (Int.le_refl 0)

theorem growing_emitStoreOnly (x : Symbol) : Growing (emitStoreOnly x) :=
  (emitStoreOnly_moves x (Int.le_refl 1) rfl).growing (by omega)

theorem growing_addConstant (text : String) : Growing (addConstant (.string text)) :=
  (addConstant_moves (c := 0) (by simp)).growing (Int.le_refl 0)

/-! ### States the chain goes through -/

structure CompilerState.Sound (s : CompilerState) : Prop where
  named : s.symbolTable.Named
  wf : s.view.Wf

/-- The second state is reached from the first by code that only reads. -/
structure CompilerState.Onward (s t : CompilerState) : Prop where
  sound : t.Sound
  grown : s.view.Grown t.view
  steady : s.Steady t

theorem CompilerState.Onward.trans (h : s.Onward s₁) (h' : s₁.Onward s') : s.Onward s' :=
  ⟨h'.sound, h.grown.trans h'.grown, h.steady.trans h'.steady⟩

theorem Repeatable.onward {m : CompileM Unit} (hm : Repeatable m) (hgrow : Growing m)
    (hs : s.Sound) (hrun : m s = .ok () s') : s.Onward s' := by
  obtain ⟨r, hr⟩ := hm s s' hs.named hrun
  exact ⟨⟨hr.named, (hgrow s () s' hrun hs.wf).1⟩, hr.grown, hr.steady⟩

theorem onward_loadSymbol {x : Symbol} (hs : s.Sound) (hrun : loadSymbol x s = .ok () s') :
    s.Onward s' :=
  (repeatable_loadSymbol x).onward (growing_loadSymbol x) hs hrun

theorem onward_emit {op : Opcode} (h : Instr.target? ⟨op, ops⟩ = none) (hs : s.Sound)
    (hrun : discard (emit op ops) s = .ok () s') : s.Onward s' := by
  obtain ⟨hgr, hsty, htab⟩ := emit_grown hrun
  exact ⟨⟨htab ▸ hs.named, (growing_emit h s () s' hrun hs.wf).1⟩, hgr, hsty⟩

theorem onward_addConstant {text : String} {k : Nat} (hs : s.Sound)
    (hrun : addConstant (.string text) s = .ok k s') : s.Onward s' := by
  obtain ⟨⟨hgr, hsty, htab⟩, -, -⟩ := addConstant_run hrun
  exact ⟨⟨htab ▸ hs.named, (growing_addConstant text s k s' hrun hs.wf).1⟩, hgr, hsty⟩

end

/-! ### Hops -/

/-- A hop whose index only reads. -/
inductive HopReading
  | index (r : Reading)
  | field (name : String)

def HopReading.hop {K A W : Type} (M : Machine K A W) (memory : Memory K A W) :
    HopReading → Except Fault (Hop K A)
  | .index r => (r.value M memory).map .index
  | .field name => .ok (.field name)

theorem HopReading.hop_index {r : Reading} {hop : Hop K A}
    (h : (HopReading.index r).hop M memory = .ok hop) :
    ∃ i, r.value M memory = .ok i ∧ hop = .index i := by
  obtain ⟨i, hi, rfl⟩ := Result.ok_of_map h
  exact ⟨i, hi, rfl⟩

/-- A hop whose compilation only appends. -/
def AssignStep.Appends : AssignStep → Prop
  | .index _ compile => Growing compile
  | .field _ => True

/-- A hop that may be compiled more than once. -/
def AssignStep.Reusable : AssignStep → Prop
  | .index _ compile => Repeatable compile ∧ Growing compile
  | .field _ => True

theorem AssignStep.Reusable.appends (h : step.Reusable) : step.Appends := by
  cases step with
  | index isPure comp => exact h.2
  | field name => exact h

/-- The action was run between two views: its code goes on from that of the first, and the code of
the second goes on from there. -/
structure Inside (v v' : View) (m : CompileM Unit) (t t' : CompilerState) : Prop where
  run : m t = .ok () t'
  start : v.Grown t.view
  stop : t'.view.Grown v'

theorem Inside.mono {v₁ v₁' v v' : View} {m : CompileM Unit} {t t' : CompilerState}
    (h : Inside v₁ v₁' m t t') (hst : v.Grown v₁) (hend : v₁'.Grown v') : Inside v v' m t t' :=
  ⟨h.run, hst.trans h.start, h.stop.trans hend⟩

/-- The reading is that of a hop: the code its index was compiled to, between two views, reads it. -/
def HopReading.Of (v v' : View) : AssignStep → HopReading → Prop
  | .index _ compile, .index r => ∃ t t', Inside v v' compile t t' ∧ Reads r t t'
  | .field name, .field name' => name' = name
  | _, _ => False

theorem HopReading.Of.mono {v₁ v₁' v v' : View} {h : HopReading} (hof : HopReading.Of v₁ v₁' step h)
    (hst : v.Grown v₁) (hend : v₁'.Grown v') : HopReading.Of v v' step h :=
  match step, h, hof with
  | .index _ _, .index _, ⟨t, t', hin, hrds⟩ => ⟨t, t', hin.mono hst hend, hrds⟩
  | .field _, .field _, hof => hof

/-- What a hop reads in every state that is steady from the one given. -/
def AssignStep.Fixed (s : CompilerState) : AssignStep → HopReading → Prop
  | .index _ compile, .index r =>
    ∀ t t', s.Steady t → t.symbolTable.Named → compile t = .ok () t' → Reads r t t'
  | .field name, .field name' => name' = name
  | _, _ => False

theorem AssignStep.Fixed.mono {h : HopReading}
    (hfix : step.Fixed s h) (hst : s.Steady t) : step.Fixed t h :=
  match step, h, hfix with
  | .index _ _, .index _, hfix => fun u u' hu => hfix u u' (hst.trans hu)
  | .field _, .field _, hfix => hfix

theorem AssignStep.Fixed.forall_mono {steps : List AssignStep}
    {hs : List HopReading} (hfix : List.Forall₂ (AssignStep.Fixed s) steps hs)
    (hst : s.Steady t) : List.Forall₂ (AssignStep.Fixed t) steps hs :=
  hfix.imp fun _ _ h => h.mono hst

/-! ### Following a path -/

section

variable {s₀ s s' : CompilerState} {steps : List AssignStep} {hs : List HopReading}

/-- The reads along a path only make the stream longer. -/
theorem growing_pathSteps (hss : ∀ step ∈ steps, step.Appends) :
    Growing (pathSteps indexSlot steps) := by
  induction steps with
  | nil => exact (Quiet.pure ()).moves.growing (Int.le_refl 0)
  | cons step rest ih =>
    obtain ⟨hstep, hrest⟩ := forall_mem_cons.mp hss
    cases step with
    | field name =>
      exact (growing_addConstant name).bind fun k => (growing_emit rfl).bind fun _ => ih hrest
    | index isPure comp =>
      have htail : Growing (do discard (emit .opIndex); pathSteps indexSlot rest) :=
        (growing_emit rfl).bind fun _ => ih hrest
      rcases indexSlot with _ | slot
      · exact (Growing.withPending hstep 1).bind fun _ => htail
      · cases rest with
        | nil => exact (growing_loadSymbol slot).bind fun _ => htail
        | cons next rest => exact (Growing.withPending hstep 1).bind fun _ => htail

/-- The reading of an index that is compiled with operands pending. -/
theorem AssignStep.Fixed.reads {isPure : Bool} {comp : CompileM Unit} {r : Reading} {n : Nat}
    (hfix : (AssignStep.index isPure comp).Fixed s₀ (.index r)) (hsty : s₀.Steady s)
    (hs : s.Sound) (hrun : withPending n comp s = .ok u s') : Reads r s s' := by
  obtain ⟨t, t', hst, hcomp, hend⟩ := withPending_alike hrun
  have hrds := hfix t t' (hsty.trans hst.steady) (hst.symbolTable ▸ hs.named) hcomp
  exact hrds.of_alike hst hend

/-- One hop reaches a state from which the others go on. -/
theorem pathSteps_cons (hreuse : step.Reusable) (hs : s.Sound)
    (hrun : pathSteps none (step :: steps) s = .ok () s') :
    ∃ s₁, s.Onward s₁ ∧ pathSteps none steps s₁ = .ok () s' ∧
      ∀ {s₀ : CompilerState} {h : HopReading}, step.Fixed s₀ h → s₀.Steady s →
      ∀ {K A W : Type} [DecidableEq K] {M : Machine K A W} {pool : List Constant}
        {is : Instructions} {memory : Memory K A W} {hop : Hop K A}, h.hop M memory = .ok hop →
      Carries s₁.view is pool → ∀ (c : Value K A) (stk : List (Value K A)),
        Goes M pool is s.view.stop s₁.view.stop (c :: stk) memory
          (((access M.toObjects).get c hop).map fun d => (d :: stk, memory)) := by
  cases step with
  -- the name of a field is a constant, an index is compiled code
  | field name =>
    obtain ⟨k, s₁, hadd, hrun⟩ := bind_ok.mp hrun
    obtain ⟨_, s₂, hemit, hrun⟩ := bind_ok.mp hrun
    have h₁ := onward_addConstant hs hadd
    refine ⟨s₂, h₁.trans (onward_emit rfl h₁.sound hemit), hrun, ?_⟩
    rintro s₀ (r | name') hstep - K A W _ M pool is memory hop hhop hcar c stk
    · exact hstep.elim
    · obtain rfl := hstep
      cases hhop
      exact getField_goes hadd hemit hcar
  | index isPure comp =>
    obtain ⟨_, s₁, hcomp, hrun⟩ := bind_ok.mp hrun
    obtain ⟨_, s₂, hemit, hrun⟩ := bind_ok.mp hrun
    have h₁ := (hreuse.1.withPending 1).onward (hreuse.2.withPending 1) hs hcomp
    have h₂ := onward_emit rfl h₁.sound hemit
    refine ⟨s₂, h₁.trans h₂, hrun, ?_⟩
    rintro s₀ (r | name') hstep hsty K A W _ M pool is memory hop hhop hcar c stk
    · obtain ⟨i, hi, rfl⟩ := HopReading.hop_index hhop
      have hidx : Goes M pool is _ _ _ memory _ :=
        (hstep.reads hsty hs hcomp).goes (hcar.of_grown h₂.grown) (c :: stk)
      rw [hi] at hidx
      exact Goes.trans hidx (getIndex_goes hemit hcar)
    · exact hstep.elim

/-- The reads along a path move the compiler on. -/
theorem onward_pathSteps (hss : ∀ step ∈ steps, step.Reusable) (hs : s.Sound)
    (hrun : pathSteps none steps s = .ok () s') : s.Onward s' := by
  induction steps generalizing s with
  | nil =>
    obtain ⟨-, rfl⟩ := pure_ok.mp hrun
    exact ⟨hs, .refl _, .refl s⟩
  | cons step rest ih =>
    obtain ⟨hstep, hrest⟩ := forall_mem_cons.mp hss
    obtain ⟨s₁, hon, hrun, -⟩ := pathSteps_cons hstep hs hrun
    exact hon.trans (ih hrest hon.sound hrun)

theorem onward_emitPathLoad {x : Symbol} (hss : ∀ step ∈ steps, step.Reusable) (hs : s.Sound)
    (hrun : emitPathLoad x steps none s = .ok () s') : s.Onward s' := by
  obtain ⟨_, t, hload, hsteps⟩ := bind_ok.mp hrun
  have hon := onward_loadSymbol hs hload
  exact hon.trans (onward_pathSteps hss hon.sound hsteps)

variable {K A W : Type} [DecidableEq K] {M : Machine K A W} {pool : List Constant}
  {is : Instructions} {memory : Memory K A W}

/-- The hops of a path, followed from the value on the stack. -/
theorem pathSteps_goes {path : List (Hop K A)} (hss : ∀ step ∈ steps, step.Reusable)
    (hfix : List.Forall₂ (AssignStep.Fixed s₀) steps hs) (hsty : s₀.Steady s) (hsnd : s.Sound)
    (hrun : pathSteps none steps s = .ok () s') (hcar : Carries s'.view is pool)
    (hpath : List.Forall₂ (fun h hop => h.hop M memory = .ok hop) hs path) (c : Value K A)
    (stk : List (Value K A)) :
    Goes M pool is s.view.stop s'.view.stop (c :: stk) memory
      (((access M.toObjects).getAt c path).map fun d => (d :: stk, memory)) := by
  -- one hop of the code is one hop of the path
  induction hfix generalizing s c path with
  | nil =>
    cases hpath
    obtain ⟨-, rfl⟩ := pure_ok.mp hrun
    exact Goes.refl
  | @cons step h rest hs hstep _ ih =>
    obtain ⟨hreuse, hrest⟩ := forall_mem_cons.mp hss
    obtain _ | ⟨hhop, hpath⟩ := hpath
    obtain ⟨s₁, hon, hrun₁, hgoes⟩ := pathSteps_cons hreuse hsnd hrun
    have hcar₁ := hcar.of_grown (onward_pathSteps hrest hon.sound hrun₁).grown
    rw [PathUpdate.Access.getAt_cons, Result.map_bind]
    refine (hgoes hstep hsty hhop hcar₁ c stk).bind fun d _ => ?_
    exact ih hrest (hsty.trans hon.steady) hon.sound hrun₁ hpath d

/-- A variable is loaded and followed through hops that were read before. -/
theorem emitPathLoad_goes {path : List (Hop K A)} {x : Symbol} {slot : Slot}
    (hx : x.slot? = some slot) (hss : ∀ step ∈ steps, step.Reusable)
    (hfix : List.Forall₂ (AssignStep.Fixed s) steps hs) (hsnd : s.Sound)
    (hrun : emitPathLoad x steps none s = .ok () s') (hcar : Carries s'.view is pool)
    (hpath : List.Forall₂ (fun h hop => h.hop M memory = .ok hop) hs path) (stk : List (Value K A)) :
    Goes M pool is s.view.stop s'.view.stop stk memory
      (((access M.toObjects).getAt (memory.slots slot) path).map fun d => (d :: stk, memory)) := by
  obtain ⟨_, t, hload, hsteps⟩ := bind_ok.mp hrun
  have hon := onward_loadSymbol hsnd hload
  have hon' := onward_pathSteps hss hon.sound hsteps
  have hvar : Goes M pool is _ _ stk memory _ :=
    loadSymbol_goes hx hload (hcar.of_grown hon'.grown)
  exact Goes.trans hvar (pathSteps_goes hss hfix hon.steady hon.sound hsteps hcar hpath _ stk)

end

/-! ### Writing through a hop -/

section

variable {s s' : CompilerState} {emitValue : CompileM Unit}

/-- A store only makes the stream longer. -/
theorem growing_storeThrough
    (hlast : last.Appends) (hval : Growing emitValue) :
    Growing (storeThrough last indexSlot emitValue) := by
  cases last with
  | field name =>
    exact (hval.withPending 1).bind fun _ => (growing_addConstant name).bind fun k =>
      growing_emit rfl
  | index isPure comp =>
    have htail : Growing (do withPending 2 emitValue; discard (emit .opSetIndex)) :=
      (hval.withPending 2).bind fun _ => growing_emit rfl
    refine (Growing.withPending hlast 1).bind fun _ => ?_
    cases indexSlot with
    | none => exact htail
    | some slot =>
      exact (growing_emitStoreOnly slot).bind fun _ => (growing_loadSymbol slot).bind fun _ => htail

/-- The value of an expression that is compiled with operands pending. -/
theorem goes_of_alike [DecidableEq K]
    {g : Except Fault (List (Value K A) × Memory K A W)} {t' : CompilerState} (hst : s.Alike t)
    (hend : t'.Alike s') (h : Goes M pool is t.view.stop t'.view.stop stk memory g) :
    Goes M pool is s.view.stop s'.view.stop stk memory g := by
  rw [← hst.stop, hend.stop]
  exact h

theorem withPending_onward {n : Nat} (hs : s.Sound) (h : withPending n emitValue s = .ok u s') :
    ∃ t t', s.Alike t ∧ s.Onward t ∧ emitValue t = .ok () t' ∧ t'.Alike s' := by
  unfold withPending at h
  simp only [bind_ok, modify_ok, ensuring_ok] at h
  obtain ⟨_, _, rfl, t', hrun, rfl⟩ := h
  have hst : s.Alike { s with pendingOperands := s.pendingOperands + n } := ⟨rfl, rfl, rfl, rfl, rfl⟩
  have hwf := hs.wf
  refine ⟨_, t', hst, ⟨⟨hs.named, ?_⟩, hst.grown, hst.steady⟩, hrun, ⟨rfl, rfl, rfl, rfl, rfl⟩⟩
  exact ⟨hwf.fits, hwf.opens, hwf.targets, hwf.spans⟩

/-- The instruction that writes the value on the stack at a hop. -/
theorem setIndex_goes [DecidableEq K] {c i v : Value K A}
    (hrun : discard (emit .opSetIndex) s = .ok u s') (hcar : Carries s'.view is pool) :
    Goes M pool is s.view.stop s'.view.stop (v :: i :: c :: stk) memory
      (((access M.toObjects).set c (.index i) v).map fun c' => (c' :: stk, memory)) := by
  apply emit_goes hrun hcar
  show some _ = some _
  simp only [setIndexTop, access]
  cases execSetIndex M.toObjects c i v <;> rfl

/-- Running `OpSetField` sets the field. -/
theorem setField_goes [DecidableEq K] {c v : Value K A}
    {name : String} {s₁ : CompilerState} {k : Nat} (hadd : addConstant (.string name) s = .ok k s₁)
    (hrun : discard (emit .opSetField [k]) s₁ = .ok u s') (hcar : Carries s'.view is pool) :
    Goes M pool is s.view.stop s'.view.stop (v :: c :: stk) memory
      (((access M.toObjects).set c (.field name) v).map fun c' => (c' :: stk, memory)) := by
  obtain ⟨-, hstop, hk⟩ := addConstant_run hadd
  have hgr := (emit_grown hrun).1
  have hname := getElem?_of_grown hk (hgr.constants.trans hcar.constants)
  rw [← hstop]
  apply emit_goes hrun hcar
  show some _ = some _
  rw [constantString_of_getElem? hname]
  simp only [Except.bind, setFieldTop, access]
  cases execSetField M.toObjects c name v <;> rfl

/-- A write through a hop that only reads: its value is compiled where the hop has been read, and what
the value leaves is written into the container. -/
theorem storeThrough_goes (hreuse : last.Reusable)
    (hval : Growing emitValue) (hs : s.Sound) (hrun : storeThrough last none emitValue s = .ok () s') :
    ∃ h t t', emitValue t = .ok () t' ∧ s.Onward t ∧ t'.view.Grown s'.view ∧ last.Fixed t h ∧
      HopReading.Of s.view s'.view last h ∧
      ∀ {K A W : Type} [DecidableEq K] (M : Machine K A W) (pool : List Constant)
        (is : Instructions) (memory : Memory K A W) (hop : Hop K A), Carries s'.view is pool →
        h.hop M memory = .ok hop → ∀ (c : Value K A) (g : Except Fault (Value K A × Memory K A W)),
        (∀ stk, Goes M pool is t.view.stop t'.view.stop stk memory
          (g.map fun y => (y.1 :: stk, y.2))) →
        ∀ stk, Goes M pool is s.view.stop s'.view.stop (c :: stk) memory
          (g.bind fun y => ((access M.toObjects).set c hop y.1).map fun c' => (c' :: stk, y.2)) := by
  cases last with
  | field name =>
    obtain ⟨_, s₁, hpend, hrun⟩ := bind_ok.mp hrun
    obtain ⟨k, s₂, hadd, hemit⟩ := bind_ok.mp hrun
    obtain ⟨t, t', hst, hon, hval', hend⟩ := withPending_onward hs hpend
    have hgr : t'.view.Grown s'.view :=
      (hend.grown.trans (addConstant_run hadd).1.1).trans (emit_grown hemit).1
    refine ⟨.field name, t, t', hval', hon, hgr, rfl, rfl, ?_⟩
    intro K A W _ M pool is memory hop hcar hhop c g hg stk
    cases hhop
    -- the value is run with the container below it
    have hfst := goes_of_alike hst hend (hg (c :: stk))
    exact hfst.bind fun y _ => setField_goes hadd hemit hcar
  | index isPure comp =>
    obtain ⟨_, s₁, hcomp, hrun⟩ := bind_ok.mp hrun
    obtain ⟨_, s₂, hpend, hemit⟩ := bind_ok.mp hrun
    obtain ⟨u, u', hustart, hu, huend⟩ := withPending_alike hcomp
    obtain ⟨r, hr⟩ := hreuse.1 u u' (hustart.symbolTable ▸ hs.named) hu
    have hon₁ := (hreuse.1.withPending 1).onward (hreuse.2.withPending 1) hs hcomp
    obtain ⟨t, t', hst, hon, hval', hend⟩ := withPending_onward hon₁.sound hpend
    have hgr : t'.view.Grown s'.view := hend.grown.trans (emit_grown hemit).1
    have hgr₁ : s₁.view.Grown s'.view :=
      (hon.grown.trans (hval t () t' hval' hon.sound.wf).2).trans hgr
    refine ⟨.index r, t, t', hval', hon₁.trans hon, hgr, fun w w' hw => ?_,
      ⟨u, u', ⟨hu, hustart.grown, huend.grown.trans hgr₁⟩, hr.reads⟩, ?_⟩
    · exact hr.again w w' ((huend.steady.trans hon.steady).trans hw)
    · intro K A W _ M pool is memory hop hcar hhop c g hg stk
      obtain ⟨i, hi, rfl⟩ := HopReading.hop_index hhop
      -- first the index, then the value, then the store
      have hrds := hr.reads.of_alike hustart huend
      have hidx : Goes M pool is _ _ _ memory _ :=
        hrds.goes (hcar.of_grown hgr₁) (c :: stk)
      rw [hi] at hidx
      have hfst := goes_of_alike hst hend (hg (i :: c :: stk))
      exact Goes.trans hidx (hfst.bind fun y _ => setIndex_goes hemit hcar)

end

/-! ### The chain -/

/-- A list related to one with a last element has a last element. -/
theorem forall₂_concat {α β : Type} {R : α → β → Prop} {l : List α} {a : α} {path : List β}
    (h : List.Forall₂ R (l ++ [a]) path) :
    ∃ front b, path = front ++ [b] ∧ List.Forall₂ R l front ∧ R a b := by
  rw [← forall₂_reverse_iff, reverse_concat] at h
  generalize hrev : path.reverse = rev at h
  obtain _ | ⟨hab, hrest⟩ := h
  rename_i b rest
  refine ⟨rest.reverse, b, ?_, ?_, hab⟩
  · rw [← reverse_cons, ← hrev, reverse_reverse]
  · rw [← forall₂_reverse_iff, reverse_reverse]
    exact hrest

section

variable {K A W : Type} [DecidableEq K] (O : Objects K A)

/-- What a chain leaves: the part the outer hops lead to is taken out, changed, and put back. -/
def chainResult (x : Value K A) (path : List (Hop K A))
    (f : Value K A → Except Fault (Value K A × Memory K A W)) :
    Except Fault (Value K A × Memory K A W) :=
  ((access O).getAt x path).bind fun c =>
    (f c).bind fun y => ((access O).replaceAt x path y.1).map fun x' => (x', y.2)

/-- Changing a part through one more hop. -/
def throughHop (x : Value K A) (path : List (Hop K A)) (hop : Hop K A)
    (f : Value K A → Except Fault (Value K A × Memory K A W)) (c : Value K A) :
    Except Fault (Value K A × Memory K A W) :=
  (((access O).getAt x (path ++ [hop])).bind f).bind fun y =>
    ((access O).set c hop y.1).map fun c' => (c', y.2)

theorem chainResult_concat (x : Value K A) (path : List (Hop K A)) (hop : Hop K A)
    (f : Value K A → Except Fault (Value K A × Memory K A W)) :
    chainResult O x (path ++ [hop]) f = chainResult O x path (throughHop O x path hop f) := by
  unfold chainResult throughHop
  cases hget : (access O).getAt x path with
  | error e => simp only [PathUpdate.Access.getAt_concat, hget, Result.error_bind]
  | ok c =>
    simp only [PathUpdate.Access.replaceAt_concat, hget, Result.ok_bind, Result.bind_bind,
      Result.map_bind, Result.bind_map]

end

section

variable {s s' : CompilerState} {emitValue : CompileM Unit}

/-- The hops are read, the variable's value is followed through all but the last of them, and what the
write through the last one leaves is put back, hop by hop, into the variable. -/
theorem emitAssignChain_goes {x : Symbol} {slot : Slot} (hx : x.slot? = some slot)
    {outer : List AssignStep}
    (hlast : last.Appends)
    (hout' : ∀ step ∈ outer, step.Reusable) (hval : Growing emitValue) (hs : s.Sound)
    (hrun : emitAssignChain x (last :: outer) indexSlot emitValue s = .ok () s') :
    ∃ hs t t', storeThrough last indexSlot emitValue t = .ok () t' ∧ s.Onward t ∧
      t'.view.Grown s'.view ∧ List.Forall₂ (AssignStep.Fixed t) outer.reverse hs ∧
      List.Forall₂ (HopReading.Of s.view s'.view) outer.reverse hs ∧
      ∀ {K A W : Type} [DecidableEq K] (M : Machine K A W) (pool : List Constant)
        (is : Instructions) (memory : Memory K A W) (path : List (Hop K A)),
        Carries s'.view is pool →
        List.Forall₂ (fun h hop => HopReading.hop M memory h = .ok hop) hs path →
        ∀ f : Value K A → Except Fault (Value K A × Memory K A W),
        (∀ c stk, (access M.toObjects).getAt (memory.slots slot) path = .ok c →
          Goes M pool is t.view.stop t'.view.stop (c :: stk) memory
            ((f c).map fun y => (y.1 :: stk, y.2))) →
        ∀ stk, Goes M pool is s.view.stop s'.view.stop stk memory
          ((chainResult M.toObjects (memory.slots slot) path f).map fun y =>
            (stk, y.2.set slot y.1)) := by
  induction outer generalizing last indexSlot emitValue with
  | nil =>
    obtain ⟨_, t, hload, hrun⟩ := bind_ok.mp hrun
    obtain ⟨_, t', hsto, hput⟩ := bind_ok.mp hrun
    have hon := onward_loadSymbol hs hload
    have hgrow : Growing (storeThrough last indexSlot emitValue) :=
      growing_storeThrough hlast hval
    obtain ⟨hwf', hgr⟩ := hgrow t () t' hsto hon.sound.wf
    have hgr' := (growing_emitStoreOnly x t' () s' hput hwf').2
    refine ⟨[], t, t', hsto, hon, hgr', .nil, .nil, ?_⟩
    intro K A W _ M pool is memory path hcar hpath f hf stk
    cases hpath
    have hfst : Goes M pool is _ _ stk memory _ :=
      loadSymbol_goes hx hload (hcar.of_grown (hgr.trans hgr'))
    have hwr := hf (memory.slots slot) stk rfl
    refine Goes.trans hfst ?_
    simp only [chainResult, Result.map_bind]
    exact hwr.bind fun y _ => emitStoreOnly_goes hx hput hcar
  | cons next outer ih =>
    obtain ⟨hnext, hout''⟩ := forall_mem_cons.mp hout'
    have hpath : ∀ step ∈ (next :: outer).reverse, step.Reusable :=
      fun step hstep => hout' step (mem_reverse.mp hstep)
    have hgrow : Growing (storeThrough last indexSlot emitValue) :=
      growing_storeThrough hlast hval
    -- the value of the shallower write: the container one hop in, written
    have hinn : Growing (do
        emitPathLoad x (next :: outer).reverse none
        storeThrough last indexSlot emitValue) :=
      ((growing_loadSymbol x).bind fun _ => growing_pathSteps fun step hstep =>
        (hpath step hstep).appends).bind fun _ => hgrow
    obtain ⟨hs₁, t₁, t₁', hsto, hon₁, hgr₁, hfix₁, hof₁, hgoes₁⟩ :=
      ih hnext.appends hout'' hinn hrun
    obtain ⟨h, u, u', hrunInner, hon₂, hgr₂, hfix₂, hof₂, hgoes₂⟩ :=
      storeThrough_goes hnext hinn hon₁.sound hsto
    obtain ⟨_, t, hload, hlastStore⟩ := bind_ok.mp hrunInner
    have hon₃ := onward_emitPathLoad hpath hon₂.sound hload
    have hfix : Forall₂ (AssignStep.Fixed u) (next :: outer).reverse (hs₁ ++ [h]) := by
      rw [reverse_cons]
      exact rel_append (AssignStep.Fixed.forall_mono hfix₁ hon₂.steady)
        (.cons hfix₂ .nil)
    refine ⟨hs₁ ++ [h], t, u', hlastStore, (hon₁.trans hon₂).trans hon₃,
      hgr₂.trans hgr₁, AssignStep.Fixed.forall_mono hfix hon₃.steady, ?_, ?_⟩
    · rw [reverse_cons]
      exact rel_append hof₁ (.cons (hof₂.mono hon₁.grown hgr₁) .nil)
    intro K A W _ M pool is memory path hcar hpathHops f hf stk
    obtain ⟨front, hop, rfl, hfr, hhop⟩ := forall₂_concat hpathHops
    have hcar₁ := hcar.of_grown hgr₁
    have hcarriesT : Carries t.view is pool := by
      have hgr := (hgrow t () u' hlastStore hon₃.sound.wf).2
      exact hcar₁.of_grown (hgr.trans hgr₂)
    -- the inner write: load the variable, follow the path, write through the last hop
    have hvalueGoes : ∀ stk, Goes M pool is u.view.stop u'.view.stop stk memory
        ((((access M.toObjects).getAt (memory.slots slot) (front ++ [hop])).bind f).map
          fun y => (y.1 :: stk, y.2)) := by
      intro stk
      have hfollow := emitPathLoad_goes hx hpath hfix hon₂.sound hload hcarriesT hpathHops stk
      rw [Result.map_bind]
      exact hfollow.bind fun c hget => hf c stk hget
    rw [chainResult_concat]
    refine hgoes₁ M pool is memory front hcar hfr _ (fun c stk _ => ?_) stk
    have hwr := hgoes₂ M pool is memory hop hcar₁ hhop c _ hvalueGoes stk
    simpa only [throughHop, Result.map_bind, Result.map_map] using hwr

end

end Mutant.Compiler
