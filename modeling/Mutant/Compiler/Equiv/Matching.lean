import Mutant.Compiler.Equiv.Expressions
/-!
# The code of `match`

An arm that always matches is followed by code that control does not reach from above.  Its depth is
settled by the jumps to the end, which every arm takes from the depth its own start has.

* `matchArms_tracks`: the arms, with the depths their ends assume;
* `matchExpression_leaves`: a `match` leaves one value.
-/

namespace Mutant.Compiler

open List Mutant.Code Mutant.Ast

variable {v₀ : View} {base : Nat} {opens : List OpenJump} {flow₀ : LoopFlow}
  {patterns : List (CompileM Unit)} {ends : List Nat} {depth : Option Int} {assumes : List Mark}
  {arms : List (List (CompileM Unit) × Option ValueBlock)}

/-! ### One arm -/

/-- The jump an arm takes when none of its patterns matches. -/
def missedJump (missed : Option Nat) : List OpenJump :=
  missed.toList.map fun p => ⟨p, openJumpFalse, 2⟩

/-- The jumps to the end, each from the depth of the subject. -/
def endJumps (ends : List Nat) : List OpenJump := ends.map fun p => ⟨p, openJump, 1⟩

section

variable {flow flow' : LoopFlow} {s s' : CompilerState}

/-- The test of one pattern against the subject on the stack. -/
theorem patternTest_tracks {pattern : CompileM Unit} (hpattern : Leaves pattern 1 flow)
    {s₁ s₂ s₃ : CompilerState} {p : Nat}
    {u₁ u₂ u₃ : Unit} (h : Tracks v₀ base opens (some 1) flow₀ s.view)
    (h₁ : discard (emit .opDup) s = .ok u₁ s₁) (h₂ : withPending 2 pattern s₁ = .ok u₂ s₂)
    (h₃ : discard (emit .opEqual) s₂ = .ok u₃ s₃)
    (h₄ : emitPlaceholder .opJumpFalse [] s₃ = .ok p s') :
    Tracks v₀ base (⟨p, openJumpFalse, 2⟩ :: opens) (some 1) (flow₀.join flow) s'.view := by
  have hdup : Moves (discard (emit .opDup)) 1 2 {} := .emit 1 2 rfl rfl rfl (by omega) (by omega)
  have hequal : Moves (discard (emit .opEqual)) 3 2 {} :=
    .emit 2 1 rfl rfl rfl (by omega) (by omega)
  have t := hdup.run h h₁
  have t := (hpattern.pending 2).run t h₂
  have t := hequal.run t h₃
  simpa using t.jumpFalse (by omega) h₄

/-- The tests of an arm leave a jump for every pattern that matched, and one for the last that
missed. -/
theorem patternTests_tracks (hpats : LeavesAll patterns flow) {matched : List Nat}
    {missed : Option Nat} (h : Tracks v₀ base opens (some 1) flow₀ s.view)
    (hrun : patternTests patterns s = .ok (matched, missed) s') :
    Tracks v₀ base (missedJump missed ++ (matched.reverse.map fun p => ⟨p, openJump, 1⟩) ++ opens)
      (some 1) (flow₀.join flow) s'.view := by
  induction hpats generalizing opens flow₀ s matched missed with
  | nil =>
    obtain ⟨heq, rfl⟩ := pure_ok.mp hrun
    cases heq
    simpa [missedJump] using h
  | @cons pattern patterns flow flows hpattern hrest ih =>
    cases patterns with
    | nil =>
      cases hrest
      simp only [patternTests, bind_ok, pure_ok] at hrun
      obtain ⟨_, s₁, h₁, _, s₂, h₂, _, s₃, h₃, p, s₄, h₄, heq, rfl⟩ := hrun
      cases heq
      simpa [missedJump] using patternTest_tracks hpattern h h₁ h₂ h₃ h₄
    -- a pattern that missed jumps to the next test
    | cons next patterns =>
      simp only [patternTests, bind_ok, pure_ok] at hrun
      obtain ⟨_, s₁, h₁, _, s₂, h₂, _, s₃, h₃, p, s₄, h₄, q, s₅, h₅, _, _, ⟨rfl, rfl⟩, _, s₆, h₆,
        ⟨matched', missed'⟩, s₇, h₇, heq, rfl⟩ := hrun
      cases heq
      have t := patternTest_tracks hpattern h h₁ h₂ h₃ h₄
      have t := t.jump (by omega) h₅
      obtain ⟨t, -⟩ := t.land [_] h₆ 1 rfl (by simp)
      simpa [LoopFlow.join_assoc] using ih t h₇

/-- An arm leaves its jump to the end, and falls through at depth one unless it always matches. -/
theorem matchArm_tracks {body : ValueBlock}
    (hpats : LeavesAll patterns flow) (hbody : BlockLeaves body flow') {endJump : Nat}
    {always : Bool} (hv : s.view.Wf) (hrun : matchArm patterns body s = .ok (endJump, always) s') :
    Tracks s.view 1 (endJumps [endJump]) (if always then none else some 1) (flow.join flow')
      s'.view := by
  have hpop : Moves (discard (emit .opPop)) 1 0 {} := .emit 1 0 rfl rfl rfl (by omega) (by omega)
  simp only [matchArm, bind_ok] at hrun
  obtain ⟨⟨matched, missed⟩, s₁, h₁, _, _, ⟨rfl, rfl⟩, _, s₂, h₂, _, s₃, h₃, _, s₄, h₄, p, s₅, h₅,
    hrun⟩ := hrun
  -- the tests, the pop of the subject, the value, the jump to the end
  have t := patternTests_tracks hpats (.start hv 1) h₁
  obtain ⟨t, -⟩ := t.landAll ((reverse_perm _).map _) h₂
  have t := hpop.run t h₃
  have t := (valueBlock_leaves hbody).moves.run t h₄
  have t := t.jump (by omega) h₅
  cases missed with
  | none =>
    obtain ⟨heq, rfl⟩ := pure_ok.mp hrun
    cases heq
    simpa [missedJump, endJumps] using t
  | some q =>
    simp only [bind_ok, pure_ok] at hrun
    obtain ⟨_, _, ⟨rfl, rfl⟩, _, s₆, h₆, heq, rfl⟩ := hrun
    cases heq
    obtain ⟨t, -⟩ := Tracks.land [_] (x := ⟨q, openJumpFalse, 2⟩) (by simpa [missedJump] using t) h₆ 1
      rfl (by simp)
    simpa [endJumps] using t

end

/-! ### All arms -/

/-- The arms of a `match`.  One without a body is refused when it is reached. -/
inductive LeavesArms : List (List (CompileM Unit) × Option ValueBlock) → LoopFlow → Prop
  | nil : LeavesArms [] {}
  | missing {patterns arms flow} : LeavesArms ((patterns, none) :: arms) flow
  | cons {patterns body arms flow flow' flows} : LeavesAll patterns flow → BlockLeaves body flow' →
    LeavesArms arms flows → LeavesArms ((patterns, some body) :: arms) ((flow.join flow').join flows)

/-- What is assumed holds as soon as all the jumps to the end stand at one depth. -/
def Settles (v₀ : View) (ends : List Nat) (v : View) (assumes : List Mark) : Prop :=
  ∀ D (ground : Int), (D v₀.stop : Int) = ground + 1 → v.Depths D →
    (∀ p ∈ ends, ∀ q ∈ ends, D p = D q) → ∀ m ∈ assumes, (D m.offset : Int) = ground + m.depth

section

variable {v₀ v v' : View} {flow flow' : LoopFlow} {ends ends' : List Nat} {depth : Option Int}
  {assumes : List Mark}

/-- Under what is assumed, the jumps to the end stand at the depth of the arms' start. -/
theorem Tracks.endJump_depth (h : Tracks v₀ 1 (endJumps ends) depth flow v assumes) {D : Nat → Nat}
    {g : Int} (hD : v.Depths D) (hgnd : (D v₀.stop : Int) = g + 1)
    (has : ∀ m ∈ assumes, (D m.offset : Int) = g + m.depth) {p : Nat} (hp : p ∈ ends) :
    (D p : Int) = g + 1 := by
  obtain ⟨f, hf, ht⟩ := h
  have hk := hf.known D g ⟨by rw [ht.base]; exact hgnd, hD, ht.assumes ▸ has⟩
  exact hk.opens ⟨p, openJump, 1⟩ (ht.opens ▸ mem_map_of_mem hp)

/-- Code that is not reached from above, taken to start at the depth of the subject. -/
theorem Tracks.revive (h : Tracks v₀ base opens none flow v assumes) (e : Int) :
    Tracks v₀ base opens (some e) flow v (⟨v.stop, e⟩ :: assumes) := by
  obtain ⟨f, hf, ht⟩ := h
  refine ⟨_, hf.revive ht.depth e, ?_⟩
  exact { ht with
    assumes := congrArg (_ :: ·) ht.assumes
    depth := rfl
    flow := { ht.flow with } }

end

section

variable {s s' : CompilerState} {flow : LoopFlow}

/-- What the arms after the first assume is settled by the jumps to the end, and so is the depth at
which those arms start. -/
theorem settles_cons {v v' : View} {p : Nat} {d' : Option Int} {flow flow' : LoopFlow}
    (harm : Tracks v₀ 1 (endJumps [p]) depth flow v)
    (hrest : Tracks v 1 (endJumps ends) d' flow' v' assumes) (hset : Settles v ends v' assumes)
    (hne : ends ≠ []) (D : Nat → Nat) (g : Int) (hgnd : (D v₀.stop : Int) = g + 1)
    (hD : v'.Depths D) (hall : ∀ a ∈ p :: ends, ∀ b ∈ p :: ends, D a = D b) :
    (D v.stop : Int) = g + 1 ∧ ∀ m ∈ assumes, (D m.offset : Int) = g + m.depth := by
  obtain ⟨q, hq⟩ := exists_mem_of_ne_nil ends hne
  have hp : (D p : Int) = g + 1 :=
    harm.endJump_depth (hrest.depths hD) hgnd (by simp) mem_cons_self
  have has := hset D (D v.stop - 1) (by omega) hD fun a ha b hb =>
    hall a (mem_cons_of_mem _ ha) b (mem_cons_of_mem _ hb)
  have hq' := hrest.endJump_depth hD (by omega) has hq
  have hpq := hall p mem_cons_self q (mem_cons_of_mem _ hq)
  have hstop : (D v.stop : Int) = g + 1 := by omega
  refine ⟨hstop, fun m hm => ?_⟩
  have := has m hm
  omega

/-- The arms leave their jumps to the end, and assume of code behind an arm that always matches what
those jumps settle. -/
theorem matchArms_tracks (harms : LeavesArms arms flow) {always : Bool} (hv : s.view.Wf)
    (hrun : matchArms arms s = .ok (ends, always) s') :
    ∃ depth assumes, Tracks s.view 1 (endJumps ends) depth flow s'.view assumes ∧
      (depth = some 1 ∨ (depth = none ∧ always = true)) ∧ ends.length = arms.length ∧
      Settles s.view ends s'.view assumes := by
  induction harms generalizing s ends always with
  | nil =>
    obtain ⟨heq, rfl⟩ := pure_ok.mp hrun
    cases heq
    exact ⟨some 1, [], .start hv 1, .inl rfl, rfl, by simp [Settles]⟩
  | missing => exact (fail_ok.mp hrun).elim
  | @cons patterns body arms flow flow' flows hpats hbody harms ih =>
    simp only [matchArms, bind_ok, pure_ok] at hrun
    obtain ⟨⟨p, always₁⟩, s₁, h₁, ⟨ends', always'⟩, s₂, h₂, heq, rfl⟩ := hrun
    cases heq
    have harm := matchArm_tracks hpats hbody hv h₁
    obtain ⟨depth, assumes, hrest, hdep, hlen, hset⟩ := ih harm.wf h₂
    cases arms with
    | nil =>
      obtain ⟨heq, rfl⟩ := pure_ok.mp h₂
      cases heq
      cases harms
      refine ⟨_, [], by simpa using harm, ?_, rfl, by simp [Settles]⟩
      cases always₁ <;> simp
    | cons next arms =>
      have hset' := settles_cons harm hrest hset (by rintro rfl; simp at hlen)
      -- behind an arm that always matches the depth is assumed
      cases always₁ with
      | false =>
        refine ⟨depth, assumes, harm.append hrest, hdep.imp_right fun h => ?_,
          by simpa using hlen, fun D g hgnd hD hall => (hset' D g hgnd hD hall).2⟩
        simpa using h
      | true =>
        refine ⟨depth, _, (harm.revive 1).append hrest, hdep.imp_right fun h => ?_,
          by simpa using hlen, fun D g hgnd hD hall m hm => ?_⟩
        · simp [h.1]
        · obtain ⟨hstop, hrest⟩ := hset' D g hgnd hD hall
          rcases mem_cons.mp hm with rfl | hm
          · exact hstop
          · exact hrest m hm

/-- What the arms assume has been settled. -/
theorem Tracks.settle {v : View} (h : Tracks v₀ base opens depth flow v assumes)
    (hall : ∀ D (g : Int), (D v₀.stop : Int) = g + base → v.Depths D →
      ∀ m ∈ assumes, (D m.offset : Int) = g + m.depth) : Tracks v₀ base opens depth flow v := by
  obtain ⟨f, hf, ht⟩ := h
  refine ⟨_, hf.discharge fun D g hgnd hD => ?_, { ht with assumes := rfl, flow := { ht.flow with } }⟩
  rw [ht.assumes]
  exact hall D g (ht.base ▸ hgnd) hD

/-- The jumps to the end all come from the depth of the end. -/
theorem landAll_depths {c : Int} {ps : List Nat}
    (h : Tracks v₀ base (ps.map fun p => ⟨p, openJump, c⟩) (some c) flow s.view assumes) {u : Unit}
    (hrun : changeOperands ps s.view.stop s = .ok u s') {D : Nat → Nat} (hD : s'.view.Depths D) :
    s.view.Depths D ∧ ∀ p ∈ ps, D p = D s.view.stop := by
  induction ps generalizing s with
  | nil =>
    obtain ⟨-, rfl⟩ := pure_ok.mp hrun
    exact ⟨hD, by simp⟩
  | cons p ps ih =>
    obtain ⟨_, s₁, h₁, hrun⟩ := bind_ok.mp hrun
    obtain ⟨t, hstop⟩ := h.land [] h₁ c
      (by simp [OpenJump.landing, openJump, Instr.pops, Instr.lands]) (by simp)
    obtain ⟨hD₁, hall⟩ := ih t (hstop ▸ hrun)
    obtain ⟨hD₀, hp⟩ := h.land_depths mem_cons_self h₁ hD₁
    refine ⟨hD₀, fun q hq => ?_⟩
    rcases mem_cons.mp hq with rfl | hq
    · exact hp.symm
    · rw [hall q hq, hstop]

/-- The jumps to the end, patched; what the arms assumed is settled. -/
theorem endJumps_leaves
    (h : Tracks v₀ 0 (endJumps ends) depth flow s.view assumes) (hne : ends ≠ [])
    (hdep : ∀ c ∈ depth, c = 1) (hset : ∀ D (g : Int), (D v₀.stop : Int) = g → s.view.Depths D →
      (∀ p ∈ ends, ∀ q ∈ ends, D p = D q) → ∀ m ∈ assumes, (D m.offset : Int) = g + m.depth)
    {u : Unit} (hrun : changeOperands ends s.view.stop s = .ok u s') :
    Tracks v₀ 0 [] (some 1) flow s'.view := by
  obtain ⟨p, ps, rfl⟩ := exists_cons_of_ne_nil hne
  obtain ⟨_, s₁, h₁, hrun⟩ := bind_ok.mp hrun
  obtain ⟨t, hstop⟩ := h.land [] h₁ 1 rfl hdep
  have tail : Tracks v₀ 0 ([] ++ (ps.map fun p => ⟨p, openJump, 1⟩) ++ []) (some 1) flow s₁.view
      assumes := by simpa using t
  refine (tail.landAll (.refl _) (hstop ▸ hrun)).1.settle fun D g hgnd hD => ?_
  obtain ⟨hD₁, hps⟩ := landAll_depths t (hstop ▸ hrun) hD
  obtain ⟨hD₀, hp⟩ := h.land_depths mem_cons_self h₁ hD₁
  -- all the jumps land here, so they were made at one depth
  have hend : ∀ q ∈ p :: ps, D q = D s.view.stop := by
    intro q hq
    rcases mem_cons.mp hq with rfl | hq
    · exact hp.symm
    · rw [hps q hq, hstop]
  refine hset D g (by simpa using hgnd) hD₀ fun a ha b hb => ?_
  rw [hend a ha, hend b hb]

/-- A `match` leaves one value, whether its last arm always matches or not. -/
theorem matchExpression_leaves {subject : CompileM Unit} {flow' : LoopFlow}
    (hsubject : Leaves subject 1 flow) (harms : LeavesArms arms flow') :
    Leaves (matchExpression subject arms) 1 (flow.join flow') := by
  intro s s' hrun hv
  simp only [matchExpression, ite_ok, bind_ok, fail_ok, false_and, exists_false, and_false,
    false_or] at hrun
  obtain ⟨hne, _, s₁, h₁, ⟨ends, always⟩, s₂, h₂, hrun⟩ := hrun
  have t₀ := hsubject s s₁ h₁ hv
  obtain ⟨depth, assumes, harms, hdep, hlen, hset⟩ := matchArms_tracks harms t₀.wf h₂
  have t := t₀.append harms
  have hends : ends ≠ [] := by
    rintro rfl
    rw [length_nil, eq_comm, length_eq_zero_iff] at hlen
    simp [hlen] at hne
  -- an arm that may not match runs into the failure; otherwise the arms end here
  have hlast : ∃ d' s₃, Tracks s.view 0 (endJumps ends) d' (flow.join flow') s₃.view assumes ∧
      (∀ c ∈ d', c = 1) ∧ (∀ D, s₃.view.Depths D → s₂.view.Depths D) ∧
      changeOperands ends s₃.view.stop s₃ = .ok () s' := by
    rcases hrun with ⟨halways, _, s₃, h₃, _, _, ⟨rfl, rfl⟩, hrun⟩ | ⟨-, _, _, ⟨rfl, rfl⟩, hrun⟩
    · obtain rfl : depth = some 1 := by
        rcases hdep with hdep | ⟨-, rfl⟩
        · exact hdep
        · simp at halways
      obtain ⟨_, h₃⟩ := discard_ok.mp h₃
      obtain ⟨hfits, -, hs₃⟩ := emit_ok.mp h₃
      have hview : s₃.view = s₂.view.put ⟨.opMatchFail, []⟩ false := hs₃ ▸ rfl
      refine ⟨none, s₃, ?_, by simp, fun D hD => View.le_put.depths (hview ▸ hD), hrun⟩
      exact hview ▸ t.put hfits rfl (Int.le_refl 1)
    · refine ⟨depth, s₂, t, ?_, fun D hD => hD, hrun⟩
      rcases hdep with rfl | ⟨rfl, -⟩ <;> simp
  obtain ⟨d', s₃, t, hdep', hle, hrun⟩ := hlast
  refine endJumps_leaves t hends hdep' (fun D g hgnd hD hall => ?_) hrun
  exact hset D g (t₀.depth_eq (by simpa using hgnd) (harms.depths (hle D hD)))
    (hle D hD) hall

end

end Mutant.Compiler
