import Mathlib.Data.List.Nodup
import Mathlib.Logic.Relation
import Mutant.Lib.Result

/-!
# Lines of descent

Values have parents, and some of them are keyed.  The line of a value is where a walk from it stops
that goes from a value to its only parent: at the first value that is keyed, or that has no only
parent (`walk`).  Lines are stable: once the line of a value is keyed, parents that are added later
move it only if they are added to a value that the walk passes (`line_iff`).
-/

namespace Lineage

open List Relation

variable {α ε : Type}

/-- The walk, with the values passed; none where the limit stops it. -/
def walk [DecidableEq α] (keyed : α → Except ε Bool) (parents : α → Except ε (List α)) :
    (limit : Nat) → (visited : List α) → (current : α) → Except ε (Option α)
  | 0, _, _ => .ok none
  | limit + 1, visited, current =>
    (keyed current).bind fun isKeyed =>
      if isKeyed then .ok (some current)
      else
        (parents current).bind fun
          | [parent] =>
            if parent ∈ current :: visited then .ok (some current)
            else walk keyed parents limit (current :: visited) parent
          | _ => .ok (some current)

/-- Which values are keyed, and which has which for a parent. -/
@[ext] structure State (α : Type) where
  keyed : α → Prop
  above : α → α → Prop

namespace State

/-- `y` is the one parent of `x`. -/
def OnlyParent (s : State α) (x y : α) : Prop := ∀ z, s.above x z ↔ z = y

/-- The walk from a value passes `way`, and comes to another. -/
inductive Way (s : State α) : α → List α → α → Prop
  | here (x : α) : Way s x [] x
  | step {x y l : α} {way : List α} (hkeyed : ¬ s.keyed x) (hparent : s.OnlyParent x y)
      (hrest : Way s y way l) : Way s x (x :: way) l

/-- The walk stops at a value. -/
def Stops (s : State α) (l : α) : Prop := s.keyed l ∨ ¬ ∃ y, s.OnlyParent l y

/-- The line of a value, and the values passed on the way to it. -/
structure Line (s : State α) (x : α) (way : List α) (l : α) : Prop where
  way : s.Way x way l
  stops : s.Stops l

def Acyclic (s : State α) : Prop := ∀ x, ¬ TransGen s.above x x

/-- A value is keyed. -/
def key (s : State α) (l : α) : State α := { s with keyed := fun x => s.keyed x ∨ x = l }

/-- A value gets a parent. -/
def add (s : State α) (new old : α) : State α :=
  { s with above := fun x y => s.above x y ∨ x = new ∧ y = old }

variable {s t : State α} {x y l : α} {way : List α}

/-! ### The way to a line -/

/-- What a walk passes has a parent, and descends from where the walk comes to. -/
theorem Way.descends (h : s.Way x way l) :
    ReflTransGen s.above x l ∧ ∀ w ∈ way, ReflTransGen s.above x w ∧ TransGen s.above w l := by
  induction h with
  | here x => exact ⟨.refl, by simp⟩
  | @step x y l way _ hpar _ ih =>
    have hover : s.above x y := (hpar y).mpr rfl
    refine ⟨.head hover ih.1, ?_⟩
    rw [forall_mem_cons]
    refine ⟨⟨.refl, .head' hover ih.1⟩, ?_⟩
    exact fun w hw => ⟨.head hover (ih.2 w hw).1, (ih.2 w hw).2⟩

theorem Way.exists_over (h : s.Way x way l) {w : α} (hw : w ∈ way) : ∃ y, s.above w y := by
  obtain ⟨y, hover, -⟩ := TransGen.head'_iff.mp (h.descends.2 w hw).2
  exact ⟨y, hover⟩

theorem Way.not_mem (h : s.Way x way l) (hacy : s.Acyclic) : l ∉ way :=
  fun hl => hacy l (h.descends.2 l hl).2

theorem Way.not_stops (h : s.Way x way l) {w : α} (hw : w ∈ way) : ¬ s.Stops w := by
  induction h with
  | here => cases hw
  | step hkeyed hpar _ ih =>
    obtain rfl | hw := mem_cons.mp hw
    · exact not_or.mpr ⟨hkeyed, not_not.mpr ⟨_, hpar⟩⟩
    · exact ih hw

theorem OnlyParent.unique {z : α} (hy : s.OnlyParent x y) (hz : s.OnlyParent x z) : y = z :=
  (hz y).mp ((hy y).mpr rfl)

variable {way' : List α}

/-- The walk from a value takes one way. -/
theorem Line.unique {l' : α} (h : s.Line x way l) (h' : s.Line x way' l') :
    way = way' ∧ l = l' := by
  obtain ⟨hway, hsps⟩ := h
  induction hway generalizing way' with
  | here x =>
    cases h'.way with
    | here => exact ⟨rfl, rfl⟩
    | step hkeyed hpar _ => exact absurd ⟨_, hpar⟩ (hsps.resolve_left hkeyed)
  | step hkeyed hpar _ ih =>
    cases h'.way with
    | here => exact absurd ⟨_, hpar⟩ (h'.stops.resolve_left hkeyed)
    | step _ hpar' hrest =>
      obtain rfl := hpar.unique hpar'
      obtain ⟨rfl, rfl⟩ := ih ⟨hrest, h'.stops⟩ hsps
      exact ⟨rfl, rfl⟩

/-! ### The walk -/

section Walk

variable [DecidableEq α] {keyed : α → Except ε Bool} {parents : α → Except ε (List α)}
  (hkeyed : ∀ x, ∃ b, keyed x = .ok b ∧ (b = true ↔ s.keyed x))
  (hpars : ∀ x, ∃ found, parents x = .ok found ∧ found.Nodup ∧ ∀ y, y ∈ found ↔ s.above x y)
include hkeyed hpars

/-- A walk within its limit comes to the line. -/
theorem walk_eq_ok (hacy : s.Acyclic) (limit : Nat) (visited : List α) (current : α)
    (hvisited : ∀ v ∈ visited, TransGen s.above v current) :
    ∃ found, walk keyed parents limit visited current = .ok found ∧
      ∀ l, found = some l ↔ ∃ way, s.Line current way l ∧ way.length < limit := by
  induction limit generalizing visited current with
  | zero => exact ⟨none, rfl, by simp⟩
  | succ limit ih =>
    obtain ⟨isKeyed, hisKeyed, hiff⟩ := hkeyed current
    obtain ⟨found, hfnd, hnd, hover⟩ := hpars current
    rw [walk, hisKeyed]
    -- the walk stops here: the line is the value itself
    have hhere (hsps : s.Stops current) (l : α) :
        some current = some l ↔ ∃ way, s.Line current way l ∧ way.length < limit + 1 := by
      constructor
      · intro h
        cases h
        exact ⟨[], ⟨.here current, hsps⟩, by simp⟩
      · rintro ⟨way, hline, -⟩
        rw [(hline.unique ⟨.here current, hsps⟩).2]
    cases isKeyed with
    | true => exact ⟨_, rfl, hhere (.inl (hiff.mp rfl))⟩
    | false =>
      have hnot : ¬ s.keyed current := fun h => Bool.false_ne_true (hiff.mpr h)
      rw [hfnd]
      by_cases hone : ∃ parent, found = [parent]
      · obtain ⟨parent, rfl⟩ := hone
        have honly : s.OnlyParent current parent := by
          intro z
          rw [← hover z, mem_singleton]
        have hstep : s.above current parent := (honly parent).mpr rfl
        have hnew : parent ∉ current :: visited := by
          rw [mem_cons, not_or]
          constructor
          · rintro rfl
            exact hacy _ (.single hstep)
          · exact fun hmem => hacy _ (.tail (hvisited parent hmem) hstep)
        have hnext : ∀ v ∈ current :: visited, TransGen s.above v parent := by
          rw [forall_mem_cons]
          exact ⟨.single hstep, fun v hv => .tail (hvisited v hv) hstep⟩
        obtain ⟨res, hres, hline⟩ := ih (current :: visited) parent hnext
        refine ⟨res, ?_, ?_⟩
        · show (if parent ∈ current :: visited then _ else _) = _
          rw [if_neg hnew, hres]
        · intro l
          rw [hline l]
          constructor
          · rintro ⟨way, ⟨hway, hsps⟩, hlen⟩
            exact ⟨current :: way, ⟨.step hnot honly hway, hsps⟩, Nat.succ_lt_succ hlen⟩
          · rintro ⟨way, ⟨hway, hsps⟩, hlen⟩
            cases hway with
            | here => exact absurd ⟨_, honly⟩ (hsps.resolve_left hnot)
            | step _ honly' hrest =>
              obtain rfl := honly.unique honly'
              exact ⟨_, ⟨hrest, hsps⟩, Nat.lt_of_succ_lt_succ hlen⟩
      · refine ⟨some current, ?_, hhere (.inr ?_)⟩
        · rcases found with _ | ⟨parent, _ | ⟨_, _⟩⟩
          · rfl
          · exact absurd ⟨parent, rfl⟩ hone
          · rfl
        · rintro ⟨parent, honly⟩
          apply hone
          refine ⟨parent, perm_singleton.mp ?_⟩
          rw [perm_ext_iff_of_nodup hnd (nodup_singleton parent)]
          intro z
          rw [hover z, honly z, mem_singleton]

end Walk

/-! ### Lines are stable -/

/-- One change, with the values that get a parent by it: a value's line is keyed, or a value gets a
new parent that does not descend from it. -/
inductive Step (s : State α) : List α → State α → Prop
  | stay : Step s [] s
  | key {x l : α} {way : List α} (hline : s.Line x way l) : Step s [] (s.key l)
  | add {new old : α} (hacyclic : ¬ ReflTransGen s.above old new) (hnew : ¬ s.above new old) :
      Step s [new] (s.add new old)

inductive Run : State α → List α → State α → Prop
  | refl (s : State α) : Run s [] s
  | step {s t u : State α} {news news' : List α} (hstep : s.Step news t) (hrun : Run t news' u) :
      Run s (news ++ news') u

/-- A way with one more parent on it goes by the new parent at most once. -/
theorem reaches_add {new old : α} {a b : α} (h : ReflTransGen (s.add new old).above a b) :
    ReflTransGen s.above a b ∨ ReflTransGen s.above a new ∧ ReflTransGen s.above old b := by
  induction h with
  | refl => exact .inl .refl
  | tail _ hstep ih =>
    obtain hstep | ⟨rfl, rfl⟩ := hstep
    · obtain hleft | ⟨hnew, hold⟩ := ih
      · exact .inl (.tail hleft hstep)
      · exact .inr ⟨hnew, .tail hold hstep⟩
    · obtain hleft | ⟨hnew, _⟩ := ih
      · exact .inr ⟨hleft, .refl⟩
      · exact .inr ⟨hnew, .refl⟩

variable {news : List α}

/-- A step keeps a lineage acyclic. -/
theorem Step.acyclic (h : s.Step news t) (hacy : s.Acyclic) : t.Acyclic := by
  cases h with
  | stay => exact hacy
  | key => exact hacy
  | add hold _ =>
    intro x hcycle
    obtain ⟨y, hstep, hrest⟩ := TransGen.head'_iff.mp hcycle
    obtain hstep | ⟨rfl, rfl⟩ := hstep
    · obtain hrest | ⟨hnew, hx⟩ := reaches_add hrest
      · exact hacy x (.head' hstep hrest)
      · exact hold (hx.trans (.head hstep hnew))
    · obtain hrest | ⟨hrest, -⟩ := reaches_add hrest
      · exact hold hrest
      · exact hold hrest

theorem Step.mono (h : s.Step news t) :
    (∀ x, s.keyed x → t.keyed x) ∧ ∀ x y, s.above x y → t.above x y := by
  cases h with
  | stay => exact ⟨fun _ h => h, fun _ _ h => h⟩
  | key => exact ⟨fun _ h => .inl h, fun _ _ h => h⟩
  | add => exact ⟨fun _ h => h, fun _ _ h => .inl h⟩

/-- A way is kept by a step that adds a parent to no record on it. -/
theorem Way.of_step (hstep : s.Step news t) (h : s.Way x way l)
    (hnews : ∀ new ∈ news, new ∉ way) : t.Way x way l := by
  -- what the step keys is a line, and no value that is passed is one
  have hps : ∀ w ∈ way, ¬ t.keyed w ∧ ∀ y, t.above w y ↔ s.above w y := by
    intro w hw
    have hnot := h.not_stops hw
    cases hstep with
    | stay => exact ⟨fun hk => hnot (.inl hk), fun _ => .rfl⟩
    | key hline =>
      refine ⟨?_, fun _ => .rfl⟩
      rintro (hk | rfl)
      · exact hnot (.inl hk)
      · exact hnot hline.stops
    | add _ _ =>
      refine ⟨fun hk => hnot (.inl hk), fun y => ⟨?_, .inl⟩⟩
      rintro (hover | ⟨rfl, -⟩)
      · exact hover
      · exact absurd hw (hnews _ mem_cons_self)
  clear hnews hstep
  induction h with
  | here x => exact .here x
  | step _ hpar _ ih =>
    rw [forall_mem_cons] at hps
    obtain ⟨⟨hkeyed, hover⟩, hrest⟩ := hps
    exact .step hkeyed (fun z => (hover z).trans (hpar z)) (ih hrest)

/-- A value that is passed has two parents. -/
def Lost (s : State α) (way : List α) : Prop := ∃ w ∈ way, ∃ y z, y ≠ z ∧ s.above w y ∧ s.above w z

/-- A way that is lost is walked no further than where it is. -/
theorem Lost.line_mem (h : t.Lost way) (hway : s.Way x way l)
    (hmono : ∀ x y, s.above x y → t.above x y) {l' : α} (hline : t.Line x way' l') : l' ∈ way := by
  induction hway generalizing way' with
  | here =>
    obtain ⟨_, hw, -⟩ := h
    cases hw
  | @step x y l way _ hpar _ ih =>
    cases hline.way with
    | here => exact mem_cons_self
    | step _ honly hrest =>
      obtain rfl := (honly y).mp (hmono _ _ ((hpar y).mpr rfl))
      apply mem_cons_of_mem
      refine ih ?_ ⟨hrest, hline.stops⟩
      obtain ⟨w, hw, a, b, hne, ha, hb⟩ := h
      obtain rfl | hw := mem_cons.mp hw
      · exact absurd (((honly a).mp ha).trans ((honly b).mp hb).symm) hne
      · exact ⟨w, hw, a, b, hne, ha, hb⟩

theorem Run.acyclic (h : Run s news t) (hacy : s.Acyclic) : t.Acyclic := by
  induction h with
  | refl => exact hacy
  | step hstep _ ih => exact ih (hstep.acyclic hacy)

theorem Run.mono (h : Run s news t) :
    (∀ x, s.keyed x → t.keyed x) ∧ ∀ x y, s.above x y → t.above x y := by
  induction h with
  | refl => exact ⟨fun _ h => h, fun _ _ h => h⟩
  | step hstep _ ih =>
    exact ⟨fun x hx => ih.1 x (hstep.mono.1 x hx), fun x y hxy => ih.2 x y (hstep.mono.2 x y hxy)⟩

theorem Run.keeps (h : Run s news t) (hway : s.Way x way l)
    (hnews : ∀ new ∈ news, new ∉ way) : t.Way x way l := by
  induction h with
  | refl => exact hway
  | step hstep _ ih =>
    rw [forall_mem_append] at hnews
    exact ih (hway.of_step hstep hnews.1) hnews.2

/-- A value that is passed gets a parent: the way is lost. -/
theorem Run.lost (h : Run s news t) (hway : ∀ w ∈ way, ∃ y, s.above w y)
    {new : α} (hnew : new ∈ news) (hps : new ∈ way) : t.Lost way := by
  induction h with
  | refl => cases hnew
  | @step s u t news news' hstep hrun ih =>
    obtain hmem | hmem := mem_append.mp hnew
    · cases hstep with
      | stay => cases hmem
      | key => cases hmem
      | @add added old _ hfresh =>
        obtain rfl := mem_singleton.mp hmem
        obtain ⟨y, hover⟩ := hway new hps
        have hne : y ≠ old := by
          rintro rfl
          exact hfresh hover
        exact ⟨new, hps, y, old, hne, hrun.mono.2 _ _ (.inl hover),
          hrun.mono.2 _ _ (.inr ⟨rfl, rfl⟩)⟩
    · refine ih (fun w hw => ?_) hmem
      obtain ⟨y, hover⟩ := hway w hw
      exact ⟨y, hstep.mono.2 w y hover⟩

/-- A line that is keyed stays the line of a value exactly as long as no value passed on the way to
it gets a parent; the way to it is then the one it was. -/
theorem line_iff (hacy : s.Acyclic) (hway : s.Way x way l) (hkeyed : s.keyed l)
    (hrun : Run s news t) : t.Line x way' l ↔ way' = way ∧ ∀ new ∈ news, new ∉ way := by
  have hheld (hnews : ∀ new ∈ news, new ∉ way) : t.Line x way l :=
    ⟨hrun.keeps hway hnews, .inl (hrun.mono.1 l hkeyed)⟩
  constructor
  · intro hline
    have hnews : ∀ new ∈ news, new ∉ way := by
      intro new hnew hps
      have hlost := hrun.lost (fun w hw => hway.exists_over hw) hnew hps
      exact hway.not_mem hacy (hlost.line_mem hway hrun.mono.2 hline)
    exact ⟨(hline.unique (hheld hnews)).1, hnews⟩
  · rintro ⟨rfl, hnews⟩
    exact hheld hnews

/-- The line of a value whose only parent has a keyed line. -/
theorem line_child_iff (hacy : s.Acyclic) (hway : s.Way x way l)
    (hkeyed : s.keyed l) (hrun : Run s news t) {child : α} (honly : t.OnlyParent child x) :
    t.Line child way' l ↔ way' = child :: way ∧ ¬ t.keyed child ∧ ∀ new ∈ news, new ∉ way := by
  have hacy' := hrun.acyclic hacy
  have hover : t.above child x := (honly x).mpr rfl
  constructor
  · rintro ⟨hway', hsps⟩
    cases hway' with
    | here =>
      -- the child would be its own line, and descend from itself
      have hdescends : ReflTransGen t.above x l :=
        ReflTransGen.mono hrun.mono.2 _ _ hway.descends.1
      exact absurd (.head' hover hdescends) (hacy' l)
    | step hnot hpar hrest =>
      obtain rfl := honly.unique hpar
      obtain ⟨rfl, hnews⟩ := (line_iff hacy hway hkeyed hrun).mp ⟨hrest, hsps⟩
      exact ⟨rfl, hnot, hnews⟩
  · rintro ⟨rfl, hnot, hnews⟩
    have hline := (line_iff hacy hway hkeyed hrun).mpr ⟨rfl, hnews⟩
    exact ⟨.step hnot honly hline.way, hline.stops⟩

end State

end Lineage
