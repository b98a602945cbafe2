import Mathlib.Data.List.Chain
import Mathlib.Data.List.Induction
import Mathlib.Data.List.Perm.Subperm
import Mathlib.Logic.Relation
import Mutant.Lib.Result

/-!
# Breadth-first search

A search for `target` that visits every value once, and keeps for each the one it was reached from.
What comes next after a value may fail to be found, and then the search fails.

The value that the search starts from is kept with a value `stop`, and the path back from what is
found ends where it meets `stop`.  So it is a shortest path where `stop` is not itself a value on the
way; that the target is reached where a path is found, and only there, holds in any case
(`search_spec`).
-/

namespace Breadth

open List

variable {α ε : Type} [DecidableEq α]

/-- The values after `current`: each that is new is kept with `current`, and queued, until the
target is one of them. -/
def visit (target current : α) : (next : List α) → (parents : List (α × α)) →
    (queue : List α) → List (α × α) × List α × Bool
  | [], parents, queue => (parents, queue, false)
  | a :: next, parents, queue =>
    if a ∈ parents.map Prod.fst then visit target current next parents queue
    else if a = target then ((a, current) :: parents, queue, true)
    else visit target current next ((a, current) :: parents) (queue ++ [a])

/-- The values back from `a`, each the one before was reached from, until `stop`. -/
def pathTo (stop : α) (parents : List (α × α)) : (steps : Nat) → (a : α) → List α
  | 0, _ => []
  | steps + 1, a =>
    if a = stop then [] else a :: pathTo stop parents steps ((parents.lookup a).getD stop)

/-- The turns of the search: the path to the target, or none. -/
def searchFrom (next : α → Except ε (List α)) (stop target : α) : (turns : Nat) →
    (parents : List (α × α)) → (queue : List α) → Except ε (Option (List α))
  | 0, _, _ => .ok none
  | _ + 1, _, [] => .ok none
  | turns + 1, parents, current :: queue =>
    (next current).bind fun values =>
      match visit target current values parents queue with
      | (parents, _, true) =>
        .ok (some (target :: pathTo stop parents parents.length current).reverse)
      | (parents, queue, false) => searchFrom next stop target turns parents queue

/-- The search from a value. -/
def search (next : α → Except ε (List α)) (stop start target : α) (turns : Nat) :
    Except ε (Option (List α)) :=
  searchFrom next stop target turns [(start, stop)] [start]

/-! ### The table -/

variable {R : α → α → Prop} {next : α → Except ε (List α)} {stop start target : α}
  {parents added : List (α × α)} {queue values : List α}

/-- The way back from a value to the start, as the table has it. -/
inductive Back (start : α) (parents : List (α × α)) : α → List α → Prop
  | first : Back start parents start [start]
  | after {a b : α} {way : List α} (hne : a ≠ start) (h : parents.lookup a = some b)
      (hway : Back start parents b way) : Back start parents a (a :: way)

/-- The way back, whatever `stop` is. -/
def wayTo (start : α) (parents : List (α × α)) : (steps : Nat) → (a : α) → List α
  | 0, _ => []
  | steps + 1, a =>
    if a = start then [a] else a :: wayTo start parents steps ((parents.lookup a).getD start)

/-- The way back is found when there is room for its steps. -/
theorem Back.wayTo_eq {a : α} {way : List α} (h : Back start parents a way) {steps : Nat}
    (hss : way.length ≤ steps) : wayTo start parents steps a = way := by
  induction h generalizing steps with
  | first =>
    obtain ⟨steps, rfl⟩ := Nat.exists_eq_succ_of_ne_zero (Nat.pos_iff_ne_zero.mp hss)
    rw [wayTo, if_pos rfl]
  | after hne h _ ih =>
    obtain ⟨steps, rfl⟩ := Nat.exists_eq_succ_of_ne_zero (Nat.pos_iff_ne_zero.mp
      (Nat.zero_lt_of_lt hss))
    rw [wayTo, if_neg hne, h]
    exact congrArg _ (ih (Nat.le_of_succ_le_succ hss))

/-- The path back is the way, if it does not meet `stop` before the start. -/
theorem Back.pathTo_eq {a : α} {way : List α} (h : Back start parents a way)
    (hst : parents.lookup start = some stop) (hstop : stop ∉ way) {steps : Nat}
    (hss : way.length ≤ steps) : pathTo stop parents steps a = way := by
  induction h generalizing steps with
  | first =>
    obtain ⟨steps, rfl⟩ := Nat.exists_eq_succ_of_ne_zero (Nat.pos_iff_ne_zero.mp hss)
    have hend : pathTo stop parents steps stop = [] := by
      cases steps with
      | zero => rfl
      | succ steps => rw [pathTo, if_pos rfl]
    rw [pathTo, if_neg fun heq => hstop (mem_singleton.mpr heq.symm), hst, Option.getD_some, hend]
  | after _ h _ ih =>
    obtain ⟨steps, rfl⟩ := Nat.exists_eq_succ_of_ne_zero (Nat.pos_iff_ne_zero.mp
      (Nat.zero_lt_of_lt hss))
    rw [mem_cons, not_or] at hstop
    rw [pathTo, if_neg (Ne.symm hstop.1), h]
    exact congrArg _ (ih hstop.2 (Nat.le_of_succ_le_succ hss))

theorem mem_fst_of_lookup {a b : α} (h : parents.lookup a = some b) : a ∈ parents.map Prod.fst := by
  obtain ⟨l, r, rfl, -⟩ := lookup_eq_some_iff.mp h
  simp

theorem Back.mem {a : α} {way : List α} (h : Back start parents a way)
    (hst : start ∈ parents.map Prod.fst) : ∀ c ∈ way, c ∈ parents.map Prod.fst := by
  induction h with
  | first => exact forall_mem_singleton.mpr hst
  | after _ h _ ih => exact forall_mem_cons.mpr ⟨mem_fst_of_lookup h, ih⟩

/-- What is kept of values that are new changes no way that there was. -/
theorem lookup_append_of_nodup {a b : α} (h : parents.lookup a = some b)
    (hnodup : ((added ++ parents).map Prod.fst).Nodup) : (added ++ parents).lookup a = some b := by
  rw [map_append, nodup_append] at hnodup
  have hnone : added.lookup a = none := by
    rw [lookup_eq_none_iff]
    intro entry hentry
    rw [bne_iff_ne]
    exact (hnodup.2.2 entry.1 (mem_map_of_mem hentry) a (mem_fst_of_lookup h)).symm
  rw [lookup_append, hnone, Option.none_or, h]

theorem Back.append {a : α} {way : List α} (h : Back start parents a way)
    (hnodup : ((added ++ parents).map Prod.fst).Nodup) : Back start (added ++ parents) a way := by
  induction h with
  | first => exact .first
  | after hne h _ ih => exact .after hne (lookup_append_of_nodup h hnodup) ih

/-- How many values there are on the way back from one, itself included. -/
def depth (start : α) (parents : List (α × α)) (a : α) : Nat :=
  (wayTo start parents parents.length a).length

/-- Every value of the table was reached from `start`, which is kept with `stop`. -/
structure Table (R : α → α → Prop) (stop start : α) (parents : List (α × α)) : Prop where
  nodup : (parents.map Prod.fst).Nodup
  lookup_start : parents.lookup start = some stop
  depth_start : depth start parents start = 1
  back : ∀ a ∈ parents.map Prod.fst, ∃ way, Back start parents a way ∧
    way.length ≤ parents.length ∧ way.getLast? = some start ∧ way.IsChain fun b a => R a b

theorem Table.start_mem (h : Table R stop start parents) : start ∈ parents.map Prod.fst :=
  mem_fst_of_lookup h.lookup_start

theorem Table.singleton : Table R stop start [(start, stop)] := by
  have hback : Back start [(start, stop)] start [start] := .first
  refine ⟨pairwise_singleton .., lookup_cons_self, ?_, ?_⟩
  · exact congrArg length (hback.wayTo_eq (Nat.le_refl 1))
  · intro a ha
    rw [mem_singleton.mp ha]
    exact ⟨[start], hback, Nat.le_refl 1, rfl, .singleton _⟩

theorem Table.depth_append (h : Table R stop start parents) {b : α}
    (hb : b ∈ parents.map Prod.fst) (hnodup : ((added ++ parents).map Prod.fst).Nodup) :
    depth start (added ++ parents) b = depth start parents b := by
  obtain ⟨way, hway, hlen, -⟩ := h.back b hb
  rw [depth, depth, hway.wayTo_eq hlen, (hway.append hnodup).wayTo_eq]
  rw [length_append]
  exact Nat.le_add_left_of_le hlen

/-- The values of the table are reached. -/
theorem Table.reaches (h : Table R stop start parents) {a : α} (ha : a ∈ parents.map Prod.fst) :
    Relation.ReflTransGen R start a := by
  obtain ⟨way, hway, -, hlast, hss⟩ := h.back a ha
  obtain ⟨rest, hrest⟩ : ∃ rest, way = a :: rest := by
    cases hway with
    | first => exact ⟨_, rfl⟩
    | after => exact ⟨_, rfl⟩
  subst hrest
  have hback := relationReflTransGen_of_exists_isChain_cons (r := fun b a => R a b) rest hss
    (Option.some.inj ((getLast?_eq_some_getLast _).symm.trans hlast))
  exact Relation.reflTransGen_swap.mp hback

/-- The table with a value more. -/
theorem Table.push (h : Table R stop start parents) {a current : α}
    (hcur : current ∈ parents.map Prod.fst) (ha : a ∉ parents.map Prod.fst) (hR : R current a) :
    Table R stop start ((a, current) :: parents) ∧
      depth start ((a, current) :: parents) a = depth start parents current + 1 := by
  have hnodup : (([(a, current)] ++ parents).map Prod.fst).Nodup := nodup_cons.mpr ⟨ha, h.nodup⟩
  obtain ⟨way, hway, hlen, hst, hss⟩ := h.back current hcur
  have hne : a ≠ start := fun heq => ha (heq ▸ h.start_mem)
  -- the way back goes through `current`
  have hback : Back start ((a, current) :: parents) a (a :: way) :=
    .after hne lookup_cons_self (hway.append hnodup)
  have hlen' := Nat.succ_le_succ hlen
  refine ⟨⟨hnodup, lookup_append_of_nodup h.lookup_start hnodup, ?_, ?_⟩, ?_⟩
  · exact (h.depth_append h.start_mem hnodup).trans h.depth_start
  · rw [map_cons, forall_mem_cons]
    refine ⟨⟨a :: way, hback, hlen', ?_, ?_⟩, fun b hb => ?_⟩
    · rw [getLast?_cons, hst, Option.getD_some]
    · rw [isChain_cons]
      refine ⟨fun b hb => ?_, hss⟩
      cases hway <;> obtain rfl := Option.some.inj hb <;> exact hR
    · obtain ⟨way, hway, hlen, hlast, hss⟩ := h.back b hb
      exact ⟨way, hway.append hnodup, Nat.le_succ_of_le hlen, hlast, hss⟩
  · rw [depth, length_cons, hback.wayTo_eq hlen', depth, hway.wayTo_eq hlen, length_cons]

/-- What a visit leaves: every value is kept, those that are new one deeper than `current`. -/
theorem Table.visit (h : Table R stop start parents) {current : α}
    {pars' : List (α × α)} {queue' : List α} {reached : Bool}
    (hcur : current ∈ parents.map Prod.fst) (hR : ∀ a ∈ values, R current a)
    (hvis : visit target current values parents queue = (pars', queue', reached)) :
    ∃ added, pars' = added ++ parents ∧ Table R stop start pars' ∧
      (∀ a ∈ added.map Prod.fst, a ∈ values ∧ depth start pars' a = depth start parents current + 1) ∧
      bif reached then target ∈ added.map Prod.fst else
        target ∉ added.map Prod.fst ∧ queue' = queue ++ (added.map Prod.fst).reverse ∧
          ∀ a ∈ values, a ∈ pars'.map Prod.fst := by
  induction values generalizing parents queue with
  | nil =>
    obtain ⟨rfl, rfl, rfl⟩ := hvis
    exact ⟨[], rfl, h, by simp, by simp⟩
  | cons a values ih =>
    obtain ⟨hRa, hR⟩ := forall_mem_cons.mp hR
    rw [Breadth.visit] at hvis
    -- seen before, the target, or new
    split_ifs at hvis with hseen hfnd
    · obtain ⟨added, rfl, htab, hnew, hrch⟩ := ih h hcur hR hvis
      refine ⟨added, rfl, htab, fun b hb => ?_, ?_⟩
      · exact ⟨mem_cons_of_mem _ (hnew b hb).1, (hnew b hb).2⟩
      · cases reached with
        | true => exact hrch
        | false =>
          refine ⟨hrch.1, hrch.2.1, forall_mem_cons.mpr ⟨?_, hrch.2.2⟩⟩
          rw [map_append]
          exact mem_append_right _ hseen
    · obtain ⟨rfl, -, rfl⟩ := hvis
      obtain ⟨htab, hdep⟩ := h.push hcur hseen hRa
      refine ⟨[(a, current)], rfl, htab, ?_, ?_⟩
      · exact forall_mem_singleton.mpr ⟨mem_cons_self, hdep⟩
      · exact mem_singleton.mpr hfnd.symm
    · obtain ⟨htab, hdep⟩ := h.push hcur hseen hRa
      obtain ⟨added, rfl, htab', hnew, hrch⟩ := ih htab (mem_cons_of_mem _ hcur) hR hvis
      have hsplit : added ++ (a, current) :: parents = (added ++ [(a, current)]) ++ parents := by
        rw [append_assoc, singleton_append]
      have hcur' : depth start ([(a, current)] ++ parents) current = depth start parents current :=
        h.depth_append hcur htab.nodup
      rw [singleton_append] at hcur'
      rw [hcur'] at hnew
      refine ⟨added ++ [(a, current)], hsplit, htab', ?_, ?_⟩
      · rw [map_append, forall_mem_append]
        refine ⟨fun b hb => ⟨mem_cons_of_mem _ (hnew b hb).1, (hnew b hb).2⟩, ?_⟩
        refine forall_mem_singleton.mpr ⟨mem_cons_self, ?_⟩
        exact (htab.depth_append mem_cons_self htab'.nodup).trans hdep
      · rw [map_append, map_singleton]
        cases reached with
        | true => exact mem_append_left _ hrch
        | false =>
          obtain ⟨htgt, rfl, hvals⟩ := hrch
          refine ⟨?_, ?_, forall_mem_cons.mpr ⟨?_, hvals⟩⟩
          · rw [mem_append, mem_singleton, not_or]
            exact ⟨htgt, Ne.symm hfnd⟩
          · rw [reverse_append, reverse_singleton, append_assoc]
          · simp

/-! ### The search -/

/-- A path from `start` to `target`, and none has fewer values. -/
structure Shortest (R : α → α → Prop) (start target : α) (path : List α) : Prop where
  head : path.head? = some start
  last : path.getLast? = some target
  steps : path.IsChain R
  le : ∀ other : List α, other.head? = some start → other.getLast? = some target →
    other.IsChain R → path.length ≤ other.length

/-- A search under way from `start`: what was taken out of the queue has all its values in the
table, and none is deeper than the next of what is in it. -/
structure UnderWay (R : α → α → Prop) (stop start target : α) (parents : List (α × α))
    (queue : List α) : Prop where
  table : Table R stop start parents
  target_notMem : target ∉ parents.map Prod.fst
  queued : ∀ a ∈ queue, a ∈ parents.map Prod.fst
  sorted : queue.Pairwise fun a b => depth start parents a ≤ depth start parents b
  near : ∀ a ∈ queue, ∀ b ∈ parents.map Prod.fst, depth start parents b ≤ depth start parents a + 1
  closed : ∀ a ∈ parents.map Prod.fst, a ∉ queue → ∀ b, R a b →
    b ∈ parents.map Prod.fst ∧ depth start parents b ≤ depth start parents a + 1

/-- The search as it starts. -/
theorem UnderWay.init (hne : start ≠ target) :
    UnderWay R stop start target [(start, stop)] [start] where
  table := .singleton
  target_notMem hmem := hne (mem_singleton.mp hmem).symm
  queued _ ha := ha
  sorted := pairwise_singleton ..
  near a ha b hb := by
    rw [mem_singleton.mp ha, mem_singleton.mp hb]
    exact Nat.le_succ _
  closed _ ha hqueue := absurd ha hqueue

/-- With nothing left to visit, the target is not reached. -/
theorem UnderWay.not_reaches (h : UnderWay R stop start target parents []) :
    ¬ Relation.ReflTransGen R start target := by
  have hseen : ∀ b, Relation.ReflTransGen R start b → b ∈ parents.map Prod.fst := by
    intro b hrch
    induction hrch with
    | refl => exact h.table.start_mem
    | tail _ hstep ih => exact (h.closed _ ih not_mem_nil _ hstep).1
  exact fun hrch => h.target_notMem (hseen target hrch)

/-- The table never holds more than there is. -/
theorem UnderWay.length_le (h : UnderWay R stop start target parents queue)
    (hpars : ∀ a ∈ parents.map Prod.fst, a ∈ values) : parents.length ≤ values.length := by
  have := (subperm_of_subset h.table.nodup hpars).length_le
  rwa [length_map] at this

section

variable {current : α} (h : UnderWay R stop start target parents (current :: queue))

include h

/-- A path that is no longer than the way to what is next in the queue leads to a value of the table. -/
theorem UnderWay.mem_of_path {path : List α} {a : α} (hst : (path ++ [a]).head? = some start)
    (hss : (path ++ [a]).IsChain R) (hlen : path.length < depth start parents current) :
    a ∈ parents.map Prod.fst ∧ depth start parents a ≤ path.length + 1 := by
  induction path using reverseRecOn generalizing a with
  | nil =>
    cases hst
    exact ⟨h.table.start_mem, h.table.depth_start.le⟩
  | append_singleton path b ih =>
    rw [length_append, length_singleton] at hlen ⊢
    obtain ⟨hbef, -, hstep⟩ := isChain_append.mp hss
    have hst' : (path ++ [b]).head? = some start := by
      rwa [head?_append_of_ne_nil _ (by simp)] at hst
    obtain ⟨hb, hdep⟩ := ih hst' hbef (by omega)
    -- the value before is near enough to have left the queue
    have hout : b ∉ current :: queue := by
      have hle := (pairwise_cons.mp h.sorted).1
      rw [mem_cons, not_or]
      refine ⟨?_, fun hqueue => ?_⟩
      · rintro rfl
        omega
      · have := hle b hqueue
        omega
    obtain ⟨ha, hdep'⟩ := h.closed b hb hout a (hstep b (by simp) a (by simp))
    exact ⟨ha, by omega⟩

variable {pars' : List (α × α)}

/-- One turn of the search, without the target. -/
theorem UnderWay.visit {values queue' : List α} (hvals : ∀ a, a ∈ values ↔ R current a)
    (hvis : visit target current values parents queue = (pars', queue', false)) :
    UnderWay R stop start target pars' queue' ∧
      ∃ new, pars'.length = new.length + parents.length ∧ queue' = queue ++ new ∧
        ∀ a ∈ pars'.map Prod.fst, a ∈ parents.map Prod.fst ∨ a ∈ values := by
  have hcurrent := h.queued current mem_cons_self
  obtain ⟨added, rfl, htab, hadded, htgt, rfl, hall⟩ :=
    h.table.visit hcurrent (fun a ha => (hvals a).mp ha) hvis
  set new := (added.map Prod.fst).reverse with hrev
  have hnew (a : α) (ha : a ∈ new) : a ∈ values ∧
      depth start (added ++ parents) a = depth start parents current + 1 :=
    hadded a (mem_reverse.mp ha)
  have hkept (a : α) (ha : a ∈ parents.map Prod.fst) :
      depth start (added ++ parents) a = depth start parents a := h.table.depth_append ha htab.nodup
  have hmem (a : α) : a ∈ (added ++ parents).map Prod.fst ↔ a ∈ new ∨ a ∈ parents.map Prod.fst := by
    rw [map_append, mem_append, hrev, mem_reverse]
  have hqueued := (forall_mem_cons.mp h.queued).2
  obtain ⟨hle, hsort⟩ := pairwise_cons.mp h.sorted
  -- all that is known lies at most one level below `current`, and the queue not above it
  have hdeepest : ∀ a ∈ (added ++ parents).map Prod.fst,
      depth start (added ++ parents) a ≤ depth start parents current + 1 := by
    intro a ha
    obtain ha | ha := (hmem a).mp ha
    · exact (hnew a ha).2.le
    · exact (hkept a ha).le.trans (h.near current mem_cons_self a ha)
  have hleft : ∀ a ∈ queue ++ new, depth start parents current ≤ depth start (added ++ parents) a := by
    refine forall_mem_append.mpr ⟨fun a ha => ?_, fun a ha => ?_⟩
    · exact (hle a ha).trans (hkept a (hqueued a ha)).ge
    · exact (Nat.le_succ _).trans (hnew a ha).2.ge
  refine ⟨⟨htab, ?_, ?_, ?_, ?_, ?_⟩, _, ?_, rfl, ?_⟩
  · rw [hmem, not_or]
    exact ⟨fun hmem => htgt (mem_reverse.mp hmem), h.target_notMem⟩
  · refine forall_mem_append.mpr ⟨fun a ha => ?_, fun a ha => (hmem a).mpr (.inl ha)⟩
    exact (hmem a).mpr (.inr (hqueued a ha))
  · rw [pairwise_append]
    refine ⟨hsort.imp_of_mem ?_, pairwise_of_forall_mem_list ?_, ?_⟩
    · intro a b ha hb hle
      rwa [hkept a (hqueued a ha), hkept b (hqueued b hb)]
    · intro a ha b hb
      rw [(hnew a ha).2, (hnew b hb).2]
    · intro a ha b hb
      rw [(hnew b hb).2]
      exact hdeepest a ((hmem a).mpr (.inr (hqueued a ha)))
  · exact fun a ha b hb => (hdeepest b hb).trans (Nat.succ_le_succ (hleft a ha))
  · intro a ha hqueue b hb
    rw [mem_append, not_or] at hqueue
    have hseen := ((hmem a).mp ha).resolve_left hqueue.2
    rw [hkept a hseen]
    by_cases hcur : a = current
    · subst hcur
      have hb' := hall b ((hvals b).mpr hb)
      exact ⟨hb', hdeepest b hb'⟩
    · have hout : a ∉ current :: queue := not_mem_cons_of_ne_of_not_mem hcur hqueue.1
      obtain ⟨hb', hdep⟩ := h.closed a hseen hout b hb
      exact ⟨(hmem b).mpr (.inr hb'), (hkept b hb').le.trans hdep⟩
  · rw [length_append, hrev, length_reverse, length_map]
  · exact fun a ha => ((hmem a).mp ha).symm.imp_right fun ha => (hnew a ha).1

/-- The turn that finds the target: it is reached, and the path to it is a shortest one, unless the
search stops on it. -/
theorem UnderWay.found {values queue' : List α} (hvals : ∀ a, a ∈ values ↔ R current a)
    (hvis : Breadth.visit target current values parents queue = (pars', queue', true)) :
    Relation.ReflTransGen R start target ∧
      (stop = target ∨ ¬ Relation.ReflTransGen R start stop → Shortest R start target
        (target :: pathTo stop pars' pars'.length current).reverse) := by
  have hcur := h.queued current mem_cons_self
  obtain ⟨added, rfl, htab, hnew, htgt⟩ :=
    h.table.visit hcur (fun a ha => (hvals a).mp ha) hvis
  have hR : R current target := (hvals target).mp (hnew target htgt).1
  refine ⟨(h.table.reaches hcur).tail hR, fun hstop => ?_⟩
  obtain ⟨way, hway, hlen, hlast, hss⟩ := h.table.back current hcur
  have hout : stop ∉ way := by
    intro hmem
    have hkey := hway.mem h.table.start_mem stop hmem
    obtain rfl | hnot := hstop
    · exact h.target_notMem hkey
    · exact hnot (h.table.reaches hkey)
  have hpath : pathTo stop (added ++ parents) (added ++ parents).length current = way := by
    refine (hway.append htab.nodup).pathTo_eq htab.lookup_start hout ?_
    rw [length_append]
    exact Nat.le_add_left_of_le hlen
  have hdep : depth start parents current = way.length := by rw [depth, hway.wayTo_eq hlen]
  rw [hpath]
  refine ⟨?_, ?_, isChain_reverse.mpr ?_, fun other hst hend hch => ?_⟩
  · rw [head?_reverse, getLast?_cons, hlast, Option.getD_some]
  · rw [getLast?_reverse, head?_cons]
  · rw [isChain_cons]
    refine ⟨fun b hb => ?_, hss⟩
    cases hway <;> obtain rfl := Option.some.inj hb <;> exact hR
  · -- a shorter path would lead to the target from what was visited before
    obtain ⟨path, rfl⟩ := getLast?_eq_some_iff.mp hend
    rw [length_reverse, length_cons, length_append, length_singleton]
    by_contra! hsh
    exact h.target_notMem (h.mem_of_path hst hch (by omega)).1

end

/-- With turns for every value, the search answers whether the target can be reached. -/
theorem searchFrom_spec {turns : Nat} {res : Option (List α)}
    (hnext : ∀ a found, next a = .ok found → ∀ b, b ∈ found ↔ R a b)
    (hvals : ∀ a b, R a b → b ∈ values) (h : UnderWay R stop start target parents queue)
    (hpars : ∀ a ∈ parents.map Prod.fst, a ∈ values)
    (hturns : values.length + queue.length ≤ turns + parents.length)
    (hsearch : searchFrom next stop target turns parents queue = .ok res) :
    (res.isSome ↔ Relation.ReflTransGen R start target) ∧
      (stop = target ∨ ¬ Relation.ReflTransGen R start stop →
        ∀ path, res = some path → Shortest R start target path) := by
  induction turns generalizing parents queue with
  | zero =>
    have := h.length_le hpars
    obtain rfl : queue = [] := eq_nil_of_length_eq_zero (by omega)
    cases hsearch
    exact ⟨⟨nofun, fun hreach => absurd hreach h.not_reaches⟩, nofun⟩
  | succ turns ih =>
    cases queue with
    | nil =>
      cases hsearch
      exact ⟨⟨nofun, fun hreach => absurd hreach h.not_reaches⟩, nofun⟩
    | cons current queue =>
      obtain ⟨found, hfnd, hrest⟩ := Result.ok_of_bind hsearch
      have hR := hnext current found hfnd
      split at hrest
      -- found
      next pars' queue' hvis =>
        cases hrest
        obtain ⟨hreach, hshort⟩ := h.found hR hvis
        refine ⟨⟨fun _ => hreach, fun _ => rfl⟩, fun hstop path hpath => ?_⟩
        exact Option.some.inj hpath ▸ hshort hstop
      next pars' queue' hvis =>
        obtain ⟨hway, new, hlen, rfl, hmem⟩ := h.visit hR hvis
        have hpars' : ∀ a ∈ pars'.map Prod.fst, a ∈ values := by
          intro a ha
          obtain ha | ha := hmem a ha
          · exact hpars a ha
          · exact hvals current a ((hR a).mp ha)
        refine ih hway hpars' ?_ hrest
        rw [length_append]
        rw [length_cons] at hturns
        omega

/-- A search with enough turns, where `values` are all there are: it finds a path exactly where the
target is reached, and what it finds is a shortest path if it cannot stop before the start. -/
theorem search_spec {turns : Nat} {res : Option (List α)} (hne : start ≠ target)
    (hnext : ∀ a found, next a = .ok found → ∀ b, b ∈ found ↔ R a b)
    (hvals : ∀ a b, R a b → b ∈ values) (hturns : values.length < turns)
    (hsearch : search next stop start target turns = .ok res) :
    (res.isSome ↔ Relation.ReflTransGen R start target) ∧
      (stop = target ∨ ¬ Relation.ReflTransGen R start stop →
        ∀ path, res = some path → Shortest R start target path) := by
  have hvals' (a b : α) (h : R a b) : b ∈ start :: values := mem_cons_of_mem _ (hvals a b h)
  refine searchFrom_spec hnext hvals' (.init hne) ?_ ?_ hsearch
  · exact forall_mem_singleton.mpr mem_cons_self
  · rw [length_cons, length_singleton, length_singleton]
    omega

end Breadth
