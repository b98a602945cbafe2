import Mathlib.Data.List.Infix
import Mutant.Builtin.Tasks
import Mutant.Lib.Result

/-!
# The task registry against the table of tasks

The registry refines the table that its calls tell of, as long as the calls are too few to bring the
counter of handles round.  A result is held exactly while its task is among the last
`maxRetainedTasks` to complete, collected ones counted.

* `Refines.step`, `Refines.run`: every action, and so every run, keeps the refinement.
* `taskWait_collects_iff`: when a later `task_wait` finds a task that has completed.
* `taskWait_refuses`: the handles that `task_wait` refuses.
* `taskWait_dropped`: a result nobody collected that is lost to tasks that were.
-/

namespace Mutant.Builtin.Tasks

open Function List

variable {id : Int} {args : List Arg}

variable {α : Type} {s s' : TaskRegistry α} {t : Table α}

/-! ### The refinement -/

/-- What the registry holds, in terms of the table, while the counter of handles has not come
round. -/
structure Refines (s : TaskRegistry α) (t : Table α) : Prop where
  room : t.spawned.length < 2 ^ 63 - 1
  next : s.nextID = t.spawned.length + 1
  spawned : ∀ id, id ∈ t.spawned ↔ 1 ≤ id ∧ id < s.nextID
  distinct : t.spawned.Nodup
  completed : ∀ id ∈ t.completedIDs, id ∈ t.spawned
  once : t.completedIDs.Nodup
  collected : ∀ id ∈ t.collected, id ∈ t.completedIDs
  live : s.live = t.running.length
  finished : s.finished = t.completedIDs.rtake maxRetainedTasks
  tasks : ∀ id, id ∈ s.tasks ↔
    id ∈ t.spawned ∧ id ∉ t.collected ∧ (id ∈ t.completedIDs → id ∈ s.finished)
  allocated : ∀ id outcome, (s.allocated id).outcome = some outcome ↔ (id, outcome) ∈ t.completed
  waits : ∀ call wait, s.waits call = some wait → wait.handle ∈ t.spawned

theorem refines_start : Refines (.start : TaskRegistry α) .empty := by
  refine ⟨(by decide : 0 < 2 ^ 63 - 1), rfl, ?_, nodup_nil, ?_, nodup_nil, ?_, rfl, ?_, ?_, ?_, ?_⟩ <;>
    simp [TaskRegistry.start, Table.empty, Table.completedIDs]

theorem mem_completedIDs : id ∈ t.completedIDs ↔ ∃ oc, (id, oc) ∈ t.completed := by
  simp [Table.completedIDs]

theorem mem_running : id ∈ t.running ↔ id ∈ t.spawned ∧ id ∉ t.completedIDs := by
  simp [Table.running]

theorem Refines.hasFinished_iff (h : Refines s t) (id : Int) :
    (s.allocated id).hasFinished = true ↔ id ∈ t.completedIDs := by
  rw [ManagedTask.hasFinished, Option.isSome_iff_exists, mem_completedIDs]
  exact exists_congr fun oc => h.allocated id oc

theorem Refines.nextID_notMem (h : Refines s t) : s.nextID ∉ t.spawned := by
  rw [h.spawned]
  omega

/-- A task that runs is in the registry. -/
theorem Refines.mem_tasks_of_running (h : Refines s t) (hid : id ∈ t.running) : id ∈ s.tasks := by
  rw [mem_running] at hid
  exact (h.tasks id).mpr ⟨hid.1, fun hcol => hid.2 (h.collected id hcol),
    fun hcomp => absurd hcomp hid.2⟩

/-! ### One action -/

/-- A spawn hands out the next handle, which no task has had. -/
theorem Refines.registerTask (h : Refines s t) (hroom : t.spawned.length + 1 < 2 ^ 63 - 1)
    (hstep : registerTask s = .ok (id, s')) :
    Refines s' { t with spawned := t.spawned ++ [id] } := by
  rw [Tasks.registerTask] at hstep
  split_ifs at hstep
  cases hstep
  have hnew := h.nextID_notMem
  have hnew' : s.nextID ∉ t.completedIDs := fun hmem => hnew (h.completed _ hmem)
  have hnext := h.next
  -- the counter is still far from wrapping
  have hwrap : wrap64 (s.nextID + 1) = s.nextID + 1 := wrap64_eq_self (by omega) (by omega)
  -- handles, live tasks, held tasks, allocations and waits, in that order
  refine ⟨?_, ?_, ?_, ?_, ?_, h.once, h.collected, ?_, h.finished, ?_, ?_, ?_⟩
  · rw [length_append]
    exact hroom
  · rw [length_append, hwrap, hnext]
    rfl
  · intro id
    show id ∈ t.spawned ++ [s.nextID] ↔ 1 ≤ id ∧ id < wrap64 (s.nextID + 1)
    rw [mem_append, mem_singleton, h.spawned, hwrap]
    omega
  · exact nodup_append.mpr ⟨h.distinct, nodup_singleton _, fun a ha b hb hab =>
      hnew (mem_singleton.mp hb ▸ hab ▸ ha)⟩
  · exact fun id hid => mem_append_left _ (h.completed id hid)
  · have hrun : ({ t with spawned := t.spawned ++ [s.nextID] } : Table α).running =
        t.running ++ [s.nextID] := by
      show (t.spawned ++ [s.nextID]).filter (· ∉ t.completedIDs) =
        t.spawned.filter (· ∉ t.completedIDs) ++ [s.nextID]
      rw [filter_append, filter_singleton, decide_eq_true hnew', cond_true]
    rw [hrun, length_append, Int.natCast_add, ← h.live]
    rfl
  · intro id
    rw [mem_cons, h.tasks, mem_append, mem_singleton]
    constructor
    · rintro (rfl | ⟨hsp, hrest⟩)
      · exact ⟨.inr rfl, fun hcol => hnew' (h.collected _ hcol),
          fun hcomp => absurd hcomp hnew'⟩
      · exact ⟨.inl hsp, hrest⟩
    · rintro ⟨hsp | rfl, hrest⟩
      · exact .inr ⟨hsp, hrest⟩
      · exact .inl rfl
  · intro id oc
    show (update s.allocated s.nextID ⟨none⟩ id).outcome = some oc ↔ _
    by_cases hid : id = s.nextID
    · subst hid
      rw [update_self]
      constructor
      · intro hnone
        cases hnone
      · intro hmem
        exact absurd (mem_completedIDs.mpr ⟨oc, hmem⟩) hnew'
    · rw [update_of_ne hid]
      exact h.allocated id oc
  · exact fun call wait hwait => mem_append_left _ (h.waits call wait hwait)

/-- Only the first completion of a task does something. -/
theorem Refines.completeTask_eq_self (h : Refines s t) (hid : id ∉ t.running)
    (res : Option α) (err : Option Failure) : completeTask s id res err = s := by
  rw [completeTask]
  split_ifs with htask hfin
  · rfl
  · rw [h.hasFinished_iff] at hfin
    exact absurd (mem_running.mpr ⟨((h.tasks id).mp htask).1, hfin⟩) hid
  · rfl

/-- A completion takes one task off those that run. -/
theorem length_running_complete (t : Table α) (oc : Outcome α)
    (hid : id ∈ t.running) (hdistinct : t.spawned.Nodup) :
    ((⟨t.spawned, t.completed ++ [(id, oc)], t.collected⟩ : Table α).running.length : Int) =
      t.running.length - 1 := by
  have hnd : t.running.Nodup := hdistinct.filter _
  have hrun : (⟨t.spawned, t.completed ++ [(id, oc)], t.collected⟩ : Table α).running =
      t.running.erase id := by
    rw [hnd.erase_eq_filter, Table.running, Table.running, filter_filter]
    apply filter_congr
    intro other _
    rw [Bool.eq_iff_iff, Bool.and_eq_true, decide_eq_true_iff, decide_eq_true_iff, bne_iff_ne,
      Table.completedIDs, map_append, mem_append, not_or, and_comm]
    exact and_congr_left' (not_congr mem_singleton)
  have hpos : 0 < t.running.length := length_pos_of_mem hid
  rw [hrun, length_erase_of_mem hid]
  omega

theorem length_spawned_note (t : Table α) (e : Action α × Answer α) :
    (t.note e).spawned.length ≤ t.spawned.length + 1 := by
  unfold Table.note
  split
  · exact (length_append ..).le
  · split_ifs <;> exact Nat.le_succ _
  · exact Nat.le_succ _
  · exact Nat.le_succ _

section

variable (h : Refines s t)

include h

/-- The first completion of a task is noted; the oldest result beyond the limit is let go. -/
theorem Refines.completeTask (hid : id ∈ t.running) (res : Option α) (err : Option Failure) :
    Refines (completeTask s id res err)
      { t with completed := t.completed ++ [(id, ⟨res, err⟩)] } := by
  have htask := h.mem_tasks_of_running hid
  have hid' := mem_running.mp hid
  have hfin : (s.allocated id).hasFinished = false := by
    rw [← Bool.not_eq_true, h.hasFinished_iff]
    exact hid'.2
  have hids : ({ t with completed := t.completed ++ [(id, ⟨res, err⟩)] } :
      Table α).completedIDs = t.completedIDs ++ [id] := by
    simp [Table.completedIDs]
  -- a running task has not completed before
  have honce : (t.completedIDs ++ [id]).Nodup :=
    nodup_append.mpr ⟨h.once, nodup_singleton _, fun a ha b hb hab =>
      hid'.2 (mem_singleton.mp hb ▸ hab ▸ ha)⟩
  simp only [Tasks.completeTask, htask, hfin, Retention.settle_eq, if_true, Bool.false_eq_true,
    if_false]
  refine ⟨h.room, h.next, h.spawned, h.distinct, ?_, ?_, ?_, ?_, ?_, ?_, ?_, h.waits⟩
  · intro other hoth
    rw [hids, mem_append, mem_singleton] at hoth
    obtain hoth | rfl := hoth
    · exact h.completed other hoth
    · exact hid'.1
  · rw [hids]
    exact honce
  · intro other hoth
    rw [hids]
    exact mem_append_left _ (h.collected other hoth)
  · rw [length_running_complete t _ hid h.distinct, ← h.live]
  · rw [hids, h.finished, Retention.rtake_rtake_concat]
  · intro other
    rw [mem_filter, decide_eq_true_iff, h.tasks, hids, h.finished,
      Retention.rtake_rtake_concat, Retention.kept_concat_iff (by decide) honce, and_assoc,
      and_assoc]
  · intro other oc
    rw [mem_append, ← h.allocated]
    by_cases hoth : other = id
    · subst hoth
      have hnone : (s.allocated other).outcome = none := by
        rw [ManagedTask.hasFinished, Option.isSome_eq_false_iff, Option.isNone_iff_eq_none]
          at hfin
        exact hfin
      rw [hnone]
      simp [eq_comm]
    · simp [hoth]

/-- A wait is always for a task that was spawned. -/
theorem Refines.beginWait {wait : Wait}
    (hwait : beginWait s args = .ok wait) : wait.handle ∈ t.spawned := by
  have hlook : ∀ {arg handle}, lookupTask s arg = .ok handle → handle ∈ t.spawned := by
    intro arg handle harg
    cases arg with
    | other type => cases harg
    | integer v =>
      rw [lookupTask] at harg
      split_ifs at harg with htask
      obtain rfl := Except.ok.inj harg
      exact ((h.tasks v).mp htask).1
  -- with a timeout or without
  match args, hwait with
  | [task], hwait =>
    obtain ⟨handle, hhdl, rfl⟩ := Result.ok_of_map hwait
    exact hlook hhdl
  | [task, timeout], hwait =>
    obtain ⟨handle, hhdl, hwait⟩ := Result.ok_of_bind hwait
    obtain ⟨ms, -, rfl⟩ := Result.ok_of_map hwait
    exact hlook hhdl

/-- Nothing but the calls that wait has changed. -/
theorem Refines.withWaits {waits : Nat → Option Wait}
    (hwaits : ∀ call wait, waits call = some wait → wait.handle ∈ t.spawned) :
    Refines { s with waits := waits } t :=
  ⟨h.room, h.next, h.spawned, h.distinct, h.completed, h.once, h.collected, h.live, h.finished,
    h.tasks, h.allocated, hwaits⟩

theorem Refines.waits_update_none (call : Nat) :
    ∀ other wait, update s.waits call none other = some wait → wait.handle ∈ t.spawned := by
  intro other wait hwait
  by_cases hoth : other = call
  · rw [hoth, update_self] at hwait
    cases hwait
  · rw [update_of_ne hoth] at hwait
    exact h.waits other wait hwait

/-- Collecting a result drops its task from the registry. -/
theorem Refines.releaseTask (hid : id ∈ t.completedIDs) :
    Refines (releaseTask s id) { t with collected := t.collected ++ [id] } := by
  refine ⟨h.room, h.next, h.spawned, h.distinct, h.completed, h.once, ?_, h.live, h.finished, ?_,
    h.allocated, h.waits⟩
  · intro other hoth
    obtain hoth | hoth := mem_append.mp hoth
    · exact h.collected other hoth
    · rw [mem_singleton.mp hoth]
      exact hid
  · intro other
    have hmem := h.tasks other
    simp only [Tasks.releaseTask, mem_filter, decide_eq_true_iff, mem_append,
      mem_singleton] at hmem ⊢
    rw [hmem]
    constructor
    · rintro ⟨⟨hsp, hcol, hfin⟩, hne⟩
      exact ⟨hsp, fun hor => hor.elim hcol hne, hfin⟩
    · rintro ⟨hsp, hcol, hfin⟩
      exact ⟨⟨hsp, fun hor => hcol (.inl hor), hfin⟩, fun hor => hcol (.inr hor)⟩

/-- Every action keeps the refinement, where there is a handle left for a task it spawns. -/
theorem Refines.step {action : Action α} {ans : Answer α}
    (hroom : (t.note (action, ans)).spawned.length < 2 ^ 63 - 1)
    (hstep : step s action = some (s', ans)) : Refines s' (t.note (action, ans)) := by
  cases action with
  | registerTask =>
    rw [Tasks.step] at hstep
    split at hstep
    · cases hstep
      exact h
    · next id s'' hregister =>
      cases hstep
      rw [Table.note, length_append] at hroom
      exact h.registerTask hroom hregister
  -- a second completion, or one of an unknown task, does nothing
  | completeTask id res err =>
    cases hstep
    rw [Table.note]
    split_ifs with hid
    · exact h.completeTask hid res err
    · rw [h.completeTask_eq_self hid]
      exact h
  | taskWait call args =>
    rw [Tasks.step] at hstep
    split_ifs at hstep
    split at hstep
    · cases hstep
      exact h
    · next wait hwait =>
      cases hstep
      apply h.withWaits
      intro other wait' hwait'
      by_cases hoth : other = call
      · rw [hoth, update_self] at hwait'
        rw [← Option.some.inj hwait']
        exact h.beginWait hwait
      · rw [update_of_ne hoth] at hwait'
        exact h.waits other wait' hwait'
  | timeOut call =>
    rw [Tasks.step] at hstep
    split at hstep
    · cases hstep
    · split_ifs at hstep
      cases hstep
      exact h.withWaits (h.waits_update_none call)
  | collect call =>
    rw [Tasks.step] at hstep
    split at hstep
    · cases hstep
    · next wait hwait =>
      split at hstep
      · cases hstep
      · next outcome hoc =>
        cases hstep
        -- a wait that ends has found an outcome, so its task has completed
        have hid : wait.handle ∈ t.completedIDs :=
          mem_completedIDs.mpr ⟨outcome, (h.allocated _ _).mp hoc⟩
        exact (h.releaseTask hid).withWaits (h.waits_update_none call)

/-- So does every run, as an action spawns at most one task. -/
theorem Refines.run {acts : List (Action α)} {trace : Trace α}
    (hroom : t.spawned.length + acts.length < 2 ^ 63 - 1)
    (hrun : run s acts = some (s', trace)) : Refines s' (trace.foldl Table.note t) := by
  induction acts generalizing s t trace with
  | nil =>
    cases hrun
    exact h
  | cons action acts ih =>
    rw [Tasks.run, Option.bind_eq_some_iff] at hrun
    obtain ⟨⟨s₁, answer⟩, hstep, hrun⟩ := hrun
    obtain ⟨⟨s₂, trace'⟩, hrest, heq⟩ := Option.map_eq_some_iff.mp hrun
    cases heq
    have hspawned := length_spawned_note t (action, answer)
    rw [length_cons] at hroom
    exact ih (h.step (by omega) hstep) (by omega) hrest

end

theorem refines_of_run {actions : List (Action α)} {trace : Trace α}
    (hcalls : actions.length < 2 ^ 63 - 1) (hrun : run .start actions = some (s, trace)) :
    Refines s (Table.of trace) :=
  refines_start.run ((Nat.zero_add _).symm ▸ hcalls) hrun

/-! ### Collecting -/

/-- The arguments of a well-formed `task_wait` for a task. -/
def WaitsFor (id : Int) (args : List Arg) : Prop :=
  args = [.integer id] ∨ ∃ ms, args = [.integer id, .integer ms]

/-- `task_wait` starts to wait exactly for the tasks that are held. -/
theorem exists_beginWait (hargs : WaitsFor id args) :
    (id ∈ s.tasks → ∃ wait, beginWait s args = .ok wait ∧ wait.handle = id) ∧
      (id ∉ s.tasks → ∃ error, beginWait s args = .error error) := by
  have hlook := lookupTask.eq_2 s id
  constructor
  · intro hid
    rw [if_pos hid] at hlook
    obtain rfl | ⟨ms, rfl⟩ := hargs
    · exact ⟨⟨id, -1⟩, by rw [beginWait, hlook]; rfl, rfl⟩
    · exact ⟨⟨id, ms⟩, by rw [beginWait, hlook]; rfl, rfl⟩
  · intro hid
    rw [if_neg hid] at hlook
    obtain rfl | ⟨ms, rfl⟩ := hargs
    · exact ⟨_, by rw [beginWait, hlook]; rfl⟩
    · exact ⟨_, by rw [beginWait, hlook]; rfl⟩

/-- A call that waits for a task that has ended collects it, and cannot time out. -/
theorem Refines.collect (h : Refines s t) {call : Nat} {wait : Wait} {oc : Outcome α}
    (hwait : s.waits call = some wait) (hoc : (wait.handle, oc) ∈ t.completed) :
    Tasks.step s (.collect call) =
        some ({ Tasks.releaseTask s wait.handle with waits := update s.waits call none },
          .collected wait.handle oc.collected) ∧ Tasks.step s (.timeOut call) = none := by
  have hended := (h.allocated _ _).mpr hoc
  have hfin : (s.allocated wait.handle).hasFinished = true := by
    rw [ManagedTask.hasFinished, hended, Option.isSome_some]
  constructor
  · simp only [Tasks.step, hwait, hended]
  · simp [Tasks.step, hwait, hfin]

/-- A call for a task that has ended and was not collected finds it while it is among the last to
complete. -/
theorem Refines.collects_iff (h : Refines s t) {oc : Outcome α}
    (hoc : (id, oc) ∈ t.completed) (hcol : id ∉ t.collected) {call : Nat}
    (hcall : s.waits call = none) (hargs : WaitsFor id args) :
    (∃ s', Tasks.run s [.taskWait call args, .collect call] = some (s',
        [(.taskWait call args, .waiting), (.collect call, .collected id oc.collected)])) ↔
      id ∈ t.completedIDs.rtake maxRetainedTasks := by
  have hid : id ∈ t.completedIDs := mem_completedIDs.mpr ⟨oc, hoc⟩
  -- a completed task nobody collected is held while its completion is among the last
  have htask : id ∈ s.tasks ↔ id ∈ t.completedIDs.rtake maxRetainedTasks := by
    rw [h.tasks, h.finished]
    exact ⟨fun hheld => hheld.2.2 hid, fun hkept => ⟨h.completed id hid, hcol, fun _ => hkept⟩⟩
  rw [← htask]
  constructor
  · rintro ⟨s', hrun⟩
    by_contra habsent
    obtain ⟨error, herr⟩ := (exists_beginWait hargs).2 habsent
    simp [Tasks.run, Tasks.step, hcall, herr] at hrun
  · intro hpresent
    obtain ⟨wait, hwait, rfl⟩ := (exists_beginWait hargs).1 hpresent
    have hstep : Tasks.step s (.taskWait call args) =
        some ({ s with waits := update s.waits call (some wait) }, .waiting) := by
      simp only [Tasks.step, hcall, hwait, if_true]
    obtain ⟨s', hcollect⟩ : ∃ s', Tasks.step _ (.collect call) = some (s', _) :=
      ⟨_, (Refines.collect (h.step (by exact h.room) hstep) (update_self ..) hoc).1⟩
    refine ⟨s', ?_⟩
    rw [Tasks.run, hstep]
    show (Tasks.run _ [.collect call]).map _ = _
    rw [Tasks.run, hcollect]
    rfl

/-- Over every interleaving of the registry's calls: the live count is the number of tasks that were
spawned and have not completed, a further completion of a task does nothing, a call that waits for a
task that has completed collects what the task ended in, and a call that begins to wait for an
uncollected one does exactly while at most `maxRetainedTasks - 1` tasks have completed after it.
The calls are too few to bring the counter of handles round. -/
theorem taskWait_collects_iff {actions : List (Action α)} {trace : Trace α}
    (hcalls : actions.length < 2 ^ 63 - 1) (hrun : run .start actions = some (s, trace)) :
    s.live = ((Table.of trace).running.length : Int) ∧
      (∀ id ∈ (Table.of trace).completedIDs, ∀ result failure,
        completeTask s id result failure = s) ∧
      (∀ call wait outcome, s.waits call = some wait →
        (wait.handle, outcome) ∈ (Table.of trace).completed → (∃ s', step s (.collect call) =
              some (s', .collected wait.handle outcome.collected)) ∧
            step s (.timeOut call) = none) ∧
      ∀ id outcome, (id, outcome) ∈ (Table.of trace).completed → id ∉ (Table.of trace).collected →
        ∀ call args, s.waits call = none → WaitsFor id args →
          ((∃ s', run s [.taskWait call args, .collect call] = some (s',
              [(.taskWait call args, .waiting), (.collect call, .collected id outcome.collected)])) ↔
            id ∈ (Table.of trace).completedIDs.rtake maxRetainedTasks) := by
  have h := refines_of_run hcalls hrun
  refine ⟨h.live, ?_, ?_, ?_⟩
  -- a second completion changes nothing
  · intro id hid result failure
    exact h.completeTask_eq_self (fun hrunning => (mem_running.mp hrunning).2 hid) result failure
  -- a wait that is under way collects, and cannot time out
  · intro call wait outcome hwait houtcome
    obtain ⟨hcollect, htimeOut⟩ := h.collect hwait houtcome
    exact ⟨⟨_, hcollect⟩, htimeOut⟩
  · intro id outcome houtcome hcollected call args hcall hargs
    exact h.collects_iff houtcome hcollected hcall hargs

/-- Three tasks are spawned. The second completes and is collected, the first fails, and the third
still runs when the first is waited for. -/
def threeTasks : Trace Nat :=
  [(.registerTask, .handle 1), (.registerTask, .handle 2), (.registerTask, .handle 3),
    (.completeTask 2 (some 9) none, .completed),
    (.completeTask 1 none (some ⟨"halted", none⟩), .completed),
    (.taskWait 0 [.integer 2], .waiting), (.collect 0, .collected 2 (some 9, none))]

/-- The failure is still the first task's to collect, once. -/
theorem taskWait_collects_iff_threeTasks :
    ∃ s, run .start (threeTasks.map Prod.fst) = some (s, threeTasks) ∧ s.live = 1 ∧
      completeTask s 1 (some 3) none = s ∧
      ∃ s', run s [.taskWait 1 [.integer 1, .integer 50], .collect 1] =
        some (s', [(.taskWait 1 [.integer 1, .integer 50], .waiting),
          (.collect 1, .collected 1 (none, some (taskFailureError ⟨"halted", none⟩)))]) := by
  have hrun : run .start (threeTasks.map Prod.fst) = some (_, threeTasks) := rfl
  obtain ⟨hlive, hagain, -, hcollects⟩ := taskWait_collects_iff (by decide) hrun
  refine ⟨_, hrun, hlive.trans (by decide), hagain 1 (by decide) _ _, ?_⟩
  apply (hcollects 1 ⟨none, some ⟨"halted", none⟩⟩ ?_ ?_ 1 _ rfl (.inr ⟨50, rfl⟩)).mpr
  · decide +kernel
  · decide +kernel
  · decide +kernel

/-! ### A result that is dropped -/

/-- Runs compose. -/
theorem run_append {a b : List (Action α)} {ta tb : Trace α} {s₁ s₂ : TaskRegistry α}
    (ha : run s a = some (s₁, ta)) (hb : run s₁ b = some (s₂, tb)) :
    run s (a ++ b) = some (s₂, ta ++ tb) := by
  induction a generalizing s ta with
  | nil =>
    cases ha
    exact hb
  | cons action a ih =>
    rw [run, Option.bind_eq_some_iff] at ha
    obtain ⟨⟨s', answer⟩, hstep, ha⟩ := ha
    obtain ⟨⟨s'', trace⟩, hrest, heq⟩ := Option.map_eq_some_iff.mp ha
    cases heq
    rw [cons_append, run, hstep]
    show (run s' (a ++ b)).map _ = _
    rw [ih hrest]
    rfl

/-- A task is spawned, completes and is collected. -/
def turn (id : Int) : Trace Nat :=
  [(.registerTask, .handle id), (.completeTask id none none, .completed),
    (.taskWait 0 [.integer id], .waiting), (.collect 0, .collected id (none, none))]

/-- No handle is given out twice while the counter has not come round, and `task_wait` refuses a
handle that was never given out and one whose task was collected. -/
theorem taskWait_refuses {actions : List (Action α)} {trace : Trace α}
    (hcalls : actions.length < 2 ^ 63 - 1) (hrun : run .start actions = some (s, trace)) :
    (Table.of trace).spawned.Nodup ∧ ∀ id args, WaitsFor id args →
      id ∉ (Table.of trace).spawned ∨ id ∈ (Table.of trace).collected →
        ∃ error, beginWait s args = .error error := by
  have h := refines_of_run hcalls hrun
  refine ⟨h.distinct, fun id args hargs hgone => (exists_beginWait hargs).2 fun htask => ?_⟩
  obtain ⟨hspawned, hcollected, -⟩ := (h.tasks id).mp htask
  rcases hgone with hgone | hgone
  · exact hgone hspawned
  · exact hcollected hgone

theorem taskWait_refuses_turn :
    ∃ s, run .start ((turn 1).map Prod.fst) = some (s, turn 1) ∧
      ∃ error, beginWait s [.integer 1] = .error error := by
  have hrun : run .start ((turn 1).map Prod.fst) = some (_, turn 1) := rfl
  exact ⟨_, hrun, (taskWait_refuses (by decide) hrun).2 1 _ (.inl rfl) (.inr (by decide))⟩

/-- The handle of the task spawned after `k` others. -/
def handle (k : Nat) : Int := k + 1

/-- One task that nobody collects, and then `n` tasks one after the other that are collected. -/
def turns (n : Nat) : Trace Nat :=
  [(.registerTask, .handle (handle 0)), (.completeTask (handle 0) none none, .completed)] ++
    (List.range n).flatMap fun k => turn (handle (k + 1))

theorem turns_succ (n : Nat) : turns (n + 1) = turns n ++ turn (handle (n + 1)) := by
  rw [turns, turns, range_succ, flatMap_append, flatMap_singleton, append_assoc]

/-- A registry that no task and no call is using. -/
structure Idle (s : TaskRegistry α) : Prop where
  live : s.live = 0
  waits : s.waits 0 = none

/-- One turn runs in an idle registry and leaves it idle. -/
theorem Refines.run_turn {s : TaskRegistry Nat} {t : Table Nat} (h : Refines s t) (hidle : Idle s) :
    ∃ s', Tasks.run s ((turn s.nextID).map Prod.fst) = some (s', turn s.nextID) ∧ Idle s' ∧
      s'.nextID = wrap64 (s.nextID + 1) := by
  have hlim : ¬ (maxLiveTasks : Int) ≤ s.live := by
    rw [hidle.live]
    decide
  -- the newest completion is held, so the call that follows finds it
  have hheld : s.nextID ∉ (s.finished ++ [s.nextID]).rdrop maxRetainedTasks := by
    intro hdr
    have hfin := Retention.mem_of_mem_rdrop_concat (by decide) hdr
    rw [h.finished] at hfin
    exact h.nextID_notMem (h.completed _ (Retention.mem_of_mem_rtake hfin))
  have hlive : s.live + 1 - 1 = 0 := by rw [hidle.live]; rfl
  simp only [turn, map_cons, map_nil, Tasks.run, Tasks.step, Tasks.registerTask, hlim,
    Option.bind_some, Tasks.completeTask, mem_cons_self, update_self, ManagedTask.hasFinished,
    Option.isSome_none, Bool.false_eq_true, if_false, Retention.settle_eq, hidle.waits, if_true,
    Tasks.beginWait, lookupTask, mem_filter, hheld, not_false_iff, decide_true, and_self, Except.map,
    Option.map_some]
  exact ⟨_, rfl, ⟨hlive, by simp⟩, rfl⟩

/-- Any number of turns runs, up to the number of results that are retained. -/
theorem exists_run_turns {n : Nat} (hn : n ≤ maxRetainedTasks) :
    ∃ s, run .start ((turns n).map Prod.fst) = some (s, turns n) ∧
      Refines s (Table.of (turns n)) ∧ Idle s ∧ s.nextID = handle (n + 1) := by
  induction n with
  | zero =>
    have hrun : run .start ((turns 0).map Prod.fst) = some (_, turns 0) := rfl
    refine ⟨_, hrun, refines_of_run (by decide) hrun, ⟨?_, ?_⟩, ?_⟩
    · decide +kernel
    · decide +kernel
    · decide +kernel
  | succ n ih =>
    obtain ⟨s, hrun, h, hidle, hnext⟩ := ih (Nat.le_of_succ_le hn)
    obtain ⟨s', hturn, hidle', hnext'⟩ := h.run_turn hidle
    -- four calls a turn, far below the bound
    have hroom := h.next
    rw [maxRetainedTasks] at hn
    rw [hnext] at hturn hnext' hroom
    refine ⟨s', ?_, ?_, hidle', ?_⟩
    · rw [turns_succ, map_append]
      exact run_append hrun hturn
    · rw [Table.of, turns_succ, foldl_append]
      apply h.run _ hturn
      rw [handle] at hroom
      show (Table.of (turns n)).spawned.length + 4 < 2 ^ 63 - 1
      omega
    · rw [hnext', handle, handle, wrap64_eq_self]
      · rfl
      · omega
      · omega

def laterHandles (n : Nat) : List Int := (List.range n).map fun k => handle (k + 1)

theorem laterHandles_succ (n : Nat) : laterHandles (n + 1) = laterHandles n ++ [handle (n + 1)] := by
  rw [laterHandles, range_succ, map_append]
  rfl

theorem handle_notMem {k n : Nat} (h : k = 0 ∨ n < k) : handle k ∉ laterHandles n := by
  rw [laterHandles, mem_map]
  rintro ⟨other, hoth, heq⟩
  have hoth := mem_range.mp hoth
  rw [handle, handle] at heq
  omega

/-- The tasks after the turns: all have completed, and all but the first were collected. -/
def turnsTable (n : Nat) : Table Nat :=
  ⟨handle 0 :: laterHandles n, (handle 0 :: laterHandles n).map fun id => (id, ⟨none, none⟩),
    laterHandles n⟩

theorem completedIDs_turnsTable (n : Nat) :
    (turnsTable n).completedIDs = handle 0 :: laterHandles n := by
  rw [Table.completedIDs, turnsTable, map_map]
  exact map_id _

section

variable (n : Nat)

/-- What the turns tell of. -/
theorem of_turns : Table.of (turns n) = turnsTable n := by
  induction n with
  | zero => rfl
  | succ n ih =>
    have hnew : handle (n + 1) ∉ (turnsTable n).completedIDs := by
      rw [completedIDs_turnsTable, mem_cons, not_or]
      exact ⟨by rw [handle, handle]; omega, handle_notMem (.inr (Nat.lt_succ_self n))⟩
    have hrun : handle (n + 1) ∈ ({ turnsTable n with
        spawned := (turnsTable n).spawned ++ [handle (n + 1)] } : Table Nat).running :=
      mem_running.mpr ⟨mem_append_right _ mem_cons_self, hnew⟩
    rw [Table.of, turns_succ, foldl_append]
    show (turn (handle (n + 1))).foldl Table.note (Table.of (turns n)) = _
    rw [ih]
    simp only [turn, foldl_cons, foldl_nil, Table.note]
    rw [if_pos hrun]
    simp only [turnsTable, laterHandles_succ, map_cons, map_append, map_nil, cons_append]

theorem first_completed : (1, ⟨none, none⟩) ∈ (turnsTable n).completed :=
  mem_cons_self

theorem first_uncollected : 1 ∉ (turnsTable n).collected := handle_notMem (.inl rfl)

/-- After `n` turns the first task is not among the last `n` to complete. -/
theorem first_notMem_rtake : 1 ∉ (turnsTable n).completedIDs.rtake n := by
  have hlen : (laterHandles n).length = n := by
    rw [laterHandles, length_map, length_range]
  rw [completedIDs_turnsTable, rtake, length_cons, hlen, Nat.add_sub_cancel_left]
  exact first_uncollected n

theorem uncollected_turnsTable : (turnsTable n).uncollected = [handle 0] := by
  rw [Table.uncollected, completedIDs_turnsTable, filter_cons_of_pos, filter_eq_nil_iff.mpr]
  · intro id hid
    simpa [turnsTable] using hid
  · simpa [turnsTable] using handle_notMem (.inl rfl)

end

/-- Each call adds at most one completed task that is uncollected. -/
theorem length_uncollected_foldl (t : Table Nat) (trace : Trace Nat) :
    (trace.foldl Table.note t).uncollected.length ≤ t.uncollected.length + trace.length := by
  -- one call adds one result at most
  have hnote (t : Table Nat) (e : Action Nat × Answer Nat) :
      (t.note e).uncollected.length ≤ t.uncollected.length + 1 := by
    unfold Table.note
    split
    · exact Nat.le_succ _
    · split_ifs
      · rw [Table.uncollected, Table.completedIDs, map_append, filter_append, length_append]
        exact Nat.add_le_add_left (length_filter_le _ _) _
      · exact Nat.le_succ _
    · refine Nat.le_succ_of_le (Sublist.length_le (monotone_filter_right _ fun id hid => ?_))
      simp_all
    · exact Nat.le_succ _
  induction trace generalizing t with
  | nil => exact Nat.le_refl _
  | cons e trace ih =>
    have := ih (t.note e)
    have := hnote t e
    rw [foldl_cons, length_cons]
    omega

/-- Along the turns there are few completed tasks that are uncollected. -/
theorem uncollected_turns {n : Nat} {pre : Trace Nat} (h : pre <+: turns n) :
    (Table.of pre).uncollected.length ≤ 5 := by
  induction n with
  | zero =>
    have hlen : 0 + pre.length ≤ 5 := (Nat.zero_add _).le.trans (h.length_le.trans (by decide))
    exact (length_uncollected_foldl .empty pre).trans hlen
  | succ n ih =>
    obtain ⟨after, haft⟩ := h
    rw [turns_succ] at haft
    obtain ⟨rest, hrest, -⟩ | ⟨front, rfl, hfr⟩ := append_eq_append_iff.mp haft
    · exact ih ⟨rest, hrest.symm⟩
    · have hlen : front.length ≤ 4 := by
        have := congrArg length hfr
        rw [length_append] at this
        exact Nat.le_of_add_right_le this.ge
      have huncollected := length_uncollected_foldl (Table.of (turns n)) front
      rw [of_turns, uncollected_turnsTable, ← of_turns, Table.of, ← foldl_append] at huncollected
      exact huncollected.trans (Nat.add_le_add_left hlen 1)

/-- The first task completes with nobody waiting for it, and then as many tasks as are retained are
spawned and collected in turn. At no time are more than a few completed tasks uncollected, and yet a
call that waits for the first task finds its handle unknown. -/
theorem taskWait_dropped :
    ∃ s, run .start ((turns maxRetainedTasks).map Prod.fst) = some (s, turns maxRetainedTasks) ∧
      (∀ before, before <+: turns maxRetainedTasks →
        (Table.of before).uncollected.length ≤ maxRetainedTasks) ∧
      (1, ⟨none, none⟩) ∈ (Table.of (turns maxRetainedTasks)).completed ∧
      1 ∉ (Table.of (turns maxRetainedTasks)).collected ∧
      step s (.taskWait 0 [.integer 1]) = some (s, .refused (waitError
        "task_wait: unknown task handle 1; it was either never spawned or already collected")) := by
  obtain ⟨s, hrun, h, hidle, -⟩ := exists_run_turns (Nat.le_refl maxRetainedTasks)
  refine ⟨s, hrun, ?_, ?_, ?_, ?_⟩
  · intro before hbefore
    exact (uncollected_turns hbefore).trans (by decide)
  · rw [of_turns]
    exact first_completed _
  · rw [of_turns]
    exact first_uncollected _
  -- the first task's result is older than the last `maxRetainedTasks`
  · have hdropped : (1 : Int) ∉ s.tasks := by
      intro hmem
      have hcompleted : (1 : Int) ∈ (Table.of (turns maxRetainedTasks)).completedIDs := by
        rw [of_turns]
        exact mem_completedIDs.mpr ⟨_, first_completed _⟩
      have hkept := ((h.tasks 1).mp hmem).2.2 hcompleted
      rw [h.finished, of_turns] at hkept
      exact first_notMem_rtake _ hkept
    simp only [step, hidle.waits, beginWait, lookupTask, hdropped]
    rfl

end Mutant.Builtin.Tasks
