import Mathlib.Logic.Function.Basic
import Mutant.Lib.Retention
import Mutant.Lib.Wrap64

/-!
# Tasks

`spawn` runs a closure beside the program and `task_wait` collects what it produced.  Between the two
stands a registry of handles behind one lock.  A step of the registry is one critical section of a
call, so a list of actions is an interleaving of calls.  Handles are `int64`s, and the counter they
come from comes round as one.
-/

namespace Mutant.Builtin.Tasks

def maxLiveTasks : Nat := 1024

def maxRetainedTasks : Nat := 4096

/-- `failureSite`: where what stopped a task happened. -/
structure FailureSite where
  file : String
  line : Int
  column : Int
  stack : List String
  deriving DecidableEq

/-- What stopped a task, and what it offers about where. -/
structure Failure where
  text : String
  site : Option FailureSite
  deriving DecidableEq

/-- The fields of `object.Error` that are set here. -/
structure TaskError where
  message : String
  context : String
  site : Option FailureSite
  deriving DecidableEq

/-- An argument of a call. -/
inductive Arg
  | integer (value : Int)
  | other (type : String)
  deriving DecidableEq

variable {α : Type}

/-- What a task ended in; the null value is `none`. -/
structure Outcome (α : Type) where
  result : Option α
  failure : Option Failure
  deriving DecidableEq

/-- `managedTask`: its channel is closed once there is an outcome. -/
structure ManagedTask (α : Type) where
  outcome : Option (Outcome α)
  deriving DecidableEq

/-- `hasFinished`. -/
def ManagedTask.hasFinished (task : ManagedTask α) : Bool := task.outcome.isSome

/-- A `task_wait` call that has found its task and waits for it. -/
structure Wait where
  handle : Int
  timeoutMs : Int
  deriving DecidableEq

/-- `taskRegistry`, with the tasks that were allocated and the calls that wait for one.  A task is
allocated once, under its handle, and a wait keeps the task when the registry lets go of the
handle. -/
structure TaskRegistry (α : Type) where
  tasks : List Int
  nextID : Int
  live : Int
  finished : List Int
  allocated : Int → ManagedTask α
  waits : Nat → Option Wait

/-- The registry at the start of a program. -/
def TaskRegistry.start : TaskRegistry α := ⟨[], 1, 0, [], fun _ => ⟨none⟩, fun _ => none⟩

/-! ### The critical sections -/

def tooManyTasks : TaskError :=
  ⟨s!"spawn: too many tasks running at once (limit {maxLiveTasks}); wait for some with task_wait",
    "builtin.spawn", none⟩

/-- `RegisterTask`. -/
def registerTask (s : TaskRegistry α) : Except TaskError (Int × TaskRegistry α) :=
  if (maxLiveTasks : Int) ≤ s.live then .error tooManyTasks
  else .ok (s.nextID, { s with
    tasks := s.nextID :: s.tasks
    nextID := wrap64 (s.nextID + 1)
    live := s.live + 1
    allocated := Function.update s.allocated s.nextID ⟨none⟩ })

/-- `CompleteTask`. -/
def completeTask (s : TaskRegistry α) (id : Int) (result : Option α) (failure : Option Failure) :
    TaskRegistry α :=
  if id ∈ s.tasks then
    if (s.allocated id).hasFinished then s
    else
      -- the handles dropped from the front of the list leave the map too
      let settled := Retention.settle maxRetainedTasks (s.finished ++ [id])
      { s with
        tasks := s.tasks.filter (· ∉ settled.1)
        live := s.live - 1
        finished := settled.2
        allocated := Function.update s.allocated id ⟨some ⟨result, failure⟩⟩ }
  else s

/-- `releaseTask`. -/
def releaseTask (s : TaskRegistry α) (id : Int) : TaskRegistry α :=
  { s with tasks := s.tasks.filter (· ≠ id) }

def waitError (message : String) : TaskError := ⟨message, "builtin.task_wait", none⟩

/-- `lookupTask`. -/
def lookupTask (s : TaskRegistry α) : Arg → Except TaskError Int
  | .other type => .error (waitError s!"argument 1 to task_wait must be INTEGER, got {type}")
  | .integer handle =>
    if handle ∈ s.tasks then .ok handle
    else .error (waitError
      s!"task_wait: unknown task handle {handle}; it was either never spawned or already collected")

/-- `timeoutArg`, for the second argument of `task_wait`. -/
def timeoutArg : Arg → Except TaskError Int
  | .integer ms => .ok ms
  | .other type => .error (waitError s!"argument 2 to task_wait must be INTEGER, got {type}")

/-- `TaskWait` up to its wait. -/
def beginWait (s : TaskRegistry α) : List Arg → Except TaskError Wait
  | [task] => (lookupTask s task).map fun handle => ⟨handle, -1⟩
  | [task, timeout] =>
    (lookupTask s task).bind fun handle => (timeoutArg timeout).map fun ms => ⟨handle, ms⟩
  | args => .error (waitError s!"wrong number of arguments. got={args.length}, want=1 or 2")

/-- `taskFailureError`: the position is the task's, where the failure names a line. -/
def taskFailureError (failure : Failure) : TaskError :=
  ⟨s!"task failed: {failure.text}", "builtin.task_wait",
    failure.site.filter fun site => decide (0 < site.line)⟩

/-- What `task_wait` returns of a task that has ended. -/
def Outcome.collected (outcome : Outcome α) : Option α × Option TaskError :=
  match outcome.failure with
  | some failure => (none, some (taskFailureError failure))
  | none => (outcome.result, none)

/-! ### Interleavings -/

/-- The critical sections of calls; the calls of `task_wait` are numbered. -/
inductive Action (α : Type)
  | registerTask
  | completeTask (id : Int) (result : Option α) (failure : Option Failure)
  | taskWait (call : Nat) (args : List Arg)
  | timeOut (call : Nat)
  | collect (call : Nat)
  deriving DecidableEq

/-- What a call answers at an action. -/
inductive Answer (α : Type)
  | handle (id : Int)
  | refused (error : TaskError)
  | completed
  | waiting
  | stillRunning (error : TaskError)
  | collected (id : Int) (result : Option α × Option TaskError)
  deriving DecidableEq

/-- One action, where the registry allows it. -/
def step (s : TaskRegistry α) : Action α → Option (TaskRegistry α × Answer α)
  | .registerTask =>
    match registerTask s with
    | .error error => some (s, .refused error)
    | .ok (id, s') => some (s', .handle id)
  | .completeTask id result failure => some (completeTask s id result failure, .completed)
  | .taskWait call args =>
    if s.waits call = none then
      match beginWait s args with
      | .error error => some (s, .refused error)
      | .ok wait => some ({ s with waits := Function.update s.waits call (some wait) }, .waiting)
    else none
  | .timeOut call =>
    match s.waits call with
    | none => none
    | some wait =>
      -- `finishedWithin` goes by the task's channel, never by the timer
      if 0 ≤ wait.timeoutMs ∧ (s.allocated wait.handle).hasFinished = false then
        some ({ s with waits := Function.update s.waits call none }, .stillRunning (waitError
          s!"task_wait: task is still running after {wait.timeoutMs}ms"))
      else none
  | .collect call =>
    match s.waits call with
    | none => none
    | some wait =>
      match (s.allocated wait.handle).outcome with
      | none => none
      | some outcome =>
        some ({ releaseTask s wait.handle with waits := Function.update s.waits call none },
          .collected wait.handle outcome.collected)

/-- The actions of a run, each with its answer. -/
abbrev Trace (α : Type) := List (Action α × Answer α)

/-- A run of the registry. -/
def run (s : TaskRegistry α) : List (Action α) → Option (TaskRegistry α × Trace α)
  | [] => some (s, [])
  | action :: actions =>
    (step s action).bind fun (s', answer) =>
      (run s' actions).map fun (s'', trace) => (s'', (action, answer) :: trace)

/-! ### What the registry is for -/

/-- The tasks of a program as its calls tell of them: those spawned, those completed with what they
ended in, in that order, and those collected. -/
structure Table (α : Type) where
  spawned : List Int
  completed : List (Int × Outcome α)
  collected : List Int

def Table.empty : Table α := ⟨[], [], []⟩

def Table.completedIDs (t : Table α) : List Int := t.completed.map Prod.fst

def Table.running (t : Table α) : List Int := t.spawned.filter (· ∉ t.completedIDs)

def Table.uncollected (t : Table α) : List Int := t.completedIDs.filter (· ∉ t.collected)

/-- What a call and its answer add. The first completion of a task counts. -/
def Table.note (t : Table α) : Action α × Answer α → Table α
  | (.registerTask, .handle id) => { t with spawned := t.spawned ++ [id] }
  | (.completeTask id result failure, _) =>
    if id ∈ t.running then { t with completed := t.completed ++ [(id, ⟨result, failure⟩)] } else t
  | (.collect _, .collected id _) => { t with collected := t.collected ++ [id] }
  | _ => t

def Table.of (trace : Trace α) : Table α := trace.foldl Table.note Table.empty

end Mutant.Builtin.Tasks
