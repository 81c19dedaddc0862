import RakuraiValidator.UnifiedSchedulerRounds

/-!
# Runs of the scheduler

A `System` is the state machine together with what its callers know: the tasks
which are active, the tasks which have been handed out and not descheduled, and
the history of everything that happened to a task.  `Operation` lists the calls
which may be interleaved, `Allowed` is what the callers promise about them, and
`Reachable` is every state of every run.

`SystemInvariant` relates the machine to the two lists of tasks.  One lemma for
each operation says what it does to a system which satisfies the invariant, and
when it stops instead.
-/

namespace RakuraiValidator.UnifiedScheduler

open SchedulingStateMachine

variable {α η : Type}

/-- Two tasks conflict when they use an address which one of them writes. -/
def Task.Conflicts (task other : Task α η) : Prop :=
  ∃ context ∈ task.lockContexts, ∃ context' ∈ other.lockContexts,
    context.usageQueue = context'.usageQueue ∧
      (context.requestedUsage = .writable ∨ context'.requestedUsage = .writable)

instance [DecidableEq α] (task other : Task α η) : Decidable (task.Conflicts other) :=
  inferInstanceAs (Decidable (∃ context ∈ task.lockContexts, ∃ context' ∈ other.lockContexts,
    context.usageQueue = context'.usageQueue ∧
      (context.requestedUsage = .writable ∨ context'.requestedUsage = .writable)))

inductive Event (α η : Type)
  | accepted (task : Task α η)
  | dropped (task : Task α η)
  | unblocked (task : Task α η)
  | handedOut (task : Task α η)
  | descheduled (task : Task α η)
deriving DecidableEq

def Event.submission : Event α η → Option (Task α η)
  | .accepted task => some task
  | .dropped task => some task
  | _ => none

def Event.acceptance : Event α η → Option (Task α η)
  | .accepted task => some task
  | _ => none

def Event.handOut : Event α η → Option (Task α η)
  | .handedOut task => some task
  | _ => none

inductive Operation (α η : Type)
  | scheduleOrBufferTask (task : Task α η) (forceBuffering : Bool)
  | scheduleNextUnblockedTask
  | descheduleTask (task : Task α η)

structure System (α η : Type) where
  machine : SchedulingStateMachine α η
  active : List (Task α η)
  running : List (Task α η)
  history : List (Event α η)

namespace System

variable (s : System α η)

def submitted : List (Task α η) := s.history.filterMap Event.submission

def accepted : List (Task α η) := s.history.filterMap Event.acceptance

def handedOut : List (Task α η) := s.history.filterMap Event.handOut

/-- The tasks which may run: they run already or wait to be handed out. -/
def runnable : List (Task α η) :=
  s.running ++ s.machine.unblockedTaskQueue

/-- What the callers promise: task ids are unique, and a task is descheduled
once after it was handed out. -/
def Allowed : Operation α η → Prop
  | .scheduleOrBufferTask task _ => task.taskId ∉ s.submitted.map Task.taskId
  | .scheduleNextUnblockedTask => True
  | .descheduleTask task => task ∈ s.running

def Exhausted : Operation α η → Prop
  | .scheduleOrBufferTask _ _ =>
    counterMax ≤ s.machine.totalTaskCount ∨ counterMax ≤ s.machine.unblockedTaskCount
  | .scheduleNextUnblockedTask => counterMax ≤ s.machine.unblockedTaskCount
  | .descheduleTask _ => False

variable [DecidableEq α] [DecidableEq η]

instance (s : System α η) : (op : Operation α η) → Decidable (s.Allowed op)
  | .scheduleOrBufferTask task _ =>
    inferInstanceAs (Decidable (task.taskId ∉ s.submitted.map Task.taskId))
  | .scheduleNextUnblockedTask => inferInstanceAs (Decidable True)
  | .descheduleTask task => inferInstanceAs (Decidable (task ∈ s.running))

/-- The tasks at the end of the unblocked task queue which were not in it. -/
def newlyQueued (machine : SchedulingStateMachine α η) : List (Task α η) :=
  machine.unblockedTaskQueue.drop s.machine.unblockedTaskQueue.length

def step (s : System α η) : Operation α η → Except Panic (System α η)
  | .scheduleOrBufferTask task forceBuffering => do
    let (machine, returned) ← s.machine.scheduleOrBufferTask task forceBuffering
    if machine.droppedTaskCount ≠ s.machine.droppedTaskCount then
      .ok { s with machine := machine, history := s.history ++ [.dropped task] }
    else
      .ok
        { machine := machine
          active := s.active ++ [task]
          running := s.running ++ returned.toList
          history := s.history ++ .accepted task ::
            ((s.newlyQueued machine ++ returned.toList).map .unblocked ++
              returned.toList.map .handedOut) }
  | .scheduleNextUnblockedTask => do
    let (machine, returned) ← s.machine.scheduleNextUnblockedTask
    .ok
      { s with
        machine := machine
        running := s.running ++ returned.toList
        history := s.history ++ returned.toList.map .handedOut }
  | .descheduleTask task => do
    let machine ← s.machine.descheduleTask task
    .ok
      { machine := machine
        active := s.active.filter (fun other => other.taskId ≠ task.taskId)
        running := s.running.filter (fun other => other.taskId ≠ task.taskId)
        history := s.history ++ .descheduled task :: (s.newlyQueued machine).map .unblocked }

def initial (machine : SchedulingStateMachine α η) : System α η :=
  { machine := machine, active := [], running := [], history := [] }

/-- A sequence of allowed calls; there is no result when one of them is not
allowed or stops. -/
def run (s : System α η) : List (Operation α η) → Option (System α η)
  | [] => some s
  | op :: ops =>
    if s.Allowed op then
      match s.step op with
      | .ok s => s.run ops
      | .error _ => none
    else none

def runNew (capability : Capability) (maxRunningTaskCount maxUniqueActiveTaskCount : Option ℕ)
    (ops : List (Operation α η)) : Option (System α η) :=
  match exclusivelyInitialize capability maxRunningTaskCount
      maxUniqueActiveTaskCount with
  | .ok machine => (initial machine).run ops
  | .error _ => none

end System

variable {capability : Capability}

section Runs

variable [DecidableEq α] [DecidableEq η]

/-- The states of all runs of a scheduler of one capability. -/
inductive Reachable (capability : Capability) : System α η → Prop
  | initial {maxRunningTaskCount maxUniqueActiveTaskCount : Option ℕ}
      {machine : SchedulingStateMachine α η}
      (hmachine : exclusivelyInitialize capability
        maxRunningTaskCount maxUniqueActiveTaskCount = .ok machine) :
      Reachable capability (System.initial machine)
  | step {s s' : System α η} {op : Operation α η} (hreachable : Reachable capability s)
      (hallowed : s.Allowed op) (hstep : s.step op = .ok s') :
      Reachable capability s'

variable {ops : List (Operation α η)}

theorem Reachable.run {s s' : System α η} (h : Reachable capability s)
    (hrun : s.run ops = some s') : Reachable capability s' := by
  induction ops generalizing s with
  | nil =>
    cases hrun
    exact h
  | cons op ops ih =>
    simp only [System.run] at hrun
    split at hrun
    next hallow =>
      cases hstep : s.step op with
      | ok next =>
        rw [hstep] at hrun
        exact ih (h.step hallow hstep) hrun
      | error _ =>
        rw [hstep] at hrun
        contradiction
    next => contradiction

theorem Reachable.runNew {maxRunningTaskCount maxUniqueActiveTaskCount : Option ℕ} {s : System α η}
    (hrun : System.runNew capability maxRunningTaskCount maxUniqueActiveTaskCount ops = some s) :
    Reachable capability s := by
  unfold System.runNew at hrun
  split at hrun
  next machine hmach => exact (Reachable.initial hmach).run hrun
  next => contradiction

end Runs

/-! ## The invariant -/

structure Accounting [DecidableEq η] (s : System α η) : Prop where
  active_eq : s.machine.activeTaskCount = s.active.length
  running_eq : s.machine.runningTaskCount = s.running.length
  running_le : s.machine.runningTaskCount ≤ s.machine.maxRunningTaskCount
  maxRunning_le : s.machine.maxRunningTaskCount ≤ counterMax
  total_eq : s.machine.totalTaskCount =
    s.machine.droppedTaskCount + s.machine.activeTaskCount + s.machine.handledTaskCount
  total_le : s.machine.totalTaskCount ≤ counterMax
  hashes_uncapped : s.machine.maxUniqueActiveTaskCount = none → s.machine.uniqueActiveTaskHashes = ∅
  hashes_capped : ∀ cap, s.machine.maxUniqueActiveTaskCount = some cap →
    (s.active.map Task.hash).Nodup ∧
      s.machine.uniqueActiveTaskHashes = (s.active.map Task.hash).toFinset

structure SystemInvariant [DecidableEq α] [DecidableEq η] (capability : Capability)
    (s : System α η) : Prop where
  accounting : Accounting s
  consistent : Consistent capability
    (fun task => s.machine.blockedUsageCounts task.taskId ≠ 0) s.active (usersAt s.active)
    s.machine.usageQueues s.machine.blockedUsageCounts
  active_nodup : (s.active.map Task.taskId).Nodup
  counts_settled : ∀ id ∉ s.active.map Task.taskId, s.machine.blockedUsageCounts id = 0
  runnable_nodup : s.runnable.Nodup
  mem_runnable : ∀ task, task ∈ s.runnable ↔
    task ∈ s.active ∧ s.machine.blockedUsageCounts task.taskId = 0
  active_submitted : ∀ task ∈ s.active, task ∈ s.submitted

def SchedulingStateMachine.limits (m : SchedulingStateMachine α η) : ℕ × Option ℕ :=
  (m.maxRunningTaskCount, m.maxUniqueActiveTaskCount)

section Outcomes

variable [DecidableEq α] [DecidableEq η]

/-- What an operation does to a system.  The queues serve the active tasks of
the next system already under the counts of the old one, that is with fewer
tasks taken as runnable. -/
inductive Outcome (capability : Capability) (s : System α η) :
    Operation α η → Except Panic (System α η) → Prop
  | overflow {op : Operation α η} (hexhausted : s.Exhausted op) :
      Outcome capability s op (.error .counterOverflow)
  | dropped {task : Task α η} {forceBuffering : Bool} {s' : System α η}
      (hinvariant : SystemInvariant capability s') (hactive : s'.active = s.active)
      (hrunning : s'.running = s.running)
      (hqueue : s'.machine.unblockedTaskQueue = s.machine.unblockedTaskQueue)
      (hhistory : s'.history = s.history ++ [.dropped task]) :
      Outcome capability s (.scheduleOrBufferTask task forceBuffering) (.ok s')
  | accepted {task : Task α η} {forceBuffering : Bool} {s' : System α η}
      {queued returned : List (Task α η)} (hinvariant : SystemInvariant capability s')
      (hactive : s'.active = s.active ++ [task]) (hrunning : s'.running = s.running ++ returned)
      (hqueue : s'.machine.unblockedTaskQueue = s.machine.unblockedTaskQueue ++ queued)
      (hhistory : s'.history = s.history ++ .accepted task ::
        ((queued ++ returned).map .unblocked ++ returned.map .handedOut))
      (hnew : queued ++ returned =
        if s'.machine.blockedUsageCounts task.taskId = 0 then [task] else [])
      (hserves : ∀ a, ∃ holders, Serves capability
        (fun other => s.machine.blockedUsageCounts other.taskId ≠ 0 ∨ other.taskId = task.taskId)
        (s'.machine.usageQueues a) (usersAt s'.active a) holders
        (s'.machine.usageQueues a).blockedUsages) :
      Outcome capability s (.scheduleOrBufferTask task forceBuffering) (.ok s')
  | idle (hrunnable : s.machine.hasRunnableTask = false) :
      Outcome capability s .scheduleNextUnblockedTask (.ok s)
  | handedOut {task : Task α η} {s' : System α η}
      (hinvariant : SystemInvariant capability s') (hactive : s'.active = s.active)
      (hrunning : s'.running = s.running ++ [task])
      (hqueue : s.machine.unblockedTaskQueue = task :: s'.machine.unblockedTaskQueue)
      (hhistory : s'.history = s.history ++ [.handedOut task])
      (hcounter : s'.machine.unblockedTaskCount = s.machine.unblockedTaskCount + 1)
      (hlimits : s'.machine.limits = s.machine.limits) :
      Outcome capability s .scheduleNextUnblockedTask (.ok s')
  | descheduled {task : Task α η} {s' : System α η} {released : List (Task α η)}
      (hinvariant : SystemInvariant capability s')
      (hactive : s'.active = s.active.filter (fun other => other.taskId ≠ task.taskId))
      (hrunning : s'.running = s.running.filter (fun other => other.taskId ≠ task.taskId))
      (hqueue : s'.machine.unblockedTaskQueue = s.machine.unblockedTaskQueue ++ released)
      (hhistory : s'.history = s.history ++ .descheduled task :: released.map .unblocked)
      (hreleases : Releases s.active s.machine.blockedUsageCounts
        s'.machine.blockedUsageCounts released)
      (hserves : ∀ a, ∃ holders, Serves capability
        (fun other => s.machine.blockedUsageCounts other.taskId ≠ 0)
        (s'.machine.usageQueues a) (usersAt s'.active a) holders
        (s'.machine.usageQueues a).blockedUsages)
      (hcounter : s'.machine.unblockedTaskCount = s.machine.unblockedTaskCount)
      (hlimits : s'.machine.limits = s.machine.limits) :
      Outcome capability s (.descheduleTask task) (.ok s')

end Outcomes

end RakuraiValidator.UnifiedScheduler
