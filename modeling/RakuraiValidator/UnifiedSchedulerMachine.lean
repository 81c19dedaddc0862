import Mathlib.Data.Finset.Card
import RakuraiValidator.UnifiedSchedulerQueue

/-!
# The scheduling state machine

`SchedulingStateMachine` owns the run queue and the counters; the usage queues
and the blocked usage counts, which the source reaches through tokens, are
fields here.  Each public operation is one function which returns the next
machine or the panic at which it stops.

The two `while` loops are bounded by the number of blocked usages and by the
number of active tasks.  Leaving a loop because of that bound would be the
error `loopNotFinished`; no reachable machine produces it.
-/

namespace RakuraiValidator.UnifiedScheduler

open ShortCounter

variable {α η : Type}

namespace UsageQueueInner

def blockedUsages : UsageQueueInner α η → List (UsageFromTask α η)
  | .fifo _ blocked => blocked
  | .priority _ blocked => blocked.values

variable (queue : UsageQueueInner α η) (counts : BlockedUsageCounts)

/-- One round of the loop of `try_lock_usage_queues`: the task either locks the
queue or waits in it and counts one more blocked usage. -/
def lockOrBlock (task : Task α η) (requestedUsage : RequestedUsage) (blockedUsageCount : ℕ) :
    Except Panic (UsageQueueInner α η × BlockedUsageCounts × ℕ) := do
  let (queue, counts, prepared) ← queue.prepareLock counts task requestedUsage
  let (queue, lockResult) ← match prepared with
    | .ok => queue.tryLock task requestedUsage
    | .err => .ok (queue, .err)
  match lockResult with
  | .ok => .ok (queue, counts, blockedUsageCount)
  | .err => do
    let blockedUsageCount ← increment blockedUsageCount
    let queue ← queue.pushBlocked (requestedUsage, task)
    .ok (queue, counts, blockedUsageCount)

/-- The relocking loop of `unlock_usage_queues`.  Tasks which have no blocked
usage left are appended to the unblocked task queue. -/
def relock : ℕ → UsageQueueInner α η → BlockedUsageCounts → List (Task α η) →
    Option (UsageFromTask α η) →
    Except Panic (UsageQueueInner α η × BlockedUsageCounts × List (Task α η))
  | _, queue, counts, unblocked, none => .ok (queue, counts, unblocked)
  | 0, _, _, _, some _ => .error .loopNotFinished
  | fuel + 1, queue, counts, unblocked, some (lockableUsage, lockableTask) => do
    let (queue, lockResult) ← queue.tryLock lockableTask lockableUsage
    match lockResult with
    | .err => .error .relockRefused
    | .ok => do
      let (isUnblocked, counts) ← counts.tryUnblock lockableTask
      let unblocked := if isUnblocked then unblocked ++ [lockableTask] else unblocked
      let (queue, newlyLockable) ← match lockableUsage with
        | .readonly => queue.popLockableReadonly
        | .writable => .ok (queue, none)
      relock fuel queue counts unblocked newlyLockable

def unlockAndRelock
    (unblocked : List (Task α η)) (task : Task α η) (requestedUsage : RequestedUsage) :
    Except Panic (UsageQueueInner α η × BlockedUsageCounts × List (Task α η)) := do
  let (queue, newlyLockable) ← queue.unlock task requestedUsage
  relock (queue.blockedUsages.length + 1) queue counts unblocked newlyLockable

end UsageQueueInner

structure SchedulingStateMachine (α η : Type) where
  unblockedTaskQueue : List (Task α η)
  activeTaskCount : ℕ
  peakActiveTaskCount : ℕ
  droppedTaskCount : ℕ
  maxUniqueActiveTaskCount : Option ℕ
  uniqueActiveTaskHashes : Finset η
  runningTaskCount : ℕ
  maxRunningTaskCount : ℕ
  handledTaskCount : ℕ
  unblockedTaskCount : ℕ
  totalTaskCount : ℕ
  usageQueues : α → UsageQueueInner α η
  blockedUsageCounts : BlockedUsageCounts

namespace SchedulingStateMachine

variable (m : SchedulingStateMachine α η)

def hasNoRunningTask : Bool := m.runningTaskCount = 0

def hasNoActiveTask : Bool := m.activeTaskCount = 0

def hasUnblockedTask : Bool :=
  !m.unblockedTaskQueue.isEmpty

def isTaskRunnable : Bool :=
  m.runningTaskCount < m.maxRunningTaskCount

def hasRunnableTask : Bool :=
  m.hasUnblockedTask && m.isTaskRunnable

/-- The constructor, together with the fresh usage queues which the loader of
the caller hands out. -/
def exclusivelyInitialize (capability : Capability) (maxRunningTaskCount : Option ℕ)
    (maxUniqueActiveTaskCount : Option ℕ) :
    Except Panic (SchedulingStateMachine α η) :=
  let maxRunningTaskCount := maxRunningTaskCount.getD counterMax
  if maxRunningTaskCount ≤ counterMax then
    .ok
      { unblockedTaskQueue := []
        activeTaskCount := 0
        peakActiveTaskCount := 0
        droppedTaskCount := 0
        maxUniqueActiveTaskCount := maxUniqueActiveTaskCount
        uniqueActiveTaskHashes := ∅
        runningTaskCount := 0
        maxRunningTaskCount := maxRunningTaskCount
        handledTaskCount := 0
        unblockedTaskCount := 0
        totalTaskCount := 0
        usageQueues := fun _ => UsageQueueInner.new capability
        blockedUsageCounts := fun _ => 0 }
  else .error .maxRunningTaskCountTooLarge

section Locking

variable [DecidableEq α]

/-- The loop of `try_lock_usage_queues` over the remaining lock contexts. -/
def lockContexts (task : Task α η) :
    List (LockContext α) → SchedulingStateMachine α η → ℕ →
    Except Panic (SchedulingStateMachine α η × ℕ)
  | [], m, blockedUsageCount => .ok (m, blockedUsageCount)
  | context :: rest, m, blockedUsageCount => do
    let (queue, counts, blockedUsageCount) ←
      (m.usageQueues context.usageQueue).lockOrBlock m.blockedUsageCounts task
        context.requestedUsage blockedUsageCount
    lockContexts task rest
      { m with
        usageQueues := Function.update m.usageQueues context.usageQueue queue
        blockedUsageCounts := counts }
      blockedUsageCount

def tryLockUsageQueues (m : SchedulingStateMachine α η) (task : Task α η) :
    Except Panic (SchedulingStateMachine α η × Option (Task α η)) := do
  let (m, blockedUsageCount) ← lockContexts task task.lockContexts m 0
  if blockedUsageCount = 0 then .ok (m, some task)
  else
    .ok ({ m with
      blockedUsageCounts :=
        Function.update m.blockedUsageCounts task.taskId blockedUsageCount }, none)

/-- The loop of `unlock_usage_queues` over the remaining lock contexts. -/
def unlockContexts (task : Task α η) :
    List (LockContext α) → SchedulingStateMachine α η →
    Except Panic (SchedulingStateMachine α η)
  | [], m => .ok m
  | context :: rest, m => do
    let (queue, counts, unblocked) ←
      (m.usageQueues context.usageQueue).unlockAndRelock m.blockedUsageCounts
        m.unblockedTaskQueue task context.requestedUsage
    unlockContexts task rest
      { m with
        usageQueues := Function.update m.usageQueues context.usageQueue queue
        blockedUsageCounts := counts
        unblockedTaskQueue := unblocked }

def unlockUsageQueues (m : SchedulingStateMachine α η) (task : Task α η) :
    Except Panic (SchedulingStateMachine α η) :=
  unlockContexts task task.lockContexts m

end Locking

section Scheduling

variable [DecidableEq α] [DecidableEq η]

variable (m : SchedulingStateMachine α η)

def dropTask :
    Except Panic (SchedulingStateMachine α η × Option (Task α η)) := do
  let dropped ← increment m.droppedTaskCount
  .ok ({ m with droppedTaskCount := dropped }, none)

variable (task : Task α η)

variable (forceBuffering : Bool)

/-- The end of `schedule_or_buffer_task` for a task which is not blocked. -/
def runOrBuffer : Except Panic (SchedulingStateMachine α η × Option (Task α η)) :=
  if !m.isTaskRunnable || forceBuffering then do
    let unblocked ← increment m.unblockedTaskCount
    .ok ({ m with
      unblockedTaskCount := unblocked
      unblockedTaskQueue := m.unblockedTaskQueue ++ [task] }, none)
  else do
    let running ← increment m.runningTaskCount
    .ok ({ m with runningTaskCount := running }, some task)

/-- The part of `schedule_or_buffer_task` after the task has been admitted. -/
def scheduleAdmitted :
    Except Panic (SchedulingStateMachine α η × Option (Task α η)) := do
  let active ← increment m.activeTaskCount
  let m := { m with
    activeTaskCount := active
    peakActiveTaskCount := max m.peakActiveTaskCount active }
  let (m, locked) ← m.tryLockUsageQueues task
  match locked with
  | none => .ok (m, none)
  | some task => m.runOrBuffer task forceBuffering

/-- Whether the cap on unique active tasks rejects a task: there is no room
left, or its hash is active already. -/
def isDropped : Bool :=
  match m.maxUniqueActiveTaskCount with
  | none => false
  | some cap => cap ≤ m.uniqueActiveTaskHashes.card || task.hash ∈ m.uniqueActiveTaskHashes

def insertTaskHash : SchedulingStateMachine α η :=
  match m.maxUniqueActiveTaskCount with
  | none => m
  | some _ => { m with uniqueActiveTaskHashes := insert task.hash m.uniqueActiveTaskHashes }

def scheduleOrBufferTask :
    Except Panic (SchedulingStateMachine α η × Option (Task α η)) := do
  let total ← increment m.totalTaskCount
  let m := { m with totalTaskCount := total }
  if m.isDropped task then m.dropTask
  else (m.insertTaskHash task).scheduleAdmitted task forceBuffering

def bufferTask :
    Except Panic (SchedulingStateMachine α η) := do
  let (m, returned) ← m.scheduleOrBufferTask task true
  match returned with
  | none => .ok m
  | some _ => .error .bufferedTaskReturned

def scheduleNextUnblockedTask : Except Panic (SchedulingStateMachine α η × Option (Task α η)) :=
  if !m.isTaskRunnable then .ok (m, none)
  else
    match m.unblockedTaskQueue with
    | [] => .ok (m, none)
    | task :: rest => do
      let running ← increment m.runningTaskCount
      let unblocked ← increment m.unblockedTaskCount
      .ok ({ m with
        unblockedTaskQueue := rest
        runningTaskCount := running
        unblockedTaskCount := unblocked }, some task)

def removeTaskHash : Except Panic (SchedulingStateMachine α η) :=
  match m.maxUniqueActiveTaskCount with
  | none => .ok m
  | some _ =>
    if task.hash ∈ m.uniqueActiveTaskHashes then
      .ok { m with uniqueActiveTaskHashes := m.uniqueActiveTaskHashes.erase task.hash }
    else .error .missingTaskHash

def descheduleTask :
    Except Panic (SchedulingStateMachine α η) := do
  let running ← decrement m.runningTaskCount
  let m ← removeTaskHash { m with runningTaskCount := running } task
  let active ← decrement m.activeTaskCount
  let handled ← increment m.handledTaskCount
  unlockUsageQueues { m with activeTaskCount := active, handledTaskCount := handled } task

def reinitialize : Except Panic (SchedulingStateMachine α η) :=
  if !m.hasNoActiveTask then .error .tasksStillActive
  else if m.uniqueActiveTaskHashes.card ≠ 0 then .error .hashesStillActive
  else if m.runningTaskCount ≠ 0 then .error .tasksStillRunning
  else if m.unblockedTaskQueue.length ≠ 0 then .error .tasksStillUnblocked
  else
    .ok { m with
      activeTaskCount := 0
      peakActiveTaskCount := 0
      droppedTaskCount := 0
      handledTaskCount := 0
      unblockedTaskCount := 0
      totalTaskCount := 0 }

def clearLoop : ℕ → SchedulingStateMachine α η → ℕ → Except Panic (SchedulingStateMachine α η × ℕ)
  | 0, _, _ => .error .loopNotFinished
  | fuel + 1, m, count => do
    let (m, next) ← m.scheduleNextUnblockedTask
    match next with
    | none => .ok (m, count)
    | some task => do
      let m ← m.descheduleTask task
      let count ← increment count
      clearLoop fuel m count

def clearAndReinitialize :
    Except Panic (SchedulingStateMachine α η × ℕ) := do
  let (m, count) ← clearLoop (m.activeTaskCount + 1) m 0
  let m ← m.reinitialize
  .ok (m, count)

end Scheduling

end SchedulingStateMachine

end RakuraiValidator.UnifiedScheduler
