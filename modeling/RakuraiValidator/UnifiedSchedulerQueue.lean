import RakuraiValidator.OrderedMap

/-!
# Usage queues of the unified scheduler

Every address has one usage queue.  It records how the address is used right
now and which tasks wait for it.  Under `FifoQueueing` the current usage is
only counted and the blocked usages form a queue; under `PriorityQueueing` the
holders are remembered and both collections are ordered by task id, so that a
task of higher priority may take the usage back from holders which are not
runnable yet.

An assertion, an `unwrap` or an `unreachable!` of the source is an error of
type `Panic`.  The blocked usage count of a task lives in a cell of its own
there; here the counts are a function of the task id.
-/

namespace RakuraiValidator.UnifiedScheduler

inductive Capability
  | fifoQueueing
  | priorityQueueing
deriving DecidableEq

inductive Panic
  | counterOverflow
  | counterUnderflow
  | selfComparison
  | takeReadable
  | takeWritable
  | duplicateUsageFromTask
  | duplicateReader
  | missingReader
  | unlockReadonlyAsWritable
  | unlockWritableAsReadonly
  | unlockUnused
  | pushBlockedWhileUnused
  | popReadonlyMismatch
  | blockedWhileUnused
  | blockedHeadNotWritable
  | relockRefused
  | missingTaskHash
  | bufferedTaskReturned
  | tasksStillActive
  | hashesStillActive
  | tasksStillRunning
  | tasksStillUnblocked
  | maxRunningTaskCountTooLarge
  | loopNotFinished
deriving DecidableEq

/-! ## Counters -/

def counterMax : ℕ := 4294967295

namespace ShortCounter

def increment (c : ℕ) : Except Panic ℕ :=
  if c < counterMax then .ok (c + 1) else .error .counterOverflow

def decrement (c : ℕ) : Except Panic ℕ :=
  if c = 0 then .error .counterUnderflow else .ok (c - 1)

end ShortCounter

/-! ## Tasks -/

inductive RequestedUsage
  | readonly
  | writable
deriving DecidableEq

structure LockContext (α : Type) where
  usageQueue : α
  requestedUsage : RequestedUsage
deriving DecidableEq

/-- A task with the part of its transaction which the scheduler reads.  Account
locks are validated before a task is created: no address is loaded twice, and
the addresses of a transaction are far fewer than a counter can hold. -/
structure Task (α η : Type) where
  taskId : ℕ
  hash : η
  lockContexts : List (LockContext α)
  usageQueue_nodup : (lockContexts.map LockContext.usageQueue).Nodup
  lockContexts_length_le : lockContexts.length ≤ counterMax
deriving DecidableEq

variable {α η : Type}

namespace Task

def isHigherPriority (task other : Task α η) : Except Panic Bool :=
  if task.taskId < other.taskId then .ok true
  else if other.taskId < task.taskId then .ok false
  else .error .selfComparison

end Task

abbrev BlockedUsageCounts := ℕ → ℕ

namespace BlockedUsageCounts

variable (counts : BlockedUsageCounts) (task : Task α η)

/-- The counter goes towards the runnable state; the result tells whether it
has reached zero. -/
def tryUnblock :
    Except Panic (Bool × BlockedUsageCounts) := do
  let count ← ShortCounter.decrement (counts task.taskId)
  .ok (count = 0, Function.update counts task.taskId count)

/-- The counter goes away from the runnable state, unless it is zero already
and the task may be running. -/
def tryReblock : Except Panic (Bool × BlockedUsageCounts) :=
  if counts task.taskId = 0 then .ok (false, counts)
  else do
    let count ← ShortCounter.increment (counts task.taskId)
    .ok (true, Function.update counts task.taskId count)

end BlockedUsageCounts

/-! ## Usages -/

inductive Usage (ρ ω : Type)
  | readonly (r : ρ)
  | writable (w : ω)

def Usage.requestedUsage {ρ ω : Type} : Usage ρ ω → RequestedUsage
  | .readonly _ => .readonly
  | .writable _ => .writable

abbrev FifoUsage := Usage ℕ Unit

def FifoUsage.from : RequestedUsage → FifoUsage
  | .readonly => .readonly 1
  | .writable => .writable ()

abbrev PriorityUsage (α η : Type) := Usage (BTreeMap ℕ (Task α η)) (Task α η)

def PriorityUsage.from (task : Task α η) : RequestedUsage → PriorityUsage α η
  | .readonly => .readonly (BTreeMap.empty.insert task.taskId task).2
  | .writable => .writable task

def PriorityUsage.takeReadable (usage : Option (PriorityUsage α η)) :
    Except Panic (Option (PriorityUsage α η)) :=
  match usage with
  | some (.readonly tasks) => if tasks.isEmpty then .ok none else .error .takeReadable
  | _ => .error .takeReadable

def PriorityUsage.takeWritable (usage : Option (PriorityUsage α η)) :
    Except Panic (Task α η × Option (PriorityUsage α η)) :=
  match usage with
  | some (.writable task) => .ok (task, none)
  | _ => .error .takeWritable

abbrev UsageFromTask (α η : Type) := RequestedUsage × Task α η

abbrev PriorityUsageQueue (α η : Type) := BTreeMap ℕ (UsageFromTask α η)

namespace PriorityUsageQueue

def insertUsageFromTask (queue : PriorityUsageQueue α η) (usage : UsageFromTask α η) :
    Except Panic (PriorityUsageQueue α η) :=
  match queue.insert usage.2.taskId usage with
  | (none, queue) => .ok queue
  | (some _, _) => .error .duplicateUsageFromTask

def popFirstUsageFromTask (queue : PriorityUsageQueue α η) :
    Option (UsageFromTask α η) × PriorityUsageQueue α η :=
  (queue.popFirst.1.map Prod.snd, queue.popFirst.2)

def firstUsageFromTask (queue : PriorityUsageQueue α η) : Option (UsageFromTask α η) :=
  queue.firstKeyValue.map Prod.snd

end PriorityUsageQueue

/-! ## The queue of one address -/

inductive LockResult
  | ok
  | err
deriving DecidableEq

inductive UsageQueueInner (α η : Type)
  | fifo (currentUsage : Option FifoUsage)
      (blockedUsagesFromTasks : List (UsageFromTask α η))
  | priority (currentUsage : Option (PriorityUsage α η))
      (blockedUsagesFromTasks : PriorityUsageQueue α η)

namespace UsageQueueInner

def withFifo : UsageQueueInner α η := .fifo none []

def withPriority : UsageQueueInner α η := .priority none BTreeMap.empty

def new : Capability → UsageQueueInner α η
  | .fifoQueueing => withFifo
  | .priorityQueueing => withPriority

variable (queue : UsageQueueInner α η)

def tryLock (newTask : Task α η) (requestedUsage : RequestedUsage) :
    Except Panic (UsageQueueInner α η × LockResult) :=
  match queue with
  | .fifo currentUsage blocked =>
    match currentUsage, requestedUsage with
    | none, usage => .ok (.fifo (some (FifoUsage.from usage)) blocked, .ok)
    | some (.readonly count), .readonly => do
      let count ← ShortCounter.increment count
      .ok (.fifo (some (.readonly count)) blocked, .ok)
    | some (.readonly _), .writable => .ok (queue, .err)
    | some (.writable ()), _ => .ok (queue, .err)
  | .priority currentUsage blocked =>
    match currentUsage, requestedUsage with
    | some (.readonly tasks), .readonly =>
      match tasks.insert newTask.taskId newTask with
      | (none, tasks) => .ok (.priority (some (.readonly tasks)) blocked, .ok)
      | (some _, _) => .error .duplicateReader
    | some (.readonly _), .writable => .ok (queue, .err)
    | some (.writable _), _ => .ok (queue, .err)
    | none, usage =>
      .ok (.priority (some (PriorityUsage.from newTask usage)) blocked, .ok)

def currentUsage : UsageQueueInner α η → Option RequestedUsage
  | .fifo usage _ => usage.map Usage.requestedUsage
  | .priority usage _ => usage.map Usage.requestedUsage

def pop : UsageQueueInner α η → Option (UsageFromTask α η) × UsageQueueInner α η
  | .fifo usage blocked => (blocked.head?, .fifo usage blocked.tail)
  | .priority usage blocked =>
    (PriorityUsageQueue.popFirstUsageFromTask blocked |>.1,
      .priority usage (PriorityUsageQueue.popFirstUsageFromTask blocked).2)

def push (usageFromTask : UsageFromTask α η) : Except Panic (UsageQueueInner α η) :=
  match queue with
  | .fifo usage blocked => .ok (.fifo usage (blocked ++ [usageFromTask]))
  | .priority usage blocked => do
    let blocked ← PriorityUsageQueue.insertUsageFromTask blocked usageFromTask
    .ok (.priority usage blocked)

def peekBlocked : UsageQueueInner α η → Option (UsageFromTask α η)
  | .fifo _ blocked => blocked.head?
  | .priority _ blocked => PriorityUsageQueue.firstUsageFromTask blocked

/-- Releases one usage.  When it was the last one the first blocked usage is
popped and returned for relocking. -/
def unlock (task : Task α η) (requestedUsage : RequestedUsage) :
    Except Panic (UsageQueueInner α η × Option (UsageFromTask α η)) := do
  let (queue, isNewlyLockable) ← match queue with
    | .fifo currentUsage blocked =>
      match currentUsage, requestedUsage with
      | some (.readonly count), .readonly =>
        if count = 1 then .ok (UsageQueueInner.fifo none blocked, true)
        else do
          let count ← ShortCounter.decrement count
          .ok (.fifo (some (.readonly count)) blocked, false)
      | some (.readonly _), .writable => .error .unlockReadonlyAsWritable
      | some (.writable ()), .writable => .ok (.fifo none blocked, true)
      | some (.writable ()), .readonly => .error .unlockWritableAsReadonly
      | none, _ => .error .unlockUnused
    | .priority currentUsage blocked =>
      match currentUsage, requestedUsage with
      | some (.readonly tasks), .readonly =>
        match tasks.remove task.taskId with
        | (none, _) => .error .missingReader
        | (some _, tasks) =>
          if tasks.isEmpty then .ok (.priority none blocked, true)
          else .ok (.priority (some (.readonly tasks)) blocked, false)
      | some (.readonly _), .writable => .error .unlockReadonlyAsWritable
      | some (.writable _), .writable => .ok (.priority none blocked, true)
      | some (.writable _), .readonly => .error .unlockWritableAsReadonly
      | none, _ => .error .unlockUnused
  if isNewlyLockable then .ok (queue.pop.2, queue.pop.1) else .ok (queue, none)

def pushBlocked (usageFromTask : UsageFromTask α η) : Except Panic (UsageQueueInner α η) :=
  match queue.currentUsage with
  | some _ => queue.push usageFromTask
  | none => .error .pushBlockedWhileUnused

def popLockableReadonly : Except Panic (UsageQueueInner α η × Option (UsageFromTask α η)) :=
  match queue.peekBlocked with
  | some (.readonly, _) =>
    match queue.currentUsage with
    | some .readonly => .ok (queue.pop.2, queue.pop.1)
    | _ => .error .popReadonlyMismatch
  | _ => .ok (queue, none)

/-- The reblocked readers enter the blocked usages one after the other. -/
def insertReblocked (blocked : PriorityUsageQueue α η) :
    List (ℕ × Task α η) → Except Panic (PriorityUsageQueue α η)
  | [] => .ok blocked
  | entry :: rest => do
    let blocked ← PriorityUsageQueue.insertUsageFromTask blocked (.readonly, entry.2)
    insertReblocked blocked rest

/-- Decides whether the new task may try to lock at all.  Under priority
queueing this is where holders of lower priority are reblocked. -/
def prepareLock (counts : BlockedUsageCounts)
    (newTask : Task α η) (requestedUsage : RequestedUsage) :
    Except Panic (UsageQueueInner α η × BlockedUsageCounts × LockResult) :=
  match queue with
  | .fifo _ blocked =>
    .ok (queue, counts, if blocked.isEmpty then .ok else .err)
  | .priority usage blocked =>
    match usage, requestedUsage with
    | none, _ =>
      if blocked.isEmpty then .ok (queue, counts, .ok)
      else .error .blockedWhileUnused
    | some (.writable currentTask), _ => do
      if !(← newTask.isHigherPriority currentTask) then
        .ok (queue, counts, .err)
      else do
        let (reblocked, counts) ← counts.tryReblock currentTask
        if !reblocked then .ok (queue, counts, .err)
        else do
          let (reblockedTask, usage) ← PriorityUsage.takeWritable usage
          let blocked ←
            PriorityUsageQueue.insertUsageFromTask blocked (.writable, reblockedTask)
          .ok (.priority usage blocked, counts, .ok)
    | some (.readonly _), .readonly =>
      match queue.peekBlocked with
      | none => .ok (queue, counts, .ok)
      | some (.readonly, _) => .error .blockedHeadNotWritable
      | some (.writable, peekedTask) => do
        if !(← newTask.isHigherPriority peekedTask) then
          .ok (queue, counts, .err)
        else .ok (queue, counts, .ok)
    | some (.readonly currentTasks), .writable => do
      let (reblockedTasks, currentTasks, counts) ←
        currentTasks.extractIf newTask.taskId
          (fun counts task => BlockedUsageCounts.tryReblock counts task) counts
      let blocked ← insertReblocked blocked reblockedTasks
      if currentTasks.isEmpty then do
        let usage ← PriorityUsage.takeReadable (some (.readonly currentTasks))
        .ok (.priority usage blocked, counts, .ok)
      else .ok (.priority (some (.readonly currentTasks)) blocked, counts, .err)

end UsageQueueInner

end RakuraiValidator.UnifiedScheduler
