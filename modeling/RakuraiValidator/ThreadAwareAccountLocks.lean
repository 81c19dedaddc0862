import Mathlib.Data.Finset.Max
import Mathlib.Data.List.Count
import Mathlib.Tactic

/-!
# Thread-aware account locks

Transactions are queued on worker threads.  A thread may hold several locks on one
account, but an account which is write-locked on one thread is locked on no other.
The map has an entry for each account with an outstanding lock.
-/

namespace RakuraiValidator.Scheduling

def maxThreads : ℕ := 64

abbrev ThreadSet := Finset ℕ

namespace ThreadSet

def any (numThreads : ℕ) : ThreadSet := Finset.range numThreads

def onlyOneContained (threads : ThreadSet) : Option ℕ :=
  if h : threads.card = 1 then some (threads.min' (Finset.card_pos.mp (by omega))) else none

end ThreadSet

def wrappingIncrement (lockCount : ℕ) : ℕ := (lockCount + 1) % 2 ^ 32

def wrappingDecrement (lockCount : ℕ) : ℕ := (lockCount + (2 ^ 32 - 1)) % 2 ^ 32

structure AccountWriteLocks where
  threadId : ℕ
  lockCount : ℕ

structure AccountReadLocks where
  threadSet : ThreadSet
  lockCounts : ℕ → ℕ

structure AccountLocks where
  writeLocks : Option AccountWriteLocks
  readLocks : Option AccountReadLocks

inductive TryLockError
  | multipleConflicts
  | threadNotAllowed
deriving DecidableEq

inductive LockPanic
  | threadIdOutOfRange
  | readLockOnOtherThread
  | writeLockOnOtherThread
  | noWriteLock
  | noReadLock
  | emptyEntry
deriving DecidableEq

structure ThreadAwareAccountLocks (Pubkey : Type) where
  numThreads : ℕ
  locks : Pubkey → Option AccountLocks
  numThreads_pos : 0 < numThreads
  numThreads_le : numThreads ≤ maxThreads

namespace AccountLocks

variable (entry : Option AccountLocks) (threadId : ℕ)

def writeLock : Except LockPanic (Option AccountLocks) :=
  let locks := entry.getD ⟨none, none⟩
  if locks.readLocks.any (fun read => read.threadSet.onlyOneContained ≠ some threadId) then
    .error .readLockOnOtherThread
  else
    match locks.writeLocks with
    | some write =>
      if write.threadId ≠ threadId then .error .writeLockOnOtherThread
      else .ok (some { locks with
        writeLocks := some ⟨threadId, wrappingIncrement write.lockCount⟩ })
    | none => .ok (some { locks with writeLocks := some ⟨threadId, 1⟩ })

def writeUnlock : Except LockPanic (Option AccountLocks) :=
  match entry with
  | none => .error .noWriteLock
  | some locks =>
    match locks.writeLocks with
    | none => .error .noWriteLock
    | some write =>
      if write.threadId ≠ threadId then .error .writeLockOnOtherThread
      else if wrappingDecrement write.lockCount = 0 then
        .ok (if locks.readLocks.isNone then none else some { locks with writeLocks := none })
      else .ok (some { locks with
        writeLocks := some ⟨threadId, wrappingDecrement write.lockCount⟩ })

def readLock : Except LockPanic (Option AccountLocks) :=
  let locks := entry.getD ⟨none, none⟩
  if locks.writeLocks.any (fun write => write.threadId ≠ threadId) then
    .error .writeLockOnOtherThread
  else
    match locks.readLocks with
    | some read =>
      .ok (some { locks with
        readLocks := some ⟨insert threadId read.threadSet,
          Function.update read.lockCounts threadId
            (wrappingIncrement (read.lockCounts threadId))⟩ })
    | none =>
      .ok (some { locks with
        readLocks := some ⟨{threadId}, Function.update (fun _ => 0) threadId 1⟩ })

def readUnlock : Except LockPanic (Option AccountLocks) :=
  match entry with
  | none => .error .noReadLock
  | some locks =>
    match locks.readLocks with
    | none => .error .noReadLock
    | some read =>
      if threadId ∉ read.threadSet then .error .readLockOnOtherThread
      else
        let lockCount := wrappingDecrement (read.lockCounts threadId)
        let lockCounts := Function.update read.lockCounts threadId lockCount
        if lockCount = 0 then
          if read.threadSet.erase threadId = ∅ then
            .ok (if locks.writeLocks.isNone then none
              else some { locks with readLocks := none })
          else .ok (some { locks with
            readLocks := some ⟨read.threadSet.erase threadId, lockCounts⟩ })
        else .ok (some { locks with readLocks := some ⟨read.threadSet, lockCounts⟩ })

def schedulableThreads (numThreads : ℕ) (write : Bool) (entry : Option AccountLocks) :
    Except LockPanic ThreadSet :=
  match entry with
  | none => .ok (ThreadSet.any numThreads)
  | some ⟨none, some readLocks⟩ =>
    .ok (if write then
      (match readLocks.threadSet.onlyOneContained with
        | some threadId => {threadId}
        | none => ∅)
    else ThreadSet.any numThreads)
  | some ⟨some writeLocks, none⟩ => .ok {writeLocks.threadId}
  | some ⟨some writeLocks, some readLocks⟩ =>
    if readLocks.threadSet.onlyOneContained ≠ some writeLocks.threadId then
      .error .readLockOnOtherThread
    else .ok readLocks.threadSet
  | some ⟨none, none⟩ => .error .emptyEntry

end AccountLocks

namespace ThreadAwareAccountLocks

variable {Pubkey : Type} [DecidableEq Pubkey]

def new (numThreads : ℕ) (hpos : 0 < numThreads) (hle : numThreads ≤ maxThreads) :
    ThreadAwareAccountLocks Pubkey :=
  ⟨numThreads, fun _ => none, hpos, hle⟩

def modifyEntry (self : ThreadAwareAccountLocks Pubkey) (account : Pubkey)
    (operation : Option AccountLocks → Except LockPanic (Option AccountLocks)) :
    Except LockPanic (ThreadAwareAccountLocks Pubkey) :=
  match operation (self.locks account) with
  | .ok entry => .ok { self with locks := Function.update self.locks account entry }
  | .error panic => .error panic

def writeLockAccount (threadId : ℕ) (self : ThreadAwareAccountLocks Pubkey) (account : Pubkey) :=
  self.modifyEntry account (AccountLocks.writeLock · threadId)

def writeUnlockAccount (threadId : ℕ) (self : ThreadAwareAccountLocks Pubkey) (account : Pubkey) :=
  self.modifyEntry account (AccountLocks.writeUnlock · threadId)

def readLockAccount (threadId : ℕ) (self : ThreadAwareAccountLocks Pubkey) (account : Pubkey) :=
  self.modifyEntry account (AccountLocks.readLock · threadId)

def readUnlockAccount (threadId : ℕ) (self : ThreadAwareAccountLocks Pubkey) (account : Pubkey) :=
  self.modifyEntry account (AccountLocks.readUnlock · threadId)

/-- Intersects the schedulable threads of the accounts and stops at the empty set. -/
def intersectThreads (self : ThreadAwareAccountLocks Pubkey) (write : Bool) :
    List Pubkey → ThreadSet → Except LockPanic (Option ThreadSet)
  | [], threads => .ok (some threads)
  | account :: accounts, threads =>
    match AccountLocks.schedulableThreads self.numThreads write (self.locks account) with
    | .error panic => .error panic
    | .ok schedulable =>
      if threads ∩ schedulable = ∅ then .ok none
      else self.intersectThreads write accounts (threads ∩ schedulable)

variable (self : ThreadAwareAccountLocks Pubkey) (writeAccountLocks readAccountLocks : List Pubkey)

def accountsSchedulableThreads : Except LockPanic (Option ThreadSet) :=
  match self.intersectThreads true writeAccountLocks (ThreadSet.any self.numThreads) with
  | .ok (some threads) => self.intersectThreads false readAccountLocks threads
  | other => other

def lockAccounts (threadId : ℕ) : Except LockPanic (ThreadAwareAccountLocks Pubkey) :=
  if self.numThreads ≤ threadId then .error .threadIdOutOfRange
  else do
    let self ← writeAccountLocks.foldlM (writeLockAccount threadId) self
    readAccountLocks.foldlM (readLockAccount threadId) self

def unlockAccounts (threadId : ℕ) :
    Except LockPanic (ThreadAwareAccountLocks Pubkey) := do
  let self ← writeAccountLocks.foldlM (writeUnlockAccount threadId) self
  readAccountLocks.foldlM (readUnlockAccount threadId) self

/-- Locks the accounts on the thread the selector picks among the possible ones. -/
def tryLockAccounts (allowedThreads : ThreadSet) (threadSelector : ThreadSet → ℕ) :
    Except LockPanic (ThreadAwareAccountLocks Pubkey × Except TryLockError ℕ) :=
  match self.accountsSchedulableThreads writeAccountLocks readAccountLocks with
  | .error panic => .error panic
  | .ok none => .ok (self, .error .multipleConflicts)
  | .ok (some threads) =>
    if threads ∩ allowedThreads = ∅ then .ok (self, .error .threadNotAllowed)
    else
      let threadId := threadSelector (threads ∩ allowedThreads)
      match self.lockAccounts writeAccountLocks readAccountLocks threadId with
      | .error panic => .error panic
      | .ok locked => .ok (locked, .ok threadId)

end ThreadAwareAccountLocks

end RakuraiValidator.Scheduling
