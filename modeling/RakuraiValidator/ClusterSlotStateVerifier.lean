import RakuraiValidator.HeaviestSubtreeForkChoice

/-!
# The cluster slot state verifier

Signals about a slot come from replay, from gossip and from the ancestor hashes service.  Each one is
compared with what is known of the slot when it arrives, and turned into changes: the local version
is marked as duplicate or as confirmed in the fork choice, and another version is put down for
repair.

Metrics and log messages are left out.
-/

namespace RakuraiValidator.SlotState

open ForkChoice (SlotHashKey HeaviestSubtreeForkChoice)

variable {Hash : Type} [LinearOrder Hash]

inductive Panic
  | forkChoice (panic : ForkChoice.Panic)
  | defaultFrozenHash
  | frozenBankMissing
  | unprocessedNotPruned
  | conflictingConfirmation
  deriving DecidableEq

/-! ## What is known of a slot -/

inductive ClusterConfirmedHash (Hash : Type)
  | duplicateConfirmed (hash : Hash)
  | epochSlotsFrozen (hash : Hash)
  deriving DecidableEq

inductive BankStatus (Hash : Type)
  | frozen (hash : Hash)
  | dead
  | unprocessed
  deriving DecidableEq

namespace BankStatus

def newFromHash [Inhabited Hash] : Option Hash → BankStatus Hash
  | some hash => if hash = default then unprocessed else frozen hash
  | none => unprocessed

def new [Inhabited Hash] (isDead : Bool) (hash : Option Hash) : BankStatus Hash :=
  if isDead then dead else newFromHash hash

def bankHash : BankStatus Hash → Option Hash
  | frozen hash => some hash
  | dead => none
  | unprocessed => none

def isDead : BankStatus Hash → Bool
  | frozen _ => false
  | dead => true
  | unprocessed => false

def canBeFurtherReplayed : BankStatus Hash → Bool
  | unprocessed => true
  | dead => false
  | frozen _ => false

end BankStatus

structure DeadState (Hash : Type) where
  clusterConfirmedHash : Option (ClusterConfirmedHash Hash)
  isSlotDuplicate : Bool

structure BankFrozenState (Hash : Type) where
  frozenHash : Hash
  clusterConfirmedHash : Option (ClusterConfirmedHash Hash)
  isSlotDuplicate : Bool

structure DuplicateConfirmedState (Hash : Type) where
  duplicateConfirmedHash : Hash
  bankStatus : BankStatus Hash

structure DuplicateState (Hash : Type) where
  duplicateConfirmedHash : Option Hash
  bankStatus : BankStatus Hash

structure EpochSlotsFrozenState (Hash : Type) where
  epochSlotsFrozenHash : Hash
  duplicateConfirmedHash : Option Hash
  bankStatus : BankStatus Hash
  isPopularPruned : Bool

inductive SlotStateUpdate (Hash : Type)
  | bankFrozen (state : BankFrozenState Hash)
  | duplicateConfirmed (state : DuplicateConfirmedState Hash)
  | dead (state : DeadState Hash)
  | duplicate (state : DuplicateState Hash)
  | epochSlotsFrozen (state : EpochSlotsFrozenState Hash)
  | popularPrunedFork

inductive AncestorHashesReplayUpdate
  | dead (slot : ℕ)
  | deadDuplicateConfirmed (slot : ℕ)
  | popularPrunedFork (slot : ℕ)
  deriving DecidableEq

inductive ResultingStateChange (Hash : Type)
  | bankFrozen (hash : Hash)
  | markSlotDuplicate (hash : Hash)
  | repairDuplicateConfirmedVersion (hash : Hash)
  | duplicateConfirmedSlotMatchesCluster (hash : Hash)
  | sendAncestorHashesReplayUpdate (update : AncestorHashesReplayUpdate)
  deriving DecidableEq

/-! ## Changes -/

open ResultingStateChange

def checkDuplicateConfirmedHashAgainstBankStatus (duplicateConfirmedHash : Hash) :
    BankStatus Hash → List (ResultingStateChange Hash)
  | .unprocessed => []
  | .dead => [repairDuplicateConfirmedVersion duplicateConfirmedHash]
  | .frozen bankFrozenHash =>
    if duplicateConfirmedHash = bankFrozenHash then
      [duplicateConfirmedSlotMatchesCluster bankFrozenHash]
    else
      [markSlotDuplicate bankFrozenHash, repairDuplicateConfirmedVersion duplicateConfirmedHash]

def checkEpochSlotsHashAgainstBankStatus (epochSlotsFrozenHash : Hash) (isPopularPruned : Bool) :
    BankStatus Hash → Except Panic (List (ResultingStateChange Hash))
  | .frozen bankFrozenHash =>
    if bankFrozenHash = epochSlotsFrozenHash then .ok []
    else if isPopularPruned then .ok [repairDuplicateConfirmedVersion epochSlotsFrozenHash]
    else
      .ok [markSlotDuplicate bankFrozenHash, repairDuplicateConfirmedVersion epochSlotsFrozenHash]
  | .dead => .ok [repairDuplicateConfirmedVersion epochSlotsFrozenHash]
  | .unprocessed =>
    if isPopularPruned then .ok [repairDuplicateConfirmedVersion epochSlotsFrozenHash]
    else .error .unprocessedNotPruned

def onDeadSlot (slot : ℕ) (state : DeadState Hash) :
    Except Panic (List (ResultingStateChange Hash)) :=
  match state.clusterConfirmedHash with
  | some (.duplicateConfirmed hash) =>
    .ok (sendAncestorHashesReplayUpdate (.deadDuplicateConfirmed slot) ::
      checkDuplicateConfirmedHashAgainstBankStatus hash .dead)
  | some (.epochSlotsFrozen hash) => checkEpochSlotsHashAgainstBankStatus hash false .dead
  | none => .ok [sendAncestorHashesReplayUpdate (.dead slot)]

/-- A slot known to be duplicate is marked only if no confirmed hash is known. -/
def onFrozenSlot (state : BankFrozenState Hash) : Except Panic (List (ResultingStateChange Hash)) :=
  match state.clusterConfirmedHash with
  | some (.duplicateConfirmed hash) =>
    .ok (bankFrozen state.frozenHash ::
      checkDuplicateConfirmedHashAgainstBankStatus hash (.frozen state.frozenHash))
  | some (.epochSlotsFrozen hash) =>
    (checkEpochSlotsHashAgainstBankStatus hash false (.frozen state.frozenHash)).map
      (bankFrozen state.frozenHash :: ·)
  | none =>
    if state.isSlotDuplicate then
      .ok [bankFrozen state.frozenHash, markSlotDuplicate state.frozenHash]
    else .ok [bankFrozen state.frozenHash]

def onDuplicateConfirmed (slot : ℕ) (state : DuplicateConfirmedState Hash) :
    List (ResultingStateChange Hash) :=
  if state.bankStatus = .unprocessed then []
  else
    (if state.bankStatus.isDead then
      [sendAncestorHashesReplayUpdate (.deadDuplicateConfirmed slot)] else []) ++
    checkDuplicateConfirmedHashAgainstBankStatus state.duplicateConfirmedHash state.bankStatus

def onDuplicate (state : DuplicateState Hash) : List (ResultingStateChange Hash) :=
  if state.bankStatus = .unprocessed then []
  else
    match state.duplicateConfirmedHash, state.bankStatus.bankHash with
    | none, some bankHash => [markSlotDuplicate bankHash]
    | _, _ => []

def onEpochSlotsFrozen (state : EpochSlotsFrozenState Hash) :
    Except Panic (List (ResultingStateChange Hash)) :=
  if !state.isPopularPruned && state.duplicateConfirmedHash.isSome then .ok []
  else if state.bankStatus = .unprocessed ∧ ¬ state.isPopularPruned then .ok []
  else
    checkEpochSlotsHashAgainstBankStatus state.epochSlotsFrozenHash state.isPopularPruned
      state.bankStatus

namespace SlotStateUpdate

def canBeFurtherReplayed : SlotStateUpdate Hash → Bool
  | bankFrozen _ => false
  | duplicateConfirmed state => state.bankStatus.canBeFurtherReplayed
  | dead _ => false
  | duplicate state => state.bankStatus.canBeFurtherReplayed
  | epochSlotsFrozen state => state.bankStatus.canBeFurtherReplayed && !state.isPopularPruned
  | popularPrunedFork => false

def intoStateChanges (slot : ℕ) (update : SlotStateUpdate Hash) :
    Except Panic (List (ResultingStateChange Hash)) :=
  if update.canBeFurtherReplayed then .ok []
  else
    match update with
    | dead state => onDeadSlot slot state
    | bankFrozen state => onFrozenSlot state
    | duplicateConfirmed state => .ok (onDuplicateConfirmed slot state)
    | duplicate state => .ok (onDuplicate state)
    | epochSlotsFrozen state => onEpochSlotsFrozen state
    | popularPrunedFork => .ok [sendAncestorHashesReplayUpdate (.popularPrunedFork slot)]

end SlotStateUpdate

/-! ## Applying changes -/

structure FrozenHashStatus (Hash : Type) where
  frozenHash : Hash
  isDuplicateConfirmed : Bool

/-- The tables of the verifier, the fork choice, the bank hashes of the blockstore and the updates
sent to the ancestor hashes service. -/
structure Verifier (Hash : Type) [LinearOrder Hash] where
  duplicateSlotsTracker : BTreeMap ℕ Unit
  duplicateConfirmedSlots : BTreeMap ℕ Hash
  epochSlotsFrozenSlots : BTreeMap ℕ Hash
  duplicateSlotsToRepair : BTreeMap ℕ Hash
  purgeRepairSlotCounter : BTreeMap ℕ ℕ
  forkChoice : HeaviestSubtreeForkChoice Hash
  bankHashes : BTreeMap ℕ (FrozenHashStatus Hash)
  replayUpdates : List AncestorHashesReplayUpdate

variable (bankHashes : BTreeMap ℕ (FrozenHashStatus Hash))

def insertBankHash (slot : ℕ) (frozenHash : Hash) (isDuplicateConfirmed : Bool) :
    BTreeMap ℕ (FrozenHashStatus Hash) :=
  match bankHashes.get? slot with
  | some status =>
    if status.frozenHash = frozenHash ∧ status.isDuplicateConfirmed then bankHashes
    else (bankHashes.insert slot ⟨frozenHash, isDuplicateConfirmed⟩).2
  | none => (bankHashes.insert slot ⟨frozenHash, isDuplicateConfirmed⟩).2

def setDuplicateConfirmedSlotsAndHashes (keys : List (SlotHashKey Hash)) :
    BTreeMap ℕ (FrozenHashStatus Hash) :=
  keys.foldl (fun bankHashes key => (bankHashes.insert key.slot ⟨key.hash, true⟩).2) bankHashes

def isDuplicateConfirmed (forkChoice : HeaviestSubtreeForkChoice Hash)
    (key : SlotHashKey Hash) : Option Bool :=
  (forkChoice.forkInfos.get? key).map (·.isDuplicateConfirmed)

def liftForkChoice {α : Type} : Except ForkChoice.Panic α → Except Panic α
  | .ok a => .ok a
  | .error panic => .error (.forkChoice panic)

namespace Verifier

variable [Inhabited Hash]

/-- The second component is the hash of a frozen bank which is not duplicate confirmed. -/
def applyStateChange (slot : ℕ) (state : Verifier Hash × Option Hash) :
    ResultingStateChange Hash → Except Panic (Verifier Hash × Option Hash)
  | .bankFrozen bankFrozenHash =>
    match isDuplicateConfirmed state.1.forkChoice ⟨slot, bankFrozenHash⟩ with
    | none => .error .frozenBankMissing
    | some true => .ok state
    | some false => .ok (state.1, some bankFrozenHash)
  | .markSlotDuplicate bankFrozenHash => do
    let forkChoice ← liftForkChoice
      (state.1.forkChoice.markForkInvalidCandidate ⟨slot, bankFrozenHash⟩)
    .ok ({ state.1 with forkChoice }, state.2)
  | .repairDuplicateConfirmedVersion duplicateConfirmedHash =>
    .ok ({ state.1 with
      duplicateSlotsToRepair :=
        (state.1.duplicateSlotsToRepair.insert slot duplicateConfirmedHash).2 }, state.2)
  | .duplicateConfirmedSlotMatchesCluster bankFrozenHash => do
    let (newly, forkChoice) ← liftForkChoice
      (state.1.forkChoice.markForkValidCandidate ⟨slot, bankFrozenHash⟩)
    .ok ({ state.1 with
      forkChoice
      bankHashes := setDuplicateConfirmedSlotsAndHashes state.1.bankHashes newly
      duplicateSlotsToRepair := (state.1.duplicateSlotsToRepair.remove slot).2
      purgeRepairSlotCounter := (state.1.purgeRepairSlotCounter.remove slot).2 }, none)
  | .sendAncestorHashesReplayUpdate update =>
    .ok ({ state.1 with replayUpdates := state.1.replayUpdates ++ [update] }, state.2)

def applyStateChanges (slot : ℕ) (stateChanges : List (ResultingStateChange Hash))
    (verifier : Verifier Hash) : Except Panic (Verifier Hash) := do
  let (verifier, notDuplicateConfirmedFrozenHash) ←
    stateChanges.foldlM (applyStateChange slot) (verifier, none)
  match notDuplicateConfirmedFrozenHash with
  | some frozenHash =>
    .ok { verifier with bankHashes := insertBankHash verifier.bankHashes slot frozenHash false }
  | none => .ok verifier

def applyUpdate (slot : ℕ) (update : SlotStateUpdate Hash) (verifier : Verifier Hash) :
    Except Panic (Verifier Hash) := do
  let stateChanges ← update.intoStateChanges slot
  verifier.applyStateChanges slot stateChanges

/-- The tables are brought up to date before the changes are computed, and a signal which was
processed before is dropped. -/
def checkSlotAgreesWithCluster (slot root : ℕ) (update : SlotStateUpdate Hash)
    (verifier : Verifier Hash) : Except Panic (Verifier Hash) :=
  if slot ≤ root then .ok verifier
  else
    match update with
    | .duplicate _ =>
      if verifier.duplicateSlotsTracker.containsKey slot then .ok verifier
      else
        applyUpdate slot update { verifier with
          duplicateSlotsTracker := (verifier.duplicateSlotsTracker.insert slot ()).2 }
    | .duplicateConfirmed state =>
      if state.bankStatus.bankHash.any fun bankHash =>
          isDuplicateConfirmed verifier.forkChoice ⟨slot, bankHash⟩ = some true then
        .ok verifier
      else applyUpdate slot update verifier
    | .epochSlotsFrozen state =>
      let (old, epochSlotsFrozenSlots) :=
        verifier.epochSlotsFrozenSlots.insert slot state.epochSlotsFrozenHash
      if old = some state.epochSlotsFrozenHash then .ok { verifier with epochSlotsFrozenSlots }
      else applyUpdate slot update { verifier with epochSlotsFrozenSlots }
    | _ => applyUpdate slot update verifier

/-! ## Signals built from the state -/

variable (verifier : Verifier Hash) (slot : ℕ)

def getDuplicateConfirmedHash (bankFrozenHash : Option Hash) : Option Hash :=
  match bankFrozenHash with
  | some hash =>
    if (isDuplicateConfirmed verifier.forkChoice ⟨slot, hash⟩).getD false then some hash
    else verifier.duplicateConfirmedSlots.get? slot
  | none => verifier.duplicateConfirmedSlots.get? slot

def getClusterConfirmedHash (bankFrozenHash : Option Hash) : Option (ClusterConfirmedHash Hash) :=
  match verifier.getDuplicateConfirmedHash slot bankFrozenHash with
  | some hash => some (.duplicateConfirmed hash)
  | none => (verifier.epochSlotsFrozenSlots.get? slot).map .epochSlotsFrozen

def newBankFrozenState (frozenHash : Hash) : Except Panic (BankFrozenState Hash) :=
  if frozenHash = default then .error .defaultFrozenHash
  else
    .ok ⟨frozenHash, verifier.getClusterConfirmedHash slot (some frozenHash),
      verifier.duplicateSlotsTracker.containsKey slot⟩

def newDuplicateState (isDead : Bool) (hash : Option Hash) : DuplicateState Hash :=
  let bankStatus := BankStatus.new isDead hash
  ⟨verifier.getDuplicateConfirmedHash slot bankStatus.bankHash, bankStatus⟩

def newEpochSlotsFrozenState
    (epochSlotsFrozenHash : Hash) (isDead : Bool) (hash : Option Hash) (isPopularPruned : Bool) :
    EpochSlotsFrozenState Hash :=
  let bankStatus := BankStatus.new isDead hash
  ⟨epochSlotsFrozenHash, verifier.getDuplicateConfirmedHash slot bankStatus.bankHash, bankStatus,
    isPopularPruned⟩

def processDuplicateConfirmed (slot root : ℕ) (duplicateConfirmedHash : Hash) (isDead : Bool)
    (hash : Option Hash) (verifier : Verifier Hash) :
    Except Panic (Verifier Hash) :=
  if slot ≤ root then .ok verifier
  else
    let (previous, duplicateConfirmedSlots) :=
      verifier.duplicateConfirmedSlots.insert slot duplicateConfirmedHash
    match previous with
    | some previousHash =>
      if previousHash = duplicateConfirmedHash then .ok { verifier with duplicateConfirmedSlots }
      else .error .conflictingConfirmation
    | none =>
      checkSlotAgreesWithCluster slot root
        (.duplicateConfirmed ⟨duplicateConfirmedHash, BankStatus.new isDead hash⟩)
        { verifier with duplicateConfirmedSlots }

end Verifier

end RakuraiValidator.SlotState
