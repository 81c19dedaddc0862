import RakuraiValidator.ParentReadyTracker
import RakuraiValidator.SlotStakeCounters
import RakuraiValidator.VotePool

/-!
# The consensus pool

`ConsensusPool` turns votes into certificates and certificates into events.  The
signers of a finalization are extracted from its certificates as ranks; the keys at these
ranks are left out.  Of the bank at the root only the slot and the epoch stakes are read.
-/

namespace RakuraiValidator.Votor

/-! ## Certificates of one kind -/

structure CertSignature (σ : Type) where
  signature : σ
  bitmap : List UInt8
deriving DecidableEq

structure GenesisCert (σ : Type) where
  block : Block
  signature : CertSignature σ
deriving DecidableEq

structure NotarCert (σ : Type) where
  block : Block
  signature : CertSignature σ
deriving DecidableEq

structure FinalizeCert (σ : Type) where
  slot : ℕ
  signature : CertSignature σ
deriving DecidableEq

structure FastFinalizeCert (σ : Type) where
  block : Block
  signature : CertSignature σ
deriving DecidableEq

def Certificate.certSignature {σ : Type} (cert : Certificate σ) : CertSignature σ :=
  ⟨cert.signature, cert.bitmap⟩

/-! ## Finalized slots -/

inductive FinalizedSlot
  | slow (slot : ℕ)
  | fast (slot : ℕ)
deriving DecidableEq

namespace FinalizedSlot

def slot : FinalizedSlot → ℕ
  | .slow slot => slot
  | .fast slot => slot

/-- A fast finalization is preferred to a slow one of the same slot. -/
def key : FinalizedSlot → ℕ ×ₗ ℕ
  | .slow slot => toLex (slot, 0)
  | .fast slot => toLex (slot, 1)

theorem key_injective : Function.Injective key := by
  intro x y h
  cases x <;> cases y <;> simp [key] at h ⊢ <;> exact h

instance : LinearOrder FinalizedSlot := LinearOrder.lift' key key_injective

end FinalizedSlot

/-- The part of the rank map of an epoch which the pool reads. -/
structure EpochStakes where
  maxValidators : ℕ
  totalStake : ℕ+

structure RootBank where
  slot : ℕ
  epochStakes : ℕ → Option EpochStakes

inductive BlockFinalizationCertError
  | missingEpochStakes (certType : CertificateType)
  | base3Finalization (certType : CertificateType)
  | decodeError (certType : CertificateType)
deriving DecidableEq

def extractSigners (store : SignerStore) (bank : RootBank) (certType : CertificateType)
    (bitmap : List UInt8) : Except BlockFinalizationCertError (List Bool) :=
  match bank.epochStakes certType.slot with
  | none => .error (.missingEpochStakes certType)
  | some stakes =>
    match store.decode bitmap stakes.maxValidators with
    | some (.base2 ranks) => .ok ranks
    | some (.base3 _ _) => .error (.base3Finalization certType)
    | none => .error (.decodeError certType)

inductive ValidatedBlockFinalizationCert (σ : Type)
  | slow (finalizeCert : FinalizeCert σ) (notarizeCert : NotarCert σ)
  | fast (fastFinalizeCert : FastFinalizeCert σ)
deriving DecidableEq

namespace ValidatedBlockFinalizationCert

variable {σ : Type} (store : SignerStore)

def slot : ValidatedBlockFinalizationCert σ → FinalizedSlot
  | .slow finalizeCert _ => .slow finalizeCert.slot
  | .fast fastFinalizeCert => .fast fastFinalizeCert.block.slot

def fromValidatedSlow (finalizeCert : FinalizeCert σ) (notarizeCert : NotarCert σ)
    (bank : RootBank) :
    Except BlockFinalizationCertError (ValidatedBlockFinalizationCert σ) := do
  let _ ← extractSigners store bank (.finalize finalizeCert.slot) finalizeCert.signature.bitmap
  let _ ← extractSigners store bank (.notarize notarizeCert.block) notarizeCert.signature.bitmap
  .ok (.slow finalizeCert notarizeCert)

def fromValidatedFast (cert : FastFinalizeCert σ) (bank : RootBank) :
    Except BlockFinalizationCertError (ValidatedBlockFinalizationCert σ) := do
  let _ ← extractSigners store bank (.finalizeFast cert.block) cert.signature.bitmap
  .ok (.fast cert)

end ValidatedBlockFinalizationCert

/-! ## The migration -/

inductive MigrationPhase (σ : Type)
  | preFeatureActivation
  | migration (migrationSlot : ℕ) (genesisBlock : Option Block)
      (genesisCert : Option (GenesisCert σ))
  | readyToEnable (genesisCert : GenesisCert σ)
  | alpenglowEnabled (genesisCert : GenesisCert σ)
  | fullAlpenglowEpoch (fullAlpenglowEpoch : ℕ) (genesisCert : GenesisCert σ)
deriving DecidableEq

inductive PoolPanic
  | tracker (panic : TrackerPanic)
  | counters (panic : CountersPanic)
  | genesisBeforeMigration
  | genesisPastMigration
  | genesisMismatch
  | certificateNotValidated (error : BlockFinalizationCertError)
  | rankOutOfRange
deriving DecidableEq

def MigrationPhase.setGenesisCertificate {σ : Type} (phase : MigrationPhase σ)
    (cert : GenesisCert σ) : Except PoolPanic (MigrationPhase σ) :=
  match phase with
  | .preFeatureActivation => .error .genesisBeforeMigration
  | .migration migrationSlot genesisBlock _ =>
    if cert.block.slot < migrationSlot then
      match genesisBlock with
      | none => .ok (.migration migrationSlot none (some cert))
      | some block =>
        if block = cert.block then .ok (.readyToEnable cert)
        else .error .genesisMismatch
    else .error .genesisPastMigration
  | phase => .ok phase

/-! ## The pool -/

inductive AddVoteError
  | epochStakesNotFound (rootSlot slot : ℕ)
  | oldMessage (slot rootSlot : ℕ)
  | votePoolAddVote (error : AggregateAccumulatorError)
deriving DecidableEq

structure ConsensusPool (σ : Type) where
  votePools : BTreeMap ℕ (VotePool σ)
  completedCertificates : CompletedCerts σ
  parentReadyTracker : ParentReadyTracker
  highestFinalizedSlotCert : Option (ValidatedBlockFinalizationCert σ)
  slotStakeCounters : BTreeMap ℕ SlotStakeCounters
  migrationPhase : MigrationPhase σ
  pendingSafeToNotar : List Block
  lastPrunedSlot : ℕ

namespace ConsensusPool

variable {σ : Type}

def new (root : ℕ) (migrationPhase : MigrationPhase σ) (slot : ℕ) (parentBlock : Block) :
    ConsensusPool σ where
  votePools := .empty
  completedCertificates := .empty
  parentReadyTracker := .new root slot parentBlock
  highestFinalizedSlotCert := none
  slotStakeCounters := .empty
  migrationPhase := migrationPhase
  pendingSafeToNotar := []
  lastPrunedSlot := 0

variable (pool : ConsensusPool σ)

def highestFinalizedSlot : Option FinalizedSlot :=
  pool.highestFinalizedSlotCert.map ValidatedBlockFinalizationCert.slot

def getNotarizeCert (slot : ℕ) : Option (NotarCert σ) :=
  pool.completedCertificates.entries.findSome? (fun entry =>
    match entry.1 with
    | .notarize block =>
      if slot = block.slot then some ⟨block, entry.2.certSignature⟩ else none
    | _ => none)

def getFinalizeCert (slot : ℕ) : Option (FinalizeCert σ) :=
  (pool.completedCertificates.get? (.finalize slot)).map (fun cert => ⟨slot, cert.certSignature⟩)

def updateHighest (slot : FinalizedSlot)
    (cert : Except BlockFinalizationCertError (ValidatedBlockFinalizationCert σ)) :
    Except PoolPanic (ConsensusPool σ) :=
  if ∀ highest ∈ pool.highestFinalizedSlot, highest < slot then
    match cert with
    | .error error => .error (.certificateNotValidated error)
    | .ok cert => .ok { pool with highestFinalizedSlotCert := some cert }
  else .ok pool

def track (events : List VotorEvent)
    (operation : ParentReadyTracker → List VotorEvent →
      Except TrackerPanic (ParentReadyTracker × List VotorEvent)) :
    Except PoolPanic (ConsensusPool σ × List VotorEvent) :=
  match operation pool.parentReadyTracker events with
  | .error panic => .error (.tracker panic)
  | .ok (tracker, events) => .ok ({ pool with parentReadyTracker := tracker }, events)

variable (store : SignerStore) (rootBank : RootBank)

open ValidatedBlockFinalizationCert (fromValidatedSlow fromValidatedFast)

def insertCertificate (cert : Certificate σ) (events : List VotorEvent) :
    Except PoolPanic (ConsensusPool σ × List VotorEvent) :=
  let pool := { pool with
    completedCertificates := (pool.completedCertificates.insert cert.certType cert).2 }
  match cert.certType with
  | .notarizeFallback block =>
    pool.track (events ++ [.blockNotarFallback block])
      (fun tracker => tracker.addNewNotarFallbackOrStronger block)
  | .skip slot => pool.track events (fun tracker => tracker.addNewSkip slot)
  | .notarize block => do
    let (pool, events) ← pool.track (events ++ [.blockNotarized block])
      (fun tracker => tracker.addNewNotarFallbackOrStronger block)
    match pool.getFinalizeCert block.slot with
    | some finalizeCert => do
      let pool ← pool.updateHighest (.slow block.slot)
        (fromValidatedSlow store finalizeCert ⟨block, cert.certSignature⟩ rootBank)
      .ok (pool, events ++ [.finalized block false])
    | none => .ok (pool, events)
  | .finalize slot =>
    match pool.getNotarizeCert slot with
    | some notarizeCert => do
      let pool ← pool.updateHighest (.slow slot)
        (fromValidatedSlow store ⟨slot, cert.certSignature⟩ notarizeCert rootBank)
      .ok (pool, events ++ [.finalized notarizeCert.block false])
    | none => .ok (pool, events)
  | .finalizeFast block => do
    let (pool, events) ← pool.track (events ++ [.finalized block true])
      (fun tracker => tracker.addNewNotarFallbackOrStronger block)
    let pool ← pool.updateHighest (.fast block.slot)
      (fromValidatedFast store ⟨block, cert.certSignature⟩ rootBank)
    .ok (pool, events)
  | .genesis block => do
    let phase ← pool.migrationPhase.setGenesisCertificate ⟨block, cert.certSignature⟩
    -- the genesis block can be the root, so the tracker does not compare them
    { pool with migrationPhase := phase }.track events
      (fun tracker => tracker.addNotarFallbackOrStronger block)

def addCerts :
    List (Certificate σ) → ConsensusPool σ → List VotorEvent →
      Except PoolPanic (ConsensusPool σ × List VotorEvent × List (Certificate σ))
  | [], pool, events => .ok (pool, events, [])
  | cert :: certs, pool, events =>
    if cert.certType.slot < rootBank.slot then addCerts certs pool events
    else if pool.completedCertificates.containsKey cert.certType then
      addCerts certs pool events
    else do
      let (pool, events) ← pool.insertCertificate store rootBank cert events
      let (pool, events, newCerts) ← addCerts certs pool events
      .ok (pool, events, cert :: newCerts)

def maybePrune (rootSlot : ℕ) : ConsensusPool σ :=
  if rootSlot ≤ pool.lastPrunedSlot then pool
  else
    { pool with
      completedCertificates := pool.completedCertificates.retain
        (fun certType _ => rootSlot ≤ certType.slot)
      votePools := pool.votePools.splitOff rootSlot
      slotStakeCounters := pool.slotStakeCounters.splitOff rootSlot
      parentReadyTracker := pool.parentReadyTracker.setRoot rootSlot
      pendingSafeToNotar := pool.pendingSafeToNotar.filter (fun block => rootSlot ≤ block.slot)
      lastPrunedSlot := rootSlot }

section Votes

variable [AddCommGroup σ] [DecidableEq σ]

def updateVotePool (pool : ConsensusPool σ) (stakes : EpochStakes) (message : PoolVote σ) :
    ConsensusPool σ × Except AddVoteError (ℕ × Option (Certificate σ)) :=
  let slot := message.vote.slot
  let votePool := (pool.votePools.get? slot).getD (.new stakes.maxValidators)
  let (votePool, result) :=
    votePool.addPoolVote store stakes.totalStake message pool.completedCertificates
  ({ pool with votePools := (pool.votePools.insert slot votePool).2 },
    result.mapError .votePoolAddVote)

/-- Counts a vote; an error of the vote pool leaves the counters as they are. -/
def addPoolVote (pool : ConsensusPool σ) (message : PoolVote σ)
    (events : List VotorEvent) :
    Except PoolPanic
      (ConsensusPool σ × List VotorEvent × Except AddVoteError (Option (Certificate σ))) :=
  let slot := message.vote.slot
  match rootBank.epochStakes slot with
  | none => .ok (pool, events, .error (.epochStakesNotFound rootBank.slot slot))
  | some stakes =>
    if slot < rootBank.slot then .ok (pool, events, .error (.oldMessage slot rootBank.slot))
    else
      match pool.updateVotePool store stakes message with
      | (_, .error (.votePoolAddVote .rankOutOfRange)) => .error .rankOutOfRange
      | (pool, .error error) => .ok (pool, events, .error error)
      | (pool, .ok (entryStake, newCert)) =>
        let counters :=
          (pool.slotStakeCounters.get? slot).getD (.new stakes.totalStake)
        match counters.addVote message.vote entryStake (!message.isExternal)
            ⟨events, pool.pendingSafeToNotar⟩ with
        | .error panic => .error (.counters panic)
        | .ok (counters, raised) =>
          let pool := { pool with
            slotStakeCounters := (pool.slotStakeCounters.insert slot counters).2
            pendingSafeToNotar := raised.pendingSafeToNotar }
          match newCert with
          | none => .ok (pool, raised.events, .ok none)
          | some cert => do
            let (pool, events) ← pool.insertCertificate store rootBank cert raised.events
            .ok (pool, events, .ok (some cert))

end Votes

end ConsensusPool

end RakuraiValidator.Votor
