import RakuraiValidator.VoteStateHandler

/-!
# Voting rewards

A bank credits the validators of a reward certificate with their share of the inflation of
a slot.  Half of each share goes to the leader of the bank, who is paid after all
validators.  Validators of a finalization certificate only have their votes and roots
updated.
-/

namespace RakuraiValidator.VoteReward

open Vote

def agMigrationEpochCredit : ℕ × ℕ × ℕ := (u64Max, u64Max, u64Max)

structure EpochInflationState where
  maxPossibleValidatorReward : UInt64
  slotsPerEpoch : UInt64

inductive UpdateFailure (Pubkey : Type)
  | missingRewardSlotValidator (pubkey : Pubkey) (rewardSlot bankSlot : ℕ)
  | divisionByZero
  | rewardTooLarge
  | repeatedMarker
deriving DecidableEq

def calculateReward {Pubkey : Type} (epochState : EpochInflationState)
    (totalStake validatorStake : ℕ) : Except (UpdateFailure Pubkey) (ℕ × ℕ) :=
  let numerator := epochState.maxPossibleValidatorReward.toNat * validatorStake
  let denominator := epochState.slotsPerEpoch.toNat * totalStake
  if denominator = 0 then .error .divisionByZero
  else
    let reward := numerator / denominator
    if u64Max < reward then .error .rewardTooLarge
    else .ok (reward / 2, reward - reward / 2)

variable (epochCredits : List (ℕ × ℕ × ℕ))

def ensureMarker : List (ℕ × ℕ × ℕ) :=
  if agMigrationEpochCredit ∈ epochCredits then epochCredits
  else epochCredits ++ [agMigrationEpochCredit]

def trimHistory : List (ℕ × ℕ × ℕ) :=
  epochCredits.drop (epochCredits.length - maxEpochCreditsHistory)

def saturatingAdd (a b : ℕ) : ℕ := min (a + b) u64Max

def addCredits {Pubkey : Type} (epoch newCredits : ℕ) :
    Except (UpdateFailure Pubkey) (List (ℕ × ℕ × ℕ)) :=
  match epochCredits.getLast? with
  | none => .ok [(epoch, newCredits, 0)]
  | some (entryEpoch, finalCredits, initialCredits) =>
    if (entryEpoch, finalCredits, initialCredits) = agMigrationEpochCredit then
      match epochCredits.dropLast.getLast? with
      | none => .ok (trimHistory (epochCredits ++ [(epoch, newCredits, 0)]))
      | some previous =>
        if previous = agMigrationEpochCredit then .error .repeatedMarker
        else .ok (trimHistory (epochCredits ++
          [(epoch, saturatingAdd newCredits previous.2.1, previous.2.1)]))
    else if entryEpoch = epoch ∨ finalCredits = initialCredits then
      .ok (epochCredits.dropLast ++
        [(epoch, saturatingAdd finalCredits newCredits, initialCredits)])
    else .ok (trimHistory (epochCredits ++
      [(epoch, saturatingAdd newCredits finalCredits, finalCredits)]))

variable (handler : VoteStateHandler)

def incrementCredits {Pubkey : Type} (migrationEpoch epoch newCredits : ℕ) :
    Except (UpdateFailure Pubkey) VoteStateHandler := do
  let marked :=
    if epoch = migrationEpoch then ensureMarker handler.epochCredits else handler.epochCredits
  let epochCredits ← addCredits marked epoch newCredits
  return { handler with epochCredits := epochCredits }

def maybeUpdateVotes (slot : ℕ) (slotTimestampNs : ℤ) : VoteStateHandler :=
  let latestVotedSlot := max (max slot (handler.lastVotedSlot.getD 0)) (handler.rootSlot.getD 0)
  let timestamp := slotTimestampNs.tdiv 1000000000
  { handler with
    votes := [⟨0, Lockout.new latestVotedSlot⟩]
    lastTimestamp :=
      if handler.lastTimestamp.timestamp < timestamp then ⟨slot, timestamp⟩
      else handler.lastTimestamp }

def maybeUpdateRoot (slot : ℕ) : VoteStateHandler :=
  { handler with rootSlot := some (max (handler.rootSlot.getD slot) slot) }

structure RewardState (Pubkey : Type) where
  rewardSlotTimestampNs : ℤ
  currentEpoch : ℕ
  rewardSlot : ℕ
  rewardValidators : Finset Pubkey
  bankSlot : ℕ
  leaderVotePubkey : Pubkey
  /-- The stakes at the reward slot. -/
  accounts : Pubkey → Option UInt64
  totalStake : UInt64
  epochInflationState : EpochInflationState
  migrationEpoch : ℕ

structure FinalCertState (Pubkey : Type) where
  signers : Finset Pubkey
  finalSlot : ℕ
  finalSlotTimestampNs : ℤ

variable {Pubkey : Type} [DecidableEq Pubkey]

namespace RewardState

def calculateReward (self : RewardState Pubkey) (validator : Pubkey) :
    Except (UpdateFailure Pubkey) (ℕ × ℕ) :=
  match self.accounts validator with
  | none => .error (.missingRewardSlotValidator validator self.rewardSlot self.bankSlot)
  | some stake =>
    VoteReward.calculateReward self.epochInflationState self.totalStake.toNat stake.toNat

def credit (self : RewardState Pubkey) (handler : VoteStateHandler) (reward : ℕ) :
    Except (UpdateFailure Pubkey) VoteStateHandler :=
  if reward = 0 then .ok handler
  else incrementCredits handler self.migrationEpoch self.currentEpoch reward

/-- The updated state, unless the validator is not rewarded, and the accumulated reward of
the leader. -/
def updateAccount (self : RewardState Pubkey) (votePubkey : Pubkey) (handler : VoteStateHandler)
    (leaderReward : ℕ) : Except (UpdateFailure Pubkey) (VoteStateHandler × ℕ × Bool) :=
  if votePubkey ∈ self.rewardValidators then do
    let voted := maybeUpdateVotes handler self.rewardSlot self.rewardSlotTimestampNs
    let (validatorReward, leader) ← self.calculateReward votePubkey
    let credited ← self.credit voted validatorReward
    return (credited, saturatingAdd leaderReward leader, true)
  else .ok (handler, leaderReward, false)

end RewardState

def FinalCertState.updateAccount (self : FinalCertState Pubkey) (votePubkey : Pubkey)
    (handler : VoteStateHandler) : VoteStateHandler × Bool :=
  if votePubkey ∈ self.signers then
    (maybeUpdateVotes (maybeUpdateRoot handler self.finalSlot) self.finalSlot
      self.finalSlotTimestampNs, true)
  else (handler, false)

/-- The inputs of a bank.  A vote account which is missing or cannot be read is `none`. -/
structure BankInputs (Pubkey : Type) where
  rewardState : Option (RewardState Pubkey)
  finalCertState : Option (FinalCertState Pubkey)
  voteAccounts : Pubkey → Option VoteStateHandler
  /-- The updated state fits into the account. -/
  serializes : Pubkey → VoteStateHandler → Bool

namespace BankInputs

variable (self : BankInputs Pubkey)

def updateReward (votePubkey : Pubkey) (handler : VoteStateHandler) (leaderReward : ℕ) :
    Except (UpdateFailure Pubkey) (VoteStateHandler × ℕ × Bool) :=
  match self.rewardState with
  | none => .ok (handler, leaderReward, false)
  | some state => state.updateAccount votePubkey handler leaderReward

def updateFinal (votePubkey : Pubkey) (handler : VoteStateHandler) : VoteStateHandler × Bool :=
  match self.finalCertState with
  | none => (handler, false)
  | some state => state.updateAccount votePubkey handler

def updateValidator (state : (Pubkey → Option VoteStateHandler) × ℕ) (validator : Pubkey) :
    Except (UpdateFailure Pubkey) ((Pubkey → Option VoteStateHandler) × ℕ) :=
  match self.voteAccounts validator with
  | none => .ok state
  | some handler => do
    let (rewarded, leaderReward, rewardUpdated) ←
      self.updateReward validator handler state.2
    let (final, finalUpdated) := self.updateFinal validator rewarded
    if rewardUpdated || finalUpdated then
      return (Function.update state.1 validator (some final), leaderReward)
    else return (state.1, leaderReward)

variable (updated : Pubkey → Option VoteStateHandler)

def payLeader (leaderReward : ℕ) :
    Except (UpdateFailure Pubkey) (Pubkey → Option VoteStateHandler) :=
  match self.rewardState with
  | none => .ok updated
  | some state =>
    if leaderReward = 0 then .ok updated
    else
      match (updated state.leaderVotePubkey).or (self.voteAccounts state.leaderVotePubkey) with
      | none => .ok updated
      | some handler => do
        let credited ← incrementCredits handler state.migrationEpoch state.currentEpoch
          leaderReward
        return Function.update updated state.leaderVotePubkey (some credited)

def updateAccounts (validators : List Pubkey) :
    Except (UpdateFailure Pubkey) (Pubkey → Option VoteStateHandler) := do
  let (updated, leaderReward) ← validators.foldlM self.updateValidator (fun _ => none, 0)
  self.payLeader updated leaderReward

def store (votePubkey : Pubkey) : Option VoteStateHandler :=
  match updated votePubkey with
  | none => self.voteAccounts votePubkey
  | some handler =>
    if self.serializes votePubkey handler then some handler else self.voteAccounts votePubkey

def validators : Finset Pubkey :=
  (self.rewardState.map RewardState.rewardValidators).getD ∅ ∪
    (self.finalCertState.map FinalCertState.signers).getD ∅

/-- The vote accounts after the bank, where the validators are visited in the given order. -/
def calcVoteRewardsUpdateVoteStates (order : List Pubkey) :
    Except (UpdateFailure Pubkey) (Pubkey → Option VoteStateHandler) := do
  let updated ← self.updateAccounts order
  return self.store updated

end BankInputs

end RakuraiValidator.VoteReward
