import RakuraiValidator.InflationRewards
import RakuraiValidator.OrderedMap

/-!
# Rewards of an epoch

The first block of an epoch calculates the rewards of all delegations for the epoch before,
in parallel, and pays the commissions.  It checks that no more than the inflation was paid.
-/

namespace RakuraiValidator.InflationRewards

open Vote VoteReward

structure RewardCommission where
  commissionBps : Option ℕ
  commissionLamports : ℕ
  burnedLamports : ℕ
  isVoteAccount : Bool
deriving DecidableEq

structure StakeAccount (Pubkey : Type) where
  stake : Stake Pubkey
  lamports : ℕ
  /-- The rent-exempt minimum for the size of the account. -/
  minimumLamports : ℕ
deriving DecidableEq

structure InflationReward (Pubkey : Type) where
  stake : Stake Pubkey
  stakeReward : ℕ
  commissionBps : Option ℕ

structure InflationRewardWithCommission (Pubkey : Type) where
  inflation : InflationReward Pubkey
  commissionPubkey : Pubkey
  rewardCommission : RewardCommission

structure RewardAccumulation (Pubkey : Type) where
  stakeReward : ℕ
  commission : Option (Pubkey × RewardCommission)

structure RewardInputs (Pubkey : Type) where
  stakeHistory : StakeHistory Pubkey
  stakeDelegations : List (StakeAccount Pubkey)
  /-- The vote accounts of the distribution epoch. -/
  voteAccounts : Pubkey → Option DelegatedVoteState
  /-- The commissions, from an earlier epoch where there is one. -/
  commissionBps : Pubkey → ℕ
  inflationRewardsCollector : Pubkey → Option Pubkey
  blockReward : StakeAccount Pubkey → ℕ
  rewardedEpoch : ℕ
  epochInflationRewards : ℕ
  epochType : AlpenglowEpochType Pubkey
  adjustDelegationsForRent : Bool
  customCommissionCollector : Bool

namespace RewardInputs

variable {Pubkey : Type} [DecidableEq Pubkey] (inputs : RewardInputs Pubkey)

def towerPoints (account : StakeAccount Pubkey) : ℕ :=
  match inputs.voteAccounts account.stake.delegation.voterPubkey with
  | none => 0
  | some voteState => calculatePointsForTower inputs.stakeHistory account.stake voteState

def calculateRewardPointsPartitioned : Option PointValue :=
  match inputs.epochType with
  | .alpenglow _ => some ⟨inputs.epochInflationRewards, 0⟩
  | _ =>
    let points := (inputs.stakeDelegations.map inputs.towerPoints).sum % u128Modulus
    if 0 < points then some ⟨inputs.epochInflationRewards, points⟩ else none

def environment (pointValue : PointValue) : CalculationEnvironment Pubkey where
  rewardedEpoch := inputs.rewardedEpoch
  pointValue := pointValue
  stakeHistory := inputs.stakeHistory
  adjustDelegationsForRent := inputs.adjustDelegationsForRent

def redeemWithoutVoteAccount (account : StakeAccount Pubkey) :
    Option (InflationRewardWithCommission Pubkey) :=
  let stake := account.stake
  let status := inputs.stakeHistory.delegationActivationStatus stake.delegation
    inputs.rewardedEpoch
  let commissionBps := if inputs.customCommissionCollector then none else some 0
  if inputs.adjustDelegationsForRent && delegationMayNeedAdjustment stake.delegation.stake
      stake.delegation.stake account.lamports account.minimumLamports status then
    some ⟨⟨stake, 0, commissionBps⟩, stake.delegation.voterPubkey, ⟨commissionBps, 0, 0, false⟩⟩
  else none

variable (pointValue : PointValue) (account : StakeAccount Pubkey)

def redeemDelegationRewards :
    Except RewardFailure (Option (InflationRewardWithCommission Pubkey)) :=
  let votePubkey := account.stake.delegation.voterPubkey
  match inputs.voteAccounts votePubkey with
  | none => .ok (inputs.redeemWithoutVoteAccount account)
  | some voteState => do
    let bps := inputs.commissionBps votePubkey
    let commissionBps := if inputs.customCommissionCollector then none else some bps
    let (commissionPubkey, isVoteAccount) :=
      if inputs.customCommissionCollector then
        let collector := (inputs.inflationRewardsCollector votePubkey).getD votePubkey
        (collector, decide (collector = votePubkey))
      else (votePubkey, true)
    let redeemed ← redeemRewards account.stake bps voteState (inputs.environment pointValue)
      inputs.epochType account.lamports account.minimumLamports
    return redeemed.map fun (stakeReward, commissionLamports, stake) =>
      ⟨⟨stake, stakeReward, commissionBps⟩, commissionPubkey,
        ⟨commissionBps, commissionLamports, 0, isVoteAccount⟩⟩

def rewardRecord :
    Except RewardFailure (Option (RewardAccumulation Pubkey)) := do
  match ← inputs.redeemDelegationRewards pointValue account with
  | some reward =>
    return some ⟨reward.inflation.stakeReward,
      some (reward.commissionPubkey, reward.rewardCommission)⟩
  | none => return if inputs.blockReward account = 0 then none else some ⟨0, none⟩

end RewardInputs

/-! ## Accumulation -/

def accumulateLamports (src dst : RewardCommission) : RewardCommission :=
  match src.isVoteAccount, dst.isVoteAccount with
  | false, true =>
    { dst with
      burnedLamports := saturatingAdd (saturatingAdd dst.burnedLamports src.commissionLamports)
        src.burnedLamports }
  | true, false =>
    { dst with
      isVoteAccount := true
      burnedLamports := saturatingAdd (saturatingAdd dst.burnedLamports dst.commissionLamports)
        src.burnedLamports
      commissionLamports := src.commissionLamports }
  | _, _ =>
    { dst with
      commissionLamports := saturatingAdd dst.commissionLamports src.commissionLamports
      burnedLamports := saturatingAdd dst.burnedLamports src.burnedLamports }

structure RewardsAccumulator (Pubkey : Type) [LinearOrder Pubkey] where
  rewardCommissions : BTreeMap Pubkey RewardCommission
  numStakeRewards : ℕ
  totalStakeRewardsLamports : ℕ

/-- How the parallel calculation is cut into chunks and put together again. -/
inductive Reduction (α : Type)
  | chunk (items : List α)
  | merge (left right : Reduction α)

def Reduction.items {α : Type} : Reduction α → List α
  | .chunk items => items
  | .merge left right => left.items ++ right.items

variable {Pubkey : Type} [LinearOrder Pubkey]

variable (commissions : BTreeMap Pubkey RewardCommission)

def addCommission (entry : Pubkey × RewardCommission) : BTreeMap Pubkey RewardCommission :=
  match commissions.get? entry.1 with
  | none => (commissions.insert entry.1 entry.2).2
  | some present => (commissions.insert entry.1 (accumulateLamports entry.2 present)).2

namespace RewardsAccumulator

def new : RewardsAccumulator Pubkey := ⟨BTreeMap.empty, 0, 0⟩

def addReward (accumulator : RewardsAccumulator Pubkey) (reward : RewardAccumulation Pubkey) :
    RewardsAccumulator Pubkey where
  rewardCommissions := reward.commission.elim accumulator.rewardCommissions
    (addCommission accumulator.rewardCommissions)
  numStakeRewards := saturatingAdd accumulator.numStakeRewards 1
  totalStakeRewardsLamports :=
    saturatingAdd accumulator.totalStakeRewardsLamports reward.stakeReward

def mergeInto (src dst : RewardsAccumulator Pubkey) : RewardsAccumulator Pubkey where
  rewardCommissions := src.rewardCommissions.entries.foldl addCommission dst.rewardCommissions
  numStakeRewards := saturatingAdd dst.numStakeRewards src.numStakeRewards
  totalStakeRewardsLamports :=
    saturatingAdd dst.totalStakeRewardsLamports src.totalStakeRewardsLamports

def accumulateIntoLarger (left right : RewardsAccumulator Pubkey) : RewardsAccumulator Pubkey :=
  if right.rewardCommissions.entries.length ≤ left.rewardCommissions.entries.length then
    right.mergeInto left
  else left.mergeInto right

end RewardsAccumulator

namespace RewardInputs

variable (inputs : RewardInputs Pubkey)

def accumulateAccount (pointValue : PointValue) (accumulator : RewardsAccumulator Pubkey)
    (account : StakeAccount Pubkey) : Except RewardFailure (RewardsAccumulator Pubkey) := do
  let reward ← inputs.rewardRecord pointValue account
  return reward.elim accumulator accumulator.addReward

def accumulate (pointValue : PointValue) :
    Reduction (StakeAccount Pubkey) → Except RewardFailure (RewardsAccumulator Pubkey)
  | .chunk accounts => accounts.foldlM (inputs.accumulateAccount pointValue) .new
  | .merge left right => do
    let left ← accumulate pointValue left
    let right ← accumulate pointValue right
    return left.accumulateIntoLarger right

def calculateValidatorRewards (reduction : Reduction (StakeAccount Pubkey)) :
    Except RewardFailure (PointValue × RewardsAccumulator Pubkey) :=
  match inputs.calculateRewardPointsPartitioned with
  | none => .ok (⟨0, 0⟩, .new)
  | some pointValue => do
    let accumulator ← inputs.accumulate pointValue reduction
    return (pointValue, accumulator)

end RewardInputs

/-! ## Distribution of the commissions -/

inductive ExternalCollectorType
  | systemAccount
  | incinerator
deriving DecidableEq

structure RewardCommissionLamportAmounts where
  distributedLamports : ℕ
  distributedToIncineratorLamports : ℕ
  burnedLamports : ℕ

structure CommissionAccounts (Pubkey : Type) where
  lamports : Pubkey → Option ℕ
  /-- `none` where the account is no valid collector. -/
  collectorTypeChecked : Pubkey → ℕ → ℕ → Option ExternalCollectorType
  customCommissionCollector : Bool

structure CommissionOutcome where
  rewarded : ℕ
  incinerated : ℕ
  burned : ℕ

variable (accounts : CommissionAccounts Pubkey)

def CommissionAccounts.outcome (pubkey : Pubkey) (commission : RewardCommission) :
    CommissionOutcome :=
  match accounts.lamports pubkey, accounts.customCommissionCollector with
  | none, false => ⟨0, 0, 0⟩
  | present, _ =>
    let preLamports := present.getD 0
    let lamports := commission.commissionLamports
    let burned := commission.burnedLamports
    if u64Max < preLamports + lamports then ⟨0, 0, burned + lamports⟩
    else if commission.isVoteAccount then ⟨lamports, 0, burned⟩
    else
      match accounts.collectorTypeChecked pubkey preLamports (preLamports + lamports) with
      | some .systemAccount => ⟨lamports, 0, burned⟩
      | some .incinerator => ⟨lamports, lamports, burned⟩
      | none => ⟨0, 0, burned + lamports⟩

def CommissionAccounts.loadAndRewardCommissionAccounts : RewardCommissionLamportAmounts :=
  let outcomes := commissions.entries.map fun entry => accounts.outcome entry.1 entry.2
  let incinerated := (outcomes.map CommissionOutcome.incinerated).sum
  { distributedLamports := (outcomes.map CommissionOutcome.rewarded).sum - incinerated
    distributedToIncineratorLamports := incinerated
    burnedLamports := (outcomes.map CommissionOutcome.burned).sum }

def distributionWithinRewards (pointValue : PointValue) (accumulator : RewardsAccumulator Pubkey) :
    Prop :=
  let amounts := accounts.loadAndRewardCommissionAccounts accumulator.rewardCommissions
  amounts.distributedLamports + amounts.distributedToIncineratorLamports +
    amounts.burnedLamports + accumulator.totalStakeRewardsLamports ≤ pointValue.rewards

end RakuraiValidator.InflationRewards
