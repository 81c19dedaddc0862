import RakuraiValidator.VoteRewards

/-!
# Inflation rewards of a delegation

At the end of an epoch every stake delegation earns points from the credits of its vote
account.  In a Tower epoch the points are a claim on the inflation of the epoch.  In an
Alpenglow epoch the credits are lamports already, divided between the delegations of the
vote account.  The epoch of the migration has both parts, separated by a marker.
-/

namespace RakuraiValidator.InflationRewards

open Vote VoteReward

def wrappingSub (a b : ℕ) : ℕ := (a + 2 ^ 64 - b) % 2 ^ 64

def u128Modulus : ℕ := 2 ^ 128

structure PointValue where
  rewards : ℕ
  points : ℕ
deriving DecidableEq

structure Delegation (Pubkey : Type) where
  voterPubkey : Pubkey
  stake : ℕ
  activationEpoch : ℕ
  deactivationEpoch : ℕ
deriving DecidableEq

structure Stake (Pubkey : Type) where
  delegation : Delegation Pubkey
  creditsObserved : ℕ
deriving DecidableEq

structure StakeActivationStatus where
  effective : ℕ
  activating : ℕ
deriving DecidableEq

/-- The warmup and cooldown of stakes under a stake history. -/
structure StakeHistory (Pubkey : Type) where
  delegationEffectiveStake : Delegation Pubkey → ℕ → UInt64
  delegationActivationStatus : Delegation Pubkey → ℕ → StakeActivationStatus

structure RewardEpochDelegatedStakes (Pubkey : Type) where
  epoch : ℕ
  delegatedStakes : Pubkey → Option ℕ

inductive AlpenglowEpochType (Pubkey : Type)
  | tower
  | migrationEpoch (numTowerSlots numAgSlots : ℕ)
      (rewardEpochDelegatedStakes : RewardEpochDelegatedStakes Pubkey)
  | alpenglow (rewardEpochDelegatedStakes : RewardEpochDelegatedStakes Pubkey)

def AlpenglowEpochType.isTower {Pubkey : Type} : AlpenglowEpochType Pubkey → Bool
  | .tower => true
  | _ => false

structure DelegatedVoteState where
  credits : ℕ
  epochCredits : List (ℕ × ℕ × ℕ)
deriving DecidableEq

def DelegatedVoteState.ofEpochCredits (epochCredits : List (ℕ × ℕ × ℕ)) : DelegatedVoteState where
  credits := (epochCredits.getLast?.map fun entry => entry.2.1).getD 0
  epochCredits := epochCredits

structure CalculatedStakePoints where
  towerPoints : ℕ
  agPoints : ℕ
  newCreditsObserved : ℕ
  forceCreditsUpdateWithSkippedReward : Bool
deriving DecidableEq

structure CalculatedStakeRewards where
  stakerRewards : ℕ
  voterRewards : ℕ
  newCreditsObserved : ℕ
deriving DecidableEq

inductive RewardFailure
  | intermediateOverflow
  | zeroPoints
  | towerPartOverflow
  | zeroSlots
  | rewardsTooLarge
deriving DecidableEq

/-! ## Points -/

section Points

variable {Pubkey : Type} (history : StakeHistory Pubkey) (stake : Stake Pubkey)

/-- The credits earned in an epoch and the credits observed after it. -/
def calcEarnedCredits (finalEpochCredits initialEpochCredits newCreditsObserved : ℕ) : ℕ × ℕ :=
  let creditsInStake := stake.creditsObserved
  let earnedCredits :=
    if creditsInStake < initialEpochCredits then
      wrappingSub finalEpochCredits initialEpochCredits
    else if creditsInStake < finalEpochCredits then
      wrappingSub finalEpochCredits newCreditsObserved
    else 0
  (earnedCredits, max newCreditsObserved finalEpochCredits)

/-- The points, the credits observed, whether the marker was seen, and the entries after it. -/
def towerEpochCreditsIter : List (ℕ × ℕ × ℕ) → ℕ → ℕ → ℕ × ℕ × Bool × List (ℕ × ℕ × ℕ)
  | [], points, newCreditsObserved => (points, newCreditsObserved, false, [])
  | entry :: epochCredits, points, newCreditsObserved =>
    if entry = agMigrationEpochCredit then (points, newCreditsObserved, true, epochCredits)
    else
      let (epoch, finalEpochCredits, initialEpochCredits) := entry
      let (earnedCredits, observed) :=
        calcEarnedCredits stake finalEpochCredits initialEpochCredits newCreditsObserved
      let stakeAmount := (history.delegationEffectiveStake stake.delegation epoch).toNat
      towerEpochCreditsIter epochCredits
        ((points + stakeAmount * earnedCredits) % u128Modulus) observed

/-- The reward from one entry of a vote account.  Without a denominator the whole
calculation is given up. -/
def calculateAlpenglowPoints (rewardEpochCredits : Option (ℕ × ℕ × ℕ))
    (stakes : RewardEpochDelegatedStakes Pubkey) : Except CalculatedStakePoints (ℕ × ℕ) :=
  match rewardEpochCredits with
  | none => .ok (0, stake.creditsObserved)
  | some (epoch, finalEpochCredits, initialEpochCredits) =>
    if epoch ≠ stakes.epoch then .ok (0, stake.creditsObserved)
    else
      let (earnedCredits, newCreditsObserved) :=
        calcEarnedCredits stake finalEpochCredits initialEpochCredits stake.creditsObserved
      let stakeAmount := (history.delegationEffectiveStake stake.delegation epoch).toNat
      if earnedCredits = 0 ∨ stakeAmount = 0 then .ok (0, newCreditsObserved)
      else
        match (stakes.delegatedStakes stake.delegation.voterPubkey).filter (· ≠ 0) with
        | none => .error ⟨0, 0, newCreditsObserved, true⟩
        | some totalStake =>
          .ok (earnedCredits * stakeAmount / totalStake, newCreditsObserved)

def calculateMigrationPoints (epochCredits : List (ℕ × ℕ × ℕ))
    (stakes : RewardEpochDelegatedStakes Pubkey) : Except CalculatedStakePoints (ℕ × ℕ × ℕ) :=
  let (towerPoints, towerObserved, sawMarker, rest) :=
    towerEpochCreditsIter history stake epochCredits 0 stake.creditsObserved
  if sawMarker then do
    let (agPoints, agObserved) ← calculateAlpenglowPoints history stake rest.head? stakes
    return (towerPoints, agPoints, max towerObserved agObserved)
  else .ok (towerPoints, 0, max towerObserved stake.creditsObserved)

/-- The points of the kind of the epoch, when there are new credits. -/
def calculateEpochPoints (epochCredits : List (ℕ × ℕ × ℕ)) :
    AlpenglowEpochType Pubkey → Except CalculatedStakePoints (ℕ × ℕ × ℕ)
  | .tower =>
    let (points, credits, _, _) :=
      towerEpochCreditsIter history stake epochCredits 0 stake.creditsObserved
    .ok (points, 0, credits)
  | .migrationEpoch _ _ stakes => calculateMigrationPoints history stake epochCredits stakes
  | .alpenglow stakes => do
    let (agPoints, credits) ←
      calculateAlpenglowPoints history stake epochCredits.getLast? stakes
    return (0, agPoints, credits)

def calculateStakePointsAndCredits (voteState : DelegatedVoteState)
    (epochType : AlpenglowEpochType Pubkey) : CalculatedStakePoints :=
  if voteState.credits < stake.creditsObserved then ⟨0, 0, voteState.credits, true⟩
  else if voteState.credits = stake.creditsObserved then ⟨0, 0, stake.creditsObserved, false⟩
  else
    match calculateEpochPoints history stake voteState.epochCredits epochType with
    | .error skipped => skipped
    | .ok (towerPoints, agPoints, newCreditsObserved) =>
      ⟨towerPoints, agPoints, newCreditsObserved, false⟩

def calculatePointsForTower (voteState : DelegatedVoteState) : ℕ :=
  (calculateStakePointsAndCredits history stake voteState .tower).towerPoints

end Points

/-! ## Commissions -/

def maxBps : ℕ := 10000

/-- The part of the voter, the part of the staker and whether both have a part. -/
def commissionSplit (commissionBps on : ℕ) : ℕ × ℕ × Bool :=
  let split := min commissionBps maxBps
  if split = 0 then (0, on, false)
  else if split = maxBps then (on, 0, false)
  else (on * split / maxBps, on * (maxBps - split) / maxBps, true)

def commissionSplitPreserveLamports (commissionBps on : ℕ) : ℕ × ℕ × Bool :=
  let split := min commissionBps maxBps
  if split = 0 then (0, on, false)
  else if split = maxBps then (on, 0, false)
  else
    let stakerRewards := on * (maxBps - split) / maxBps
    (on - stakerRewards, stakerRewards, true)

/-! ## Rewards -/

structure CalculationEnvironment (Pubkey : Type) where
  rewardedEpoch : ℕ
  pointValue : PointValue
  stakeHistory : StakeHistory Pubkey
  adjustDelegationsForRent : Bool

def checkedMul (failure : RewardFailure) (a b : ℕ) : Except RewardFailure ℕ :=
  if a * b < u128Modulus then .ok (a * b) else .error failure

def checkedDiv (failure : RewardFailure) (a b : ℕ) : Except RewardFailure ℕ :=
  if b = 0 then .error failure else .ok (a / b)

def scalePoints (pointValue : PointValue) (points : ℕ) : Except RewardFailure ℕ := do
  let product ← checkedMul .intermediateOverflow points pointValue.rewards
  checkedDiv .zeroPoints product pointValue.points

def rewardsOfPoints {Pubkey : Type} (pointValue : PointValue) (towerPoints agPoints : ℕ) :
    AlpenglowEpochType Pubkey → Except RewardFailure (Option ℕ)
  | .alpenglow _ => .ok (if agPoints = 0 then none else some agPoints)
  | .tower =>
    if towerPoints = 0 ∨ pointValue.points = 0 then .ok none
    else do
      let rewards ← scalePoints pointValue towerPoints
      return some rewards
  | .migrationEpoch numTowerSlots numAgSlots _ =>
    if towerPoints = 0 ∧ agPoints = 0 then .ok none
    else if agPoints = 0 ∧ pointValue.points = 0 then .ok none
    else do
      let totalSlots := (numTowerSlots + numAgSlots) % 2 ^ 64
      let scaled ← scalePoints pointValue towerPoints
      let product ← checkedMul .towerPartOverflow scaled numTowerSlots
      let towerRewards ← checkedDiv .zeroSlots product totalSlots
      return some ((towerRewards + agPoints) % u128Modulus)

section Rewards

variable {Pubkey : Type}

def splitRewards (voterCommissionBps : ℕ) (isTowerEpoch : Bool) (newCreditsObserved rewards : ℕ) :
    Option CalculatedStakeRewards :=
  let (voterRewards, stakerRewards, isSplit) :=
    if isTowerEpoch then commissionSplit voterCommissionBps rewards
    else commissionSplitPreserveLamports voterCommissionBps rewards
  if (voterRewards = 0 ∨ stakerRewards = 0) ∧ isSplit ∧ isTowerEpoch then none
  else some ⟨stakerRewards, voterRewards, newCreditsObserved⟩

variable (stake : Stake Pubkey) (voterCommissionBps : ℕ) (voteState : DelegatedVoteState)
  (environment : CalculationEnvironment Pubkey) (epochType : AlpenglowEpochType Pubkey)

def calculateStakeRewards (status : StakeActivationStatus) :
    Except RewardFailure (Option CalculatedStakeRewards) :=
  let pointValue := environment.pointValue
  let calculated :=
    calculateStakePointsAndCredits environment.stakeHistory stake voteState epochType
  let newCreditsObserved := calculated.newCreditsObserved
  let forceCreditsUpdate := calculated.forceCreditsUpdateWithSkippedReward ||
    pointValue.rewards = 0 || stake.delegation.activationEpoch = environment.rewardedEpoch
  let skippedReward := some ⟨0, 0, newCreditsObserved⟩
  -- A Tower epoch never moves the observed credits without a reward.
  let skipReward :=
    if !epochType.isTower && (status.effective ≠ 0 || status.activating ≠ 0) &&
        newCreditsObserved ≠ stake.creditsObserved then skippedReward
    else none
  if forceCreditsUpdate then .ok skippedReward
  else do
    match ← rewardsOfPoints pointValue calculated.towerPoints calculated.agPoints epochType with
    | none => return skipReward
    | some rewards =>
      if u64Max < rewards then throw .rewardsTooLarge
      else if rewards = 0 then return skipReward
      else return splitRewards voterCommissionBps epochType.isTower newCreditsObserved rewards

def delegationMayNeedAdjustment (currentDelegation newDelegationWithRewards lamportsWithRewards
    minimumLamports : ℕ) (status : StakeActivationStatus) : Bool :=
  if status.effective = 0 ∧ status.activating = 0 then false
  else
    min newDelegationWithRewards (lamportsWithRewards - minimumLamports) ≠ currentDelegation

def Stake.observe (rewards : Option CalculatedStakeRewards) : Stake Pubkey :=
  match rewards with
  | none => stake
  | some rewards => { stake with creditsObserved := rewards.newCreditsObserved }

def Stake.withDelegated (amount : ℕ) : Stake Pubkey :=
  { stake with delegation := { stake.delegation with stake := amount } }

/-- The rewards of the staker and of the voter, with the stake after the redemption. -/
def redeemStakeRewards (currentLamports minimumLamports : ℕ) :
    Except RewardFailure (Option (ℕ × ℕ) × Stake Pubkey) := do
  let status := environment.stakeHistory.delegationActivationStatus stake.delegation
    environment.rewardedEpoch
  let maybeRewards ← calculateStakeRewards stake voterCommissionBps voteState environment
    epochType status
  let observed := stake.observe maybeRewards
  let stakerRewards := (maybeRewards.map CalculatedStakeRewards.stakerRewards).getD 0
  let voterRewards := (maybeRewards.map CalculatedStakeRewards.voterRewards).getD 0
  if environment.adjustDelegationsForRent then
    let newDelegation := saturatingAdd stake.delegation.stake stakerRewards
    let needsAdjustment := delegationMayNeedAdjustment stake.delegation.stake newDelegation
      (saturatingAdd currentLamports stakerRewards) minimumLamports status
    if needsAdjustment || maybeRewards.isSome then
      return (some (stakerRewards, voterRewards), observed.withDelegated newDelegation)
    else return (none, observed)
  else
    return (maybeRewards.map fun rewards => (rewards.stakerRewards, rewards.voterRewards),
      observed.withDelegated ((stake.delegation.stake + stakerRewards) % 2 ^ 64))

def redeemRewards (currentLamports minimumLamports : ℕ) :
    Except RewardFailure (Option (ℕ × ℕ × Stake Pubkey)) := do
  let (rewards, redeemed) ← redeemStakeRewards stake voterCommissionBps voteState environment
    epochType currentLamports minimumLamports
  return rewards.map fun (stakerRewards, voterRewards) => (stakerRewards, voterRewards, redeemed)

end Rewards

end RakuraiValidator.InflationRewards
