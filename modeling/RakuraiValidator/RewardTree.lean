import RakuraiValidator.RewardDistributionConfig

/-!
# Reward tree

The nodes of a validator's reward tree: one for the expenses, for each delegation one node
and possibly one for its referral, and one or two for what is left to the validator.
-/

namespace RakuraiValidator.BlockRewards

structure Delegation (Pubkey : Type) where
  stakeAccountPubkey : Pubkey
  stakerPubkey : Pubkey
  withdrawerPubkey : Pubkey
  lamportsDelegated : UInt64

structure RewardDistributionMeta (Pubkey : Type) where
  merkleRootUploadAuthority : Pubkey
  rewardDistributionPubkey : Pubkey
  totalRewards : UInt64
  validatorFeeBps : UInt16

structure StakeMeta (Pubkey : Type) where
  validatorNodePubkey : Pubkey
  maybeRewardDistributionMeta : Option (RewardDistributionMeta Pubkey)
  delegations : List (Delegation Pubkey)
  totalDelegated : UInt64

structure TreeNode (Pubkey : Type) where
  stakeAccountPubkey : Pubkey
  claimant : Pubkey
  claimStatusPubkey : Pubkey
  claimStatusBump : ℕ
  stakerPubkey : Pubkey
  withdrawerPubkey : Pubkey
  activeStake : ℕ
  amount : ℕ
  isExcluded : Bool
  priority : ℕ
deriving DecidableEq

inductive MerkleRootGeneratorError
  | mathOverflow
deriving DecidableEq

inductive DistributionPanic
  | unwrapNone
  | subtractOverflow
  | distributedAmountGreater
deriving DecidableEq

/-- Public keys with their texts and the program addresses derived from them. -/
structure Keys (Pubkey Text : Type) where
  default : Pubkey
  toText : Pubkey → Text
  fromStr : Text → Option Pubkey
  /-- The claim status address of a claimant and a reward account, with its bump. -/
  findProgramAddress : Pubkey → Pubkey → Pubkey × ℕ
  fromStr_toText : ∀ key, fromStr (toText key) = some key

section Checked

def checkedMul (a b : ℕ) : Except DistributionPanic ℕ :=
  if a * b < 2 ^ 128 then .ok (a * b) else .error .unwrapNone

def checkedDiv (a b : ℕ) : Except DistributionPanic ℕ :=
  if b = 0 then .error .unwrapNone else .ok (a / b)

def checkedSub (a b : ℕ) : Except DistributionPanic ℕ :=
  if b ≤ a then .ok (a - b) else .error .unwrapNone

def asU64 (a : ℕ) : ℕ := a % 2 ^ 64

end Checked

section Tree

variable {Pubkey Text : Type} [LinearOrder Text]

def stakerShare (lamportsDelegated remainingRewards totalDelegated commissionBps : ℕ) :
    Except DistributionPanic ℕ := do
  let product ← checkedMul lamportsDelegated remainingRewards
  let baseShare ← checkedDiv product totalDelegated
  if maxCommissionBps.toNat < commissionBps then .error .subtractOverflow
  let scaled ← checkedMul baseShare (maxCommissionBps.toNat - commissionBps)
  let share ← checkedDiv scaled 10000
  return asU64 share

variable (keys : Keys Pubkey Text)

def isExcluded (stakers : StakersConfig Text) (delegation : Delegation Pubkey) : Bool :=
  match stakers.excludedStakePubkeys with
  | none => false
  | some excluded => excluded.contains (keys.toText delegation.stakeAccountPubkey) ||
      excluded.contains (keys.toText delegation.stakerPubkey)

def closeInstrPerTxn : ℕ := 4

variable (stakeMeta : StakeMeta Pubkey)

def calculateTotalExpenseAmount (validatorConfig : Option (ValidatorConfig Text)) : ℕ :=
  let stakers := validatorConfig.bind ValidatorConfig.stakers
  let referrals := match stakers.bind StakersConfig.customCommissions with
    | none => 0
    | some commissions => commissions.values.countP fun c => c.referralClaimantPubkey.isSome
  let excluded := match stakers with
    | none => 0
    | some stakers => stakeMeta.delegations.countP (isExcluded keys stakers)
  let split := match validatorConfig.bind ValidatorConfig.validatorRewardSplit with
    | none => 0
    | some split => (if 0 < split.claimantCommissionBps then 1 else 0) +
        (if split.claimantCommissionBps < maxCommissionBps then 1 else 0)
  let claimTransactions := stakeMeta.delegations.length + 1 + referrals - excluded + split
  let closeTransactions :=
    (claimTransactions + (closeInstrPerTxn - 1)) / closeInstrPerTxn + 1
  (1 + claimTransactions + closeTransactions) * 5000

def plainNode (rewardAccount stakeAccount claimant : Pubkey) (activeStake amount : ℕ) :
    TreeNode Pubkey where
  stakeAccountPubkey := stakeAccount
  claimant := claimant
  claimStatusPubkey := (keys.findProgramAddress claimant rewardAccount).1
  claimStatusBump := (keys.findProgramAddress claimant rewardAccount).2
  stakerPubkey := keys.default
  withdrawerPubkey := keys.default
  activeStake := activeStake
  amount := amount
  isExcluded := false
  priority := 0

structure Distribution (Pubkey Text : Type) [LinearOrder Text] where
  keys : Keys Pubkey Text
  rewardAccount : Pubkey
  stakeAccountOfInterest : Pubkey → Option Pubkey
  stakers : Option (StakersConfig Text)
  remainingRewards : ℕ
  totalDelegated : ℕ
  validatorCommissionBps : ℕ

namespace Distribution

variable (self : Distribution Pubkey Text)

variable (delegation : Delegation Pubkey)

def excludes : Bool :=
  self.stakers.any fun stakers => isExcluded self.keys stakers delegation

def customCommission : Option (CommissionConfig Text) :=
  if self.excludes delegation then none
  else self.stakers.bind fun stakers =>
    stakers.commissionOf (self.keys.toText delegation.stakeAccountPubkey)

/-- What is left to the staker, what is taken from the rewards, and the referral's node. -/
def customShare (commission : CommissionConfig Text) :
    Except DistributionPanic (ℕ × ℕ × List (TreeNode Pubkey)) := do
  let share ← stakerShare delegation.lamportsDelegated.toNat self.remainingRewards
    self.totalDelegated commission.commissionBps.toNat
  match commission.referralClaimantPubkey, commission.referralClaimantCommissionBps with
  | some referralPubkeyStr, some referralBps =>
    match self.keys.fromStr referralPubkeyStr with
    | none => .error .unwrapNone
    | some referralPubkey => do
      let product ← checkedMul share referralBps.toNat
      let referralShare ← checkedDiv product 10000
      let left ← checkedSub share referralShare
      return (asU64 left, share,
        [plainNode self.keys self.rewardAccount referralPubkey referralPubkey
          delegation.lamportsDelegated.toNat (asU64 referralShare)])
  | _, _ => return (share, share, [])

def claimantOf : Pubkey :=
  (self.stakeAccountOfInterest delegation.stakeAccountPubkey).getD delegation.stakeAccountPubkey

def delegationNode (amount : ℕ) : TreeNode Pubkey where
  stakeAccountPubkey := delegation.stakeAccountPubkey
  claimant := self.claimantOf delegation
  claimStatusPubkey := (self.keys.findProgramAddress (self.claimantOf delegation)
    self.rewardAccount).1
  claimStatusBump := (self.keys.findProgramAddress (self.claimantOf delegation)
    self.rewardAccount).2
  stakerPubkey := delegation.stakerPubkey
  withdrawerPubkey := delegation.withdrawerPubkey
  activeStake := delegation.lamportsDelegated.toNat
  amount := amount
  isExcluded := self.excludes delegation
  priority := if (self.stakeAccountOfInterest delegation.stakeAccountPubkey).isSome then 1 else 0

/-- A share of zero stands for a delegation which has not been handled yet, so the standard
share is also given to a staker whose custom share is zero. -/
def distributeDelegation :
    Except DistributionPanic (List (TreeNode Pubkey) × ℕ) := do
  let (share, eligible, nodes) ← match self.customCommission delegation with
    | none => (.ok (0, 0, []) : Except DistributionPanic (ℕ × ℕ × List (TreeNode Pubkey)))
    | some commission => self.customShare delegation commission
  if share = 0 ∧ self.excludes delegation = false then
    let share ← stakerShare delegation.lamportsDelegated.toNat self.remainingRewards
      self.totalDelegated self.validatorCommissionBps
    return (nodes ++ [self.delegationNode delegation share], eligible + share)
  else
    return (nodes ++ [self.delegationNode delegation share], eligible)

def distributeDelegations :
    List (Delegation Pubkey) → Except DistributionPanic (List (TreeNode Pubkey) × ℕ)
  | [] => .ok ([], 0)
  | delegation :: delegations => do
    let (nodes, eligible) ← self.distributeDelegation delegation
    let (rest, eligibleRest) ← distributeDelegations delegations
    return (nodes ++ rest, eligible + eligibleRest)

def distributeStakers (delegations : List (Delegation Pubkey)) :
    Except DistributionPanic (List (TreeNode Pubkey) × ℕ) :=
  if self.validatorCommissionBps < maxCommissionBps.toNat then
    self.distributeDelegations delegations
  else .ok ([], 0)

end Distribution

def validatorNodes (rewardAccount identity : Pubkey)
    (split : Option (ValidatorRewardSplit Text)) (validatorTotal : ℕ) :
    Except DistributionPanic (List (TreeNode Pubkey)) :=
  match split with
  | none => .ok [plainNode keys rewardAccount identity identity 0 (asU64 validatorTotal)]
  | some split => do
    let product ← checkedMul validatorTotal split.claimantCommissionBps.toNat
    let claimantAmount ← checkedDiv product 10000
    match keys.fromStr split.claimantPubkey with
    | none => .error .unwrapNone
    | some claimant => do
      let claimantNode :=
        plainNode keys rewardAccount keys.default claimant 0 (asU64 claimantAmount)
      if split.claimantCommissionBps ≠ maxCommissionBps then
        let validatorSplit ← checkedSub validatorTotal claimantAmount
        return [claimantNode,
          plainNode keys rewardAccount identity identity 0 (asU64 validatorSplit)]
      else return [claimantNode]

def distributionOf (distributionMeta : RewardDistributionMeta Pubkey)
    (stakeAccountOfInterest : Pubkey → Option Pubkey) (config : Option (ValidatorConfig Text)) :
    Distribution Pubkey Text where
  keys := keys
  rewardAccount := distributionMeta.rewardDistributionPubkey
  stakeAccountOfInterest := stakeAccountOfInterest
  stakers := config.bind ValidatorConfig.stakers
  remainingRewards :=
    distributionMeta.totalRewards.toNat - calculateTotalExpenseAmount keys stakeMeta config
  totalDelegated := stakeMeta.totalDelegated.toNat
  validatorCommissionBps := ((config.bind ValidatorConfig.validatorCommissionBps).getD
    distributionMeta.validatorFeeBps.toUInt32).toNat

def vecFromStakeMetaWithConfig (stakeAccountOfInterest : Pubkey → Option Pubkey)
    (validatorConfig : Option (ValidatorConfig Text)) :
    Except DistributionPanic
      (Except MerkleRootGeneratorError (Option (List (TreeNode Pubkey) × ℕ))) :=
  match stakeMeta.maybeRewardDistributionMeta with
  | none => .ok (.ok none)
  | some distributionMeta =>
    let config := validatorConfig.map fun cfg =>
      cfg.validateAndNormalize distributionMeta.validatorFeeBps.toUInt32
    let expenseAmount := calculateTotalExpenseAmount keys stakeMeta config
    if distributionMeta.totalRewards.toNat < expenseAmount then .ok (.error .mathOverflow)
    else do
      let distribution :=
        distributionOf keys stakeMeta distributionMeta stakeAccountOfInterest config
      let (nodes, eligibleStakersRewards) ←
        distribution.distributeStakers stakeMeta.delegations
      let validator ← validatorNodes keys distribution.rewardAccount
        stakeMeta.validatorNodePubkey (config.bind ValidatorConfig.validatorRewardSplit)
        (distribution.remainingRewards - eligibleStakersRewards)
      let treeNodes := plainNode keys distribution.rewardAccount
        distributionMeta.merkleRootUploadAuthority distributionMeta.merkleRootUploadAuthority
        0 expenseAmount :: (nodes ++ validator)
      -- The sum of 64-bit amounts wraps.
      if distributionMeta.totalRewards.toNat < asU64 (treeNodes.map TreeNode.amount).sum then
        .error .distributedAmountGreater
      else return .ok (some (treeNodes, distribution.validatorCommissionBps))

end Tree

end RakuraiValidator.BlockRewards
