import RakuraiValidator.OrderedMap

/-!
# Reward distribution configuration

A validator configures its commission, custom commissions with referrals, excluded stakers
and a split of what remains.  Values outside their range are lowered before the rewards are
distributed.
-/

namespace RakuraiValidator.BlockRewards

def maxCommissionBps : UInt32 := 10000

structure CommissionConfig (Text : Type) where
  commissionBps : UInt32
  referralClaimantPubkey : Option Text
  referralClaimantCommissionBps : Option UInt32

structure StakersConfig (Text : Type) [LinearOrder Text] where
  excludedStakePubkeys : Option (List Text)
  customCommissions : Option (BTreeMap Text (CommissionConfig Text))

structure ValidatorRewardSplit (Text : Type) where
  claimantPubkey : Text
  claimantCommissionBps : UInt32

structure ValidatorConfig (Text : Type) [LinearOrder Text] where
  stakers : Option (StakersConfig Text)
  validatorCommissionBps : Option UInt32
  validatorRewardSplit : Option (ValidatorRewardSplit Text)

namespace CommissionConfig

variable {Text : Type}

variable (effectiveCommission : UInt32) (cfg : CommissionConfig Text)

/-- A commission above the maximum becomes the maximum, not the validator's commission. -/
def clamp : CommissionConfig Text :=
  if maxCommissionBps < cfg.commissionBps then { cfg with commissionBps := maxCommissionBps }
  else if effectiveCommission < cfg.commissionBps then
    { cfg with commissionBps := effectiveCommission }
  else cfg

def cleanReferral (cfg : CommissionConfig Text) : CommissionConfig Text :=
  match cfg.referralClaimantCommissionBps with
  | some bps =>
    if bps = 0 ∨ cfg.referralClaimantPubkey.isNone then
      { cfg with referralClaimantCommissionBps := none, referralClaimantPubkey := none }
    else cfg
  | none => cfg

def isRedundant : Bool :=
  cfg.commissionBps = effectiveCommission && cfg.referralClaimantPubkey.isNone &&
    cfg.referralClaimantCommissionBps.isNone

def normalize : CommissionConfig Text :=
  (cfg.clamp effectiveCommission).cleanReferral

end CommissionConfig

variable {Text : Type} [LinearOrder Text]

def StakersConfig.commissionOf (stakers : StakersConfig Text) (stakeAccount : Text) :
    Option (CommissionConfig Text) :=
  stakers.customCommissions.bind fun commissions => commissions.get? stakeAccount

def StakersConfig.normalize (effectiveCommission : UInt32) (stakers : StakersConfig Text) :
    StakersConfig Text :=
  match stakers.customCommissions with
  | none => stakers
  | some customCommissions =>
    let kept := (customCommissions.mapValues (CommissionConfig.normalize effectiveCommission)).retain
      fun _ cfg => !cfg.isRedundant effectiveCommission
    { stakers with customCommissions := if kept.isEmpty then none else some kept }

def ValidatorRewardSplit.normalize (split : ValidatorRewardSplit Text) :
    Option (ValidatorRewardSplit Text) :=
  let clamped := if maxCommissionBps < split.claimantCommissionBps then
    { split with claimantCommissionBps := maxCommissionBps } else split
  if clamped.claimantCommissionBps = 0 then none else some clamped

namespace ValidatorConfig

/-- The configured commission, at most the maximum and at most the one on chain. -/
def clampCommission (onChain commission : UInt32) : UInt32 :=
  let commission := if maxCommissionBps < commission then maxCommissionBps else commission
  if onChain < commission then onChain else commission

def validateAndNormalize (self : ValidatorConfig Text) (onChain : UInt32) : ValidatorConfig Text :=
  let commission := self.validatorCommissionBps.map (clampCommission onChain)
  match self.stakers with
  | none => { self with validatorCommissionBps := commission }
  | some stakers =>
    { stakers := some (stakers.normalize (commission.getD onChain))
      validatorCommissionBps := commission
      validatorRewardSplit := self.validatorRewardSplit.bind ValidatorRewardSplit.normalize }

end ValidatorConfig

end RakuraiValidator.BlockRewards
