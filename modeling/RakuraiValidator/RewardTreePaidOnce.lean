import RakuraiValidator.RewardTreeConservation

/-!
# Every staker is paid once

A share of zero also stands for a delegation which has not been handled.  A custom
commission within the range leaves at least the standard share, so the two readings agree
unless a referral takes the whole share.
-/

namespace RakuraiValidator.BlockRewards

open BlockRewards.Distribution ValidatorConfig CommissionConfig

attribute [local simp] validateAndNormalize

variable {Pubkey Text : Type} [LinearOrder Text]

/-- The configured commission, as far as it is lowered, or else the validator's. -/
def appliedCommission (keys : Keys Pubkey Text) (distributionMeta : RewardDistributionMeta Pubkey)
    (config : Option (ValidatorConfig Text)) (delegation : Delegation Pubkey) : ℕ :=
  match configuredCommission config (keys.toText delegation.stakeAccountPubkey) with
  | none => (effectiveCommission distributionMeta config).toNat
  | some cfg => (cfg.clamp (effectiveCommission distributionMeta config)).commissionBps.toNat

def owed (keys : Keys Pubkey Text) (stakeMeta : StakeMeta Pubkey)
    (distributionMeta : RewardDistributionMeta Pubkey) (config : Option (ValidatorConfig Text))
    (delegation : Delegation Pubkey) : ℕ :=
  if configuredExclusion keys config delegation then 0
  else netShare
    (distributionMeta.totalRewards.toNat - expenseFor keys stakeMeta distributionMeta config)
    stakeMeta.totalDelegated.toNat delegation.lamportsDelegated.toNat
    (appliedCommission keys distributionMeta config delegation)

def CommissionsInRange (keys : Keys Pubkey Text) (stakeMeta : StakeMeta Pubkey)
    (config : Option (ValidatorConfig Text)) : Prop :=
  ∀ delegation ∈ stakeMeta.delegations, ∀ cfg, Customizes keys config delegation cfg →
    cfg.commissionBps.toNat ≤ 10000

variable {keys : Keys Pubkey Text} {stakeMeta : StakeMeta Pubkey}
  {distributionMeta : RewardDistributionMeta Pubkey} {pools : Pubkey → Option Pubkey}
  {config : Option (ValidatorConfig Text)} {delegation : Delegation Pubkey}

theorem appliedCommission_le (hcomms : CommissionsInRange keys stakeMeta config)
    (hmem : delegation ∈ stakeMeta.delegations)
    (hincl : configuredExclusion keys config delegation = false) :
    appliedCommission keys distributionMeta config delegation ≤
      (effectiveCommission distributionMeta config).toNat := by
  unfold appliedCommission
  split
  · exact le_rfl
  next cfg hcfg =>
    exact clamp_commissionBps_le_effective _ (hcomms delegation hmem cfg ⟨hincl, hcfg⟩)

theorem effectiveCommission_le :
    (effectiveCommission distributionMeta config).toNat ≤
      distributionMeta.validatorFeeBps.toNat := by
  have honChain : distributionMeta.validatorFeeBps.toUInt32.toNat =
      distributionMeta.validatorFeeBps.toNat := by simp
  unfold effectiveCommission
  cases config.bind validatorCommissionBps with
  | none => exact honChain.le
  | some commission =>
    rw [Option.map_some, Option.getD_some, ← honChain]
    unfold clampCommission
    generalize (if maxCommissionBps < commission then maxCommissionBps else commission) = clamped
    dsimp only
    split
    · exact le_rfl
    · rename_i hlt
      rw [UInt32.lt_iff_toNat_lt] at hlt
      exact Nat.not_lt.mp hlt

theorem paid_eq_owed (hcomms : CommissionsInRange keys stakeMeta config)
    (hmem : delegation ∈ stakeMeta.delegations) :
    (distributionFor keys stakeMeta distributionMeta pools config).paid delegation =
      owed keys stakeMeta distributionMeta config delegation := by
  have hcomm : (distributionFor keys stakeMeta distributionMeta pools
      config).validatorCommissionBps = (effectiveCommission distributionMeta config).toNat := by
    rw [← normalized_commission]
    rfl
  unfold paid owed
  rw [excludes_distributionFor]
  split
  · rfl
  rename_i hexcl
  have hcustom : (distributionFor keys stakeMeta distributionMeta pools
      config).customCommission delegation =
      configuredCommission (normalized distributionMeta config)
        (keys.toText delegation.stakeAccountPubkey) := by
    unfold customCommission
    rw [excludes_distributionFor, if_neg hexcl]
    rfl
  have hle : appliedCommission keys distributionMeta config delegation ≤ _ :=
    appliedCommission_le hcomms hmem (Bool.eq_false_iff.mpr hexcl)
  rw [hcustom, configuredCommission_normalized, hcomm]
  unfold appliedCommission at hle ⊢
  cases hraw : configuredCommission config (keys.toText delegation.stakeAccountPubkey) with
  | none => rfl
  | some raw =>
    simp only [hraw, Option.map_some] at hle ⊢
    rw [← normalize_commissionBps] at hle ⊢
    generalize raw.normalize (effectiveCommission distributionMeta config) = cfg at hle ⊢
    cases hredundant : cfg.isRedundant (effectiveCommission distributionMeta config) with
    | true =>
      have hsame : cfg.commissionBps = effectiveCommission distributionMeta config := by
        simp only [isRedundant, Bool.and_eq_true, decide_eq_true_eq] at hredundant
        exact hredundant.1.1
      simp only [Option.filter, hredundant, Bool.not_true, Bool.false_eq_true, if_false, hsame]
      rfl
    | false =>
      simp only [Option.filter, hredundant, Bool.not_false, if_true]
      split
      · rename_i hzero
        have hstd : (distributionFor keys stakeMeta distributionMeta pools config).shareAt
            delegation _ ≤ shareAt _ delegation _ :=
          Nat.div_le_div_right (Nat.mul_le_mul_left _ (Nat.sub_le_sub_left hle _))
        rw [hzero, Nat.le_zero] at hstd
        exact hstd.trans hzero.symm
      · rfl

theorem vecFromStakeMetaWithConfig_eq_ok
    (hmeta : stakeMeta.maybeRewardDistributionMeta = some distributionMeta)
    {nodes : List (TreeNode Pubkey)} {commission : ℕ}
    (h : vecFromStakeMetaWithConfig keys stakeMeta pools config =
      .ok (.ok (some (nodes, commission)))) :
    expenseFor keys stakeMeta distributionMeta config ≤ distributionMeta.totalRewards.toNat ∧
    commission = (effectiveCommission distributionMeta config).toNat ∧
    ∃ staked eligible validator,
      (distributionFor keys stakeMeta distributionMeta pools config).distributeStakers
        stakeMeta.delegations = .ok (staked, eligible) ∧
      validatorNodes keys distributionMeta.rewardDistributionPubkey stakeMeta.validatorNodePubkey
        ((normalized distributionMeta config).bind validatorRewardSplit)
        ((distributionFor keys stakeMeta distributionMeta pools config).remainingRewards -
          eligible) = .ok validator ∧
      nodes = expenseNode keys stakeMeta distributionMeta config :: (staked ++ validator) := by
  rw [vecFromStakeMetaWithConfig_eq hmeta] at h
  split at h
  · cases h
  rename_i hcov
  refine ⟨Nat.not_lt.mp hcov, ?_⟩
  cases hstaked : (distributionFor keys stakeMeta distributionMeta pools config).distributeStakers
      stakeMeta.delegations with
  | error panic =>
    rw [hstaked] at h
    cases h
  | ok result =>
    rw [hstaked] at h
    simp only [Except.bind] at h
    cases hval : validatorNodes keys distributionMeta.rewardDistributionPubkey
        stakeMeta.validatorNodePubkey
        ((normalized distributionMeta config).bind validatorRewardSplit)
        ((distributionFor keys stakeMeta distributionMeta pools config).remainingRewards -
          result.2) with
    | error panic => simp [hval] at h
    | ok validator =>
      simp only [hval] at h
      split at h
      · cases h
      · cases h
        exact ⟨rfl, result.1, result.2, validator, rfl, hval, rfl⟩

/-- Each delegation is paid its share once, and the validator gets the rest. -/
theorem stakers_paid_once (keys : Keys Pubkey Text) (stakeMeta : StakeMeta Pubkey)
    (distributionMeta : RewardDistributionMeta Pubkey) (pools : Pubkey → Option Pubkey)
    (config : Option (ValidatorConfig Text))
    (hmeta : stakeMeta.maybeRewardDistributionMeta = some distributionMeta)
    (hdelegated : stakeMeta.Delegated) (hreferrals : ReferralsLeaveShare keys stakeMeta config)
    (hcommissions : CommissionsInRange keys stakeMeta config)
    {nodes : List (TreeNode Pubkey)} {commission : ℕ}
    (hresult : vecFromStakeMetaWithConfig keys stakeMeta pools config =
      .ok (.ok (some (nodes, commission)))) (hcommission : commission < 10000) :
    (∃ parts validator,
      nodes = expenseNode keys stakeMeta distributionMeta config :: (parts.flatten ++ validator) ∧
      List.Forall₂ (fun delegation part => ∃ referral node,
        part = referral ++ [node] ∧ referral.length ≤ 1 ∧
        node.stakeAccountPubkey = delegation.stakeAccountPubkey ∧
        (referral.map TreeNode.amount).sum + node.amount =
          owed keys stakeMeta distributionMeta config delegation) stakeMeta.delegations parts ∧
      (validator.map TreeNode.amount).sum +
          (stakeMeta.delegations.map (owed keys stakeMeta distributionMeta config)).sum =
        distributionMeta.totalRewards.toNat - expenseFor keys stakeMeta distributionMeta config) ∧
    (∀ delegation ∈ stakeMeta.delegations, configuredExclusion keys config delegation = false →
      appliedCommission keys distributionMeta config delegation ≤ commission) ∧
    commission ≤ distributionMeta.validatorFeeBps.toNat := by
  obtain ⟨hcovered, heffective, staked, eligible, validator, hstaked, hvalidator, hnodes⟩ :=
    vecFromStakeMetaWithConfig_eq_ok hmeta hresult
  subst heffective
  refine ⟨?_, fun _ => appliedCommission_le hcommissions, effectiveCommission_le⟩
  have hbelow : (distributionFor keys stakeMeta distributionMeta pools
      config).validatorCommissionBps < 10000 := by
    rw [← normalized_commission] at hcommission
    exact hcommission
  have hbounded := distributionFor_bounded hdelegated hbelow
  have hpaid : stakeMeta.delegations.map
      (distributionFor keys stakeMeta distributionMeta pools config).paid =
      stakeMeta.delegations.map (owed keys stakeMeta distributionMeta config) :=
    List.map_congr_left fun _ => paid_eq_owed hcommissions
  have hmax : maxCommissionBps.toNat = 10000 := rfl
  rw [distributeStakers, hmax, if_pos hbelow] at hstaked
  rcases hbounded.distributeDelegations (fun _ => distributionFor_referralBelowMax hreferrals)
      (fun delegation hmem => hdelegated.le hmem) with
    ⟨parts, hparts, hforall⟩ | ⟨_, _, _, _, _, _, herror⟩
  · rw [hparts] at hstaked
    cases hstaked
    have hle : (stakeMeta.delegations.map
        (distributionFor keys stakeMeta distributionMeta pools config).paid).sum ≤
        (distributionFor keys stakeMeta distributionMeta pools config).remainingRewards :=
      sum_paid_le hdelegated.sum.ge
    have hvalidatorSum := validatorNodes_sum ((Nat.sub_le _ _).trans_lt hbounded.remaining)
      hvalidator
    rw [hpaid] at hle hvalidatorSum
    refine ⟨parts, validator, hnodes, ?_, ?_⟩
    · apply ((List.forall₂_and_left _ _).mpr ⟨fun _ hmem => hmem, hforall⟩).imp
      rintro delegation part ⟨hmem, referral, amount, hpartEq, hlength, hsum⟩
      rw [paid_eq_owed hcommissions hmem] at hsum
      exact ⟨referral, _, hpartEq, hlength, rfl, hsum⟩
    · rw [hvalidatorSum]
      exact Nat.sub_add_cancel hle
  · rw [herror] at hstaked
    cases hstaked

section DoublePay

def highFeeStake : StakeMeta ℕ := ⟨2, some ⟨1, 3, 1000000000, 9000⟩, [⟨10, 11, 12, 100⟩], 100⟩

def amountsOf {Pubkey : Type} (result : Except DistributionPanic
    (Except MerkleRootGeneratorError (Option (List (TreeNode Pubkey) × ℕ)))) :
    Option (List ℕ × ℕ) :=
  match result with
  | .ok (.ok (some (nodes, commission))) => some (nodes.map TreeNode.amount, commission)
  | _ => none

/-- A referral which takes the whole share of a staker with a commission of 8000: the staker
is also paid the standard share.  And a requested commission above the maximum is not
lowered to the validator's, but the staker is paid the standard share. -/
theorem staker_paid_twice :
    highFeeStake.Delegated ∧
    amountsOf (vecFromStakeMetaWithConfig plainKeys highFeeStake (fun _ => none)
      (some (referralConfig 8000 10000))) = some ([30000, 199994000, 99997000, 699979000], 9000) ∧
    netShare 999970000 100 100 8000 = 199994000 ∧
    ((referralConfig 20000 1000).validateAndNormalize 9000).stakers.bind
      (fun stakers => (stakers.commissionOf 10).map commissionBps) = some 10000 ∧
    amountsOf (vecFromStakeMetaWithConfig plainKeys highFeeStake (fun _ => none)
      (some (referralConfig 20000 1000))) = some ([30000, 0, 99997000, 899973000], 9000) ∧
    netShare 999970000 100 100 10000 = 0 := by
  refine ⟨?_, by decide +kernel, by decide +kernel, by decide +kernel, by decide +kernel,
    by decide +kernel⟩
  constructor <;> decide

/-- A staker with a lower commission shares a tenth with its referral. -/
theorem stakers_paid_once_referral :
    ∃ nodes commission, vecFromStakeMetaWithConfig plainKeys highFeeStake (fun _ => none)
        (some (referralConfig 8000 1000)) = .ok (.ok (some (nodes, commission))) ∧
      commission ≤ 9000 := by
  have hreferrals : ReferralsLeaveShare plainKeys highFeeStake
      (some (referralConfig 8000 1000)) := by
    intro delegation hmem cfg bps hcfg _ hbps
    cases List.mem_singleton.mp hmem
    cases hcfg.2
    cases hbps
    decide
  have hcommissions : CommissionsInRange plainKeys highFeeStake
      (some (referralConfig 8000 1000)) := by
    intro delegation hmem cfg hcfg
    cases List.mem_singleton.mp hmem
    cases hcfg.2
    decide
  have hdelegated : highFeeStake.Delegated := by
    constructor <;> decide
  have hamounts : amountsOf (vecFromStakeMetaWithConfig plainKeys highFeeStake (fun _ => none)
      (some (referralConfig 8000 1000))) =
      some ([30000, 19999400, 179994600, 799976000], 9000) := by decide +kernel
  unfold amountsOf at hamounts
  split at hamounts
  · rename_i nodes commission hresult
    have hcommission : commission = 9000 := by
      simp only [Option.some.injEq, Prod.mk.injEq] at hamounts
      exact hamounts.2
    refine ⟨nodes, commission, hresult, ?_⟩
    exact (stakers_paid_once plainKeys highFeeStake ⟨1, 3, 1000000000, 9000⟩ (fun _ => none)
      (some (referralConfig 8000 1000)) rfl hdelegated hreferrals hcommissions hresult
      (by omega)).2.2
  · cases hamounts

end DoublePay

end RakuraiValidator.BlockRewards
