import RakuraiValidator.RewardTreeShares

/-!
# Conservation of the rewards

The checks on the configuration leave two gaps: a referral may take the whole share of a
staker, or more, and a split is not checked when there is no section for stakers.  Outside
of them the nodes of the tree add up to the rewards.
-/

namespace RakuraiValidator.BlockRewards

open ValidatorConfig StakersConfig TreeNode BlockRewards.Distribution Option CommissionConfig List

variable (effective : UInt32) (cfg : CommissionConfig Text)

section Normalization

variable {Text : Type}

theorem CommissionConfig.normalize_commissionBps :
    (cfg.normalize effective).commissionBps = (cfg.clamp effective).commissionBps := by
  unfold normalize cleanReferral
  split
  · split <;> rfl
  · rfl

theorem CommissionConfig.clamp_commissionBps_le :
    (cfg.clamp effective).commissionBps.toNat ≤ 10000 := by
  have hmax : maxCommissionBps.toNat = 10000 := rfl
  unfold clamp
  split
  · exact le_rfl
  · rename_i hle
    rw [UInt32.lt_iff_toNat_lt, hmax] at hle
    split
    · rename_i hlt
      rw [UInt32.lt_iff_toNat_lt] at hlt
      simp only
      omega
    · omega

theorem CommissionConfig.clamp_commissionBps_le_effective {cfg : CommissionConfig Text}
    (h : cfg.commissionBps.toNat ≤ 10000) :
    (cfg.clamp effective).commissionBps.toNat ≤ effective.toNat := by
  have hle : ¬ maxCommissionBps < cfg.commissionBps := by
    rw [UInt32.lt_iff_toNat_lt]
    exact Nat.not_lt.mpr h
  unfold clamp
  rw [if_neg hle]
  split
  · exact le_rfl
  · rename_i hlt
    exact Nat.not_lt.mp (UInt32.lt_iff_toNat_lt.not.mp hlt)

theorem CommissionConfig.clamp_referral :
    (cfg.clamp effective).referralClaimantPubkey = cfg.referralClaimantPubkey ∧
      (cfg.clamp effective).referralClaimantCommissionBps = cfg.referralClaimantCommissionBps := by
  unfold clamp
  split
  · exact ⟨rfl, rfl⟩
  · split <;> exact ⟨rfl, rfl⟩

theorem CommissionConfig.normalize_referral :
    (∀ text, (cfg.normalize effective).referralClaimantPubkey = some text →
      cfg.referralClaimantPubkey = some text) ∧
    (∀ bps, (cfg.normalize effective).referralClaimantCommissionBps = some bps →
      cfg.referralClaimantCommissionBps = some bps) := by
  obtain ⟨hkey, hbps⟩ := cfg.clamp_referral effective
  unfold normalize cleanReferral
  rw [← hkey, ← hbps]
  split
  · split
    · simp
    · exact ⟨fun _ h => h, fun _ h => h⟩
  · exact ⟨fun _ h => h, fun _ h => h⟩

variable [LinearOrder Text] (stakers : StakersConfig Text)

theorem StakersConfig.commissionOf_normalize (stakeAccount : Text) :
    (stakers.normalize effective).commissionOf stakeAccount =
      ((stakers.commissionOf stakeAccount).map (CommissionConfig.normalize effective)).filter
        fun cfg => !cfg.isRedundant effective := by
  unfold normalize
  cases hcustom : stakers.customCommissions with
  | none => simp [commissionOf, hcustom]
  | some commissions =>
    have hget := commissions.get?_retain_mapValues (CommissionConfig.normalize effective)
      (fun cfg => !cfg.isRedundant effective) stakeAccount
    simp only [commissionOf, hcustom, bind_some]
    rw [← hget]
    split
    · rename_i hempty
      rw [BTreeMap.isEmpty_iff] at hempty
      symm
      rw [bind_none, BTreeMap.get?_eq_none_iff]
      intro v
      simp [hempty]
    · rfl

theorem StakersConfig.excluded_normalize :
    (stakers.normalize effective).excludedStakePubkeys = stakers.excludedStakePubkeys := by
  unfold normalize
  split <;> rfl

theorem ValidatorConfig.split_normalize {cfg : ValidatorConfig Text} {onChain : UInt32}
    {split : ValidatorRewardSplit Text}
    (h : (cfg.validateAndNormalize onChain).validatorRewardSplit = some split) :
    (∃ raw, cfg.validatorRewardSplit = some raw ∧ split.claimantPubkey = raw.claimantPubkey) ∧
      (split.claimantCommissionBps.toNat ≤ 10000 ∨
        cfg.stakers = none ∧ cfg.validatorRewardSplit = some split) := by
  unfold validateAndNormalize at h
  cases hstakers : cfg.stakers with
  | none =>
    simp only [hstakers] at h
    exact ⟨⟨split, h, rfl⟩, .inr ⟨rfl, h⟩⟩
  | some stakers =>
    simp only [hstakers] at h
    obtain ⟨raw, hraw, hsplit⟩ := bind_eq_some_iff.mp h
    unfold ValidatorRewardSplit.normalize at hsplit
    have hmax : maxCommissionBps.toNat = 10000 := rfl
    by_cases hlarge : maxCommissionBps < raw.claimantCommissionBps
    · simp only [hlarge, if_true] at hsplit
      split at hsplit
      · cases hsplit
      · cases hsplit
        exact ⟨⟨raw, hraw, rfl⟩, .inl le_rfl⟩
    · simp only [hlarge, if_false] at hsplit
      rw [UInt32.lt_iff_toNat_lt, hmax] at hlarge
      split at hsplit
      · cases hsplit
      · cases hsplit
        exact ⟨⟨_, hraw, rfl⟩, .inl (Nat.not_lt.mp hlarge)⟩

end Normalization

section Conservation

variable {Pubkey Text : Type} [LinearOrder Text] (config : Option (ValidatorConfig Text))

def configuredCommission (stakeAccount : Text) :
    Option (CommissionConfig Text) :=
  (config.bind ValidatorConfig.stakers).bind fun stakers => stakers.commissionOf stakeAccount

structure TextsParse (keys : Keys Pubkey Text) (config : Option (ValidatorConfig Text)) : Prop where
  referral : ∀ stakeAccount cfg text, configuredCommission config stakeAccount = some cfg →
    cfg.referralClaimantPubkey = some text → (keys.fromStr text).isSome
  split : ∀ split, config.bind ValidatorConfig.validatorRewardSplit = some split →
    (keys.fromStr split.claimantPubkey).isSome

def configuredExclusion (keys : Keys Pubkey Text) (config : Option (ValidatorConfig Text))
    (delegation : Delegation Pubkey) : Bool :=
  (config.bind ValidatorConfig.stakers).any fun stakers => isExcluded keys stakers delegation

/-- The custom commission of a delegation which is not excluded. -/
def Customizes (keys : Keys Pubkey Text) (config : Option (ValidatorConfig Text))
    (delegation : Delegation Pubkey) (cfg : CommissionConfig Text) : Prop :=
  configuredExclusion keys config delegation = false ∧
    configuredCommission config (keys.toText delegation.stakeAccountPubkey) = some cfg

def ReferralsLeaveShare (keys : Keys Pubkey Text) (stakeMeta : StakeMeta Pubkey)
    (config : Option (ValidatorConfig Text)) : Prop :=
  ∀ delegation ∈ stakeMeta.delegations, ∀ cfg bps, Customizes keys config delegation cfg →
    cfg.referralClaimantPubkey.isSome → cfg.referralClaimantCommissionBps = some bps →
    bps.toNat < 10000

def SplitInRange : Prop :=
  ∀ cfg split, config = some cfg → cfg.stakers = none →
    cfg.validatorRewardSplit = some split → split.claimantCommissionBps.toNat ≤ 10000

/-- The delegations add up to the total, which is positive. -/
structure StakeMeta.Delegated (stakeMeta : StakeMeta Pubkey) : Prop where
  pos : 0 < stakeMeta.totalDelegated.toNat
  sum : stakeMeta.totalDelegated.toNat =
    (stakeMeta.delegations.map fun d => d.lamportsDelegated.toNat).sum

variable {delegation : Delegation Pubkey}

theorem StakeMeta.Delegated.le {stakeMeta : StakeMeta Pubkey} (h : stakeMeta.Delegated)
    (hmem : delegation ∈ stakeMeta.delegations) :
    delegation.lamportsDelegated.toNat ≤ stakeMeta.totalDelegated.toNat := by
  rw [h.sum]
  exact single_le_sum (fun _ _ => Nat.zero_le _) _ (mem_map_of_mem hmem)

variable (distributionMeta : RewardDistributionMeta Pubkey)

def normalized
    (config : Option (ValidatorConfig Text)) : Option (ValidatorConfig Text) :=
  config.map fun cfg => cfg.validateAndNormalize distributionMeta.validatorFeeBps.toUInt32

def effectiveCommission
    (config : Option (ValidatorConfig Text)) : UInt32 :=
  ((config.bind ValidatorConfig.validatorCommissionBps).map
    (clampCommission distributionMeta.validatorFeeBps.toUInt32)).getD
    distributionMeta.validatorFeeBps.toUInt32

variable {keys : Keys Pubkey Text} {stakeMeta : StakeMeta Pubkey}
  {distributionMeta : RewardDistributionMeta Pubkey} {pools : Pubkey → Option Pubkey}
  {config : Option (ValidatorConfig Text)}

theorem normalized_commission :
    (((normalized distributionMeta config).bind ValidatorConfig.validatorCommissionBps).getD
      distributionMeta.validatorFeeBps.toUInt32) = effectiveCommission distributionMeta config := by
  cases config with
  | none => rfl
  | some cfg =>
    simp only [normalized, effectiveCommission, map_some, bind_some, validateAndNormalize]
    cases cfg.stakers <;> rfl

theorem configuredCommission_normalized (stakeAccount : Text) :
    configuredCommission (normalized distributionMeta config) stakeAccount =
      ((configuredCommission config stakeAccount).map
        (CommissionConfig.normalize (effectiveCommission distributionMeta config))).filter
        fun cfg => !cfg.isRedundant (effectiveCommission distributionMeta config) := by
  cases config with
  | none => rfl
  | some cfg =>
    cases hstakers : cfg.stakers with
    | none =>
      simp [normalized, configuredCommission, validateAndNormalize, hstakers]
    | some stakers =>
      simp only [normalized, configuredCommission, validateAndNormalize,
        hstakers, map_some, bind_some]
      exact commissionOf_normalize _ _ _

abbrev distributionFor (keys : Keys Pubkey Text) (stakeMeta : StakeMeta Pubkey)
    (distributionMeta : RewardDistributionMeta Pubkey) (pools : Pubkey → Option Pubkey)
    (config : Option (ValidatorConfig Text)) : Distribution Pubkey Text :=
  distributionOf keys stakeMeta distributionMeta pools (normalized distributionMeta config)

theorem excludes_distributionFor :
    (distributionFor keys stakeMeta distributionMeta pools config).excludes delegation =
      configuredExclusion keys config delegation := by
  cases config with
  | none => rfl
  | some cfg =>
    cases hstakers : cfg.stakers with
    | none =>
      simp [excludes, distributionOf, normalized, configuredExclusion, validateAndNormalize, hstakers]
    | some stakers =>
      simp [excludes, distributionOf, normalized, configuredExclusion, validateAndNormalize, hstakers,
        isExcluded, StakersConfig.excluded_normalize]

theorem customCommission_eq_some {cfg : CommissionConfig Text}
    (h : (distributionFor keys stakeMeta distributionMeta pools config).customCommission delegation =
      some cfg) :
    ∃ raw, Customizes keys config delegation raw ∧
      cfg = raw.normalize (effectiveCommission distributionMeta config) := by
  unfold customCommission at h
  split at h
  · cases h
  · rename_i hincl
    rw [excludes_distributionFor, Bool.not_eq_true] at hincl
    change configuredCommission (normalized distributionMeta config)
      (keys.toText delegation.stakeAccountPubkey) = some cfg at h
    rw [configuredCommission_normalized, filter_eq_some_iff] at h
    obtain ⟨raw, hraw, hcfg⟩ := map_eq_some_iff.mp h.1
    exact ⟨raw, ⟨hincl, hraw⟩, hcfg.symm⟩

theorem distributionFor_bounded (hdeleg : stakeMeta.Delegated)
    (hcomm : (distributionFor keys stakeMeta distributionMeta pools
      config).validatorCommissionBps < 10000) :
    (distributionFor keys stakeMeta distributionMeta pools config).Bounded := by
  constructor
  · exact hdeleg.pos
  · exact stakeMeta.totalDelegated.toNat_lt
  · exact (Nat.sub_le _ _).trans_lt distributionMeta.totalRewards.toNat_lt
  · exact hcomm.le
  · intro delegation cfg hcfg
    obtain ⟨raw, _, hraw⟩ := customCommission_eq_some hcfg
    rw [hraw, normalize_commissionBps]
    exact raw.clamp_commissionBps_le _

theorem distributionFor_referralBelowMax (h : ReferralsLeaveShare keys stakeMeta config)
    (hmem : delegation ∈ stakeMeta.delegations) :
    (distributionFor keys stakeMeta distributionMeta pools config).ReferralBelowMax delegation := by
  intro cfg bps hcfg hkey hbps
  obtain ⟨raw, hconf, hraw⟩ := customCommission_eq_some hcfg
  subst hraw
  obtain ⟨htexts, hbpss⟩ := raw.normalize_referral (effectiveCommission distributionMeta config)
  obtain ⟨text, htext⟩ := isSome_iff_exists.mp hkey
  exact h _ hmem raw bps hconf (by simp [htexts text htext]) (hbpss bps hbps)

theorem distributionFor_referralsParse (h : TextsParse keys config) :
    (distributionFor keys stakeMeta distributionMeta pools config).ReferralsParse := by
  intro delegation cfg text hcfg htext
  obtain ⟨raw, hconf, hraw⟩ := customCommission_eq_some hcfg
  subst hraw
  exact h.referral _ raw text hconf.2 ((raw.normalize_referral _).1 text htext)

abbrev expenseFor (keys : Keys Pubkey Text) (stakeMeta : StakeMeta Pubkey)
    (distributionMeta : RewardDistributionMeta Pubkey) (config : Option (ValidatorConfig Text)) :
    ℕ :=
  calculateTotalExpenseAmount keys stakeMeta (normalized distributionMeta config)

abbrev expenseNode (keys : Keys Pubkey Text) (stakeMeta : StakeMeta Pubkey)
    (distributionMeta : RewardDistributionMeta Pubkey) (config : Option (ValidatorConfig Text)) :
    TreeNode Pubkey :=
  plainNode keys distributionMeta.rewardDistributionPubkey
    distributionMeta.merkleRootUploadAuthority distributionMeta.merkleRootUploadAuthority 0
    (expenseFor keys stakeMeta distributionMeta config)

theorem vecFromStakeMetaWithConfig_eq
    (hmeta : stakeMeta.maybeRewardDistributionMeta = some distributionMeta) :
    vecFromStakeMetaWithConfig keys stakeMeta pools config =
      if distributionMeta.totalRewards.toNat < expenseFor keys stakeMeta distributionMeta config then
        .ok (.error .mathOverflow)
      else
        ((distributionFor keys stakeMeta distributionMeta pools config).distributeStakers
            stakeMeta.delegations).bind fun result =>
          (validatorNodes keys distributionMeta.rewardDistributionPubkey
            stakeMeta.validatorNodePubkey
            ((normalized distributionMeta config).bind ValidatorConfig.validatorRewardSplit)
            ((distributionFor keys stakeMeta distributionMeta pools config).remainingRewards -
              result.2)).bind fun validator =>
            if distributionMeta.totalRewards.toNat <
                asU64 ((expenseNode keys stakeMeta distributionMeta config ::
                  (result.1 ++ validator)).map amount).sum then
              .error .distributedAmountGreater
            else .ok (.ok (some (expenseNode keys stakeMeta distributionMeta config ::
                (result.1 ++ validator), (effectiveCommission distributionMeta config).toNat))) := by
  unfold vecFromStakeMetaWithConfig
  simp only [hmeta]
  rw [← normalized_commission]
  rfl

theorem distributeStakers_ok (distributionMeta : RewardDistributionMeta Pubkey)
    (pools : Pubkey → Option Pubkey) (hdeleg : stakeMeta.Delegated)
    (hparse : TextsParse keys config) (hrefs : ReferralsLeaveShare keys stakeMeta config) :
    ∃ nodes eligible,
      (distributionFor keys stakeMeta distributionMeta pools config).distributeStakers
        stakeMeta.delegations = .ok (nodes, eligible) ∧
      (nodes.map amount).sum = eligible ∧
      eligible ≤
        (distributionFor keys stakeMeta distributionMeta pools config).remainingRewards := by
  have hmax : maxCommissionBps.toNat = 10000 := rfl
  unfold distributeStakers
  split
  · rename_i hcomm
    rw [hmax] at hcomm
    have hbdd := distributionFor_bounded hdeleg hcomm
    rcases hbdd.distributeDelegations (fun _ => distributionFor_referralBelowMax hrefs)
        (fun delegation hmem => hdeleg.le hmem) with
      ⟨parts, hparts, hforall⟩ | ⟨delegation, cfg, text, hcfg, htext, hnone, _⟩
    · refine ⟨_, _, hparts, sum_amount_flatten hforall, ?_⟩
      exact sum_paid_le hdeleg.sum.ge
    · have hsome := distributionFor_referralsParse hparse delegation cfg text hcfg htext
      change (keys.fromStr text).isSome at hsome
      change keys.fromStr text = none at hnone
      rw [hnone] at hsome
      cases hsome
  · exact ⟨[], 0, rfl, rfl, Nat.zero_le _⟩

theorem validatorNodes_normalized_ok (stakeMeta : StakeMeta Pubkey)
    (distributionMeta : RewardDistributionMeta Pubkey) {validatorTotal : ℕ}
    (htot : validatorTotal < 2 ^ 64) (hparse : TextsParse keys config)
    (hsplit : SplitInRange config) :
    ∃ nodes, validatorNodes keys distributionMeta.rewardDistributionPubkey
      stakeMeta.validatorNodePubkey
      ((normalized distributionMeta config).bind ValidatorConfig.validatorRewardSplit)
      validatorTotal = .ok nodes := by
  cases config with
  | none => exact ⟨_, rfl⟩
  | some cfg =>
    apply validatorNodes_ok htot
    · intro split hnorm
      rcases (split_normalize hnorm).2 with hle | ⟨hstakers, hraw⟩
      · exact hle
      · exact hsplit cfg split rfl hstakers hraw
    · intro split hnorm
      obtain ⟨raw, hraw, htext⟩ := (split_normalize hnorm).1
      rw [htext]
      exact hparse.split raw hraw

end Conservation

section Gaps

def plainKeys : Keys ℕ ℕ where
  default := 0
  toText := id
  fromStr := some
  findProgramAddress := fun claimant _ => (1000 + claimant, 255)
  fromStr_toText := fun _ => rfl

def exampleMeta : RewardDistributionMeta ℕ := ⟨1, 3, 1000000000, 1000⟩

def singleStake : StakeMeta ℕ := ⟨2, some exampleMeta, [⟨10, 11, 12, 100⟩], 100⟩

def referralConfig (commissionBps referralBps : UInt32) : ValidatorConfig ℕ where
  stakers := some ⟨none, some ⟨[(10, ⟨commissionBps, some 20, some referralBps⟩)], by simp⟩⟩
  validatorCommissionBps := none
  validatorRewardSplit := none

def splitConfig (claimantBps : UInt32) : ValidatorConfig ℕ where
  stakers := none
  validatorCommissionBps := none
  validatorRewardSplit := some ⟨30, claimantBps⟩

theorem singleStake_delegated : singleStake.Delegated := by
  constructor <;> decide

theorem textsParse_plainKeys (config : Option (ValidatorConfig ℕ)) :
    TextsParse plainKeys config := by
  constructor
  · exact fun _ _ _ _ _ => rfl
  · exact fun _ _ => rfl

end Gaps

end RakuraiValidator.BlockRewards
