import RakuraiValidator.EpochRewardsBudget

/-!
# Rewards of the migration epoch

The Alpenglow rewards of the migration epoch do not depend on the Tower points.  They are paid if
the cluster has Tower points, and lost if it has none.
-/

namespace RakuraiValidator.InflationRewards

open Vote VoteReward RewardInputs

variable {Pubkey : Type} {pointValue : PointValue} {towerSlots agSlots towerPoints agPoints : ℕ}
  {stakes : RewardEpochDelegatedStakes Pubkey} {epochType : AlpenglowEpochType Pubkey}
  (htype : epochType = .migrationEpoch towerSlots agSlots stakes)

include htype in
theorem rewardsOfPoints_migration (hpos : 0 < pointValue.points) (hslots : SlotsFit epochType)
    (hprod : towerPoints * pointValue.rewards < u128Modulus)
    (hfits : rewardShare pointValue towerPoints agPoints epochType ≤ u64Max) :
    rewardsOfPoints pointValue towerPoints agPoints epochType =
      .ok (if towerPoints = 0 ∧ agPoints = 0 then none
        else some (rewardShare pointValue towerPoints agPoints epochType)) := by
  subst htype
  simp only [rewardShare] at hfits ⊢
  -- the Tower part is at most 64 bits wide after the division by the slots
  have hscaled : floorShare pointValue.rewards pointValue.points towerPoints * towerSlots <
      u128Modulus := by
    have hlt := (Nat.div_lt_iff_lt_mul hslots.1).mp
      (Nat.lt_succ_of_le ((Nat.le_add_right _ _).trans hfits))
    exact hlt.trans_le ((Nat.mul_le_mul_left _ hslots.2).trans (by decide))
  have hmod := Nat.mod_eq_of_lt (hfits.trans_lt (by decide : u64Max < u128Modulus))
  unfold floorShare at hscaled hmod ⊢
  simp only [rewardsOfPoints, scalePoints, checkedMul, checkedDiv, hprod, hscaled,
    hslots.mod_eq, hpos.ne', hslots.1.ne', if_true, if_false, bind, Except.bind, pure,
    Except.pure, hmod, and_false]
  split <;> rfl

variable {history : StakeHistory Pubkey} {stake : Stake Pubkey} {voteState : DelegatedVoteState}

theorem not_forced_of_agPoints
    (h : 0 < (calculateStakePointsAndCredits history stake voteState epochType).agPoints) :
    (calculateStakePointsAndCredits history stake voteState
      epochType).forceCreditsUpdateWithSkippedReward = false := by
  unfold calculateStakePointsAndCredits at h ⊢
  by_cases hless : voteState.credits < stake.creditsObserved
  · rw [if_pos hless] at h
    cases h
  by_cases heq : voteState.credits = stake.creditsObserved
  · rw [if_neg hless, if_pos heq] at h
    cases h
  rw [if_neg hless, if_neg heq] at h ⊢
  cases hpts : calculateEpochPoints history stake voteState.epochCredits epochType with
  | error skipped =>
    rw [hpts] at h
    exact absurd (calculateEpochPoints_error hpts).2 h.ne'
  | ok points => rfl

include htype in
theorem calculateStakeRewards_migration (environment : CalculationEnvironment Pubkey)
    {points : CalculatedStakePoints} {total : ℕ} (voterCommissionBps : ℕ) (status : StakeActivationStatus)
    (hpts : calculateStakePointsAndCredits environment.stakeHistory stake voteState epochType =
      points)
    (hrews : rewardsOfPoints environment.pointValue points.towerPoints points.agPoints epochType =
        .ok (if points.towerPoints = 0 ∧ points.agPoints = 0 then none else some total))
    (hle : points.agPoints ≤ total) (hfits : total ≤ u64Max) :
    ∃ result, calculateStakeRewards stake voterCommissionBps voteState environment epochType status =
        .ok result ∧
      (environment.pointValue.rewards ≠ 0 →
        stake.delegation.activationEpoch ≠ environment.rewardedEpoch → 0 < points.agPoints →
        ∃ rewards, result = some rewards ∧
          points.agPoints ≤ rewards.stakerRewards + rewards.voterRewards) := by
  subst htype
  simp only [calculateStakeRewards, hpts, hrews, bind, Except.bind, pure, Except.pure]
  split
  next hforced =>
    refine ⟨_, rfl, fun hsome hact hag => ?_⟩
    have hnot := not_forced_of_agPoints (hpts ▸ hag)
    rw [hpts] at hnot
    simp [hnot, hsome, hact] at hforced
  next =>
    by_cases hzero : points.towerPoints = 0 ∧ points.agPoints = 0
    · rw [if_pos hzero]
      exact ⟨_, rfl, fun _ _ hag => absurd hzero.2 hag.ne'⟩
    · rw [if_neg hzero]
      simp only [if_neg (Nat.not_lt.mpr hfits)]
      split
      next hnone => exact ⟨_, rfl, fun _ _ hag => by omega⟩
      next =>
        have hsum := commissionSplitPreserveLamports_eq voterCommissionBps total
        refine ⟨_, rfl, fun _ _ _ => ?_⟩
        simp only [splitRewards, AlpenglowEpochType.isTower, Bool.false_eq_true, and_false, if_false]
        exact ⟨_, rfl, hle.trans (hsum.ge.trans (Nat.add_comm _ _).le)⟩

namespace RewardInputs

variable [LinearOrder Pubkey] (inputs : RewardInputs Pubkey)

def pointsOf (account : StakeAccount Pubkey) : CalculatedStakePoints :=
  (inputs.voteAccounts (voterPubkey account)).elim ⟨0, 0, 0, false⟩
    (calculateStakePointsAndCredits inputs.stakeHistory account.stake · inputs.epochType)

def clusterPoints : PointValue where
  rewards := inputs.epochInflationRewards
  points := (inputs.stakeDelegations.map inputs.towerPoints).sum % u128Modulus

/-- The products and the rewards of a delegation fit. -/
structure RewardsFit : Prop where
  slots : SlotsFit inputs.epochType
  product : ∀ account ∈ inputs.stakeDelegations,
    (inputs.pointsOf account).towerPoints * inputs.epochInflationRewards < u128Modulus
  rewards : ∀ account ∈ inputs.stakeDelegations, rewardShare inputs.clusterPoints
    (inputs.pointsOf account).towerPoints (inputs.pointsOf account).agPoints inputs.epochType ≤
      u64Max

/-- The delegations with Alpenglow points which were not activated in the migration epoch. -/
def EarnsAlpenglow (account : StakeAccount Pubkey) : Prop :=
  account ∈ inputs.stakeDelegations ∧
    account.stake.delegation.activationEpoch ≠ inputs.rewardedEpoch ∧
    0 < (inputs.pointsOf account).agPoints

/-- The calculation returns.  Its counters hold, up to saturation, what each delegation redeems, and
that is at least the Alpenglow points which it has earned. -/
def AlpenglowPaid (reduction : Reduction (StakeAccount Pubkey)) : Prop :=
  ∃ pointValue accumulator,
    inputs.calculateValidatorRewards reduction = .ok (pointValue, accumulator) ∧
    Saturates accumulator.lamports
      (inputs.stakeDelegations.map (inputs.redeemedBy pointValue)).sum ∧
    ∀ account, inputs.EarnsAlpenglow account →
      (inputs.pointsOf account).agPoints ≤ inputs.redeemedBy pointValue account

variable {inputs}

theorem RewardsFit.redeems {account : StakeAccount Pubkey} (h : inputs.RewardsFit)
    (hpoints : 0 < inputs.clusterPoints.points)
    (htype : inputs.epochType = .migrationEpoch towerSlots agSlots stakes)
    (hmem : account ∈ inputs.stakeDelegations) :
    ∃ reward, inputs.redeemDelegationRewards inputs.clusterPoints account = .ok reward ∧
      (inputs.epochInflationRewards ≠ 0 →
        account.stake.delegation.activationEpoch ≠ inputs.rewardedEpoch →
        0 < (inputs.pointsOf account).agPoints →
        (inputs.pointsOf account).agPoints ≤ inputs.redeemedBy inputs.clusterPoints account) := by
  have hslots := h.slots
  have hprod := h.product account hmem
  have hrews := h.rewards account hmem
  unfold pointsOf at hprod hrews ⊢
  cases hvote : inputs.voteAccounts (voterPubkey account) with
  | none => exact ⟨_, by rw [redeemDelegationRewards, ← voterPubkey, hvote], nofun⟩
  | some voteState =>
    rw [hvote] at hprod hrews
    simp only [Option.elim_some] at hprod hrews ⊢
    obtain ⟨rewards, hcalc, hpaid⟩ := calculateStakeRewards_migration htype
      (inputs.environment inputs.clusterPoints) (inputs.commissionBps (voterPubkey account))
      (inputs.stakeHistory.delegationActivationStatus account.stake.delegation
        inputs.rewardedEpoch) rfl
      (rewardsOfPoints_migration htype hpoints hslots hprod hrews)
      (by rw [htype]; exact Nat.le_add_left _ _) hrews
    obtain ⟨redeemed, hredeemed, hsum⟩ :=
      redeemRewards_of_rewards account.lamports account.minimumLamports hcalc
    unfold voterPubkey at hvote hredeemed
    simp only [redeemedBy, redeemDelegationRewards, hvote, hredeemed, bind, Except.bind, pure,
      Except.pure]
    refine ⟨_, rfl, fun hinfl hact hag => ?_⟩
    obtain ⟨paid, hsome, hle⟩ := hpaid hinfl hact hag
    obtain ⟨result, rfl, hres⟩ := Option.map_eq_some_iff.mp (hsum paid hsome)
    exact hle.trans hres.ge

/-- If some delegation has earned Alpenglow points, they are paid exactly if the cluster has Tower
points. -/
theorem alpenglow_rewards_paid (inputs : RewardInputs Pubkey)
    (htype : inputs.epochType = .migrationEpoch towerSlots agSlots stakes)
    (hrewards : inputs.epochInflationRewards ≠ 0) (h : inputs.RewardsFit)
    (hearned : ∃ account, inputs.EarnsAlpenglow account)
    (reduction : Reduction (StakeAccount Pubkey))
    (hitems : reduction.items = inputs.stakeDelegations) :
    inputs.AlpenglowPaid reduction ↔ 0 < inputs.clusterPoints.points := by
  have hpartitioned : inputs.calculateRewardPointsPartitioned =
      if 0 < inputs.clusterPoints.points then some inputs.clusterPoints else none := by
    simp only [calculateRewardPointsPartitioned, htype]
    rfl
  constructor
  · rintro ⟨pointValue, accumulator, hrun, hsum, hpaid⟩
    by_contra hzero
    simp only [calculateValidatorRewards, hpartitioned, if_neg hzero, Except.ok.injEq,
      Prod.mk.injEq] at hrun
    -- nothing is counted, so nothing was redeemed
    obtain ⟨account, hearns⟩ := hearned
    have hredeemed : inputs.redeemedBy pointValue account ≤ _ :=
      List.single_le_sum (fun _ _ => Nat.zero_le _) _ (List.mem_map_of_mem hearns.1)
    have hnew : accumulator.lamports = 0 := by
      rw [← hrun.2]
      rfl
    have hmax : 0 < u64Max := by decide
    have hle := hpaid account hearns
    have hpos := hearns.2.2
    have hcounted := hsum.2
    omega
  · intro hpoints
    obtain ⟨accumulator, haccumulator⟩ := accumulate_returns reduction
      fun account hmem => (h.redeems hpoints htype (hitems ▸ hmem)).imp fun _ => And.left
    refine ⟨inputs.clusterPoints, accumulator, ?_, ?_, ?_⟩
    · simp only [calculateValidatorRewards, hpartitioned, if_pos hpoints, haccumulator, bind,
        Except.bind, pure, Except.pure]
    · rw [← hitems]
      exact saturates_accumulate haccumulator
    · intro account hearns
      obtain ⟨reward, -, hpaid⟩ := h.redeems hpoints htype hearns.1
      exact hpaid hrewards hearns.2.1 hearns.2.2

/-- Vote account 1 has credits after the marker only.  Its delegations have earned 12 and 28
lamports, and nothing is paid.  With no Tower points the calculation of one delegation panics. -/
theorem alpenglow_rewards_lost :
    let inputs : RewardInputs ℕ := { sampleInputs with
      voteAccounts := fun _ => some (.ofEpochCredits [agMigrationEpochCredit, (5, 50, 10)]) }
    inputs.stakeDelegations.map (fun account => (inputs.pointsOf account).agPoints) = [12, 28] ∧
      inputs.calculateValidatorRewards (.chunk inputs.stakeDelegations) = .ok (⟨0, 0⟩, .new) ∧
      ∀ account ∈ inputs.stakeDelegations,
        inputs.rewardRecord ⟨100, 0⟩ account matches .error .zeroPoints := by
  refine ⟨by decide +kernel, rfl, by decide +kernel⟩

theorem alpenglow_rewards_paid_sample :
    (sampleInputs.pointsOf ⟨⟨⟨1, 30, 0, 9⟩, 0⟩, 40, 10⟩).agPoints = 12 ∧
      sampleInputs.AlpenglowPaid (.chunk sampleInputs.stakeDelegations) := by
  have hfits : sampleInputs.RewardsFit :=
    ⟨sampleInputs_withinBudget.slots, by decide +kernel, by decide +kernel⟩
  have hearns : sampleInputs.EarnsAlpenglow ⟨⟨⟨1, 30, 0, 9⟩, 0⟩, 40, 10⟩ :=
    ⟨by decide, by decide, by decide +kernel⟩
  exact ⟨by decide +kernel, (alpenglow_rewards_paid sampleInputs rfl (by decide) hfits ⟨_, hearns⟩ _
    rfl).mpr (by decide +kernel)⟩

end RewardInputs

end RakuraiValidator.InflationRewards
