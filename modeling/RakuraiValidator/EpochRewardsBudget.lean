import RakuraiValidator.InflationRewardShares
import RakuraiValidator.PartitionedRewards
import RakuraiValidator.Traces

/-!
# The rewards of an epoch stay within its inflation

The shares of all delegations are summed by the kind of the epoch.  However the parallel
calculation is cut and put together, it accumulates no more than the shares, and the
distribution of the commissions creates no lamports.
-/

namespace RakuraiValidator.InflationRewards

open Vote VoteReward BTreeMap List Nat DescendingPasses

variable {pointValue : PointValue}

namespace RewardInputs

variable {Pubkey : Type} [DecidableEq Pubkey] (inputs : RewardInputs Pubkey)

def voterPubkey (account : StakeAccount Pubkey) : Pubkey := account.stake.delegation.voterPubkey

def voters : Finset Pubkey := (inputs.stakeDelegations.map voterPubkey).toFinset

def votedCredits (votePubkey : Pubkey) : ℕ :=
  (inputs.voteAccounts votePubkey).elim 0 fun voteState =>
    agCredits voteState.epochCredits inputs.epochType

def agBudget : ℕ :=
  match inputs.epochType with
  | .tower => 0
  | .migrationEpoch numTowerSlots numAgSlots _ =>
    inputs.epochInflationRewards * numAgSlots / (numTowerSlots + numAgSlots)
  | .alpenglow _ => inputs.epochInflationRewards

def delegatedTo (votePubkey : Pubkey) (epoch : ℕ) : ℕ :=
  ((inputs.stakeDelegations.filter fun account => voterPubkey account = votePubkey).map
    fun account =>
      (inputs.stakeHistory.delegationEffectiveStake account.stake.delegation epoch).toNat).sum

structure WithinBudget : Prop where
  rewards : inputs.epochInflationRewards ≤ u64Max
  /-- The points of the delegations add up without a wrap. -/
  points : (inputs.stakeDelegations.map inputs.towerPoints).sum < u128Modulus
  credits_grow : ∀ votePubkey voteState, inputs.voteAccounts votePubkey = some voteState →
    CreditsGrow voteState.epochCredits
  stakes : ∀ stakes, epochStakes inputs.epochType = some stakes →
    ∀ votePubkey total, stakes.delegatedStakes votePubkey = some total →
      inputs.delegatedTo votePubkey stakes.epoch ≤ total
  slots : SlotsFit inputs.epochType
  credits : ∑ votePubkey ∈ inputs.voters, inputs.votedCredits votePubkey ≤ inputs.agBudget

/-! ## Sum of the shares -/

def agShareOf (account : StakeAccount Pubkey) : ℕ :=
  (inputs.voteAccounts (voterPubkey account)).elim 0 fun voteState =>
    agShare inputs.stakeHistory account.stake voteState.epochCredits inputs.epochType

def shareOf (pointValue : PointValue) (account : StakeAccount Pubkey) : ℕ :=
  rewardShare pointValue (inputs.towerPoints account) (inputs.agShareOf account) inputs.epochType

variable {inputs} {account : StakeAccount Pubkey}

omit [DecidableEq Pubkey] in
theorem redeemable_eq_shareOf {voteState : DelegatedVoteState}
    (hvote : inputs.voteAccounts (voterPubkey account) = some voteState) (pointValue : PointValue) :
    redeemable inputs.stakeHistory account.stake pointValue voteState inputs.epochType =
      inputs.shareOf pointValue account := by
  unfold voterPubkey at hvote
  simp only [redeemable, shareOf, towerPoints, agShareOf, voterPubkey, hvote, Option.elim_some]

theorem WithinBudget.sum_group_le (h : inputs.WithinBudget) (votePubkey : Pubkey) :
    ((inputs.stakeDelegations.filter fun account => voterPubkey account = votePubkey).map
      inputs.agShareOf).sum ≤ inputs.votedCredits votePubkey := by
  have hvoter : ∀ account ∈ inputs.stakeDelegations.filter
      (fun account => voterPubkey account = votePubkey), voterPubkey account = votePubkey := by
    intro account hmem
    exact of_decide_eq_true (List.mem_filter.mp hmem).2
  have hzero : (∀ account, voterPubkey account = votePubkey → inputs.agShareOf account = 0) →
      ((inputs.stakeDelegations.filter fun account => voterPubkey account = votePubkey).map
        inputs.agShareOf).sum ≤ inputs.votedCredits votePubkey := by
    intro hzero
    rw [map_congr_left fun account hmem => hzero account (hvoter account hmem)]
    simp
  cases hvote : inputs.voteAccounts votePubkey with
  | none =>
    apply hzero
    intro account heq
    simp only [agShareOf, heq, hvote, Option.elim_none]
  | some voteState =>
    cases hstakes : epochStakes inputs.epochType with
    | none =>
      apply hzero
      intro account heq
      simp only [agShareOf, heq, hvote, Option.elim_some, agShare, hstakes, Option.elim_none]
    | some stakes =>
      have hshare : ∀ account, voterPubkey account = votePubkey → inputs.agShareOf account =
          floorShare (inputs.votedCredits votePubkey)
            ((stakes.delegatedStakes votePubkey).getD 0)
            (inputs.stakeHistory.delegationEffectiveStake account.stake.delegation
              stakes.epoch).toNat := by
        intro account heq
        have heq' : account.stake.delegation.voterPubkey = votePubkey := heq
        simp only [agShareOf, heq, hvote, Option.elim_some, agShare, hstakes, heq', votedCredits]
      cases htot : stakes.delegatedStakes votePubkey with
      | none =>
        apply hzero
        intro account heq
        rw [hshare account heq, htot]
        exact Nat.div_zero _
      | some total =>
        rw [map_congr_left fun account hmem => hshare account (hvoter account hmem), htot]
        exact sum_floorShare_le (h.stakes stakes hstakes votePubkey total htot)

theorem WithinBudget.sum_agShareOf_le (h : inputs.WithinBudget) :
    (inputs.stakeDelegations.map inputs.agShareOf).sum ≤ inputs.agBudget := by
  have hkeys : ∀ account ∈ inputs.stakeDelegations, voterPubkey account ∈ inputs.voters := by
    intro account hmem
    exact mem_toFinset.mpr (mem_map_of_mem hmem)
  rw [sum_map_eq_sum_groups voterPubkey inputs.agShareOf hkeys]
  exact (Finset.sum_le_sum fun votePubkey _ => h.sum_group_le votePubkey).trans h.credits

omit [DecidableEq Pubkey] in
theorem calculateRewardPointsPartitioned_rewards
    (h : inputs.calculateRewardPointsPartitioned = some pointValue) :
    pointValue.rewards = inputs.epochInflationRewards := by
  unfold calculateRewardPointsPartitioned at h
  split at h
  · cases h
    rfl
  · simp only [Option.ite_none_right_eq_some, Option.some.injEq] at h
    rw [← h.2]

omit [DecidableEq Pubkey] in
theorem points_le (h : inputs.calculateRewardPointsPartitioned = some pointValue) :
    pointValue.points ≤ (inputs.stakeDelegations.map inputs.towerPoints).sum := by
  unfold calculateRewardPointsPartitioned at h
  split at h
  · cases h
    exact zero_le _
  · simp only [Option.ite_none_right_eq_some, Option.some.injEq] at h
    rw [← h.2]
    exact mod_le _ _

section

variable (h : inputs.WithinBudget)
  (hpoints : inputs.calculateRewardPointsPartitioned = some pointValue)

include h hpoints

section

variable (hkind : ∀ stakes, inputs.epochType ≠ .alpenglow stakes)

include hkind

theorem WithinBudget.points_eq :
    pointValue.points = (inputs.stakeDelegations.map inputs.towerPoints).sum ∧
      0 < pointValue.points := by
  unfold calculateRewardPointsPartitioned at hpoints
  split at hpoints
  · rename_i stakes hstakes
    exact absurd hstakes (hkind stakes)
  · simp only [Option.ite_none_right_eq_some, Option.some.injEq, mod_eq_of_lt h.points] at hpoints
    rw [← hpoints.2]
    exact ⟨rfl, hpoints.1⟩

theorem WithinBudget.sum_towerShare_le :
    (inputs.stakeDelegations.map fun account =>
      floorShare pointValue.rewards pointValue.points (inputs.towerPoints account)).sum ≤
      pointValue.rewards :=
  sum_floorShare_le (h.points_eq hpoints hkind).1.ge

end

theorem WithinBudget.sum_shareOf_le :
    (inputs.stakeDelegations.map (inputs.shareOf pointValue)).sum ≤ pointValue.rewards := by
  have hrews := calculateRewardPointsPartitioned_rewards hpoints
  have hag := h.sum_agShareOf_le
  unfold agBudget at hag
  unfold shareOf
  cases hkind : inputs.epochType with
  | tower =>
    have hnot : ∀ stakes, inputs.epochType ≠ .alpenglow stakes := by
      intro stakes
      rw [hkind]
      exact nofun
    exact h.sum_towerShare_le hpoints hnot
  | migrationEpoch towerSlots agSlots stakes =>
    have hnot : ∀ stakes, inputs.epochType ≠ .alpenglow stakes := by
      intro stakes
      rw [hkind]
      exact nofun
    rw [hkind] at hag
    have hslots := h.slots
    rw [hkind] at hslots
    calc
      _ = (inputs.stakeDelegations.map fun account =>
            floorShare towerSlots (towerSlots + agSlots)
              (floorShare pointValue.rewards pointValue.points (inputs.towerPoints account))).sum +
          (inputs.stakeDelegations.map inputs.agShareOf).sum := sum_map_add
      _ ≤ floorShare towerSlots (towerSlots + agSlots) pointValue.rewards +
            pointValue.rewards * agSlots / (towerSlots + agSlots) := by
          rw [← hrews] at hag
          apply Nat.add_le_add _ hag
          exact (sum_floorShare_le_floorShare_sum _ _ _ _).trans
            (floorShare_mono (h.sum_towerShare_le hpoints hnot))
      _ ≤ pointValue.rewards * (towerSlots + agSlots) / (towerSlots + agSlots) := by
          rw [mul_add]
          exact div_add_div_le_add_div
      _ = pointValue.rewards := Nat.mul_div_cancel _ hslots.1
  | alpenglow stakes =>
    rw [hkind] at hag
    rw [hrews]
    exact hag

end

/-! ## Redemption -/

def redeemedBy (inputs : RewardInputs Pubkey) (pointValue : PointValue)
    (account : StakeAccount Pubkey) : ℕ :=
  match inputs.redeemDelegationRewards pointValue account with
  | .ok (some reward) =>
    reward.inflation.stakeReward + reward.rewardCommission.commissionLamports
  | _ => 0

variable (h : inputs.WithinBudget)

include h

theorem WithinBudget.redeemDelegationRewards_le {reward : InflationRewardWithCommission Pubkey}
    (hrew : inputs.redeemDelegationRewards pointValue account = .ok (some reward)) :
    reward.inflation.stakeReward + reward.rewardCommission.commissionLamports ≤
      inputs.shareOf pointValue account := by
  cases hvote : inputs.voteAccounts account.stake.delegation.voterPubkey with
  | none =>
    simp only [redeemDelegationRewards, hvote, redeemWithoutVoteAccount, Except.ok.injEq,
      Option.ite_none_right_eq_some, Option.some.injEq] at hrew
    rw [← hrew.2]
    exact zero_le _
  | some voteState =>
    simp only [redeemDelegationRewards, hvote] at hrew
    obtain ⟨redeemed, hredeemed, hrew⟩ := bind_eq_ok_iff.mp hrew
    cases redeemed with
    | none => cases hrew
    | some rewards =>
      cases hrew
      rw [← redeemable_eq_shareOf hvote]
      exact redeemRewards_le (h.credits_grow _ _ hvote) h.slots hredeemed

theorem WithinBudget.redeemedBy_le (pointValue : PointValue) (account : StakeAccount Pubkey) :
    inputs.redeemedBy pointValue account ≤ inputs.shareOf pointValue account := by
  unfold redeemedBy
  split
  · rename_i reward hrew
    exact h.redeemDelegationRewards_le hrew
  · exact zero_le _

theorem WithinBudget.sum_redeemedBy_le
    (hpoints : inputs.calculateRewardPointsPartitioned = some pointValue) :
    (inputs.stakeDelegations.map (inputs.redeemedBy pointValue)).sum ≤ pointValue.rewards :=
  calc
    _ ≤ (inputs.stakeDelegations.map (inputs.shareOf pointValue)).sum :=
        sum_le_sum fun account _ => h.redeemedBy_le pointValue account
    _ ≤ pointValue.rewards := h.sum_shareOf_le hpoints

variable (hpoints : inputs.calculateRewardPointsPartitioned = some pointValue)
  (hproduct : pointValue.points * pointValue.rewards < u128Modulus)

include hpoints hproduct

theorem WithinBudget.computable : Computable pointValue inputs.epochType where
  rewards := (calculateRewardPointsPartitioned_rewards hpoints).le.trans h.rewards
  product := hproduct
  slots := h.slots
  points := by
    intro towerSlots agSlots stakes hkind
    apply (h.points_eq hpoints _).2
    intro other
    rw [hkind]
    exact nofun

theorem WithinBudget.redeemDelegationRewards_returns (hmem : account ∈ inputs.stakeDelegations) :
    ∃ reward, inputs.redeemDelegationRewards pointValue account = .ok reward := by
  have hcomp := h.computable hpoints hproduct
  have hshare : inputs.shareOf pointValue account ≤ u64Max :=
    calc
      _ ≤ (inputs.stakeDelegations.map (inputs.shareOf pointValue)).sum :=
          single_le_sum (fun _ _ => zero_le _) _ (mem_map_of_mem hmem)
      _ ≤ pointValue.rewards := h.sum_shareOf_le hpoints
      _ ≤ u64Max := hcomp.rewards
  have htower : inputs.towerPoints account ≤ pointValue.points ∨
      ∃ stakes, inputs.epochType = .alpenglow stakes := by
    by_cases hkind : ∃ stakes, inputs.epochType = .alpenglow stakes
    · exact .inr hkind
    · left
      rw [(h.points_eq hpoints fun stakes heq => hkind ⟨stakes, heq⟩).1]
      exact single_le_sum (fun _ _ => zero_le _) _ (mem_map_of_mem hmem)
  cases hvote : inputs.voteAccounts account.stake.delegation.voterPubkey with
  | none =>
    simp only [redeemDelegationRewards, hvote]
    exact ⟨_, rfl⟩
  | some voteState =>
    rw [← redeemable_eq_shareOf hvote] at hshare
    simp only [towerPoints, hvote] at htower
    obtain ⟨rewards, hrews⟩ := calculateStakeRewards_returns (inputs.environment pointValue)
      (inputs.commissionBps account.stake.delegation.voterPubkey) _ (h.credits_grow _ _ hvote)
      hcomp htower hshare
    obtain ⟨result, hres, -⟩ :=
      redeemRewards_of_rewards account.lamports account.minimumLamports hrews
    simp only [redeemDelegationRewards, hvote, hres, bind, Except.bind, pure, Except.pure]
    exact ⟨_, rfl⟩

end RewardInputs

/-! ## Accumulation -/

def RewardCommission.lamports (commission : RewardCommission) : ℕ :=
  commission.commissionLamports + commission.burnedLamports

/-- Counters that hold a sum of lamports, where each of them may have saturated. -/
def Saturates (counted lamports : ℕ) : Prop :=
  counted ≤ lamports ∧ min lamports u64Max ≤ counted

theorem saturates_add (a b : ℕ) : Saturates (saturatingAdd a b) (a + b) :=
  ⟨min_le_left _ _, le_rfl⟩

theorem saturates_accumulateLamports (src dst : RewardCommission) :
    Saturates (accumulateLamports src dst).lamports (dst.lamports + src.lamports) := by
  unfold accumulateLamports RewardCommission.lamports Saturates saturatingAdd
  split <;> simp only <;> omega

variable {Pubkey : Type} [LinearOrder Pubkey]

def commissionsLamports (commissions : BTreeMap Pubkey RewardCommission) : ℕ :=
  (commissions.entries.map fun entry => entry.2.lamports).sum

variable {commissions : BTreeMap Pubkey RewardCommission} (accounts : CommissionAccounts Pubkey)
  {pubkey : Pubkey}

theorem commissionsLamports_insert_new (h : commissions.get? pubkey = none)
    (commission : RewardCommission) :
    commissionsLamports (commissions.insert pubkey commission).2 =
      commission.lamports + commissionsLamports commissions := by
  unfold commissionsLamports
  rw [((commissions.insert_perm commission h).map _).sum_eq]
  rfl

theorem commissionsLamports_insert_present {present : RewardCommission}
    (h : commissions.get? pubkey = some present) (commission : RewardCommission) :
    commissionsLamports (commissions.insert pubkey commission).2 + present.lamports =
      commission.lamports + commissionsLamports commissions := by
  have hremoved : (commissions.remove pubkey).2.get? pubkey = none := by
    rw [get?_remove, if_pos rfl]
  have hins : (commissions.insert pubkey commission).2 =
      ((commissions.remove pubkey).2.insert pubkey commission).2 := by
    apply ext_get?
    intro key
    rw [get?_insert, get?_insert, get?_remove]
    split <;> rfl
  have hpres : commissionsLamports commissions =
      present.lamports + commissionsLamports (commissions.remove pubkey).2 := by
    have hmem := (commissions.get?_eq_some_iff pubkey present).mp h
    unfold commissionsLamports
    rw [((commissions.remove_perm hmem).map _).sum_eq]
    rfl
  rw [hins, commissionsLamports_insert_new hremoved, hpres]
  omega

theorem saturates_addCommission (commissions : BTreeMap Pubkey RewardCommission)
    (entry : Pubkey × RewardCommission) :
    Saturates (commissionsLamports (addCommission commissions entry))
      (commissionsLamports commissions + entry.2.lamports) := by
  unfold addCommission
  cases hpres : commissions.get? entry.1 with
  | none =>
    rw [commissionsLamports_insert_new hpres, add_comm]
    exact ⟨le_rfl, min_le_left _ _⟩
  | some present =>
    have hsum := saturates_accumulateLamports entry.2 present
    have hins := commissionsLamports_insert_present hpres (accumulateLamports entry.2 present)
    have hle : present.lamports ≤ commissionsLamports commissions :=
      single_le_sum (fun _ _ => zero_le _) _
        (mem_map_of_mem ((commissions.get?_eq_some_iff entry.1 present).mp hpres))
    unfold Saturates at hsum ⊢
    simp only
    omega

theorem saturates_foldl_addCommission (entries : List (Pubkey × RewardCommission))
    (commissions : BTreeMap Pubkey RewardCommission) :
    Saturates (commissionsLamports (entries.foldl addCommission commissions))
      (commissionsLamports commissions + (entries.map fun entry => entry.2.lamports).sum) := by
  induction entries generalizing commissions with
  | nil => exact ⟨le_rfl, min_le_left _ _⟩
  | cons entry entries ih =>
    have hentry := saturates_addCommission commissions entry
    have hrest := ih (addCommission commissions entry)
    rw [foldl_cons, map_cons, sum_cons]
    unfold Saturates at *
    omega

namespace RewardsAccumulator

def lamports (accumulator : RewardsAccumulator Pubkey) : ℕ :=
  accumulator.totalStakeRewardsLamports + commissionsLamports accumulator.rewardCommissions

theorem saturates_addReward (accumulator : RewardsAccumulator Pubkey)
    (reward : RewardAccumulation Pubkey) :
    Saturates (accumulator.addReward reward).lamports (accumulator.lamports +
      (reward.stakeReward + reward.commission.elim 0 fun commission => commission.2.lamports)) := by
  have hstake := saturates_add accumulator.totalStakeRewardsLamports reward.stakeReward
  unfold lamports addReward
  cases reward.commission with
  | none =>
    unfold Saturates at *
    simp only [Option.elim_none]
    omega
  | some commission =>
    have hcomm := saturates_addCommission accumulator.rewardCommissions commission
    unfold Saturates at *
    simp only [Option.elim_some]
    omega

theorem saturates_mergeInto (src dst : RewardsAccumulator Pubkey) :
    Saturates (src.mergeInto dst).lamports (src.lamports + dst.lamports) := by
  have hstake := saturates_add dst.totalStakeRewardsLamports src.totalStakeRewardsLamports
  have hcomms := saturates_foldl_addCommission src.rewardCommissions.entries dst.rewardCommissions
  unfold lamports mergeInto
  unfold Saturates commissionsLamports at *
  simp only
  omega

theorem saturates_accumulateIntoLarger (left right : RewardsAccumulator Pubkey) :
    Saturates (left.accumulateIntoLarger right).lamports (left.lamports + right.lamports) := by
  unfold accumulateIntoLarger
  split
  · rw [add_comm]
    exact saturates_mergeInto right left
  · exact saturates_mergeInto left right

end RewardsAccumulator

namespace RewardInputs

variable {inputs : RewardInputs Pubkey} {accumulator : RewardsAccumulator Pubkey}

omit [LinearOrder Pubkey] in
theorem burnedLamports_eq_zero [DecidableEq Pubkey] {inputs : RewardInputs Pubkey}
    {account : StakeAccount Pubkey} {reward : InflationRewardWithCommission Pubkey}
    (hrew : inputs.redeemDelegationRewards pointValue account = .ok (some reward)) :
    reward.rewardCommission.burnedLamports = 0 := by
  cases hvote : inputs.voteAccounts account.stake.delegation.voterPubkey with
  | none =>
    simp only [redeemDelegationRewards, hvote, redeemWithoutVoteAccount, Except.ok.injEq,
      Option.ite_none_right_eq_some, Option.some.injEq] at hrew
    rw [← hrew.2]
  | some voteState =>
    simp only [redeemDelegationRewards, hvote] at hrew
    obtain ⟨redeemed, -, hrew⟩ := bind_eq_ok_iff.mp hrew
    cases redeemed <;> cases hrew
    rfl

theorem saturates_accumulateAccount {next : RewardsAccumulator Pubkey}
    {account : StakeAccount Pubkey}
    (hnext : inputs.accumulateAccount pointValue accumulator account = .ok next) :
    Saturates next.lamports (accumulator.lamports + inputs.redeemedBy pointValue account) := by
  obtain ⟨record, hrec, hnext⟩ := bind_eq_ok_iff.mp hnext
  obtain ⟨reward, hrew, hrec⟩ := bind_eq_ok_iff.mp hrec
  unfold redeemedBy
  rw [hrew]
  cases reward with
  | none =>
    cases hnext
    cases hrec
    split
    · exact ⟨le_rfl, min_le_left _ _⟩
    · exact RewardsAccumulator.saturates_addReward accumulator ⟨0, none⟩
  | some reward =>
    cases hrec
    cases hnext
    have hsum := RewardsAccumulator.saturates_addReward accumulator ⟨reward.inflation.stakeReward,
      some (reward.commissionPubkey, reward.rewardCommission)⟩
    rwa [Option.elim_some, RewardCommission.lamports, burnedLamports_eq_zero hrew] at hsum

theorem saturates_foldlM {accounts : List (StakeAccount Pubkey)} {last : RewardsAccumulator Pubkey}
    (hlast : accounts.foldlM (inputs.accumulateAccount pointValue) accumulator = .ok last) :
    Saturates last.lamports
      (accumulator.lamports + (accounts.map (inputs.redeemedBy pointValue)).sum) := by
  induction accounts generalizing accumulator with
  | nil =>
    cases hlast
    exact ⟨le_rfl, min_le_left _ _⟩
  | cons account accounts ih =>
    obtain ⟨next, hnext, hlast⟩ := bind_eq_ok_iff.mp hlast
    have hstep := saturates_accumulateAccount hnext
    have hrest := ih hlast
    rw [map_cons, sum_cons]
    unfold Saturates at *
    omega

variable {reduction : Reduction (StakeAccount Pubkey)}

theorem saturates_accumulate
    (haccum : inputs.accumulate pointValue reduction = .ok accumulator) :
    Saturates accumulator.lamports (reduction.items.map (inputs.redeemedBy pointValue)).sum := by
  induction reduction generalizing accumulator with
  | chunk accounts =>
    have hsum := saturates_foldlM haccum
    have hnew : (RewardsAccumulator.new : RewardsAccumulator Pubkey).lamports = 0 := rfl
    rwa [hnew, zero_add] at hsum
  | merge left right ihleft ihright =>
    obtain ⟨leftAccumulator, hleft, haccum⟩ := bind_eq_ok_iff.mp haccum
    obtain ⟨rightAccumulator, hright, haccum⟩ := bind_eq_ok_iff.mp haccum
    cases haccum
    have hmerge :=
      RewardsAccumulator.saturates_accumulateIntoLarger leftAccumulator rightAccumulator
    have hleft := ihleft hleft
    have hright := ihright hright
    rw [Reduction.items, map_append, sum_append_nat]
    unfold Saturates at *
    omega

theorem accumulate_returns (reduction : Reduction (StakeAccount Pubkey))
    (hret : ∀ account ∈ reduction.items,
      ∃ reward, inputs.redeemDelegationRewards pointValue account = .ok reward) :
    ∃ accumulator, inputs.accumulate pointValue reduction = .ok accumulator := by
  induction reduction with
  | chunk accounts =>
    obtain ⟨last, hlast, -⟩ := Traces.foldlM_ok_of_step (inputs.accumulateAccount pointValue)
      (fun left _ => ∀ account ∈ left,
        ∃ reward, inputs.redeemDelegationRewards pointValue account = .ok reward)
      (fun account left accumulator hleft => by
        obtain ⟨reward, hrew⟩ := hleft account mem_cons_self
        have hrec : ∃ record, inputs.rewardRecord pointValue account = .ok record := by
          simp only [rewardRecord, hrew, bind, Except.bind, pure, Except.pure]
          split
          · exact ⟨_, rfl⟩
          · exact ⟨_, rfl⟩
        obtain ⟨record, hrec⟩ := hrec
        simp only [accumulateAccount, hrec, bind, Except.bind, pure, Except.pure]
        exact ⟨_, rfl, fun other hother => hleft other (mem_cons_of_mem _ hother)⟩)
      accounts hret
    exact ⟨last, hlast⟩
  | merge left right ihleft ihright =>
    simp only [Reduction.items, mem_append] at hret
    obtain ⟨leftAccumulator, hleft⟩ := ihleft fun account hmem => hret account (.inl hmem)
    obtain ⟨rightAccumulator, hright⟩ := ihright fun account hmem => hret account (.inr hmem)
    simp only [accumulate, hleft, hright, bind, Except.bind, pure, Except.pure]
    exact ⟨_, rfl⟩

theorem WithinBudget.distribution (h : inputs.WithinBudget)
    (hitems : reduction.items = inputs.stakeDelegations)
    (hrun : inputs.calculateValidatorRewards reduction = .ok (pointValue, accumulator)) :
    accumulator.lamports ≤ pointValue.rewards := by
  unfold calculateValidatorRewards at hrun
  split at hrun
  · cases hrun
    exact le_rfl
  · rename_i value hval
    obtain ⟨result, hres, hrun⟩ := bind_eq_ok_iff.mp hrun
    cases hrun
    have hsum := (saturates_accumulate hres).1
    rw [hitems] at hsum
    exact hsum.trans (h.sum_redeemedBy_le hval)

end RewardInputs

/-! ## Distribution of the commissions -/

omit [LinearOrder Pubkey] in
theorem CommissionAccounts.outcome_le (pubkey : Pubkey) (commission : RewardCommission) :
    (accounts.outcome pubkey commission).incinerated ≤
        (accounts.outcome pubkey commission).rewarded ∧
      (accounts.outcome pubkey commission).rewarded +
        (accounts.outcome pubkey commission).burned ≤ commission.lamports := by
  unfold outcome RewardCommission.lamports
  have hburned : 0 + (commission.burnedLamports + commission.commissionLamports) ≤
      commission.commissionLamports + commission.burnedLamports := by omega
  split
  · exact ⟨le_rfl, zero_le _⟩
  · simp only
    split
    · exact ⟨le_rfl, hburned⟩
    · split
      · exact ⟨zero_le _, le_rfl⟩
      · split
        · exact ⟨zero_le _, le_rfl⟩
        · exact ⟨le_rfl, le_rfl⟩
        · exact ⟨le_rfl, hburned⟩

theorem CommissionAccounts.loadAndReward_le (commissions : BTreeMap Pubkey RewardCommission) :
    (accounts.loadAndRewardCommissionAccounts commissions).distributedLamports +
      (accounts.loadAndRewardCommissionAccounts commissions).distributedToIncineratorLamports +
      (accounts.loadAndRewardCommissionAccounts commissions).burnedLamports ≤
        commissionsLamports commissions := by
  have hsums : ∀ entries : List (Pubkey × RewardCommission),
      (entries.map fun entry => (accounts.outcome entry.1 entry.2).incinerated).sum ≤
          (entries.map fun entry => (accounts.outcome entry.1 entry.2).rewarded).sum ∧
        (entries.map fun entry => (accounts.outcome entry.1 entry.2).rewarded).sum +
          (entries.map fun entry => (accounts.outcome entry.1 entry.2).burned).sum ≤
          (entries.map fun entry => entry.2.lamports).sum := by
    intro entries
    induction entries with
    | nil => exact ⟨le_rfl, le_rfl⟩
    | cons entry entries ih =>
      have hentry := accounts.outcome_le entry.1 entry.2
      simp only [map_cons, sum_cons]
      omega
  have hle := hsums commissions.entries
  simp only [loadAndRewardCommissionAccounts, map_map, Function.comp_def, commissionsLamports]
  omega

/-- The delegations redeem at most the rewards of the epoch, and the check of the
distribution never fails.  The calculation returns where its products fit into 128 bits. -/
theorem epoch_rewards_within_budget (inputs : RewardInputs Pubkey) (h : inputs.WithinBudget) :
    (∀ pointValue, inputs.calculateRewardPointsPartitioned = some pointValue →
      (inputs.stakeDelegations.map (inputs.redeemedBy pointValue)).sum ≤ pointValue.rewards) ∧
    ∀ reduction : Reduction (StakeAccount Pubkey), reduction.items = inputs.stakeDelegations →
      (∀ pointValue accumulator,
        inputs.calculateValidatorRewards reduction = .ok (pointValue, accumulator) →
        ∀ accounts : CommissionAccounts Pubkey,
          distributionWithinRewards accounts pointValue accumulator) ∧
      ((inputs.stakeDelegations.map inputs.towerPoints).sum * inputs.epochInflationRewards <
          u128Modulus →
        ∃ result, inputs.calculateValidatorRewards reduction = .ok result) := by
  constructor
  · intro pointValue hpoints
    exact h.sum_redeemedBy_le hpoints
  · intro reduction hitems
    constructor
    · intro pointValue accumulator hrun accounts
      have hle := h.distribution hitems hrun
      have hamounts := accounts.loadAndReward_le accumulator.rewardCommissions
      unfold RewardsAccumulator.lamports at hle
      unfold distributionWithinRewards
      simp only
      omega
    · intro hproduct
      unfold RewardInputs.calculateValidatorRewards
      cases hpoints : inputs.calculateRewardPointsPartitioned with
      | none => exact ⟨_, rfl⟩
      | some pointValue =>
        have hfits : pointValue.points * pointValue.rewards < u128Modulus := by
          rw [RewardInputs.calculateRewardPointsPartitioned_rewards hpoints]
          refine (mul_le_mul_right _ ?_).trans_lt hproduct
          exact RewardInputs.points_le hpoints
        obtain ⟨accumulator, haccumulator⟩ := RewardInputs.accumulate_returns reduction
          fun account hmem => h.redeemDelegationRewards_returns hpoints hfits (hitems ▸ hmem)
        simp only [haccumulator, bind, Except.bind, pure, Except.pure]
        exact ⟨_, rfl⟩

/-- Two delegations to vote account 1 in a migration epoch of six Tower slots and four
Alpenglow slots. -/
def sampleInputs : RewardInputs ℕ where
  stakeHistory := ⟨fun delegation _ => UInt64.ofNat delegation.stake,
    fun delegation _ => ⟨delegation.stake, 0⟩⟩
  stakeDelegations := [⟨⟨⟨1, 30, 0, 9⟩, 0⟩, 40, 10⟩, ⟨⟨⟨1, 70, 0, 9⟩, 0⟩, 80, 10⟩]
  voteAccounts votePubkey :=
    if votePubkey = 1 then
      some (.ofEpochCredits [(4, 10, 0), agMigrationEpochCredit, (5, 50, 10)])
    else none
  commissionBps _ := 1000
  inflationRewardsCollector _ := none
  blockReward _ := 0
  rewardedEpoch := 5
  epochInflationRewards := 100
  epochType := .migrationEpoch 6 4 ⟨5, fun votePubkey => if votePubkey = 1 then some 100 else none⟩
  adjustDelegationsForRent := true
  customCommissionCollector := false

theorem sampleInputs_withinBudget : sampleInputs.WithinBudget where
  rewards := by decide
  points := by decide +kernel
  credits_grow := by
    intro votePubkey voteState hvote
    simp only [sampleInputs, Option.ite_none_right_eq_some, Option.some.injEq] at hvote
    rw [← hvote.2]
    unfold CreditsGrow
    decide
  stakes := by
    intro stakes hstakes votePubkey total htot
    cases hstakes
    rw [Option.ite_none_right_eq_some] at htot
    rw [htot.1, ← Option.some.inj htot.2]
    decide
  slots := by
    unfold SlotsFit sampleInputs
    decide
  credits := by decide

theorem epoch_rewards_within_budget_migration :
    sampleInputs.calculateRewardPointsPartitioned = some ⟨100, 1000⟩ ∧
      (sampleInputs.stakeDelegations.map (sampleInputs.redeemedBy ⟨100, 1000⟩)).sum = 100 ∧
      (sampleInputs.stakeDelegations.map (sampleInputs.redeemedBy ⟨100, 1000⟩)).sum ≤ 100 := by
  have hpoints : sampleInputs.calculateRewardPointsPartitioned = some ⟨100, 1000⟩ := by
    decide +kernel
  exact ⟨hpoints, by decide +kernel,
    (epoch_rewards_within_budget sampleInputs sampleInputs_withinBudget).1 _ hpoints⟩

end RakuraiValidator.InflationRewards
