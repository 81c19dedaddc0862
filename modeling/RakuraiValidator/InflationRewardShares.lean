import RakuraiValidator.DescendingPasses
import RakuraiValidator.FloorShares
import RakuraiValidator.InflationRewards

/-!
# The reward of a delegation is at most a share

The two entry points of the point calculation agree on the points before the marker, and the
credits after the marker are divided in proportion to the effective stakes.
-/

namespace RakuraiValidator.InflationRewards

open Vote VoteReward CalculatedStakeRewards Nat DescendingPasses List

variable {Pubkey : Type} (history : StakeHistory Pubkey) (stake : Stake Pubkey)

/-! ## Points -/

def afterMarker : List (ℕ × ℕ × ℕ) → List (ℕ × ℕ × ℕ)
  | [] => []
  | entry :: epochCredits =>
    if entry = agMigrationEpochCredit then epochCredits else afterMarker epochCredits

variable (epochCredits : List (ℕ × ℕ × ℕ))

theorem towerEpochCreditsIter_rest (points observed : ℕ) :
    (towerEpochCreditsIter history stake epochCredits points observed).2.2.2 =
      afterMarker epochCredits := by
  induction epochCredits generalizing points observed with
  | nil => rfl
  | cons entry epochCredits ih =>
    unfold towerEpochCreditsIter afterMarker
    by_cases hmarker : entry = agMigrationEpochCredit
    · rw [if_pos hmarker, if_pos hmarker]
    · rw [if_neg hmarker, if_neg hmarker]
      exact ih _ _

def rewardEntry : AlpenglowEpochType Pubkey → Option (ℕ × ℕ × ℕ)
  | .tower => none
  | .migrationEpoch _ _ _ => (afterMarker epochCredits).head?
  | .alpenglow _ => epochCredits.getLast?

def epochStakes : AlpenglowEpochType Pubkey → Option (RewardEpochDelegatedStakes Pubkey)
  | .tower => none
  | .migrationEpoch _ _ stakes => some stakes
  | .alpenglow stakes => some stakes

def creditsIn (epoch : ℕ) (entry : Option (ℕ × ℕ × ℕ)) : ℕ :=
  entry.elim 0 fun (entryEpoch, finalEpochCredits, initialEpochCredits) =>
    if entryEpoch = epoch then finalEpochCredits - initialEpochCredits else 0

def agCredits (epochType : AlpenglowEpochType Pubkey) : ℕ :=
  (epochStakes epochType).elim 0 fun stakes =>
    creditsIn stakes.epoch (rewardEntry epochCredits epochType)

def agShare (epochType : AlpenglowEpochType Pubkey) : ℕ :=
  (epochStakes epochType).elim 0 fun stakes =>
    floorShare (agCredits epochCredits epochType)
      ((stakes.delegatedStakes stake.delegation.voterPubkey).getD 0)
      (history.delegationEffectiveStake stake.delegation stakes.epoch).toNat

def CreditsGrow : Prop :=
  ∀ entry ∈ epochCredits, entry.2.2 ≤ entry.2.1 ∧ entry.2.1 ≤ u64Max

variable {a b : ℕ}

theorem wrappingSub_of_le (hle : b ≤ a) (hfits : a ≤ u64Max) : wrappingSub a b = a - b := by
  unfold wrappingSub
  unfold u64Max at hfits
  omega

variable {history stake}

omit history in
theorem calcEarnedCredits_le {finalEpochCredits initialEpochCredits : ℕ}
    (hgrow : initialEpochCredits ≤ finalEpochCredits) (hfits : finalEpochCredits ≤ u64Max) :
    (calcEarnedCredits stake finalEpochCredits initialEpochCredits stake.creditsObserved).1 ≤
      finalEpochCredits - initialEpochCredits := by
  simp only [calcEarnedCredits]
  split
  · exact (wrappingSub_of_le hgrow hfits).le
  · split
    · rename_i hobs hpartial
      rw [wrappingSub_of_le hpartial.le hfits]
      omega
    · exact zero_le _

variable {stakes : RewardEpochDelegatedStakes Pubkey} {entry : Option (ℕ × ℕ × ℕ)}

theorem calculateAlpenglowPoints_le {result : ℕ × ℕ}
    (hgrow : ∀ credits, entry = some credits → credits.2.2 ≤ credits.2.1 ∧ credits.2.1 ≤ u64Max)
    (h : calculateAlpenglowPoints history stake entry stakes = .ok result) :
    result.1 ≤ floorShare (creditsIn stakes.epoch entry)
      ((stakes.delegatedStakes stake.delegation.voterPubkey).getD 0)
      (history.delegationEffectiveStake stake.delegation stakes.epoch).toNat := by
  unfold calculateAlpenglowPoints at h
  cases entry with
  | none =>
    cases h
    exact zero_le _
  | some credits =>
    obtain ⟨epoch, finalEpochCredits, initialEpochCredits⟩ := credits
    obtain ⟨hle, hfits⟩ := hgrow _ rfl
    simp only at h
    split at h
    · cases h
      exact zero_le _
    rename_i hepoch
    split at h
    · cases h
      exact zero_le _
    split at h
    · cases h
    rename_i total htot
    cases h
    have hepoch : epoch = stakes.epoch := not_not.mp hepoch
    have hstakes := (Option.filter_eq_some_iff.mp htot).1
    simp only [hstakes, Option.getD_some, creditsIn, Option.elim_some, hepoch, if_true]
    unfold floorShare
    rw [mul_comm]
    exact Nat.div_le_div_right (mul_le_mul_left _ (calcEarnedCredits_le hle hfits))

theorem afterMarker_subset :
    ∀ entry ∈ afterMarker epochCredits, entry ∈ epochCredits := by
  induction epochCredits with
  | nil => simp [afterMarker]
  | cons first epochCredits ih =>
    intro entry hmem
    unfold afterMarker at hmem
    split at hmem
    · exact mem_cons_of_mem _ hmem
    · exact mem_cons_of_mem _ (ih entry hmem)

variable {epochCredits : List (ℕ × ℕ × ℕ)}

omit history stake in
theorem CreditsGrow.rewardEntry (h : CreditsGrow epochCredits)
    (epochType : AlpenglowEpochType Pubkey) (credits : ℕ × ℕ × ℕ)
    (hentry : rewardEntry epochCredits epochType = some credits) :
    credits.2.2 ≤ credits.2.1 ∧ credits.2.1 ≤ u64Max := by
  cases epochType with
  | tower => cases hentry
  | migrationEpoch _ _ _ =>
    exact h credits (afterMarker_subset _ _ (mem_of_mem_head? hentry))
  | alpenglow _ => exact h credits (mem_of_getLast? hentry)

variable {epochType : AlpenglowEpochType Pubkey}

theorem calculateEpochPoints_le (hgrow : CreditsGrow epochCredits) {result : ℕ × ℕ × ℕ}
    (h : calculateEpochPoints history stake epochCredits epochType = .ok result) :
    result.1 ≤ (towerEpochCreditsIter history stake epochCredits 0 stake.creditsObserved).1 ∧
      result.2.1 ≤ agShare history stake epochCredits epochType := by
  cases epochType with
  | tower =>
    cases h
    exact ⟨le_rfl, le_rfl⟩
  | migrationEpoch towerSlots agSlots stakes =>
    have hpays := hgrow.rewardEntry (.migrationEpoch towerSlots agSlots stakes)
    simp only [calculateEpochPoints, calculateMigrationPoints,
      towerEpochCreditsIter_rest history stake] at h
    split at h
    · obtain ⟨points, hpts, h⟩ := bind_eq_ok_iff.mp h
      cases h
      have hle := calculateAlpenglowPoints_le hpays hpts
      exact ⟨le_rfl, hle⟩
    · cases h
      exact ⟨le_rfl, zero_le _⟩
  | alpenglow stakes =>
    have hpays := hgrow.rewardEntry (.alpenglow stakes)
    obtain ⟨points, hpts, h⟩ := bind_eq_ok_iff.mp h
    cases h
    exact ⟨zero_le _, calculateAlpenglowPoints_le hpays hpts⟩

variable {skipped : CalculatedStakePoints}

theorem calculateAlpenglowPoints_error
    (h : calculateAlpenglowPoints history stake entry stakes = .error skipped) :
    skipped.towerPoints = 0 ∧ skipped.agPoints = 0 := by
  unfold calculateAlpenglowPoints at h
  cases entry with
  | none => cases h
  | some credits =>
    simp only at h
    split at h
    · cases h
    split at h
    · cases h
    split at h
    · cases h
      exact ⟨rfl, rfl⟩
    · cases h

theorem calculateEpochPoints_error
    (h : calculateEpochPoints history stake epochCredits epochType = .error skipped) :
    skipped.towerPoints = 0 ∧ skipped.agPoints = 0 := by
  cases epochType with
  | tower => cases h
  | migrationEpoch towerSlots agSlots stakes =>
    simp only [calculateEpochPoints, calculateMigrationPoints, bind, Except.bind, pure,
      Except.pure] at h
    split at h
    · split at h
      · rename_i hskipped
        cases h
        exact calculateAlpenglowPoints_error hskipped
      · cases h
    · cases h
  | alpenglow stakes =>
    simp only [calculateEpochPoints, bind, Except.bind, pure, Except.pure] at h
    split at h
    · rename_i hskipped
      cases h
      exact calculateAlpenglowPoints_error hskipped
    · cases h

variable {voteState : DelegatedVoteState}

theorem calculateStakePointsAndCredits_le (history : StakeHistory Pubkey) (stake : Stake Pubkey)
    (hgrow : CreditsGrow voteState.epochCredits) (epochType : AlpenglowEpochType Pubkey) :
    (calculateStakePointsAndCredits history stake voteState epochType).towerPoints ≤
        calculatePointsForTower history stake voteState ∧
      (calculateStakePointsAndCredits history stake voteState epochType).agPoints ≤
        agShare history stake voteState.epochCredits epochType := by
  unfold calculatePointsForTower calculateStakePointsAndCredits
  split
  · exact ⟨le_rfl, zero_le _⟩
  · split
    · exact ⟨le_rfl, zero_le _⟩
    · cases hpts : calculateEpochPoints history stake voteState.epochCredits epochType with
      | ok result => exact calculateEpochPoints_le hgrow hpts
      | error skipped =>
        obtain ⟨htower, hag⟩ := calculateEpochPoints_error hpts
        simp only [htower, hag]
        exact ⟨zero_le _, zero_le _⟩

/-! ## Rewards -/

def rewardShare (pointValue : PointValue) (towerPoints agPoints : ℕ) : AlpenglowEpochType Pubkey → ℕ
  | .tower => floorShare pointValue.rewards pointValue.points towerPoints
  | .migrationEpoch numTowerSlots numAgSlots _ =>
    floorShare numTowerSlots (numTowerSlots + numAgSlots)
      (floorShare pointValue.rewards pointValue.points towerPoints) + agPoints
  | .alpenglow _ => agPoints

def SlotsFit : AlpenglowEpochType Pubkey → Prop
  | .migrationEpoch numTowerSlots numAgSlots _ =>
    0 < numTowerSlots + numAgSlots ∧ numTowerSlots + numAgSlots ≤ u64Max
  | _ => True

theorem rewardShare_mono (pointValue : PointValue) {tower tower' ag ag' : ℕ} (htower : tower ≤ tower')
    (hag : ag ≤ ag') (epochType : AlpenglowEpochType Pubkey) :
    rewardShare pointValue tower ag epochType ≤ rewardShare pointValue tower' ag' epochType := by
  cases epochType with
  | tower => exact floorShare_mono htower
  | migrationEpoch towerSlots agSlots stakes =>
    exact Nat.add_le_add (floorShare_mono (floorShare_mono htower)) hag
  | alpenglow stakes => exact hag

theorem SlotsFit.mod_eq {towerSlots agSlots : ℕ}
    (h : SlotsFit (.migrationEpoch towerSlots agSlots stakes)) :
    (towerSlots + agSlots) % 2 ^ 64 = towerSlots + agSlots := by
  have hle := h.2
  unfold u64Max at hle
  omega

variable {failure : RewardFailure} {towerPoints : ℕ}

theorem checkedMul_ok {product : ℕ} (h : checkedMul failure a b = .ok product) :
    product = a * b := by
  unfold checkedMul at h
  split at h
  · cases h
    rfl
  · cases h

theorem checkedDiv_ok {quotient : ℕ} (h : checkedDiv failure a b = .ok quotient) :
    quotient = a / b := by
  unfold checkedDiv at h
  split at h
  · cases h
  · cases h
    rfl

variable {pointValue : PointValue}

theorem scalePoints_ok {points scaled : ℕ} (h : scalePoints pointValue points = .ok scaled) :
    scaled = floorShare pointValue.rewards pointValue.points points := by
  obtain ⟨product, hprod, h⟩ := bind_eq_ok_iff.mp h
  rw [checkedDiv_ok h, checkedMul_ok hprod, floorShare]

theorem rewardsOfPoints_le {agPoints rewards : ℕ} (hslots : SlotsFit epochType)
    (h : rewardsOfPoints pointValue towerPoints agPoints epochType = .ok (some rewards)) :
    rewards ≤ rewardShare pointValue towerPoints agPoints epochType := by
  cases epochType with
  | tower =>
    simp only [rewardsOfPoints] at h
    split at h
    · cases h
    obtain ⟨scaled, hscaled, h⟩ := bind_eq_ok_iff.mp h
    cases h
    exact (scalePoints_ok hscaled).le
  | migrationEpoch towerSlots agSlots stakes =>
    simp only [rewardsOfPoints] at h
    split at h
    · cases h
    split at h
    · cases h
    obtain ⟨scaled, hscaled, h⟩ := bind_eq_ok_iff.mp h
    obtain ⟨product, hprod, h⟩ := bind_eq_ok_iff.mp h
    obtain ⟨towerRewards, htower, h⟩ := bind_eq_ok_iff.mp h
    cases h
    rw [checkedDiv_ok htower, checkedMul_ok hprod, scalePoints_ok hscaled, hslots.mod_eq]
    exact mod_le _ _
  | alpenglow stakes =>
    simp only [rewardsOfPoints, Except.ok.injEq, Option.ite_none_left_eq_some,
      Option.some.injEq] at h
    exact h.2.ge

theorem commissionSplit_le (commissionBps on : ℕ) :
    (commissionSplit commissionBps on).1 + (commissionSplit commissionBps on).2.1 ≤ on := by
  have hsplit : min commissionBps maxBps ≤ maxBps := min_le_right _ _
  simp only [commissionSplit]
  split
  · exact (zero_add on).le
  · split
    · exact (add_zero on).le
    · have hpos : 0 < maxBps := by decide
      calc
        _ ≤ (on * min commissionBps maxBps + on * (maxBps - min commissionBps maxBps)) / maxBps :=
            div_add_div_le_add_div
        _ = on := by
            rw [← Nat.mul_add, Nat.add_sub_cancel' hsplit, Nat.mul_div_cancel _ hpos]

theorem commissionSplitPreserveLamports_eq (commissionBps on : ℕ) :
    (commissionSplitPreserveLamports commissionBps on).1 +
      (commissionSplitPreserveLamports commissionBps on).2.1 = on := by
  simp only [commissionSplitPreserveLamports]
  split
  · exact zero_add on
  · split
    · exact add_zero on
    · apply Nat.sub_add_cancel
      apply Nat.div_le_of_le_mul
      rw [Nat.mul_comm]
      exact mul_le_mul_right on (sub_le _ _)

variable {voterCommissionBps : ℕ} {result : CalculatedStakeRewards}

theorem splitRewards_le {newCreditsObserved rewards : ℕ} {isTowerEpoch : Bool}
    (h : splitRewards voterCommissionBps isTowerEpoch newCreditsObserved rewards = some result) :
    result.stakerRewards + result.voterRewards ≤ rewards := by
  simp only [splitRewards, Option.ite_none_left_eq_some, Option.some.injEq] at h
  rw [← h.2]
  simp only
  rw [add_comm]
  split
  · exact commissionSplit_le _ _
  · exact (commissionSplitPreserveLamports_eq _ _).le

def redeemable (history : StakeHistory Pubkey) (stake : Stake Pubkey) (pointValue : PointValue)
    (voteState : DelegatedVoteState) (epochType : AlpenglowEpochType Pubkey) : ℕ :=
  rewardShare pointValue (calculatePointsForTower history stake voteState)
    (agShare history stake voteState.epochCredits epochType) epochType

variable {environment : CalculationEnvironment Pubkey}

section

variable (hgrow : CreditsGrow voteState.epochCredits) (hslots : SlotsFit epochType)

include hgrow hslots

theorem calculateStakeRewards_le {status : StakeActivationStatus}
    (h : calculateStakeRewards stake voterCommissionBps voteState environment epochType status =
      .ok (some result)) :
    result.stakerRewards + result.voterRewards ≤
      redeemable environment.stakeHistory stake environment.pointValue voteState epochType := by
  have hskip : ∀ {condition : Prop} [Decidable condition] {observed : ℕ},
      (if condition then some (mk 0 0 observed) else none) = some result →
      result.stakerRewards + result.voterRewards ≤
        redeemable environment.stakeHistory stake environment.pointValue voteState epochType := by
    intro condition _ observed hres
    rw [Option.ite_none_right_eq_some] at hres
    cases hres.2
    exact zero_le _
  obtain ⟨htower, hag⟩ := calculateStakePointsAndCredits_le
    environment.stakeHistory stake hgrow epochType
  simp only [calculateStakeRewards, bind, Except.bind, pure, Except.pure] at h
  split at h
  · cases h
    exact zero_le _
  split at h
  · cases h
  rename_i maybeRewards hrews
  cases maybeRewards with
  | none => exact hskip (Except.ok.inj h)
  | some rewards =>
    simp only at h
    split at h
    · cases h
    split at h
    · exact hskip (Except.ok.inj h)
    · exact (splitRewards_le (Except.ok.inj h)).trans
        ((rewardsOfPoints_le hslots hrews).trans (rewardShare_mono _ htower hag _))

theorem redeemRewards_le {currentLamports minimumLamports : ℕ} {result : ℕ × ℕ × Stake Pubkey}
    (h : redeemRewards stake voterCommissionBps voteState environment epochType currentLamports
      minimumLamports = .ok (some result)) :
    result.1 + result.2.1 ≤
      redeemable environment.stakeHistory stake environment.pointValue voteState epochType := by
  obtain ⟨redeemed, hredeemed, h⟩ := bind_eq_ok_iff.mp h
  obtain ⟨maybeRewards, hrews, hredeemed⟩ := bind_eq_ok_iff.mp hredeemed
  simp only at hredeemed
  have hle : (maybeRewards.map stakerRewards).getD 0 +
      (maybeRewards.map voterRewards).getD 0 ≤
      redeemable environment.stakeHistory stake environment.pointValue voteState epochType := by
    cases maybeRewards with
    | none => exact zero_le _
    | some rewards => exact calculateStakeRewards_le hgrow hslots hrews
  -- The adjusted delegation changes the stake only.
  split at hredeemed
  · split at hredeemed
    · cases hredeemed
      cases h
      exact hle
    · cases hredeemed
      cases h
  · cases hredeemed
    cases maybeRewards with
    | none => cases h
    | some rewards =>
      cases h
      exact hle

end

/-! ## Calculations that return -/

/-- The products of the calculation fit into 128 bits, and nothing is divided by zero. -/
structure Computable (pointValue : PointValue) (epochType : AlpenglowEpochType Pubkey) : Prop where
  rewards : pointValue.rewards ≤ u64Max
  product : pointValue.points * pointValue.rewards < u128Modulus
  slots : SlotsFit epochType
  points : ∀ towerSlots agSlots stakes, epochType = .migrationEpoch towerSlots agSlots stakes →
    0 < pointValue.points

theorem scalePoints_returns {points : ℕ}
    (hprod : pointValue.points * pointValue.rewards < u128Modulus)
    (hpos : 0 < pointValue.points) (hle : points ≤ pointValue.points) :
    scalePoints pointValue points =
      .ok (floorShare pointValue.rewards pointValue.points points) := by
  have hfits : points * pointValue.rewards < u128Modulus :=
    (mul_le_mul_right _ hle).trans_lt hprod
  simp only [scalePoints, checkedMul, checkedDiv, hfits, if_true, hpos.ne', if_false, bind,
    Except.bind, floorShare]

theorem rewardsOfPoints_returns (agPoints : ℕ) (h : Computable pointValue epochType)
    (hle : towerPoints ≤ pointValue.points) :
    ∃ rewards, rewardsOfPoints pointValue towerPoints agPoints epochType = .ok rewards := by
  cases epochType with
  | tower =>
    by_cases hzero : towerPoints = 0 ∨ pointValue.points = 0
    · exact ⟨none, if_pos hzero⟩
    · have hpos : 0 < pointValue.points := by omega
      simp only [rewardsOfPoints, if_neg hzero, scalePoints_returns h.product hpos hle, bind,
        Except.bind, pure, Except.pure]
      exact ⟨_, rfl⟩
  | migrationEpoch towerSlots agSlots stakes =>
    have hpos : 0 < pointValue.points := h.points towerSlots agSlots stakes rfl
    have hslots := h.slots
    have hscaled : floorShare pointValue.rewards pointValue.points towerPoints * towerSlots <
        u128Modulus := by
      have hrews : floorShare pointValue.rewards pointValue.points towerPoints ≤ u64Max :=
        (floorShare_le hle).trans h.rewards
      have htower : towerSlots ≤ u64Max := (le_add_right _ _).trans hslots.2
      exact (Nat.mul_le_mul hrews htower).trans_lt (by decide)
    simp only [rewardsOfPoints, scalePoints_returns h.product hpos hle, checkedMul, hscaled,
      if_true, checkedDiv, hslots.mod_eq, hslots.1.ne', if_false, bind, Except.bind, pure,
      Except.pure]
    split
    · exact ⟨_, rfl⟩
    · split
      · exact ⟨_, rfl⟩
      · exact ⟨_, rfl⟩
  | alpenglow stakes => exact ⟨_, rfl⟩

theorem calculateStakeRewards_returns (environment : CalculationEnvironment Pubkey)
    (voterCommissionBps : ℕ) (status : StakeActivationStatus)
    (hgrow : CreditsGrow voteState.epochCredits)
    (hcomp : Computable environment.pointValue epochType)
    (hpts : calculatePointsForTower environment.stakeHistory stake voteState ≤
      environment.pointValue.points ∨ ∃ stakes, epochType = .alpenglow stakes)
    (hfits : redeemable environment.stakeHistory stake environment.pointValue voteState epochType ≤
      u64Max) :
    ∃ result, calculateStakeRewards stake voterCommissionBps voteState environment epochType
      status = .ok result := by
  obtain ⟨htower, hag⟩ := calculateStakePointsAndCredits_le
    environment.stakeHistory stake hgrow epochType
  have hret : ∃ rewards, rewardsOfPoints environment.pointValue
      (calculateStakePointsAndCredits environment.stakeHistory stake voteState
        epochType).towerPoints
      (calculateStakePointsAndCredits environment.stakeHistory stake voteState
        epochType).agPoints epochType = .ok rewards := by
    rcases hpts with hle | ⟨stakes, heq⟩
    · exact rewardsOfPoints_returns _ hcomp (htower.trans hle)
    · subst heq
      exact ⟨_, rfl⟩
  obtain ⟨rewards, hrews⟩ := hret
  simp only [calculateStakeRewards, bind, Except.bind, pure, Except.pure, hrews]
  split
  · exact ⟨_, rfl⟩
  · cases rewards with
    | none => exact ⟨_, rfl⟩
    | some rewards =>
      have hle : ¬ u64Max < rewards :=
        not_lt.mpr (((rewardsOfPoints_le hcomp.slots hrews).trans
          (rewardShare_mono _ htower hag _)).trans hfits)
      simp only [hle, if_false]
      split
      · exact ⟨_, rfl⟩
      · exact ⟨_, rfl⟩

theorem redeemRewards_of_rewards {maybeRewards : Option CalculatedStakeRewards}
    (currentLamports minimumLamports : ℕ)
    (h : calculateStakeRewards stake voterCommissionBps voteState environment epochType
      (environment.stakeHistory.delegationActivationStatus stake.delegation
        environment.rewardedEpoch) = .ok maybeRewards) :
    ∃ result, redeemRewards stake voterCommissionBps voteState environment epochType
      currentLamports minimumLamports = .ok result ∧ ∀ rewards, maybeRewards = some rewards →
        result.map (fun redeemed => redeemed.1 + redeemed.2.1) =
          some (rewards.stakerRewards + rewards.voterRewards) := by
  have hredeemed : ∃ redeemed, redeemStakeRewards stake voterCommissionBps voteState environment
      epochType currentLamports minimumLamports = .ok redeemed ∧ ∀ rewards,
        maybeRewards = some rewards →
          redeemed.1 = some (rewards.stakerRewards, rewards.voterRewards) := by
    simp only [redeemStakeRewards, h, bind, Except.bind, pure, Except.pure]
    split
    · split
      · exact ⟨_, rfl, fun _ heq => by rw [heq]; rfl⟩
      · rename_i hnone
        exact ⟨_, rfl, fun _ heq => absurd (by simp [heq]) hnone⟩
    · exact ⟨_, rfl, fun _ heq => by rw [heq]; rfl⟩
  obtain ⟨redeemed, hredeemed, hsome⟩ := hredeemed
  refine ⟨redeemed.1.map fun rewards => (rewards.1, rewards.2, redeemed.2), ?_,
    fun rewards heq => ?_⟩
  · simp only [redeemRewards, hredeemed, bind, Except.bind, pure, Except.pure]
  · rw [hsome rewards heq]
    rfl

end RakuraiValidator.InflationRewards
