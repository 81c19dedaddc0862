import RakuraiValidator.RewardTreeConservation

/-!
# Limits of a normalized configuration

Three values pass the normalization: a custom commission above the maximum is lowered to the
maximum and not further, a referral has no upper limit, and a split is only looked at beside a
section for stakers.  Without such values every limit holds, and normalizing again changes nothing.
-/

namespace RakuraiValidator.BlockRewards

variable {Text : Type} {effective onChain : UInt32}

namespace CommissionConfig

@[mk_iff] structure Limited (effective : UInt32) (cfg : CommissionConfig Text) : Prop where
  commission : cfg.commissionBps ≤ effective
  referral : ∀ bps, cfg.referralClaimantCommissionBps = some bps →
    1 ≤ bps ∧ bps ≤ maxCommissionBps ∧ cfg.referralClaimantPubkey.isSome

@[mk_iff] structure Requested (effective : UInt32) (cfg : CommissionConfig Text) : Prop where
  commission : cfg.commissionBps ≤ maxCommissionBps ∨ effective = maxCommissionBps
  referral : ∀ bps, cfg.referralClaimantPubkey.isSome →
    cfg.referralClaimantCommissionBps = some bps → bps ≤ maxCommissionBps

variable {cfg : CommissionConfig Text}

/-- A redundant configuration is removed, any other one is kept. -/
theorem limited_normalize_iff (hmax : effective ≤ maxCommissionBps) :
    ((cfg.normalize effective).isRedundant effective = false →
      (cfg.normalize effective).Limited effective) ↔ cfg.Requested effective := by
  obtain ⟨bps, _ | pubkey, _ | referral⟩ := cfg <;>
    grind [normalize, cleanReferral, clamp, isRedundant, limited_iff, requested_iff]

theorem Requested.normalize_normalize (h : cfg.Requested effective) :
    (cfg.normalize effective).normalize effective = cfg.normalize effective := by
  have hle := h.commission
  obtain ⟨bps, _ | pubkey, _ | referral⟩ := cfg <;> grind [normalize, cleanReferral, clamp]

end CommissionConfig

def ValidatorRewardSplit.Limited (split : ValidatorRewardSplit Text) : Prop :=
  1 ≤ split.claimantCommissionBps ∧ split.claimantCommissionBps ≤ maxCommissionBps

theorem ValidatorRewardSplit.limited_of_normalize {raw split : ValidatorRewardSplit Text}
    (h : raw.normalize = some split) : split.Limited ∧ split.normalize = some split := by
  grind [ValidatorRewardSplit.normalize, ValidatorRewardSplit.Limited]

variable [LinearOrder Text]

theorem StakersConfig.normalize_normalize {stakers : StakersConfig Text}
    (h : ∀ staker custom, stakers.commissionOf staker = some custom → custom.Requested effective) :
    (stakers.normalize effective).normalize effective = stakers.normalize effective := by
  obtain ⟨excluded, _ | commissions⟩ := stakers
  · rfl
  unfold normalize
  simp only
  generalize hkept : (commissions.mapValues _).retain _ = kept
  -- the second pass finds the entries which the first one has kept
  have hsame : (kept.mapValues (CommissionConfig.normalize effective)).retain
      (fun _ cfg => !cfg.isRedundant effective) = kept := by
    apply BTreeMap.ext_get?
    intro staker
    have hget := fun m : BTreeMap Text (CommissionConfig Text) => m.get?_retain_mapValues
      (CommissionConfig.normalize effective) (fun cfg => !cfg.isRedundant effective) staker
    rw [hget, ← hkept, hget]
    cases hcustom : commissions.get? staker with
    | none => rfl
    | some custom =>
      have hnorm := (h staker custom hcustom).normalize_normalize
      cases hredundant : (custom.normalize effective).isRedundant effective <;>
        simp [Option.filter, hredundant, hnorm]
  cases hempty : kept.isEmpty <;> simp [hsame, hempty]

namespace ValidatorConfig

def commission (cfg : ValidatorConfig Text) (onChain : UInt32) : UInt32 :=
  cfg.validatorCommissionBps.getD onChain

def customOf (cfg : ValidatorConfig Text) (staker : Text) : Option (CommissionConfig Text) :=
  cfg.stakers.bind (·.commissionOf staker)

structure Limited (onChain : UInt32) (cfg : ValidatorConfig Text) : Prop where
  commission : cfg.commission onChain ≤ onChain
  custom : ∀ staker custom, cfg.customOf staker = some custom →
    custom.Limited (cfg.commission onChain)
  split : ∀ split, cfg.validatorRewardSplit = some split → split.Limited

/-- No value is requested which passes the normalization. -/
structure Requested (onChain : UInt32) (cfg : ValidatorConfig Text) : Prop where
  custom : ∀ staker custom, cfg.customOf staker = some custom →
    custom.Requested ((cfg.validatorCommissionBps.map (clampCommission onChain)).getD onChain)
  split : ∀ split, cfg.stakers = none → cfg.validatorRewardSplit = some split → split.Limited

variable {cfg : ValidatorConfig Text}

theorem commission_normalized : (cfg.validateAndNormalize onChain).commission onChain =
    (cfg.validatorCommissionBps.map (clampCommission onChain)).getD onChain := by
  obtain ⟨_ | stakers, bps, split⟩ := cfg <;> rfl

theorem commission_normalized_le : (cfg.validateAndNormalize onChain).commission onChain ≤
    onChain := by
  obtain ⟨_ | stakers, _ | bps, split⟩ := cfg <;>
    grind [validateAndNormalize, commission, clampCommission]

theorem Requested.idempotent (h : cfg.Requested onChain) :
    (cfg.validateAndNormalize onChain).validateAndNormalize onChain =
      cfg.validateAndNormalize onChain := by
  have hclamp : ∀ bps, clampCommission onChain (clampCommission onChain bps) =
      clampCommission onChain bps := by grind [clampCommission]
  obtain ⟨_ | stakers, bps, split⟩ := cfg
  · simp [validateAndNormalize, Function.comp_def, hclamp]
  · have hnorm := stakers.normalize_normalize h.custom
    have hsplit : (split.bind ValidatorRewardSplit.normalize).bind ValidatorRewardSplit.normalize =
        split.bind ValidatorRewardSplit.normalize := by
      cases hraw : split.bind ValidatorRewardSplit.normalize with
      | none => rfl
      | some kept =>
        obtain ⟨raw, -, hkept⟩ := Option.bind_eq_some_iff.mp hraw
        exact (ValidatorRewardSplit.limited_of_normalize hkept).2
    simp [validateAndNormalize, Function.comp_def, hclamp, hnorm, hsplit]

/-- The limits hold and a second pass changes nothing, exactly if no such value is requested. -/
theorem normalize_enforces_limits (cfg : ValidatorConfig Text) (onChain : UInt32)
    (hmax : onChain ≤ maxCommissionBps) :
    (cfg.validateAndNormalize onChain).Limited onChain ∧
      (cfg.validateAndNormalize onChain).validateAndNormalize onChain =
        cfg.validateAndNormalize onChain ↔ cfg.Requested onChain := by
  have hle : (cfg.validateAndNormalize onChain).commission onChain ≤ maxCommissionBps :=
    UInt32.le_trans commission_normalized_le hmax
  have hcustom : ∀ staker, (cfg.validateAndNormalize onChain).customOf staker =
      ((cfg.customOf staker).map (CommissionConfig.normalize
        ((cfg.validateAndNormalize onChain).commission onChain))).filter
        fun custom => !custom.isRedundant
          ((cfg.validateAndNormalize onChain).commission onChain) := by
    obtain ⟨_ | stakers, bps, split⟩ := cfg
    · exact fun _ => rfl
    · exact stakers.commissionOf_normalize _
  constructor
  · intro ⟨h, _⟩
    constructor
    · intro staker custom hraw
      rw [← commission_normalized]
      refine (CommissionConfig.limited_normalize_iff hle).mp fun hkept => h.custom staker _ ?_
      rw [hcustom, hraw, Option.map_some, Option.filter_some_pos (by rw [hkept]; rfl)]
    · intro split hstakers hsplit
      apply h.split
      rwa [validateAndNormalize, hstakers]
  · intro h
    refine ⟨⟨commission_normalized_le, fun staker custom hkept => ?_, fun split hsplit => ?_⟩,
      h.idempotent⟩
    · rw [hcustom, Option.filter_eq_some_iff, Option.map_eq_some_iff] at hkept
      obtain ⟨⟨raw, hraw, rfl⟩, hkept⟩ := hkept
      have hreq := h.custom staker raw hraw
      rw [← commission_normalized] at hreq
      exact (CommissionConfig.limited_normalize_iff hle).mpr hreq (Bool.not_eq_true' _ ▸ hkept)
    · cases hstakers : cfg.stakers with
      | none =>
        apply h.split split hstakers
        rwa [validateAndNormalize, hstakers] at hsplit
      | some stakers =>
        rw [validateAndNormalize, hstakers] at hsplit
        obtain ⟨raw, -, hraw⟩ := Option.bind_eq_some_iff.mp hsplit
        exact (ValidatorRewardSplit.limited_of_normalize hraw).1

/-- A commission of 20000 bps becomes one of 10000, above the 9000 on chain.  A referral or a split
of 20000 bps stays as it is. -/
theorem excessive_values_pass :
    ¬ ((referralConfig 20000 1000).validateAndNormalize 9000).Limited 9000 ∧
    ¬ ((referralConfig 8000 20000).validateAndNormalize 9000).Limited 9000 ∧
    ¬ ((splitConfig 20000).validateAndNormalize 9000).Limited 9000 := by
  refine ⟨fun h => ?_, fun h => ?_, fun h => ?_⟩
  · exact absurd (h.custom 10 ⟨10000, some 20, some 1000⟩ rfl).commission (by decide)
  · exact absurd ((h.custom 10 ⟨8000, some 20, some 20000⟩ rfl).referral 20000 rfl).2.1 (by decide)
  · exact absurd (h.split ⟨30, 20000⟩ rfl).2 (by decide)

/-- A configuration whose custom commission has a referral, and which also has a split. -/
def fullConfig (validatorBps commissionBps splitBps : UInt32) : ValidatorConfig ℕ :=
  { referralConfig commissionBps 1000 with
    validatorCommissionBps := some validatorBps
    validatorRewardSplit := some ⟨30, splitBps⟩ }

/-- Both commissions and the split are lowered to their limits. -/
theorem full_limits_enforced :
    (fullConfig 9900 9500 20000).validateAndNormalize 9000 = fullConfig 9000 9000 10000 ∧
      (fullConfig 9000 9000 10000).Limited 9000 := by
  have hrequested : (fullConfig 9900 9500 20000).Requested 9000 := by
    refine ⟨fun staker custom hcustom => ?_, nofun⟩
    have hmem := (BTreeMap.get?_eq_some_iff _ _ _).mp hcustom
    obtain ⟨-, rfl⟩ : staker = 10 ∧ custom = ⟨9500, some 20, some 1000⟩ := by simpa using hmem
    refine ⟨.inl (by decide), fun bps _ hbps => ?_⟩
    cases hbps
    decide
  have hnormal : (fullConfig 9900 9500 20000).validateAndNormalize 9000 =
      fullConfig 9000 9000 10000 := rfl
  refine ⟨hnormal, ?_⟩
  rw [← hnormal]
  exact ((normalize_enforces_limits _ 9000 (by decide)).mpr hrequested).1

end ValidatorConfig

end RakuraiValidator.BlockRewards
