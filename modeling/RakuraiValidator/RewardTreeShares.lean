import RakuraiValidator.FloorShares
import RakuraiValidator.RewardTree

/-!
# Shares of the reward tree

Each delegation is paid one share, of which a part may go to its referral.  The shares and
what is left to the validator add up to the rewards.
-/

namespace RakuraiValidator.BlockRewards

open List Nat

variable (remainingRewards totalDelegated lamportsDelegated commissionBps : ℕ)

def netShare : ℕ :=
  floorShare remainingRewards totalDelegated lamportsDelegated * (10000 - commissionBps) / 10000

theorem netShare_le :
    netShare remainingRewards totalDelegated lamportsDelegated commissionBps ≤
      floorShare remainingRewards totalDelegated lamportsDelegated := by
  unfold netShare
  apply Nat.div_le_of_le_mul
  rw [Nat.mul_comm]
  exact mul_le_mul_right _ (sub_le _ _)

theorem stakerShare_eq {lamports remaining total commission : ℕ} (hlam : lamports ≤ total)
    (hpos : 0 < total) (htot : total < 2 ^ 64) (hrem : remaining < 2 ^ 64)
    (hcomm : commission ≤ 10000) :
    stakerShare lamports remaining total commission =
      .ok (netShare remaining total lamports commission) := by
  have hbase : floorShare remaining total lamports < 2 ^ 64 :=
    (floorShare_le hlam).trans_lt hrem
  have hprod : lamports * remaining < 2 ^ 128 := by
    calc
      lamports * remaining < 2 ^ 64 * 2 ^ 64 :=
        mul_lt_mul'' (hlam.trans_lt htot) hrem
      _ = 2 ^ 128 := by norm_num
  have hscaled : floorShare remaining total lamports * (10000 - commission) < 2 ^ 128 := by
    calc
      floorShare remaining total lamports * (10000 - commission) ≤
          floorShare remaining total lamports * 10000 := mul_le_mul_left _ (sub_le _ _)
      _ < 2 ^ 128 := by omega
  have hshare : netShare remaining total lamports commission < 2 ^ 64 :=
    (netShare_le _ _ _ _).trans_lt hbase
  have hmax : maxCommissionBps.toNat = 10000 := rfl
  have hlim : ¬ 10000 < commission := not_lt.mpr hcomm
  have hmul₁ : checkedMul lamports remaining = .ok (lamports * remaining) := if_pos hprod
  have hdiv₁ : checkedDiv (lamports * remaining) total =
      .ok (floorShare remaining total lamports) := if_neg hpos.ne'
  have hmul₂ : checkedMul (floorShare remaining total lamports) (10000 - commission) =
      .ok (floorShare remaining total lamports * (10000 - commission)) := if_pos hscaled
  have hdiv₂ : checkedDiv (floorShare remaining total lamports * (10000 - commission)) 10000 =
      .ok (netShare remaining total lamports commission) := if_neg (by decide)
  have hcast : asU64 (netShare remaining total lamports commission) =
      netShare remaining total lamports commission := mod_eq_of_lt hshare
  simp only [stakerShare, hmul₁, hdiv₁, hmax, hlim, if_false, bind, Except.bind, pure,
    Except.pure, hmul₂, hdiv₂, hcast]

theorem referral_lt {share bps : ℕ} (hbps : bps < 10000) (hpos : 0 < share) :
    share * bps / 10000 < share := by
  apply Nat.div_lt_of_lt_mul
  rw [Nat.mul_comm 10000]
  exact mul_lt_mul_of_pos_left hbps hpos

variable {Pubkey Text : Type} {nodes : List (TreeNode Pubkey)}

section Validator

variable {keys : Keys Pubkey Text} {rewardAccount identity : Pubkey}
  {split : Option (ValidatorRewardSplit Text)} {validatorTotal : ℕ}

theorem validatorNodes_sum (htot : validatorTotal < 2 ^ 64)
    (h : validatorNodes keys rewardAccount identity split validatorTotal = .ok nodes) :
    (nodes.map TreeNode.amount).sum = validatorTotal := by
  have hcast : asU64 validatorTotal = validatorTotal := mod_eq_of_lt htot
  cases split with
  | none =>
    unfold validatorNodes at h
    cases h
    simpa [plainNode] using hcast
  | some split =>
    have hprod : validatorTotal * split.claimantCommissionBps.toNat < 2 ^ 128 := by
      calc
        validatorTotal * split.claimantCommissionBps.toNat < 2 ^ 64 * 2 ^ 32 :=
          mul_lt_mul'' htot split.claimantCommissionBps.toNat_lt
        _ < 2 ^ 128 := by norm_num
    have hmul : checkedMul validatorTotal split.claimantCommissionBps.toNat =
        .ok (validatorTotal * split.claimantCommissionBps.toNat) := if_pos hprod
    have hdiv : checkedDiv (validatorTotal * split.claimantCommissionBps.toNat) 10000 =
        .ok (validatorTotal * split.claimantCommissionBps.toNat / 10000) := if_neg (by decide)
    simp only [validatorNodes, hmul, hdiv, bind, Except.bind, pure, Except.pure] at h
    cases hkey : keys.fromStr split.claimantPubkey with
    | none => simp [hkey] at h
    | some claimant =>
      simp only [hkey] at h
      by_cases hmax : split.claimantCommissionBps = maxCommissionBps
      · have hall : validatorTotal * split.claimantCommissionBps.toNat / 10000 =
            validatorTotal := by
          rw [hmax]
          exact Nat.mul_div_cancel _ (by decide)
        simp only [hmax, ne_eq, not_true_eq_false, if_false] at h
        rw [hmax] at hall
        cases h
        simp only [map_cons, map_nil, sum_cons, sum_nil, plainNode, hall, hcast, add_zero]
      · simp only [ne_eq, hmax, not_false_eq_true, if_true] at h
        by_cases hle : validatorTotal * split.claimantCommissionBps.toNat / 10000 ≤ validatorTotal
        · rw [checkedSub, if_pos hle] at h
          cases h
          simp only [map_cons, map_nil, sum_cons, sum_nil, plainNode, asU64]
          omega
        · rw [checkedSub, if_neg hle] at h
          cases h

theorem validatorNodes_ok (htot : validatorTotal < 2 ^ 64)
    (hbps : ∀ s, split = some s → s.claimantCommissionBps.toNat ≤ 10000)
    (hparse : ∀ s, split = some s → (keys.fromStr s.claimantPubkey).isSome) :
    ∃ nodes, validatorNodes keys rewardAccount identity split validatorTotal = .ok nodes := by
  cases split with
  | none => exact ⟨_, rfl⟩
  | some split =>
    have hle : split.claimantCommissionBps.toNat ≤ 10000 := hbps split rfl
    obtain ⟨claimant, hclaimant⟩ := Option.isSome_iff_exists.mp (hparse split rfl)
    have hprod : validatorTotal * split.claimantCommissionBps.toNat ≤
        validatorTotal * 10000 := mul_le_mul_left _ hle
    have hmul : checkedMul validatorTotal split.claimantCommissionBps.toNat =
        .ok (validatorTotal * split.claimantCommissionBps.toNat) := if_pos (by omega)
    have hdiv : checkedDiv (validatorTotal * split.claimantCommissionBps.toNat) 10000 =
        .ok (validatorTotal * split.claimantCommissionBps.toNat / 10000) := if_neg (by decide)
    have hsub : checkedSub validatorTotal
        (validatorTotal * split.claimantCommissionBps.toNat / 10000) =
        .ok (validatorTotal - validatorTotal * split.claimantCommissionBps.toNat / 10000) :=
      if_pos (by omega)
    simp only [validatorNodes, hmul, hdiv, hclaimant, hsub, bind, Except.bind, pure, Except.pure]
    split <;> exact ⟨_, rfl⟩

end Validator

variable [LinearOrder Text]

namespace Distribution

variable {self : Distribution Pubkey Text} {delegation : Delegation Pubkey}

/-- The quantities fit their types and the commissions are at most the maximum. -/
structure Bounded (distribution : Distribution Pubkey Text) : Prop where
  pos : 0 < distribution.totalDelegated
  total : distribution.totalDelegated < 2 ^ 64
  remaining : distribution.remainingRewards < 2 ^ 64
  commission : distribution.validatorCommissionBps ≤ 10000
  custom : ∀ delegation cfg, distribution.customCommission delegation = some cfg →
    cfg.commissionBps.toNat ≤ 10000

variable (distribution : Distribution Pubkey Text)

def ReferralBelowMax (delegation : Delegation Pubkey) : Prop :=
  ∀ cfg bps, distribution.customCommission delegation = some cfg →
    cfg.referralClaimantPubkey.isSome → cfg.referralClaimantCommissionBps = some bps →
    bps.toNat < 10000

def ReferralsParse : Prop :=
  ∀ delegation cfg text, distribution.customCommission delegation = some cfg →
    cfg.referralClaimantPubkey = some text → (distribution.keys.fromStr text).isSome

def shareAt (delegation : Delegation Pubkey) (commissionBps : ℕ) : ℕ :=
  netShare distribution.remainingRewards distribution.totalDelegated
    delegation.lamportsDelegated.toNat commissionBps

/-- What is paid for a delegation, to the staker and the referral together. -/
def paid (distribution : Distribution Pubkey Text) (delegation : Delegation Pubkey) : ℕ :=
  if distribution.excludes delegation then 0
  else match distribution.customCommission delegation with
    | none => distribution.shareAt delegation distribution.validatorCommissionBps
    | some cfg =>
      if distribution.shareAt delegation cfg.commissionBps.toNat = 0 then
        distribution.shareAt delegation distribution.validatorCommissionBps
      else distribution.shareAt delegation cfg.commissionBps.toNat

theorem paid_le (delegation : Delegation Pubkey) :
    distribution.paid delegation ≤ floorShare distribution.remainingRewards
      distribution.totalDelegated delegation.lamportsDelegated.toNat := by
  unfold paid shareAt
  split
  · exact zero_le _
  · split
    · exact netShare_le _ _ _ _
    · split <;> exact netShare_le _ _ _ _

section

variable (h : Bounded self)

include h

theorem Bounded.stakerShare (hle : delegation.lamportsDelegated.toNat ≤ self.totalDelegated)
    {commissionBps : ℕ} (hcomm : commissionBps ≤ 10000) :
    BlockRewards.stakerShare delegation.lamportsDelegated.toNat self.remainingRewards
      self.totalDelegated commissionBps = .ok (self.shareAt delegation commissionBps) :=
  stakerShare_eq hle h.pos h.total h.remaining hcomm

theorem Bounded.customShare (href : self.ReferralBelowMax delegation)
    (hle : delegation.lamportsDelegated.toNat ≤ self.totalDelegated) {cfg : CommissionConfig Text}
    (hcfg : self.customCommission delegation = some cfg) :
    (∃ left referral, self.customShare delegation cfg =
        .ok (left, self.shareAt delegation cfg.commissionBps.toNat, referral) ∧
      referral.length ≤ 1 ∧
      (referral.map TreeNode.amount).sum + left = self.shareAt delegation cfg.commissionBps.toNat ∧
      (left = 0 → self.shareAt delegation cfg.commissionBps.toNat = 0)) ∨
    (∃ text, cfg.referralClaimantPubkey = some text ∧ self.keys.fromStr text = none ∧
      self.customShare delegation cfg = .error .unwrapNone) := by
  have hshare := h.stakerShare hle (h.custom delegation cfg hcfg)
  have hlt : self.shareAt delegation cfg.commissionBps.toNat < 2 ^ 64 :=
    ((netShare_le _ _ _ _).trans (floorShare_le hle)).trans_lt h.remaining
  generalize self.shareAt delegation cfg.commissionBps.toNat = share at hshare hlt ⊢
  unfold Distribution.customShare
  simp only [hshare, bind, Except.bind, pure, Except.pure]
  match hpubkey : cfg.referralClaimantPubkey, hbps : cfg.referralClaimantCommissionBps with
  | none, _ => exact .inl ⟨share, [], rfl, by simp, by simp, id⟩
  | some _, none => exact .inl ⟨share, [], rfl, by simp, by simp, id⟩
  | some text, some bps =>
    cases hkey : self.keys.fromStr text with
    | none => exact .inr ⟨text, rfl, hkey, by simp only [hkey]⟩
    | some key =>
      left
      have hbelow : bps.toNat < 10000 :=
        href cfg bps hcfg (by simp [hpubkey]) hbps
      have hpart : share * bps.toNat / 10000 ≤ share := by
        apply Nat.div_le_of_le_mul
        rw [Nat.mul_comm 10000]
        exact Nat.mul_le_mul_left share hbelow.le
      have hprod : share * bps.toNat < 2 ^ 128 := by
        calc
          share * bps.toNat ≤ share * 10000 := Nat.mul_le_mul_left share hbelow.le
          _ < 2 ^ 128 := by omega
      have hmul : checkedMul share bps.toNat = .ok (share * bps.toNat) := if_pos hprod
      have hdiv : checkedDiv (share * bps.toNat) 10000 =
          .ok (share * bps.toNat / 10000) := if_neg (by decide)
      have hsub : checkedSub share (share * bps.toNat / 10000) =
          .ok (share - share * bps.toNat / 10000) := if_pos hpart
      have hcast₁ : asU64 (share - share * bps.toNat / 10000) =
          share - share * bps.toNat / 10000 := mod_eq_of_lt (by omega)
      have hcast₂ : asU64 (share * bps.toNat / 10000) = share * bps.toNat / 10000 :=
        mod_eq_of_lt (by omega)
      simp only [hkey, hmul, hdiv, hsub, hcast₁, hcast₂]
      refine ⟨_, _, rfl, le_rfl, ?_, ?_⟩
      · simp only [map_cons, map_nil, sum_cons, sum_nil, plainNode]
        omega
      · intro hzero
        by_contra hne
        have := referral_lt hbelow (pos_of_ne_zero hne)
        omega

theorem Bounded.distributeDelegation (href : self.ReferralBelowMax delegation)
    (hle : delegation.lamportsDelegated.toNat ≤ self.totalDelegated) :
    (∃ referral amount, self.distributeDelegation delegation =
        .ok (referral ++ [self.delegationNode delegation amount], self.paid delegation) ∧
      referral.length ≤ 1 ∧
      (referral.map TreeNode.amount).sum + amount = self.paid delegation) ∨
    (∃ cfg text, self.customCommission delegation = some cfg ∧
      cfg.referralClaimantPubkey = some text ∧ self.keys.fromStr text = none ∧
      self.distributeDelegation delegation = .error .unwrapNone) := by
  have hstd := h.stakerShare hle h.commission
  unfold Distribution.distributeDelegation paid
  cases hcustom : self.customCommission delegation with
  | none =>
    left
    cases hexcl : self.excludes delegation with
    | true => exact ⟨[], 0, by simp [bind, Except.bind, pure, Except.pure], by simp, by simp⟩
    | false =>
      refine ⟨[], _, ?_, by simp, zero_add _⟩
      simp [bind, Except.bind, pure, Except.pure, hstd]
  | some cfg =>
    have hexcl : self.excludes delegation = false := by
      unfold customCommission at hcustom
      split at hcustom
      · cases hcustom
      · rename_i hnot
        simpa using hnot
    rcases h.customShare href hle hcustom with
      ⟨left, referral, hres, hlen, hsum, hleft⟩ | ⟨text, htext, hparse, hres⟩
    · left
      simp only [hres, hexcl, bind, Except.bind, pure, Except.pure, and_true,
        Bool.false_eq_true, if_false, hstd]
      by_cases hzero : left = 0
      · have hshare := hleft hzero
        rw [if_pos hzero, if_pos hshare]
        refine ⟨referral, self.shareAt delegation self.validatorCommissionBps, ?_, hlen, ?_⟩
        · rw [hshare, zero_add]
        · have hnone : (referral.map TreeNode.amount).sum = 0 := by omega
          rw [hnone, zero_add]
      · have hshare : self.shareAt delegation cfg.commissionBps.toNat ≠ 0 := by omega
        rw [if_neg hzero, if_neg hshare]
        exact ⟨referral, left, rfl, hlen, hsum⟩
    · right
      refine ⟨cfg, text, rfl, htext, hparse, ?_⟩
      simp only [hres, bind, Except.bind]

end

def PartOf (delegation : Delegation Pubkey) (nodes : List (TreeNode Pubkey)) : Prop :=
  ∃ referral amount, nodes = referral ++ [distribution.delegationNode delegation amount] ∧
    referral.length ≤ 1 ∧
    (referral.map TreeNode.amount).sum + amount = distribution.paid delegation

theorem PartOf.sum_amount (h : PartOf self delegation nodes) :
    (nodes.map TreeNode.amount).sum = self.paid delegation := by
  obtain ⟨referral, amount, hnodes, _, hsum⟩ := h
  subst hnodes
  rw [map_append, sum_append_nat]
  simpa [delegationNode] using hsum

variable {delegations : List (Delegation Pubkey)}

theorem sum_amount_flatten {parts : List (List (TreeNode Pubkey))}
    (h : List.Forall₂ (PartOf self) delegations parts) :
    (parts.flatten.map TreeNode.amount).sum = (delegations.map self.paid).sum := by
  induction h with
  | nil => rfl
  | cons hpart _ ih =>
    rw [flatten_cons, map_append, sum_append_nat, hpart.sum_amount, ih, map_cons, sum_cons]

theorem Bounded.distributeDelegations (h : Bounded self)
    (href : ∀ delegation ∈ delegations, self.ReferralBelowMax delegation)
    (hle : ∀ delegation ∈ delegations, delegation.lamportsDelegated.toNat ≤ self.totalDelegated) :
    (∃ parts, self.distributeDelegations delegations =
        .ok (parts.flatten, (delegations.map self.paid).sum) ∧
      List.Forall₂ (PartOf self) delegations parts) ∨
    (∃ delegation cfg text, self.customCommission delegation = some cfg ∧
      cfg.referralClaimantPubkey = some text ∧ self.keys.fromStr text = none ∧
      self.distributeDelegations delegations = .error .unwrapNone) := by
  induction delegations with
  | nil => exact .inl ⟨[], rfl, .nil⟩
  | cons delegation delegations ih =>
    unfold Distribution.distributeDelegations
    rcases h.distributeDelegation (href delegation mem_cons_self) (hle delegation mem_cons_self) with
      ⟨referral, amount, hfirst, hlen, hsum⟩ | ⟨cfg, text, hcfg, htext, hparse, hfirst⟩
    · rcases ih (fun other hother => href other (mem_cons_of_mem _ hother))
        (fun other hother => hle other (mem_cons_of_mem _ hother)) with
        ⟨parts, hrest, hparts⟩ | ⟨other, cfg, text, hcfg, htext, hparse, hrest⟩
      · left
        refine ⟨(referral ++ [self.delegationNode delegation amount]) :: parts, ?_, ?_⟩
        · simp only [hfirst, hrest, bind, Except.bind, pure, Except.pure, flatten_cons,
            map_cons, sum_cons]
        · exact .cons ⟨referral, amount, rfl, hlen, hsum⟩ hparts
      · right
        refine ⟨other, cfg, text, hcfg, htext, hparse, ?_⟩
        simp only [hfirst, hrest, bind, Except.bind]
    · right
      refine ⟨delegation, cfg, text, hcfg, htext, hparse, ?_⟩
      simp only [hfirst, bind, Except.bind]

theorem sum_paid_le
    (hsum : (delegations.map fun d => d.lamportsDelegated.toNat).sum ≤ self.totalDelegated) :
    (delegations.map self.paid).sum ≤ self.remainingRewards :=
  (sum_le_sum fun delegation _ => self.paid_le delegation).trans (sum_floorShare_le hsum)

end Distribution

end RakuraiValidator.BlockRewards
