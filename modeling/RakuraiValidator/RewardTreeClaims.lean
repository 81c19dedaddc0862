import RakuraiValidator.DescendingPasses
import RakuraiValidator.RewardTreePaidOnce

/-!
# Claims on the reward tree

A node is claimed through an address derived from its claimant, and a node whose address is
in use is skipped.  The amounts of one claimant are not merged, so each node can be claimed
only when the claimants differ.
-/

namespace RakuraiValidator.BlockRewards

open List BlockRewards.Distribution
open DescendingPasses (bind_eq_ok_iff)

attribute [local simp] plainNode

variable {Pubkey Text : Type}

def claimableNodes (claimants claimStatuses : Pubkey → Bool) (nodes : List (TreeNode Pubkey)) :
    List (TreeNode Pubkey) :=
  nodes.filter fun node =>
    !(!claimants node.claimant || claimStatuses node.claimStatusPubkey || node.amount == 0)

def DerivedStatus (keys : Keys Pubkey Text) (rewardAccount : Pubkey)
    (nodes : List (TreeNode Pubkey)) : Prop :=
  ∀ node ∈ nodes,
    node.claimStatusPubkey = (keys.findProgramAddress node.claimant rewardAccount).1

attribute [local simp] DerivedStatus

def positiveClaimants (nodes : List (TreeNode Pubkey)) : List Pubkey :=
  (nodes.filter fun node => 0 < node.amount).map TreeNode.claimant

theorem positiveClaimants_append (nodes nodes' : List (TreeNode Pubkey)) :
    positiveClaimants (nodes ++ nodes') = positiveClaimants nodes ++ positiveClaimants nodes' := by
  simp [positiveClaimants]

theorem positiveClaimants_sublist (nodes : List (TreeNode Pubkey)) :
    (positiveClaimants nodes).Sublist (nodes.map TreeNode.claimant) :=
  List.filter_sublist.map _

variable {nodes : List (TreeNode Pubkey)}

theorem positiveClaimants_eq_nil (h : ∀ node ∈ nodes, node.amount = 0) :
    positiveClaimants nodes = [] := by
  rw [positiveClaimants, map_eq_nil_iff, filter_eq_nil_iff]
  intro node hmem
  simp [h node hmem]

variable {keys : Keys Pubkey Text} {rewardAccount : Pubkey}

theorem derivedStatus_append {nodes' : List (TreeNode Pubkey)}
    (h : DerivedStatus keys rewardAccount nodes) (h' : DerivedStatus keys rewardAccount nodes') :
    DerivedStatus keys rewardAccount (nodes ++ nodes') := by
  intro node hmem
  rcases List.mem_append.mp hmem with hmem | hmem
  · exact h node hmem
  · exact h' node hmem

def splitClaimant (keys : Keys Pubkey Text) (split : Option (ValidatorRewardSplit Text)) :
    List Pubkey :=
  (split.bind fun split => keys.fromStr split.claimantPubkey).toList

theorem validatorNodes_claimants {identity : Pubkey} {split : Option (ValidatorRewardSplit Text)}
    {validatorTotal : ℕ}
    (h : validatorNodes keys rewardAccount identity split validatorTotal = .ok nodes) :
    (nodes.map TreeNode.claimant).Sublist (splitClaimant keys split ++ [identity]) ∧
      DerivedStatus keys rewardAccount nodes := by
  cases split with
  | none =>
    unfold validatorNodes at h
    cases h
    exact ⟨Sublist.refl _, by simp⟩
  | some split =>
    unfold validatorNodes at h
    obtain ⟨_, -, h⟩ := bind_eq_ok_iff.mp h
    obtain ⟨_, -, h⟩ := bind_eq_ok_iff.mp h
    split at h
    · cases h
    rename_i claimant hclaimant
    have hsplit : splitClaimant keys (some split) = [claimant] := by
      simp [splitClaimant, hclaimant]
    rw [hsplit]
    split at h
    · obtain ⟨_, -, h⟩ := bind_eq_ok_iff.mp h
      cases h
      exact ⟨Sublist.refl _, by simp⟩
    · cases h
      exact ⟨sublist_append_left _ _, by simp⟩

variable [LinearOrder Text]

namespace Distribution

variable {self : Distribution Pubkey Text} {delegation : Delegation Pubkey}

variable (distribution : Distribution Pubkey Text)

def referralClaimant (delegation : Delegation Pubkey) : List Pubkey :=
  (((distribution.customCommission delegation).bind (·.referralClaimantPubkey)).bind
    distribution.keys.fromStr).toList

def claimants (delegation : Delegation Pubkey) : List Pubkey :=
  if distribution.excludes delegation then []
  else distribution.referralClaimant delegation ++ [distribution.claimantOf delegation]

variable {eligible : ℕ}

theorem customShare_claimants {cfg : CommissionConfig Text}
    (hcfg : self.customCommission delegation = some cfg) {left : ℕ}
    (h : self.customShare delegation cfg = .ok (left, eligible, nodes)) :
    (nodes.map TreeNode.claimant).Sublist (self.referralClaimant delegation) ∧
      DerivedStatus self.keys self.rewardAccount nodes := by
  unfold customShare at h
  obtain ⟨_, -, h⟩ := bind_eq_ok_iff.mp h
  split at h
  next text bps hpubkey _ =>
    split at h
    · cases h
    rename_i key hkey
    obtain ⟨_, -, h⟩ := bind_eq_ok_iff.mp h
    obtain ⟨_, -, h⟩ := bind_eq_ok_iff.mp h
    obtain ⟨_, -, h⟩ := bind_eq_ok_iff.mp h
    cases h
    have href : self.referralClaimant delegation = [key] := by
      simp [referralClaimant, hcfg, hpubkey, hkey]
    rw [href]
    exact ⟨Sublist.refl _, by simp⟩
  next =>
    cases h
    exact ⟨nil_sublist _, by simp⟩

theorem distributeDelegation_nodes
    (h : self.distributeDelegation delegation = .ok (nodes, eligible)) :
    ∃ referral amount, nodes = referral ++ [self.delegationNode delegation amount] ∧
      (referral.map TreeNode.claimant).Sublist (self.referralClaimant delegation) ∧
      DerivedStatus self.keys self.rewardAccount referral ∧
      (self.excludes delegation = true → amount = 0) := by
  unfold distributeDelegation at h
  cases hcustom : self.customCommission delegation with
  | none =>
    rw [hcustom] at h
    obtain ⟨_, hshare, h⟩ := bind_eq_ok_iff.mp h
    cases hshare
    dsimp only at h
    split at h
    · rename_i hincl
      obtain ⟨amount, -, h⟩ := bind_eq_ok_iff.mp h
      cases h
      exact ⟨[], amount, rfl, nil_sublist _, by simp, by simp [hincl.2]⟩
    · cases h
      exact ⟨[], 0, rfl, nil_sublist _, by simp, fun _ => rfl⟩
  | some cfg =>
    have hincl : ∀ amount, self.excludes delegation = true → amount = 0 := by
      intro amount hexcl
      simp [customCommission, hexcl] at hcustom
    rw [hcustom] at h
    obtain ⟨⟨share, taken, referral⟩, hshare, h⟩ := bind_eq_ok_iff.mp h
    obtain ⟨hclaimants, hderived⟩ := customShare_claimants hcustom hshare
    dsimp only at h
    split at h
    · obtain ⟨amount, -, h⟩ := bind_eq_ok_iff.mp h
      cases h
      exact ⟨referral, amount, rfl, hclaimants, hderived, hincl amount⟩
    · cases h
      exact ⟨referral, share, rfl, hclaimants, hderived, hincl share⟩

theorem distributeDelegation_claimants
    (h : self.distributeDelegation delegation = .ok (nodes, eligible)) :
    (positiveClaimants nodes).Sublist (self.claimants delegation) ∧
      DerivedStatus self.keys self.rewardAccount nodes := by
  obtain ⟨referral, amount, rfl, hclaimants, hderived, hzero⟩ := distributeDelegation_nodes h
  refine ⟨?_, derivedStatus_append hderived (by simp [delegationNode])⟩
  unfold claimants
  split
  · rename_i hexcl
    have hnone : self.referralClaimant delegation = [] := by
      simp [referralClaimant, customCommission, hexcl]
    have hlast : positiveClaimants [self.delegationNode delegation amount] = [] :=
      positiveClaimants_eq_nil (by simp [delegationNode, hzero hexcl])
    rw [positiveClaimants_append, hlast, append_nil, ← hnone]
    exact (positiveClaimants_sublist _).trans hclaimants
  · refine (positiveClaimants_sublist _).trans ?_
    rw [map_append]
    exact hclaimants.append (Sublist.refl _)

variable {delegations : List (Delegation Pubkey)}

theorem distributeDelegations_claimants
    (h : self.distributeDelegations delegations = .ok (nodes, eligible)) :
    (positiveClaimants nodes).Sublist (delegations.flatMap self.claimants) ∧
      DerivedStatus self.keys self.rewardAccount nodes := by
  induction delegations generalizing nodes eligible with
  | nil =>
    cases h
    exact ⟨nil_sublist _, by simp⟩
  | cons delegation delegations ih =>
    unfold distributeDelegations at h
    obtain ⟨first, hfirst, h⟩ := bind_eq_ok_iff.mp h
    obtain ⟨rest, hrest, h⟩ := bind_eq_ok_iff.mp h
    cases h
    obtain ⟨hclaimants, hderived⟩ := distributeDelegation_claimants hfirst
    obtain ⟨hclaimants', hderived'⟩ := ih hrest
    rw [positiveClaimants_append, flatMap_cons]
    exact ⟨hclaimants.append hclaimants', derivedStatus_append hderived hderived'⟩

theorem distributeStakers_claimants
    (h : self.distributeStakers delegations = .ok (nodes, eligible)) :
    (positiveClaimants nodes).Sublist (delegations.flatMap self.claimants) ∧
      DerivedStatus self.keys self.rewardAccount nodes := by
  unfold distributeStakers at h
  split at h
  · exact distributeDelegations_claimants h
  · cases h
    exact ⟨nil_sublist _, by simp⟩

end Distribution

/-- The claimant of a delegation which is not excluded, after that of its referral. -/
def delegationClaimants (keys : Keys Pubkey Text) (pools : Pubkey → Option Pubkey)
    (config : Option (ValidatorConfig Text)) (delegation : Delegation Pubkey) : List Pubkey :=
  let stakeAccount := delegation.stakeAccountPubkey
  if configuredExclusion keys config delegation then []
  else (((configuredCommission config (keys.toText stakeAccount)).bind
      (·.referralClaimantPubkey)).bind keys.fromStr).toList ++
    [(pools stakeAccount).getD stakeAccount]

/-- Everyone whom the inputs name as a claimant, whatever the amounts are. -/
def namedClaimants (keys : Keys Pubkey Text) (stakeMeta : StakeMeta Pubkey)
    (distributionMeta : RewardDistributionMeta Pubkey) (pools : Pubkey → Option Pubkey)
    (config : Option (ValidatorConfig Text)) : List Pubkey :=
  distributionMeta.merkleRootUploadAuthority ::
    (stakeMeta.delegations.flatMap (delegationClaimants keys pools config) ++
      (splitClaimant keys (config.bind ValidatorConfig.validatorRewardSplit) ++
        [stakeMeta.validatorNodePubkey]))

variable {stakeMeta : StakeMeta Pubkey} {distributionMeta : RewardDistributionMeta Pubkey}
  {pools : Pubkey → Option Pubkey} {config : Option (ValidatorConfig Text)}

theorem claimants_sublist (delegation : Delegation Pubkey) :
    ((distributionFor keys stakeMeta distributionMeta pools config).claimants delegation).Sublist
      (delegationClaimants keys pools config delegation) := by
  unfold claimants delegationClaimants
  rw [excludes_distributionFor]
  split
  · exact nil_sublist _
  refine Sublist.append ?_ (Sublist.refl _)
  unfold referralClaimant
  cases hcustom : (distributionFor keys stakeMeta distributionMeta pools config).customCommission
      delegation with
  | none => exact nil_sublist _
  | some cfg =>
    obtain ⟨raw, ⟨_, hraw⟩, rfl⟩ := customCommission_eq_some hcustom
    rw [hraw, Option.bind_some, Option.bind_some]
    cases htext : (raw.normalize
        (effectiveCommission distributionMeta config)).referralClaimantPubkey with
    | none => exact nil_sublist _
    | some text =>
      rw [(raw.normalize_referral _).1 text htext]
      exact Sublist.refl _

theorem splitClaimant_sublist :
    (splitClaimant keys
      ((normalized distributionMeta config).bind ValidatorConfig.validatorRewardSplit)).Sublist
      (splitClaimant keys (config.bind ValidatorConfig.validatorRewardSplit)) := by
  unfold splitClaimant
  cases hsplit : (normalized distributionMeta config).bind
      ValidatorConfig.validatorRewardSplit with
  | none => exact nil_sublist _
  | some split =>
    obtain ⟨_, hcfg, hnorm⟩ := Option.bind_eq_some_iff.mp hsplit
    obtain ⟨cfg, rfl, rfl⟩ := Option.map_eq_some_iff.mp hcfg
    obtain ⟨raw, hraw, hclaimant⟩ := (ValidatorConfig.split_normalize hnorm).1
    simp [hraw, hclaimant]

theorem tree_claimants (hmeta : stakeMeta.maybeRewardDistributionMeta = some distributionMeta)
    {commission : ℕ} (h : vecFromStakeMetaWithConfig keys stakeMeta pools config =
      .ok (.ok (some (nodes, commission)))) :
    (positiveClaimants nodes).Sublist
        (namedClaimants keys stakeMeta distributionMeta pools config) ∧
      DerivedStatus keys distributionMeta.rewardDistributionPubkey nodes := by
  obtain ⟨_, _, staked, eligible, validator, hstaked, hval, hnodes⟩ :=
    vecFromStakeMetaWithConfig_eq_ok hmeta h
  subst hnodes
  obtain ⟨hstakers, hstakersDerived⟩ := distributeStakers_claimants hstaked
  obtain ⟨hvals, hvalDerived⟩ := validatorNodes_claimants hval
  have hexpense : (positiveClaimants [expenseNode keys stakeMeta distributionMeta config]).Sublist
      [distributionMeta.merkleRootUploadAuthority] := positiveClaimants_sublist _
  have hexpenseDerived : DerivedStatus keys distributionMeta.rewardDistributionPubkey
      [expenseNode keys stakeMeta distributionMeta config] := by
    simp
  constructor
  · rw [← singleton_append, positiveClaimants_append, positiveClaimants_append, namedClaimants,
      ← singleton_append]
    refine hexpense.append ((hstakers.trans ?_).append ?_)
    · exact Sublist.flatMap_right _ fun delegation _ => claimants_sublist delegation
    · exact (positiveClaimants_sublist validator).trans
        (hvals.trans (splitClaimant_sublist.append (Sublist.refl _)))
  · exact derivedStatus_append hexpenseDerived (derivedStatus_append hstakersDerived hvalDerived)

section SharedReserve

def pooledStake : StakeMeta ℕ :=
  ⟨2, some exampleMeta, [⟨10, 11, 12, 100⟩, ⟨20, 21, 22, 300⟩], 400⟩

def sharedReserve (stakeAccount : ℕ) : Option ℕ :=
  if stakeAccount = 10 ∨ stakeAccount = 20 then some 50 else none

def ownReserve (stakeAccount : ℕ) : Option ℕ :=
  if stakeAccount = 10 then some 50 else none

/-- The amounts and the claim statuses of the nodes, when a tree is returned. -/
def statusesOf {Pubkey : Type} (result : Except DistributionPanic
    (Except MerkleRootGeneratorError (Option (List (TreeNode Pubkey) × ℕ)))) :
    List (ℕ × Pubkey) :=
  match result with
  | .ok (.ok (some (nodes, _))) => nodes.map fun node => (node.amount, node.claimStatusPubkey)
  | _ => []

/-- The same result, with the amounts that can be claimed after some claims. -/
def claimableAmounts {Pubkey : Type} (claimStatuses : Pubkey → Bool)
    (result : Except DistributionPanic
      (Except MerkleRootGeneratorError (Option (List (TreeNode Pubkey) × ℕ)))) : List ℕ :=
  match result with
  | .ok (.ok (some (nodes, _))) =>
    (claimableNodes (fun _ => true) claimStatuses nodes).map TreeNode.amount
  | _ => []

theorem plainKeys_findProgramAddress_inj (rewardAccount a b : ℕ)
    (h : (plainKeys.findProgramAddress a rewardAccount).1 =
      (plainKeys.findProgramAddress b rewardAccount).1) : a = b :=
  Nat.add_left_cancel h

end SharedReserve

end RakuraiValidator.BlockRewards
