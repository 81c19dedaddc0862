import RakuraiValidator.FloorShares
import RakuraiValidator.Traces
import RakuraiValidator.VoteRewards

/-!
# Voting rewards stay within the inflation

The validators are visited in an order which differs between nodes.  What a visit does
depends on the visited account only, so the accounts after the bank do not depend on the
order, and the credits of a bank add up to at most the inflation of one slot.
-/

namespace RakuraiValidator.VoteReward

open Vote Finset Nat Option RewardState

/-! ## Credits -/

variable (epochCredits : List (ℕ × ℕ × ℕ))

def latestCredits : ℕ :=
  ((epochCredits.filter fun entry => entry ≠ agMigrationEpochCredit).getLast?.map
    fun entry => entry.2.1).getD 0

variable {entry : ℕ × ℕ × ℕ}

theorem latestCredits_append_entry
    (h : entry ≠ agMigrationEpochCredit) : latestCredits (epochCredits ++ [entry]) = entry.2.1 := by
  simp [latestCredits, List.filter_append, h]

theorem latestCredits_append_marker :
    latestCredits (epochCredits ++ [agMigrationEpochCredit]) = latestCredits epochCredits := by
  simp [latestCredits, List.filter_append]

theorem ne_marker_of_or {epoch finalCredits : ℕ} (hlt : epoch < u64Max ∨ finalCredits < u64Max)
    (initialCredits : ℕ) : (epoch, finalCredits, initialCredits) ≠ agMigrationEpochCredit := by
  intro h
  simp only [agMigrationEpochCredit, Prod.mk.injEq] at h
  omega

theorem trimHistory_append_entry (epochCredits : List (ℕ × ℕ × ℕ)) (entry : ℕ × ℕ × ℕ) :
    trimHistory (epochCredits ++ [entry]) =
      epochCredits.drop (epochCredits.length + 1 - maxEpochCreditsHistory) ++ [entry] := by
  have : 0 < maxEpochCreditsHistory := by decide
  rw [trimHistory, List.length_append, List.length_singleton,
    List.drop_append_of_le_length (by omega)]

theorem trimHistory_spec (h : entry ≠ agMigrationEpochCredit) :
    (trimHistory (epochCredits ++ [entry])).count agMigrationEpochCredit ≤
        epochCredits.count agMigrationEpochCredit ∧
      latestCredits (trimHistory (epochCredits ++ [entry])) = entry.2.1 := by
  rw [trimHistory_append_entry, latestCredits_append_entry _ h, List.count_append]
  have hdropped := (List.drop_sublist (epochCredits.length + 1 - maxEpochCreditsHistory)
    epochCredits).count_le agMigrationEpochCredit
  simpa [h] using hdropped

variable {epochCredits : List (ℕ × ℕ × ℕ)}

variable {newCredits epoch : ℕ}

/-- The last entry is replaced, or an entry is pushed behind it or behind a new marker. -/
inductive Added (epoch newCredits : ℕ) : List (ℕ × ℕ × ℕ) → List (ℕ × ℕ × ℕ) → Prop
  | replace (init : List (ℕ × ℕ × ℕ)) (last : ℕ × ℕ × ℕ) (hne : last ≠ agMigrationEpochCredit) :
    Added epoch newCredits (init ++ [last])
      (init ++ [(epoch, saturatingAdd last.2.1 newCredits, last.2.2)])
  | push (epochCredits : List (ℕ × ℕ × ℕ))
      (hepoch : ∀ last ∈ epochCredits.getLast?, last ≠ agMigrationEpochCredit → last.1 ≠ epoch) :
    Added epoch newCredits epochCredits (trimHistory (epochCredits ++
      [(epoch, saturatingAdd (latestCredits epochCredits) newCredits, latestCredits epochCredits)]))
  | mark (epochCredits : List (ℕ × ℕ × ℕ)) (hfresh : agMigrationEpochCredit ∉ epochCredits) :
    Added epoch newCredits epochCredits (trimHistory (epochCredits ++ [agMigrationEpochCredit] ++
      [(epoch, saturatingAdd (latestCredits epochCredits) newCredits, latestCredits epochCredits)]))

section Increment

variable (Pubkey : Type) (epoch : ℕ) (hnew : newCredits ≤ u64Max)

include hnew

theorem addCredits_added (hmarker : epochCredits.count agMigrationEpochCredit ≤ 1) :
    ∃ added, (addCredits epochCredits epoch newCredits :
        Except (UpdateFailure Pubkey) (List (ℕ × ℕ × ℕ))) = .ok added ∧
      Added epoch newCredits epochCredits added := by
  have hzero : saturatingAdd (latestCredits []) newCredits = newCredits := by
    simpa [saturatingAdd, latestCredits] using hnew
  have hcomm : ∀ credits, saturatingAdd newCredits credits = saturatingAdd credits newCredits :=
    fun credits => by rw [saturatingAdd, add_comm, ← saturatingAdd]
  rcases List.eq_nil_or_concat' epochCredits with rfl | ⟨init, last, rfl⟩
  · have hpush : Added epoch newCredits [] _ := .push [] (by simp)
    rw [hzero] at hpush
    exact ⟨_, rfl, hpush⟩
  simp only [addCredits, List.getLast?_concat, List.dropLast_concat, hcomm]
  by_cases hlast : last = agMigrationEpochCredit
  · subst hlast
    have hpush : Added epoch newCredits (init ++ [agMigrationEpochCredit]) _ :=
      .push _ (by simp)
    rw [latestCredits_append_marker] at hpush
    rw [if_pos rfl]
    rcases List.eq_nil_or_concat' init with rfl | ⟨before, previous, rfl⟩
    · rw [hzero] at hpush
      exact ⟨_, rfl, hpush⟩
    · have hne : previous ≠ agMigrationEpochCredit := by
        rintro rfl
        simp at hmarker
      rw [latestCredits_append_entry before hne] at hpush
      rw [List.getLast?_concat]
      simp only [if_neg hne]
      exact ⟨_, rfl, hpush⟩
  · rw [if_neg hlast]
    split_ifs with hreuse
    · exact ⟨_, rfl, .replace init last hlast⟩
    · have hpush : Added epoch newCredits (init ++ [last]) _ :=
        .push _ (by simp [not_or.mp hreuse])
      rw [latestCredits_append_entry init hlast] at hpush
      exact ⟨_, rfl, hpush⟩

theorem incrementCredits_added {handler : VoteStateHandler}
    (hmarker : handler.epochCredits.count agMigrationEpochCredit ≤ 1) (migrationEpoch : ℕ) :
    ∃ credited, (incrementCredits handler migrationEpoch epoch newCredits :
        Except (UpdateFailure Pubkey) VoteStateHandler) = .ok credited ∧
      Added epoch newCredits handler.epochCredits credited.epochCredits := by
  by_cases hmark : epoch = migrationEpoch ∧ agMigrationEpochCredit ∉ handler.epochCredits
  · obtain ⟨rfl, hmem⟩ := hmark
    have hcount : (handler.epochCredits ++ [agMigrationEpochCredit]).count
        agMigrationEpochCredit ≤ 1 := by
      rw [List.count_append, List.count_eq_zero.mpr hmem]
      rfl
    obtain ⟨added, hadd, hspec⟩ := addCredits_added Pubkey epoch hnew hcount
    refine ⟨{ handler with epochCredits := added }, ?_, ?_⟩
    · rw [incrementCredits, if_pos rfl, ensureMarker, if_neg hmem, hadd]
      rfl
    generalize hmark : handler.epochCredits ++ [agMigrationEpochCredit] = marked at hspec
    cases hspec with
    | replace init last hne => exact absurd (List.append_inj' hmark rfl).2 (by simp [hne.symm])
    | push =>
      rw [← hmark, latestCredits_append_marker]
      exact .mark _ hmem
    | mark _ hfresh => exact absurd (hmark ▸ by simp) hfresh
  · have hsame : (if epoch = migrationEpoch then ensureMarker handler.epochCredits
        else handler.epochCredits) = handler.epochCredits := by
      grind [ensureMarker]
    obtain ⟨added, hadd, hspec⟩ := addCredits_added Pubkey epoch hnew hmarker
    refine ⟨{ handler with epochCredits := added }, ?_, hspec⟩
    rw [incrementCredits, hsame, hadd]
    rfl

end Increment

theorem Added.spec {added : List (ℕ × ℕ × ℕ)} (hadd : Added epoch newCredits epochCredits added)
    (hmarker : epochCredits.count agMigrationEpochCredit ≤ 1) (hepoch : epoch < u64Max)
    (hfits : latestCredits epochCredits + newCredits ≤ u64Max) :
    added.count agMigrationEpochCredit ≤ 1 ∧
      latestCredits added = latestCredits epochCredits + newCredits := by
  have hne : ∀ final initial, (epoch, final, initial) ≠ agMigrationEpochCredit :=
    fun _ => ne_marker_of_or (.inl hepoch)
  have hsum : saturatingAdd (latestCredits epochCredits) newCredits =
      latestCredits epochCredits + newCredits := min_eq_left hfits
  cases hadd with
  | replace init last hlast =>
    rw [latestCredits_append_entry init hlast] at hsum ⊢
    rw [latestCredits_append_entry init (hne _ _), hsum]
    simpa [hlast, hne] using hmarker
  | push =>
    rw [hsum]
    exact (trimHistory_spec _ (hne _ _)).imp_left (·.trans hmarker)
  | mark _ hfresh =>
    rw [hsum]
    refine (trimHistory_spec _ (hne _ _)).imp_left (·.trans ?_)
    simp [List.count_eq_zero.mpr hfresh]

/-- The credits of the second state exceed those of the first by an amount. -/
structure CreditedBy (amount : ℕ) (before after : VoteStateHandler) : Prop where
  marker : after.epochCredits.count agMigrationEpochCredit ≤ 1
  credits : latestCredits after.epochCredits = latestCredits before.epochCredits + amount

theorem CreditedBy.increment (Pubkey : Type) {before handler : VoteStateHandler} {amount : ℕ}
    (h : CreditedBy amount before handler) (migrationEpoch epoch : ℕ) (hepoch : epoch < u64Max)
    (hfits : latestCredits before.epochCredits + (amount + newCredits) ≤ u64Max) :
    ∃ credited, (incrementCredits handler migrationEpoch epoch newCredits :
        Except (UpdateFailure Pubkey) VoteStateHandler) = .ok credited ∧
      CreditedBy (amount + newCredits) before credited := by
  have hfits' : latestCredits handler.epochCredits + newCredits ≤ u64Max := by
    rw [h.credits]
    omega
  obtain ⟨credited, hcred, hadd⟩ :=
    incrementCredits_added Pubkey epoch (by omega : newCredits ≤ _) h.marker migrationEpoch
  obtain ⟨hmarker, hlatest⟩ := hadd.spec h.marker hepoch hfits'
  refine ⟨credited, hcred, hmarker, ?_⟩
  rw [hlatest, h.credits, add_assoc]

/-! ## Shares -/

variable {Pubkey : Type} [DecidableEq Pubkey]

namespace RewardState

variable (state : RewardState Pubkey)

def stakeOf (validator : Pubkey) : ℕ :=
  ((state.accounts validator).map UInt64.toNat).getD 0

def share (validator : Pubkey) : ℕ :=
  floorShare state.epochInflationState.maxPossibleValidatorReward.toNat
    (state.epochInflationState.slotsPerEpoch.toNat * state.totalStake.toNat)
    (state.stakeOf validator)

def slotInflation : ℕ :=
  state.epochInflationState.maxPossibleValidatorReward.toNat /
    state.epochInflationState.slotsPerEpoch.toNat

/-- The validators of the certificate are staked, within the total stake. -/
structure Staked (state : RewardState Pubkey) : Prop where
  slots_pos : 0 < state.epochInflationState.slotsPerEpoch.toNat
  total_pos : 0 < state.totalStake.toNat
  staked : ∀ validator ∈ state.rewardValidators, (state.accounts validator).isSome
  total : ∑ validator ∈ state.rewardValidators, state.stakeOf validator ≤ state.totalStake.toNat

variable {state : RewardState Pubkey}

omit [DecidableEq Pubkey] in
theorem Staked.sum_share_le (h : Staked state) :
    ∑ validator ∈ state.rewardValidators, state.share validator ≤ state.slotInflation := by
  rw [← sum_map_toList]
  calc
    _ ≤ floorShare state.epochInflationState.maxPossibleValidatorReward.toNat
          (state.epochInflationState.slotsPerEpoch.toNat * state.totalStake.toNat)
          (state.rewardValidators.toList.map state.stakeOf).sum :=
        sum_floorShare_le_floorShare_sum _ _ _ _
    _ ≤ floorShare state.epochInflationState.maxPossibleValidatorReward.toNat
          (state.epochInflationState.slotsPerEpoch.toNat * state.totalStake.toNat)
          state.totalStake.toNat := by
        rw [sum_map_toList]
        exact Nat.div_le_div_right (Nat.mul_le_mul_right _ h.total)
    _ = state.slotInflation := by
        unfold floorShare slotInflation
        rw [mul_comm state.epochInflationState.slotsPerEpoch.toNat]
        exact Nat.mul_div_mul_left _ _ h.total_pos

omit [DecidableEq Pubkey] in
theorem Staked.share_le (h : Staked state) {validator : Pubkey}
    (hmem : validator ∈ state.rewardValidators) : state.share validator ≤ state.slotInflation :=
  (single_le_sum (fun _ _ => zero_le _) hmem).trans h.sum_share_le

omit [DecidableEq Pubkey] in
theorem slotInflation_le : state.slotInflation ≤ u64Max := by
  have := state.epochInflationState.maxPossibleValidatorReward.toNat_lt
  have := div_le_self state.epochInflationState.maxPossibleValidatorReward.toNat
    state.epochInflationState.slotsPerEpoch.toNat
  unfold slotInflation u64Max
  omega

omit [DecidableEq Pubkey] in
theorem Staked.calculateReward (h : Staked state) {validator : Pubkey}
    (hmem : validator ∈ state.rewardValidators) :
    state.calculateReward validator =
      .ok (state.share validator / 2, state.share validator - state.share validator / 2) := by
  obtain ⟨stake, hstake⟩ := Option.isSome_iff_exists.mp (h.staked validator hmem)
  have hden : state.epochInflationState.slotsPerEpoch.toNat * state.totalStake.toNat ≠ 0 :=
    (mul_pos h.slots_pos h.total_pos).ne'
  have hrew : state.epochInflationState.maxPossibleValidatorReward.toNat * stake.toNat /
      (state.epochInflationState.slotsPerEpoch.toNat * state.totalStake.toNat) =
      state.share validator := by
    rw [mul_comm, share, stakeOf, hstake]
    rfl
  have hle : ¬ u64Max < state.share validator :=
    Nat.not_lt.mpr ((h.share_le hmem).trans slotInflation_le)
  simp only [RewardState.calculateReward, hstake, VoteReward.calculateReward, hden,
    if_false, hrew, hle]

end RewardState

/-! ## One validator -/

variable {votePubkey : Pubkey} {order : List Pubkey}

namespace BankInputs

variable (bank : BankInputs Pubkey)

def rewardValidators : Finset Pubkey :=
  (bank.rewardState.map RewardState.rewardValidators).getD ∅

def validatorDue (validator : Pubkey) : ℕ :=
  match bank.rewardState with
  | none => 0
  | some state =>
    if validator ∈ state.rewardValidators then state.share validator / 2 else 0

/-- What the leader is paid for a validator whose vote account can be read. -/
def leaderHalf (validator : Pubkey) : ℕ :=
  match bank.rewardState with
  | none => 0
  | some state =>
    if validator ∈ state.rewardValidators ∧ (bank.voteAccounts validator).isSome then
      state.share validator - state.share validator / 2
    else 0

def leaderDue : ℕ := ∑ validator ∈ bank.rewardValidators, bank.leaderHalf validator

def due (votePubkey : Pubkey) : ℕ :=
  if (bank.voteAccounts votePubkey).isSome then
    bank.validatorDue votePubkey +
      if bank.rewardState.any (fun state => state.leaderVotePubkey = votePubkey) then
        bank.leaderDue
      else 0
  else 0

/-- The credits of the vote accounts have at most one marker and do not saturate. -/
structure Valid : Prop where
  staked : ∀ state, bank.rewardState = some state → state.Staked
  epoch : ∀ state, bank.rewardState = some state → state.currentEpoch < u64Max
  marker : ∀ votePubkey handler, bank.voteAccounts votePubkey = some handler →
    handler.epochCredits.count agMigrationEpochCredit ≤ 1
  fits : ∀ votePubkey handler, bank.voteAccounts votePubkey = some handler →
    latestCredits handler.epochCredits + bank.due votePubkey ≤ u64Max

def visit (validator : Pubkey) : Except (UpdateFailure Pubkey) (Option VoteStateHandler × ℕ) :=
  match bank.voteAccounts validator with
  | none => .ok (none, 0)
  | some handler => do
    let (rewarded, leaderReward, rewardUpdated) ← bank.updateReward validator handler 0
    let (final, finalUpdated) := bank.updateFinal validator rewarded
    return (if rewardUpdated || finalUpdated then some final else none, leaderReward)

variable {bank} {validator : Pubkey} {handler : VoteStateHandler}

theorem updateReward_of_visit {rewarded : VoteStateHandler} {leader total : ℕ} {updated : Bool}
    (h : bank.updateReward validator handler 0 = .ok (rewarded, leader, updated))
    (hfits : total + leader ≤ u64Max) :
    bank.updateReward validator handler total = .ok (rewarded, total + leader, updated) := by
  unfold updateReward at h ⊢
  split at h
  · cases h
    rfl
  · rename_i state hstate
    unfold updateAccount at h ⊢
    split at h
    · rename_i hmem
      rw [if_pos hmem]
      simp only [bind, Except.bind, pure, Except.pure] at h ⊢
      split at h
      · cases h
      rename_i rewards hrews
      split at h
      · cases h
      rename_i credited hcred
      cases h
      simp only [saturatingAdd, Except.ok.injEq, Prod.mk.injEq, true_and, and_true] at hfits ⊢
      omega
    · rename_i hmem
      rw [if_neg hmem]
      cases h
      rfl

theorem updateValidator_of_visit {outcome : Option VoteStateHandler}
    {leader total : ℕ} (h : bank.visit validator = .ok (outcome, leader))
    (hfits : total + leader ≤ u64Max) (updated : Pubkey → Option VoteStateHandler) :
    bank.updateValidator (updated, total) validator =
      .ok (outcome.elim updated fun handler => Function.update updated validator (some handler),
        total + leader) := by
  unfold visit at h
  unfold updateValidator
  cases hhandler : bank.voteAccounts validator with
  | none =>
    rw [hhandler] at h
    cases h
    rfl
  | some handler =>
    rw [hhandler] at h
    simp only [bind, Except.bind, pure, Except.pure] at h ⊢
    split at h
    · cases h
    rename_i result hres
    obtain ⟨rewarded, leader', rewardUpdated⟩ := result
    cases h
    rw [updateReward_of_visit hres hfits]
    simp only
    split <;> rfl

theorem updateFinal_epochCredits (validator : Pubkey) (handler : VoteStateHandler) :
    (bank.updateFinal validator handler).1.epochCredits = handler.epochCredits := by
  unfold updateFinal
  split
  · rfl
  · unfold FinalCertState.updateAccount
    split <;> rfl

theorem validatorDue_le_due (h : bank.voteAccounts votePubkey = some handler) :
    bank.validatorDue votePubkey ≤ bank.due votePubkey := by
  simp only [due, h, isSome_some, if_true]
  exact le_add_right _ _

theorem Valid.updateReward (h : bank.Valid)
    (hhandler : bank.voteAccounts validator = some handler) :
    ∃ rewarded updated,
      bank.updateReward validator handler 0 = .ok (rewarded, bank.leaderHalf validator, updated) ∧
      CreditedBy (bank.validatorDue validator) handler rewarded ∧
      (updated = false → rewarded = handler) := by
  have hmarker := h.marker validator handler hhandler
  have hfits := h.fits validator handler hhandler
  have hdue := validatorDue_le_due hhandler
  unfold BankInputs.updateReward
  cases hstate : bank.rewardState with
  | none =>
    refine ⟨handler, false, ?_, ⟨hmarker, ?_⟩, fun _ => rfl⟩
    · simp only [leaderHalf, hstate]
    · simp only [validatorDue, hstate, add_zero]
  | some state =>
    simp only [updateAccount]
    by_cases hmem : validator ∈ state.rewardValidators
    · have hval : bank.validatorDue validator = state.share validator / 2 := by
        simp only [validatorDue, hstate, hmem, if_true]
      have hleader : bank.leaderHalf validator =
          state.share validator - state.share validator / 2 := by
        simp only [leaderHalf, hstate, hmem, hhandler, isSome_some, and_self, if_true]
      have hvotes : CreditedBy 0 handler
          (maybeUpdateVotes handler state.rewardSlot state.rewardSlotTimestampNs) :=
        ⟨hmarker, rfl⟩
      have hle : bank.leaderHalf validator ≤ u64Max := by
        rw [hleader]
        exact ((sub_le _ _).trans ((h.staked state hstate).share_le hmem)).trans slotInflation_le
      have hcredit : ∃ credited,
          state.credit (maybeUpdateVotes handler state.rewardSlot state.rewardSlotTimestampNs)
            (state.share validator / 2) = .ok credited ∧
          CreditedBy (state.share validator / 2) handler credited := by
        unfold credit
        by_cases hzero : state.share validator / 2 = 0
        · rw [if_pos hzero, hzero]
          exact ⟨_, rfl, hvotes⟩
        · rw [if_neg hzero]
          have hsum : latestCredits handler.epochCredits + (0 + state.share validator / 2) ≤
              u64Max := by
            omega
          have hrun := hvotes.increment Pubkey state.migrationEpoch state.currentEpoch
            (h.epoch state hstate) hsum
          rwa [zero_add] at hrun
      obtain ⟨credited, hcred, hamt⟩ := hcredit
      rw [hval]
      refine ⟨credited, true, ?_, hamt, nofun⟩
      rw [if_pos hmem]
      simp only [(h.staked state hstate).calculateReward hmem, hcred, bind, Except.bind,
        pure, Except.pure, ← hleader, saturatingAdd, zero_add, min_eq_left hle]
    · refine ⟨handler, false, ?_, ⟨hmarker, ?_⟩, fun _ => rfl⟩
      · simp only [leaderHalf, hstate, hmem, false_and, if_false]
      · simp only [validatorDue, hstate, hmem, if_false, add_zero]

theorem Valid.visit (h : bank.Valid) (validator : Pubkey) :
    ∃ outcome, bank.visit validator = .ok (outcome, bank.leaderHalf validator) ∧
      (bank.voteAccounts validator = none → outcome = none) ∧
      ∀ handler, bank.voteAccounts validator = some handler →
        CreditedBy (bank.validatorDue validator) handler (outcome.getD handler) := by
  unfold BankInputs.visit
  cases hhandler : bank.voteAccounts validator with
  | none =>
    refine ⟨none, ?_, fun _ => rfl, nofun⟩
    have hzero : bank.leaderHalf validator = 0 := by
      unfold leaderHalf
      split
      · rfl
      · simp [hhandler]
    rw [hzero]
  | some handler =>
    obtain ⟨rewarded, updated, hrewarded, hamt, hsame⟩ := h.updateReward hhandler
    have hfinal : (bank.updateFinal validator rewarded).1.epochCredits = rewarded.epochCredits :=
      updateFinal_epochCredits validator rewarded
    simp only [hrewarded, bind, Except.bind, pure, Except.pure]
    refine ⟨_, rfl, nofun, fun other hother => ?_⟩
    cases hother
    by_cases hupd : (updated || (bank.updateFinal validator rewarded).2) = true
    · rw [if_pos hupd]
      exact ⟨hfinal ▸ hamt.marker, (congrArg latestCredits hfinal).trans hamt.credits⟩
    · rw [if_neg hupd]
      have hnot : updated = false := by
        cases updated with
        | false => rfl
        | true => simp at hupd
      rw [hsame hnot] at hamt
      exact hamt

/-! ## All validators -/

theorem foldlM_updateValidator {outcome : Pubkey → Option VoteStateHandler} {half : Pubkey → ℕ}
    (hvisit : ∀ validator, bank.visit validator = .ok (outcome validator, half validator))
    (hnodup : order.Nodup) (hfits : (order.map half).sum ≤ u64Max) :
    order.foldlM bank.updateValidator (fun _ => none, 0) =
      .ok (fun validator => if validator ∈ order then outcome validator else none,
        (order.map half).sum) := by
  have hstart : ((fun _ => none, 0) : (Pubkey → Option VoteStateHandler) × ℕ) =
      (fun validator => if validator ∈ [] then outcome validator else none,
        (List.map half []).sum) := by simp
  -- The invariant speaks of the validators that have been visited.
  have hrun := Traces.foldlM_ok_of_step bank.updateValidator
    (fun left state => ∃ visited, visited ++ left = order ∧
      state = (fun validator => if validator ∈ visited then outcome validator else none,
        (visited.map half).sum)) ?_ order
    ⟨[], rfl, hstart⟩
  · obtain ⟨last, hlast, visited, hvis, hstate⟩ := hrun
    rw [List.append_nil] at hvis
    rw [hlast, hstate, hvis]
  · rintro validator left state ⟨visited, hvis, hstate⟩
    have hnext : (visited ++ [validator]) ++ left = order := by
      rw [List.append_assoc]
      exact hvis
    have hsum : (visited.map half).sum + half validator ≤ u64Max := by
      rw [← hnext, List.map_append, List.sum_append, List.map_append, List.sum_append] at hfits
      simp only [List.map_singleton, List.sum_singleton] at hfits
      omega
    have hnew : validator ∉ visited := by
      rw [← hvis] at hnodup
      exact fun hmem => (List.nodup_append.mp hnodup).2.2 validator hmem validator (by simp) rfl
    rw [hstate, updateValidator_of_visit (hvisit validator) hsum]
    refine ⟨_, rfl, visited ++ [validator], hnext, ?_⟩
    refine Prod.ext (funext fun other => ?_) (by simp)
    simp only [List.mem_append, List.mem_singleton]
    by_cases hother : other = validator
    · subst hother
      cases hout : outcome other with
      | none => simp [hnew]
      | some handler => simp
    · cases outcome validator with
      | none => simp [hother]
      | some handler => simp [hother]

theorem leaderHalf_eq_zero (h : validator ∉ bank.rewardValidators) :
    bank.leaderHalf validator = 0 := by
  unfold rewardValidators at h
  unfold leaderHalf
  cases hstate : bank.rewardState with
  | none => rfl
  | some state =>
    rw [hstate] at h
    exact if_neg fun hmem => h hmem.1

theorem validatorDue_eq_zero (h : validator ∉ bank.rewardValidators) :
    bank.validatorDue validator = 0 := by
  unfold rewardValidators at h
  unfold validatorDue
  cases hstate : bank.rewardState with
  | none => rfl
  | some state =>
    rw [hstate] at h
    exact if_neg h

theorem rewardValidators_subset : bank.rewardValidators ⊆ bank.validators :=
  subset_union_left

theorem sum_leaderHalf (hnodup : order.Nodup) (horder : order.toFinset = bank.validators) :
    (order.map bank.leaderHalf).sum = bank.leaderDue := by
  rw [← List.sum_toFinset _ hnodup, horder]
  symm
  apply sum_subset rewardValidators_subset
  exact fun validator _ hnot => leaderHalf_eq_zero hnot

def slotInflation (bank : BankInputs Pubkey) : ℕ :=
  (bank.rewardState.map RewardState.slotInflation).getD 0

theorem sum_halves_le (h : ∀ state, bank.rewardState = some state → state.Staked) :
    ∑ validator ∈ bank.rewardValidators, bank.validatorDue validator + bank.leaderDue ≤
      bank.slotInflation := by
  unfold leaderDue slotInflation
  rw [← sum_add_distrib]
  cases hstate : bank.rewardState with
  | none => simp [rewardValidators, hstate]
  | some state =>
    have hvals : bank.rewardValidators = state.rewardValidators := by
      simp only [rewardValidators, hstate, map_some, getD_some]
    rw [hvals]
    refine (sum_le_sum fun validator hmem => ?_).trans (h state hstate).sum_share_le
    simp only [validatorDue, leaderHalf, hstate, hmem, if_true, true_and]
    split <;> omega

theorem Valid.leaderDue_le (h : bank.Valid) : bank.leaderDue ≤ u64Max := by
  have hle : bank.leaderDue ≤ bank.slotInflation :=
    (le_add_left _ _).trans (sum_halves_le h.staked)
  apply hle.trans
  unfold slotInflation
  cases bank.rewardState with
  | none => exact zero_le _
  | some state => exact slotInflation_le

theorem sum_due_le (h : ∀ state, bank.rewardState = some state → state.Staked)
    (votePubkeys : Finset Pubkey) :
    ∑ votePubkey ∈ votePubkeys, bank.due votePubkey ≤ bank.slotInflation := by
  let leader : Pubkey → ℕ := fun votePubkey =>
    if bank.rewardState.any (fun state => state.leaderVotePubkey = votePubkey) then bank.leaderDue
    else 0
  have hdue : ∀ votePubkey, bank.due votePubkey ≤
      bank.validatorDue votePubkey + leader votePubkey := by
    intro votePubkey
    unfold due
    split
    · exact le_rfl
    · exact zero_le _
  have hvals : ∑ votePubkey ∈ votePubkeys, bank.validatorDue votePubkey ≤
      ∑ validator ∈ bank.rewardValidators, bank.validatorDue validator := by
    apply sum_le_sum_of_ne_zero
    intro votePubkey _ hne
    by_contra hnot
    exact hne (validatorDue_eq_zero hnot)
  have hleader : ∑ votePubkey ∈ votePubkeys, leader votePubkey ≤ bank.leaderDue := by
    cases hstate : bank.rewardState with
    | none => simp [leader, hstate]
    | some state =>
      simp only [leader, hstate, any_some, decide_eq_true_eq, sum_ite_eq]
      split
      · exact le_rfl
      · exact zero_le _
  calc
    _ ≤ ∑ votePubkey ∈ votePubkeys, (bank.validatorDue votePubkey + leader votePubkey) :=
        sum_le_sum fun votePubkey _ => hdue votePubkey
    _ ≤ ∑ validator ∈ bank.rewardValidators, bank.validatorDue validator + bank.leaderDue := by
        rw [sum_add_distrib]
        exact Nat.add_le_add hvals hleader
    _ ≤ bank.slotInflation := sum_halves_le h

def PaysDue (bank : BankInputs Pubkey) (updated : Pubkey → Option VoteStateHandler) : Prop :=
  ∀ votePubkey, (bank.voteAccounts votePubkey = none → updated votePubkey = none) ∧
    ∀ handler, bank.voteAccounts votePubkey = some handler →
      CreditedBy (bank.due votePubkey) handler ((updated votePubkey).getD handler)

theorem due_of_ne_leader (hhandler : bank.voteAccounts votePubkey = some handler)
    (h : bank.leaderDue = 0 ∨ ∀ state, bank.rewardState = some state →
      votePubkey ≠ state.leaderVotePubkey) :
    bank.due votePubkey = bank.validatorDue votePubkey := by
  simp only [due, hhandler, isSome_some, if_true]
  rcases h with hzero | hne
  · rw [hzero, ite_self, add_zero]
  · cases hstate : bank.rewardState with
    | none => rfl
    | some state => simp [(hne state hstate).symm]

variable {updated : Pubkey → Option VoteStateHandler}

theorem Valid.payLeader (h : bank.Valid)
    (hupd : ∀ votePubkey, (bank.voteAccounts votePubkey = none → updated votePubkey = none) ∧
      ∀ handler, bank.voteAccounts votePubkey = some handler →
        CreditedBy (bank.validatorDue votePubkey) handler ((updated votePubkey).getD handler)) :
    ∃ paid, bank.payLeader updated bank.leaderDue = .ok paid ∧ bank.PaysDue paid := by
  have hsame : (∀ votePubkey handler, bank.voteAccounts votePubkey = some handler →
      bank.due votePubkey = bank.validatorDue votePubkey) → bank.PaysDue updated := by
    intro hdue votePubkey
    refine ⟨(hupd votePubkey).1, fun handler hhandler => ?_⟩
    rw [hdue votePubkey handler hhandler]
    exact (hupd votePubkey).2 handler hhandler
  unfold BankInputs.payLeader
  cases hstate : bank.rewardState with
  | none =>
    refine ⟨updated, rfl, hsame fun votePubkey handler hhandler => ?_⟩
    apply due_of_ne_leader hhandler
    right
    intro state hsome
    rw [hstate] at hsome
    cases hsome
  | some state =>
    by_cases hzero : bank.leaderDue = 0
    · simp only [hzero, if_true]
      exact ⟨updated, rfl, hsame fun votePubkey handler hhandler =>
        due_of_ne_leader hhandler (.inl hzero)⟩
    have hothers : ∀ votePubkey handler, bank.voteAccounts votePubkey = some handler →
        votePubkey ≠ state.leaderVotePubkey →
        bank.due votePubkey = bank.validatorDue votePubkey := by
      intro votePubkey handler hhandler hne
      apply due_of_ne_leader hhandler
      right
      intro other hother
      rw [hstate] at hother
      cases hother
      exact hne
    simp only [if_neg hzero]
    cases hleader : bank.voteAccounts state.leaderVotePubkey with
    | none =>
      simp only [(hupd _).1 hleader, or_none]
      refine ⟨updated, rfl, hsame fun votePubkey handler hhandler =>
        hothers votePubkey handler hhandler ?_⟩
      intro heq
      rw [heq, hleader] at hhandler
      cases hhandler
    | some handler =>
      have hdue : bank.due state.leaderVotePubkey =
          bank.validatorDue state.leaderVotePubkey + bank.leaderDue := by
        simp [due, hleader, hstate]
      have hfits := h.fits _ handler hleader
      rw [hdue] at hfits
      obtain ⟨credited, hcred, hamt⟩ :=
        ((hupd _).2 handler hleader).increment Pubkey state.migrationEpoch
          state.currentEpoch (h.epoch state hstate) hfits
      have hor : (updated state.leaderVotePubkey).or (some handler) =
          some ((updated state.leaderVotePubkey).getD handler) := by
        cases updated state.leaderVotePubkey <;> rfl
      simp only [hor, hcred, bind, Except.bind, pure, Except.pure]
      refine ⟨_, rfl, fun votePubkey => ?_⟩
      by_cases heq : votePubkey = state.leaderVotePubkey
      · subst heq
        rw [Function.update_self, hleader, hdue]
        refine ⟨nofun, fun other hother => ?_⟩
        cases hother
        exact hamt
      · rw [Function.update_of_ne heq]
        refine ⟨(hupd votePubkey).1, fun other hother => ?_⟩
        rw [hothers votePubkey other hother heq]
        exact (hupd votePubkey).2 other hother

theorem Valid.updateAccounts (h : bank.Valid) :
    ∃ updated, bank.PaysDue updated ∧ ∀ order : List Pubkey, order.Nodup →
      order.toFinset = bank.validators → bank.updateAccounts order = .ok updated := by
  choose outcome hvisit hnone hsome using h.visit
  let collected : Pubkey → Option VoteStateHandler := fun validator =>
    if validator ∈ bank.validators then outcome validator else none
  have hcoll : ∀ votePubkey,
      (bank.voteAccounts votePubkey = none → collected votePubkey = none) ∧
      ∀ handler, bank.voteAccounts votePubkey = some handler →
        CreditedBy (bank.validatorDue votePubkey) handler
          ((collected votePubkey).getD handler) := by
    intro votePubkey
    by_cases hmem : votePubkey ∈ bank.validators
    · simp only [collected, if_pos hmem]
      exact ⟨hnone votePubkey, hsome votePubkey⟩
    · simp only [collected, if_neg hmem]
      refine ⟨fun _ => trivial, fun handler hhandler => ?_⟩
      rw [validatorDue_eq_zero fun hrew => hmem (rewardValidators_subset hrew)]
      exact ⟨h.marker votePubkey handler hhandler, rfl⟩
  obtain ⟨paid, hpaid, hdue⟩ := h.payLeader hcoll
  refine ⟨paid, hdue, fun order hnodup horder => ?_⟩
  have hsum := sum_leaderHalf hnodup horder
  have hloop := foldlM_updateValidator hvisit hnodup (hsum ▸ h.leaderDue_le)
  have hstate : (fun validator => if validator ∈ order then outcome validator else none) =
      collected := by
    funext validator
    simp only [collected, ← horder, List.mem_toFinset]
  rw [hsum, hstate] at hloop
  unfold BankInputs.updateAccounts
  simp only [hloop, bind, Except.bind]
  exact hpaid

/-- The stored accounts carry what is due, unless an updated state does not fit. -/
def StoresDue (bank : BankInputs Pubkey) (after : Pubkey → Option VoteStateHandler) : Prop :=
  ∀ votePubkey, (bank.voteAccounts votePubkey = none → after votePubkey = none) ∧
    ∀ handler, bank.voteAccounts votePubkey = some handler →
      ∃ credited, CreditedBy (bank.due votePubkey) handler credited ∧
        (after votePubkey = some credited ∨
          bank.serializes votePubkey credited = false ∧ after votePubkey = some handler)

theorem PaysDue.store (h : bank.PaysDue updated) : bank.StoresDue (bank.store updated) := by
  intro votePubkey
  constructor
  · intro hnone
    simp only [BankInputs.store, (h votePubkey).1 hnone, hnone]
  · intro handler hhandler
    refine ⟨(updated votePubkey).getD handler, (h votePubkey).2 handler hhandler, ?_⟩
    unfold BankInputs.store
    cases hupd : updated votePubkey with
    | none => exact .inl hhandler
    | some credited =>
      cases hfits : bank.serializes votePubkey credited with
      | false => exact .inr ⟨hfits, by simpa [hfits] using hhandler⟩
      | true => exact .inl (by simp [hfits])

def creditsOf (accounts : Pubkey → Option VoteStateHandler) (votePubkey : Pubkey) : ℕ :=
  ((accounts votePubkey).map fun handler => latestCredits handler.epochCredits).getD 0

def creditsAdded (bank : BankInputs Pubkey) (after : Pubkey → Option VoteStateHandler)
    (votePubkeys : Finset Pubkey) : ℕ :=
  ∑ votePubkey ∈ votePubkeys, (creditsOf after votePubkey - creditsOf bank.voteAccounts votePubkey)

theorem StoresDue.creditsAdded_le {after : Pubkey → Option VoteStateHandler}
    (h : bank.StoresDue after) (votePubkeys : Finset Pubkey) :
    bank.creditsAdded after votePubkeys ≤ ∑ votePubkey ∈ votePubkeys, bank.due votePubkey := by
  apply sum_le_sum
  intro votePubkey _
  unfold creditsOf
  cases hhandler : bank.voteAccounts votePubkey with
  | none => simp [(h votePubkey).1 hhandler]
  | some handler =>
    obtain ⟨credited, hamt, hafter | ⟨-, hafter⟩⟩ := (h votePubkey).2 handler hhandler
    · simp only [hafter, map_some, getD_some, hamt.credits]
      omega
    · simp [hafter]

theorem Valid.calcVoteRewardsUpdateVoteStates (h : bank.Valid) :
    ∃ after, bank.StoresDue after ∧ ∀ order : List Pubkey, order.Nodup →
      order.toFinset = bank.validators →
      bank.calcVoteRewardsUpdateVoteStates order = .ok after := by
  obtain ⟨updated, hdue, hruns⟩ := h.updateAccounts
  refine ⟨bank.store updated, hdue.store, fun order hnodup horder => ?_⟩
  unfold BankInputs.calcVoteRewardsUpdateVoteStates
  simp only [hruns order hnodup horder, bind, Except.bind, pure, Except.pure]

end BankInputs

/-! ## All banks of an epoch -/

structure BankRun (Pubkey : Type) [DecidableEq Pubkey] where
  bank : BankInputs Pubkey
  order : List Pubkey
  after : Pubkey → Option VoteStateHandler
  valid : bank.Valid
  nodup : order.Nodup
  visits : order.toFinset = bank.validators
  runs : bank.calcVoteRewardsUpdateVoteStates order = .ok after

namespace BankRun

theorem creditsAdded_le (run : BankRun Pubkey) (votePubkeys : Finset Pubkey) :
    run.bank.creditsAdded run.after votePubkeys ≤ run.bank.slotInflation := by
  obtain ⟨after, hdue, hruns⟩ := run.valid.calcVoteRewardsUpdateVoteStates
  have hafter : run.after = after := by
    have hsame := hruns run.order run.nodup run.visits
    rw [run.runs] at hsame
    exact Except.ok.inj hsame
  rw [hafter]
  exact (hdue.creditsAdded_le votePubkeys).trans
    (BankInputs.sum_due_le run.valid.staked votePubkeys)

theorem sum_creditsAdded_le {inflation : EpochInflationState} {runs : List (BankRun Pubkey)}
    (hlen : runs.length ≤ inflation.slotsPerEpoch.toNat)
    (hinfl : ∀ run ∈ runs, ∀ state, run.bank.rewardState = some state →
      state.epochInflationState = inflation) (votePubkeys : Finset Pubkey) :
    (runs.map fun run => run.bank.creditsAdded run.after votePubkeys).sum ≤
      inflation.maxPossibleValidatorReward.toNat := by
  have hrun : ∀ run ∈ runs, run.bank.creditsAdded run.after votePubkeys ≤
      inflation.maxPossibleValidatorReward.toNat / inflation.slotsPerEpoch.toNat := by
    intro run hmem
    apply (run.creditsAdded_le votePubkeys).trans
    unfold BankInputs.slotInflation
    cases hstate : run.bank.rewardState with
    | none => exact zero_le _
    | some state =>
      rw [← hinfl run hmem state hstate]
      exact le_rfl
  calc
    _ ≤ runs.length *
          (inflation.maxPossibleValidatorReward.toNat / inflation.slotsPerEpoch.toNat) := by
        simpa using List.sum_le_card_nsmul
          (runs.map fun run => run.bank.creditsAdded run.after votePubkeys) _ (by simpa using hrun)
    _ ≤ inflation.slotsPerEpoch.toNat *
          (inflation.maxPossibleValidatorReward.toNat / inflation.slotsPerEpoch.toNat) :=
        mul_le_mul_right _ hlen
    _ ≤ inflation.maxPossibleValidatorReward.toNat := mul_div_le _ _

end BankRun

/-- In any order of the validators a bank credits each readable vote account with its own
halves, within the inflation of the slot, and the banks of an epoch stay within its
inflation. -/
theorem vote_rewards_within_inflation :
    (∀ bank : BankInputs Pubkey, bank.Valid →
      ∃ after, (∀ order : List Pubkey, order.Nodup → order.toFinset = bank.validators →
          bank.calcVoteRewardsUpdateVoteStates order = .ok after) ∧
        bank.StoresDue after ∧
        ∀ votePubkeys, bank.creditsAdded after votePubkeys ≤ bank.slotInflation) ∧
    ∀ (inflation : EpochInflationState) (runs : List (BankRun Pubkey)),
      runs.length ≤ inflation.slotsPerEpoch.toNat →
      (∀ run ∈ runs, ∀ state, run.bank.rewardState = some state →
        state.epochInflationState = inflation) →
      ∀ votePubkeys, (runs.map fun run => run.bank.creditsAdded run.after votePubkeys).sum ≤
        inflation.maxPossibleValidatorReward.toNat := by
  constructor
  · intro bank hvalid
    obtain ⟨after, hdue, hruns⟩ := hvalid.calcVoteRewardsUpdateVoteStates
    refine ⟨after, hruns, hdue, fun votePubkeys => ?_⟩
    exact (hdue.creditsAdded_le votePubkeys).trans (BankInputs.sum_due_le hvalid.staked votePubkeys)
  · intro inflation runs hlength hinflation votePubkeys
    exact BankRun.sum_creditsAdded_le hlength hinflation votePubkeys

def sampleReward : RewardState ℕ where
  rewardSlotTimestampNs := 0
  currentEpoch := 1
  rewardSlot := 20
  rewardValidators := {1, 2}
  bankSlot := 28
  leaderVotePubkey := 3
  accounts validator := if validator = 1 then some 30 else if validator = 2 then some 50 else none
  totalStake := 100
  epochInflationState := ⟨1000, 10⟩
  migrationEpoch := 0

def sampleBank (readable : Finset ℕ) : BankInputs ℕ where
  rewardState := some sampleReward
  finalCertState := some ⟨{2, 4}, 19, 0⟩
  voteAccounts votePubkey := if votePubkey ∈ readable then some ⟨[], none, [], ⟨0, 0⟩⟩ else none
  serializes _ _ := true

theorem sampleBank_valid (readable : Finset ℕ) : (sampleBank readable).Valid := by
  have hstaked : ∀ state, (sampleBank readable).rewardState = some state → state.Staked := by
    intro state hstate
    cases hstate
    constructor <;> decide
  have hfresh : ∀ votePubkey handler,
      (sampleBank readable).voteAccounts votePubkey = some handler → handler.epochCredits = [] := by
    intro votePubkey handler hhandler
    simp only [sampleBank, ite_none_right_eq_some, some.injEq] at hhandler
    rw [← hhandler.2]
  constructor
  · exact hstaked
  · intro state hstate
    cases hstate
    decide
  · intro votePubkey handler hhandler
    rw [hfresh votePubkey handler hhandler]
    exact Nat.zero_le _
  · intro votePubkey handler hhandler
    rw [hfresh votePubkey handler hhandler]
    have hdue := BankInputs.sum_due_le hstaked {votePubkey}
    rw [sum_singleton] at hdue
    calc
      _ = (sampleBank readable).due votePubkey := zero_add _
      _ ≤ 100 := hdue
      _ ≤ u64Max := by decide

theorem exists_bankRun (readable : Finset ℕ) :
    ∃ run : BankRun ℕ, run.bank = sampleBank readable := by
  obtain ⟨after, _, hruns⟩ := (sampleBank_valid readable).calcVoteRewardsUpdateVoteStates
  have hvisits : [1, 2, 4].toFinset = (sampleBank readable).validators := by
    change _ = ({1, 2} ∪ {2, 4} : Finset ℕ)
    decide
  exact ⟨⟨_, [1, 2, 4], after, sampleBank_valid readable, by decide, hvisits,
    hruns [1, 2, 4] (by decide) hvisits⟩, rfl⟩

/-- One bank by itself, and two banks of an epoch of which the second one misses an account. -/
theorem vote_rewards_within_inflation_sample :
    (∃ first second : BankRun ℕ, first.bank = sampleBank {1, 2, 3} ∧
      second.bank = sampleBank {1, 3} ∧
      ∀ votePubkeys, first.bank.creditsAdded first.after votePubkeys +
        second.bank.creditsAdded second.after votePubkeys ≤ 1000) ∧
    ∃ after, (∀ order : List ℕ, order.Nodup →
        order.toFinset = (sampleBank {1, 2, 3}).validators →
        (sampleBank {1, 2, 3}).calcVoteRewardsUpdateVoteStates order = .ok after) ∧
      (sampleBank {1, 2, 3}).StoresDue after ∧
      (sampleBank {1, 2, 3}).due 3 = 40 ∧
      ∀ votePubkeys, (sampleBank {1, 2, 3}).creditsAdded after votePubkeys ≤ 100 := by
  obtain ⟨first, hfirst⟩ := exists_bankRun {1, 2, 3}
  obtain ⟨second, hsecond⟩ := exists_bankRun {1, 3}
  constructor
  · refine ⟨first, second, hfirst, hsecond, fun votePubkeys => ?_⟩
    have hsum := vote_rewards_within_inflation.2 sampleReward.epochInflationState [first, second]
      (by simp [sampleReward]) (by simp [hfirst, hsecond, sampleBank]) votePubkeys
    simpa [sampleReward] using hsum
  · obtain ⟨after, hruns, hdue, hle⟩ :=
      vote_rewards_within_inflation.1 (sampleBank {1, 2, 3}) (sampleBank_valid _)
    exact ⟨after, hruns, hdue, by decide, hle⟩

/-- The vote account of validator 2 is missing from the bank: it is not paid, and neither is
the leader for it. -/
theorem missing_account_forfeits_share :
    (sampleBank {1, 3}).Valid ∧ 2 ∈ sampleReward.rewardValidators ∧
      sampleReward.share 2 = 50 ∧
      ∃ after, (sampleBank {1, 3}).calcVoteRewardsUpdateVoteStates [1, 2, 4] = .ok after ∧
        BankInputs.creditsOf after 2 = 0 ∧ BankInputs.creditsOf after 3 = 15 ∧
        ∑ validator ∈ sampleReward.rewardValidators,
          (sampleReward.share validator - sampleReward.share validator / 2) = 40 := by
  refine ⟨sampleBank_valid _, by decide, by decide, ?_⟩
  obtain ⟨after, hdue, hruns⟩ := (sampleBank_valid {1, 3}).calcVoteRewardsUpdateVoteStates
  refine ⟨after, hruns [1, 2, 4] (by decide) (by decide), ?_, ?_, by decide⟩
  · simp [BankInputs.creditsOf, (hdue 2).1 rfl]
  · obtain ⟨credited, hamount, hafter | ⟨hfits, -⟩⟩ := (hdue 3).2 _ rfl
    · rw [BankInputs.creditsOf, hafter, map_some, getD_some, hamount.credits]
      decide
    · cases hfits

end RakuraiValidator.VoteReward
