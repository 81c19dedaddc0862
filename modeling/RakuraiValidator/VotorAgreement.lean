import RakuraiValidator.VotorHonestVotes

/-!
# Agreement

Validators vote, exchange votes in any order and with any delay, and certificates
are formed from the votes which were cast.  Some validators vote as they like; as
long as they hold less than 20% of the stake, a block which is finalized rules out
all other certificates of its slot.
-/

namespace RakuraiValidator.Votor

open Stateful Traces SlotStakeCounters Finset Function

variable {σ : Type}

/-! ## Validators and their votes -/

/-- The validators by rank, with the same stakes in all slots. -/
structure Committee (σ : Type) where
  rankMap : RankMap
  setting : ℕ → Setting σ
  rankMap_eq : ∀ rank slot, (setting rank).rankMap slot = rankMap
  ownRank_eq : ∀ rank slot, (setting rank).ownRank slot = rank
  /-- The ranks which vote as they like. -/
  faulty : Finset ℕ
  faulty_subset : faulty ⊆ Finset.range rankMap.maxValidators

/-- The states of the validators which follow the rules, and what the others cast. -/
structure Network (σ : Type) where
  nodes : ℕ → Node σ
  faultyVotes : List (ℕ × Vote)

namespace Network

variable (committee : Committee σ) (net : Network σ)

def Cast (rank : ℕ) (vote : Vote) : Prop :=
  if rank ∈ committee.faulty then (rank, vote) ∈ net.faultyVotes
  else vote ∈ recordedVotes (net.nodes rank).handler.trace

instance (committee : Committee σ) (net : Network σ) (rank : ℕ) (vote : Vote) :
    Decidable (net.Cast committee rank vote) :=
  inferInstanceAs (Decidable (ite _ _ _))

def signers (certType : CertificateType) : Finset ℕ :=
  (Finset.range committee.rankMap.maxValidators).filter
    (fun rank => ∃ vote ∈ certType.sources, net.Cast committee rank vote)

/-- The votes which were cast reach the threshold of the certificate. -/
def Formable (certType : CertificateType) : Prop :=
  certType.threshold ≤
    ⟨committee.rankMap.stake (net.signers committee certType), committee.rankMap.totalStake⟩

def Fresh : Prop :=
  (∀ rank, (net.nodes rank).Fresh (committee.setting rank)) ∧ net.faultyVotes = []

variable [AddCommGroup σ] [DecidableEq σ]

inductive Step (committee : Committee σ) : Network σ → Network σ → Prop
  | node {net : Network σ} (rank : ℕ) {node : Node σ}
      (hstep : (net.nodes rank).Step (committee.setting rank) (net.Cast committee)
        (fun block => net.Formable committee (.notarize block)) node) :
      Step committee net { net with nodes := update net.nodes rank node }
  | faulty {net : Network σ} (rank : ℕ) (vote : Vote) :
      Step committee net { net with faultyVotes := net.faultyVotes ++ [(rank, vote)] }

def Reachable (committee : Committee σ) (net : Network σ) : Prop :=
  ∃ start : Network σ, start.Fresh committee ∧ Relation.ReflTransGen (Step committee) start net

end Network

/-! ## Stakes -/

namespace RankMap

variable (rankMap : RankMap) {ranks others : Finset ℕ}

theorem stake_add_le (hdisj : Disjoint ranks others)
    (hranks : ranks ⊆ Finset.range rankMap.maxValidators)
    (hothers : others ⊆ Finset.range rankMap.maxValidators) :
    rankMap.stake ranks + rankMap.stake others ≤ rankMap.totalStake := by
  calc rankMap.stake ranks + rankMap.stake others
      = rankMap.stake (ranks ∪ others) := (sum_union hdisj).symm
    _ ≤ rankMap.stake (range rankMap.maxValidators) :=
        rankMap.stake_mono (union_subset hranks hothers)
    _ = rankMap.totalStake := rankMap.sum_stake

theorem stake_le_sdiff_add (ranks faulty : Finset ℕ) :
    rankMap.stake ranks ≤ rankMap.stake (ranks \ faulty) + rankMap.stake faulty := by
  calc rankMap.stake ranks
      ≤ rankMap.stake ((ranks \ faulty) ∪ faulty) :=
        rankMap.stake_mono (by rw [sdiff_union_self_eq_union]; exact subset_union_left)
    _ = rankMap.stake (ranks \ faulty) + rankMap.stake faulty :=
        sum_union sdiff_disjoint

end RankMap

variable {observer : ℕ} {other : Block}

namespace Network

variable {committee : Committee σ} {net net' : Network σ} {rank : ℕ} {vote : Vote}
  {certType : CertificateType}

theorem cast_honest (hrank : rank ∉ committee.faulty) :
    net.Cast committee rank vote ↔ vote ∈ recordedVotes (net.nodes rank).handler.trace := by
  unfold Cast
  rw [if_neg hrank]

def Later (committee : Committee σ) (net net' : Network σ) : Prop :=
  ∀ rank vote, net.Cast committee rank vote → net'.Cast committee rank vote

theorem Later.formable (h : Later committee net net') (hform : net.Formable committee certType) :
    net'.Formable committee certType := by
  have hsigners : net.signers committee certType ⊆ net'.signers committee certType := by
    intro rank hrank
    rcases mem_filter.mp hrank with ⟨hlt, vote, hvote, hcast⟩
    exact mem_filter.mpr ⟨hlt, vote, hvote, h rank vote hcast⟩
  have hstake := committee.rankMap.stake_mono hsigners
  exact Nat.le_trans hform (Nat.mul_le_mul_right _ hstake)

def honestSigners (committee : Committee σ) (net : Network σ) (certType : CertificateType) :
    Finset ℕ :=
  net.signers committee certType \ committee.faulty

theorem mem_honestSigners (h : rank ∈ net.honestSigners committee certType) :
    rank ∈ Finset.range committee.rankMap.maxValidators ∧ rank ∉ committee.faulty ∧
      ∃ vote ∈ certType.sources, net.Cast committee rank vote := by
  rcases mem_sdiff.mp h with ⟨hsign, hhonest⟩
  rcases mem_filter.mp hsign with ⟨hlt, hcast⟩
  exact ⟨hlt, hhonest, hcast⟩

theorem Formable.honest_stake {percentage : ℕ} (h : net.Formable committee certType)
    (hthr : certType.threshold = .fromPercentage percentage)
    (hfaulty : committee.rankMap.stake committee.faulty * 100 < 20 * committee.rankMap.totalStake) :
    percentage * committee.rankMap.totalStake <
      committee.rankMap.stake (net.honestSigners committee certType) * 100 +
        20 * committee.rankMap.totalStake := by
  unfold Formable at h
  rw [hthr, Fraction.fromPercentage_le] at h
  have hle := committee.rankMap.stake_le_sdiff_add (net.signers committee certType) committee.faulty
  unfold honestSigners
  omega

theorem not_formable {blockers : Finset ℕ} (hthr : certType.threshold = .fromPercentage 60)
    (hrange : blockers ⊆ Finset.range committee.rankMap.maxValidators)
    (hblock : ∀ rank ∈ blockers, ∀ vote ∈ certType.sources, ¬ net.Cast committee rank vote)
    (hstake : 40 * committee.rankMap.totalStake < committee.rankMap.stake blockers * 100) :
    ¬ net.Formable committee certType := by
  intro hform
  unfold Formable at hform
  rw [hthr, Fraction.fromPercentage_le] at hform
  have hdisj : Disjoint blockers (net.signers committee certType) := by
    apply disjoint_left.mpr
    intro rank hblocker hsign
    rcases (mem_filter.mp hsign).2 with ⟨vote, hvote, hcast⟩
    exact hblock rank hblocker vote hvote hcast
  have htot := committee.rankMap.stake_add_le hdisj hrange (filter_subset _ _)
  omega

/-! ## The invariant of the network -/

section Invariant

variable [AddCommGroup σ]

/-- Every validator which follows the rules satisfies its invariant. -/
def Invariant (committee : Committee σ) (net : Network σ) : Prop :=
  ∀ rank, (net.nodes rank).Invariant (committee.setting rank) (net.Cast committee)
    (fun block => net.Formable committee (.notarize block))

variable [DecidableEq σ]

theorem Step.later (h : Step committee net net') : Later committee net net' := by
  intro rank vote hcast
  unfold Cast at hcast ⊢
  cases h with
  | node stepped hstep =>
    by_cases hfaulty : rank ∈ committee.faulty
    · rwa [if_pos hfaulty] at hcast ⊢
    · rw [if_neg hfaulty] at hcast ⊢
      dsimp only
      by_cases hsame : rank = stepped
      · subst hsame
        rw [update_self]
        exact recordedVotes_mono hstep.trace_subset hcast
      · rwa [update_of_ne hsame]
  | faulty otherRank other =>
    by_cases hfaulty : rank ∈ committee.faulty
    · rw [if_pos hfaulty] at hcast ⊢
      exact List.mem_append_left _ hcast
    · rwa [if_neg hfaulty] at hcast ⊢

theorem Invariant.step (h : net.Invariant committee) (hstep : Step committee net net') :
    net'.Invariant committee := by
  have hlater := hstep.later
  have hmono : ∀ rank, (net.nodes rank).Invariant (committee.setting rank) (net'.Cast committee)
      (fun block => net'.Formable committee (.notarize block)) :=
    fun rank => (h rank).mono hlater (fun _ => hlater.formable)
  cases hstep with
  | faulty rank vote => exact hmono
  | node rank hstep =>
    intro other
    dsimp only
    by_cases hsame : other = rank
    · subst hsame
      rw [update_self]
      exact ((h other).step hstep).mono hlater (fun _ => hlater.formable)
    · rw [update_of_ne hsame]
      exact hmono other

theorem Reachable.invariant (h : net.Reachable committee) : net.Invariant committee := by
  rcases h with ⟨start, hfresh, hrun⟩
  induction hrun with
  | refl => exact fun rank => Node.Invariant.fresh (hfresh.1 rank)
  | tail _ hstep ih => exact ih.step hstep

theorem later_of_run (h : Relation.ReflTransGen (Step committee) net net') :
    Later committee net net' := by
  induction h with
  | refl => exact fun _ _ => id
  | tail _ hstep ih => exact fun rank vote hcast => hstep.later rank vote (ih rank vote hcast)

end Invariant

/-! ## Certificates of one slot -/

section Slot

variable [AddCommGroup σ]

namespace Invariant

theorem cast_of_mem_voters (h : net.Invariant committee) (hobs : observer ∉ committee.faulty)
    (hrank : rank ∈ (net.nodes observer).voters vote) : net.Cast committee rank vote := by
  rcases ((h observer).voters vote rank hrank).2 with ⟨hkept, _⟩ | ⟨hown, hrec⟩
  · exact ((h observer).keptCast rank vote hkept).1
  · rw [committee.ownRank_eq] at hown
    subst hown
    exact (cast_honest hobs).mpr hrec

theorem eq_of_cast (h : net.Invariant committee) (hrank : rank ∉ committee.faulty)
    {vote vote' : Vote} (hcast : net.Cast committee rank vote)
    (hcast' : net.Cast committee rank vote') (hfirst : vote.isNotarizeOrSkip = true)
    (hfirst' : vote'.isNotarizeOrSkip = true) (hslot : vote.slot = vote'.slot) : vote = vote' := by
  rw [cast_honest hrank] at hcast hcast'
  exact (h rank).noEquivocation.eq_of_slot_eq hcast hcast' hfirst hfirst' hslot

end Invariant

structure Supporters (committee : Committee σ) (net : Network σ) (block : Block)
    (ranks : Finset ℕ) : Prop where
  range : ranks ⊆ Finset.range committee.rankMap.maxValidators
  honest : ∀ rank ∈ ranks, rank ∉ committee.faulty
  notarize : ∀ rank ∈ ranks, net.Cast committee rank (.notarize block)

/-- The other certificates of the slot of a block cannot be formed. -/
def RulesOut (committee : Committee σ) (net : Network σ) (block : Block) : Prop :=
  ¬ net.Formable committee (.skip block.slot) ∧
    ∀ other : Block, other.slot = block.slot → other ≠ block →
      ¬ net.Formable committee (.notarize other) ∧
        ¬ net.Formable committee (.notarizeFallback other)

namespace Supporters

variable {block : Block} {ranks : Finset ℕ}

section Honest

variable (h : net.Invariant committee) (hsupp : Supporters committee net block ranks)

include h hsupp

theorem not_cast_notarize (hslot : other.slot = block.slot) (hne : other ≠ block) :
    ∀ rank ∈ ranks, ¬ net.Cast committee rank (.notarize other) := by
  intro rank hrank hcast
  have heq := h.eq_of_cast (hsupp.honest rank hrank) hcast (hsupp.notarize rank hrank) rfl rfl hslot
  exact hne (Vote.notarize.inj heq)

theorem not_cast_skip : ∀ rank ∈ ranks, ¬ net.Cast committee rank (.skip block.slot) := by
  intro rank hrank hcast
  have heq := h.eq_of_cast (hsupp.honest rank hrank) hcast (hsupp.notarize rank hrank) rfl rfl
    rfl
  cases heq

theorem rulesOut
    (hstake : 40 * committee.rankMap.totalStake < committee.rankMap.stake ranks * 100)
    (hskip : ∀ rank ∈ ranks, ¬ net.Cast committee rank (.skipFallback block.slot))
    (hfall : ∀ rank ∈ ranks, ∀ other : Block, other.slot = block.slot → other ≠ block →
      ¬ net.Cast committee rank (.notarizeFallback other)) :
    net.RulesOut committee block := by
  refine ⟨?_, fun other hslot hne => ⟨?_, ?_⟩⟩
  · apply not_formable rfl hsupp.range _ hstake
    intro rank hrank vote hvote
    rcases List.mem_pair.mp hvote with heq | heq
    · rw [heq]
      exact hsupp.not_cast_skip h rank hrank
    · rw [heq]
      exact hskip rank hrank
  · apply not_formable rfl hsupp.range _ hstake
    intro rank hrank vote hvote
    rw [List.mem_singleton.mp hvote]
    exact hsupp.not_cast_notarize h hslot hne rank hrank
  · apply not_formable rfl hsupp.range _ hstake
    intro rank hrank vote hvote
    rcases List.mem_pair.mp hvote with heq | heq
    · rw [heq]
      exact hsupp.not_cast_notarize h hslot hne rank hrank
    · rw [heq]
      exact hfall rank hrank other hslot hne

theorem stake_other_le (hobs : observer ∉ committee.faulty) {blockIds : Finset ℕ}
    (hother : block.blockId ∉ blockIds) :
    skipStake (committee.setting observer) (net.nodes observer).voters block.slot +
        ∑ blockId ∈ blockIds, notarizeStake (committee.setting observer)
          (net.nodes observer).voters block.slot blockId +
      committee.rankMap.stake ranks ≤ committee.rankMap.totalStake := by
  have hsub := (h observer).biUnion_voters_subset block.slot blockIds
  rw [(h observer).skip_add_notarize_eq block.slot blockIds]
  rw [committee.rankMap_eq] at hsub ⊢
  apply committee.rankMap.stake_add_le _ hsub hsupp.range
  apply disjoint_left.mpr
  intro rank hrank hsupporter
  rcases mem_biUnion.mp hrank with ⟨vote, hvote, hmem⟩
  rcases of_mem_firstVotes hvote with ⟨hfirst, hslot⟩
  have heq := h.eq_of_cast (hsupp.honest rank hsupporter) (h.cast_of_mem_voters hobs hmem)
    (hsupp.notarize rank hsupporter) hfirst rfl hslot
  subst heq
  exact hother (notarize_mem_firstVotes hvote)

end Honest

end Supporters

omit [AddCommGroup σ] in
theorem supporters_of_notarize {block : Block} (hsrcs : certType.sources = [.notarize block]) :
    Supporters committee net block (net.honestSigners committee certType) where
  range _ hrank := (mem_honestSigners hrank).1
  honest _ hrank := (mem_honestSigners hrank).2.1
  notarize rank hrank := by
    rcases (mem_honestSigners hrank).2.2 with ⟨vote, hvote, hcast⟩
    rw [hsrcs] at hvote
    rwa [List.mem_singleton.mp hvote] at hcast

namespace Invariant

variable {block : Block}

section FewFaulty

variable (h : net.Invariant committee)
  (hfaulty : committee.rankMap.stake committee.faulty * 100 < 20 * committee.rankMap.totalStake)

include h hfaulty

theorem rulesOut_fast (hfin : net.Formable committee (.finalizeFast block)) :
    net.RulesOut committee block := by
  have hstake := hfin.honest_stake rfl hfaulty
  have hsupp : Supporters committee net block
      (net.honestSigners committee (.finalizeFast block)) := supporters_of_notarize rfl
  apply hsupp.rulesOut h (by omega)
  · intro rank hrank hcast
    have hhonest := hsupp.honest rank hrank
    rw [cast_honest hhonest] at hcast
    rcases ((h rank).raisedSkip hcast).2 block.blockId with ⟨blockIds, hnot, hsafe⟩
    rw [committee.rankMap_eq] at hsafe
    have hle := hsupp.stake_other_le h hhonest hnot
    omega
  · intro rank hrank other hslot hne hcast
    have hhonest := hsupp.honest rank hrank
    rw [cast_honest hhonest] at hcast
    have hsafe := ((h rank).raisedNotar hcast).2
    rw [committee.rankMap_eq, hslot] at hsafe
    have hnot : block.blockId ∉ ({other.blockId} : Finset ℕ) := by
      rw [mem_singleton, Sigverify.SlotEntry.blockId_eq_iff hslot.symm]
      exact Ne.symm hne
    have hle := hsupp.stake_other_le h hhonest hnot
    rw [sum_singleton] at hle
    unfold SafeToNotarStakes at hsafe
    omega

theorem eq_of_notarize (hblock : net.Formable committee (.notarize block))
    (hother : net.Formable committee (.notarize other)) (hslot : other.slot = block.slot) :
    other = block := by
  by_contra hne
  have hstake := hblock.honest_stake rfl hfaulty
  have hsupp : Supporters committee net block (net.honestSigners committee (.notarize block)) :=
    supporters_of_notarize rfl
  apply not_formable rfl hsupp.range _ (by omega) hother
  intro rank hrank vote hvote
  rw [List.mem_singleton.mp hvote]
  exact hsupp.not_cast_notarize h hslot hne rank hrank

theorem notarize_of_finalize (hnotar : net.Formable committee (.notarize block))
    (hrank : rank ∉ committee.faulty) (hcast : net.Cast committee rank (.finalize block.slot)) :
    net.Cast committee rank (.notarize block) := by
  rw [cast_honest hrank] at hcast ⊢
  rcases (h rank).noEquivocation.justified.of_mem (mem_recordedVotes.mp hcast) with
    ⟨past, hpast, blockId, hvote, hhandled⟩
  have heq := h.eq_of_notarize hfaulty hnotar ((h rank).handledNotarized _ (hpast hhandled)) rfl
  rw [heq] at hvote
  exact recordedVotes_mono hpast hvote

theorem rulesOut_slow (hnotar : net.Formable committee (.notarize block))
    (hfin : net.Formable committee (.finalize block.slot)) :
    net.RulesOut committee block := by
  have hstake := hfin.honest_stake rfl hfaulty
  have hfinalize : ∀ rank ∈ net.honestSigners committee (.finalize block.slot),
      net.Cast committee rank (.finalize block.slot) := by
    intro rank hrank
    rcases (mem_honestSigners hrank).2.2 with ⟨vote, hvote, hcast⟩
    rwa [List.mem_singleton.mp hvote] at hcast
  have hsupp : Supporters committee net block
      (net.honestSigners committee (.finalize block.slot)) := by
    constructor
    · exact fun rank hrank => (mem_honestSigners hrank).1
    · exact fun rank hrank => (mem_honestSigners hrank).2.1
    · exact fun rank hrank => h.notarize_of_finalize hfaulty hnotar
        (mem_honestSigners hrank).2.1 (hfinalize rank hrank)
  -- beside the finalize vote there is no vote of the bad window
  have hexcl : ∀ rank ∈ net.honestSigners committee (.finalize block.slot), ∀ vote : Vote,
      net.Cast committee rank vote → vote.slot = block.slot → vote.isBadWindow = false := by
    intro rank hrank vote hcast hslot
    have hfinal := hfinalize rank hrank
    rw [cast_honest (hsupp.honest rank hrank)] at hcast hfinal
    exact (h rank).noEquivocation.exclusive block.slot hfinal vote hcast hslot
  apply hsupp.rulesOut h (by omega)
  · intro rank hrank hcast
    cases hexcl rank hrank _ hcast rfl
  · intro rank hrank other hslot _ hcast
    cases hexcl rank hrank _ hcast hslot

end FewFaulty

end Invariant

end Slot

end Network

/-- Whatever the other votes are and however the votes are delivered: once a block can
be finalized, the fast or the slow way, no skip certificate of its slot and no
certificate for another block of its slot can ever be formed. -/
theorem slot_agreement [AddCommGroup σ] [DecidableEq σ] (committee : Committee σ)
    (hfaulty : committee.rankMap.stake committee.faulty * 100 < 20 * committee.rankMap.totalStake)
    (net net' : Network σ) (hreachable : net.Reachable committee)
    (hrun : Relation.ReflTransGen (Network.Step committee) net net') (block : Block)
    (hfinalized : net.Formable committee (.finalizeFast block) ∨
      (net.Formable committee (.notarize block) ∧ net.Formable committee (.finalize block.slot))) :
    ¬ net'.Formable committee (.skip block.slot) ∧
      ∀ other : Block, other.slot = block.slot → other ≠ block →
        ¬ net'.Formable committee (.notarize other) ∧
          ¬ net'.Formable committee (.notarizeFallback other) := by
  have hlater := Network.later_of_run hrun
  have hinvariant : net'.Invariant committee := by
    rcases hreachable with ⟨start, hfresh, hbefore⟩
    exact Network.Reachable.invariant ⟨start, hfresh, hbefore.trans hrun⟩
  rcases hfinalized with hfast | ⟨hnotarized, hslow⟩
  · exact hinvariant.rulesOut_fast hfaulty (hlater.formable hfast)
  · exact hinvariant.rulesOut_slow hfaulty (hlater.formable hnotarized) (hlater.formable hslow)

/-! ## A run -/

namespace Network

def handle (committee : Committee σ) (net : Network σ) (delivery : ℕ × VotorEvent) : Network σ :=
  { net with
    nodes := update net.nodes delivery.1
      ((net.nodes delivery.1).handle (committee.setting delivery.1) delivery.2) }

theorem Reachable.handleAll [AddCommGroup σ] [DecidableEq σ] {committee : Committee σ}
    {net : Network σ} (h : net.Reachable committee) {deliveries : List (ℕ × VotorEvent)}
    (hoffers : ∀ delivery ∈ deliveries, ∀ (node : Node σ) (notarized : Block → Prop),
      node.Offers notarized delivery.2) :
    (deliveries.foldl (handle committee) net).Reachable committee := by
  induction deliveries generalizing net with
  | nil => exact h
  | cons delivery deliveries ih =>
    rw [List.forall_mem_cons] at hoffers
    apply ih _ hoffers.2
    rcases h with ⟨start, hfresh, hrun⟩
    exact ⟨start, hfresh, hrun.tail (.node delivery.1 (.handle delivery.2 (hoffers.1 _ _)))⟩

end Network

/-- Six validators with the same stake, the last of which votes as it likes. -/
def sixValidators : Committee ℤ where
  rankMap := ⟨6, fun _ => 1, 6, by decide, by decide⟩
  setting := fun rank =>
    { env := .undisturbed rank (fun _ => 0) monotone_const
      identity := rank
      identity_eq := fun _ => rfl
      rankMap := fun _ => ⟨6, fun _ => 1, 6, by decide, by decide⟩
      ownRank := fun _ => rank
      signatureOf := fun _ _ => 1
      store := .bytewise }
  rankMap_eq := fun _ _ => rfl
  ownRank_eq := fun _ _ => rfl
  faulty := {5}
  faulty_subset := by decide

def sixValidatorsNotarized : Network ℤ :=
  ((List.range 5).flatMap (fun rank => [(rank, .setIdentity), (rank, .parentReady 1 ⟨0, 7⟩),
    (rank, .block ⟨1, ⟨1, some 11, 0, some ⟨0, some 7⟩, 5, none⟩, rfl⟩)])).foldl
    (Network.handle sixValidators)
    ⟨fun rank => .start (sixValidators.setting rank) .preFeatureActivation ⟨0, 7⟩, []⟩

theorem sixValidatorsNotarized_reachable : sixValidatorsNotarized.Reachable sixValidators := by
  apply Network.Reachable.handleAll
  · exact ⟨_, ⟨fun rank => Node.fresh_start _ _ _, rfl⟩, .refl⟩
  · intro delivery hdelivery node notarized
    rcases List.mem_flatMap.mp hdelivery with ⟨rank, _, hmem⟩
    simp only [List.mem_cons, List.not_mem_nil, or_false] at hmem
    rcases hmem with heq | heq | heq <;> rw [heq] <;> trivial

/-- The block can be finalized the fast way, and the vote of the last validator does
not help to skip the slot. -/
theorem slot_agreement_fast :
    sixValidatorsNotarized.Formable sixValidators (.finalizeFast ⟨1, 11⟩) ∧
      ¬ Network.Formable sixValidators
        { sixValidatorsNotarized with faultyVotes := [(5, .skip 1)] } (.skip 1) := by
  have hformable : sixValidatorsNotarized.Formable sixValidators (.finalizeFast ⟨1, 11⟩) := by
    unfold Network.Formable
    decide +kernel
  have hagreement := slot_agreement sixValidators (by decide) sixValidatorsNotarized
    { sixValidatorsNotarized with faultyVotes := [(5, .skip 1)] } sixValidatorsNotarized_reachable
    (.single (.faulty 5 (.skip 1))) ⟨1, 11⟩ (Or.inl hformable)
  exact ⟨hformable, hagreement.1⟩

/-- Of the blocks of one slot at most one can ever be notarized. -/
theorem notarized_unique [AddCommGroup σ] [DecidableEq σ] (committee : Committee σ)
    (hfaulty : committee.rankMap.stake committee.faulty * 100 < 20 * committee.rankMap.totalStake)
    (net net' : Network σ) (hreachable : net.Reachable committee)
    (hrun : Relation.ReflTransGen (Network.Step committee) net net') (block other : Block)
    (hblock : net.Formable committee (.notarize block))
    (hother : net'.Formable committee (.notarize other)) (hslot : other.slot = block.slot) :
    other = block := by
  rcases hreachable with ⟨start, hfresh, hbefore⟩
  have hinv := Network.Reachable.invariant ⟨start, hfresh, hbefore.trans hrun⟩
  exact hinv.eq_of_notarize hfaulty ((Network.later_of_run hrun).formable hblock) hother hslot

/-- A vote of the last validator does not help to notarize another block. -/
theorem notarized_unique_other :
    sixValidatorsNotarized.Formable sixValidators (.notarize ⟨1, 11⟩) ∧
      ¬ Network.Formable sixValidators
        { sixValidatorsNotarized with faultyVotes := [(5, .notarize ⟨1, 12⟩)] }
        (.notarize ⟨1, 12⟩) := by
  have hformable : sixValidatorsNotarized.Formable sixValidators (.notarize ⟨1, 11⟩) := by
    unfold Network.Formable
    decide +kernel
  refine ⟨hformable, fun hother => ?_⟩
  have heq := notarized_unique sixValidators (by decide) _ _ sixValidatorsNotarized_reachable
    (.single (.faulty 5 (.notarize ⟨1, 12⟩))) ⟨1, 11⟩ ⟨1, 12⟩ hformable hother rfl
  cases heq

end RakuraiValidator.Votor
