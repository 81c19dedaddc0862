import RakuraiValidator.VotorNode

/-!
# What the consensus pool of a validator has counted

The stakes behind `SafeToNotar` and `SafeToSkip` are those of the ranks which the
pool has counted for the first votes of the slot.  This is kept by every message to
the pool and by pruning.
-/

namespace RakuraiValidator.Votor

open Bitmap SlotStakeCounters RankMap BTreeMap VotePool List

variable {σ : Type}

/-! ## Raised events -/

section Raised

variable (setting : Setting σ) (recorded : List Vote) (voters : Vote → Finset ℕ)

def skipStake (slot : ℕ) : ℕ := (setting.rankMap slot).stake (voters (.skip slot))

def notarizeStake (slot blockId : ℕ) : ℕ :=
  (setting.rankMap slot).stake (voters (.notarize ⟨slot, blockId⟩))

def RaisedNotar (block : Block) : Prop :=
  (∃ first ∈ recorded, first.isNotarizeOrSkip = true ∧ first.slot = block.slot ∧
      first ≠ .notarize block) ∧
    SafeToNotarStakes (setting.rankMap block.slot).totalStake
      (skipStake setting voters block.slot) (notarizeStake setting voters block.slot block.blockId)

def RaisedSkip (slot : ℕ) : Prop :=
  (∃ block, .notarize block ∈ recorded ∧ block.slot = slot) ∧
    SafeToSkipStakes (setting.rankMap slot).totalStake (skipStake setting voters slot)
      (notarizeStake setting voters slot)

end Raised

theorem RankMap.stake_mono (rankMap : RankMap) {ranks ranks' : Finset ℕ} (h : ranks ⊆ ranks') :
    rankMap.stake ranks ≤ rankMap.stake ranks' :=
  Finset.sum_le_sum_of_subset h

variable {setting : Setting σ} {recorded recorded' : List Vote} {voters voters' : Vote → Finset ℕ}

theorem RaisedNotar.mono {block : Block} (h : RaisedNotar setting recorded voters block)
    (hrec : recorded ⊆ recorded') (hvoters : ∀ vote, voters vote ⊆ voters' vote) :
    RaisedNotar setting recorded' voters' block := by
  rcases h with ⟨⟨first, hmem, hfirst⟩, hstakes⟩
  exact ⟨⟨first, hrec hmem, hfirst⟩,
    hstakes.mono (stake_mono _ (hvoters _)) (stake_mono _ (hvoters _))⟩

theorem RaisedSkip.mono {slot : ℕ} (h : RaisedSkip setting recorded voters slot)
    (hrec : recorded ⊆ recorded') (hvoters : ∀ vote, voters vote ⊆ voters' vote) :
    RaisedSkip setting recorded' voters' slot := by
  rcases h with ⟨⟨block, hmem, hslot⟩, hstakes⟩
  exact ⟨⟨block, hrec hmem, hslot⟩,
    hstakes.mono (stake_mono _ (hvoters _)) (fun _ => stake_mono _ (hvoters _))⟩

/-! ## The invariant -/

variable [AddCommGroup σ]

/-- The counters of a slot and the own vote which they wait for. -/
structure CountersInvariant (setting : Setting σ) (recorded : List Vote)
    (voters : Vote → Finset ℕ) (slot : ℕ) (c : SlotStakeCounters) : Prop where
  bounded : c.Bounded (skipStake setting voters slot) (notarizeStake setting voters slot)
  totalStake : c.totalStake = (setting.rankMap slot).totalStake
  first : ∀ first ∈ c.myFirstVote,
    first ∈ recorded ∧ first.isNotarizeOrSkip = true ∧ first.slot = slot

def CountedVoters (setting : Setting σ) (voters : Vote → Finset ℕ) (pool : ConsensusPool σ)
    (vote : Vote) : Prop :=
  ((pool.votePool (setting.rankMap vote.slot).maxValidators vote.slot).accumulator vote).Counted
      (setting.rankMap vote.slot).stakeOf (setting.signatureOf vote)
      (setting.rankMap vote.slot).maxValidators ∧
    support ((pool.votePool (setting.rankMap vote.slot).maxValidators vote.slot).accumulator
      vote).ranks = voters vote

structure PoolInvariant (setting : Setting σ) (recorded : List Vote) (voters : Vote → Finset ℕ)
    (pool : ConsensusPool σ) (pending : List Block) (events : List VotorEvent) : Prop where
  counted : ∀ vote, pool.lastPrunedSlot ≤ vote.slot → CountedVoters setting voters pool vote
  counters : ∀ slot, pool.lastPrunedSlot ≤ slot → CountersInvariant setting recorded voters slot
    (pool.counters (setting.rankMap slot).totalStake slot)
  raisedNotar : ∀ block, Raised.Notar ⟨events, pool.pendingSafeToNotar ++ pending⟩ block →
    RaisedNotar setting recorded voters block
  raisedSkip : ∀ slot, .safeToSkip slot ∈ events → RaisedSkip setting recorded voters slot

variable (root : ℕ)

variable {pool pool' : ConsensusPool σ} {pending : List Block} {events events' : List VotorEvent}

namespace PoolInvariant

theorem new (phase : MigrationPhase σ) (slot : ℕ) (parentBlock : Block)
    (hvoters : ∀ vote, voters vote = ∅) :
    PoolInvariant setting recorded voters (.new root phase slot parentBlock) [] [] := by
  constructor
  · intro vote _
    have haccum : ((ConsensusPool.new root phase slot parentBlock).votePool
        (setting.rankMap vote.slot).maxValidators vote.slot).accumulator vote =
          AggregateAccumulator.new (setting.rankMap vote.slot).maxValidators := by
      simp [ConsensusPool.votePool, ConsensusPool.new, accumulator, VotePool.new]
    unfold CountedVoters
    rw [haccum, hvoters]
    exact ⟨AggregateAccumulator.counted_new, by simp [AggregateAccumulator.new]⟩
  · intro slot' _
    have hcounts : (ConsensusPool.new root phase slot parentBlock).counters
        (setting.rankMap slot').totalStake slot' = .new (setting.rankMap slot').totalStake := by
      simp [ConsensusPool.counters, ConsensusPool.new]
    rw [hcounts]
    exact ⟨bounded_new _, rfl, fun first hfirst => by cases hfirst⟩
  · intro block hblock
    simp [Raised.Notar, ConsensusPool.new] at hblock
  · intro slot hslot
    cases hslot

variable (h : PoolInvariant setting recorded voters pool pending events)

include h

theorem mono (hrec : recorded ⊆ recorded') :
    PoolInvariant setting recorded' voters pool pending events where
  counted := h.counted
  counters slot hslot := by
    have hcounts := h.counters slot hslot
    refine ⟨hcounts.bounded, hcounts.totalStake, ?_⟩
    intro first hfirst
    have hmem := hcounts.first first hfirst
    exact ⟨hrec hmem.1, hmem.2⟩
  raisedNotar block hblock :=
    (h.raisedNotar block hblock).mono hrec (fun _ => Finset.Subset.refl _)
  raisedSkip slot hslot :=
    (h.raisedSkip slot hslot).mono hrec (fun _ => Finset.Subset.refl _)

theorem same (hsame : SameVotes pool pool' events events') :
    PoolInvariant setting recorded voters pool' pending events' := by
  constructor
  · intro vote hslot
    rw [hsame.lastPrunedSlot] at hslot
    have hcount := h.counted vote hslot
    unfold CountedVoters ConsensusPool.votePool at hcount ⊢
    rwa [hsame.votePools]
  · intro slot hslot
    rw [hsame.lastPrunedSlot] at hslot
    have hcounts := h.counters slot hslot
    unfold ConsensusPool.counters at hcounts ⊢
    rwa [hsame.slotStakeCounters]
  · intro block hblock
    apply h.raisedNotar block
    unfold Raised.Notar at hblock ⊢
    rwa [hsame.pendingSafeToNotar, hsame.safeToNotar] at hblock
  · intro slot hslot
    exact h.raisedSkip slot ((hsame.safeToSkip slot).mp hslot)

theorem prune : PoolInvariant setting recorded voters (pool.maybePrune root) pending events := by
  unfold ConsensusPool.maybePrune
  split
  next => exact h
  next hroot =>
    constructor
    · intro vote hslot
      have hslot' : root ≤ vote.slot := hslot
      have hcount := h.counted vote ((not_le.mp hroot).le.trans hslot')
      unfold CountedVoters ConsensusPool.votePool at hcount ⊢
      dsimp only
      rwa [get?_splitOff, if_pos hslot']
    · intro slot hslot
      have hslot' : root ≤ slot := hslot
      have hcounts := h.counters slot ((not_le.mp hroot).le.trans hslot')
      unfold ConsensusPool.counters at hcounts ⊢
      dsimp only
      rwa [get?_splitOff, if_pos hslot']
    · intro block hblock
      apply h.raisedNotar block
      simp only [Raised.Notar, mem_append, mem_filter] at hblock ⊢
      tauto
    · exact h.raisedSkip

end PoolInvariant

/-! ## One counted vote -/

section Count

variable {message : PoolVote σ}

omit [AddCommGroup σ] in
theorem subset_votersWith (vote : Vote) : voters vote ⊆ votersWith voters message vote := by
  unfold votersWith
  by_cases hvote : vote = message.vote
  · subst hvote
    rw [Function.update_self]
    exact Finset.subset_union_left
  · rw [Function.update_of_ne hvote]

theorem VoteCounted.votePool {stakes : EpochStakes}
    (h : VoteCounted stakes message pool pool' events events') (maxValidators slot : ℕ) :
    pool'.votePool maxValidators slot =
      if slot = message.vote.slot then
        (pool.votePool stakes.maxValidators message.vote.slot).setAccumulator message.vote
          (pool.accumulatorAfter stakes.maxValidators message)
      else pool.votePool maxValidators slot := by
  unfold ConsensusPool.votePool
  rw [h.votePools, get?_insert]
  split <;> rfl

structure CountsOnce (setting : Setting σ) (recorded : List Vote) (voters : Vote → Finset ℕ)
    (message : PoolVote σ) : Prop where
  genuine : message.Genuine (setting.rankMap message.vote.slot).stakeOf
    (setting.signatureOf message.vote) (setting.rankMap message.vote.slot).maxValidators
  new : message.isExternal = true → Disjoint (voters message.vote) message.voters
  own : message.isExternal = false → message.vote ∈ recorded

section

variable (h : CountsOnce setting recorded voters message)

include h

section

variable (hcount : CountedVoters setting voters pool message.vote)

include hcount

theorem CountsOnce.counted :
    (pool.accumulatorAfter (setting.rankMap message.vote.slot).maxValidators message).Counted
        (setting.rankMap message.vote.slot).stakeOf (setting.signatureOf message.vote)
        (setting.rankMap message.vote.slot).maxValidators ∧
      support (pool.accumulatorAfter (setting.rankMap message.vote.slot).maxValidators
        message).ranks = votersWith voters message message.vote := by
  have hstake := (setting.rankMap message.vote.slot).sum_stake.trans_le
    (setting.rankMap message.vote.slot).totalStake_le
  have hstep := hcount.1.step hstake h.genuine (by rw [hcount.2]; exact h.new)
  refine ⟨hstep.1, ?_⟩
  rw [votersWith, Function.update_self, ← hcount.2]
  exact hstep.2

theorem CountsOnce.stake :
    (pool.accumulatorAfter (setting.rankMap message.vote.slot).maxValidators message).stake =
      (setting.rankMap message.vote.slot).stake (votersWith voters message message.vote) := by
  have hafter := h.counted hcount
  rw [hafter.1.stake, hafter.2]
  rfl

end

theorem CountedVoters.count {vote : Vote}
    (hmsg : CountedVoters setting voters pool message.vote)
    (hvote : CountedVoters setting voters pool vote)
    (hcount : VoteCounted (setting.rankMap message.vote.slot).epochStakes message pool pool'
      events events') :
    CountedVoters setting (votersWith voters message) pool' vote := by
  unfold CountedVoters
  rw [hcount.votePool]
  by_cases heq : vote = message.vote
  · subst heq
    rw [if_pos rfl, accumulator_setAccumulator, if_pos rfl]
    exact h.counted hmsg
  · have hvoters : votersWith voters message vote = voters vote := by
      rw [votersWith, Function.update_of_ne heq]
    rw [hvoters]
    split
    next hslot =>
      rw [accumulator_setAccumulator, if_neg heq]
      unfold CountedVoters at hvote
      rw [hslot] at hvote ⊢
      exact hvote
    next => exact hvote

theorem CountersInvariant.count {counters : SlotStakeCounters} {raised : Raised}
    (hmsg : CountedVoters setting voters pool message.vote)
    (hcounts : CountersInvariant setting recorded voters message.vote.slot (pool.counters
      (setting.rankMap message.vote.slot).totalStake message.vote.slot))
    (hadd : (pool.counters (setting.rankMap message.vote.slot).totalStake
      message.vote.slot).addVote message.vote (pool.accumulatorAfter (setting.rankMap
      message.vote.slot).maxValidators message).stake (!message.isExternal) ⟨events,
      pool.pendingSafeToNotar⟩ = .ok (counters, raised)) :
    CountersInvariant setting recorded (votersWith voters message) message.vote.slot counters ∧
    (∀ block, raised.Notar block → Raised.Notar ⟨events, pool.pendingSafeToNotar⟩ block ∨
      RaisedNotar setting recorded (votersWith voters message) block) ∧
    ∀ slot, raised.Skip slot → .safeToSkip slot ∈ events ∨
      RaisedSkip setting recorded (votersWith voters message) slot := by
  have hgrown : ∀ vote, voters vote ⊆ votersWith voters message vote :=
    fun vote => subset_votersWith vote
  have hstake := h.stake hmsg
  have hadded := addVote_spec
    (hcounts.bounded.mono (stake_mono _ (hgrown _))
      (fun blockId => stake_mono _ (hgrown _)))
    (fun slot hvote => by rw [hstake, hvote]; rfl)
    (fun block hvote => by rw [hstake, hvote]; rfl) hadd
  have hfirst : ∀ first ∈ counters.myFirstVote,
      first ∈ recorded ∧ first.isNotarizeOrSkip = true ∧ first.slot = message.vote.slot := by
    intro first hmem
    rcases hadded.first first hmem with hold | ⟨heq, hown, hkind⟩
    · exact hcounts.first first hold
    · rw [heq]
      exact ⟨h.own (by simpa using hown), hkind, rfl⟩
  refine ⟨⟨hadded.bounded, hadded.totalStake.trans hcounts.totalStake, hfirst⟩, ?_, ?_⟩
  · intro block hblock
    rcases hadded.notar block hblock with hold | ⟨hslot, ⟨first, hmem, hne⟩, hstakes⟩
    · exact .inl hold
    · rcases hfirst first hmem with ⟨hrec, hkind, hfirstSlot⟩
      rw [hcounts.totalStake, ← hslot] at hstakes
      exact .inr ⟨⟨first, hrec, hkind, hfirstSlot.trans hslot.symm, hne⟩, hstakes⟩
  · intro slot hslot
    rcases hadded.skip slot hslot with hold | ⟨heq, ⟨block, hmem⟩, hstakes⟩
    · exact .inl hold
    · rcases hfirst _ hmem with ⟨hrec, _, hblockSlot⟩
      rw [hcounts.totalStake, ← heq] at hstakes
      exact .inr ⟨⟨block, hrec, hblockSlot.trans heq.symm⟩, hstakes⟩

end

theorem PoolInvariant.count (h : PoolInvariant setting recorded voters pool pending events)
    (hmsg : CountsOnce setting recorded voters message)
    (hpruned : pool.lastPrunedSlot ≤ message.vote.slot)
    (hcount : VoteCounted (setting.rankMap message.vote.slot).epochStakes message pool pool'
      events events') :
    PoolInvariant setting recorded (votersWith voters message) pool' pending events' := by
  have hgrown : ∀ vote, voters vote ⊆ votersWith voters message vote :=
    fun vote => subset_votersWith vote
  have hvote := h.counted message.vote hpruned
  have hslot := h.counters message.vote.slot hpruned
  have hother : ∀ slot, pool.lastPrunedSlot ≤ slot →
      CountersInvariant setting recorded (votersWith voters message) slot
        (pool.counters (setting.rankMap slot).totalStake slot) := by
    intro slot hslot
    have hold := h.counters slot hslot
    exact ⟨hold.bounded.mono (stake_mono _ (hgrown _))
      (fun _ => stake_mono _ (hgrown _)), hold.totalStake, hold.first⟩
  have hpart : ∀ vote, pool'.lastPrunedSlot ≤ vote.slot →
      CountedVoters setting (votersWith voters message) pool' vote := by
    intro vote hle
    rw [hcount.lastPrunedSlot] at hle
    exact CountedVoters.count hmsg hvote (h.counted vote hle) hcount
  rcases hcount.counters with ⟨hcounts, hpend, hevents⟩ |
    ⟨counters, raised, hadd, hcounts, hpend, hnotar, hskip⟩
  · -- the vote pool reported an error, so the counters do not see the vote
    constructor
    · exact hpart
    · intro slot hle
      rw [hcount.lastPrunedSlot] at hle
      unfold ConsensusPool.counters
      rw [hcounts]
      exact hother slot hle
    · intro block hblock
      rw [hpend, hevents] at hblock
      exact (h.raisedNotar block hblock).mono (List.Subset.refl _) hgrown
    · intro slot hskipped
      rw [hevents] at hskipped
      exact (h.raisedSkip slot hskipped).mono (List.Subset.refl _) hgrown
  · rcases CountersInvariant.count hmsg hvote hslot hadd with
      ⟨hinv, hraisedNotar, hraisedSkip⟩
    constructor
    · exact hpart
    · intro slot hle
      rw [hcount.lastPrunedSlot] at hle
      unfold ConsensusPool.counters
      rw [hcounts, get?_insert]
      split
      next heq =>
        rw [heq]
        exact hinv
      next => exact hother slot hle
    · intro block hblock
      simp only [Raised.Notar, mem_append, hpend, hnotar] at hblock
      have hcases : raised.Notar block ∨ block ∈ pending := by
        unfold Raised.Notar
        tauto
      have hold : Raised.Notar ⟨events, pool.pendingSafeToNotar ++ pending⟩ block →
          RaisedNotar setting recorded (votersWith voters message) block :=
        fun hraised => (h.raisedNotar block hraised).mono (List.Subset.refl _) hgrown
      simp only [Raised.Notar, mem_append] at hold hraisedNotar
      rcases hcases with hraised | hpendBlock
      · rcases hraisedNotar block hraised with hbefore | hnew
        · exact hold (by tauto)
        · exact hnew
      · exact hold (by tauto)
    · intro slot hskipped
      rcases hraisedSkip slot ((hskip slot).mp hskipped) with hbefore | hnew
      · exact (h.raisedSkip slot hbefore).mono (List.Subset.refl _) hgrown
      · exact hnew

end Count

end RakuraiValidator.Votor
