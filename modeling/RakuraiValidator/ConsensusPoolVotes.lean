import RakuraiValidator.ConsensusPool
import RakuraiValidator.ParentReadyPropagation

/-!
# Votes in the consensus pool

A certificate leaves the vote pools and the stake counters and raises neither
`SafeToNotar` nor `SafeToSkip`.  A vote changes the accumulator of its vote and the
counters of its slot, and nothing else of them.
-/

namespace RakuraiValidator.Votor

open ParentReadyTracker ConsensusPool

variable {σ : Type} {pool pool' pool'' : ConsensusPool σ}
  {events events' events'' : List VotorEvent}

/-! ## Certificates -/

/-- The pools agree on the votes and the events on what the counters raise. -/
structure SameVotes (pool pool' : ConsensusPool σ) (events events' : List VotorEvent) : Prop where
  votePools : pool'.votePools = pool.votePools
  slotStakeCounters : pool'.slotStakeCounters = pool.slotStakeCounters
  pendingSafeToNotar : pool'.pendingSafeToNotar = pool.pendingSafeToNotar
  lastPrunedSlot : pool'.lastPrunedSlot = pool.lastPrunedSlot
  safeToNotar : ∀ block, .safeToNotar block ∈ events' ↔ .safeToNotar block ∈ events
  safeToSkip : ∀ slot, .safeToSkip slot ∈ events' ↔ .safeToSkip slot ∈ events

namespace SameVotes

theorem refl : SameVotes pool pool events events :=
  ⟨rfl, rfl, rfl, rfl, fun _ => .rfl, fun _ => .rfl⟩

theorem trans (h : SameVotes pool pool' events events')
    (h' : SameVotes pool' pool'' events' events'') : SameVotes pool pool'' events events'' where
  votePools := h'.votePools.trans h.votePools
  slotStakeCounters := h'.slotStakeCounters.trans h.slotStakeCounters
  pendingSafeToNotar := h'.pendingSafeToNotar.trans h.pendingSafeToNotar
  lastPrunedSlot := h'.lastPrunedSlot.trans h.lastPrunedSlot
  safeToNotar block := (h'.safeToNotar block).trans (h.safeToNotar block)
  safeToSkip slot := (h'.safeToSkip slot).trans (h.safeToSkip slot)

theorem append (event : VotorEvent) (hnotar : ∀ block, event ≠ .safeToNotar block)
    (hskip : ∀ slot, event ≠ .safeToSkip slot) :
    SameVotes pool pool events (events ++ [event]) :=
  ⟨rfl, rfl, rfl, rfl, fun block => by simp [Ne.symm (hnotar block)],
    fun slot => by simp [Ne.symm (hskip slot)]⟩

theorem updateHighest {slot : FinalizedSlot}
    {cert : Except BlockFinalizationCertError (ValidatedBlockFinalizationCert σ)}
    (h : pool.updateHighest slot cert = .ok pool') : SameVotes pool pool' events events := by
  unfold ConsensusPool.updateHighest at h
  split at h
  · cases cert with
    | error error => cases h
    | ok cert =>
      cases h
      exact ⟨rfl, rfl, rfl, rfl, fun _ => .rfl, fun _ => .rfl⟩
  · cases h
    exact refl

theorem updateHighest_bind {slot : FinalizedSlot}
    {cert : Except BlockFinalizationCertError (ValidatedBlockFinalizationCert σ)}
    (h : (pool.updateHighest slot cert).bind (fun next => .ok (next, events'')) =
      .ok (pool', events')) (hsame : SameVotes pool pool events events'') :
    SameVotes pool pool' events events' := by
  cases hnext : pool.updateHighest slot cert with
  | error panic =>
    rw [hnext] at h
    cases h
  | ok next =>
    rw [hnext] at h
    cases h
    exact hsame.trans (updateHighest hnext)

theorem track {operation : ParentReadyTracker → List VotorEvent →
      Except TrackerPanic (ParentReadyTracker × List VotorEvent)}
    (hop : ∀ t t' events events', operation t events = .ok (t', events') →
      SameOtherEvents events events')
    (h : pool.track events operation = .ok (pool', events')) :
    SameVotes pool pool' events events' := by
  unfold ConsensusPool.track at h
  split at h
  next => cases h
  next t' events₁ heq =>
    cases h
    have hsame := hop _ _ _ _ heq
    exact ⟨rfl, rfl, rfl, rfl, fun block => hsame _ (by simp), fun slot => hsame _ (by simp)⟩

end SameVotes

theorem addNewNotarFallbackOrStronger_otherEvents {t t' : ParentReadyTracker} {block : Block}
    (h : t.addNewNotarFallbackOrStronger block events = .ok (t', events')) :
    SameOtherEvents events events' := by
  unfold addNewNotarFallbackOrStronger at h
  split at h
  · cases h
    exact SameOtherEvents.refl
  · exact addNotarFallbackOrStronger_otherEvents h

variable {store : SignerStore} {rootBank : RootBank}

theorem insertCertificate_sameVotes {cert : Certificate σ}
    (h : pool.insertCertificate store rootBank cert events = .ok (pool', events')) :
    SameVotes pool pool' events events' := by
  have hstor : SameVotes pool { pool with
      completedCertificates := (pool.completedCertificates.insert cert.certType cert).2 }
      events events := ⟨rfl, rfl, rfl, rfl, fun _ => .rfl, fun _ => .rfl⟩
  unfold insertCertificate at h
  apply hstor.trans
  generalize { pool with
    completedCertificates := (pool.completedCertificates.insert cert.certType cert).2 } = stored
    at h ⊢
  dsimp only at h
  generalize cert.certType = certType at h
  cases certType with
  | notarizeFallback block =>
    apply (SameVotes.append (.blockNotarFallback block) (by simp) (by simp)).trans
    exact SameVotes.track (fun _ _ _ _ => addNewNotarFallbackOrStronger_otherEvents) h
  | skip slot => exact SameVotes.track (fun _ _ _ _ => addNewSkip_otherEvents) h
  | notarize block =>
    apply (SameVotes.append (.blockNotarized block) (by simp) (by simp)).trans
    dsimp only at h
    cases htrack : stored.track (events ++ [.blockNotarized block])
        (fun tracker => tracker.addNewNotarFallbackOrStronger block) with
    | error panic =>
      rw [htrack] at h
      cases h
    | ok result =>
      rw [htrack] at h
      apply (SameVotes.track
        (fun _ _ _ _ => addNewNotarFallbackOrStronger_otherEvents) htrack).trans
      dsimp only [bind, Except.bind] at h
      split at h
      next finalizeCert _ =>
        exact .updateHighest_bind h
          (SameVotes.append (.finalized block false) (by simp) (by simp))
      next =>
        cases h
        exact SameVotes.refl
  | finalize slot =>
    dsimp only at h
    split at h
    next notarizeCert _ =>
      exact .updateHighest_bind h
        (SameVotes.append (.finalized notarizeCert.block false) (by simp) (by simp))
    next =>
      cases h
      exact SameVotes.refl
  | finalizeFast block =>
    apply (SameVotes.append (.finalized block true) (by simp) (by simp)).trans
    dsimp only at h
    cases htrack : stored.track (events ++ [.finalized block true])
        (fun tracker => tracker.addNewNotarFallbackOrStronger block) with
    | error panic =>
      rw [htrack] at h
      cases h
    | ok result =>
      rw [htrack] at h
      exact (SameVotes.track
        (fun _ _ _ _ => addNewNotarFallbackOrStronger_otherEvents) htrack).trans
          (.updateHighest_bind h .refl)
  | genesis block =>
    dsimp only at h
    cases hphase : stored.migrationPhase.setGenesisCertificate ⟨block, cert.certSignature⟩ with
    | error panic =>
      rw [hphase] at h
      cases h
    | ok phase =>
      rw [hphase] at h
      have htrack := SameVotes.track
        (fun _ _ _ _ => addNotarFallbackOrStronger_otherEvents) h
      exact ⟨htrack.1, htrack.2, htrack.3, htrack.4, htrack.5, htrack.6⟩

theorem addCerts_sameVotes {certs newCerts : List (Certificate σ)}
    (h : pool.addCerts store rootBank certs events = .ok (pool', events', newCerts)) :
    SameVotes pool pool' events events' := by
  induction certs generalizing pool events newCerts with
  | nil =>
    cases h
    exact SameVotes.refl
  | cons cert certs ih =>
    rw [addCerts] at h
    split at h
    · exact ih h
    · split at h
      · exact ih h
      · cases hins : pool.insertCertificate store rootBank cert events with
        | error panic =>
          rw [hins] at h
          cases h
        | ok inserted =>
          rw [hins] at h
          dsimp only [bind, Except.bind] at h
          cases hrest : inserted.1.addCerts store rootBank certs inserted.2 with
          | error panic =>
            rw [hrest] at h
            cases h
          | ok rest =>
            rw [hrest] at h
            cases h
            exact (insertCertificate_sameVotes hins).trans (ih hrest)

/-! ## Votes -/

section Votes

variable [AddCommGroup σ] [DecidableEq σ] {message : PoolVote σ}

def ConsensusPool.votePool (pool : ConsensusPool σ) (maxValidators slot : ℕ) : VotePool σ :=
  (pool.votePools.get? slot).getD (.new maxValidators)

def ConsensusPool.counters (pool : ConsensusPool σ) (totalStake : ℕ+) (slot : ℕ) :
    SlotStakeCounters :=
  (pool.slotStakeCounters.get? slot).getD (.new totalStake)

def ConsensusPool.accumulatorAfter (pool : ConsensusPool σ) (maxValidators : ℕ)
    (message : PoolVote σ) : AggregateAccumulator σ :=
  ((pool.votePool maxValidators message.vote.slot).accumulator message.vote).step message

structure VoteCounted (stakes : EpochStakes) (message : PoolVote σ)
    (pool pool' : ConsensusPool σ) (events events' : List VotorEvent) : Prop where
  votePools : pool'.votePools = (pool.votePools.insert message.vote.slot
    ((pool.votePool stakes.maxValidators message.vote.slot).setAccumulator message.vote
      (pool.accumulatorAfter stakes.maxValidators message))).2
  lastPrunedSlot : pool'.lastPrunedSlot = pool.lastPrunedSlot
  counters : (pool'.slotStakeCounters = pool.slotStakeCounters ∧
      pool'.pendingSafeToNotar = pool.pendingSafeToNotar ∧ events' = events) ∨
    ∃ counters raised,
      (pool.counters stakes.totalStake message.vote.slot).addVote message.vote
        (pool.accumulatorAfter stakes.maxValidators message).stake (!message.isExternal)
        ⟨events, pool.pendingSafeToNotar⟩ = .ok (counters, raised) ∧
      pool'.slotStakeCounters = (pool.slotStakeCounters.insert message.vote.slot counters).2 ∧
      pool'.pendingSafeToNotar = raised.pendingSafeToNotar ∧
      (∀ block, .safeToNotar block ∈ events' ↔ .safeToNotar block ∈ raised.events) ∧
      ∀ slot, .safeToSkip slot ∈ events' ↔ .safeToSkip slot ∈ raised.events

variable (pool store message) in
theorem updateVotePool_fst (stakes : EpochStakes) :
    (pool.updateVotePool store stakes message).1 = { pool with
      votePools := (pool.votePools.insert message.vote.slot
        ((pool.votePool stakes.maxValidators message.vote.slot).setAccumulator message.vote
          (pool.accumulatorAfter stakes.maxValidators message))).2 } := by
  simp only [updateVotePool]
  rw [VotePool.addPoolVote_fst]
  rfl

theorem updateVotePool_stake {stakes : EpochStakes} {entryStake : ℕ}
    {newCert : Option (Certificate σ)}
    (h : (pool.updateVotePool store stakes message).2 = .ok (entryStake, newCert)) :
    entryStake = (pool.accumulatorAfter stakes.maxValidators message).stake := by
  simp only [updateVotePool] at h
  cases hres : (((pool.votePools.get? message.vote.slot).getD
      (.new stakes.maxValidators)).addPoolVote store stakes.totalStake message
        pool.completedCertificates).2 with
  | error error =>
    rw [hres] at h
    cases h
  | ok result =>
    rw [hres] at h
    have hstake := VotePool.addPoolVote_stake hres
    cases h
    exact hstake

theorem addPoolVote_cases {result : Except AddVoteError (Option (Certificate σ))}
    (h : pool.addPoolVote store rootBank message events = .ok (pool', events', result)) :
    ((rootBank.epochStakes message.vote.slot = none ∨ message.vote.slot < rootBank.slot) ∧
      pool' = pool ∧ events' = events) ∨
    ∃ stakes, rootBank.epochStakes message.vote.slot = some stakes ∧
      rootBank.slot ≤ message.vote.slot ∧ VoteCounted stakes message pool pool' events events' := by
  unfold addPoolVote at h
  dsimp only at h
  cases hstakes : rootBank.epochStakes message.vote.slot with
  | none =>
    rw [hstakes] at h
    cases h
    exact .inl ⟨.inl rfl, rfl, rfl⟩
  | some stakes =>
    rw [hstakes] at h
    dsimp only at h
    by_cases hold : message.vote.slot < rootBank.slot
    · rw [if_pos hold] at h
      cases h
      exact .inl ⟨.inr hold, rfl, rfl⟩
    · rw [if_neg hold] at h
      refine .inr ⟨stakes, rfl, not_lt.mp hold, ?_⟩
      have hstor := updateVotePool_fst pool store message stakes
      cases hupd : pool.updateVotePool store stakes message with
      | mk stored outcome =>
        rw [hupd] at h hstor
        dsimp only at hstor
        cases outcome with
        | error error =>
          split at h
          · cases h
          next heq =>
            cases heq
            cases h
            subst hstor
            exact ⟨rfl, rfl, .inl ⟨rfl, rfl, rfl⟩⟩
          next heq => cases heq
        | ok counted =>
          rcases counted with ⟨entryStake, newCert⟩
          have hstake := updateVotePool_stake (congrArg Prod.snd hupd)
          have hcounts : stored.slotStakeCounters = pool.slotStakeCounters := by
            rw [hstor]
          have hpend : stored.pendingSafeToNotar = pool.pendingSafeToNotar := by
            rw [hstor]
          dsimp only at h
          rw [hstake, hcounts, hpend] at h
          cases hadd : (pool.counters stakes.totalStake message.vote.slot).addVote
              message.vote (pool.accumulatorAfter stakes.maxValidators message).stake
              (!message.isExternal) ⟨events, pool.pendingSafeToNotar⟩ with
          | error panic =>
            rw [ConsensusPool.counters] at hadd
            rw [hadd] at h
            cases h
          | ok result' =>
            rcases result' with ⟨counters, raised⟩
            suffices hrest : SameVotes { stored with
                slotStakeCounters :=
                  (stored.slotStakeCounters.insert message.vote.slot counters).2
                pendingSafeToNotar := raised.pendingSafeToNotar } pool' raised.events events' by
              subst hstor
              exact ⟨hrest.votePools, hrest.lastPrunedSlot, .inr ⟨counters, raised, hadd,
                hrest.slotStakeCounters, hrest.pendingSafeToNotar, hrest.safeToNotar,
                hrest.safeToSkip⟩⟩
            rw [ConsensusPool.counters] at hadd
            rw [hadd, ← hcounts] at h
            cases newCert with
            | none =>
              cases h
              exact SameVotes.refl
            | some cert =>
              cases hins : insertCertificate { stored with
                  slotStakeCounters :=
                    (stored.slotStakeCounters.insert message.vote.slot counters).2
                  pendingSafeToNotar := raised.pendingSafeToNotar } store rootBank cert
                  raised.events with
              | error panic =>
                dsimp only at h
                rw [hins] at h
                cases h
              | ok inserted =>
                dsimp only at h
                rw [hins] at h
                cases h
                exact insertCertificate_sameVotes hins

end Votes

end RakuraiValidator.Votor
