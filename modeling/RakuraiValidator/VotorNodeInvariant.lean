import RakuraiValidator.VotorNodePool

/-!
# The invariant of a validator

Every rank which the pool has counted for a vote has one source: the verifier, which
keeps one first vote of a rank in a slot, or the own vote history.  So the counted
ranks of different first votes are disjoint, and the handled events were raised with
the stakes of these ranks.
-/

namespace RakuraiValidator.Votor

open Stateful Sigverify Bitmap EventHandler Finset HandlerState

variable {σ : Type}

namespace Node

variable {node : Node σ} {rootBank : RootBank} {message : PoolVote σ}

section Voters

variable {vote : Vote}

theorem mem_votersAfter {rank : ℕ} (h : rank ∈ node.votersAfter rootBank message vote) :
    rank ∈ node.voters vote ∨ (vote = message.vote ∧ rank ∈ message.voters) := by
  unfold votersAfter votersWith at h
  split at h
  · by_cases hvote : vote = message.vote
    · subst hvote
      rw [Function.update_self, mem_union] at h
      exact h.imp_right (fun hmem => ⟨rfl, hmem⟩)
    · rw [Function.update_of_ne hvote] at h
      exact .inl h
  · exact .inl h

variable (vote) in
theorem subset_votersAfter : node.voters vote ⊆ node.votersAfter rootBank message vote := by
  unfold votersAfter
  split
  · exact subset_votersWith vote
  · exact Finset.Subset.refl _

end Voters

variable [AddCommGroup σ]

def Source (setting : Setting σ) (node : Node σ) (vote : Vote) (rank : ℕ) : Prop :=
  ((rank, vote) ∈ node.kept ∧ (rank, vote) ∉ node.waiting) ∨
    (rank = setting.ownRank vote.slot ∧ vote ∈ recordedVotes node.handler.trace)

structure Invariant (setting : Setting σ) (cast : ℕ → Vote → Prop) (notarized : Block → Prop)
    (node : Node σ) : Prop where
  steady : Steady setting.identity node.handler.core
  genesis : ∀ block, .recorded (.genesis block) ∉ node.handler.trace
  handledNotar : ∀ block, .handled (.safeToNotar block) ∈ node.handler.trace →
    RaisedNotar setting (recordedVotes node.handler.trace) node.voters block
  handledSkip : ∀ slot, .handled (.safeToSkip slot) ∈ node.handler.trace →
    RaisedSkip setting (recordedVotes node.handler.trace) node.voters slot
  handledNotarized : ∀ block, .handled (.blockNotarized block) ∈ node.handler.trace →
    notarized block
  kept : node.verifier.Kept node.kept
  verifierRoot : node.verifier.lastCheckedRootSlot ≤ node.bankRoot
  waiting : node.waiting ⊆ node.kept
  keptCast : ∀ rank vote, (rank, vote) ∈ node.kept →
    cast rank vote ∧ rank ≠ setting.ownRank vote.slot
  voters : ∀ vote, ∀ rank ∈ node.voters vote,
    rank < (setting.rankMap vote.slot).maxValidators ∧ node.Source setting vote rank
  prunedRoot : node.pool.lastPrunedSlot ≤ node.bankRoot
  pool : PoolInvariant setting (recordedVotes node.handler.trace) node.voters node.pool
    node.pendingSafeToNotar node.events

namespace Invariant

variable {setting : Setting σ} {cast : ℕ → Vote → Prop} {notarized : Block → Prop} {node' : Node σ}

theorem fresh (h : node.Fresh setting) : Invariant setting cast notarized node := by
  rcases h.voteHistory with ⟨historyRoot, hhist⟩
  rcases h.pool with ⟨root, phase, slot, parentBlock, hpool⟩
  constructor
  · constructor
    · exact h.myPubkey
    · rw [core_history, hhist]
      rfl
    · rw [core_history, core_trace, hhist, h.trace]
      exact agrees_new _ _
  · simp [h.trace]
  · simp [h.trace]
  · simp [h.trace]
  · simp [h.trace]
  · rw [h.verifier, h.kept]
    exact SigVerifier.kept_new
  · rw [h.verifier]
    exact Nat.zero_le _
  · rw [h.waiting]
    exact empty_subset _
  · simp [h.kept]
  · simp [h.voters]
  · rw [hpool]
    exact Nat.zero_le _
  · rw [hpool, h.pendingSafeToNotar, h.events]
    exact PoolInvariant.new root phase slot parentBlock h.voters

/-! ### The event loop -/

omit [AddCommGroup σ] in
theorem handle_trace_subset (event : VotorEvent) :
    node.handler.trace ⊆ (node.handle setting event).handler.trace := by
  have htrace : Ensures (processEvent setting.env event) node.handler
      (fun _ s => node.handler.trace ⊆ s.trace) (fun _ s => node.handler.trace ⊆ s.trace) :=
    (processEvent_reaches event).invariant
      (I := fun c => node.handler.trace ⊆ c.trace)
      (fun _ _ hold hstep => List.Subset.trans hold hstep.trace_subset) (List.Subset.refl _)
  exact htrace.final

variable (h : Invariant setting cast notarized node)

include h in
theorem handle_trace (event : VotorEvent) :
    Steady setting.identity (node.handle setting event).handler.core ∧
    node.handler.trace ⊆ (node.handle setting event).handler.trace ∧
    (∀ block, .recorded (.genesis block) ∉ (node.handle setting event).handler.trace) ∧
    ∀ other, .handled other ∈ (node.handle setting event).handler.trace →
      .handled other ∈ node.handler.trace ∨ other = event := by
  refine ⟨?_, handle_trace_subset event, ?_, ?_⟩
  · exact (h.steady.processEvent setting.identity_eq event).final
  · intro block
    have hgen : Ensures (processEvent setting.env event) node.handler
        (fun _ s => .recorded (.genesis block) ∉ s.trace)
        (fun _ s => .recorded (.genesis block) ∉ s.trace) :=
      (processEvent_reaches event).invariant
        (I := fun c => .recorded (.genesis block) ∉ c.trace)
        (fun _ _ hold hstep => hstep.genesis_notMem hold) (h.genesis block)
    exact hgen.final
  · intro other hother
    have hhandled : EventHandler.HandledWithin (node.handler.trace ++ [.handled event])
        (node.handle setting event).handler :=
      (processEvent_handled event).final
    simpa using hhandled other hother

include h in
theorem handle {event : VotorEvent}
    (hoffers : node.Offers notarized event) :
    Invariant setting cast notarized (node.handle setting event) := by
  rcases h.handle_trace event with ⟨hsteady, htrace, hgen, hhandled⟩
  have hrec := recordedVotes_mono htrace
  have hgrown : ∀ vote, node.voters vote ⊆ node.voters vote := fun _ => Finset.Subset.refl _
  constructor
  · exact hsteady
  · exact hgen
  · intro block hblock
    rcases hhandled _ hblock with hold | heq
    · exact (h.handledNotar block hold).mono hrec hgrown
    · subst heq
      exact (h.pool.raisedNotar block (.inl hoffers)).mono hrec hgrown
  · intro slot hslot
    rcases hhandled _ hslot with hold | heq
    · exact (h.handledSkip slot hold).mono hrec hgrown
    · subst heq
      exact (h.pool.raisedSkip slot hoffers).mono hrec hgrown
  · intro block hblock
    rcases hhandled _ hblock with hold | heq
    · exact h.handledNotarized block hold
    · subst heq
      exact hoffers
  · exact h.kept
  · exact h.verifierRoot
  · exact h.waiting
  · exact h.keptCast
  · intro vote rank hrank
    have hvoter := h.voters vote rank hrank
    exact ⟨hvoter.1, hvoter.2.imp_right (fun hown => ⟨hown.1, hrec hown.2⟩)⟩
  · exact h.prunedRoot
  · exact h.pool.mono hrec

/-! ### The verifier -/

variable {vote : Vote} {rank : ℕ}

section

variable (h : Invariant setting cast notarized node)

include h

theorem keep (hnew : (rank, vote) ∉ node.kept)
    (hkept : node.verifier.Kept (insert (rank, vote) node.kept)) (hcast : cast rank vote)
    (hrank : rank ≠ setting.ownRank vote.slot) :
    Invariant setting cast notarized { node with
      waiting := insert (rank, vote) node.waiting
      kept := insert (rank, vote) node.kept } :=
  { h with
    kept := hkept
    waiting := insert_subset_insert _ h.waiting
    keptCast := fun otherRank other hmem => by
      rcases mem_insert.mp hmem with heq | hold
      · cases heq
        exact ⟨hcast, hrank⟩
      · exact h.keptCast otherRank other hold
    voters := fun other otherRank hmem => by
      have hvoter := h.voters other otherRank hmem
      refine ⟨hvoter.1, hvoter.2.imp_left (fun hext => ?_)⟩
      have hne : (otherRank, other) ≠ (rank, vote) := fun heq => hnew (heq ▸ hext.1)
      exact ⟨mem_insert_of_mem hext.1, by simp [hne, hext.2]⟩ }

theorem receive (filter : VoteFilter) {isValid : Bool} (hrank : rank ≠ setting.ownRank vote.slot)
    (hvalid : isValid = true → cast rank vote) :
    Invariant setting cast notarized (node.receive setting filter rank vote isValid) := by
  have hreceive := h.kept.receive filter rank (setting.rankMap vote.slot).maxValidators vote
    h.verifierRoot
  unfold Node.receive
  cases hres : node.verifier.receive filter node.bankRoot vote rank
      (setting.rankMap vote.slot).maxValidators with
  | mk verifier result =>
    rw [hres] at hreceive
    rcases hreceive with ⟨hroot, hkept, hacc⟩
    have hunchanged : Invariant setting cast notarized { node with verifier := verifier } :=
      { h with kept := hkept, verifierRoot := hroot.le }
    cases result with
    | none => exact hunchanged
    | some outcome =>
      cases outcome with
      | error error => exact hunchanged
      | ok _ =>
        rcases hacc rfl with ⟨hnew, _, hins⟩
        dsimp only
        split
        next hsigned => exact hunchanged.keep hnew hins (hvalid hsigned) hrank
        next => exact hunchanged

end

/-! ### The consensus pool -/

section Pool

variable [DecidableEq σ] {pool : ConsensusPool σ} {events : List VotorEvent}
  {result : Except AddVoteError (Option (Certificate σ))}

section

variable (h : Invariant setting cast notarized node) (hroot : rootBank.slot = node.bankRoot)
  (hknows : setting.Knows rootBank)

include h hroot hknows

section

variable (hmsg : CountsOnce setting (recordedVotes node.handler.trace) node.voters message)
  (hpool : node.pool.addPoolVote setting.store rootBank message node.events = .ok (pool, events,
    result))

include hmsg hpool

theorem pool_addPoolVote :
    pool.lastPrunedSlot = node.pool.lastPrunedSlot ∧
      PoolInvariant setting (recordedVotes node.handler.trace)
        (node.votersAfter rootBank message) pool node.pendingSafeToNotar events := by
  unfold votersAfter
  rcases addPoolVote_cases hpool with ⟨hrefused, hpool', hevents⟩ | ⟨stakes, hstakes, hslot, hcount⟩
  · have hnot : ¬ Counts rootBank message.vote.slot := by
      intro hcounts
      rcases hrefused with hnone | hlt
      · exact hcounts.1 hnone
      · exact absurd hcounts.2 (not_le.mpr hlt)
    rw [if_neg hnot, hpool', hevents]
    exact ⟨rfl, h.pool⟩
  · have hcounts : Counts rootBank message.vote.slot := ⟨by simp [hstakes], hslot⟩
    rw [if_pos hcounts]
    have hepoch := hknows message.vote.slot stakes hstakes
    subst hepoch
    have hpruned : node.pool.lastPrunedSlot ≤ message.vote.slot :=
      h.prunedRoot.trans (hroot ▸ hslot)
    exact ⟨hcount.lastPrunedSlot, h.pool.count hmsg hpruned hcount⟩

theorem poolVote {waiting : Finset (ℕ × Vote)} (hwait : waiting ⊆ node.waiting)
    (hsrc : ∀ rank ∈ message.voters, rank < (setting.rankMap message.vote.slot).maxValidators ∧
      Source setting { node with waiting := waiting } message.vote rank) :
    Invariant setting cast notarized { node with
      waiting := waiting
      pool := pool
      events := events
      voters := node.votersAfter rootBank message } := by
  rcases h.pool_addPoolVote hroot hknows hmsg hpool with ⟨hpruned, hinv⟩
  have hgrown : ∀ vote, node.voters vote ⊆ node.votersAfter rootBank message vote :=
    fun vote => subset_votersAfter vote
  constructor
  · exact h.steady
  · exact h.genesis
  · exact fun block hblock => (h.handledNotar block hblock).mono (List.Subset.refl _) hgrown
  · exact fun slot hslot => (h.handledSkip slot hslot).mono (List.Subset.refl _) hgrown
  · exact h.handledNotarized
  · exact h.kept
  · exact h.verifierRoot
  · exact hwait.trans h.waiting
  · exact h.keptCast
  · intro vote rank hrank
    rcases mem_votersAfter hrank with hold | ⟨heq, hnew⟩
    · have hvoter := h.voters vote rank hold
      refine ⟨hvoter.1, hvoter.2.imp_left (fun hext => ?_)⟩
      exact ⟨hext.1, fun hmem => hext.2 (hwait hmem)⟩
    · subst heq
      exact hsrc rank hnew
  · exact hpruned.trans_le h.prunedRoot
  · exact hinv

end

end

variable {aggregate : VoteAggregate σ}

omit [DecidableEq σ] in
theorem countsOnce_external (h : Invariant setting cast notarized node)
    (hgenuine : (PoolVote.external aggregate).Genuine
      (setting.rankMap aggregate.vote.slot).stakeOf (setting.signatureOf aggregate.vote)
      (setting.rankMap aggregate.vote.slot).maxValidators)
    (hwait : ∀ rank ∈ support aggregate.ranks, (rank, aggregate.vote) ∈ node.waiting) :
    CountsOnce setting (recordedVotes node.handler.trace) node.voters (.external aggregate) := by
  refine ⟨hgenuine, fun _ => ?_, fun hown => by cases hown⟩
  rw [disjoint_left]
  intro rank hrank hnew
  have hwaits := hwait rank hnew
  rcases (h.voters aggregate.vote rank hrank).2 with ⟨_, hcount⟩ | ⟨hown, _⟩
  · exact hcount hwaits
  · exact (h.keptCast rank aggregate.vote (h.waiting hwaits)).2 hown

variable (h : Invariant setting cast notarized node) (hroot : rootBank.slot = node.bankRoot)
  (hknows : setting.Knows rootBank)

include h hroot hknows in
theorem external
    (hgenuine : (PoolVote.external aggregate).Genuine
      (setting.rankMap aggregate.vote.slot).stakeOf (setting.signatureOf aggregate.vote)
      (setting.rankMap aggregate.vote.slot).maxValidators)
    (hwait : ∀ rank ∈ support aggregate.ranks, (rank, aggregate.vote) ∈ node.waiting)
    (hpool : node.pool.addPoolVote setting.store rootBank (.external aggregate) node.events =
      .ok (pool, events, result)) :
    Invariant setting cast notarized { node with
      waiting := node.waiting \
        (support aggregate.ranks).image (fun rank => (rank, aggregate.vote))
      pool := pool
      events := events
      voters := node.votersAfter rootBank (.external aggregate) } := by
  apply h.poolVote hroot hknows (h.countsOnce_external hgenuine hwait) hpool sdiff_subset
  intro rank hrank
  have hsupp : rank ∈ support aggregate.ranks := hrank
  refine ⟨?_, .inl ⟨h.waiting (hwait rank hsupp), ?_⟩⟩
  · have hlt := lt_length_of_isSet (mem_support.mp hsupp)
    rwa [hgenuine.1] at hlt
  · intro hmem
    exact (mem_sdiff.mp hmem).2 (mem_image_of_mem _ hsupp)

include h hroot hknows in
theorem own {message : SignedVoteMessage σ}
    (hgenuine : (PoolVote.own message).Genuine
      (setting.rankMap message.vote.slot).stakeOf (setting.signatureOf message.vote)
      (setting.rankMap message.vote.slot).maxValidators)
    (hrank : message.rank = setting.ownRank message.vote.slot)
    (hrec : message.vote ∈ recordedVotes node.handler.trace)
    (hpool : node.pool.addPoolVote setting.store rootBank (.own message) node.events =
      .ok (pool, events, result)) :
    Invariant setting cast notarized { node with
      pool := pool
      events := events
      voters := node.votersAfter rootBank (.own message) } := by
  have hmsg : CountsOnce setting (recordedVotes node.handler.trace) node.voters (.own message) :=
    ⟨hgenuine, fun hext => absurd hext Bool.false_ne_true, fun _ => hrec⟩
  apply h.poolVote hroot hknows hmsg hpool (Finset.Subset.refl _)
  intro rank hmem
  have heq : rank = message.rank := mem_singleton.mp hmem
  subst heq
  exact ⟨hgenuine.1, .inr ⟨hrank, hrec⟩⟩

end Pool

section

variable (h : Invariant setting cast notarized node)

include h

theorem withPool {pool : ConsensusPool σ} {pending : List Block} {events : List VotorEvent}
    (hpruned : pool.lastPrunedSlot ≤ node.bankRoot)
    (hpool : PoolInvariant setting (recordedVotes node.handler.trace) node.voters pool pending
      events) :
    Invariant setting cast notarized { node with
      pool := pool
      pendingSafeToNotar := pending
      events := events } :=
  { h with
    prunedRoot := hpruned
    pool := hpool }

theorem takePending :
    Invariant setting cast notarized { node with
      pool := { node.pool with pendingSafeToNotar := [] }
      pendingSafeToNotar := node.pendingSafeToNotar ++ node.pool.pendingSafeToNotar } := by
  refine h.withPool h.prunedRoot ⟨h.pool.counted, h.pool.counters, ?_, h.pool.raisedSkip⟩
  intro block hblock
  apply h.pool.raisedNotar block
  simp only [Raised.Notar, List.nil_append, List.mem_append] at hblock ⊢
  tauto

theorem resolvePending {block : Block} (hpend : block ∈ node.pendingSafeToNotar) :
    Invariant setting cast notarized
      { node with events := node.events ++ [.safeToNotar block] } := by
  apply h.withPool h.prunedRoot
  refine ⟨h.pool.counted, h.pool.counters, ?_, ?_⟩
  · intro other hother
    apply h.pool.raisedNotar other
    simp only [Raised.Notar, List.mem_append, List.mem_singleton,
      VotorEvent.safeToNotar.injEq] at hother ⊢
    rcases hother with (hold | heq) | hwaits
    · exact .inl hold
    · rw [heq]
      exact .inr (.inr hpend)
    · exact .inr hwaits
  · intro slot hslot
    apply h.pool.raisedSkip slot
    simpa using hslot

theorem advanceRoot {root : ℕ} (hroot : node.bankRoot ≤ root) :
    Invariant setting cast notarized { node with bankRoot := root } :=
  { h with
    verifierRoot := h.verifierRoot.trans hroot
    prunedRoot := h.prunedRoot.trans hroot }

end

/-! ### Whole runs -/

variable [DecidableEq σ]

include h in
theorem step
    (hstep : Step setting cast notarized node node') :
    Invariant setting cast notarized node' := by
  cases hstep with
  | handle event hoffers => exact h.handle hoffers
  | receive filter hrank hvalid => exact h.receive filter hrank hvalid
  | external hroot hknows hgenuine hwait hpool =>
    exact h.external hroot hknows hgenuine hwait hpool
  | own hroot hknows hgenuine hrank hrec hpool =>
    exact h.own hroot hknows hgenuine hrank hrec hpool
  | certificates hpool =>
    have hsame := addCerts_sameVotes hpool
    exact h.withPool (hsame.lastPrunedSlot.trans_le h.prunedRoot) (h.pool.same hsame)
  | takePending => exact h.takePending
  | resolvePending hpend => exact h.resolvePending hpend
  | advanceRoot hroot => exact h.advanceRoot hroot
  | prune =>
    apply h.withPool _ (h.pool.prune node.bankRoot)
    unfold ConsensusPool.maybePrune
    split
    · exact h.prunedRoot
    · exact le_refl _

theorem reachable (h : Reachable setting cast notarized node) :
    Invariant setting cast notarized node := by
  rcases h with ⟨start, hfresh, hrun⟩
  induction hrun with
  | refl => exact fresh hfresh
  | tail _ hstep ih => exact ih.step hstep

omit [DecidableEq σ] in
include h in
theorem mono {cast' : ℕ → Vote → Prop} {notarized' : Block → Prop}
    (hcast : ∀ rank vote, cast rank vote → cast' rank vote)
    (hnotar : ∀ block, notarized block → notarized' block) :
    Invariant setting cast' notarized' node :=
  { h with
    handledNotarized := fun block hblock => hnotar block (h.handledNotarized block hblock)
    keptCast := fun rank vote hmem => ⟨hcast rank vote (h.keptCast rank vote hmem).1,
      (h.keptCast rank vote hmem).2⟩ }

end Invariant

theorem Step.trace_subset [DecidableEq σ] {setting : Setting σ} {cast : ℕ → Vote → Prop}
    {notarized : Block → Prop} {node node' : Node σ} (h : Step setting cast notarized node node') :
    node.handler.trace ⊆ node'.handler.trace := by
  cases h with
  | handle event _ => exact Invariant.handle_trace_subset event
  | receive filter _ _ =>
    unfold Node.receive
    split
    · split <;> exact List.Subset.refl _
    · exact List.Subset.refl _
  | _ => exact List.Subset.refl _

end Node

end RakuraiValidator.Votor
