import Mathlib.Logic.Relation
import RakuraiValidator.VotorEventHandler

/-!
# What the event loop can do to its records

The safety of votes depends on the vote history, the pending blocks and the trace
only.  Every program of the event loop changes these by a sequence of steps, each
with the condition under which the source takes it.  This is shown once, for all
ends of the programs; the invariants of the following modules are about single
steps.
-/

namespace RakuraiValidator.Votor

open Stateful HandlerState VoteHistory Reaches List

attribute [local simp] VotorEvent.shouldIgnore

/-- The part of the state which matters for the safety of votes. -/
structure Core where
  history : VoteHistory
  pending : PendingBlocks
  trace : List TraceEntry
  genesisBlock : Block
  myPubkey : ℕ

def HandlerState.core (s : HandlerState) : Core :=
  { history := s.voteHistory
    pending := s.pendingBlocks
    trace := s.trace
    genesisBlock := s.genesisBlock
    myPubkey := s.myPubkey }

section Projections

variable (s : HandlerState)

@[simp] theorem HandlerState.core_history : s.core.history = s.voteHistory := rfl

@[simp] theorem HandlerState.core_pending : s.core.pending = s.pendingBlocks := rfl

@[simp] theorem HandlerState.core_trace : s.core.trace = s.trace := rfl

end Projections

def Core.Guard (c : Core) : Vote → Prop
  | .notarize block => block.slot ∉ c.history.votedSlots
  | .finalize slot => ∃ blockId, ⟨slot, blockId⟩ ∈ c.history.notarizedBlocks ∧
      slot ∉ c.history.itsOverSlots ∧
      c.history.votedNotarBlocks.get? slot = some blockId ∧
      (c.history.root < slot ∨ c.trace.getLast? = some (.recorded (.notarize ⟨slot, blockId⟩)))
  | .skip slot => slot ∉ c.history.votedSlots
  | .notarizeFallback block => .handled (.safeToNotar block) ∈ c.trace
  | .skipFallback slot => .handled (.safeToSkip slot) ∈ c.trace
  | .genesis _ => False

variable {c : Core}

theorem Core.Guard.notarizeOrSkip {vote : Vote} (hguard : c.Guard vote)
    (hfirst : vote.isNotarizeOrSkip = true) : vote.slot ∉ c.history.votedSlots := by
  cases vote with
  | notarize block => exact hguard
  | skip slot => exact hguard
  | finalize slot | notarizeFallback block | skipFallback slot | genesis block =>
    simp [Vote.isNotarizeOrSkip] at hfirst

variable (vote : Vote) {slot oldRoot : ℕ} (forks : BankForks) (channel : Channel) {α : Type}
  {stop : Stop}

theorem Core.Guard.finalize (h : c.history.WellFormed) (hguard : c.Guard (.finalize slot)) :
    slot ∈ c.history.votedSlots ∧ slot ∉ c.history.itsOverSlots := by
  rcases hguard with ⟨blockId, _, hopen, hnotar, _⟩
  exact ⟨h.votedNotar slot blockId hnotar, hopen⟩

def Core.record (c : Core) (vote : Vote) (history : VoteHistory) : Core :=
  { c with history := history, trace := c.trace ++ [.recorded vote] }

inductive VoteStep : Core → Core → Prop
  | record {c : Core} {vote : Vote} {history : VoteHistory} (hguard : c.Guard vote)
      (hadd : c.history.addVote vote = .ok history) :
      VoteStep c (c.record vote history)
  | removePending {c : Core} (slot : ℕ) :
      VoteStep c { c with pending := (c.pending.remove slot).2 }

inductive LoopStep : Core → Core → Prop
  | vote {c c' : Core} (hstep : VoteStep c c') : LoopStep c c'
  | blockNotarized {c : Core} {block : Block}
      (hhandled : .handled (.blockNotarized block) ∈ c.trace)
      (hroot : c.history.root < block.slot) :
      LoopStep c { c with history := c.history.addBlockNotarized block }
  | parentReady {c : Core} (slot : ℕ) (parentBlock : Block) :
      LoopStep c { c with history := (c.history.addParentReady slot parentBlock).1 }
  | addPending {c : Core} {block : Block} (parentBlock : Block)
      (hroot : c.history.root < block.slot) (hvoted : block.slot ∉ c.history.votedSlots) :
      LoopStep c { c with
        pending := (c.pending.insert block.slot
          ((c.pending.get? block.slot).getD [] ++ [(block, parentBlock)])).2 }
  | setRoot {c : Core} {root : ℕ} (hroot : c.history.root < root)
      (hvoted : root ∈ c.history.votedSlots) :
      LoopStep c { c with
        history := c.history.setRoot root
        pending := c.pending.splitOff root }

inductive Step (env : Environment) : Core → Core → Prop
  | handle {c : Core} {event : VotorEvent}
      (hnew : event.shouldIgnore c.history.root = false) :
      Step env c { c with trace := c.trace ++ [.handled event] }
  | loop {c c' : Core} (hstep : LoopStep c c') : Step env c c'
  | changeIdentity {c : Core} {newPubkey clock clock' : ℕ}
      (hidentity : env.identity clock = newPubkey)
      (hnew : c.myPubkey ≠ newPubkey ∨ c.history.nodePubkey ≠ newPubkey) :
      Step env c { c with
        myPubkey := newPubkey
        history := (env.restore clock' newPubkey).getD (VoteHistory.new newPubkey 0)
        trace := c.trace ++ [.identityChanged] }
  | initializeGenesis {c : Core} {history : VoteHistory}
      (hlast : ∀ vote, c.trace.getLast? ≠ some (.recorded vote))
      (hgenesis : c.history.initializeGenesis c.genesisBlock = .ok history) :
      Step env c { c with history := history }
  | reconcileRoot {c : Core} {effectiveRoot : ℕ} (hroot : c.history.root ≤ effectiveRoot) :
      Step env c { c with
        pending := c.pending.retain
          (fun slot _ => effectiveRoot < slot && slot ∉ c.history.votedSlots) }

variable {c' : Core}

theorem Step.trace_subset {env : Environment} (h : Step env c c') : c.trace ⊆ c'.trace := by
  cases h with
  | handle _ => exact subset_append_left _ _
  | loop hstep =>
    cases hstep with
    | vote hstep =>
      cases hstep with
      | record _ _ => exact subset_append_left _ _
      | removePending => exact List.Subset.refl _
    | _ => exact List.Subset.refl _
  | changeIdentity _ _ => exact subset_append_left _ _
  | initializeGenesis _ _ => exact List.Subset.refl _
  | reconcileRoot _ => exact List.Subset.refl _

theorem Step.genesis_notMem {env : Environment} (h : Step env c c') {block : Block}
    (hold : .recorded (.genesis block) ∉ c.trace) : .recorded (.genesis block) ∉ c'.trace := by
  cases h with
  | handle _ => simpa using hold
  | loop hstep =>
    cases hstep with
    | vote hstep =>
      cases hstep with
      | record hguard _ =>
        intro hmem
        rcases mem_append.mp hmem with hmem | hmem
        · exact hold hmem
        · have heq : TraceEntry.recorded (.genesis block) = .recorded _ :=
            mem_singleton.mp hmem
          cases heq
          exact hguard
      | removePending => exact hold
    | _ => exact hold
  | changeIdentity _ _ => simpa using hold
  | initializeGenesis _ _ => exact hold
  | reconcileRoot _ => exact hold

def VoteSteps : Core → Core → Prop := Relation.ReflTransGen VoteStep

theorem VoteSteps.root_eq (h : VoteSteps c c') : c'.history.root = c.history.root := by
  induction h with
  | refl => rfl
  | tail _ hstep ih =>
    cases hstep with
    | record _ hadd => exact (addVote_inv hadd).2.2.root.trans ih
    | removePending => exact ih

theorem VoteSteps.trace_subset (h : VoteSteps c c') : c.trace ⊆ c'.trace := by
  induction h with
  | refl => exact List.Subset.refl _
  | tail _ hstep ih =>
    cases hstep with
    | record _ _ => exact List.Subset.trans ih (subset_append_left _ _)
    | removePending => exact ih

theorem VoteSteps.votedSlots_subset (h : VoteSteps c c') :
    c.history.votedSlots ⊆ c'.history.votedSlots := by
  induction h with
  | refl => exact Finset.Subset.refl _
  | tail _ hstep ih =>
    cases hstep with
    | record _ hadd =>
      intro slot hslot
      exact ((addVote_inv hadd).2.2.votedSlots slot).mpr (.inl (ih hslot))
    | removePending => exact ih

def Stop.NoAssertion (stop : Stop) : Prop := ∀ panic, stop ≠ .voteHistoryPanic panic

attribute [local simp] Stop.NoAssertion

/-- The program leaves the records and does not fail an assertion about them. -/
abbrev Quiet {α : Type} (x : Handler α) (s : HandlerState) : Prop :=
  Keeps core Stop.NoAssertion x s

variable {question : VoteHistory → Except VoteHistoryPanic α} (respectWaitToVote : Bool) {β : Type}

namespace EventHandler

/-! ## Programs which leave the records -/

variable {env : Environment}

section Frames

variable {s : HandlerState}

theorem tick_quiet : Quiet tick s :=
  Keeps.get_bind ((Keeps.modify rfl).bind fun _ _ => Keeps.pure _)

theorem sharableBanksRoot_quiet : Quiet (sharableBanksRoot env) s :=
  tick_quiet.bind fun _ _ => Keeps.pure _

theorem failIf_quiet (failed : Bool) (hstop : stop.NoAssertion) : Quiet (failIf failed stop) s := by
  unfold failIf
  split
  · exact Keeps.throw hstop
  · exact Keeps.pure _

theorem send_quiet : Quiet (send env channel) s :=
  tick_quiet.bind fun _ _ => failIf_quiet _ (by simp)

theorem sendVoteMessage_quiet : Quiet (sendVoteMessage env channel) s :=
  tick_quiet.bind fun _ _ => failIf_quiet _ (by simp)

theorem sendReward_quiet (message : VoteMessage) : Quiet (sendReward env message) s := by
  apply sharableBanksRoot_quiet.bind
  intro root s'
  split
  · exact sendVoteMessage_quiet _
  · exact Keeps.pure _

theorem sendStartOfNextSlot_quiet (slot : ℕ) : Quiet (sendStartOfNextSlot env slot) s := by
  unfold sendStartOfNextSlot
  split
  · exact send_quiet _
  · exact Keeps.pure _

theorem pushVote_quiet (op : BLSOp) : Quiet (pushVote op) s := Keeps.modify rfl

theorem createVoteMessage_quiet : Quiet (createVoteMessage env vote respectWaitToVote) s := by
  apply tick_quiet.bind
  intro clock s'
  split
  · exact Keeps.throw (by simp)
  · exact Keeps.pure _
  · split
    · exact Keeps.pure _
    · exact Keeps.pure _

theorem handleSkippableVoteError_quiet (error : VoteError) :
    Quiet (handleSkippableVoteError error) s := by
  unfold handleSkippableVoteError
  split
  · exact Keeps.pure _
  · exact Keeps.pure _
  · exact Keeps.throw (by simp)

theorem createAndSendOwnVoteMessage_quiet :
    Quiet (createAndSendOwnVoteMessage env vote respectWaitToVote) s := by
  apply (createVoteMessage_quiet vote respectWaitToVote).bind
  intro result s'
  cases result with
  | error error =>
    exact (handleSkippableVoteError_quiet error).bind fun _ _ => Keeps.pure _
  | ok message =>
    apply (sendVoteMessage_quiet .ownVoteSender).bind
    intro _ s''
    exact (sendReward_quiet message).bind fun _ _ => Keeps.pure _

theorem generateRefreshVoteMessage_quiet : Quiet (generateRefreshVoteMessage env vote) s := by
  apply (createVoteMessage_quiet vote true).bind
  intro result s'
  cases result with
  | error error =>
    exact (handleSkippableVoteError_quiet error).bind fun _ _ => Keeps.pure _
  | ok message => exact Keeps.pure _

theorem generateRefreshVoteMessages_quiet (votes : List Vote) :
    Quiet (generateRefreshVoteMessages env votes) s := by
  induction votes generalizing s with
  | nil => exact Keeps.pure _
  | cons vote votes ih =>
    apply (generateRefreshVoteMessage_quiet vote).bind
    intro message s'
    exact ih.bind fun _ _ => Keeps.pure _

theorem refreshVotes_quiet (highestFinalizedSlot : ℕ) :
    Quiet (refreshVotes env highestFinalizedSlot) s := by
  apply Keeps.get_bind
  apply (generateRefreshVoteMessages_quiet _).bind
  intro messages s'
  split
  · exact Keeps.pure _
  · exact pushVote_quiet _

theorem sendVoteHistoryToConsensusPool_quiet : Quiet (sendVoteHistoryToConsensusPool env) s := by
  apply Keeps.get_bind
  apply sharableBanksRoot_quiet.bind
  intro root s'
  apply Keeps.forM
  intro vote s''
  exact (createAndSendOwnVoteMessage_quiet vote false).bind fun _ _ => Keeps.pure _

theorem addMissingParentReady_quiet (block : Block) :
    Quiet (addMissingParentReady env block) s := by
  apply Keeps.get_bind
  split
  · exact Keeps.pure _
  · split
    · exact Keeps.pure _
    · apply tick_quiet.bind
      intro clock s'
      split
      · exact Keeps.pure _
      · split
        · exact Keeps.pure _
        · split
          · exact Keeps.pure _
          · split
            · exact Keeps.pure _
            · exact Keeps.pure _

end Frames

/-! ## Votes -/

section Votes

variable {s : HandlerState} {r : Core → Core → Prop} {E : Stop → HandlerState → Prop}

theorem ensures_ask {Q : α → HandlerState → Prop} :
    Ensures (ask question) s Q E ↔ match question s.voteHistory with
      | .ok answer => Q answer s
      | .error panic => E (.voteHistoryPanic panic) s := by
  simp only [ask, ensures_bind, ensures_get]
  cases question s.voteHistory with
  | ok answer => exact ensures_pure answer
  | error panic => exact ensures_throw _

theorem ensures_failIf {failed : Bool} {Q : Unit → HandlerState → Prop} :
    Ensures (failIf failed stop) s Q E ↔ if failed then E stop s else Q () s := by
  unfold failIf
  split
  · exact ensures_throw stop
  · exact ensures_pure ()

theorem Reaches.ask_bind {f : α → Handler β}
    (h : ∀ answer, question s.voteHistory = .ok answer → Reaches core r (f answer) s) :
    Reaches core r (ask question >>= f) s := by
  unfold Reaches
  rw [ensures_bind, ensures_ask]
  split
  next answer hans => exact h answer hans
  next => exact .refl

theorem castVote_spec :
    Ensures (castVote env vote) s
      (fun _ s' => ∃ history, s.voteHistory.addVote vote = .ok history ∧
        s'.core = s.core.record vote history)
      (fun stop s' => (s' = s ∧ ∃ panic, s.voteHistory.addVote vote = .error panic) ∨
        stop.NoAssertion ∧ ∃ history, s.voteHistory.addVote vote = .ok history ∧
          s'.core = s.core.record vote history) := by
  unfold castVote insertVoteAndCreateBlsMessage addVote
  rw [bind_assoc, bind_assoc, ensures_bind, ensures_ask]
  cases hadd : s.voteHistory.addVote vote with
  | error panic => exact .inl ⟨rfl, panic, rfl⟩
  | ok history =>
    dsimp only
    rw [ensures_bind, ensures_modify]
    -- nothing after the record changes the history
    refine Ensures.mono (Keeps.bind
      (Keeps.bind (createAndSendOwnVoteMessage_quiet vote true) ?_) ?_) ?_ ?_
    · intro message s₂
      cases message with
      | none => exact Keeps.pure _
      | some message =>
        apply tick_quiet.bind
        intro clock s₃
        exact (failIf_quiet _ (by simp)).bind fun _ _ => Keeps.pure _
    · intro op s₁
      cases op with
      | none => exact Keeps.pure _
      | some op => exact pushVote_quiet op
    · exact fun _ s' hsame => ⟨history, rfl, hsame⟩
    · exact fun stop s' hstop => .inr ⟨hstop.2, history, rfl, hstop.1⟩

theorem castVote_reaches {vote : Vote} (hguard : s.core.Guard vote) :
    Reaches core VoteStep (castVote env vote) s := by
  have hstep : ∀ s' : HandlerState, (∃ history, s.voteHistory.addVote vote = .ok history ∧
      s'.core = s.core.record vote history) →
      Relation.ReflTransGen VoteStep s.core s'.core := by
    rintro s' ⟨history, hadd, hcore⟩
    rw [hcore]
    exact .single (.record hguard hadd)
  apply (castVote_spec vote).mono
  · exact fun _ s' hrec => hstep s' hrec
  · rintro _ s' (⟨hsame, _⟩ | ⟨_, hrec⟩)
    · rw [hsame]
    · exact hstep s' hrec

theorem castVote_trace :
    Ensures (castVote env vote) s
      (fun _ s' => s'.trace.getLast? = some (.recorded vote)) (fun _ _ => True) := by
  apply (castVote_spec vote).mono
  · rintro _ s' ⟨history, _, hcore⟩
    rw [← core_trace, hcore]
    simp [Core.record]
  · exact fun _ _ _ => trivial

variable {block : Block}

theorem tryFinal_reaches (hctx : s.voteHistory.root < block.slot ∨
      s.trace.getLast? = some (.recorded (.notarize block))) :
    Reaches core VoteStep (tryFinal env block) s := by
  apply get_bind
  split
  next => exact Reaches.pure _
  next hnotarized =>
    apply Reaches.ask_bind
    intro finished hfinished
    split
    next => exact Reaches.pure _
    next hopen =>
      apply Reaches.ask_bind
      intro bad hbad
      split
      · exact Reaches.pure _
      · apply Reaches.ask_bind
        intro notar hnotar
        split
        next => exact Reaches.pure _
        next hblock =>
          have hguard : s.core.Guard (.finalize block.slot) := by
            have hmem : block ∈ s.voteHistory.notarizedBlocks := by
              simpa [isBlockNotarized] using hnotarized
            have hover : block.slot ∉ s.voteHistory.itsOverSlots := by
              rw [← (VoteHistory.query_eq_ok_iff.mp hfinished).2] at hopen
              simpa using hopen
            rw [not_not] at hblock
            exact ⟨block.blockId, hmem, hover,
              (VoteHistory.query_eq_ok_iff.mp hnotar).2.trans hblock, hctx⟩
          exact (castVote_reaches hguard).bind fun _ _ _ => Reaches.pure _

theorem not_mem_of_voted {voted : Bool} (hvoted : s.voteHistory.voted slot = .ok voted)
    (hnot : ¬ voted = true) : s.voteHistory.root ≤ slot ∧ slot ∉ s.voteHistory.votedSlots := by
  rcases query_eq_ok_iff.mp hvoted with ⟨hroot, hans⟩
  rw [← hans] at hnot
  exact ⟨hroot, by simpa using hnot⟩

theorem isParentVotable_bind {parentBlock : Block} {f : Bool → Handler β}
    (h : ∀ answer, Reaches core r (f answer) s) :
    Reaches core r (isParentVotable block parentBlock >>= f) s := by
  unfold isParentVotable
  split
  · rw [bind_assoc]
    apply get_bind
    rw [pure_bind]
    exact h _
  · split
    · exact h _
    · rw [bind_assoc]
      apply Reaches.ask_bind
      intro answer _
      exact h _

theorem tryNotar_reaches (block parentBlock : Block) :
    Reaches core VoteStep (tryNotar env block parentBlock) s := by
  apply Reaches.ask_bind
  intro voted hvoted
  split
  next => exact Reaches.pure _
  next hnot =>
    apply isParentVotable_bind
    intro votable
    split
    · exact Reaches.pure _
    · have hguard : s.core.Guard (.notarize block) := (not_mem_of_voted hvoted hnot).2
      apply (castVote_reaches hguard).bind_and (castVote_trace _)
      intro _ s' hlast
      apply get_bind
      apply modify_step_bind (.removePending block.slot)
      apply Reaches.bind
      · exact tryFinal_reaches (.inr hlast)
      · exact fun _ _ _ => Reaches.pure _

theorem checkPendingBlocks_reaches : Reaches core VoteStep (checkPendingBlocks env) s := by
  apply get_bind
  apply Reaches.forM
  rintro ⟨block, parentBlock⟩ _ s' _
  exact (tryNotar_reaches block parentBlock).bind fun _ _ _ => Reaches.pure _

theorem trySkipWindow_reaches (slot : ℕ) : Reaches core VoteStep (trySkipWindow env slot) s := by
  apply get_bind
  apply sharableBanksRoot_quiet.reaches_bind
  intro root s' _
  apply Reaches.forM
  intro u _ s'' _
  apply Reaches.ask_bind
  intro voted hvoted
  split
  next => exact Reaches.pure _
  next hnot =>
    have hguard : s''.core.Guard (.skip u) := (not_mem_of_voted hvoted hnot).2
    exact castVote_reaches hguard

theorem fallback_reaches {vote : Vote} {finished voted : VoteHistory → Except VoteHistoryPanic Bool}
    (hguard : ∀ s' : HandlerState, VoteSteps s.core s'.core → s'.core.Guard vote) :
    Reaches core VoteStep (do
      trySkipWindow env slot
      if ← ask finished then pure ()
      else if ← ask voted then pure ()
      else castVote env vote) s := by
  apply (trySkipWindow_reaches slot).bind
  intro _ s' hsteps
  apply Reaches.ask_bind
  intro finished _
  split
  · exact Reaches.pure _
  · apply Reaches.ask_bind
    intro voted _
    split
    · exact Reaches.pure _
    · exact castVote_reaches (hguard s' hsteps)

end Votes

/-! ## Rooting -/

section Rooting

variable {s : HandlerState}

theorem isRootable_spec (hroot : s.voteHistory.root ≤ oldRoot) (block : Block) :
    Ensures (isRootable forks oldRoot block) s
      (fun rootable s' => s' = s ∧ (rootable = true →
        oldRoot < block.slot ∧ block.slot ∈ s.voteHistory.votedSlots))
      (fun stop s' => s' = s ∧ stop.NoAssertion) := by
  unfold isRootable
  split
  next => simp
  next bank _ =>
    rw [ensures_bind, ensures_failIf]
    split
    · simp
    · split
      next => simp
      next hnew =>
        have hslot : s.voteHistory.root ≤ block.slot := hroot.trans (not_le.mp hnew).le
        rw [ensures_bind, ensures_ask, voted, query_eq_ok hslot]
        dsimp only
        split
        next => simp
        next hvoted =>
          have hmem : block.slot ∈ s.voteHistory.votedSlots := by simpa using hvoted
          rw [ensures_pure]
          exact ⟨rfl, fun _ => ⟨not_le.mp hnew, hmem⟩⟩

theorem rootableBlocks_spec (hroot : s.voteHistory.root ≤ oldRoot) (blocks : List Block) :
    Ensures (rootableBlocks forks oldRoot blocks) s
      (fun rootable s' => s' = s ∧ ∀ block ∈ rootable,
        oldRoot < block.slot ∧ block.slot ∈ s.voteHistory.votedSlots)
      (fun stop s' => s' = s ∧ stop.NoAssertion) := by
  induction blocks with
  | nil => simp [rootableBlocks]
  | cons block blocks ih =>
    rw [rootableBlocks, ensures_bind]
    apply (isRootable_spec forks hroot block).mono
    · rintro rootable s' ⟨hs, hrootable⟩
      subst hs
      rw [ensures_bind]
      apply ih.mono
      · rintro rest s'' ⟨hs, hrest⟩
        subst hs
        rw [ensures_pure]
        refine ⟨rfl, ?_⟩
        split
        next htrue => simpa using ⟨hrootable htrue, hrest⟩
        next => exact hrest
      · exact fun _ _ hs => hs
    · exact fun _ _ hs => hs

theorem maxBySlot_mem {blocks : List Block} {block : Block} (h : maxBySlot blocks = some block) :
    block ∈ blocks := by
  have hfold : ∀ (step : Option Block → Block → Option Block),
      (∀ best next, step best next = some next ∨ step best next = best) →
      ∀ (blocks : List Block) (best : Option Block),
        blocks.foldl step best = some block → block ∈ blocks ∨ best = some block := by
    intro step hstep blocks
    induction blocks with
    | nil => exact fun best hbest => .inr hbest
    | cons next blocks ih =>
      intro best hbest
      rcases ih _ hbest with hmem | hlast
      · exact .inl (mem_cons_of_mem next hmem)
      · rcases hstep best next with hnext | hbest
        · rw [hnext] at hlast
          cases hlast
          exact .inl mem_cons_self
        · exact .inr (hbest.symm.trans hlast)
  apply (hfold _ _ blocks none h).resolve_right (by simp)
  intro best next
  cases best with
  | none => exact .inl rfl
  | some other =>
    by_cases hle : other.slot ≤ next.slot
    · exact .inl (if_pos hle)
    · exact .inr (if_neg hle)

theorem checkRootableBlocksAndBankHashMismatches_reaches :
    Reaches core LoopStep (checkRootableBlocksAndBankHashMismatches env) s := by
  apply tick_quiet.reaches_bind
  intro clock s' _
  apply get_bind
  unfold Reaches
  rw [ensures_bind]
  apply (rootableBlocks_spec _ (le_max_right _ _) _).mono
  · rintro rootable s'' ⟨hs, hrootable⟩
    subst hs
    split
    next => exact pure _
    next newRoot hnewRoot =>
      rcases hrootable newRoot (maxBySlot_mem hnewRoot) with ⟨hroot, hvoted⟩
      have hroot' : s''.core.history.root < newRoot.slot := (le_max_right _ _).trans_lt hroot
      exact modify_step (.setRoot hroot' hvoted)
  · rintro _ s'' ⟨hs, _⟩
    rw [hs]

end Rooting

/-! ## Events -/

section Events

variable {s : HandlerState}

theorem handleParentReadyEvent_reaches (slot : ℕ) (parentBlock : Block) :
    Reaches core LoopStep (handleParentReadyEvent env slot parentBlock) s := by
  apply get_bind
  apply (modify_step (.parentReady slot parentBlock)).bind
  intro _ s' _
  apply (checkPendingBlocks_reaches.mono fun _ _ => .vote).bind
  intro _ s'' _
  apply modify_same
  split
  · rfl
  · rfl

variable (block : Block)

theorem triggerMissingParentReady_reaches :
    Reaches core LoopStep (triggerMissingParentReady env block) s := by
  apply (addMissingParentReady_quiet block).reaches_bind
  intro parentBlock s' _
  cases parentBlock with
  | none => exact pure _
  | some parentBlock => exact handleParentReadyEvent_reaches block.slot parentBlock

theorem voteOrWait_reaches {block : Block} (parentBlock : Block) (hslot : block.slot = slot)
    (hroot : s.voteHistory.root < slot) :
    Reaches core LoopStep (voteOrWait env slot block parentBlock) s := by
  subst hslot
  apply (tryNotar_reaches block parentBlock).bind_mono fun _ _ => .vote
  intro voted s' hsteps
  have hroot' : s'.core.history.root < block.slot := by
    rw [VoteSteps.root_eq hsteps]
    exact hroot
  split
  · exact checkPendingBlocks_reaches.mono fun _ _ => .vote
  · apply Reaches.ask_bind
    intro answer hans
    split
    next => exact Reaches.pure _
    next hnot =>
      exact modify_step (.addPending parentBlock hroot' (not_mem_of_voted hans hnot).2)

theorem handleBlock_reaches {completedBlock : CompletedBlock}
    (hroot : s.voteHistory.root < completedBlock.slot) :
    Reaches core LoopStep (handleBlock env completedBlock) s := by
  apply (send_quiet _).reaches_bind
  intro _ s' hsame
  unfold getBlockParentBlock
  split
  next => exact throw _
  next blockId _ =>
    have hroot' : s'.voteHistory.root < completedBlock.slot := by
      have hhist : s'.voteHistory = s.voteHistory := congrArg Core.history hsame
      rw [hhist]
      exact hroot
    apply (voteOrWait_reaches _ completedBlock.slot_eq hroot').bind
    intro _ s'' _
    apply checkRootableBlocksAndBankHashMismatches_reaches.bind
    intro _ s₁ _
    exact triggerMissingParentReady_reaches _

theorem handleFinalized_reaches : Reaches core LoopStep (handleFinalized env block) s := by
  apply (modify_same rfl).bind
  intro _ s₁ _
  apply (send_quiet _).reaches_bind
  intro _ s₂ _
  apply checkRootableBlocksAndBankHashMismatches_reaches.bind
  intro _ s₃ _
  apply (modify_same rfl).bind
  intro _ s₄ _
  apply (triggerMissingParentReady_reaches block).bind
  intro _ s₅ _
  exact (send_quiet _).reaches

variable {newPubkey : ℕ}

theorem followIdentity_trace (hlast : ∀ vote, s.trace.getLast? ≠ some (.recorded vote)) :
    Ensures (followIdentity env newPubkey) s
      (fun _ s' => ∀ vote, s'.trace.getLast? ≠ some (.recorded vote)) (fun _ _ => True) := by
  unfold followIdentity changeIdentity tick
  simp only [ensures_bind, ensures_get]
  split
  · simp
  · exact (ensures_pure _).mpr hlast

theorem followIdentity_reaches {clock : ℕ} (hident : env.identity clock = newPubkey) :
    Reaches core (Step env) (followIdentity env newPubkey) s := by
  apply get_bind
  split
  next hchanged =>
    apply tick_quiet.reaches_bind
    intro clock' s' hsame
    have hnew : s'.core.myPubkey ≠ newPubkey ∨ s'.core.history.nodePubkey ≠ newPubkey := by
      rw [hsame]
      exact hchanged
    exact modify_step (.changeIdentity hident hnew)
  next => exact pure _

theorem handleSetIdentity_reaches (hlast : ∀ vote, s.trace.getLast? ≠ some (.recorded vote)) :
    Reaches core (Step env) (handleSetIdentity env) s := by
  apply tick_quiet.reaches_bind
  intro clock s₁ hsame
  have hlast₁ : ∀ vote, s₁.trace.getLast? ≠ some (.recorded vote) := by
    rw [← core_trace, hsame]
    exact hlast
  apply (followIdentity_reaches rfl).bind_and (followIdentity_trace hlast₁)
  intro _ s₂ hlast₂
  apply Reaches.bind
  · apply get_bind
    apply Reaches.ask_bind
    intro history hgen
    exact modify_step (.initializeGenesis hlast₂ hgen)
  · intro _ s₃ _
    apply sharableBanksRoot_quiet.reaches_bind
    intro bankRoot s₄ _
    exact modify_step (.reconcileRoot (le_max_left _ _))

variable {event : VotorEvent}

theorem react_reaches (hevent : event ≠ .setIdentity)
    (hnew : event.shouldIgnore s.voteHistory.root = false) (hhandled : .handled event ∈ s.trace) :
    Reaches core LoopStep (react env event) s := by
  cases event with
  | block completedBlock =>
    apply handleBlock_reaches
    simpa using hnew
  | blockNotarized block =>
    have hroot : s.voteHistory.root < block.slot := by
      simpa using hnew
    have hroot' : s.core.history.root < block.slot := hroot
    apply get_bind
    apply modify_step_bind (.blockNotarized hhandled hroot')
    apply Reaches.bind
    · apply (tryFinal_reaches (.inl _)).mono fun _ _ => .vote
      rw [addBlockNotarized_root]
      exact hroot
    · exact fun _ _ _ => (send_quiet _).reaches
  | blockNotarFallback block => exact (send_quiet _).reaches
  | firstShred slot => exact modify_same rfl
  | parentReady slot parentBlock =>
    apply (send_quiet _).reaches_bind
    intro _ s₁ _
    exact handleParentReadyEvent_reaches slot parentBlock
  | timeoutCrashedLeader slot =>
    apply Reaches.ask_bind
    intro voted _
    split
    · exact Reaches.pure _
    · apply get_bind
      split
      · exact Reaches.pure _
      · exact (trySkipWindow_reaches slot).mono fun _ _ => .vote
  | timeout slot =>
    apply (sendStartOfNextSlot_quiet slot).reaches_bind
    intro _ s₁ _
    apply Reaches.ask_bind
    intro voted _
    split
    · exact Reaches.pure _
    · exact (trySkipWindow_reaches slot).mono fun _ _ => .vote
  | safeToNotar block =>
    refine Reaches.mono ?_ fun _ _ => .vote
    exact fallback_reaches fun _ hsteps => VoteSteps.trace_subset hsteps hhandled
  | safeToSkip slot =>
    refine Reaches.mono ?_ fun _ _ => .vote
    exact fallback_reaches fun _ hsteps => VoteSteps.trace_subset hsteps hhandled
  | produceWindow info => exact (send_quiet _).reaches
  | finalized block isFastFinalization => exact handleFinalized_reaches block
  | standstill highestFinalizedSlot =>
    apply (modify_same rfl).bind
    intro _ s₁ _
    exact (refreshVotes_quiet highestFinalizedSlot).reaches
  | setIdentity => exact absurd rfl hevent

theorem shouldIgnore_of_le {root root' : ℕ} (hle : root ≤ root')
    (hnew : event.shouldIgnore root' = false) : event.shouldIgnore root = false := by
  cases event <;> simp at hnew ⊢ <;> omega

theorem handleEvent_reaches (hnew : event.shouldIgnore s.voteHistory.root = false)
    (hhandled : s.trace.getLast? = some (.handled event)) :
    Reaches core (Step env) (handleEvent env event) s := by
  have hreact : Reaches core (Step env) (react env event)
      { s with votes := [] } := by
    by_cases hevent : event = .setIdentity
    · subst hevent
      apply (handleSetIdentity_reaches (by simp [hhandled])).bind
      intro _ s₁ _
      exact sendVoteHistoryToConsensusPool_quiet.reaches
    · apply (react_reaches hevent _ _).mono fun _ _ => .loop
      · exact hnew
      · exact mem_of_getLast? hhandled
  apply modify_same_bind rfl
  exact hreact.bind fun _ _ _ => get_bind (pure _)

theorem processEvent_reaches (event : VotorEvent) :
    Reaches core (Step env) (processEvent env event) s := by
  apply sharableBanksRoot_quiet.reaches_bind
  intro rootSlot s₁ _
  apply get_bind
  split
  next => exact Reaches.pure _
  next hnew =>
    have hnew' : event.shouldIgnore s₁.core.history.root = false :=
      shouldIgnore_of_le (le_max_right _ _) (by simpa using hnew)
    apply modify_step_bind (.handle hnew')
    apply Reaches.bind
    · apply handleEvent_reaches
      · exact hnew'
      · simp
    · intro votes s₂ _
      apply Reaches.forM
      exact fun _ _ _ _ => (send_quiet _).reaches

/-! ### Which events are handled -/

def HandledWithin (handled : List TraceEntry) (s : HandlerState) : Prop :=
  ∀ event, .handled event ∈ s.trace → .handled event ∈ handled

variable {handled : List TraceEntry}

section

variable (h : HandledWithin handled s)

include h

theorem HandledWithin.of_reaches {x : Handler α} (hx : Reaches core LoopStep x s) :
    Ensures x s (fun _ => HandledWithin handled) (fun _ => HandledWithin handled) := by
  apply hx.invariant (I := fun c => ∀ event, .handled event ∈ c.trace → .handled event ∈ handled)
  · intro c c' hc hstep event hevent
    apply hc event
    cases hstep with
    | vote hstep =>
      cases hstep with
      | record _ _ => simpa [Core.record] using hevent
      | removePending => exact hevent
    | _ => exact hevent
  · exact h

theorem followIdentity_handled :
    Ensures (followIdentity env newPubkey) s (fun _ => HandledWithin handled)
      (fun _ => HandledWithin handled) := by
  unfold followIdentity changeIdentity tick
  simp only [ensures_bind, ensures_get]
  split
  · simp only [ensures_bind, ensures_get, ensures_modify, ensures_pure]
    intro event hevent
    exact h event (by simpa using hevent)
  · exact (ensures_pure _).mpr h

theorem handleSetIdentity_handled :
    Ensures (handleSetIdentity env) s (fun _ => HandledWithin handled)
      (fun _ => HandledWithin handled) := by
  unfold handleSetIdentity
  rw [ensures_bind]
  apply (h.of_reaches tick_quiet.reaches).mono
  · intro clock s₁ h₁
    rw [ensures_bind]
    apply (followIdentity_handled h₁).mono
    · intro _ s₂ h₂
      unfold initializeGenesis reconcileRoot setVoteHistory sharableBanksRoot tick
      simp only [ensures_bind, ensures_get, ensures_ask, ensures_modify, ensures_pure]
      split
      · exact h₂
      · exact h₂
    · exact fun _ _ h₂ => h₂
  · exact fun _ _ h₁ => h₁

theorem handleEvent_handled (hnew : event.shouldIgnore s.voteHistory.root = false)
    (hhandled : .handled event ∈ s.trace) :
    Ensures (handleEvent env event) s (fun _ => HandledWithin handled)
      (fun _ => HandledWithin handled) := by
  have hreact : Ensures (react env event) { s with votes := [] }
      (fun _ => HandledWithin handled) (fun _ => HandledWithin handled) := by
    have h' : HandledWithin handled { s with votes := [] } := h
    by_cases hevent : event = .setIdentity
    · subst hevent
      unfold react
      rw [ensures_bind]
      apply (handleSetIdentity_handled h').mono
      · exact fun _ s₁ h₁ => h₁.of_reaches sendVoteHistoryToConsensusPool_quiet.reaches
      · exact fun _ _ h₁ => h₁
    · exact h'.of_reaches (react_reaches hevent hnew hhandled)
  unfold handleEvent
  rw [ensures_bind, ensures_modify, ensures_bind]
  apply hreact.mono
  · intro _ s₁ h₁
    rw [ensures_bind, ensures_get, ensures_pure]
    exact h₁
  · exact fun _ _ h₁ => h₁

end

theorem processEvent_handled (event : VotorEvent) :
    Ensures (processEvent env event) s (fun _ => HandledWithin (s.trace ++ [.handled event]))
      (fun _ => HandledWithin (s.trace ++ [.handled event])) := by
  have hold : ∀ s₁ : HandlerState, s₁.core = s.core →
      HandledWithin (s.trace ++ [.handled event]) s₁ := by
    intro s₁ hsame other hother
    have htrace : s₁.trace = s.trace := congrArg Core.trace hsame
    rw [htrace] at hother
    exact mem_append_left _ hother
  unfold processEvent
  rw [ensures_bind]
  apply Ensures.mono sharableBanksRoot_quiet
  · intro rootSlot s₁ hsame
    have htrace : s₁.trace = s.trace := congrArg Core.trace hsame
    rw [ensures_bind, ensures_get]
    split
    next => exact (ensures_pure _).mpr (hold s₁ hsame)
    next hnew =>
      rw [ensures_bind, ensures_modify, ensures_bind]
      apply (handleEvent_handled _ _ _).mono
      · intro votes s₂ h₂
        exact h₂.of_reaches (forM fun _ _ _ _ => (send_quiet _).reaches)
      · exact fun _ _ h₂ => h₂
      · intro other hother
        rwa [← htrace]
      · exact shouldIgnore_of_le (le_max_right _ _) (by simpa using hnew)
      · simp
  · exact fun _ s₁ hstop => hold s₁ hstop.1

theorem eventLoop_reaches (events : List VotorEvent) :
    Reaches core (Step env) (eventLoop env events) s := by
  apply Reaches.forM
  intro event _ s' _
  exact processEvent_reaches event

end Events

end EventHandler

end RakuraiValidator.Votor
