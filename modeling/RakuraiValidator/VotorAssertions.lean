import RakuraiValidator.VotorEventSteps

/-!
# The assertions of the vote history

The event loop asks its vote history about slots and records votes in it, and
the history asserts that the slot is not below its root and that a vote does not
contradict earlier ones.  The assertions hold as long as a fallback vote is tried
for a slot which was voted on.  The skip votes before a fallback vote are meant
to ensure this, but they start at the bank root, which is read again after the
event has been accepted.
-/

namespace RakuraiValidator.Votor

open Stateful HandlerState EventHandler VotorEvent BTreeMap VoteHistory List

attribute [local simp] shouldIgnore VoteHistory.new

/-- The program does not fail an assertion of the vote history. -/
abbrev Safe {α : Type} (x : Handler α) (s : HandlerState) : Prop :=
  StopsOnly Stop.NoAssertion x s

def VotorEvent.fallbackSlot : VotorEvent → Option ℕ
  | .safeToNotar ⟨slot, _⟩ => some slot
  | .safeToSkip slot => some slot
  | _ => none

/-! ## The invariant of the loop -/

/-- A well-formed history of a cluster with the given genesis block. -/
structure VoteHistory.Restorable (genesisBlock : Block) (history : VoteHistory) : Prop where
  wellFormed : history.WellFormed
  votedNotar : history.root ≤ genesisBlock.slot → ∀ blockId,
    history.votedNotarBlocks.get? genesisBlock.slot = some blockId → blockId = genesisBlock.blockId
  notarized : history.root ≤ genesisBlock.slot → ∀ block ∈ history.notarizedBlocks,
    block.slot = genesisBlock.slot → block.blockId = genesisBlock.blockId

structure Loaded (genesisBlock : Block) (c : Core) : Prop where
  genesisBlock_eq : c.genesisBlock = genesisBlock
  history : c.history.Restorable genesisBlock
  pendingSlot : ∀ slot blocks, c.pending.get? slot = some blocks →
    ∀ entry ∈ blocks, entry.1.slot = slot

/-- The genesis block is behind the root or at the root, and blocks wait only at slots
which may still be asked about. -/
structure Ready (genesisBlock : Block) (c : Core) : Prop extends Loaded genesisBlock c where
  root : genesisBlock.slot ≤ c.history.root
  genesisVoted : c.history.root = genesisBlock.slot → genesisBlock.slot ∈ c.history.votedSlots
  pendingRoot : ∀ slot blocks, c.pending.get? slot = some blocks →
    c.history.root ≤ slot ∧ (slot = c.history.root → slot ∈ c.history.votedSlots)

variable (slot : ℕ) {history : VoteHistory} {vote : Vote}

variable {genesisBlock : Block}

section Invariant

variable {c c' : Core}

theorem VoteHistory.restorable_new (nodePubkey root : ℕ) :
    (VoteHistory.new nodePubkey root).Restorable genesisBlock := by
  constructor
  · exact wellFormed_new nodePubkey root
  · simp
  · simp

variable (h : Ready genesisBlock c)

include h

theorem Ready.record (hguard : c.Guard vote) (hadd : c.history.addVote vote = .ok history) :
    Ready genesisBlock (c.record vote history) := by
  rcases addVote_inv hadd with ⟨_, _, hrec⟩
  constructor
  · constructor
    · exact h.genesisBlock_eq
    · constructor
      · apply h.history.wellFormed.addVote hadd
        · exact hguard.notarizeOrSkip
        · intro slot hvote
          subst hvote
          exact (hguard.finalize h.history.wellFormed).1
      · intro hroot blockId hnotar
        have hroot' : c.history.root ≤ genesisBlock.slot := hrec.root ▸ hroot
        rcases (hrec.votedNotar _ _).mp hnotar with hold | hvote
        · exact h.history.votedNotar hroot' blockId hold
        · subst hvote
          exact absurd (h.genesisVoted (le_antisymm hroot' h.root)) (hguard.notarizeOrSkip rfl)
      · intro hroot block hblock
        have hroot' : c.history.root ≤ genesisBlock.slot := hrec.root ▸ hroot
        have hblock' : block ∈ c.history.notarizedBlocks := hrec.notarizedBlocks ▸ hblock
        exact h.history.notarized hroot' block hblock'
    · exact h.pendingSlot
  · exact h.root.trans_eq hrec.root.symm
  · intro hroot
    exact (hrec.votedSlots _).mpr (.inl (h.genesisVoted (hrec.root.symm.trans hroot)))
  · intro slot blocks hblocks
    rcases h.pendingRoot slot blocks hblocks with ⟨hslot, hvoted⟩
    constructor
    · exact hrec.root.trans_le hslot
    · exact fun heq =>
        (hrec.votedSlots _).mpr (.inl (hvoted (heq.trans hrec.root)))

theorem Ready.voteStep (hstep : VoteStep c c') : Ready genesisBlock c' := by
  cases hstep with
  | record hguard hadd => exact h.record hguard hadd
  | removePending slot =>
    have hold : ∀ other blocks, (c.pending.remove slot).2.get? other = some blocks →
        c.pending.get? other = some blocks := by
      intro other blocks hblocks
      rw [get?_remove] at hblocks
      split at hblocks
      · contradiction
      · exact hblocks
    constructor
    · exact ⟨h.genesisBlock_eq, h.history,
        fun other blocks hblocks => h.pendingSlot other blocks (hold other blocks hblocks)⟩
    · exact h.root
    · exact h.genesisVoted
    · exact fun other blocks hblocks => h.pendingRoot other blocks (hold other blocks hblocks)

theorem Ready.setRoot {root : ℕ} (hroot : c.history.root < root)
    (hvoted : root ∈ c.history.votedSlots) :
    Ready genesisBlock { c with
      history := c.history.setRoot root
      pending := c.pending.splitOff root } := by
  have hgen : genesisBlock.slot < root := h.root.trans_lt hroot
  have hold : ∀ slot blocks, (c.pending.splitOff root).get? slot = some blocks →
      root ≤ slot ∧ c.pending.get? slot = some blocks := by
    intro slot blocks hblocks
    rw [get?_splitOff] at hblocks
    split at hblocks
    next hslot => exact ⟨hslot, hblocks⟩
    next => contradiction
  constructor
  · constructor
    · exact h.genesisBlock_eq
    · constructor
      · exact h.history.wellFormed.setRoot root
      · exact fun hle => absurd hgen (not_lt.mpr hle)
      · exact fun hle => absurd hgen (not_lt.mpr hle)
    · exact fun slot blocks hblocks => h.pendingSlot slot blocks (hold slot blocks hblocks).2
  · exact hgen.le
  · exact fun heq => absurd heq (Nat.ne_of_gt hgen)
  · intro slot blocks hblocks
    constructor
    · exact (hold slot blocks hblocks).1
    · intro heq
      rw [heq]
      exact Finset.mem_filter.mpr ⟨hvoted, le_rfl⟩

variable (parentBlock : Block) {block : Block}

theorem Ready.addBlockNotarized (hroot : c.history.root < block.slot) :
    Ready genesisBlock { c with history := c.history.addBlockNotarized block } := by
  rw [VoteHistory.addBlockNotarized, if_neg (not_lt.mpr hroot.le)]
  constructor
  · constructor
    · exact h.genesisBlock_eq
    · constructor
      · exact ⟨h.history.1.1, h.history.1.2, h.history.1.3, h.history.1.4⟩
      · exact h.history.votedNotar
      · intro hle other hother hslot
        rcases Finset.mem_insert.mp hother with heq | hold
        · subst heq
          exact absurd hslot (Nat.ne_of_gt (h.root.trans_lt hroot))
        · exact h.history.notarized hle other hold hslot
    · exact h.pendingSlot
  · exact h.root
  · exact h.genesisVoted
  · exact h.pendingRoot

theorem Ready.addParentReady :
    Ready genesisBlock { c with history := (c.history.addParentReady slot parentBlock).1 } := by
  have hfield : ∀ parentReadySlots, Ready genesisBlock
      { c with history := { c.history with parentReadySlots := parentReadySlots } } := fun _ =>
    ⟨⟨h.genesisBlock_eq, ⟨⟨h.history.1.1, h.history.1.2, h.history.1.3, h.history.1.4⟩,
      h.history.votedNotar, h.history.notarized⟩, h.pendingSlot⟩, h.root, h.genesisVoted,
      h.pendingRoot⟩
  unfold VoteHistory.addParentReady
  split
  · exact h
  · split
    · exact hfield _
    · exact hfield _

theorem Ready.addPending (hroot : c.history.root < block.slot) :
    Ready genesisBlock { c with
      pending := (c.pending.insert block.slot
        ((c.pending.get? block.slot).getD [] ++ [(block, parentBlock)])).2 } := by
  have hnew : ∀ slot blocks, (c.pending.insert block.slot
      ((c.pending.get? block.slot).getD [] ++ [(block, parentBlock)])).2.get? slot = some blocks →
      slot = block.slot ∧ blocks = (c.pending.get? block.slot).getD [] ++ [(block, parentBlock)] ∨
        c.pending.get? slot = some blocks := by
    intro slot blocks hblocks
    rw [get?_insert] at hblocks
    split at hblocks
    next heq => exact .inl ⟨heq, (Option.some.inj hblocks).symm⟩
    next => exact .inr hblocks
  constructor
  · refine ⟨h.genesisBlock_eq, h.history, ?_⟩
    intro slot blocks hblocks entry hentry
    rcases hnew slot blocks hblocks with ⟨hslot, heq⟩ | hold
    · subst hslot heq
      rcases mem_append.mp hentry with hwait | hlast
      · cases hget : c.pending.get? block.slot with
        | none => simp [hget] at hwait
        | some waiting =>
          rw [hget, Option.getD_some] at hwait
          exact h.pendingSlot _ waiting hget entry hwait
      · rw [mem_singleton.mp hlast]
    · exact h.pendingSlot slot blocks hold entry hentry
  · exact h.root
  · exact h.genesisVoted
  · intro slot blocks hblocks
    rcases hnew slot blocks hblocks with ⟨hslot, _⟩ | hold
    · subst hslot
      exact ⟨hroot.le, fun heq => absurd heq (Nat.ne_of_gt hroot)⟩
    · exact h.pendingRoot slot blocks hold

theorem Ready.loopStep (hstep : LoopStep c c') : Ready genesisBlock c' := by
  cases hstep with
  | vote hstep => exact h.voteStep hstep
  | blockNotarized _ hroot => exact h.addBlockNotarized hroot
  | parentReady slot parentBlock => exact h.addParentReady slot parentBlock
  | addPending parentBlock hroot _ => exact h.addPending parentBlock hroot
  | setRoot hroot hvoted => exact h.setRoot hroot hvoted

theorem Ready.voteSteps (hsteps : VoteSteps c c') : Ready genesisBlock c' := by
  induction hsteps with
  | refl => exact h
  | tail _ hstep ih => exact ih.voteStep hstep

theorem Ready.loopSteps (hsteps : Relation.ReflTransGen LoopStep c c') : Ready genesisBlock c' := by
  induction hsteps with
  | refl => exact h
  | tail _ hstep ih => exact ih.loopStep hstep

end Invariant

variable {event : VotorEvent}

namespace EventHandler

/-! ## Votes -/

variable {env : Environment} {s : HandlerState}

section Votes

theorem safe_query_bind {α β : Type} {slot : ℕ} {answer : VoteHistory → α} {f : α → Handler β}
    (hroot : s.voteHistory.root ≤ slot) (h : Safe (f (answer s.voteHistory)) s) :
    Safe (ask (fun history => history.query slot (answer history)) >>= f) s := by
  unfold Safe StopsOnly
  rw [ensures_bind, ensures_ask, query_eq_ok hroot]
  exact h

theorem castVote_ensures (hroot : s.voteHistory.root ≤ vote.slot)
    (hacc : s.voteHistory.Accepts vote) :
    Ensures (castVote env vote) s
      (fun _ s' => ∃ history, VoteHistory.Recorded vote s.voteHistory history ∧
        s'.core = s.core.record vote history)
      (fun stop _ => stop.NoAssertion) := by
  have hadd := addVote_eq_ok hroot hacc
  apply (castVote_spec vote).mono
  · rintro _ s' ⟨history, hhist, hcore⟩
    exact ⟨history, (addVote_inv hhist).2.2, hcore⟩
  · rintro stop s' (⟨_, panic, hpanic⟩ | ⟨hstop, _⟩)
    · rw [hadd] at hpanic
      contradiction
    · exact hstop

variable {block : Block}

theorem tryFinal_safe (hroot : s.voteHistory.root ≤ block.slot) : Safe (tryFinal env block) s := by
  apply StopsOnly.get_bind
  split
  · exact StopsOnly.pure _
  · apply safe_query_bind hroot
    split
    · exact StopsOnly.pure _
    · apply safe_query_bind hroot
      split
      next => exact StopsOnly.pure _
      next hwindow =>
        apply safe_query_bind hroot
        split
        · exact StopsOnly.pure _
        · have hacc : s.voteHistory.Accepts (.finalize block.slot) := by
            intro hskip
            simp [hskip] at hwindow
          apply StopsOnly.ensures_bind (castVote_ensures hroot hacc)
          exact fun _ _ _ => StopsOnly.pure _

theorem isParentVotable_safe_bind {β : Type} {parentBlock : Block} {f : Bool → Handler β}
    (hroot : s.voteHistory.root < block.slot) (h : ∀ answer, Safe (f answer) s) :
    Safe (isParentVotable block parentBlock >>= f) s := by
  unfold isParentVotable
  split
  · rw [bind_assoc]
    apply StopsOnly.get_bind
    rw [pure_bind]
    exact h _
  · split
    next => exact h _
    next hpar =>
      rw [not_not] at hpar
      have hroot' : s.voteHistory.root ≤ parentBlock.slot := by omega
      rw [bind_assoc]
      apply safe_query_bind hroot'
      exact h _

theorem tryNotar_safe (parentBlock : Block)
    (hhist : s.voteHistory.WellFormed) (hroot : s.voteHistory.root ≤ block.slot)
    (hopen : block.slot ∉ s.voteHistory.votedSlots → s.voteHistory.root < block.slot) :
    Safe (tryNotar env block parentBlock) s := by
  apply safe_query_bind hroot
  split
  next => exact StopsOnly.pure _
  next hvoted =>
    have hnew : block.slot ∉ s.voteHistory.votedSlots := by simpa using hvoted
    apply isParentVotable_safe_bind (hopen hnew)
    intro votable
    split
    · exact StopsOnly.pure _
    · have hacc : s.voteHistory.Accepts (.notarize block) := by
        refine ⟨hnew, ?_⟩
        rw [Option.eq_none_iff_forall_ne_some]
        exact fun blockId hnotar => hnew (hhist.votedNotar _ blockId hnotar)
      apply StopsOnly.ensures_bind (castVote_ensures hroot hacc)
      rintro _ s' ⟨history, hrec, hcore⟩
      apply StopsOnly.get_bind
      apply StopsOnly.modify_bind
      have hroot' : s'.voteHistory.root ≤ block.slot := by
        rw [← core_history, hcore]
        exact hrec.root.trans_le hroot
      exact StopsOnly.ensures_bind (tryFinal_safe hroot') fun _ _ _ => StopsOnly.pure _

theorem mem_pendingBlocks {pending : PendingBlocks} {entry : Block × Block}
    (h : entry ∈ pending.values.flatten) :
    ∃ slot blocks, pending.get? slot = some blocks ∧ entry ∈ blocks := by
  rcases mem_flatten.mp h with ⟨blocks, hblocks, hentry⟩
  rcases mem_map.mp hblocks with ⟨⟨slot, blocks'⟩, hmem, heq⟩
  subst heq
  exact ⟨slot, blocks', (pending.get?_eq_some_iff slot blocks').mpr hmem, hentry⟩

theorem checkPendingBlocks_safe {genesisBlock : Block} (h : Ready genesisBlock s.core) :
    Safe (checkPendingBlocks env) s := by
  apply StopsOnly.get_bind
  apply StopsOnly.forM
  · rintro ⟨block, parentBlock⟩ _ s'
    exact (tryNotar_reaches block parentBlock).bind fun _ _ _ => Reaches.pure _
  · rintro ⟨block, parentBlock⟩ hentry s' hsteps
    rcases mem_pendingBlocks hentry with ⟨slot, blocks, hblocks, hmem⟩
    have hslot : block.slot = slot := h.pendingSlot slot blocks hblocks _ hmem
    subst hslot
    rcases h.pendingRoot block.slot blocks hblocks with ⟨hroot, hvoted⟩
    have hroot' : s'.voteHistory.root = s.voteHistory.root := VoteSteps.root_eq hsteps
    have hready := h.voteSteps hsteps
    apply StopsOnly.ensures_bind
    · apply tryNotar_safe parentBlock hready.history.wellFormed
      · exact hroot'.trans_le hroot
      · intro hnew
        rw [hroot']
        apply lt_of_le_of_ne hroot
        intro heq
        exact hnew (VoteSteps.votedSlots_subset hsteps (hvoted heq.symm))
    · exact fun _ _ _ => StopsOnly.pure _

end Votes

/-! ## Skip windows and fallback votes -/

section Fallback

theorem ensures_sharableBanksRoot {Q : ℕ → HandlerState → Prop} {E : Stop → HandlerState → Prop} :
    Ensures (sharableBanksRoot env) s Q E ↔
      Q (env.bankRoot s.clock) { s with clock := s.clock + 1 } := by
  simp only [sharableBanksRoot, tick, ensures_bind, ensures_get, ensures_modify, ensures_pure]

/-- The history afterwards knows at least the votes of the history before. -/
structure Votes (slots : List ℕ) (s s' : HandlerState) : Prop where
  root : s'.voteHistory.root = s.voteHistory.root
  kept : s.voteHistory.votedSlots ⊆ s'.voteHistory.votedSlots
  voted : ∀ slot ∈ slots, slot ∈ s'.voteHistory.votedSlots

theorem skipSlots_ensures {slots : List ℕ} (hroot : ∀ slot ∈ slots, s.voteHistory.root ≤ slot) :
    Ensures (forM slots (fun slot => do
        if ← ask (fun history => history.voted slot) then pure ()
        else castVote env (.skip slot))) s
      (fun _ s' => Votes slots s s') (fun stop _ => stop.NoAssertion) := by
  induction slots generalizing s with
  | nil =>
    rw [forM_nil, ensures_pure]
    exact ⟨rfl, Finset.Subset.refl _, by simp⟩
  | cons slot slots ih =>
    have hslot := hroot slot mem_cons_self
    have hround : Ensures (do
        if ← ask (fun history => history.voted slot) then pure ()
        else castVote env (.skip slot)) s
        (fun _ s' => Votes [slot] s s') (fun stop _ => stop.NoAssertion) := by
      rw [ensures_bind, ensures_ask, voted, query_eq_ok hslot]
      dsimp only
      split
      next hvoted =>
        rw [ensures_pure]
        exact ⟨rfl, Finset.Subset.refl _, by simpa using hvoted⟩
      next =>
        have hacc : s.voteHistory.Accepts (.skip slot) := trivial
        apply (castVote_ensures hslot hacc).mono
        · rintro _ s' ⟨history, hrec, hcore⟩
          have hhist : s'.voteHistory = history := congrArg Core.history hcore
          rw [← hhist] at hrec
          constructor
          · exact hrec.root
          · exact fun other hother => (hrec.votedSlots other).mpr (.inl hother)
          · intro other hother
            rw [mem_singleton.mp hother]
            exact (hrec.votedSlots slot).mpr (.inr ⟨rfl, rfl⟩)
        · exact fun _ _ hstop => hstop
    rw [forM_cons, ensures_bind]
    apply hround.mono
    · intro _ s₁ hfirst
      have hroot₁ : ∀ slot ∈ slots, s₁.voteHistory.root ≤ slot := by
        intro other hother
        rw [hfirst.root]
        exact hroot other (mem_cons_of_mem slot hother)
      apply (ih hroot₁).mono
      · intro _ s₂ hrest
        constructor
        · exact hrest.root.trans hfirst.root
        · exact hfirst.kept.trans hrest.kept
        · intro other hother
          rcases mem_cons.mp hother with heq | hmem
          · rw [heq]
            exact hrest.kept (hfirst.voted slot (by simp))
          · exact hrest.voted other hmem
      · exact fun _ _ hstop => hstop
    · exact fun _ _ hstop => hstop

theorem trySkipWindow_ensures :
    Ensures (trySkipWindow env slot) s
      (fun _ s' => Votes [] s s' ∧ (s.voteHistory.root ≤ slot → env.bankRoot s.clock ≤ slot →
        slot ∈ s'.voteHistory.votedSlots))
      (fun stop _ => stop.NoAssertion) := by
  unfold trySkipWindow
  rw [ensures_bind, ensures_get, ensures_bind, ensures_sharableBanksRoot]
  apply (skipSlots_ensures _).mono
  · intro _ s' hvotes
    refine ⟨⟨hvotes.root, hvotes.kept, by simp⟩, ?_⟩
    intro hroot hbank
    apply hvotes.voted
    rw [mem_range'_1]
    unfold lastOfConsecutiveLeaderSlots firstOfConsecutiveLeaderSlots numConsecutiveLeaderSlots
    omega
  · exact fun _ _ hstop => hstop
  · intro other hother
    have hstart := (mem_range'_1.mp hother).1
    exact (le_max_left _ _).trans ((le_max_right _ _).trans hstart)

theorem trySkipWindow_safe : Safe (trySkipWindow env slot) s :=
  StopsOnly.of_ensures (trySkipWindow_ensures slot)

theorem fallback_safe (vote : Vote) {voted : VoteHistory → Bool}
    (hroot : s.voteHistory.root ≤ vote.slot)
    (hreached : vote.slot ∈ s.voteHistory.votedSlots ∨ env.bankRoot s.clock ≤ vote.slot)
    (hacc : ∀ history : VoteHistory, vote.slot ∈ history.votedSlots →
      vote.slot ∉ history.itsOverSlots → history.Accepts vote) :
    Safe (do
      trySkipWindow env vote.slot
      if ← ask (fun history => history.itsOver vote.slot) then pure ()
      else if ← ask (fun history => history.query vote.slot (voted history)) then pure ()
      else castVote env vote) s := by
  apply StopsOnly.ensures_bind (trySkipWindow_ensures vote.slot)
  rintro _ s' ⟨hvotes, hskip⟩
  have hroot' := hvotes.root.trans_le hroot
  have hvoted : vote.slot ∈ s'.voteHistory.votedSlots := by
    rcases hreached with hvoted | hbank
    · exact hvotes.kept hvoted
    · exact hskip hroot hbank
  apply safe_query_bind hroot'
  split
  next => exact StopsOnly.pure _
  next hopen =>
    apply safe_query_bind hroot'
    split
    · exact StopsOnly.pure _
    · exact StopsOnly.of_ensures
        (castVote_ensures hroot' (hacc _ hvoted (by simpa using hopen)))

end Fallback

/-! ## Events -/

section Events

theorem checkRootableBlocksAndBankHashMismatches_safe :
    Safe (checkRootableBlocksAndBankHashMismatches env) s := by
  apply tick_quiet.stopsOnly_bind
  intro clock s₁ _
  apply StopsOnly.get_bind
  apply StopsOnly.ensures_bind
  · apply (rootableBlocks_spec _ (le_max_right _ _) _).mono
    · exact fun _ _ hrootable => hrootable
    · exact fun _ _ hstop => hstop.2
  · intro rootable s₂ _
    split
    · exact StopsOnly.pure _
    · exact StopsOnly.modify _

section

variable (h : Ready genesisBlock s.core)

include h

variable (parentBlock block : Block)

theorem handleParentReadyEvent_safe : Safe (handleParentReadyEvent env slot parentBlock) s := by
  apply StopsOnly.get_bind
  apply StopsOnly.modify_bind
  apply StopsOnly.ensures_bind
  · exact checkPendingBlocks_safe (h.addParentReady slot parentBlock)
  · exact fun _ _ _ => StopsOnly.modify _

theorem triggerMissingParentReady_safe : Safe (triggerMissingParentReady env block) s := by
  apply (addMissingParentReady_quiet block).stopsOnly_bind
  intro parentBlock s' hsame
  cases parentBlock with
  | none => exact StopsOnly.pure _
  | some parentBlock =>
    apply handleParentReadyEvent_safe
    rw [hsame]
    exact h

theorem voteOrWait_safe {slot : ℕ} {block : Block} (hslot : block.slot = slot)
    (hroot : s.voteHistory.root < slot) : Safe (voteOrWait env slot block parentBlock) s := by
  subst hslot
  apply StopsOnly.bind _ (tryNotar_reaches block parentBlock)
  · intro voted s' hsteps
    have hroot' : s'.voteHistory.root ≤ block.slot := by
      rw [← core_history, VoteSteps.root_eq hsteps]
      exact hroot.le
    split
    · exact checkPendingBlocks_safe (h.voteSteps hsteps)
    · apply safe_query_bind hroot'
      split
      · exact StopsOnly.pure _
      · exact StopsOnly.modify _
  · exact tryNotar_safe parentBlock h.history.wellFormed hroot.le fun _ => hroot

theorem handleBlock_safe {completedBlock : CompletedBlock}
    (hroot : s.voteHistory.root < completedBlock.slot) :
    Safe (handleBlock env completedBlock) s := by
  apply (send_quiet _).stopsOnly_bind
  intro _ s₁ hsame
  have h₁ : Ready genesisBlock s₁.core := hsame ▸ h
  have hroot₁ : s₁.voteHistory.root < completedBlock.slot := by
    rw [← core_history, hsame]
    exact hroot
  unfold getBlockParentBlock
  split
  next => exact StopsOnly.throw (by simp [Stop.NoAssertion])
  next blockId _ =>
    rw [pure_bind]
    apply (voteOrWait_safe h₁ _ completedBlock.slot_eq hroot₁).bind
      (voteOrWait_reaches _ completedBlock.slot_eq hroot₁)
    intro _ s₂ hsteps₂
    have h₂ := h₁.loopSteps hsteps₂
    apply checkRootableBlocksAndBankHashMismatches_safe.bind
      checkRootableBlocksAndBankHashMismatches_reaches
    intro _ s₃ hsteps₃
    exact triggerMissingParentReady_safe (h₂.loopSteps hsteps₃) _

theorem handleFinalized_safe : Safe (handleFinalized env block) s := by
  apply StopsOnly.modify_bind
  apply (send_quiet _).stopsOnly_bind
  intro _ s₁ hsame
  have h₁ : Ready genesisBlock s₁.core := by
    rw [hsame]
    exact h
  apply checkRootableBlocksAndBankHashMismatches_safe.bind
    checkRootableBlocksAndBankHashMismatches_reaches
  intro _ s₂ hsteps
  apply StopsOnly.modify_bind
  apply StopsOnly.ensures_bind
  · have h₂ : Ready genesisBlock (core { s₂ with
        standstillSlot := s₂.standstillSlot.filter (block.slot ≤ ·) }) := h₁.loopSteps hsteps
    exact triggerMissingParentReady_safe h₂ block
  · exact fun _ _ _ => (send_quiet _).stopsOnly

end

/-- A fallback vote is tried for a slot which was voted on or which the skip votes of
its window reach. -/
def SkipVotesReach (history : VoteHistory) (bankRoot : ℕ) (event : VotorEvent) : Prop :=
  ∀ slot ∈ event.fallbackSlot, slot ∈ history.votedSlots ∨ bankRoot ≤ slot

instance (history : VoteHistory) (bankRoot : ℕ) (event : VotorEvent) :
    Decidable (SkipVotesReach history bankRoot event) :=
  inferInstanceAs (Decidable (∀ slot ∈ event.fallbackSlot, _))

theorem react_safe (h : Ready genesisBlock s.core) (hevent : event ≠ .setIdentity)
    (hnew : event.shouldIgnore s.voteHistory.root = false)
    (hreach : SkipVotesReach s.voteHistory (env.bankRoot s.clock) event) :
    Safe (react env event) s := by
  cases event with
  | block completedBlock =>
    apply handleBlock_safe h
    simpa using hnew
  | blockNotarized block =>
    have hroot : s.voteHistory.root < block.slot := by
      simpa using hnew
    apply StopsOnly.get_bind
    apply StopsOnly.modify_bind
    apply StopsOnly.ensures_bind
    · apply tryFinal_safe
      rw [addBlockNotarized_root]
      exact hroot.le
    · exact fun _ _ _ => (send_quiet _).stopsOnly
  | blockNotarFallback block => exact (send_quiet _).stopsOnly
  | firstShred slot => exact StopsOnly.modify _
  | parentReady slot parentBlock =>
    apply (send_quiet _).stopsOnly_bind
    intro _ s₁ hsame
    apply handleParentReadyEvent_safe
    rw [hsame]
    exact h
  | timeoutCrashedLeader slot =>
    have hroot : s.voteHistory.root < slot := by
      simpa using hnew
    apply safe_query_bind hroot.le
    split
    · exact StopsOnly.pure _
    · apply StopsOnly.get_bind
      split
      · exact StopsOnly.pure _
      · exact trySkipWindow_safe slot
  | timeout slot =>
    have hroot : s.voteHistory.root < slot := by
      simpa using hnew
    apply (sendStartOfNextSlot_quiet slot).stopsOnly_bind
    intro _ s₁ hsame
    have hroot₁ : s₁.voteHistory.root ≤ slot := by
      rw [← core_history, hsame]
      exact hroot.le
    apply safe_query_bind hroot₁
    split
    · exact StopsOnly.pure _
    · exact trySkipWindow_safe slot
  | safeToNotar block =>
    have hroot : s.voteHistory.root < block.slot := by
      simpa using hnew
    exact fallback_safe (.notarizeFallback block) hroot.le (hreach block.slot rfl)
      fun _ => And.intro
  | safeToSkip slot =>
    have hroot : s.voteHistory.root < slot := by
      simpa using hnew
    exact fallback_safe (.skipFallback slot) hroot.le (hreach slot rfl) fun _ => And.intro
  | produceWindow info => exact (send_quiet _).stopsOnly
  | finalized block isFastFinalization => exact handleFinalized_safe h block
  | standstill highestFinalizedSlot =>
    apply StopsOnly.modify_bind
    exact (refreshVotes_quiet highestFinalizedSlot).stopsOnly
  | setIdentity => exact absurd rfl hevent

end Events

/-! ## A new identity -/

section Identity

variable
  (hrestore : ∀ clock pubkey history, env.restore clock pubkey = some history → history.Restorable genesisBlock)

include hrestore in
theorem followIdentity_ensures (h : Loaded genesisBlock s.core) (newPubkey : ℕ) :
    Ensures (followIdentity env newPubkey) s (fun _ s' => Loaded genesisBlock s'.core)
      (fun stop _ => stop.NoAssertion) := by
  unfold followIdentity changeIdentity tick
  simp only [ensures_bind, ensures_get]
  split
  · simp only [ensures_bind, ensures_get, ensures_modify, ensures_pure]
    refine ⟨h.genesisBlock_eq, ?_, h.pendingSlot⟩
    cases hhist : env.restore s.clock newPubkey with
    | none => simpa [core, hhist] using restorable_new newPubkey 0
    | some history => simpa [core, hhist] using hrestore _ _ _ hhist
  · exact (ensures_pure _).mpr h

theorem initializeGenesis_ok (h : history.Restorable genesisBlock) :
    ∃ history', history.initializeGenesis genesisBlock = .ok history' ∧
      history'.Restorable genesisBlock ∧ genesisBlock.slot ≤ history'.root ∧
      (history'.root = genesisBlock.slot → genesisBlock.slot ∈ history'.votedSlots) := by
  by_cases hroot : genesisBlock.slot < history.root
  · refine ⟨history, ?_, h, hroot.le, fun heq => absurd heq (Nat.ne_of_gt hroot)⟩
    rw [VoteHistory.initializeGenesis, if_pos hroot]
  · have hle : history.root ≤ genesisBlock.slot := not_lt.mp hroot
    have hnotar : ¬ (history.votedNotarBlocks.get? genesisBlock.slot).any
        (· ≠ genesisBlock.blockId) = true := by
      cases hget : history.votedNotarBlocks.get? genesisBlock.slot with
      | none => simp
      | some blockId => simp [h.votedNotar hle blockId hget]
    have hnotarized : ∀ block ∈ history.notarizedBlocks,
        block.slot ≠ genesisBlock.slot ∨ block.blockId = genesisBlock.blockId := by
      intro block hblock
      by_cases hslot : block.slot = genesisBlock.slot
      · exact .inr (h.notarized hle block hblock hslot)
      · exact .inl hslot
    refine ⟨(history.setRoot genesisBlock.slot).insertGenesis genesisBlock, ?_, ?_, le_rfl,
      fun _ => Finset.mem_insert_self _ _⟩
    · rw [VoteHistory.initializeGenesis, if_neg hroot, if_neg hnotar, if_pos hnotarized]
    · constructor
      · exact (h.wellFormed.setRoot _).insertGenesis _
      · intro _ blockId hblockId
        simpa [insertGenesis, get?_insert, eq_comm] using hblockId
      · intro _ block hblock hslot
        rcases Finset.mem_insert.mp hblock with heq | hkept
        · rw [heq]
        · exact h.notarized hle block (Finset.mem_filter.mp hkept).1 hslot

theorem reconcileRoot_ensures (h : Loaded genesisBlock s.core)
    (hroot : genesisBlock.slot ≤ s.voteHistory.root)
    (hvoted : s.voteHistory.root = genesisBlock.slot →
      genesisBlock.slot ∈ s.voteHistory.votedSlots) :
    Ensures (reconcileRoot env) s (fun _ s' => Ready genesisBlock s'.core)
      (fun stop _ => stop.NoAssertion) := by
  have hkept : ∀ slot blocks, (s.pendingBlocks.retain (fun slot _ =>
      max s.voteHistory.root (env.bankRoot s.clock) < slot &&
        slot ∉ s.voteHistory.votedSlots)).get? slot = some blocks →
      max s.voteHistory.root (env.bankRoot s.clock) < slot ∧
        s.pendingBlocks.get? slot = some blocks := by
    intro slot blocks hblocks
    rw [s.pendingBlocks.get?_retain (fun slot =>
      max s.voteHistory.root (env.bankRoot s.clock) < slot &&
        slot ∉ s.voteHistory.votedSlots)] at hblocks
    split at hblocks
    next hslot =>
      rw [Bool.and_eq_true, decide_eq_true_eq] at hslot
      exact ⟨hslot.1, hblocks⟩
    next => contradiction
  unfold reconcileRoot
  rw [ensures_bind, ensures_sharableBanksRoot, ensures_modify]
  constructor
  · refine ⟨h.genesisBlock_eq, h.history, ?_⟩
    exact fun slot blocks hblocks => h.pendingSlot slot blocks (hkept slot blocks hblocks).2
  · exact hroot
  · exact hvoted
  · intro slot blocks hblocks
    have hslot : s.voteHistory.root < slot :=
      (le_max_left _ _).trans_lt (hkept slot blocks hblocks).1
    exact ⟨hslot.le, fun heq => absurd heq (Nat.ne_of_gt hslot)⟩

include hrestore in
theorem handleSetIdentity_ensures (h : Loaded genesisBlock s.core) :
    Ensures (handleSetIdentity env) s (fun _ s' => Ready genesisBlock s'.core)
      (fun stop _ => stop.NoAssertion) := by
  unfold handleSetIdentity
  rw [ensures_bind]
  apply Ensures.mono tick_quiet
  · intro clock s₁ hsame
    rw [ensures_bind]
    apply (followIdentity_ensures hrestore (hsame ▸ h) _).mono
    · intro _ s₂ h₂
      rcases initializeGenesis_ok h₂.history with ⟨history, hgen, hhist, hroot, hvoted⟩
      have hgenBlock : s₂.genesisBlock = genesisBlock := h₂.genesisBlock_eq
      rw [ensures_bind, initializeGenesis, ensures_bind, ensures_get, ensures_bind, ensures_ask,
        hgenBlock]
      have hgen' : s₂.voteHistory.initializeGenesis genesisBlock = .ok history := hgen
      rw [hgen']
      dsimp only
      rw [setVoteHistory, ensures_modify]
      apply reconcileRoot_ensures
      · exact ⟨hgenBlock, hhist, h₂.pendingSlot⟩
      · exact hroot
      · exact hvoted
    · exact fun _ _ hstop => hstop
  · exact fun _ _ hstop => hstop.2

end Identity

/-! ## Runs -/

section Runs

theorem processEvent_ensures
    (hignored : event.shouldIgnore (max (env.bankRoot s.clock) s.voteHistory.root) = true →
      Ready genesisBlock s.core)
    (hreact : event.shouldIgnore (max (env.bankRoot s.clock) s.voteHistory.root) = false →
      Ensures (react env event)
        { s with clock := s.clock + 1, trace := s.trace ++ [.handled event], votes := [] }
        (fun _ s' => Ready genesisBlock s'.core) (fun stop _ => stop.NoAssertion)) :
    Ensures (processEvent env event) s (fun _ s' => Ready genesisBlock s'.core)
      (fun stop _ => stop.NoAssertion) := by
  unfold processEvent
  rw [ensures_bind, ensures_sharableBanksRoot, ensures_bind, ensures_get]
  split
  next hold => exact (ensures_pure _).mpr (hignored hold)
  next hnew =>
    rw [ensures_bind, ensures_modify, ensures_bind, handleEvent, ensures_bind, ensures_modify,
      ensures_bind]
    apply (hreact (by simpa using hnew)).mono
    · intro _ s₁ h₁
      rw [ensures_bind, ensures_get, ensures_pure]
      have hsend : Quiet (forM s₁.votes (fun _ => send env .blsSender)) s₁ :=
        Keeps.forM fun _ _ => send_quiet _
      apply Ensures.mono hsend
      · intro _ s₂ hsame
        rw [hsame]
        exact h₁
      · exact fun _ _ hstop => hstop.2
    · exact fun _ _ hstop => hstop

variable
  (hrestore : ∀ clock pubkey history, env.restore clock pubkey = some history →
    history.Restorable genesisBlock)

include hrestore

theorem processEvent_setIdentity (h : Loaded genesisBlock s.core) :
    Ensures (processEvent env .setIdentity) s (fun _ s' => Ready genesisBlock s'.core)
      (fun stop _ => stop.NoAssertion) := by
  apply processEvent_ensures
  · simp
  · intro _
    have h₁ : Loaded genesisBlock (core { s with
        clock := s.clock + 1, trace := s.trace ++ [.handled .setIdentity], votes := [] }) :=
      ⟨h.genesisBlock_eq, h.history, h.pendingSlot⟩
    rw [react, ensures_bind]
    apply (handleSetIdentity_ensures hrestore h₁).mono
    · intro _ s₁ hready
      apply Ensures.mono sendVoteHistoryToConsensusPool_quiet
      · intro _ s₂ hsame
        rw [hsame]
        exact hready
      · exact fun _ _ hstop => hstop.2
    · exact fun _ _ hstop => hstop

theorem processEvent_ready (h : Ready genesisBlock s.core)
    (hreach : event.shouldIgnore (max (env.bankRoot s.clock) s.voteHistory.root) = false →
      SkipVotesReach s.voteHistory (env.bankRoot (s.clock + 1)) event) :
    Ensures (processEvent env event) s (fun _ s' => Ready genesisBlock s'.core)
      (fun stop _ => stop.NoAssertion) := by
  by_cases hevent : event = .setIdentity
  · subst hevent
    exact processEvent_setIdentity hrestore h.toLoaded
  · apply processEvent_ensures
    · exact fun _ => h
    · intro hnew
      have hnew' : event.shouldIgnore s.voteHistory.root = false :=
        shouldIgnore_of_le (le_max_right _ _) hnew
      have h₁ : Ready genesisBlock (core { s with
          clock := s.clock + 1, trace := s.trace ++ [.handled event], votes := [] }) :=
        ⟨⟨h.genesisBlock_eq, h.history, h.pendingSlot⟩, h.root, h.genesisVoted, h.pendingRoot⟩
      have hsafe := react_safe h₁ hevent hnew' (hreach hnew)
      apply (hsafe.ensures (react_reaches hevent hnew' (by simp))).mono
      · exact fun _ _ hsteps => h₁.loopSteps hsteps
      · exact fun _ _ hstop => hstop

end Runs

end EventHandler

/-- In every round of the loop the skip votes reach the slot of a fallback vote. -/
def SkipVotesReachAlways (env : Environment) : List VotorEvent → HandlerState → Prop
  | [], _ => True
  | event :: events, s =>
    (event.shouldIgnore (max (env.bankRoot s.clock) s.voteHistory.root) = false →
      EventHandler.SkipVotesReach s.voteHistory (env.bankRoot (s.clock + 1)) event) ∧
    Ensures (EventHandler.processEvent env event) s
      (fun _ s' => SkipVotesReachAlways env events s') (fun _ _ => True)

instance decidableSkipVotesReachAlways (env : Environment) :
    ∀ events s, Decidable (SkipVotesReachAlways env events s)
  | [], _ => .isTrue trivial
  | _ :: events, _ =>
    have := fun s' => decidableSkipVotesReachAlways env events s'
    inferInstanceAs (Decidable ((_ → _) ∧ Ensures _ _ _ _))

theorem eventLoop_ready {env : Environment} {genesisBlock : Block}
    (hrestore : ∀ clock pubkey history, env.restore clock pubkey = some history →
      history.Restorable genesisBlock) (events : List VotorEvent) {s : HandlerState}
    (h : Ready genesisBlock s.core) (hreach : SkipVotesReachAlways env events s) :
    Safe (eventLoop env events) s := by
  induction events generalizing s with
  | nil => exact StopsOnly.pure _
  | cons event events ih =>
    rw [eventLoop, forM_cons]
    have hround := processEvent_ready hrestore h hreach.1
    apply StopsOnly.ensures_bind
    · exact (hround.and hreach.2).mono (fun _ _ hboth => hboth) (fun _ _ hboth => hboth.1)
    · exact fun _ s' hboth => ih hboth.1 hboth.2

/-- No assertion of the vote history fails in a run which starts with setting the
identity, as long as in each round the skip votes reach the slot of a fallback vote. -/
theorem voteHistory_assertions_hold (env : Environment) (s : HandlerState)
    (events : List VotorEvent) (hhistory : s.voteHistory.Restorable s.genesisBlock)
    (hrestore : ∀ clock pubkey history, env.restore clock pubkey = some history →
      history.Restorable s.genesisBlock)
    (hpending : s.pendingBlocks = BTreeMap.empty)
    (hreach : SkipVotesReachAlways env (.setIdentity :: events) s) :
    Ensures (eventLoop env (.setIdentity :: events)) s (fun _ _ => True)
      (fun stop _ => ∀ panic, stop ≠ .voteHistoryPanic panic) := by
  have hloaded : Loaded s.genesisBlock s.core := by
    refine ⟨rfl, hhistory, ?_⟩
    intro slot blocks hblocks
    rw [core_pending, hpending, get?_empty] at hblocks
    contradiction
  have hstart := processEvent_setIdentity hrestore hloaded
  have hsafe : Safe (eventLoop env (.setIdentity :: events)) s := by
    rw [eventLoop, forM_cons]
    apply StopsOnly.ensures_bind
    · exact (hstart.and hreach.2).mono (fun _ _ hboth => hboth) (fun _ _ hboth => hboth.1)
    · exact fun _ s' hboth => eventLoop_ready hrestore events hboth.1 hboth.2
  exact hsafe

def advancingRoot (newRoot clock : ℕ) : ℕ := if clock ≤ 4 then 4 else max 4 newRoot

theorem advancingRoot_mono (newRoot : ℕ) : Monotone (advancingRoot newRoot) := by
  intro clock clock' hle
  unfold advancingRoot
  split <;> split <;> omega

/-- The event for slot 8 passes the check against bank root 4.  Then the bank root
advances to 10, the window of slot 8 gets skip votes for 10 and 11 only, and the
notarize fallback vote for slot 8 fails the assertion that the slot was voted on. -/
theorem fallback_assertion_fails :
    (HandlerState.start 1 ⟨0, 7⟩).voteHistory.Restorable ⟨0, 7⟩ ∧
      Ensures (eventLoop
          (.undisturbed 1 (advancingRoot 10) (advancingRoot_mono 10))
          [.setIdentity, .safeToNotar ⟨8, 11⟩]) (.start 1 ⟨0, 7⟩)
        (fun _ _ => False)
        (fun stop s' => stop = .voteHistoryPanic .fallbackBeforeVote ∧
          s'.trace = [.handled .setIdentity, .handled (.safeToNotar ⟨8, 11⟩),
            .recorded (.skip 10), .recorded (.skip 11)]) :=
  ⟨restorable_new 1 0, by decide +kernel⟩

/-- When the bank root advances to the slot itself, the fallback vote is recorded. -/
theorem voteHistory_assertions_hold_fallback :
    Ensures (eventLoop
        (.undisturbed 1 (advancingRoot 8) (advancingRoot_mono 8))
        [.setIdentity, .safeToNotar ⟨8, 11⟩]) (.start 1 ⟨0, 7⟩)
      (fun _ s' => s'.trace.getLast? = some (.recorded (.notarizeFallback ⟨8, 11⟩)))
      (fun stop _ => ∀ panic, stop ≠ .voteHistoryPanic panic) := by
  have hrun : Ensures (eventLoop
        (.undisturbed 1 (advancingRoot 8) (advancingRoot_mono 8))
        [.setIdentity, .safeToNotar ⟨8, 11⟩]) (.start 1 ⟨0, 7⟩)
      (fun _ s' => s'.trace.getLast? = some (.recorded (.notarizeFallback ⟨8, 11⟩)))
      (fun _ _ => True) := by
    decide +kernel
  have hsafe := voteHistory_assertions_hold
    (.undisturbed 1 (advancingRoot 8) (advancingRoot_mono 8)) (.start 1 ⟨0, 7⟩)
    [.safeToNotar ⟨8, 11⟩] (restorable_new 1 0)
    (by simp [Environment.undisturbed]) rfl (by decide +kernel)
  exact (hrun.and hsafe).mono (fun _ _ h => h.1) (fun _ _ h => h.2)

end RakuraiValidator.Votor
