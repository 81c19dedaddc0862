import RakuraiValidator.Traces
import RakuraiValidator.VotorEventSteps

/-!
# No equivocation

The votes which one identity records never contradict each other.  The history
forgets what is below its root, so the argument compares the history with the
trace, which forgets nothing: above the root the history knows every recorded
vote, and below it no vote is accepted any more.
-/

namespace RakuraiValidator.Votor

open Stateful Traces VoteHistory TraceEntry EventHandler HandlerState List

/-! ## Recorded votes -/

def TraceEntry.vote? : TraceEntry → Option Vote
  | .recorded vote => some vote
  | _ => none

def recordedVotes (trace : List TraceEntry) : List Vote := trace.filterMap vote?

variable {genesisBlock : Block} (event : VotorEvent)

variable {trace : List TraceEntry} {vote : Vote}

section RecordedVotes

theorem mem_recordedVotes : vote ∈ recordedVotes trace ↔ .recorded vote ∈ trace := by
  simp only [recordedVotes, mem_filterMap]
  constructor
  · rintro ⟨entry, hentry, hvote⟩
    cases entry with
    | recorded vote' =>
      cases hvote
      exact hentry
    | handled event => simp [vote?] at hvote
    | identityChanged => simp [vote?] at hvote
  · exact fun hvote => ⟨_, hvote, rfl⟩

theorem recordedVotes_mono {trace' : List TraceEntry} (h : trace ⊆ trace') :
    recordedVotes trace ⊆ recordedVotes trace' :=
  fun _ hvote => mem_recordedVotes.mpr (h (mem_recordedVotes.mp hvote))

@[simp] theorem recordedVotes_nil : recordedVotes [] = [] := rfl

@[simp] theorem recordedVotes_recorded (vote : Vote) :
    recordedVotes (trace ++ [.recorded vote]) = recordedVotes trace ++ [vote] := by
  simp [recordedVotes, vote?]

@[simp] theorem recordedVotes_handled :
    recordedVotes (trace ++ [.handled event]) = recordedVotes trace := by
  simp [recordedVotes, vote?]

end RecordedVotes

def Justified (past : List TraceEntry) : TraceEntry → Prop
  | .recorded (.finalize slot) => ∃ blockId, .notarize ⟨slot, blockId⟩ ∈ recordedVotes past ∧
      .handled (.blockNotarized ⟨slot, blockId⟩) ∈ past
  | .recorded (.notarizeFallback block) => .handled (.safeToNotar block) ∈ past
  | .recorded (.skipFallback slot) => .handled (.safeToSkip slot) ∈ past
  | _ => True

structure NoEquivocation (trace : List TraceEntry) : Prop where
  notarizeOrSkip : ∀ slot, (recordedVotes trace).countP
    (fun vote => vote.isNotarizeOrSkip && vote.slot = slot) ≤ 1
  finalize : ∀ slot, (recordedVotes trace).count (.finalize slot) ≤ 1
  exclusive : ∀ slot, .finalize slot ∈ recordedVotes trace →
    ∀ vote ∈ recordedVotes trace, vote.slot = slot → vote.isBadWindow = false
  justified : Causal Justified trace

theorem noEquivocation_nil : NoEquivocation [] := by
  constructor
  · simp
  · simp
  · simp
  · exact causal_nil

theorem NoEquivocation.handled (h : NoEquivocation trace) (event : VotorEvent) :
    NoEquivocation (trace ++ [.handled event]) := by
  constructor
  · simpa using h.notarizeOrSkip
  · simpa using h.finalize
  · simpa using h.exclusive
  · exact h.justified.concat trivial

theorem NoEquivocation.eq_of_slot_eq (h : NoEquivocation trace)
    {vote vote' : Vote} (hvote : vote ∈ recordedVotes trace)
    (hvote' : vote' ∈ recordedVotes trace) (hfirst : vote.isNotarizeOrSkip = true)
    (hfirst' : vote'.isNotarizeOrSkip = true) (hslot : vote.slot = vote'.slot) :
    vote = vote' := by
  have hcount := h.notarizeOrSkip vote'.slot
  rw [countP_eq_length_filter] at hcount
  have hmem : vote ∈ (recordedVotes trace).filter
      (fun vote => vote.isNotarizeOrSkip && vote.slot = vote'.slot) := by
    simp [hvote, hfirst, hslot]
  have hmem' : vote' ∈ (recordedVotes trace).filter
      (fun vote => vote.isNotarizeOrSkip && vote.slot = vote'.slot) := by
    simp [hvote', hfirst']
  rcases length_eq_one_iff.mp (le_antisymm hcount (length_pos_of_mem hmem)) with
    ⟨only, honly⟩
  rw [honly, mem_singleton] at hmem hmem'
  exact hmem.trans hmem'.symm

/-! ## The history and the trace -/

/-- Above its root the history knows the votes of the trace, and it knows no others
except for the genesis block. -/
structure Agrees (history : VoteHistory) (trace : List TraceEntry) : Prop where
  wellFormed : history.WellFormed
  voted : ∀ vote ∈ recordedVotes trace, vote.isNotarizeOrSkip = true →
    history.root ≤ vote.slot → vote.slot ∈ history.votedSlots
  skipped : ∀ vote ∈ recordedVotes trace, vote.isBadWindow = true →
    history.root ≤ vote.slot → vote.slot ∈ history.skippedSlots
  itsOver : ∀ slot, .finalize slot ∈ recordedVotes trace →
    history.root ≤ slot → slot ∈ history.itsOverSlots
  votedNotar : ∀ slot blockId, history.votedNotarBlocks.get? slot = some blockId →
    .notarize ⟨slot, blockId⟩ ∈ recordedVotes trace ∨ slot = history.root
  notarized : ∀ block ∈ history.notarizedBlocks,
    .handled (.blockNotarized block) ∈ trace ∨
      block.slot = history.root ∧ history.root ∈ history.votedSlots ∧
        trace.getLast? ≠ some (.recorded (.notarize block))
  noEquivocation : NoEquivocation trace

theorem agrees_new (nodePubkey root : ℕ) : Agrees (VoteHistory.new nodePubkey root) [] := by
  constructor
  · exact wellFormed_new nodePubkey root
  · simp
  · simp
  · simp
  · simp [new]
  · simp [new]
  · exact noEquivocation_nil

/-! ### Votes -/

variable {c : Core} {history : VoteHistory}

section Votes

namespace Agrees

variable (h : Agrees c.history c.trace) (hguard : c.Guard vote)

include h hguard

theorem justified : Justified c.trace (.recorded vote) := by
  cases vote with
  | finalize slot =>
    rcases hguard with ⟨blockId, hnotarized, _, hnotar, hctx⟩
    refine ⟨blockId, ?_, ?_⟩
    · rcases hctx with hroot | hlast
      · exact (h.votedNotar slot blockId hnotar).resolve_right (Nat.ne_of_gt hroot)
      · exact mem_recordedVotes.mpr (mem_of_getLast? hlast)
    · rcases h.notarized ⟨slot, blockId⟩ hnotarized with hhandled | ⟨hslot, _, hnotLast⟩
      · exact hhandled
      · rcases hctx with hroot | hlast
        · exact absurd hslot (Nat.ne_of_gt hroot)
        · exact absurd hlast hnotLast
  | notarizeFallback block => exact hguard
  | skipFallback slot => exact hguard
  | notarize block => trivial
  | skip slot => trivial
  | genesis block => trivial

theorem noEquivocation_record (hroot : c.history.root ≤ vote.slot)
    (hacc : c.history.Accepts vote) : NoEquivocation (c.trace ++ [.recorded vote]) := by
  have hrec := h.noEquivocation
  constructor
  · -- a first vote is the first: the history knows all of them above the root
    intro slot
    rw [recordedVotes_recorded, countP_append, countP_singleton]
    split
    next hvote =>
      have hfirst : vote.isNotarizeOrSkip = true ∧ vote.slot = slot := by simpa using hvote
      have hzero : (recordedVotes c.trace).countP
          (fun vote => vote.isNotarizeOrSkip && vote.slot = slot) = 0 := by
        rw [countP_eq_zero]
        intro other hother hsame
        have hsame' : other.isNotarizeOrSkip = true ∧ other.slot = slot := by simpa using hsame
        have hslot : other.slot = vote.slot := hsame'.2.trans hfirst.2.symm
        apply hguard.notarizeOrSkip hfirst.1
        rw [← hslot]
        exact h.voted other hother hsame'.1 (hslot ▸ hroot)
      omega
    next => exact hrec.notarizeOrSkip slot
  · intro slot
    rw [recordedVotes_recorded, count_append, count_singleton]
    split
    next hvote =>
      have hvote' : vote = .finalize slot := by simpa using hvote
      subst hvote'
      have hzero : (recordedVotes c.trace).count (.finalize slot) = 0 := by
        rw [count_eq_zero]
        exact fun hmem => (hguard.finalize h.wellFormed).2 (h.itsOver slot hmem hroot)
      omega
    next => exact hrec.finalize slot
  · intro slot
    simp only [recordedVotes_recorded, mem_append, mem_singleton]
    rintro (hfinal | hfinal) other (hother | hother) hslot
    · exact hrec.exclusive slot hfinal other hother hslot
    · -- after a finalize vote no vote of the bad window passes
      subst hother
      rw [Bool.eq_false_iff]
      intro hbad
      have hover : other.slot ∈ c.history.itsOverSlots := by
        rw [hslot] at hroot ⊢
        exact h.itsOver slot hfinal hroot
      rcases accepts_badWindow hacc hbad with hfirst | ⟨_, hopen⟩
      · exact hguard.notarizeOrSkip hfirst (h.wellFormed.itsOver _ hover)
      · exact hopen hover
    · -- a finalize vote is not accepted in a bad window
      subst hfinal
      rw [Bool.eq_false_iff]
      intro hbad
      have hskip := h.skipped other hother hbad (hslot ▸ hroot)
      rw [hslot] at hskip
      exact hacc hskip
    · rw [hother, ← hfinal]
      rfl
  · exact hrec.justified.concat (h.justified hguard)

theorem record (hadd : c.history.addVote vote = .ok history) :
    Agrees history (c.trace ++ [.recorded vote]) := by
  rcases addVote_inv hadd with ⟨hroot, hacc, hrec⟩
  constructor
  · apply h.wellFormed.addVote hadd hguard.notarizeOrSkip
    intro slot hvote
    subst hvote
    exact (hguard.finalize h.wellFormed).1
  · intro other hother hfirst hslot
    rw [hrec.root] at hslot
    rw [hrec.votedSlots]
    rw [recordedVotes_recorded, mem_append, mem_singleton] at hother
    rcases hother with hold | hnew
    · exact .inl (h.voted other hold hfirst hslot)
    · subst hnew
      exact .inr ⟨hfirst, rfl⟩
  · intro other hother hbad hslot
    rw [hrec.root] at hslot
    rw [hrec.skippedSlots]
    rw [recordedVotes_recorded, mem_append, mem_singleton] at hother
    rcases hother with hold | hnew
    · exact .inl (h.skipped other hold hbad hslot)
    · subst hnew
      exact .inr ⟨hbad, rfl⟩
  · intro slot hother hslot
    rw [hrec.root] at hslot
    rw [hrec.itsOverSlots]
    rw [recordedVotes_recorded, mem_append, mem_singleton] at hother
    rcases hother with hold | hnew
    · exact .inl (h.itsOver slot hold hslot)
    · exact .inr hnew.symm
  · intro slot blockId hnotar
    rw [hrec.root, recordedVotes_recorded, mem_append, mem_singleton]
    rcases (hrec.votedNotar slot blockId).mp hnotar with hold | hnew
    · rcases h.votedNotar slot blockId hold with hmem | hslot
      · exact .inl (.inl hmem)
      · exact .inr hslot
    · exact .inl (.inr hnew.symm)
  · intro block hblock
    rw [hrec.notarizedBlocks] at hblock
    rw [hrec.root, hrec.votedSlots]
    rcases h.notarized block hblock with hhandled | ⟨hslot, hvoted, _⟩
    · exact .inl (mem_append_left _ hhandled)
    · -- the slot of the genesis block was voted on, so it gets no notarize vote
      refine .inr ⟨hslot, .inl hvoted, ?_⟩
      rw [getLast?_concat]
      intro hlast
      have hvote : vote = .notarize block := by simpa using hlast
      subst hvote
      apply hguard.notarizeOrSkip rfl
      rw [Vote.slot, hslot]
      exact hvoted
  · exact h.noEquivocation_record hguard hroot hacc

end Agrees

end Votes

/-! ### Roots and other records -/

namespace Agrees

variable {history' : VoteHistory}

variable (h : Agrees history trace)

include h

theorem handled : Agrees history (trace ++ [.handled event]) := by
  constructor
  · exact h.wellFormed
  · simpa using h.voted
  · simpa using h.skipped
  · simpa using h.itsOver
  · simpa using h.votedNotar
  · intro block hblock
    rcases h.notarized block hblock with hhandled | ⟨hslot, hvoted, _⟩
    · exact .inl (mem_append_left _ hhandled)
    · exact .inr ⟨hslot, hvoted, by simp⟩
  · exact h.noEquivocation.handled event

theorem addBlockNotarized {block : Block} (hhandled : .handled (.blockNotarized block) ∈ trace) :
    Agrees (history.addBlockNotarized block) trace := by
  unfold VoteHistory.addBlockNotarized
  split
  · exact h
  · refine ⟨⟨h.1.1, h.1.2, h.1.3, h.1.4⟩, h.voted, h.skipped, h.itsOver, h.votedNotar, ?_,
      h.noEquivocation⟩
    intro other hother
    rcases Finset.mem_insert.mp hother with heq | hold
    · subst heq
      exact .inl hhandled
    · exact h.notarized other hold

theorem addParentReady (slot : ℕ) (parent : Block) :
    Agrees (history.addParentReady slot parent).1 trace := by
  have hfield : ∀ parentReadySlots,
      Agrees { history with parentReadySlots := parentReadySlots } trace := fun _ =>
    ⟨⟨h.1.1, h.1.2, h.1.3, h.1.4⟩, h.voted, h.skipped, h.itsOver, h.votedNotar, h.notarized,
      h.noEquivocation⟩
  unfold VoteHistory.addParentReady
  split
  · exact h
  · split
    · exact hfield _
    · exact hfield _

theorem setRoot {root : ℕ} (hroot : history.root ≤ root) : Agrees (history.setRoot root) trace := by
  constructor
  · exact h.wellFormed.setRoot root
  · intro vote hvote hfirst hslot
    have hslot' : root ≤ vote.slot := hslot
    exact Finset.mem_filter.mpr ⟨h.voted vote hvote hfirst (hroot.trans hslot'), hslot'⟩
  · intro vote hvote hbad hslot
    have hslot' : root ≤ vote.slot := hslot
    exact Finset.mem_filter.mpr ⟨h.skipped vote hvote hbad (hroot.trans hslot'), hslot'⟩
  · intro slot hvote hslot
    have hslot' : root ≤ slot := hslot
    exact Finset.mem_filter.mpr ⟨h.itsOver slot hvote (hroot.trans hslot'), hslot'⟩
  · intro slot blockId hnotar
    have hkept : root ≤ slot ∧ history.votedNotarBlocks.get? slot = some blockId := by
      simpa [VoteHistory.setRoot, BTreeMap.get?_retain] using hnotar
    rcases h.votedNotar slot blockId hkept.2 with hvote | hslot
    · exact .inl hvote
    · exact .inr (le_antisymm (hslot ▸ hroot) hkept.1)
  · intro block hblock
    rcases Finset.mem_filter.mp hblock with ⟨hold, hslot⟩
    rcases h.notarized block hold with hhandled | ⟨hgen, hvoted, hlast⟩
    · exact .inl hhandled
    · have hsame : history.root = root := le_antisymm hroot (hgen ▸ hslot)
      have hvoted' : root ∈ (history.setRoot root).votedSlots := by
        rw [hsame] at hvoted
        exact Finset.mem_filter.mpr ⟨hvoted, le_rfl⟩
      exact .inr ⟨hgen.trans hsame, hvoted', hlast⟩
  · exact h.noEquivocation

theorem insertGenesis (hroot : history.root = genesisBlock.slot)
    (hlast : ∀ vote, trace.getLast? ≠ some (.recorded vote)) :
    Agrees (history.insertGenesis genesisBlock) trace := by
  constructor
  · exact h.wellFormed.insertGenesis genesisBlock
  · exact fun vote hvote hfirst hslot => Finset.mem_insert_of_mem (h.voted vote hvote hfirst hslot)
  · exact h.skipped
  · exact h.itsOver
  · intro slot blockId hnotar
    simp only [VoteHistory.insertGenesis, BTreeMap.get?_insert] at hnotar
    split at hnotar
    next heq => exact .inr (heq.trans hroot.symm)
    next => exact h.votedNotar slot blockId hnotar
  · intro block hblock
    rcases Finset.mem_insert.mp hblock with heq | hold
    · subst heq
      exact .inr ⟨hroot.symm, Finset.mem_insert.mpr (.inl hroot), hlast _⟩
    · rcases h.notarized block hold with hhandled | ⟨hslot, hvoted, _⟩
      · exact .inl hhandled
      · exact .inr ⟨hslot, Finset.mem_insert_of_mem hvoted, hlast _⟩
  · exact h.noEquivocation

theorem initializeGenesis (hlast : ∀ vote, trace.getLast? ≠ some (.recorded vote))
    (hgen : history.initializeGenesis genesisBlock = .ok history') : Agrees history' trace := by
  rcases initializeGenesis_inv hgen with ⟨_, heq⟩ | ⟨hroot, heq⟩
  · rw [heq]
    exact h
  · rw [heq]
    exact (h.setRoot hroot).insertGenesis rfl hlast

end Agrees

/-! ## Runs -/

structure Steady (pubkey : ℕ) (c : Core) : Prop where
  myPubkey : c.myPubkey = pubkey
  nodePubkey : c.history.nodePubkey = pubkey
  agrees : Agrees c.history c.trace

namespace Steady

variable {env : Environment} {pubkey : ℕ} {c' : Core}

theorem voteStep (h : Steady pubkey c) (hstep : VoteStep c c') : Steady pubkey c' := by
  cases hstep with
  | record hguard hadd =>
    constructor
    · exact h.myPubkey
    · exact (addVote_inv hadd).2.2.nodePubkey.trans h.nodePubkey
    · exact h.agrees.record hguard hadd
  | removePending slot => exact ⟨h.myPubkey, h.nodePubkey, h.agrees⟩

theorem loopStep (h : Steady pubkey c) (hstep : LoopStep c c') : Steady pubkey c' := by
  cases hstep with
  | vote hstep => exact h.voteStep hstep
  | blockNotarized hhandled _ =>
    refine ⟨h.myPubkey, ?_, h.agrees.addBlockNotarized hhandled⟩
    exact addBlockNotarized_nodePubkey.trans h.nodePubkey
  | parentReady slot parentBlock =>
    refine ⟨h.myPubkey, ?_, h.agrees.addParentReady slot parentBlock⟩
    exact addParentReady_nodePubkey.trans h.nodePubkey
  | addPending => exact ⟨h.myPubkey, h.nodePubkey, h.agrees⟩
  | setRoot hroot _ => exact ⟨h.myPubkey, h.nodePubkey, h.agrees.setRoot hroot.le⟩

theorem step (hident : ∀ clock, env.identity clock = pubkey) (h : Steady pubkey c)
    (hstep : Step env c c') : Steady pubkey c' := by
  cases hstep with
  | handle _ => exact ⟨h.myPubkey, h.nodePubkey, h.agrees.handled _⟩
  | loop hstep => exact h.loopStep hstep
  | changeIdentity hnewKey hnew =>
    rw [hident] at hnewKey
    subst hnewKey
    rcases hnew with hnew | hnew
    · exact absurd h.myPubkey hnew
    · exact absurd h.nodePubkey hnew
  | initializeGenesis hlast hgen =>
    refine ⟨h.myPubkey, ?_, h.agrees.initializeGenesis hlast hgen⟩
    exact (initializeGenesis_nodePubkey hgen).trans h.nodePubkey
  | reconcileRoot _ => exact ⟨h.myPubkey, h.nodePubkey, h.agrees⟩

theorem processEvent (hident : ∀ clock, env.identity clock = pubkey) {s : HandlerState}
    (h : Steady pubkey s.core) (event : VotorEvent) :
    Ensures (EventHandler.processEvent env event) s (fun _ s' => Steady pubkey s'.core)
      (fun _ s' => Steady pubkey s'.core) :=
  (processEvent_reaches event).invariant (fun _ _ h hstep => h.step hident hstep) h

end Steady

/-- Whatever the events, the votes of one identity do not contradict each other: each
slot gets at most one notarize or skip vote, at most one finalize vote, which follows a
notarize vote for a block reported as notarized, and no finalize vote beside a skip,
skip fallback or notarize fallback vote. -/
theorem no_equivocation (env : Environment) (pubkey root : ℕ) (s : HandlerState)
    (events : List VotorEvent) (hidentity : ∀ clock, env.identity clock = pubkey)
    (hpubkey : s.myPubkey = pubkey) (hfresh : s.voteHistory = VoteHistory.new pubkey root)
    (htrace : s.trace = []) :
    Ensures (eventLoop env events) s (fun _ s' => NoEquivocation s'.trace)
      (fun _ s' => NoEquivocation s'.trace) := by
  have hsteady : Steady pubkey s.core := by
    constructor
    · exact hpubkey
    · rw [core_history, hfresh]
      rfl
    · rw [core_history, core_trace, hfresh, htrace]
      exact agrees_new pubkey root
  apply ((eventLoop_reaches events).invariant
    (fun _ _ h hstep => h.step hidentity hstep) hsteady).mono
  · exact fun _ _ h => h.agrees.noEquivocation
  · exact fun _ _ h => h.agrees.noEquivocation

/-- A block after genesis is notarized and finalized. -/
theorem no_equivocation_finalized :
    Ensures (eventLoop (.undisturbed 1 (fun _ => 0) monotone_const)
        [.setIdentity, .parentReady 1 ⟨0, 7⟩,
          .block ⟨1, ⟨1, some 11, 0, some ⟨0, some 7⟩, 5, none⟩, rfl⟩,
          .blockNotarized ⟨1, 11⟩, .timeout 2]) (.start 1 ⟨0, 7⟩)
      (fun _ s' => recordedVotes s'.trace =
          [.notarize ⟨1, 11⟩, .finalize 1, .skip 2, .skip 3] ∧ NoEquivocation s'.trace)
      (fun _ _ => False) := by
  have hrun : Ensures (eventLoop (.undisturbed 1 (fun _ => 0) monotone_const)
        [.setIdentity, .parentReady 1 ⟨0, 7⟩,
          .block ⟨1, ⟨1, some 11, 0, some ⟨0, some 7⟩, 5, none⟩, rfl⟩,
          .blockNotarized ⟨1, 11⟩, .timeout 2]) (.start 1 ⟨0, 7⟩)
      (fun _ s' => recordedVotes s'.trace =
          [.notarize ⟨1, 11⟩, .finalize 1, .skip 2, .skip 3]) (fun _ _ => False) := by
    decide +kernel
  have hsafe := no_equivocation (.undisturbed 1 (fun _ => 0) monotone_const) 1 0
    (.start 1 ⟨0, 7⟩) [.setIdentity, .parentReady 1 ⟨0, 7⟩,
      .block ⟨1, ⟨1, some 11, 0, some ⟨0, some 7⟩, 5, none⟩, rfl⟩,
      .blockNotarized ⟨1, 11⟩, .timeout 2] (fun _ => rfl) rfl rfl rfl
  exact (hrun.and hsafe).mono (fun _ _ h => h) (fun _ _ h => h.1)

end RakuraiValidator.Votor
