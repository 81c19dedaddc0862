import RakuraiValidator.VotorNodeInvariant

/-!
# Honest validators are not banned

The votes which a validator casts for a slot do not contradict each other in the
sense of the signature verifiers of the other validators, in whatever order they
arrive.  For the fallback votes this rests on the stakes with which the own pool
raised the events: at most three blocks of a slot are safe to notarize.
-/

namespace RakuraiValidator.Votor

open Stateful Sigverify Bitmap Traces SlotStakeCounters SlotEntry Finset

variable {σ : Type} [AddCommGroup σ]

def firstVotes (slot : ℕ) (blockIds : Finset ℕ) : Finset Vote :=
  insert (.skip slot) (blockIds.image (fun blockId => .notarize ⟨slot, blockId⟩))

variable {slot : ℕ} {block : Block} {blockIds : Finset ℕ}

theorem of_mem_firstVotes {vote : Vote} (h : vote ∈ firstVotes slot blockIds) :
    vote.isNotarizeOrSkip = true ∧ vote.slot = slot := by
  rcases mem_insert.mp h with heq | hmem
  · subst heq
    exact ⟨rfl, rfl⟩
  · rcases mem_image.mp hmem with ⟨blockId, _, heq⟩
    subst heq
    exact ⟨rfl, rfl⟩

theorem notarize_mem_firstVotes (h : .notarize block ∈ firstVotes slot blockIds) :
    block.blockId ∈ blockIds := by
  rcases mem_insert.mp h with heq | hmem
  · cases heq
  · rcases mem_image.mp hmem with ⟨blockId, hblockId, heq⟩
    cases heq
    exact hblockId

namespace Node.Invariant

variable {setting : Setting σ} {cast : ℕ → Vote → Prop} {notarized : Block → Prop}
  {node : Node σ}

/-! ## The stakes of a slot -/

variable (h : Invariant setting cast notarized node)

include h

theorem noEquivocation : NoEquivocation node.handler.trace :=
  h.steady.agrees.noEquivocation

theorem eq_of_mem_voters {vote vote' : Vote} {rank : ℕ} (hrank : rank ∈ node.voters vote)
    (hrank' : rank ∈ node.voters vote') (hfirst : vote.isNotarizeOrSkip = true)
    (hfirst' : vote'.isNotarizeOrSkip = true) (hslot : vote.slot = vote'.slot) : vote = vote' := by
  rcases (h.voters vote rank hrank).2 with ⟨hkept, _⟩ | ⟨hown, hrec⟩
  · rcases (h.voters vote' rank hrank').2 with ⟨hkept', _⟩ | ⟨hown', _⟩
    · exact h.kept.exclusive rank vote vote' hkept hkept' hfirst hfirst' hslot
    · rw [← hslot] at hown'
      exact absurd hown' (h.keptCast rank vote hkept).2
  · rcases (h.voters vote' rank hrank').2 with ⟨hkept', _⟩ | ⟨_, hrec'⟩
    · rw [hslot] at hown
      exact absurd hown (h.keptCast rank vote' hkept').2
    · exact h.noEquivocation.eq_of_slot_eq hrec hrec' hfirst hfirst' hslot

theorem skip_add_notarize_eq (slot : ℕ) (blockIds : Finset ℕ) :
    skipStake setting node.voters slot +
        ∑ blockId ∈ blockIds, notarizeStake setting node.voters slot blockId =
      (setting.rankMap slot).stake ((firstVotes slot blockIds).biUnion node.voters) := by
  have hdisj : (firstVotes slot blockIds : Set Vote).PairwiseDisjoint node.voters := by
    intro vote hvote vote' hvote' hne
    apply disjoint_left.mpr
    intro rank hrank hrank'
    rcases of_mem_firstVotes hvote with ⟨hfirst, hslot⟩
    rcases of_mem_firstVotes hvote' with ⟨hfirst', hslot'⟩
    exact hne (h.eq_of_mem_voters hrank hrank' hfirst hfirst' (hslot.trans hslot'.symm))
  unfold RankMap.stake
  rw [sum_biUnion hdisj, firstVotes, sum_insert (by simp), sum_image]
  · rfl
  · intro blockId _ blockId' _ heq
    simpa using heq

theorem biUnion_voters_subset (slot : ℕ) (blockIds : Finset ℕ) :
    (firstVotes slot blockIds).biUnion node.voters ⊆
      range (setting.rankMap slot).maxValidators := by
  intro rank hrank
  rcases mem_biUnion.mp hrank with ⟨vote, hvote, hmem⟩
  have hlt := (h.voters vote rank hmem).1
  rw [(of_mem_firstVotes hvote).2] at hlt
  exact mem_range.mpr hlt

theorem skip_add_notarize_le (slot : ℕ) (blockIds : Finset ℕ) :
    skipStake setting node.voters slot +
        ∑ blockId ∈ blockIds, notarizeStake setting node.voters slot blockId ≤
      (setting.rankMap slot).totalStake := by
  calc skipStake setting node.voters slot +
        ∑ blockId ∈ blockIds, notarizeStake setting node.voters slot blockId
      = (setting.rankMap slot).stake ((firstVotes slot blockIds).biUnion node.voters) :=
        h.skip_add_notarize_eq slot blockIds
    _ ≤ (setting.rankMap slot).stake (range (setting.rankMap slot).maxValidators) :=
        RankMap.stake_mono _ (h.biUnion_voters_subset slot blockIds)
    _ = (setting.rankMap slot).totalStake := (setting.rankMap slot).sum_stake

/-! ## The recorded votes -/

theorem raisedNotar (hvote : .notarizeFallback block ∈ recordedVotes node.handler.trace) :
    RaisedNotar setting (recordedVotes node.handler.trace) node.voters block := by
  rcases h.noEquivocation.justified.of_mem (mem_recordedVotes.mp hvote) with
    ⟨past, hpast, hhandled⟩
  exact h.handledNotar block (hpast hhandled)

theorem raisedSkip (hvote : .skipFallback slot ∈ recordedVotes node.handler.trace) :
    RaisedSkip setting (recordedVotes node.handler.trace) node.voters slot := by
  rcases h.noEquivocation.justified.of_mem (mem_recordedVotes.mp hvote) with
    ⟨past, hpast, hhandled⟩
  exact h.handledSkip slot (hpast hhandled)

theorem slot_ne_of_skip (hskip : .skip slot ∈ recordedVotes node.handler.trace)
    (hnotar : .notarize block ∈ recordedVotes node.handler.trace) : block.slot ≠ slot := by
  intro hslot
  have heq := h.noEquivocation.eq_of_slot_eq hskip hnotar rfl rfl hslot.symm
  cases heq

theorem compatible (slot : ℕ) : Compatible slot (recordedVotes node.handler.trace) := by
  have hexcl := h.noEquivocation.exclusive slot
  constructor
  · exact fun block hvote => h.genesis block (mem_recordedVotes.mp hvote)
  · intro hskip
    refine ⟨?_, ?_, ?_⟩
    · intro hfall
      rcases (h.raisedSkip hfall).1 with ⟨block, hnotar, hslot⟩
      exact h.slot_ne_of_skip hskip hnotar hslot
    · intro hfin
      cases hexcl hfin _ hskip rfl
    · exact fun blockId hnotar => h.slot_ne_of_skip hskip hnotar rfl
  · intro hfin
    refine ⟨?_, ?_⟩
    · intro hfall
      cases hexcl hfin _ hfall rfl
    · intro blockId hfall
      cases hexcl hfin _ hfall rfl
  · intro blockId blockId' hvote hvote'
    have heq := h.noEquivocation.eq_of_slot_eq hvote hvote' rfl rfl rfl
    simpa using heq
  · intro blockId hfall hvote
    rcases (h.raisedNotar hfall).1 with ⟨first, hrec, hfirst, hslot, hne⟩
    exact hne (h.noEquivocation.eq_of_slot_eq hrec hvote hfirst rfl hslot)
  · intro blockIds hblockIds
    exact SafeToNotarStakes.card_le
      (fun blockId hmem => (h.raisedNotar (hblockIds blockId hmem)).2)
      (setting.rankMap slot).totalStake.pos (h.skip_add_notarize_le slot blockIds)

end Node.Invariant

/-- Whatever order and how often the votes of a validator for a slot arrive, and
whatever other ranks vote in between, the verifier never finds one of them to be in
conflict with the others. -/
theorem honest_votes_never_invalid [DecidableEq σ] (setting : Setting σ)
    (cast : ℕ → Vote → Prop) (notarized : Block → Prop) (node : Node σ)
    (hreachable : Node.Reachable setting cast notarized node) (slot rank : ℕ)
    (deliveries : List (ℕ × Vote)) (hslot : ∀ delivery ∈ deliveries, delivery.2.slot = slot)
    (hcast : ∀ delivery ∈ deliveries, delivery.1 = rank →
      delivery.2 ∈ recordedVotes node.handler.trace)
    (before after : List (ℕ × Vote)) (vote : Vote)
    (hsplit : deliveries = before ++ (rank, vote) :: after) :
    (before.foldl deliver .new).tryAddVote vote rank ≠ .error .invalid := by
  have hinvariant := Node.Invariant.reachable hreachable
  have hvotes := hinvariant.compatible slot
  have hmem : (rank, vote) ∈ deliveries := by simp [hsplit]
  have hbefore : before ⊆ deliveries := by simp [hsplit]
  have hwithin : SlotEntry.Within slot (recordedVotes node.handler.trace)
      (before.foldl deliver .new) rank :=
    within_new.foldl_deliver hvotes
      (fun delivery hdelivery => hslot delivery (hbefore hdelivery))
      (fun delivery hdelivery => hcast delivery (hbefore hdelivery))
  have hnot := hwithin.not_conflicts hvotes (hcast _ hmem rfl) (hslot _ hmem)
  rcases tryAddVote_cases (before.foldl deliver .new) vote rank with
    ⟨hconflicts, _⟩ | ⟨_, heq⟩ | ⟨_, _, heq⟩
  · exact absurd hconflicts hnot
  · simp [heq]
  · simp [heq]

/-- One validator with all of the stake, which notarizes and finalizes the block after
genesis; its votes arrive in the other order, and one of them twice. -/
theorem honest_votes_never_invalid_finalized :
    let setting : Setting ℤ := .alone (.undisturbed 1 (fun _ => 0) monotone_const) 1
      (fun _ => rfl)
    let node := ((((Node.start setting .preFeatureActivation ⟨0, 7⟩).handle setting
      .setIdentity).handle setting (.parentReady 1 ⟨0, 7⟩)).handle setting
      (.block ⟨1, ⟨1, some 11, 0, some ⟨0, some 7⟩, 5, none⟩, rfl⟩)).handle setting
      (.blockNotarized ⟨1, 11⟩)
    recordedVotes node.handler.trace = [.notarize ⟨1, 11⟩, .finalize 1] ∧
      ([(0, .finalize 1), (0, .finalize 1)].foldl deliver .new).tryAddVote
        (.notarize ⟨1, 11⟩) 0 ≠ .error .invalid := by
  intro setting node
  have hrecorded : recordedVotes node.handler.trace = [.notarize ⟨1, 11⟩, .finalize 1] := by
    decide +kernel
  have hreachable : Node.Reachable setting (fun _ _ => False) (fun _ => True) node :=
    ((((Node.reachable_start setting .preFeatureActivation ⟨0, 7⟩).handle
      .setIdentity trivial).handle (.parentReady 1 ⟨0, 7⟩) trivial).handle
      (.block ⟨1, ⟨1, some 11, 0, some ⟨0, some 7⟩, 5, none⟩, rfl⟩) trivial).handle
      (.blockNotarized ⟨1, 11⟩) trivial
  refine ⟨hrecorded, ?_⟩
  exact honest_votes_never_invalid setting _ _ node hreachable 1 0
    [(0, .finalize 1), (0, .finalize 1), (0, .notarize ⟨1, 11⟩)] (by decide)
    (by rw [hrecorded]; decide) _ [] _ rfl

end RakuraiValidator.Votor
