import Mathlib.Data.Finset.Card
import RakuraiValidator.OrderedMap
import RakuraiValidator.VotorMessages

/-!
# The vote pool of the signature verifier

The signature verifier keeps for each slot what every rank voted, drops repeated
votes and bans the sender of a vote which contradicts an earlier one.  The vectors
over the ranks are functions; a rank of the rank map is in range for all of them.
-/

namespace RakuraiValidator.Votor.Sigverify

open BTreeMap Function List

attribute [local simp] Vote.slot

def maxNotarFallbackEntries : ℕ := 3

inductive VotePoolError
  | invalid
  | duplicate
deriving DecidableEq

structure SlotEntry where
  skip : ℕ → Bool
  skipFallback : ℕ → Bool
  finalize : ℕ → Bool
  genesis : ℕ → Option ℕ
  notar : ℕ → Option ℕ
  notarFallback : ℕ → List ℕ

variable {otherRank : ℕ} (pool : VotePool)

namespace SlotEntry

def new : SlotEntry where
  skip := fun _ => false
  skipFallback := fun _ => false
  finalize := fun _ => false
  genesis := fun _ => none
  notar := fun _ => none
  notarFallback := fun _ => []

variable (entry : SlotEntry)

def tryAddVote (vote : Vote) (rank : ℕ) : Except VotePoolError SlotEntry :=
  match vote with
  | .skip _ =>
    if (entry.notar rank).isSome || entry.finalize rank || entry.skipFallback rank ||
        (entry.genesis rank).isSome then .error .invalid
    else if entry.skip rank then .error .duplicate
    else .ok { entry with skip := update entry.skip rank true }
  | .skipFallback _ =>
    if entry.finalize rank || entry.skip rank || (entry.genesis rank).isSome then
      .error .invalid
    else if entry.skipFallback rank then .error .duplicate
    else .ok { entry with skipFallback := update entry.skipFallback rank true }
  | .finalize _ =>
    if entry.skip rank || entry.skipFallback rank || !(entry.notarFallback rank).isEmpty ||
        (entry.genesis rank).isSome then .error .invalid
    else if entry.finalize rank then .error .duplicate
    else .ok { entry with finalize := update entry.finalize rank true }
  | .genesis block =>
    if entry.skip rank || entry.skipFallback rank || entry.finalize rank ||
        (entry.notar rank).isSome || !(entry.notarFallback rank).isEmpty then .error .invalid
    else
      match entry.genesis rank with
      | none =>
        .ok { entry with genesis := update entry.genesis rank (some block.blockId) }
      | some blockId =>
        if blockId = block.blockId then .error .duplicate else .error .invalid
  | .notarize block =>
    if entry.skip rank || (entry.genesis rank).isSome ||
        block.blockId ∈ entry.notarFallback rank then .error .invalid
    else
      match entry.notar rank with
      | none =>
        .ok { entry with notar := update entry.notar rank (some block.blockId) }
      | some blockId =>
        if blockId = block.blockId then .error .duplicate else .error .invalid
  | .notarizeFallback block =>
    if block.blockId ∈ entry.notarFallback rank then .error .duplicate
    else if entry.finalize rank || (entry.genesis rank).isSome ||
        maxNotarFallbackEntries ≤ (entry.notarFallback rank).length then .error .invalid
    else if entry.notar rank = some block.blockId then .error .invalid
    else
      .ok { entry with
        notarFallback := update entry.notarFallback rank
          (entry.notarFallback rank ++ [block.blockId]) }

def has (rank : ℕ) : Vote → Prop
  | .skip _ => entry.skip rank = true
  | .skipFallback _ => entry.skipFallback rank = true
  | .finalize _ => entry.finalize rank = true
  | .genesis block => entry.genesis rank = some block.blockId
  | .notarize block => entry.notar rank = some block.blockId
  | .notarizeFallback block => block.blockId ∈ entry.notarFallback rank

def record (vote : Vote) (rank : ℕ) : SlotEntry :=
  match vote with
  | .skip _ => { entry with skip := update entry.skip rank true }
  | .skipFallback _ => { entry with skipFallback := update entry.skipFallback rank true }
  | .finalize _ => { entry with finalize := update entry.finalize rank true }
  | .genesis block =>
    { entry with genesis := update entry.genesis rank (some block.blockId) }
  | .notarize block =>
    { entry with notar := update entry.notar rank (some block.blockId) }
  | .notarizeFallback block =>
    { entry with
      notarFallback := update entry.notarFallback rank
        (entry.notarFallback rank ++ [block.blockId]) }

def Conflicts (rank : ℕ) : Vote → Prop
  | .skip _ => (entry.notar rank).isSome = true ∨ entry.finalize rank = true ∨
      entry.skipFallback rank = true ∨ (entry.genesis rank).isSome = true
  | .skipFallback _ =>
    entry.finalize rank = true ∨ entry.skip rank = true ∨ (entry.genesis rank).isSome = true
  | .finalize _ => entry.skip rank = true ∨ entry.skipFallback rank = true ∨
      entry.notarFallback rank ≠ [] ∨ (entry.genesis rank).isSome = true
  | .genesis block => entry.skip rank = true ∨ entry.skipFallback rank = true ∨
      entry.finalize rank = true ∨ (entry.notar rank).isSome = true ∨ entry.notarFallback rank ≠ [] ∨
      (entry.genesis rank ≠ none ∧ entry.genesis rank ≠ some block.blockId)
  | .notarize block => entry.skip rank = true ∨ (entry.genesis rank).isSome = true ∨
      block.blockId ∈ entry.notarFallback rank ∨
      (entry.notar rank ≠ none ∧ entry.notar rank ≠ some block.blockId)
  | .notarizeFallback block => block.blockId ∉ entry.notarFallback rank ∧
      (entry.finalize rank = true ∨ (entry.genesis rank).isSome = true ∨
        maxNotarFallbackEntries ≤ (entry.notarFallback rank).length ∨
        entry.notar rank = some block.blockId)

variable {entry entry' : SlotEntry} {vote : Vote} {rank : ℕ}

theorem tryAddVote_cases (entry : SlotEntry) (vote : Vote) (rank : ℕ) :
    (entry.Conflicts rank vote ∧ entry.tryAddVote vote rank = .error .invalid) ∨
    (entry.has rank vote ∧ entry.tryAddVote vote rank = .error .duplicate) ∨
    (¬ entry.Conflicts rank vote ∧ ¬ entry.has rank vote ∧
      entry.tryAddVote vote rank = .ok (entry.record vote rank)) := by
  cases vote with
  | skip slot | skipFallback slot | finalize slot | notarizeFallback block =>
    simp only [tryAddVote, Conflicts, has, record]
    grind
  | genesis block =>
    simp only [tryAddVote, Conflicts, has, record]
    split_ifs with hother
    · exact .inl ⟨by grind, rfl⟩
    · cases entry.genesis rank <;> grind
  | notarize block =>
    simp only [tryAddVote, Conflicts, has, record]
    cases entry.notar rank <;> grind

theorem blockId_eq_iff {block block' : Block} (hslot : block.slot = block'.slot) :
    block.blockId = block'.blockId ↔ block = block' := by
  cases block
  cases block'
  simp_all

theorem has_record {other : Vote} (hslot : other.slot = vote.slot)
    (hnew : ¬ entry.Conflicts rank vote) (hfresh : ¬ entry.has rank vote) :
    (entry.record vote rank).has otherRank other ↔
      entry.has otherRank other ∨ (otherRank = rank ∧ other = vote) := by
  by_cases hrank : otherRank = rank
  · subst hrank
    cases vote with
    | skip slot | skipFallback slot | finalize slot =>
      cases other <;> simp_all [record, has]
    | genesis block =>
      have hnone : entry.genesis otherRank = none := by
        simp only [Conflicts, has] at hnew hfresh
        tauto
      cases other with
      | genesis block' =>
        rw [Vote.genesis.injEq, ← blockId_eq_iff hslot]
        simp [record, has, hnone, eq_comm]
      | _ => simp [record, has]
    | notarize block =>
      have hnone : entry.notar otherRank = none := by
        simp only [Conflicts, has] at hnew hfresh
        tauto
      cases other with
      | notarize block' =>
        rw [Vote.notarize.injEq, ← blockId_eq_iff hslot]
        simp [record, has, hnone, eq_comm]
      | _ => simp [record, has]
    | notarizeFallback block =>
      cases other with
      | notarizeFallback block' =>
        rw [Vote.notarizeFallback.injEq, ← blockId_eq_iff hslot]
        simp [record, has]
      | _ => simp [record, has]
  · cases vote <;> cases other <;> simp [record, has, hrank]

def Exclusive (entry : SlotEntry) : Prop :=
  ∀ rank, entry.skip rank = true → entry.notar rank = none

theorem exclusive_new : SlotEntry.new.Exclusive := by
  intro rank hskip
  cases hskip

theorem Exclusive.record (h : entry.Exclusive) (hnew : ¬ entry.Conflicts rank vote) :
    (entry.record vote rank).Exclusive := by
  intro otherRank
  have hother := h otherRank
  by_cases hrank : otherRank = rank
  · subst hrank
    cases vote <;> simp_all [SlotEntry.record, Conflicts]
  · cases vote <;> simpa [SlotEntry.record, hrank] using hother

theorem Exclusive.eq_of_has {vote' : Vote} (h : entry.Exclusive) (hvote : entry.has rank vote)
    (hvote' : entry.has rank vote') (hfirst : vote.isNotarizeOrSkip = true)
    (hfirst' : vote'.isNotarizeOrSkip = true) (hslot : vote.slot = vote'.slot) :
    vote = vote' := by
  have hexcl := h rank
  cases vote <;> cases vote' <;>
    simp_all [has, Vote.isNotarizeOrSkip, ← blockId_eq_iff]

end SlotEntry

attribute [local simp] SlotEntry.record

/-! ## Votes of one validator -/

/-- Votes of a validator for a slot which do not contradict each other. -/
structure Compatible (slot : ℕ) (votes : List Vote) : Prop where
  genesis : ∀ block, .genesis block ∉ votes
  skip : .skip slot ∈ votes → .skipFallback slot ∉ votes ∧ .finalize slot ∉ votes ∧
    ∀ blockId, .notarize ⟨slot, blockId⟩ ∉ votes
  finalize : .finalize slot ∈ votes → .skipFallback slot ∉ votes ∧
    ∀ blockId, .notarizeFallback ⟨slot, blockId⟩ ∉ votes
  notarize : ∀ blockId blockId', .notarize ⟨slot, blockId⟩ ∈ votes →
    .notarize ⟨slot, blockId'⟩ ∈ votes → blockId = blockId'
  fallback : ∀ blockId, .notarizeFallback ⟨slot, blockId⟩ ∈ votes →
    .notarize ⟨slot, blockId⟩ ∉ votes
  limit : ∀ blockIds : Finset ℕ, (∀ blockId ∈ blockIds, .notarizeFallback ⟨slot, blockId⟩ ∈ votes) →
    blockIds.card ≤ maxNotarFallbackEntries

namespace SlotEntry

structure Within (slot : ℕ) (votes : List Vote) (entry : SlotEntry) (rank : ℕ) : Prop where
  skip : entry.skip rank = true → .skip slot ∈ votes
  skipFallback : entry.skipFallback rank = true → .skipFallback slot ∈ votes
  finalize : entry.finalize rank = true → .finalize slot ∈ votes
  genesis : entry.genesis rank = none
  notar : ∀ blockId ∈ entry.notar rank, .notarize ⟨slot, blockId⟩ ∈ votes
  notarFallback : ∀ blockId ∈ entry.notarFallback rank, .notarizeFallback ⟨slot, blockId⟩ ∈ votes
  nodup : (entry.notarFallback rank).Nodup

variable {entry : SlotEntry} {slot rank : ℕ} {votes : List Vote} {vote : Vote}

theorem within_new : Within slot votes SlotEntry.new rank := by
  constructor <;> simp [SlotEntry.new]

section

variable (h : Within slot votes entry rank)

include h

theorem Within.not_conflicts (hvotes : Compatible slot votes) (hvote : vote ∈ votes)
    (hslot : vote.slot = slot) : ¬ entry.Conflicts rank vote := by
  cases vote with
  | skip slot' =>
    cases hslot
    rcases hvotes.skip hvote with ⟨hfall, hfinal, hnotar⟩
    rintro (hconfl | hconfl | hconfl | hconfl)
    · rcases Option.isSome_iff_exists.mp hconfl with ⟨blockId, heq⟩
      exact hnotar blockId (h.notar blockId heq)
    · exact hfinal (h.finalize hconfl)
    · exact hfall (h.skipFallback hconfl)
    · simp [h.genesis] at hconfl
  | skipFallback slot' =>
    cases hslot
    rintro (hconfl | hconfl | hconfl)
    · exact (hvotes.finalize (h.finalize hconfl)).1 hvote
    · exact (hvotes.skip (h.skip hconfl)).1 hvote
    · simp [h.genesis] at hconfl
  | finalize slot' =>
    cases hslot
    rintro (hconfl | hconfl | hconfl | hconfl)
    · exact (hvotes.skip (h.skip hconfl)).2.1 hvote
    · exact (hvotes.finalize hvote).1 (h.skipFallback hconfl)
    · rcases exists_mem_of_ne_nil _ hconfl with ⟨blockId, hmem⟩
      exact (hvotes.finalize hvote).2 blockId (h.notarFallback blockId hmem)
    · simp [h.genesis] at hconfl
  | genesis block => exact absurd hvote (hvotes.genesis block)
  | notarize block =>
    cases block with
    | mk slot' blockId =>
      cases hslot
      rintro (hconfl | hconfl | hconfl | ⟨hsome, hother⟩)
      · exact (hvotes.skip (h.skip hconfl)).2.2 blockId hvote
      · simp [h.genesis] at hconfl
      · exact hvotes.fallback blockId (h.notarFallback blockId hconfl) hvote
      · rcases Option.ne_none_iff_exists'.mp hsome with ⟨blockId', heq⟩
        apply hother
        rw [heq, hvotes.notarize blockId blockId' hvote (h.notar blockId' heq)]
  | notarizeFallback block =>
    cases block with
    | mk slot' blockId =>
      cases hslot
      rintro ⟨hnew, hconfl | hconfl | hconfl | hconfl⟩
      · exact (hvotes.finalize (h.finalize hconfl)).2 blockId hvote
      · simp [h.genesis] at hconfl
      · -- the recorded blocks and the new one are within the limit
        have hcard := hvotes.limit (blockId :: entry.notarFallback rank).toFinset (by
          intro other hother
          rcases mem_cons.mp (mem_toFinset.mp hother) with heq | hold
          · rw [heq]
            exact hvote
          · exact h.notarFallback other hold)
        rw [toFinset_card_of_nodup (nodup_cons.mpr ⟨hnew, h.nodup⟩)] at hcard
        simp only [length_cons] at hcard
        omega
      · exact hvotes.fallback blockId hvote (h.notar blockId hconfl)

theorem Within.record (hvote : vote ∈ votes) (hslot : vote.slot = slot)
    (hgen : ∀ block, vote ≠ .genesis block) (hfresh : ¬ entry.has rank vote) :
    Within slot votes (entry.record vote rank) rank := by
  cases vote with
  | skip slot' =>
    cases hslot
    refine ⟨fun _ => hvote, h.2, h.3, h.4, h.5, h.6, h.7⟩
  | skipFallback slot' =>
    cases hslot
    exact ⟨h.1, fun _ => hvote, h.3, h.4, h.5, h.6, h.7⟩
  | finalize slot' =>
    cases hslot
    exact ⟨h.1, h.2, fun _ => hvote, h.4, h.5, h.6, h.7⟩
  | genesis block => exact absurd rfl (hgen block)
  | notarize block =>
    cases block with
    | mk slot' blockId =>
      cases hslot
      refine ⟨h.1, h.2, h.3, h.4, ?_, h.6, h.7⟩
      simpa using hvote
  | notarizeFallback block =>
    cases block with
    | mk slot' blockId =>
      cases hslot
      refine ⟨h.1, h.2, h.3, h.4, h.5, ?_, ?_⟩
      · intro other hother
        simp only [SlotEntry.record, update_self, mem_append, mem_singleton] at hother
        rcases hother with hold | heq
        · exact h.notarFallback other hold
        · rw [heq]
          exact hvote
      · simp only [SlotEntry.record, update_self]
        exact nodup_append'.mpr ⟨h.nodup, nodup_singleton _, by simpa [has] using hfresh⟩

theorem Within.record_other (hrank : rank ≠ otherRank) :
    Within slot votes (entry.record vote otherRank) rank := by
  cases vote <;>
    exact ⟨by simpa [hrank] using h.1, by simpa [hrank] using h.2,
      by simpa [hrank] using h.3, by simpa [hrank] using h.4,
      by simpa [hrank] using h.5, by simpa [hrank] using h.6,
      by simpa [hrank] using h.7⟩

end

def deliver (entry : SlotEntry) (delivery : ℕ × Vote) : SlotEntry :=
  match entry.tryAddVote delivery.2 delivery.1 with
  | .ok entry => entry
  | .error _ => entry

variable (h : Within slot votes entry rank) (hvotes : Compatible slot votes)

include h hvotes

theorem Within.deliver {delivery : ℕ × Vote} (hslot : delivery.2.slot = slot)
    (hdelivery : delivery.1 = rank → delivery.2 ∈ votes) :
    Within slot votes (entry.deliver delivery) rank := by
  unfold SlotEntry.deliver
  rcases tryAddVote_cases entry delivery.2 delivery.1 with
    ⟨_, heq⟩ | ⟨_, heq⟩ | ⟨_, hfresh, heq⟩
  · rw [heq]
    exact h
  · rw [heq]
    exact h
  · rw [heq]
    by_cases hrank : delivery.1 = rank
    · have hvote := hdelivery hrank
      rw [hrank] at hfresh ⊢
      apply h.record hvote hslot _ hfresh
      intro block hgen
      exact hvotes.genesis block (hgen ▸ hvote)
    · exact h.record_other (Ne.symm hrank)

theorem Within.foldl_deliver {deliveries : List (ℕ × Vote)}
    (hslot : ∀ delivery ∈ deliveries, delivery.2.slot = slot)
    (hdeliv : ∀ delivery ∈ deliveries, delivery.1 = rank → delivery.2 ∈ votes) :
    Within slot votes (deliveries.foldl SlotEntry.deliver entry) rank := by
  induction deliveries generalizing entry with
  | nil => exact h
  | cons delivery deliveries ih =>
    rw [forall_mem_cons] at hslot hdeliv
    exact ih (h.deliver hvotes hslot.1 hdeliv.1) hslot.2 hdeliv.2

end SlotEntry

/-! ## The verifier -/

def numSlotsForReward : ℕ := 8

/-- The vote pool of the verifier: the entries of the slots. -/
structure VotePool where
  entries : BTreeMap ℕ SlotEntry

namespace VotePool

def entry (pool : VotePool) (slot : ℕ) : SlotEntry := (pool.entries.get? slot).getD .new

def tryAddVote (pool : VotePool) (vote : Vote) (rank maxValidators : ℕ) :
    VotePool × Except VotePoolError Unit :=
  if maxValidators ≤ rank then (pool, .error .invalid)
  else
    match (pool.entry vote.slot).tryAddVote vote rank with
    | .ok entry => (⟨(pool.entries.insert vote.slot entry).2⟩, .ok ())
    | .error error =>
      (⟨(pool.entries.insert vote.slot (pool.entry vote.slot)).2⟩, .error error)

def prune (pool : VotePool) (rootSlot : ℕ) : VotePool :=
  ⟨pool.entries.retain (fun slot _ => rootSlot - numSlotsForReward ≤ slot)⟩

end VotePool

/-- What the filter of votes reads from other parts of the validator. -/
structure VoteFilter where
  maxVoteSlot : ℕ
  migrationSlot : Option ℕ
  isLeader : ℕ → Bool

namespace VoteFilter

variable (filter : VoteFilter)

def rewardsWantsVote (rootSlot : ℕ) (vote : Vote) : Bool :=
  vote.isNotarizeOrSkip && rootSlot < vote.slot + numSlotsForReward &&
    filter.isLeader (vote.slot + numSlotsForReward)

def isInRange : Vote → Bool
  | .genesis block => filter.migrationSlot.any (block.slot < ·)
  | vote => vote.slot ≤ filter.maxVoteSlot

/-- Genesis votes are allowed at the root, other votes at or below it only for rewards. -/
def wants (rootSlot : ℕ) (vote : Vote) : Bool :=
  filter.isInRange vote &&
    (rootSlot < vote.slot ||
      (match vote with
        | .genesis block => decide (block.slot = rootSlot)
        | _ => false) ||
      filter.rewardsWantsVote rootSlot vote)

end VoteFilter

structure SigVerifier where
  votePool : VotePool
  lastCheckedRootSlot : ℕ

namespace SigVerifier

def new : SigVerifier := ⟨⟨.empty⟩, 0⟩

variable (verifier : SigVerifier)

def maybePruneCaches (rootSlot : ℕ) : SigVerifier :=
  if verifier.lastCheckedRootSlot < rootSlot then
    ⟨verifier.votePool.prune rootSlot, rootSlot⟩
  else verifier

/-- A vote of another validator with the given rank; a vote which is not wanted has
no result. -/
def keepVote (filter : VoteFilter) (rootSlot : ℕ) (vote : Vote)
    (rank maxValidators : ℕ) : SigVerifier × Option (Except VotePoolError Unit) :=
  if filter.wants rootSlot vote then
    let (votePool, result) := verifier.votePool.tryAddVote vote rank maxValidators
    ({ verifier with votePool := votePool }, some result)
  else (verifier, none)

def receive (filter : VoteFilter) (rootSlot : ℕ) (vote : Vote)
    (rank maxValidators : ℕ) : SigVerifier × Option (Except VotePoolError Unit) :=
  (verifier.maybePruneCaches rootSlot).keepVote filter rootSlot vote rank maxValidators

/-- The votes which the verifier kept are in its pool until they are too old. -/
structure Kept (verifier : SigVerifier) (kept : Finset (ℕ × Vote)) : Prop where
  has : ∀ rank vote, (rank, vote) ∈ kept →
    verifier.lastCheckedRootSlot - numSlotsForReward ≤ vote.slot →
      (verifier.votePool.entry vote.slot).has rank vote
  entries : ∀ slot, (verifier.votePool.entry slot).Exclusive
  exclusive : ∀ rank vote vote', (rank, vote) ∈ kept → (rank, vote') ∈ kept →
    vote.isNotarizeOrSkip = true → vote'.isNotarizeOrSkip = true →
      vote.slot = vote'.slot → vote = vote'

variable {verifier verifier' : SigVerifier} {kept : Finset (ℕ × Vote)} {filter : VoteFilter}
  {rootSlot rank maxValidators : ℕ} {vote : Vote}

theorem kept_new : Kept SigVerifier.new ∅ where
  has rank vote hmem := by simp at hmem
  entries slot := by
    simp only [new, VotePool.entry, get?_empty]
    exact SlotEntry.exclusive_new
  exclusive rank vote vote' hmem := by simp at hmem

variable (slot : ℕ)

theorem entry_prune :
    (pool.prune rootSlot).entry slot =
      if rootSlot - numSlotsForReward ≤ slot then pool.entry slot else .new := by
  simp only [VotePool.entry, VotePool.prune,
    get?_retain _ (fun slot => decide (rootSlot - numSlotsForReward ≤ slot)),
    decide_eq_true_eq]
  split <;> rfl

namespace Kept

theorem maybePruneCaches (h : Kept verifier kept) :
    Kept (verifier.maybePruneCaches rootSlot) kept := by
  unfold SigVerifier.maybePruneCaches
  split
  next hlt =>
    refine ⟨?_, ?_, h.exclusive⟩
    · intro rank vote hmem hslot
      have hslot' : rootSlot - numSlotsForReward ≤ vote.slot := hslot
      rw [entry_prune, if_pos hslot']
      exact h.has rank vote hmem (by omega)
    · intro slot
      rw [entry_prune]
      split
      · exact h.entries slot
      · exact SlotEntry.exclusive_new
  next => exact h

theorem wants_slot (hwants : filter.wants rootSlot vote = true) :
    rootSlot - numSlotsForReward ≤ vote.slot := by
  simp only [VoteFilter.wants, VoteFilter.rewardsWantsVote, Bool.and_eq_true, Bool.or_eq_true,
    decide_eq_true_eq] at hwants
  rcases hwants.2 with (hlt | hgen) | ⟨⟨_, hlt⟩, _⟩
  · omega
  · cases vote with
    | genesis block =>
      have heq : block.slot = rootSlot := by simpa using hgen
      simp only [Vote.slot]
      omega
    | _ => cases hgen
  · omega

theorem entry_insert (slot slot' : ℕ) (entry : SlotEntry) :
    VotePool.entry ⟨(pool.entries.insert slot entry).2⟩ slot' =
      if slot' = slot then entry else pool.entry slot' := by
  simp only [VotePool.entry, get?_insert]
  split <;> rfl

section

variable (h : Kept verifier kept)

include h

theorem mono {fewer : Finset (ℕ × Vote)} (hsub : fewer ⊆ kept) : Kept verifier fewer where
  has rank vote hmem := h.has rank vote (hsub hmem)
  entries := h.entries
  exclusive rank vote vote' hmem hmem' := h.exclusive rank vote vote' (hsub hmem) (hsub hmem')

theorem refused :
    Kept { verifier with
      votePool := ⟨(verifier.votePool.entries.insert slot (verifier.votePool.entry slot)).2⟩ }
      kept := by
  have hentry : ∀ slot', VotePool.entry
      ⟨(verifier.votePool.entries.insert slot (verifier.votePool.entry slot)).2⟩ slot' =
        verifier.votePool.entry slot' := by
    intro slot'
    rw [entry_insert]
    split
    next heq => rw [heq]
    next => rfl
  refine ⟨?_, ?_, h.exclusive⟩
  · intro rank vote hmem hslot
    rw [hentry]
    exact h.has rank vote hmem hslot
  · intro slot'
    rw [hentry]
    exact h.entries slot'

theorem accepted (hslot : verifier.lastCheckedRootSlot - numSlotsForReward ≤ vote.slot)
    (hnew : ¬ (verifier.votePool.entry vote.slot).Conflicts rank vote)
    (hfresh : ¬ (verifier.votePool.entry vote.slot).has rank vote) :
    Kept { verifier with
      votePool := ⟨(verifier.votePool.entries.insert vote.slot
        ((verifier.votePool.entry vote.slot).record vote rank)).2⟩ }
      (insert (rank, vote) kept) := by
  have hrec : ∀ otherRank other, other.slot = vote.slot →
      (((verifier.votePool.entry vote.slot).record vote rank).has otherRank other ↔
        (verifier.votePool.entry vote.slot).has otherRank other ∨
          (otherRank = rank ∧ other = vote)) :=
    fun _ _ hsame => SlotEntry.has_record hsame hnew hfresh
  -- the entry of the slot has all votes of the slot which were kept
  have hall : ∀ otherRank other, other.slot = vote.slot →
      (otherRank, other) ∈ insert (rank, vote) kept →
        ((verifier.votePool.entry vote.slot).record vote rank).has otherRank other := by
    intro otherRank other hsame hmem
    rw [hrec otherRank other hsame]
    rcases Finset.mem_insert.mp hmem with heq | hold
    · cases heq
      exact .inr ⟨rfl, rfl⟩
    · have hhas := h.has otherRank other hold (hsame ▸ hslot)
      rw [hsame] at hhas
      exact .inl hhas
  constructor
  · intro otherRank other hmem hother
    dsimp only
    rw [entry_insert]
    split
    next hsame => exact hall otherRank other hsame hmem
    next hne =>
      rcases Finset.mem_insert.mp hmem with heq | hold
      · cases heq
        exact absurd rfl hne
      · exact h.has otherRank other hold hother
  · intro slot'
    dsimp only
    rw [entry_insert]
    split
    · exact (h.entries _).record hnew
    · exact h.entries slot'
  · intro otherRank first first' hmem hmem' hfirst hfirst' hsame
    by_cases hslots : first.slot = vote.slot
    · exact ((h.entries vote.slot).record hnew).eq_of_has (hall otherRank first hslots hmem)
        (hall otherRank first' (hsame.symm.trans hslots) hmem') hfirst hfirst' hsame
    · have hold : ∀ other : Vote, other.slot ≠ vote.slot →
          (otherRank, other) ∈ insert (rank, vote) kept → (otherRank, other) ∈ kept := by
        intro other hne hother
        apply Finset.mem_of_mem_insert_of_ne hother
        intro heq
        cases heq
        exact hne rfl
      exact h.exclusive otherRank first first' (hold first hslots hmem)
        (hold first' (hsame ▸ hslots) hmem') hfirst hfirst' hsame

end

variable (filter vote rank maxValidators) in
theorem receive (h : Kept verifier kept) (hroot : verifier.lastCheckedRootSlot ≤ rootSlot) :
    (verifier.receive filter rootSlot vote rank maxValidators).1.lastCheckedRootSlot = rootSlot ∧
    Kept (verifier.receive filter rootSlot vote rank maxValidators).1 kept ∧
    ((verifier.receive filter rootSlot vote rank maxValidators).2 = some (.ok ()) →
      (rank, vote) ∉ kept ∧ rank < maxValidators ∧
        Kept (verifier.receive filter rootSlot vote rank maxValidators).1
          (insert (rank, vote) kept)) := by
  have hpruned : Kept (verifier.maybePruneCaches rootSlot) kept := h.maybePruneCaches
  have hlast : (verifier.maybePruneCaches rootSlot).lastCheckedRootSlot = rootSlot := by
    unfold SigVerifier.maybePruneCaches
    split
    · rfl
    · omega
  unfold SigVerifier.receive
  generalize verifier.maybePruneCaches rootSlot = pruned at hpruned hlast ⊢
  unfold SigVerifier.keepVote VotePool.tryAddVote
  by_cases hwants : filter.wants rootSlot vote = true
  · rw [if_pos hwants]
    by_cases hrank : maxValidators ≤ rank
    · rw [if_pos hrank]
      exact ⟨hlast, hpruned, by simp⟩
    · rw [if_neg hrank]
      rcases SlotEntry.tryAddVote_cases (pruned.votePool.entry vote.slot) vote rank with
        ⟨_, heq⟩ | ⟨_, heq⟩ | ⟨hnew, hfresh, heq⟩
      · rw [heq]
        exact ⟨hlast, hpruned.refused vote.slot, by simp⟩
      · rw [heq]
        exact ⟨hlast, hpruned.refused vote.slot, by simp⟩
      · rw [heq]
        have hslot : pruned.lastCheckedRootSlot - numSlotsForReward ≤ vote.slot := by
          rw [hlast]
          exact wants_slot hwants
        have hkept := hpruned.accepted hslot hnew hfresh
        refine ⟨hlast, hkept.mono (Finset.subset_insert _ _), fun _ => ⟨?_, not_le.mp hrank, hkept⟩⟩
        exact fun hmem => hfresh (hpruned.has rank vote hmem hslot)
  · rw [if_neg hwants]
    exact ⟨hlast, hpruned, by simp⟩

end Kept

end SigVerifier

end RakuraiValidator.Votor.Sigverify
