import RakuraiValidator.SigverifyVotePool

/-!
# The order of the votes of a rank

Whether the votes of a rank for a slot are taken without one being invalid depends on the set of them:
no two oppose each other, and the fallbacks are within the limit.  Every order of the same votes has
the same answer.
-/

namespace RakuraiValidator.Votor.Sigverify

open Finset Function Option

attribute [local simp] isSome_iff_exists Except.toBool Except.isOk

/-- The votes which a validator does not cast in one slot, in one of the two directions. -/
def opposes : Vote → Vote → Bool
  | .skip _, .notarize _ | .skip _, .skipFallback _ | .skip _, .finalize _ => true
  | .finalize _, .skipFallback _ | .finalize _, .notarizeFallback _ => true
  | .notarize block, .notarize other => block ≠ other
  | .notarize block, .notarizeFallback other => block = other
  | .genesis block, other => other ≠ .genesis block
  | _, _ => false

def isNotarizeFallback : Vote → Bool
  | .notarizeFallback _ => true
  | _ => false

structure ConflictFree (votes : Finset Vote) : Prop where
  pairwise : ∀ vote ∈ votes, ∀ other ∈ votes, opposes vote other = false
  limit : (votes.filter fun vote => isNotarizeFallback vote).card ≤ maxNotarFallbackEntries

theorem ConflictFree.mono {votes more : Finset Vote} (h : ConflictFree more)
    (hsub : votes ⊆ more) : ConflictFree votes where
  pairwise vote hvote other hother := h.pairwise vote (hsub hvote) other (hsub hother)
  limit := (card_le_card (filter_subset_filter _ hsub)).trans h.limit

/-- A vote keeps the set free of conflicts if it opposes none of it and is within the limit. -/
theorem ConflictFree.insert_iff {votes : Finset Vote} (h : ConflictFree votes) (vote : Vote) :
    ConflictFree (insert vote votes) ↔
      (¬ ∃ other ∈ votes, opposes vote other = true ∨ opposes other vote = true) ∧
      (isNotarizeFallback vote = true → vote ∉ votes →
        (votes.filter fun vote => isNotarizeFallback vote).card < maxNotarFallbackEntries) := by
  have hself : opposes vote vote = false := by cases vote <;> simp [opposes]
  constructor
  · intro hins
    refine ⟨?_, fun hkind hnew => ?_⟩
    · rintro ⟨other, hmem, hoppose | hoppose⟩
      · simp [hins.pairwise vote (mem_insert_self _ _) other (mem_insert_of_mem hmem)] at hoppose
      · simp [hins.pairwise other (mem_insert_of_mem hmem) vote (mem_insert_self _ _)] at hoppose
    · have hlim := hins.limit
      rw [filter_insert, if_pos hkind, card_insert_of_notMem (by simp [hnew])] at hlim
      exact hlim
  · rintro ⟨hnone, hlim⟩
    push Not at hnone
    constructor
    · intro first hfirst second hsecond
      rw [mem_insert] at hfirst hsecond
      rcases hfirst with rfl | hfirst
      · rcases hsecond with rfl | hsecond
        · exact hself
        · simpa using (hnone second hsecond).1
      · rcases hsecond with rfl | hsecond
        · simpa using (hnone first hfirst).2
        · exact h.pairwise first hfirst second hsecond
    · rw [filter_insert]
      split
      next hkind =>
        by_cases hmem : vote ∈ votes
        · rw [insert_eq_of_mem (mem_filter.mpr ⟨hmem, hkind⟩)]
          exact h.limit
        · exact (card_insert_le _ _).trans (hlim hkind hmem)
      next => exact h.limit

namespace SlotEntry

def replace (bits : ℕ → Bool) (rank : ℕ) : Bool × (ℕ → Bool) :=
  (bits rank, update bits rank true)

/-- The entry is changed in place: `replace` sets a bit before the old one is looked at. -/
def tryAddVoteInPlace (entry : SlotEntry) (vote : Vote) (rank : ℕ) :
    SlotEntry × Except VotePoolError Unit :=
  match vote with
  | .skip _ =>
    if (entry.notar rank).isSome || entry.finalize rank || entry.skipFallback rank ||
        (entry.genesis rank).isSome then (entry, .error .invalid)
    else
      let (old, skip) := replace entry.skip rank
      ({ entry with skip := skip }, if old then .error .duplicate else .ok ())
  | .skipFallback _ =>
    if entry.finalize rank || entry.skip rank || (entry.genesis rank).isSome then
      (entry, .error .invalid)
    else
      let (old, skipFallback) := replace entry.skipFallback rank
      ({ entry with skipFallback := skipFallback }, if old then .error .duplicate else .ok ())
  | .finalize _ =>
    if entry.skip rank || entry.skipFallback rank || !(entry.notarFallback rank).isEmpty ||
        (entry.genesis rank).isSome then (entry, .error .invalid)
    else
      let (old, finalize) := replace entry.finalize rank
      ({ entry with finalize := finalize }, if old then .error .duplicate else .ok ())
  | vote =>
    match entry.tryAddVote vote rank with
    | .ok next => (next, .ok ())
    | .error error => (entry, .error error)

theorem tryAddVoteInPlace_eq (entry : SlotEntry) (vote : Vote) (rank : ℕ) :
    entry.tryAddVoteInPlace vote rank =
      match entry.tryAddVote vote rank with
      | .ok next => (next, .ok ())
      | .error error => (entry, .error error) := by
  have hsame : ∀ bits : ℕ → Bool, bits rank = true → update bits rank true = bits :=
    fun bits hset => hset ▸ update_eq_self rank bits
  cases vote with
  | skip slot | skipFallback slot | finalize slot =>
    simp only [tryAddVoteInPlace, tryAddVote, replace]
    split_ifs with hother hold <;> simp [*]
  | _ => rfl

/-- The votes of a rank in an entry. -/
structure Recorded (slot : ℕ) (entry : SlotEntry) (rank : ℕ) (votes : Finset Vote) : Prop where
  slots : ∀ vote ∈ votes, vote.slot = slot
  has : ∀ vote, vote.slot = slot → (entry.has rank vote ↔ vote ∈ votes)
  fallbacks : (entry.notarFallback rank).length =
    (votes.filter fun vote => isNotarizeFallback vote).card

variable {entry : SlotEntry} {slot rank : ℕ} {votes : Finset Vote} {vote : Vote}

theorem recorded_new : Recorded slot .new rank ∅ :=
  ⟨nofun, fun vote _ => by cases vote <;> simp [has, SlotEntry.new], rfl⟩

section

variable (h : Recorded slot entry rank votes)

include h

theorem Recorded.exists_iff (P : Vote → Prop) :
    (∃ vote ∈ votes, P vote) ↔ (entry.skip rank = true ∧ P (.skip slot)) ∨
      (entry.skipFallback rank = true ∧ P (.skipFallback slot)) ∨
      (entry.finalize rank = true ∧ P (.finalize slot)) ∨
      (∃ blockId ∈ entry.genesis rank, P (.genesis ⟨slot, blockId⟩)) ∨
      (∃ blockId ∈ entry.notar rank, P (.notarize ⟨slot, blockId⟩)) ∨
      ∃ blockId ∈ entry.notarFallback rank, P (.notarizeFallback ⟨slot, blockId⟩) := by
  constructor
  · rintro ⟨vote, hmem, hP⟩
    obtain rfl := h.slots vote hmem
    have hhas := (h.has vote rfl).mpr hmem
    cases vote with
    | skip slot => exact .inl ⟨hhas, hP⟩
    | skipFallback slot => exact .inr (.inl ⟨hhas, hP⟩)
    | finalize slot => exact .inr (.inr (.inl ⟨hhas, hP⟩))
    | genesis block => exact .inr (.inr (.inr (.inl ⟨block.blockId, hhas, hP⟩)))
    | notarize block => exact .inr (.inr (.inr (.inr (.inl ⟨block.blockId, hhas, hP⟩))))
    | notarizeFallback block => exact .inr (.inr (.inr (.inr (.inr ⟨block.blockId, hhas, hP⟩))))
  · have hmem := fun vote hslot => (h.has vote hslot).mp
    rintro (⟨hhas, hP⟩ | ⟨hhas, hP⟩ | ⟨hhas, hP⟩ | ⟨blockId, hhas, hP⟩ | ⟨blockId, hhas, hP⟩ |
      ⟨blockId, hhas, hP⟩)
    · exact ⟨.skip slot, hmem _ rfl hhas, hP⟩
    · exact ⟨.skipFallback slot, hmem _ rfl hhas, hP⟩
    · exact ⟨.finalize slot, hmem _ rfl hhas, hP⟩
    · exact ⟨.genesis ⟨slot, blockId⟩, hmem _ rfl hhas, hP⟩
    · exact ⟨.notarize ⟨slot, blockId⟩, hmem _ rfl hhas, hP⟩
    · exact ⟨.notarizeFallback ⟨slot, blockId⟩, hmem _ rfl hhas, hP⟩

/-- An entry conflicts with a vote if and only if the set with the vote is not free of conflicts. -/
theorem Recorded.conflicts_iff (hfree : ConflictFree votes) (hslot : vote.slot = slot) :
    entry.Conflicts rank vote ↔ ¬ ConflictFree (insert vote votes) := by
  by_cases hdup : isNotarizeFallback vote = true ∧ vote ∈ votes
  · -- a fallback which the entry has is a duplicate before any other check
    obtain ⟨hkind, hmem⟩ := hdup
    refine iff_of_false ?_ (not_not.mpr (by rwa [insert_eq_of_mem hmem]))
    cases vote with
    | notarizeFallback block => exact fun hconfl => hconfl.1 ((h.has _ hslot).mpr hmem)
    | _ => cases hkind
  have hfall : (∃ blockId, blockId ∈ entry.notarFallback rank) ↔
      entry.notarFallback rank ≠ [] := by simp [List.eq_nil_iff_forall_not_mem]
  rw [hfree.insert_iff, not_and_or, not_not, h.exists_iff]
  cases vote with
  | skip slot' | skipFallback slot' =>
    simp [Conflicts, opposes, isNotarizeFallback]
    grind
  | finalize slot' =>
    simp [Conflicts, opposes, isNotarizeFallback, hfall]
    grind
  | genesis block =>
    obtain ⟨slot', blockId⟩ := block
    obtain rfl : slot' = slot := hslot
    cases hgen : entry.genesis rank with
    | none =>
      simp [Conflicts, opposes, isNotarizeFallback, hfall, hgen]
    | some other =>
      simp [Conflicts, opposes, isNotarizeFallback, hfall, hgen]
      grind
  | notarize block =>
    obtain ⟨slot', blockId⟩ := block
    obtain rfl : slot' = slot := hslot
    cases hnotar : entry.notar rank with
    | none => simp [Conflicts, opposes, isNotarizeFallback, hnotar]
    | some other =>
      simp [Conflicts, opposes, isNotarizeFallback, hnotar]
      grind
  | notarizeFallback block =>
    obtain ⟨slot', blockId⟩ := block
    obtain rfl : slot' = slot := hslot
    have hkind : isNotarizeFallback (.notarizeFallback ⟨slot', blockId⟩) = true := rfl
    have hnew : .notarizeFallback ⟨slot', blockId⟩ ∉ votes := fun hmem => hdup ⟨hkind, hmem⟩
    have hfresh : blockId ∉ entry.notarFallback rank :=
      mt (h.has (.notarizeFallback ⟨_, blockId⟩) rfl).mp hnew
    simp [Conflicts, opposes, h.fallbacks, hkind, hnew, hfresh]
    grind

theorem Recorded.record (hslot : vote.slot = slot) (hnew : ¬ entry.Conflicts rank vote)
    (hfresh : ¬ entry.has rank vote) :
    Recorded slot (entry.record vote rank) rank (insert vote votes) := by
  refine ⟨fun other hother => ?_, fun other hother => ?_, ?_⟩
  · rcases mem_insert.mp hother with rfl | hold
    · exact hslot
    · exact h.slots other hold
  · rw [has_record (hother.trans hslot.symm) hnew hfresh, h.has other hother, mem_insert]
    grind
  · have hnot : vote ∉ votes := mt (h.has vote hslot).mpr hfresh
    rw [filter_insert]
    cases vote with
    | notarizeFallback block =>
      rw [if_pos (by rfl), card_insert_of_notMem (by simp [hnot]), ← h.fallbacks]
      simp [SlotEntry.record]
    | _ => exact h.fallbacks

theorem Recorded.record_other {otherRank : ℕ} (hrank : rank ≠ otherRank) (hslot : vote.slot = slot)
    (hnew : ¬ entry.Conflicts otherRank vote) (hfresh : ¬ entry.has otherRank vote) :
    Recorded slot (entry.record vote otherRank) rank votes := by
  refine ⟨h.slots, fun other hother => ?_, ?_⟩
  · rw [has_record (hother.trans hslot.symm) hnew hfresh, h.has other hother]
    grind
  · rw [← h.fallbacks]
    cases vote <;> simp [SlotEntry.record, hrank]

end

/-- The entry has the votes of every rank, which are free of conflicts. -/
def Tracks (slot : ℕ) (entry : SlotEntry) (votes : ℕ → Finset Vote) : Prop :=
  ∀ rank, Recorded slot entry rank (votes rank) ∧ ConflictFree (votes rank)

theorem tracks_new : Tracks slot .new fun _ => ∅ := fun _ => ⟨recorded_new, ⟨nofun, Nat.zero_le _⟩⟩

theorem Tracks.step {votes : ℕ → Finset Vote} (h : Tracks slot entry votes)
    (hslot : vote.slot = slot) (rank : ℕ) :
    (entry.tryAddVoteInPlace vote rank = (entry, .error .invalid) ∧
      ¬ ConflictFree (insert vote (votes rank))) ∨
    (entry.tryAddVoteInPlace vote rank = (entry, .error .duplicate) ∧ vote ∈ votes rank) ∨
    ∃ next, entry.tryAddVoteInPlace vote rank = (next, .ok ()) ∧
      Tracks slot next (update votes rank (insert vote (votes rank))) := by
  obtain ⟨hrec, hfree⟩ := h rank
  have hiff := hrec.conflicts_iff hfree hslot
  rw [tryAddVoteInPlace_eq]
  rcases tryAddVote_cases entry vote rank with
    ⟨hconfl, heq⟩ | ⟨hhas, heq⟩ | ⟨hnew, hfresh, heq⟩
  · exact .inl ⟨by rw [heq], hiff.mp hconfl⟩
  · exact .inr (.inl ⟨by rw [heq], (hrec.has vote hslot).mp hhas⟩)
  · refine .inr (.inr ⟨_, by rw [heq], fun other => ?_⟩)
    by_cases hother : other = rank
    · rw [hother, update_self]
      exact ⟨hrec.record hslot hnew hfresh, not_not.mp (mt hiff.mpr hnew)⟩
    · rw [update_of_ne hother]
      exact ⟨(h other).1.record_other hother hslot hnew hfresh, (h other).2⟩

/-! ## Sequences of votes -/

/-- The votes in turn, each with its rank, and what was answered. -/
def addVotes (entry : SlotEntry) :
    List (ℕ × Vote) → SlotEntry × List (ℕ × Vote × Except VotePoolError Unit)
  | [] => (entry, [])
  | (rank, vote) :: calls =>
    let (next, result) := entry.tryAddVoteInPlace vote rank
    let (last, log) := next.addVotes calls
    (last, (rank, vote, result) :: log)

attribute [local simp] addVotes

def accepted (log : List (ℕ × Vote × Except VotePoolError Unit)) (rank : ℕ) : Finset Vote :=
  ((log.filter fun call => call.1 = rank && call.2.2.isOk).map fun call => call.2.1).toFinset

attribute [local simp] accepted

/-- No vote of the order is invalid for a new entry. -/
def Accepts (rank : ℕ) (order : List Vote) : Prop :=
  ∀ call ∈ (SlotEntry.new.addVotes (order.map (rank, ·))).2, call.2.2 ≠ .error .invalid

theorem Tracks.conflictFree_accepted {votes : ℕ → Finset Vote} (h : Tracks slot entry votes)
    {calls : List (ℕ × Vote)} (hslot : ∀ call ∈ calls, call.2.slot = slot) (rank : ℕ) :
    ConflictFree (votes rank ∪ accepted (entry.addVotes calls).2 rank) := by
  induction calls generalizing entry votes with
  | nil => simpa using (h rank).2
  | cons call calls ih =>
    obtain ⟨caller, vote⟩ := call
    obtain ⟨hslot₁, hslot⟩ := List.forall_mem_cons.mp hslot
    rcases h.step hslot₁ caller with ⟨heq, -⟩ | ⟨heq, -⟩ | ⟨next, heq, hnext⟩
    · simpa [heq] using ih h hslot
    · simpa [heq] using ih h hslot
    · have hfree := ih hnext hslot
      by_cases hrank : rank = caller
      · subst hrank
        simpa [heq] using hfree
      · simpa [heq, hrank, Ne.symm hrank] using hfree

theorem Tracks.valid_iff {votes : ℕ → Finset Vote} (h : Tracks slot entry votes)
    {order : List Vote} (hslot : ∀ vote ∈ order, vote.slot = slot) (rank : ℕ) :
    (∀ call ∈ (entry.addVotes (order.map (rank, ·))).2, call.2.2 ≠ .error .invalid) ↔
      ConflictFree (votes rank ∪ order.toFinset) := by
  induction order generalizing entry votes with
  | nil => simpa using (h rank).2
  | cons vote order ih =>
    obtain ⟨hslot₁, hslot⟩ := List.forall_mem_cons.mp hslot
    rcases h.step hslot₁ rank with ⟨heq, hnot⟩ | ⟨heq, hmem⟩ | ⟨next, heq, hnext⟩
    · refine iff_of_false (by simp [heq]) fun hfree => hnot (hfree.mono ?_)
      simpa [insert_subset_iff] using subset_union_left.trans (subset_insert _ _)
    · simpa [heq, hmem] using ih h hslot
    · simpa [heq] using ih hnext hslot

end SlotEntry

/-- The conflicts do not depend on the order: the votes of a set are all taken in one order if and
only if they are in every order.  What was taken of a rank is free of conflicts, and a vote which is
rejected leaves the entry as it was. -/
theorem votes_order_independent :
    (∀ (rank slot : ℕ) (votes : Finset Vote), (∀ vote ∈ votes, vote.slot = slot) →
      ((∃ order : List Vote, order.Nodup ∧ order.toFinset = votes ∧ SlotEntry.Accepts rank order) ↔
        ∀ order : List Vote, order.Nodup → order.toFinset = votes → SlotEntry.Accepts rank order)) ∧
    (∀ (slot : ℕ) (calls : List (ℕ × Vote)), (∀ call ∈ calls, call.2.slot = slot) →
      ∀ rank, ConflictFree (SlotEntry.accepted (SlotEntry.new.addVotes calls).2 rank)) ∧
    ∀ (entry : SlotEntry) (vote : Vote) (rank : ℕ) (error : VotePoolError),
      (entry.tryAddVoteInPlace vote rank).2 = .error error →
        (entry.tryAddVoteInPlace vote rank).1 = entry := by
  refine ⟨fun rank slot votes hslot => ?_, fun slot calls hslot rank => ?_,
    fun entry vote rank error herror => ?_⟩
  · have hiff : ∀ order : List Vote, order.toFinset = votes →
        (SlotEntry.Accepts rank order ↔ ConflictFree votes) := by
      intro order heq
      have hslots : ∀ vote ∈ order, vote.slot = slot :=
        fun vote hvote => hslot vote (heq ▸ List.mem_toFinset.mpr hvote)
      have hvalid := SlotEntry.tracks_new.valid_iff hslots rank
      rwa [heq, empty_union] at hvalid
    constructor
    · rintro ⟨order, -, heq, haccepts⟩ other - hother
      exact (hiff other hother).mpr ((hiff order heq).mp haccepts)
    · intro hall
      exact ⟨votes.toList, votes.nodup_toList, votes.toList_toFinset,
        hall _ votes.nodup_toList votes.toList_toFinset⟩
  · simpa using SlotEntry.tracks_new.conflictFree_accepted hslot rank
  · rw [SlotEntry.tryAddVoteInPlace_eq] at herror ⊢
    cases hadd : entry.tryAddVote vote rank with
    | error error' => rfl
    | ok next =>
      rw [hadd] at herror
      cases herror

end RakuraiValidator.Votor.Sigverify
