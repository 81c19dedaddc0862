import RakuraiValidator.VoteStateHandler

/-!
# No rollback of a stored tower

A proposed tower replaces the stored one only if it is well formed, keeps the root,
and every stored vote above the root is either proposed again with at least the same
lockout or has expired at the next proposed vote.
-/

namespace RakuraiValidator.Vote.VoteStateHandler

open LockoutEntry List LandedVote

section

variable [VoteInterface]

/-! ## The merge -/

/-- What becomes of a stored vote among the proposed ones: it is kept, or the first
vote after it has popped it. -/
def KeptOrExpired (vote : LandedVote) (votes : List LandedVote) : Prop :=
  (∃ kept ∈ votes, kept.slot = vote.slot ∧ vote.confirmationCount ≤ kept.confirmationCount ∧
    (vote.latency ≠ 0 → kept.latency = vote.latency)) ∨
  ∃ next, votes.find? (fun later => vote.slot < later.slot) = some next ∧
    vote.lockout.lastLockedOutSlot < next.slot

variable {vote : LandedVote} {votes : List LandedVote}

theorem KeptOrExpired.cons {first : LandedVote}
    (h : KeptOrExpired vote votes) (hfirst : first.slot ≤ vote.slot) :
    KeptOrExpired vote (first :: votes) := by
  rcases h with ⟨kept, hkept, hsame⟩ | ⟨next, hnext, hexp⟩
  · exact .inl ⟨kept, mem_cons_of_mem _ hkept, hsame⟩
  · refine .inr ⟨next, ?_, hexp⟩
    rw [find?_cons_of_neg (by simpa using hfirst), hnext]

structure Merged (current newState merged : List LandedVote) : Prop where
  lockouts : merged.map LandedVote.lockout = newState.map LandedVote.lockout
  survives : ∀ vote ∈ current, (∃ later ∈ newState, vote.slot ≤ later.slot) → KeptOrExpired vote merged

variable {newState merged : List LandedVote} {current : List LandedVote}

theorem Merged.cons_survives {first merge : LandedVote} (h : Merged current newState merged)
    (hvote : vote ∈ current) (hlater : ∃ later ∈ first :: newState, vote.slot ≤ later.slot)
    (hfirst : first.slot < vote.slot) (hsame : merge.slot = first.slot) :
    KeptOrExpired vote (merge :: merged) := by
  rcases hlater with ⟨later, hmem, hle⟩
  rcases mem_cons.mp hmem with heq | hrest
  · rw [heq] at hle
    omega
  · exact (h.survives vote hvote ⟨later, hrest, hle⟩).cons (by omega)

theorem mergeVote_merged {currentVote : LandedVote} {rest : List LandedVote}
    {mergeRest : List LandedVote → Except VoteError (List LandedVote)}
    (hrest : ∀ newState merged, mergeRest newState = .ok merged → Merged rest newState merged)
    (holder : ∀ vote ∈ rest, currentVote.slot < vote.slot)
    (h : mergeVote currentVote mergeRest newState = .ok merged) :
    Merged (currentVote :: rest) newState merged := by
  have hle : ∀ vote ∈ currentVote :: rest, currentVote.slot ≤ vote.slot := by
    rw [forall_mem_cons]
    exact ⟨le_rfl, fun vote hvote => (holder vote hvote).le⟩
  induction newState generalizing merged with
  | nil =>
    cases h
    exact ⟨rfl, fun vote _ hlater => by simp at hlater⟩
  | cons newVote votes ih =>
    rw [mergeVote] at h
    split at h
    next hless =>
      split at h
      next => cases h
      next hexp =>
        -- the stored vote is popped by the proposed one
        have hmerged := hrest _ _ h
        refine ⟨hmerged.lockouts, ?_⟩
        rw [forall_mem_cons]
        refine ⟨fun _ => .inr ?_, hmerged.survives⟩
        cases merged with
        | nil => cases hmerged.lockouts
        | cons first merged =>
          have hfirst : first.slot = newVote.slot := by
            have hlock := (List.cons.inj hmerged.lockouts).1
            rw [LandedVote.slot, hlock]
            rfl
          refine ⟨first, ?_, by omega⟩
          rw [find?_cons_of_pos (by simpa [hfirst] using hless)]
    next hnot =>
      split at h
      next hsame =>
        split at h
        next => cases h
        next hcount =>
          split at h
          next => cases h
          next later hlater =>
            cases h
            have hmerged := hrest _ _ hlater
            refine ⟨by rw [map_cons, map_cons, hmerged.lockouts], ?_⟩
            rw [forall_mem_cons]
            constructor
            · exact fun _ => .inl ⟨_, mem_cons_self, hsame.symm, not_lt.mp hcount, fun _ => rfl⟩
            · intro vote hvote hexists
              have hlt := holder vote hvote
              exact hmerged.cons_survives hvote hexists (by omega) rfl
      next hne =>
        split at h
        next => cases h
        next later hlater =>
          cases h
          have hmerged := ih hlater
          refine ⟨by rw [map_cons, map_cons, hmerged.lockouts], ?_⟩
          intro vote hvote hexists
          have hcur := hle vote hvote
          exact hmerged.cons_survives hvote hexists (by omega) rfl

theorem mergeVotes_merged (hsort : current.Pairwise (fun vote later => vote.slot < later.slot))
    (h : mergeVotes current newState = .ok merged) : Merged current newState merged := by
  induction current generalizing newState merged with
  | nil =>
    cases h
    exact ⟨rfl, fun vote hvote => by cases hvote⟩
  | cons currentVote votes ih =>
    rw [pairwise_cons] at hsort
    exact mergeVote_merged (fun _ _ hrest => ih hsort.2 hrest) hsort.1 h

/-! ## The new root -/

variable {state : VoteStateHandler}

omit [VoteInterface] in
theorem mem_drop_of_rootedVotes {newRoot start credits index earnedCredits : ℕ}
    (h : rootedVotes state newRoot votes start credits = .ok (index, earnedCredits)) :
    start ≤ index ∧ ∀ vote ∈ votes, newRoot < vote.slot → vote ∈ votes.drop (index - start) := by
  induction votes generalizing start credits with
  | nil =>
    cases h
    exact ⟨le_rfl, fun vote hvote => by cases hvote⟩
  | cons currentVote votes ih =>
    rw [rootedVotes] at h
    split at h
    next hrooted =>
      split at h
      · cases h
      · rcases ih h with ⟨hle, hkept⟩
        refine ⟨by omega, ?_⟩
        rw [forall_mem_cons]
        refine ⟨fun habove => by omega, fun vote hvote habove => ?_⟩
        have hidx : index - start = index - (start + 1) + 1 := by omega
        rw [hidx, drop_succ_cons]
        exact hkept vote hvote habove
    next =>
      cases h
      refine ⟨le_rfl, fun vote hvote _ => ?_⟩
      rwa [Nat.sub_self, drop_zero]

variable {newRoot : Option ℕ} (currentSlot : ℕ)

omit [VoteInterface] in
theorem mem_drop_of_rootVotes {index earnedCredits : ℕ}
    (h : rootVotes state newRoot = .ok (index, earnedCredits)) :
    ∀ vote ∈ state.votes, (∀ root ∈ newRoot, root < vote.slot) → vote ∈ state.votes.drop index := by
  intro vote hvote habove
  unfold rootVotes at h
  split at h
  next root => exact (mem_drop_of_rootedVotes h).2 vote hvote (habove root rfl)
  next =>
    cases h
    exact hvote

/-! ## The new state -/

theorem processNewVoteState_inv {state' : VoteStateHandler} {timestamp : Option ℤ}
    {epoch currentSlot : ℕ}
    (h : processNewVoteState state newState newRoot timestamp epoch currentSlot = .ok state') :
    ∃ earnedCredits merged, checkNewVoteState state newState newRoot = .ok (earnedCredits, merged) ∧
      state'.rootSlot = newRoot ∧ state'.votes = merged.map (setLatency currentSlot) := by
  unfold processNewVoteState at h
  split at h
  next => cases h
  next earnedCredits merged hcheck =>
    dsimp only at h
    split at h
    · cases h
    · cases h
      exact ⟨earnedCredits, merged, hcheck, rfl, rfl⟩

omit [VoteInterface] in
@[simp] theorem lockout_setLatency (vote : LandedVote) :
    (setLatency currentSlot vote).lockout = vote.lockout := by
  unfold setLatency
  split <;> rfl

omit [VoteInterface] in
@[simp] theorem slot_setLatency (vote : LandedVote) : (setLatency currentSlot vote).slot =
  vote.slot := by
  rw [LandedVote.slot, lockout_setLatency, LandedVote.slot]

theorem KeptOrExpired.setLatency (h : KeptOrExpired vote votes) (currentSlot : ℕ) :
    KeptOrExpired vote (votes.map (setLatency currentSlot)) := by
  rcases h with ⟨kept, hkept, hslot, hcount, hlatency⟩ | ⟨next, hnext, hexp⟩
  · refine .inl ⟨_, mem_map_of_mem hkept, ?_, ?_, ?_⟩
    · rwa [slot_setLatency]
    · rw [LandedVote.confirmationCount, LandedVote.confirmationCount, lockout_setLatency]
      exact hcount
    · intro hnonzero
      have hsame := hlatency hnonzero
      rw [VoteStateHandler.setLatency, if_neg (by rwa [hsame]), hsame]
  · refine .inr ⟨VoteStateHandler.setLatency currentSlot next, ?_, ?_⟩
    · have hcomp : (fun later : LandedVote => decide (vote.slot < later.slot)) ∘
          VoteStateHandler.setLatency currentSlot = fun later => decide (vote.slot < later.slot) := by
        funext later
        rw [Function.comp_apply, slot_setLatency]
      rw [find?_map, hcomp, hnext]
      rfl
    · rwa [slot_setLatency]

/-- A tower is only replaced by one which does not roll it back.  The new tower is well
formed and, for a root which is not zero, above the root; the root does not decrease;
and every stored vote above the new root which is not after the last new vote is kept
with at least its confirmations and with its latency, or it has expired at the first
new vote after it. -/
theorem process_new_vote_state_no_rollback (state state' : VoteStateHandler)
    (newState : List LandedVote) (newRoot : Option ℕ) (timestamp : Option ℤ) (epoch currentSlot : ℕ)
    (hslots : state.votes.Pairwise (fun vote later => vote.slot < later.slot))
    (hok : processNewVoteState state newState newRoot timestamp epoch currentSlot = .ok state') :
    (LockoutStack state'.votes ∧
      ∀ root ∈ state'.rootSlot, root ≠ 0 → ∀ vote ∈ state'.votes, root < vote.slot) ∧
    (∀ root ∈ state.rootSlot, ∃ root' ∈ state'.rootSlot, root ≤ root') ∧
    (state'.rootSlot = newRoot ∧
      state'.votes.map LandedVote.lockout = newState.map LandedVote.lockout) ∧
    ∀ vote ∈ state.votes, (∀ root ∈ newRoot, root < vote.slot) →
      (∃ last ∈ newState.getLast?, vote.slot ≤ last.slot) → KeptOrExpired vote state'.votes := by
  rcases processNewVoteState_inv hok with ⟨earnedCredits, merged, hcheck, hroot, hvotes⟩
  rcases checkNewVoteState_eq_ok.mp hcheck with
    ⟨_, _, hback, hchecked, index, hrooted, hmerge⟩
  have hsorted : (state.votes.drop index).Pairwise (fun vote later => vote.slot < later.slot) :=
    hslots.sublist (drop_sublist index state.votes)
  have hmerged := mergeVotes_merged hsorted hmerge
  have hlockouts : state'.votes.map LandedVote.lockout = newState.map LandedVote.lockout := by
    rw [hvotes, map_map, ← hmerged.lockouts]
    congr 1
    funext vote
    exact lockout_setLatency currentSlot vote
  rcases checkVotes_eq_ok.mp hchecked with ⟨hstack, habove⟩
  refine ⟨⟨?_, ?_⟩, ?_, ⟨hroot, hlockouts⟩, ?_⟩
  · have hmap : LockoutStack (state'.votes.map lockout) := by
      rw [hlockouts]
      exact LockoutStack.map_lockout.mpr hstack
    exact LockoutStack.map_lockout.mp hmap
  · intro root hmem hne vote hvote
    rw [hroot] at hmem
    have hlockout : vote.lockout ∈ newState.map lockout := by
      rw [← hlockouts]
      exact mem_map_of_mem hvote
    rcases List.mem_map.mp hlockout with ⟨new, hnew, heq⟩
    have hlt := habove root hmem hne new hnew
    rwa [LandedVote.slot, heq] at hlt
  · rw [hroot]
    exact rollsRootBack_eq_false.mp hback
  · intro vote hvote hnewRoot hlast
    rcases hlast with ⟨last, hmem, hle⟩
    rw [hvotes]
    apply KeptOrExpired.setLatency
    exact hmerged.survives vote (mem_drop_of_rootVotes hrooted vote hvote hnewRoot)
      ⟨last, mem_of_getLast? hmem, hle⟩

end

attribute [local instance] doublingLockouts

/-- The first of three votes is rooted, the second is kept, and the third has expired. -/
theorem process_new_vote_state_no_rollback_expired :
    let state : VoteStateHandler :=
      ⟨[⟨1, ⟨1, 3⟩⟩, ⟨4, ⟨2, 2⟩⟩, ⟨2, ⟨3, 1⟩⟩], none, [], ⟨0, 0⟩⟩
    let state' : VoteStateHandler :=
      ⟨[⟨4, ⟨2, 2⟩⟩, ⟨1, ⟨6, 1⟩⟩], some 1, [(0, 16, 0)], ⟨0, 0⟩⟩
    processNewVoteState state [⟨0, ⟨2, 2⟩⟩, ⟨0, ⟨6, 1⟩⟩] (some 1) none 0 7 = .ok state' ∧
      KeptOrExpired ⟨4, ⟨2, 2⟩⟩ state'.votes ∧ KeptOrExpired ⟨2, ⟨3, 1⟩⟩ state'.votes := by
  intro state state'
  have hok : processNewVoteState state [⟨0, ⟨2, 2⟩⟩, ⟨0, ⟨6, 1⟩⟩] (some 1) none 0 7 =
      .ok state' := by decide +kernel
  have hrollback := process_new_vote_state_no_rollback state state' [⟨0, ⟨2, 2⟩⟩, ⟨0, ⟨6, 1⟩⟩]
    (some 1) none 0 7 (by decide) hok
  exact ⟨hok, hrollback.2.2.2 ⟨4, ⟨2, 2⟩⟩ (by decide) (by decide) (by decide),
    hrollback.2.2.2 ⟨2, ⟨3, 1⟩⟩ (by decide) (by decide) (by decide)⟩

end RakuraiValidator.Vote.VoteStateHandler
