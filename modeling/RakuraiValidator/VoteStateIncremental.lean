import RakuraiValidator.VoteStateHandler

/-!
# Incremental votes and whole towers

Voting slot by slot and proposing the whole tower each time are two implementations
of the same rules.  They agree on the tower, the root and the credits, as long as the
stored votes have their latencies.
-/

namespace RakuraiValidator.Vote

open LockoutEntry List

theorem doubleLockouts_concat {α : Type} [LockoutEntry α] [VoteInterface] (votes : List α) {new : α}
    (hnew : confirmationCount new = 1) :
    ∃ confirmed, doubleLockouts (votes ++ [new]) = confirmed ++ [new] ∧
      List.Forall₂ (fun vote vote' => ∃ depth, vote' = confirm vote depth) votes confirmed := by
  induction votes with
  | nil =>
    refine ⟨[], ?_, .nil⟩
    rw [nil_append, doubleLockouts_cons, doubleLockouts_nil, confirm, hnew]
    rfl
  | cons vote votes ih =>
    rcases ih with ⟨confirmed, heq, hconf⟩
    refine ⟨confirm vote (votes.length + 1 + 1) :: confirmed, ?_, .cons ⟨_, rfl⟩ hconf⟩
    rw [cons_append, doubleLockouts_cons, heq, length_append]
    rfl

namespace VoteStateHandler

section

variable [VoteInterface] {earnedCredits : ℕ}

variable {state : VoteStateHandler}

/-! ## One vote -/

structure Regular (state : VoteStateHandler) : Prop where
  stack : LockoutStack state.votes
  root : ∀ root ∈ state.rootSlot, state.votes ≠ [] ∧ ∀ vote ∈ state.votes, root < vote.slot
  latency : ∀ vote ∈ state.votes, vote.latency ≠ 0

def voted (state : VoteStateHandler) (nextVoteSlot epoch currentSlot : ℕ)
    (rooted : Option LandedVote) (kept : List LandedVote) : VoteStateHandler :=
  { (rooted.elim state (fun _ => state.incrementCredits epoch (state.creditsForVoteAtIndex 0))) with
    votes := doubleLockouts
      (kept ++ [⟨computeVoteLatency nextVoteSlot currentSlot, .new nextVoteSlot⟩])
    rootSlot := rooted.elim state.rootSlot (fun oldest => some oldest.slot) }

theorem processNextVoteSlot_eq {nextVoteSlot : ℕ} (epoch currentSlot : ℕ)
    (hnew : state.lastVotedSlot.any (nextVoteSlot ≤ ·) = false) :
    ∃ rooted kept expired, Splits state.votes nextVoteSlot rooted kept expired ∧
      processNextVoteSlot state nextVoteSlot epoch currentSlot =
        voted state nextVoteSlot epoch currentSlot rooted kept := by
  rcases exists_splits state.votes nextVoteSlot with ⟨rooted, kept, expired, hsplit, hpop⟩
  refine ⟨rooted, kept, expired, hsplit, ?_⟩
  unfold processNextVoteSlot
  rw [if_neg (by simp [hnew])]
  dsimp only
  cases rooted with
  | none =>
    have hfull : kept.length ≠ maxLockoutHistory := by simpa using hsplit.rooted
    rw [Option.toList_none, nil_append] at hpop
    rw [hpop]
    cases kept with
    | nil => rfl
    | cons oldest kept =>
      dsimp only
      rw [if_neg hfull]
      rfl
  | some oldest =>
    have hfull : (oldest :: kept).length = maxLockoutHistory := by simpa using hsplit.rooted
    have hcred : creditsForVoteAtIndex { state with votes := oldest :: kept } 0 =
        creditsForVoteAtIndex state 0 := by
      simp [creditsForVoteAtIndex, hsplit.votes]
    rw [Option.toList_some, singleton_append] at hpop
    rw [hpop]
    dsimp only
    rw [if_pos hfull, hcred]
    rfl

theorem slot_lt_of_new {nextVoteSlot : ℕ} (hstack : LockoutStack state.votes)
    (hnew : state.lastVotedSlot.any (nextVoteSlot ≤ ·) = false) :
    ∀ vote ∈ state.votes, vote.slot < nextVoteSlot := by
  apply hstack.slot_lt
  intro last hlast
  rw [lastVotedSlot, Option.mem_def.mp hlast] at hnew
  have hlt : last.slot < nextVoteSlot := by simpa using hnew
  exact hlt

@[simp] theorem latency_confirm (vote : LandedVote) (depth : ℕ) :
    (confirm vote depth).latency = vote.latency := by
  unfold confirm
  split <;> rfl

variable {votes : List LandedVote}

theorem latency_doubleLockouts (h : ∀ vote ∈ votes, vote.latency ≠ 0) :
    ∀ vote ∈ doubleLockouts votes, vote.latency ≠ 0 := by
  intro vote hvote
  rcases exists_of_mem_doubleLockouts hvote with ⟨old, hold, depth, _, heq⟩
  rw [heq, latency_confirm]
  exact h old hold

variable {nextVoteSlot epoch currentSlot : ℕ} {rooted : Option LandedVote}
  {kept expired : List LandedVote}

namespace Regular

variable (h : Regular state) (hsplit : Splits state.votes nextVoteSlot rooted kept expired)

include h hsplit

theorem kept_stack : LockoutStack (rooted.toList ++ kept) := by
  have hall : LockoutStack ((rooted.toList ++ kept) ++ expired) := by
    rw [append_assoc, ← hsplit.votes]
    exact h.stack
  exact hall.of_append

theorem voted_stack (hnew : state.lastVotedSlot.any (nextVoteSlot ≤ ·) = false) :
    LockoutStack (voted state nextVoteSlot epoch currentSlot rooted kept).votes := by
  have hslots := slot_lt_of_new h.stack hnew
  have hstack := h.kept_stack hsplit
  have hlen := hstack.length_le
  have hrooted := hsplit.rooted
  have hkept : ∀ vote ∈ kept, vote.slot < nextVoteSlot := by
    intro vote hvote
    apply hslots vote
    rw [hsplit.votes]
    simp [hvote]
  cases rooted with
  | none =>
    rw [Option.toList_none, nil_append] at hstack hlen hrooted
    have hne : kept.length ≠ maxLockoutHistory := by simpa using hrooted
    exact hstack.push rfl hkept hsplit.locked (by omega)
  | some oldest =>
    rw [Option.toList_some, singleton_append] at hstack hlen
    rw [length_cons] at hlen
    exact hstack.tail.push rfl hkept hsplit.locked (by omega)

theorem below_votes (hslots : ∀ vote ∈ state.votes, vote.slot < nextVoteSlot) {root : ℕ}
    (hroot : root ∈ (voted state nextVoteSlot epoch currentSlot rooted kept).rootSlot) :
    (∀ vote ∈ kept, root < vote.slot) ∧ root < nextVoteSlot := by
  have hvotes := hsplit.votes
  cases rooted with
  | none =>
    rcases h.root root hroot with ⟨hne, hbelow⟩
    refine ⟨fun vote hvote => hbelow vote (by rw [hvotes]; simp [hvote]), ?_⟩
    rcases exists_mem_of_ne_nil _ hne with ⟨vote, hvote⟩
    exact (hbelow vote hvote).trans (hslots vote hvote)
  | some oldest =>
    have holdest : oldest.slot = root := by simpa [voted] using hroot
    have hstack := h.kept_stack hsplit
    rw [← holdest]
    refine ⟨fun vote hvote => ?_, hslots oldest (by rw [hvotes]; simp)⟩
    exact rel_of_pairwise_cons hstack.slots hvote

theorem next (hnew : state.lastVotedSlot.any (nextVoteSlot ≤ ·) = false)
    (hcurrent : nextVoteSlot < currentSlot) :
    Regular (voted state nextVoteSlot epoch currentSlot rooted kept) := by
  have hslots := slot_lt_of_new h.stack hnew
  refine ⟨h.voted_stack hsplit hnew, ?_, ?_⟩
  · intro root hroot
    have hbelow := h.below_votes hsplit hslots hroot
    refine ⟨?_, ?_⟩
    · apply ne_nil_of_length_pos
      simp [voted]
    · intro vote hvote
      rcases exists_of_mem_doubleLockouts hvote with ⟨old, hold, depth, _, heq⟩
      have hslot : slot vote = slot old := by rw [heq, slot_confirm]
      change root < slot vote
      rw [hslot]
      rcases mem_append.mp hold with hmem | hmem
      · exact hbelow.1 old hmem
      · rw [mem_singleton.mp hmem]
        exact hbelow.2
  · apply latency_doubleLockouts
    intro vote hvote
    rcases mem_append.mp hvote with hold | hmem
    · apply h.latency vote
      rw [hsplit.votes]
      simp [hold]
    · rw [mem_singleton.mp hmem]
      simp only [computeVoteLatency, u8Max]
      omega

end Regular

/-! ## The proposed tower -/

/-- A tower as it is proposed: the lockouts, with or without the latencies. -/
def Proposes (votes proposed : List LandedVote) : Prop :=
  List.Forall₂ (fun vote new => new.lockout = vote.lockout ∧
    (new.latency = 0 ∨ new.latency = vote.latency)) votes proposed

variable {proposed : List LandedVote}

omit [VoteInterface] in
theorem Proposes.lockouts (h : Proposes votes proposed) :
    proposed.map LandedVote.lockout = votes.map LandedVote.lockout := by
  induction h with
  | nil => rfl
  | cons hvote _ ih => rw [map_cons, map_cons, hvote.1, ih]

omit [VoteInterface] in
theorem Proposes.concat_inv {vote : LandedVote} (h : Proposes (votes ++ [vote]) proposed) :
    ∃ before new, proposed = before ++ [new] ∧ Proposes votes before ∧
      new.lockout = vote.lockout ∧ (new.latency = 0 ∨ new.latency = vote.latency) := by
  induction votes generalizing proposed with
  | nil =>
    cases h with
    | cons hvote hnil =>
      cases hnil
      exact ⟨[], _, rfl, .nil, hvote⟩
  | cons first votes ih =>
    cases h with
    | cons hfirst hrest =>
      rcases ih hrest with ⟨before, new, heq, hbefore, hnew⟩
      rw [heq]
      exact ⟨_ :: before, new, rfl, .cons hfirst hbefore, hnew⟩

theorem mergeVotes_confirmed {kept confirmed rest later merged : List LandedVote}
    (hconf : List.Forall₂ (fun vote vote' => ∃ depth, vote' = confirm vote depth) kept confirmed)
    (hprop : Proposes confirmed proposed) (hrest : mergeVotes rest later = .ok merged) :
    mergeVotes (kept ++ rest) (proposed ++ later) = .ok (confirmed ++ merged) := by
  induction hconf generalizing proposed with
  | nil =>
    cases hprop
    exact hrest
  | @cons vote vote' kept confirmed hconfirm _ ih =>
    rcases hconfirm with ⟨depth, hconfirm⟩
    cases hprop with
    | @cons _ new _ proposed hnew hprop =>
      have hsame : slot vote' = slot vote := by rw [hconfirm, slot_confirm]
      have hslot : new.slot = vote.slot := by
        rw [LandedVote.slot, hnew.1]
        exact hsame
      have hmore : confirmationCount vote ≤ confirmationCount vote' := by
        rw [hconfirm]
        exact confirmationCount_le_confirm
      have hcount : vote.confirmationCount ≤ new.confirmationCount := by
        rw [LandedVote.confirmationCount, LandedVote.confirmationCount, hnew.1]
        exact hmore
      have hkept : ({ new with latency := vote.latency } : LandedVote) = vote' := by
        rw [hnew.1, ← latency_confirm vote depth, ← hconfirm]
      rw [cons_append, cons_append, cons_append, mergeVotes, mergeVote,
        if_neg (by omega), if_pos hslot.symm, if_neg (not_lt.mpr hcount), ih hprop, hkept]

theorem mergeVotes_expired {expired later : List LandedVote} {new : LandedVote}
    (hexp : ∀ vote ∈ expired, vote.slot < new.slot ∧ vote.lockout.lastLockedOutSlot < new.slot) :
    mergeVotes expired (new :: later) = .ok (new :: later) := by
  induction expired with
  | nil => rfl
  | cons vote expired ih =>
    rw [forall_mem_cons] at hexp
    rw [mergeVotes, mergeVote, if_pos hexp.1.1, if_neg (not_le.mpr hexp.1.2)]
    exact ih hexp.2

omit [VoteInterface] in
theorem rootedVotes_above {newRoot index : ℕ} (h : ∀ vote ∈ votes, newRoot < vote.slot) :
    rootedVotes state newRoot votes index earnedCredits = .ok (index, earnedCredits) := by
  cases votes with
  | nil => rfl
  | cons vote votes => rw [rootedVotes, if_neg (not_le.mpr (h vote (by simp)))]

omit [VoteInterface] in
theorem creditsForVoteAtIndex_le (index : ℕ) :
    state.creditsForVoteAtIndex index ≤ voteCreditsMaximumPerSlot := by
  unfold creditsForVoteAtIndex
  dsimp only
  generalize (state.votes[index]?.map LandedVote.latency).getD 0 = latency
  by_cases hzero : latency = 0
  · rw [if_pos hzero]
    decide
  by_cases hgrace : latency ≤ voteCreditsGraceSlots
  · rw [if_neg hzero, if_pos hgrace]
  rw [if_neg hzero, if_neg hgrace]
  split
  · decide
  · exact Nat.sub_le _ _

omit [VoteInterface] in
theorem map_setLatency (h : ∀ vote ∈ votes, vote.latency ≠ 0) (currentSlot : ℕ) :
    votes.map (setLatency currentSlot) = votes := by
  rw [map_congr_left (g := id), map_id]
  intro vote hvote
  rw [setLatency, if_neg (h vote hvote), id]

theorem Regular.checkVotes_proposed (h : Regular state)
    (hprop : Proposes state.votes proposed) :
    proposed.length ≤ maxLockoutHistory ∧ checkVotes state.rootSlot none proposed = .ok () := by
  have hlocks := hprop.lockouts
  have hstack : LockoutStack proposed := by
    apply LockoutStack.map_lockout.mp
    change LockoutStack (proposed.map LandedVote.lockout)
    rw [hlocks]
    exact LockoutStack.map_lockout.mpr h.stack
  refine ⟨hstack.length_le, checkVotes_eq_ok.mpr ⟨hstack, ?_⟩⟩
  intro root hroot _ vote hvote
  have hmem : vote.lockout ∈ state.votes.map LandedVote.lockout := by
    rw [← hlocks]
    exact mem_map_of_mem hvote
  rcases mem_map.mp hmem with ⟨stored, hstor, heq⟩
  rw [LandedVote.slot, ← heq]
  exact (h.root root hroot).2 stored hstor

theorem processNewVoteState_of_check {newState merged : List LandedVote} {newRoot : Option ℕ}
    (epoch currentSlot : ℕ)
    (hcheck : checkNewVoteState state newState newRoot = .ok (earnedCredits, merged)) :
    processNewVoteState state newState newRoot none epoch currentSlot = .ok
      { (if state.rootSlot ≠ newRoot then state.incrementCredits epoch earnedCredits else state) with
        rootSlot := newRoot, votes := merged.map (setLatency currentSlot) } := by
  unfold processNewVoteState
  rw [hcheck]

theorem Regular.rootVotes_same (h : Regular state) :
    rootVotes state state.rootSlot = .ok (0, 0) := by
  unfold rootVotes
  split
  next root heq => exact rootedVotes_above (h.root root heq).2
  next => rfl

theorem Regular.process_same (h : Regular state) (hne : state.votes ≠ [])
    (hprop : Proposes state.votes proposed) (epoch currentSlot : ℕ) :
    processNewVoteState state proposed state.rootSlot none epoch currentSlot = .ok state := by
  rcases h.checkVotes_proposed hprop with ⟨hlen, hcheck⟩
  have hconf : List.Forall₂ (fun vote vote' : LandedVote => ∃ depth, vote' = confirm vote depth)
      state.votes state.votes := by
    rw [forall₂_same]
    exact fun vote _ => ⟨0, rfl⟩
  have hmerged := mergeVotes_confirmed hconf hprop (rfl : mergeVotes [] [] = .ok [])
  rw [append_nil, append_nil] at hmerged
  have hpassed := checkNewVoteState_eq_ok.mpr ⟨?_, hlen, ?_, hcheck, 0, h.rootVotes_same, hmerged⟩
  · rw [processNewVoteState_of_check epoch currentSlot hpassed, if_neg (by simp),
      map_setLatency h.latency]
  · intro hnil
    have hlocks := hprop.lockouts
    rw [hnil] at hlocks
    exact hne (map_eq_nil_iff.mp hlocks.symm)
  · exact rollsRootBack_eq_false.mpr (fun root hroot => ⟨root, hroot, le_rfl⟩)

section Voted

variable (h : Regular state) (hsplit : Splits state.votes nextVoteSlot rooted kept expired)

include h hsplit

theorem Regular.rootVotes_voted :
    rootVotes state (rooted.elim state.rootSlot (fun oldest => some oldest.slot)) =
      .ok (rooted.toList.length, rooted.elim 0 (fun _ => state.creditsForVoteAtIndex 0)) := by
  cases rooted with
  | none => exact h.rootVotes_same
  | some oldest =>
    have hvotes : state.votes = oldest :: (kept ++ expired) := hsplit.votes
    have hslots := h.stack.slots
    rw [hvotes, pairwise_cons] at hslots
    have hcred := state.creditsForVoteAtIndex_le 0
    change rootedVotes state oldest.slot state.votes 0 0 = .ok (1, state.creditsForVoteAtIndex 0)
    rw [hvotes, rootedVotes, if_pos le_rfl, if_neg, Nat.zero_add, Nat.zero_add]
    · exact rootedVotes_above hslots.1
    · simp only [voteCreditsMaximumPerSlot, u64Max] at hcred ⊢
      omega

variable (hnew : state.lastVotedSlot.any (nextVoteSlot ≤ ·) = false)
  (hcurrent : nextVoteSlot < currentSlot)
  (hprop : Proposes (voted state nextVoteSlot epoch currentSlot rooted kept).votes proposed)

include hnew hcurrent hprop

theorem Regular.mergeVotes_voted :
    ∃ merged, mergeVotes (state.votes.drop rooted.toList.length) proposed = .ok merged ∧
      merged.map (setLatency currentSlot) =
        (voted state nextVoteSlot epoch currentSlot rooted kept).votes := by
  have hslots := slot_lt_of_new h.stack hnew
  have hlatency : ∀ vote ∈ (voted state nextVoteSlot epoch currentSlot rooted kept).votes,
      vote.latency ≠ 0 := (h.next hsplit hnew hcurrent).latency
  have hlanded : confirmationCount (⟨computeVoteLatency nextVoteSlot currentSlot,
      .new nextVoteSlot⟩ : LandedVote) = 1 := rfl
  rcases doubleLockouts_concat kept hlanded with ⟨confirmed, hdoubled, hconf⟩
  have hvotes : (voted state nextVoteSlot epoch currentSlot rooted kept).votes =
      confirmed ++ [⟨computeVoteLatency nextVoteSlot currentSlot, .new nextVoteSlot⟩] := hdoubled
  rw [hvotes] at hprop hlatency ⊢
  rcases hprop.concat_inv with ⟨before, new, heq, hbefore, hlock, hnewLatency⟩
  have hslot : new.slot = nextVoteSlot := by
    rw [LandedVote.slot, hlock]
    rfl
  have hexp : mergeVotes expired [new] = .ok [new] := by
    apply mergeVotes_expired
    intro vote hvote
    rw [hslot]
    refine ⟨hslots vote ?_, hsplit.expired vote hvote⟩
    rw [hsplit.votes]
    simp [hvote]
  refine ⟨confirmed ++ [new], ?_, ?_⟩
  · rw [hsplit.votes, drop_left, heq]
    exact mergeVotes_confirmed hconf hbefore hexp
  · rw [map_append, map_setLatency (fun vote hvote => hlatency vote (by simp [hvote])),
      map_singleton]
    congr 2
    -- the latency of the new vote is computed now or was proposed
    unfold setLatency
    split
    next => rw [hslot, hlock]
    next hne =>
      have hkept := hnewLatency.resolve_left hne
      cases new
      cases hkept
      cases hlock
      rfl

theorem Regular.process_voted :
    processNewVoteState state proposed
        (rooted.elim state.rootSlot (fun oldest => some oldest.slot)) none epoch currentSlot =
      .ok (voted state nextVoteSlot epoch currentSlot rooted kept) := by
  have hregular : Regular (voted state nextVoteSlot epoch currentSlot rooted kept) :=
    h.next hsplit hnew hcurrent
  rcases hregular.checkVotes_proposed hprop with ⟨hlen, hcheck⟩
  rcases h.mergeVotes_voted hsplit hnew hcurrent hprop with ⟨merged, hmerged, hvotes⟩
  have hne : proposed ≠ [] := by
    intro hnil
    have hlocks := congrArg length hprop.lockouts
    rw [hnil] at hlocks
    simp [voted] at hlocks
  have hback : rollsRootBack (rooted.elim state.rootSlot (fun oldest => some oldest.slot))
      state.rootSlot = false := by
    rw [rollsRootBack_eq_false]
    intro root hroot
    cases rooted with
    | none => exact ⟨root, hroot, le_rfl⟩
    | some oldest =>
      refine ⟨oldest.slot, rfl, ((h.root root hroot).2 oldest ?_).le⟩
      rw [hsplit.votes]
      simp
  have hpassed := checkNewVoteState_eq_ok.mpr
    ⟨hne, hlen, hback, hcheck, _, h.rootVotes_voted hsplit, hmerged⟩
  rw [processNewVoteState_of_check epoch currentSlot hpassed, hvotes]
  cases rooted with
  | none =>
    rw [if_neg (by simp)]
    rfl
  | some oldest =>
    have hmoved : state.rootSlot ≠
        (some oldest).elim state.rootSlot (fun oldest => some oldest.slot) := by
      intro heq
      have hlt := (h.root oldest.slot heq).2 oldest (by rw [hsplit.votes]; simp)
      omega
    rw [if_pos hmoved]
    rfl

end Voted

/-! ## Whole histories -/

structure Landing where
  slot : ℕ
  epoch : ℕ
  currentSlot : ℕ

def incremental (state : VoteStateHandler) (landing : Landing) : VoteStateHandler :=
  state.processNextVoteSlot landing.slot landing.epoch landing.currentSlot

def fullTower (propose : List LandedVote → List LandedVote) (state : VoteStateHandler)
    (landing : Landing) : Except VoteFailure VoteStateHandler :=
  state.processNewVoteState (propose (state.incremental landing).votes)
    (state.incremental landing).rootSlot none landing.epoch landing.currentSlot

theorem Regular.fullTower_eq (h : Regular state) {propose : List LandedVote → List LandedVote}
    (hpropose : ∀ votes, Proposes votes (propose votes)) {landing : Landing}
    (hcurrent : landing.slot < landing.currentSlot) :
    fullTower propose state landing = .ok (state.incremental landing) ∧
      Regular (state.incremental landing) := by
  unfold fullTower incremental
  cases hnew : state.lastVotedSlot.any (landing.slot ≤ ·) with
  | true =>
    have hsame : state.processNextVoteSlot landing.slot landing.epoch landing.currentSlot =
        state := by
      rw [processNextVoteSlot, if_pos hnew]
    rw [hsame]
    refine ⟨h.process_same ?_ (hpropose _) _ _, h⟩
    intro hnil
    simp [lastVotedSlot, hnil] at hnew
  | false =>
    rcases processNextVoteSlot_eq landing.epoch landing.currentSlot hnew with
      ⟨rooted, kept, expired, hsplit, hvoted⟩
    rw [hvoted]
    exact ⟨h.process_voted hsplit hnew hcurrent (hpropose _), h.next hsplit hnew hcurrent⟩

/-- From a well-formed tower above its root whose votes have their latencies, voting slot
by slot and proposing the tower each time, with or without latencies, both succeed and
lead to the same state: the same votes, root and credits. -/
theorem incremental_eq_full_tower (propose : List LandedVote → List LandedVote)
    (hpropose : ∀ votes, Proposes votes (propose votes)) (state : VoteStateHandler)
    (hregular : Regular state) (landings : List Landing)
    (hcurrent : ∀ landing ∈ landings, landing.slot < landing.currentSlot) :
    landings.foldlM (fullTower propose) state = .ok (landings.foldl incremental state) := by
  induction landings generalizing state with
  | nil => rfl
  | cons landing landings ih =>
    rw [forall_mem_cons] at hcurrent
    rcases hregular.fullTower_eq hpropose hcurrent.1 with ⟨heq, hnext⟩
    rw [foldlM_cons, heq]
    exact ih _ hnext hcurrent.2

end

theorem proposes_ofLockout (votes : List LandedVote) :
    Proposes votes (votes.map (fun vote => .ofLockout vote.lockout)) := by
  unfold Proposes
  rw [forall₂_map_right_iff, forall₂_same]
  exact fun _ _ => ⟨rfl, Or.inl rfl⟩

attribute [local instance] doublingLockouts

/-- Thirty-three votes in a row root the slots 0 and 1. -/
theorem incremental_eq_full_tower_rooted :
    let state : VoteStateHandler := ⟨[], none, [], ⟨0, 0⟩⟩
    let landings : List Landing := (range 33).map (fun slot => ⟨slot, 0, slot + 1⟩)
    (landings.foldl incremental state).rootSlot = some 1 ∧
      landings.foldlM (fullTower (fun votes => votes.map (fun vote => .ofLockout vote.lockout)))
        state = .ok (landings.foldl incremental state) := by
  intro state landings
  have hregular : Regular state := ⟨.nil, by simp [state], by simp [state]⟩
  have hroot : (landings.foldl incremental state).rootSlot = some 1 := by decide +kernel
  refine ⟨hroot, incremental_eq_full_tower _ proposes_ofLockout state hregular landings ?_⟩
  simp [landings]

/-- A stored vote without its latency stays so when the next slot is voted, but gets one
when the tower is proposed. -/
theorem zero_latency_diverges :
    let state : VoteStateHandler := ⟨[⟨0, ⟨10, 1⟩⟩], none, [], ⟨0, 0⟩⟩
    let propose : List LandedVote → List LandedVote :=
      fun votes => votes.map (fun vote => .ofLockout vote.lockout)
    (incremental state ⟨11, 0, 12⟩).votes = [⟨0, ⟨10, 2⟩⟩, ⟨1, ⟨11, 1⟩⟩] ∧
      fullTower propose state ⟨11, 0, 12⟩ = .ok ⟨[⟨2, ⟨10, 2⟩⟩, ⟨1, ⟨11, 1⟩⟩], none, [], ⟨0, 0⟩⟩ ∧
      fullTower propose state ⟨11, 0, 12⟩ ≠ .ok (incremental state ⟨11, 0, 12⟩) := by
  decide +kernel

end VoteStateHandler

end RakuraiValidator.Vote
