import RakuraiValidator.LockoutStacks

/-!
# Vote states

The vote program keeps the tower of a validator with the latencies of its votes, its
root and the credits it earned.  A vote changes the tower by one slot, or a tower is
proposed as a whole and checked against the stored one.
-/

namespace RakuraiValidator.Vote

open LockoutEntry List

def maxEpochCreditsHistory : ℕ := 64

def voteCreditsGraceSlots : ℕ := 2

def voteCreditsMaximumPerSlot : ℕ := 16

def u8Max : ℕ := 255

/-- A latency of zero stands for a vote which was stored without its latency. -/
structure LandedVote where
  latency : ℕ
  lockout : Lockout
deriving DecidableEq

namespace LandedVote

def slot (vote : LandedVote) : ℕ := vote.lockout.slot

def confirmationCount (vote : LandedVote) : ℕ := vote.lockout.confirmationCount

def ofLockout (lockout : Lockout) : LandedVote := ⟨0, lockout⟩

end LandedVote

instance : LockoutEntry LandedVote where
  lockout := LandedVote.lockout
  withLockout vote lockout := { vote with lockout }
  lockout_withLockout _ _ := rfl

structure BlockTimestamp where
  slot : ℕ
  timestamp : ℤ
deriving DecidableEq

inductive VoteError
  | tooManyVotes
  | rootRollBack
  | zeroConfirmations
  | confirmationTooLarge
  | slotSmallerThanRoot
  | slotsNotOrdered
  | confirmationsNotOrdered
  | newVoteStateLockoutMismatch
  | lockoutConflict
  | confirmationRollBack
  | timestampTooOld
deriving DecidableEq

inductive VoteFailure
  | error (error : VoteError)
  | emptyNewState
  | earnedCreditsOverflow
deriving DecidableEq

def computeVoteLatency (votedForSlot currentSlot : ℕ) : ℕ := min (currentSlot - votedForSlot) u8Max

structure VoteStateHandler where
  votes : List LandedVote
  rootSlot : Option ℕ
  /-- Epoch, credits at its end and credits at its start. -/
  epochCredits : List (ℕ × ℕ × ℕ)
  lastTimestamp : BlockTimestamp
deriving DecidableEq

variable {vote : LandedVote}

namespace VoteStateHandler

variable (state : VoteStateHandler)

def lastVotedSlot : Option ℕ := state.votes.getLast?.map LandedVote.slot

/-! ## Credits and timestamps -/

def creditsForVoteAtIndex (index : ℕ) : ℕ :=
  let latency := (state.votes[index]?.map LandedVote.latency).getD 0
  if latency = 0 then 1
  else if latency ≤ voteCreditsGraceSlots then voteCreditsMaximumPerSlot
  else if voteCreditsMaximumPerSlot ≤ latency - voteCreditsGraceSlots then 1
  else voteCreditsMaximumPerSlot - (latency - voteCreditsGraceSlots)

def enterEpoch (epochCredits : List (ℕ × ℕ × ℕ)) (epoch : ℕ) : List (ℕ × ℕ × ℕ) :=
  match epochCredits.getLast? with
  | none => [(epoch, 0, 0)]
  | some (lastEpoch, credits, prevCredits) =>
    if epoch ≠ lastEpoch then
      let entered :=
        if credits ≠ prevCredits then epochCredits ++ [(epoch, credits, credits)]
        else epochCredits.dropLast ++ [(epoch, credits, prevCredits)]
      if maxEpochCreditsHistory < entered.length then entered.tail else entered
    else epochCredits

def incrementCredits (epoch credits : ℕ) : VoteStateHandler :=
  let entered := enterEpoch state.epochCredits epoch
  { state with
    epochCredits :=
      match entered.getLast? with
      | none => entered
      | some (epoch, total, prevCredits) =>
        entered.dropLast ++ [(epoch, min (total + credits) u64Max, prevCredits)] }

def processTimestamp (slot : ℕ) (timestamp : ℤ) :
    Except VoteFailure VoteStateHandler :=
  let last := state.lastTimestamp
  if (slot < last.slot ∨ timestamp < last.timestamp) ∨
      (slot = last.slot ∧ (⟨slot, timestamp⟩ : BlockTimestamp) ≠ last ∧ last.slot ≠ 0) then
    .error (.error .timestampTooOld)
  else .ok { state with lastTimestamp := ⟨slot, timestamp⟩ }

/-! ## One vote -/

variable [VoteInterface]

def processNextVoteSlot (nextVoteSlot epoch currentSlot : ℕ) :
    VoteStateHandler :=
  if state.lastVotedSlot.any (nextVoteSlot ≤ ·) then state
  else
    let state := { state with votes := popExpiredVotes state.votes nextVoteSlot }
    let landedVote : LandedVote :=
      ⟨computeVoteLatency nextVoteSlot currentSlot, .new nextVoteSlot⟩
    let state :=
      match state.votes with
      | oldest :: votes =>
        if state.votes.length = maxLockoutHistory then
          { state with votes := votes, rootSlot := some oldest.slot }.incrementCredits epoch
            (state.creditsForVoteAtIndex 0)
        else state
      | [] => state
    { state with votes := doubleLockouts (state.votes ++ [landedVote]) }

/-! ## A proposed tower -/

def checkVote (newRoot : Option ℕ) (previousVote : Option LandedVote) (vote : LandedVote) :
    Except VoteError Unit :=
  if vote.confirmationCount = 0 then .error .zeroConfirmations
  else if maxLockoutHistory < vote.confirmationCount then .error .confirmationTooLarge
  else if newRoot.any (fun root => vote.slot ≤ root ∧ root ≠ 0) then .error .slotSmallerThanRoot
  else
    match previousVote with
    | none => .ok ()
    | some previous =>
      if vote.slot ≤ previous.slot then .error .slotsNotOrdered
      else if previous.confirmationCount ≤ vote.confirmationCount then
        .error .confirmationsNotOrdered
      else if previous.lockout.lastLockedOutSlot < vote.slot then
        .error .newVoteStateLockoutMismatch
      else .ok ()

def checkVotes (newRoot : Option ℕ) : Option LandedVote → List LandedVote → Except VoteError Unit
  | _, [] => .ok ()
  | previousVote, vote :: votes =>
    match checkVote newRoot previousVote vote with
    | .error error => .error error
    | .ok () => checkVotes newRoot (some vote) votes

/-- The credits of the votes at or below the new root and the index of the first vote
above it. -/
def rootedVotes (state : VoteStateHandler) (newRoot : ℕ) :
    List LandedVote → ℕ → ℕ → Except VoteFailure (ℕ × ℕ)
  | [], index, earnedCredits => .ok (index, earnedCredits)
  | currentVote :: votes, index, earnedCredits =>
    if currentVote.slot ≤ newRoot then
      if u64Max < earnedCredits + state.creditsForVoteAtIndex index then
        .error .earnedCreditsOverflow
      else rootedVotes state newRoot votes (index + 1)
        (earnedCredits + state.creditsForVoteAtIndex index)
    else .ok (index, earnedCredits)

/-- One stored vote against the proposed ones: either a later vote has popped it, or it
is proposed with at least the same lockout and keeps its latency. -/
def mergeVote (currentVote : LandedVote)
    (mergeRest : List LandedVote → Except VoteError (List LandedVote)) :
    List LandedVote → Except VoteError (List LandedVote)
  | [] => .ok []
  | newVote :: votes =>
    if currentVote.slot < newVote.slot then
      if newVote.slot ≤ currentVote.lockout.lastLockedOutSlot then .error .lockoutConflict
      else mergeRest (newVote :: votes)
    else if currentVote.slot = newVote.slot then
      if newVote.confirmationCount < currentVote.confirmationCount then
        .error .confirmationRollBack
      else
        match mergeRest votes with
        | .error error => .error error
        | .ok merged => .ok ({ newVote with latency := currentVote.latency } :: merged)
    else
      match mergeVote currentVote mergeRest votes with
      | .error error => .error error
      | .ok merged => .ok (newVote :: merged)

/-- The stored votes against the proposed ones, both from the oldest to the newest. -/
def mergeVotes : List LandedVote → List LandedVote → Except VoteError (List LandedVote)
  | [] => fun newState => .ok newState
  | currentVote :: votes => mergeVote currentVote (mergeVotes votes)

def setLatency (currentSlot : ℕ) (vote : LandedVote) : LandedVote :=
  if vote.latency = 0 then { vote with latency := computeVoteLatency vote.slot currentSlot }
  else vote

def rollsRootBack : Option ℕ → Option ℕ → Bool
  | some newRoot, some currentRoot => newRoot < currentRoot
  | none, some _ => true
  | _, none => false

/-- The index of the first stored vote above the new root and the credits of those
which it roots. -/
def rootVotes (newRoot : Option ℕ) : Except VoteFailure (ℕ × ℕ) :=
  match newRoot with
  | some newRoot => rootedVotes state newRoot state.votes 0 0
  | none => .ok (0, 0)

/-- The checks of a proposed tower; they give the earned credits and the votes with the
latencies of the stored ones. -/
def checkNewVoteState (newState : List LandedVote) (newRoot : Option ℕ) :
    Except VoteFailure (ℕ × List LandedVote) :=
  if newState = [] then .error .emptyNewState
  else if maxLockoutHistory < newState.length then .error (.error .tooManyVotes)
  else if rollsRootBack newRoot state.rootSlot then .error (.error .rootRollBack)
  else
    match checkVotes newRoot none newState with
    | .error error => .error (.error error)
    | .ok () =>
      match rootVotes state newRoot with
      | .error failure => .error failure
      | .ok (index, earnedCredits) =>
        match mergeVotes (state.votes.drop index) newState with
        | .error error => .error (.error error)
        | .ok merged => .ok (earnedCredits, merged)

def processNewVoteState (newState : List LandedVote)
    (newRoot : Option ℕ) (timestamp : Option ℤ) (epoch currentSlot : ℕ) :
    Except VoteFailure VoteStateHandler :=
  match checkNewVoteState state newState newRoot with
  | .error failure => .error failure
  | .ok (earnedCredits, merged) =>
    let votes := merged.map (setLatency currentSlot)
    let credited :=
      if state.rootSlot ≠ newRoot then state.incrementCredits epoch earnedCredits else state
    let stamped :=
      match timestamp with
      | some timestamp =>
        credited.processTimestamp ((votes.getLast?.map LandedVote.slot).getD 0) timestamp
      | none => .ok credited
    match stamped with
    | .error failure => .error failure
    | .ok state => .ok { state with rootSlot := newRoot, votes := votes }

/-! ## What the checks guarantee -/

variable {state : VoteStateHandler} {newState : List LandedVote} {newRoot : Option ℕ}

def VoteAllowed (newRoot : Option ℕ) (vote : LandedVote) : Prop :=
  (0 < vote.confirmationCount ∧ vote.confirmationCount ≤ maxLockoutHistory) ∧
    ∀ root ∈ newRoot, root ≠ 0 → root < vote.slot

variable {previousVote : Option LandedVote}

theorem checkVote_eq_ok :
    checkVote newRoot previousVote vote = .ok () ↔
      VoteAllowed newRoot vote ∧ ∀ previous ∈ previousVote, LockoutStack.Follows previous vote := by
  have hroot : newRoot.any (fun root => vote.slot ≤ root ∧ root ≠ 0) = false ↔
      ∀ root ∈ newRoot, root ≠ 0 → root < vote.slot := by
    cases newRoot with
    | none => simp
    | some root =>
      simp only [Option.any_some, Bool.decide_and, Bool.and_eq_false_iff, decide_eq_false_iff_not,
        Option.mem_some_iff, forall_eq']
      omega
  have hfollows : ∀ previous : LandedVote, LockoutStack.Follows previous vote ↔
      previous.slot < vote.slot ∧ vote.confirmationCount < previous.confirmationCount ∧
        vote.slot ≤ previous.lockout.lastLockedOutSlot := fun _ => Iff.rfl
  unfold checkVote VoteAllowed
  rw [← hroot]
  cases previousVote with
  | none =>
    simp only [Option.not_mem_none, false_implies, implies_true, and_true]
    grind
  | some previous =>
    simp only [Option.mem_some_iff, forall_eq', hfollows]
    grind

theorem checkVotes_cons :
    checkVotes newRoot previousVote (vote :: newState) = .ok () ↔
      checkVote newRoot previousVote vote = .ok () ∧
        checkVotes newRoot (some vote) newState = .ok () := by
  rw [checkVotes]
  split
  next heq => simp [heq]
  next heq => simp [heq]

theorem checkVotes_some {previous : LandedVote} :
    checkVotes newRoot (some previous) newState = .ok () ↔
      (previous :: newState).IsChain LockoutStack.Follows ∧
        ∀ vote ∈ newState, VoteAllowed newRoot vote := by
  induction newState generalizing previous with
  | nil => simp [checkVotes]
  | cons vote votes ih =>
    rw [checkVotes_cons, checkVote_eq_ok, ih, isChain_cons_cons, forall_mem_cons]
    simp only [Option.mem_some_iff, forall_eq']
    tauto

theorem checkVotes_eq_ok :
    checkVotes newRoot none newState = .ok () ↔
      LockoutStack newState ∧ ∀ root ∈ newRoot, root ≠ 0 → ∀ vote ∈ newState, root < vote.slot := by
  rw [LockoutStack.iff_isChain]
  cases newState with
  | nil => simp [checkVotes]
  | cons vote votes =>
    rw [checkVotes_cons, checkVote_eq_ok, checkVotes_some]
    constructor
    · intro h
      refine ⟨⟨h.2.1, ?_⟩, ?_⟩
      · rw [forall_mem_cons]
        exact ⟨h.1.1.1, fun other hother => (h.2.2 other hother).1⟩
      · intro root hroot hne
        rw [forall_mem_cons]
        exact ⟨h.1.1.2 root hroot hne, fun other hother => (h.2.2 other hother).2 root hroot hne⟩
    · intro h
      have hallow : ∀ other ∈ vote :: votes, VoteAllowed newRoot other :=
        fun other hother => ⟨h.1.2 other hother, fun root hroot hne => h.2 root hroot hne other hother⟩
      rw [forall_mem_cons] at hallow
      exact ⟨⟨hallow.1, by simp⟩, h.1.1, hallow.2⟩

omit [VoteInterface] in
theorem rollsRootBack_eq_false {newRoot currentRoot : Option ℕ} :
    rollsRootBack newRoot currentRoot = false ↔
      ∀ root ∈ currentRoot, ∃ root' ∈ newRoot, root ≤ root' := by
  cases newRoot <;> cases currentRoot <;> simp [rollsRootBack]

theorem checkNewVoteState_eq_ok {earnedCredits : ℕ} {merged : List LandedVote} :
    checkNewVoteState state newState newRoot = .ok (earnedCredits, merged) ↔
      newState ≠ [] ∧ newState.length ≤ maxLockoutHistory ∧
        rollsRootBack newRoot state.rootSlot = false ∧ checkVotes newRoot none newState = .ok () ∧
        ∃ index, rootVotes state newRoot = .ok (index, earnedCredits) ∧
          mergeVotes (state.votes.drop index) newState = .ok merged := by
  unfold checkNewVoteState
  constructor
  · intro h
    split at h
    next => cases h
    next hempty =>
      split at h
      next => cases h
      next hlong =>
        split at h
        next => cases h
        next hback =>
          split at h
          next => cases h
          next hcheck =>
            split at h
            next => cases h
            next index credits hrooted =>
              split at h
              next => cases h
              next hmerged =>
                cases h
                exact ⟨hempty, not_lt.mp hlong, by simpa using hback, hcheck, index, hrooted,
                  hmerged⟩
  · rintro ⟨hempty, hlong, hback, hcheck, index, hrooted, hmerged⟩
    simp [hempty, not_lt.mpr hlong, hback, hcheck, hrooted, hmerged]

end VoteStateHandler

end RakuraiValidator.Vote
