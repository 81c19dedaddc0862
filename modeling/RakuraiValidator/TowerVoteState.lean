import RakuraiValidator.BlockTrees
import RakuraiValidator.LockoutStacks

/-!
# The local tower

A validator keeps its own tower: the stack of its lockouts and a root.  It only votes
for slots which are not locked out.
-/

namespace RakuraiValidator.Consensus

open Vote LockoutEntry

structure TowerVoteState where
  votes : List Lockout
  rootSlot : Option ℕ
deriving DecidableEq

namespace TowerVoteState

variable (state : TowerVoteState)

def lastVotedSlot : Option ℕ := state.votes.getLast?.map Lockout.slot

def tower : List ℕ := state.votes.map Lockout.slot

variable [VoteInterface]

def processNextVoteSlot (nextVoteSlot : ℕ) : TowerVoteState :=
  if state.lastVotedSlot.any (nextVoteSlot ≤ ·) then state
  else
    let state := { state with votes := popExpiredVotes state.votes nextVoteSlot }
    let state :=
      match state.votes with
      | rootedVote :: votes =>
        if state.votes.length = maxLockoutHistory then
          { state with votes := votes, rootSlot := some rootedVote.slot }
        else state
      | [] => state
    { state with votes := doubleLockouts (state.votes ++ [.new nextVoteSlot]) }

end TowerVoteState

/-- A vote transaction: the whole tower with the hash and the id of the last block. -/
structure TowerSync where
  lockouts : List Lockout
  root : Option ℕ
  hash : ℕ
  blockId : ℕ
deriving DecidableEq

structure Tower where
  voteState : TowerVoteState
  lastVote : TowerSync
  /-- The last vote of a restored tower when it is not on the replayed chain. -/
  strayRestoredSlot : Option ℕ
deriving DecidableEq

/-- The panics of the tower, the last ones in the check of a switch between forks. -/
inductive TowerPanic
  | voteTooOld
  | noRoot
  | rootNotAncestor
  | switchSlotNotFrozen
  | noLastVoteAncestors
  | noSwitchSlotAncestors
  | switchToAncestor
  | emptyAncestorsNotStray
  | noCandidateAncestors
  | candidateIsAncestor
  | noCandidateProgress
deriving DecidableEq

namespace Tower

variable (tower : Tower)

def lastVotedSlot : Option ℕ := tower.lastVote.lockouts.getLast?.map Lockout.slot

def lastVotedSlotHash : Option (ℕ × ℕ) :=
  tower.lastVotedSlot.map (fun slot => (slot, tower.lastVote.hash))

def isStrayLastVote : Bool :=
  tower.strayRestoredSlot.isSome && tower.strayRestoredSlot = tower.lastVotedSlot

def root (tower : Tower) : Except TowerPanic ℕ :=
  match tower.voteState.rootSlot with
  | some root => .ok root
  | none => .error .noRoot

def updateLastVoteFromVoteState (voteHash blockId : ℕ) : Tower :=
  { tower with
    lastVote := ⟨tower.voteState.votes, tower.voteState.rootSlot, voteHash, blockId⟩ }

variable [VoteInterface]

def recordBankVoteAndUpdateLockouts (voteSlot voteHash blockId : ℕ) :
    Except TowerPanic (Tower × Option ℕ) :=
  if tower.voteState.lastVotedSlot.any (voteSlot ≤ ·) then .error .voteTooOld
  else do
    let oldRoot ← tower.root
    let voted := { tower with voteState := tower.voteState.processNextVoteSlot voteSlot }
    let recorded := voted.updateLastVoteFromVoteState voteHash blockId
    let newRoot ← recorded.root
    pure (recorded, if oldRoot ≠ newRoot then some newRoot else none)

def isRecent (slot : ℕ) : Bool :=
  match tower.voteState.lastVotedSlot with
  | some lastVotedSlot => lastVotedSlot < slot
  | none => !tower.voteState.rootSlot.any (slot ≤ ·)

/-- A vote for the slot is simulated, so that expired votes do not count. -/
def isLockedOut (slot : ℕ) (ancestors : Finset ℕ) : Except TowerPanic Bool :=
  if !tower.isRecent slot then .ok true
  else
    let voteState := tower.voteState.processNextVoteSlot slot
    if voteState.votes.any (fun vote => slot ≠ vote.slot ∧ vote.slot ∉ ancestors) then .ok true
    else if voteState.rootSlot.any (fun root => slot ≠ root ∧ root ∉ ancestors) then
      .error .rootNotAncestor
    else .ok false

end Tower

end RakuraiValidator.Consensus
