import RakuraiValidator.Tallies
import RakuraiValidator.TowerVoteState

/-!
# The decision to switch forks

A vote on another fork than the last vote needs a switching proof: enough stake has to
be locked out of the last vote.  The maps of the source are read through lookups, and
those it iterates over are lists in any order.
-/

namespace RakuraiValidator.Consensus

inductive SwitchForkDecision
  | switchProof (hash : ℕ)
  | sameFork
  | failedSwitchThreshold (switchProofStake totalStake : ℕ)
  | failedSwitchDuplicateRollback (latestDuplicateAncestor : ℕ)
deriving DecidableEq

def defaultHash : ℕ := 0

structure LockoutInterval (Pubkey : Type) where
  voter : Pubkey
  start : ℕ
  expiration : ℕ

structure ForkStats (Pubkey : Type) where
  computed : Bool
  lockoutIntervals : List (LockoutInterval Pubkey)
  bankHash : Option ℕ

/-- The stakes of the vote accounts, which are parts of one supply. -/
structure EpochVoteAccounts (Pubkey : Type) where
  get : Pubkey → Option ℕ
  fits : ∀ accounts : Finset Pubkey, ∑ account ∈ accounts, (get account).getD 0 < 2 ^ 64

def EpochVoteAccounts.stake {Pubkey : Type} (accounts : EpochVoteAccounts Pubkey)
    (account : Pubkey) : ℕ :=
  (accounts.get account).getD 0

/-- What the heaviest subtree fork choice says about slots and their hashes. -/
structure ForkChoice where
  latestInvalidAncestor : ℕ × ℕ → Option ℕ
  isStrictAncestor : ℕ × ℕ → ℕ × ℕ → Bool

/-- The banks, their progress and the stakes, as the switch check gets them. -/
structure SwitchView (Pubkey : Type) where
  ancestors : ℕ → Option (Finset ℕ)
  descendants : List (ℕ × List ℕ)
  progress : ℕ → Option (ForkStats Pubkey)
  totalStake : ℕ
  epochVoteAccounts : EpochVoteAccounts Pubkey
  maxGossipFrozenVotes : List (Pubkey × ℕ × List ℕ)
  forkChoice : ForkChoice

namespace SwitchView

variable {Pubkey : Type} (view : SwitchView Pubkey)

def getHash (slot : ℕ) : Option ℕ := (view.progress slot).bind ForkStats.bankHash

def isComputed (slot : ℕ) : Bool := (view.progress slot).any ForkStats.computed

def ExceedsThreshold (lockedOutStake : ℕ) : Prop := 38 * view.totalStake < 100 * lockedOutStake

instance : DecidablePred view.ExceedsThreshold :=
  fun lockedOutStake => inferInstanceAs (Decidable (_ < 100 * lockedOutStake))

def isDescendantSlot (maybeDescendant slot : ℕ) : Option Bool :=
  (view.ancestors maybeDescendant).map (fun ancestors => decide (slot ∈ ancestors))

def greatestCommonAncestor (slotA slotB : ℕ) : Option ℕ := do
  let ancestorsA ← view.ancestors slotA
  let ancestorsB ← view.ancestors slotB
  (ancestorsA ∩ ancestorsB).max

end SwitchView

structure SwitchCheck where
  root : ℕ
  lastVotedSlot : ℕ
  switchSlot : ℕ
  lastVoteAncestors : Finset ℕ

namespace Tower

variable {Pubkey : Type} [DecidableEq Pubkey]

variable (tower : Tower) (view : SwitchView Pubkey) (check : SwitchCheck)

/-- Is a vote for the candidate usable in a switching proof?  `None` if the candidate is
not a bank. -/
def isValidSwitchingProofVote (candidateSlot : ℕ) :
    Except TowerPanic (Option Bool) :=
  match view.isDescendantSlot candidateSlot check.lastVotedSlot with
  | none => .ok none
  | some true => .ok (some false)
  | some false =>
    if check.lastVoteAncestors = ∅ then
      if tower.isStrayLastVote then .ok (some true) else .error .emptyAncestorsNotStray
    else
      .ok ((view.greatestCommonAncestor candidateSlot check.lastVotedSlot).bind
        (fun ancestor => view.isDescendantSlot check.switchSlot ancestor))

variable (tally : Tally Pubkey)

abbrev addStake (account : Pubkey) :
    Option (Tally Pubkey) :=
  tally.add view.epochVoteAccounts.stake (2 ^ 64) view.ExceedsThreshold account

/-- Only lockouts on other forks than the last vote, and above the root. -/
def countInterval
    (interval : LockoutInterval Pubkey) : Option (Tally Pubkey) :=
  if interval.expiration < check.lastVotedSlot then some tally
  else if interval.voter ∈ tally.counted then some tally
  else if interval.start ∉ check.lastVoteAncestors ∧ check.root < interval.start then
    addStake view tally interval.voter
  else some tally

/-- Only the latest banks with stats on each fork, and none on the fork of the last vote. -/
def countCandidate (candidate : ℕ × List ℕ) : Except TowerPanic (Option (Tally Pubkey)) :=
  if !view.isComputed candidate.1 || candidate.2.any view.isComputed ||
      candidate.1 = check.lastVotedSlot || candidate.1 ≤ check.root then .ok (some tally)
  else
    match tower.isValidSwitchingProofVote view check candidate.1 with
    | .error err => .error err
    | .ok none => .error .noCandidateAncestors
    | .ok (some false) => .ok (some tally)
    | .ok (some true) =>
      if candidate.1 ∈ check.lastVoteAncestors then .error .candidateIsAncestor
      else
        match view.progress candidate.1 with
        | none => .error .noCandidateProgress
        | some stats => .ok (stats.lockoutIntervals.foldlM (countInterval view check) tally)

def countGossipVote (vote : Pubkey × ℕ × List ℕ) :
    Except TowerPanic (Option (Tally Pubkey)) :=
  if vote.1 ∈ tally.counted then .ok (some tally)
  else if vote.2.1 ≤ check.lastVotedSlot then .ok (some tally)
  else
    match tower.isValidSwitchingProofVote view check vote.2.1 with
    | .error err => .error err
    | .ok (some true) => .ok (addStake view tally vote.1)
    | .ok _ => .ok (some tally)

/-- Both loops.  They stop with a proof as soon as the threshold is exceeded. -/
def checkLockedOutStake :
    Except TowerPanic SwitchForkDecision :=
  match foldUntil (tower.countCandidate view check) view.descendants .empty with
  | .error err => .error err
  | .ok none => .ok (.switchProof defaultHash)
  | .ok (some tally) =>
    match foldUntil (tower.countGossipVote view check) view.maxGossipFrozenVotes tally with
    | .error err => .error err
    | .ok none => .ok (.switchProof defaultHash)
    | .ok (some tally) => .ok (.failedSwitchThreshold tally.total view.totalStake)

/-- The decision when an ancestor of the last vote was a duplicate, if there is one. -/
def rollbackDecision (switched lastVoted : ℕ × ℕ) :
    Option SwitchForkDecision :=
  (view.forkChoice.latestInvalidAncestor lastVoted).bind (fun latestDuplicateAncestor =>
    if view.forkChoice.isStrictAncestor switched lastVoted then
      some (.failedSwitchDuplicateRollback latestDuplicateAncestor)
    else if view.getHash lastVoted.1 ≠ some lastVoted.2 then some (.switchProof defaultHash)
    else none)

def lastVoteAncestors (lastVotedSlot : ℕ) :
    Except TowerPanic (Finset ℕ) :=
  match view.ancestors lastVotedSlot with
  | some ancestors => .ok ancestors
  | none => if tower.isStrayLastVote then .ok ∅ else .error .noLastVoteAncestors

def makeCheckSwitchThresholdDecision (switchSlot : ℕ) :
    Except TowerPanic SwitchForkDecision :=
  match tower.lastVotedSlotHash with
  | none => .ok .sameFork
  | some (lastVotedSlot, lastVotedHash) => do
    let root ← tower.root
    match view.getHash switchSlot with
    | none => throw .switchSlotNotFrozen
    | some switchHash =>
      match rollbackDecision view (switchSlot, switchHash) (lastVotedSlot, lastVotedHash) with
      | some decision => pure decision
      | none =>
        let lastVoteAncestors ← tower.lastVoteAncestors view lastVotedSlot
        match view.ancestors switchSlot with
        | none => throw .noSwitchSlotAncestors
        | some switchSlotAncestors =>
          if switchSlot = lastVotedSlot ∨ lastVotedSlot ∈ switchSlotAncestors then
            pure .sameFork
          else if switchSlot ∈ lastVoteAncestors then
            if tower.isStrayLastVote then
              pure (.failedSwitchThreshold 0 view.totalStake)
            else throw .switchToAncestor
          else
            tower.checkLockedOutStake view ⟨root, lastVotedSlot, switchSlot, lastVoteAncestors⟩

end Tower

end RakuraiValidator.Consensus
