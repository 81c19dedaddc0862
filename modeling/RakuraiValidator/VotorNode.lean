import RakuraiValidator.ConsensusPoolVotes
import RakuraiValidator.SigverifyVotePool
import RakuraiValidator.VotorEquivocation

/-!
# A validator

A validator runs the event loop, the consensus pool and the signature verifier in
threads of their own.  The verifier passes the votes of other validators on to the
pool, the event loop its own votes, and the pool raises events for the event loop.
The channels between them may delay, reorder and repeat; what is not known about
the rest of the validator is left open in the steps.
-/

namespace RakuraiValidator.Votor

open Stateful Sigverify

/-! ## Ranks -/

structure RankMap where
  maxValidators : ℕ
  stakeOf : ℕ → ℕ
  totalStake : ℕ+
  sum_stake : ∑ rank ∈ Finset.range maxValidators, stakeOf rank = totalStake
  totalStake_le : (totalStake : ℕ) ≤ u64Max

def RankMap.epochStakes (rankMap : RankMap) : EpochStakes :=
  ⟨rankMap.maxValidators, rankMap.totalStake⟩

def RankMap.stake (rankMap : RankMap) (ranks : Finset ℕ) : ℕ := ∑ rank ∈ ranks, rankMap.stakeOf rank

/-- What does not change during a run: the identity, its ranks, and the signatures of
the votes. -/
structure Setting (σ : Type) where
  env : Environment
  identity : ℕ
  identity_eq : ∀ clock, env.identity clock = identity
  rankMap : ℕ → RankMap
  ownRank : ℕ → ℕ
  signatureOf : Vote → ℕ → σ
  store : SignerStore

def Setting.alone (env : Environment) (identity : ℕ)
    (identity_eq : ∀ clock, env.identity clock = identity) : Setting ℤ where
  env := env
  identity := identity
  identity_eq := identity_eq
  rankMap := fun _ => ⟨1, fun _ => 1, 1, by decide, by decide⟩
  ownRank := fun _ => 0
  signatureOf := fun _ _ => 1
  store := .bytewise

def Setting.Knows {σ : Type} (setting : Setting σ) (rootBank : RootBank) : Prop :=
  ∀ slot, ∀ stakes ∈ rootBank.epochStakes slot, stakes = (setting.rankMap slot).epochStakes

/-! ## States and steps -/

def votersWith {σ : Type} (voters : Vote → Finset ℕ) (message : PoolVote σ) : Vote → Finset ℕ :=
  Function.update voters message.vote (voters message.vote ∪ message.voters)

structure Node (σ : Type) where
  handler : HandlerState
  verifier : SigVerifier
  /-- The slot of the root bank. -/
  bankRoot : ℕ
  /-- The verified votes on their way to the pool. -/
  waiting : Finset (ℕ × Vote)
  pool : ConsensusPool σ
  /-- The blocks for which the pool service waits. -/
  pendingSafeToNotar : List Block
  /-- All events which the pool service has sent. -/
  events : List VotorEvent
  /-- All votes which the verifier has passed on. -/
  kept : Finset (ℕ × Vote)
  /-- The ranks which the pool has counted for a vote. -/
  voters : Vote → Finset ℕ

namespace Node

variable {σ : Type}

structure Fresh (setting : Setting σ) (node : Node σ) : Prop where
  myPubkey : node.handler.myPubkey = setting.identity
  voteHistory : ∃ root, node.handler.voteHistory = VoteHistory.new setting.identity root
  trace : node.handler.trace = []
  verifier : node.verifier = .new
  waiting : node.waiting = ∅
  pool : ∃ root phase slot parentBlock, node.pool = .new root phase slot parentBlock
  pendingSafeToNotar : node.pendingSafeToNotar = []
  events : node.events = []
  kept : node.kept = ∅
  voters : ∀ vote, node.voters vote = ∅

def start (setting : Setting σ) (phase : MigrationPhase σ) (genesisBlock : Block) : Node σ where
  handler := .start setting.identity genesisBlock
  verifier := .new
  bankRoot := genesisBlock.slot
  waiting := ∅
  pool := .new genesisBlock.slot phase genesisBlock.slot genesisBlock
  pendingSafeToNotar := []
  events := []
  kept := ∅
  voters := fun _ => ∅

theorem fresh_start (setting : Setting σ) (phase : MigrationPhase σ) (genesisBlock : Block) :
    (start setting phase genesisBlock).Fresh setting :=
  ⟨rfl, ⟨_, rfl⟩, rfl, rfl, rfl, ⟨_, _, _, _, rfl⟩, rfl, rfl, rfl, fun _ => rfl⟩

variable (node : Node σ)

/-- The events which the event loop may get.  Blocks are reported as notarized on
account of a certificate; what else happens is up to the rest of the validator. -/
def Offers (notarized : Block → Prop) : VotorEvent → Prop
  | .safeToNotar block => .safeToNotar block ∈ node.events
  | .safeToSkip slot => .safeToSkip slot ∈ node.events
  | .blockNotarized block => notarized block
  | _ => True

def handle (setting : Setting σ) (event : VotorEvent) : Node σ :=
  { node with handler := final (EventHandler.processEvent setting.env event) node.handler }

/-- A vote of another validator at the verifier; it is passed on when it is kept and
its signature is valid. -/
def receive (setting : Setting σ) (filter : VoteFilter) (rank : ℕ) (vote : Vote) (isValid : Bool) :
    Node σ :=
  match node.verifier.receive filter node.bankRoot vote rank
      (setting.rankMap vote.slot).maxValidators with
  | (verifier, some (.ok ())) =>
    if isValid then
      { node with
        verifier := verifier
        waiting := insert (rank, vote) node.waiting
        kept := insert (rank, vote) node.kept }
    else { node with verifier := verifier }
  | (verifier, _) => { node with verifier := verifier }

def Counts (rootBank : RootBank) (slot : ℕ) : Prop :=
  rootBank.epochStakes slot ≠ none ∧ rootBank.slot ≤ slot

instance (rootBank : RootBank) (slot : ℕ) : Decidable (Counts rootBank slot) :=
  inferInstanceAs (Decidable (_ ∧ _))

def votersAfter (rootBank : RootBank) (message : PoolVote σ) : Vote → Finset ℕ :=
  if Counts rootBank message.vote.slot then votersWith node.voters message else node.voters

variable [AddCommGroup σ] [DecidableEq σ]

/-- One step of a validator, given the votes which were cast so far. -/
inductive Step (setting : Setting σ) (cast : ℕ → Vote → Prop) (notarized : Block → Prop) :
    Node σ → Node σ → Prop
  | handle {node : Node σ} (event : VotorEvent) (hoffers : node.Offers notarized event) :
      Step setting cast notarized node (node.handle setting event)
  | receive {node : Node σ} (filter : VoteFilter) {rank : ℕ} {vote : Vote} {isValid : Bool}
      (hrank : rank ≠ setting.ownRank vote.slot) (hvalid : isValid = true → cast rank vote) :
      Step setting cast notarized node (node.receive setting filter rank vote isValid)
  | external {node : Node σ} {rootBank : RootBank} {aggregate : VoteAggregate σ}
      {pool : ConsensusPool σ} {events : List VotorEvent}
      {result : Except AddVoteError (Option (Certificate σ))}
      (hroot : rootBank.slot = node.bankRoot) (hknows : setting.Knows rootBank)
      (hgenuine : (PoolVote.external aggregate).Genuine
        (setting.rankMap aggregate.vote.slot).stakeOf (setting.signatureOf aggregate.vote)
        (setting.rankMap aggregate.vote.slot).maxValidators)
      (hwaiting : ∀ rank ∈ Bitmap.support aggregate.ranks, (rank, aggregate.vote) ∈ node.waiting)
      (hpool : node.pool.addPoolVote setting.store rootBank (.external aggregate) node.events =
        .ok (pool, events, result)) :
      Step setting cast notarized node { node with
        waiting := node.waiting \
          (Bitmap.support aggregate.ranks).image (fun rank => (rank, aggregate.vote))
        pool := pool
        events := events
        voters := node.votersAfter rootBank (.external aggregate) }
  | own {node : Node σ} {rootBank : RootBank} {message : SignedVoteMessage σ}
      {pool : ConsensusPool σ} {events : List VotorEvent}
      {result : Except AddVoteError (Option (Certificate σ))}
      (hroot : rootBank.slot = node.bankRoot) (hknows : setting.Knows rootBank)
      (hgenuine : (PoolVote.own message).Genuine
        (setting.rankMap message.vote.slot).stakeOf (setting.signatureOf message.vote)
        (setting.rankMap message.vote.slot).maxValidators)
      (hrank : message.rank = setting.ownRank message.vote.slot)
      (hrecorded : message.vote ∈ recordedVotes node.handler.trace)
      (hpool : node.pool.addPoolVote setting.store rootBank (.own message) node.events =
        .ok (pool, events, result)) :
      Step setting cast notarized node { node with
        pool := pool
        events := events
        voters := node.votersAfter rootBank (.own message) }
  | certificates {node : Node σ} {rootBank : RootBank} {certs newCerts : List (Certificate σ)}
      {pool : ConsensusPool σ} {events : List VotorEvent}
      (hpool : node.pool.addCerts setting.store rootBank certs node.events =
        .ok (pool, events, newCerts)) :
      Step setting cast notarized node { node with pool := pool, events := events }
  | takePending {node : Node σ} :
      Step setting cast notarized node { node with
        pool := { node.pool with pendingSafeToNotar := [] }
        pendingSafeToNotar := node.pendingSafeToNotar ++ node.pool.pendingSafeToNotar }
  | resolvePending {node : Node σ} {block : Block} (hpending : block ∈ node.pendingSafeToNotar) :
      Step setting cast notarized node
        { node with events := node.events ++ [.safeToNotar block] }
  | advanceRoot {node : Node σ} {root : ℕ} (hroot : node.bankRoot ≤ root) :
      Step setting cast notarized node { node with bankRoot := root }
  | prune {node : Node σ} :
      Step setting cast notarized node
        { node with pool := node.pool.maybePrune node.bankRoot }

def Reachable (setting : Setting σ) (cast : ℕ → Vote → Prop) (notarized : Block → Prop)
    (node : Node σ) : Prop :=
  ∃ start : Node σ, start.Fresh setting ∧
    Relation.ReflTransGen (Step setting cast notarized) start node

section Reachable

variable {setting : Setting σ} {cast : ℕ → Vote → Prop} {notarized : Block → Prop}

theorem reachable_start (setting : Setting σ) (phase : MigrationPhase σ) (genesisBlock : Block) :
    Reachable setting cast notarized (start setting phase genesisBlock) :=
  ⟨_, fresh_start setting phase genesisBlock, .refl⟩

theorem Reachable.step {node node' : Node σ} (h : Reachable setting cast notarized node)
    (hstep : Step setting cast notarized node node') : Reachable setting cast notarized node' := by
  rcases h with ⟨start, hfresh, hrun⟩
  exact ⟨start, hfresh, hrun.tail hstep⟩

theorem Reachable.handle {node : Node σ} (h : Reachable setting cast notarized node)
    (event : VotorEvent) (hoffers : node.Offers notarized event) :
    Reachable setting cast notarized (node.handle setting event) :=
  h.step (.handle event hoffers)

end Reachable

end Node

end RakuraiValidator.Votor
