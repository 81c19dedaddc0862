import Mathlib.Order.Monotone.Basic
import RakuraiValidator.StatefulPrograms
import RakuraiValidator.VoteHistory

/-!
# The event loop of Votor

`EventHandler` as a program over its own state.  What other threads own is read
through an environment which answers at each read, so that anything may change
between two reads; the shared bank root can only advance.  Writes to other
threads (metrics, timers, repair, commitment) are left out except for the errors
with which a send can fail.  A trace records which events were handled and which
votes were recorded.
-/

namespace RakuraiValidator.Votor

/-! ## Errors -/

inductive Channel
  | consensusMetricsSender
  | repairEventSender
  | leaderWindowInfoSender
  | ownVoteSender
  | ownRewardSender
  | blsSender
deriving DecidableEq

inductive GenerateVoteTxResult
  | nonVoting
  | hotSpare
  | waitToVoteSlot (slot : ℕ)
  | noRankFound
  | noAuthorizedVoter
  | voteAccountNotFound
  | vote (message : VoteMessage)
deriving DecidableEq

def GenerateVoteTxResult.isTransientError : GenerateVoteTxResult → Bool
  | .noAuthorizedVoter | .voteAccountNotFound => false
  | .nonVoting | .hotSpare | .waitToVoteSlot _ | .noRankFound => true
  | .vote _ => false

inductive VoteError
  | transientError (result : GenerateVoteTxResult)
  | invalidConfig (result : GenerateVoteTxResult)
  | channelDisconnected (channel : Channel)
  | savedVoteHistoryError
deriving DecidableEq

/-- How the event loop ends: an assertion of the vote history, another panic, or an
error which it returns. -/
inductive Stop
  | voteHistoryPanic (panic : VoteHistoryPanic)
  | bankHashMismatch (block : Block)
  | blockIdMissing
  | generateVoteTxPanic
  | channelDisconnected (channel : Channel)
  | votingError (error : VoteError)
deriving DecidableEq

inductive BLSOp
  | pushVote (vote : VoteMessage)
  | refreshVotes (votes : List VoteMessage)
deriving DecidableEq

/-! ## Environment and state -/

structure BankForks where
  root : ℕ
  get : ℕ → Option Bank

/-- The answers of the other threads, by the number of reads before. -/
structure Environment where
  /-- `sharable_banks.root().slot()` -/
  bankRoot : ℕ → ℕ
  bankRoot_mono : Monotone bankRoot
  bankForks : ℕ → BankForks
  /-- The identity of `cluster_info`. -/
  identity : ℕ → ℕ
  restore : ℕ → ℕ → Option VoteHistory
  waitToVoteSlot : Option ℕ
  /-- `generate_vote_tx`, without an answer when it panics. -/
  generateVoteTx : ℕ → Vote → Option ℕ → Option GenerateVoteTxResult
  rewardsWantsVote : ℕ → Vote → Bool
  disconnected : ℕ → Channel → Bool
  saveFails : ℕ → Bool

/-- An environment in which nothing fails and only the bank root changes. -/
def Environment.undisturbed (identity : ℕ) (bankRoot : ℕ → ℕ) (hbankRoot : Monotone bankRoot) :
    Environment where
  bankRoot := bankRoot
  bankRoot_mono := hbankRoot
  bankForks := fun clock => ⟨bankRoot clock, fun _ => none⟩
  identity := fun _ => identity
  restore := fun _ _ => none
  waitToVoteSlot := none
  generateVoteTx := fun _ vote _ => some (.vote ⟨vote, 0, 1⟩)
  rewardsWantsVote := fun _ _ => false
  disconnected := fun _ _ => false
  saveFails := fun _ => false

abbrev PendingBlocks := BTreeMap ℕ (List (Block × Block))

inductive TraceEntry
  | handled (event : VotorEvent)
  | recorded (vote : Vote)
  | identityChanged
deriving DecidableEq

structure HandlerState where
  clock : ℕ := 0
  voteHistory : VoteHistory
  myPubkey : ℕ
  genesisBlock : Block
  pendingBlocks : PendingBlocks := BTreeMap.empty
  finalizedBlocks : BTreeMap Block Unit := BTreeMap.empty
  receivedShred : Finset ℕ := ∅
  standstillSlot : Option ℕ := none
  highestParentReady : ℕ × Block
  votes : List BLSOp := []
  trace : List TraceEntry := []

/-- The state of an identity which starts to vote at a genesis block. -/
def HandlerState.start (identity : ℕ) (genesisBlock : Block) : HandlerState where
  voteHistory := VoteHistory.new identity genesisBlock.slot
  myPubkey := identity
  genesisBlock := genesisBlock
  highestParentReady := (genesisBlock.slot, genesisBlock)

abbrev Handler := EStateM Stop HandlerState

namespace EventHandler

def tick : Handler ℕ := do
  let s ← get
  modify (fun s => { s with clock := s.clock + 1 })
  pure s.clock

def ask {α : Type} (question : VoteHistory → Except VoteHistoryPanic α) : Handler α := do
  match question (← get).voteHistory with
  | .ok answer => pure answer
  | .error panic => throw (.voteHistoryPanic panic)

def setVoteHistory (voteHistory : VoteHistory) : Handler Unit :=
  modify (fun s => { s with voteHistory := voteHistory })

def setPendingBlocks (pendingBlocks : PendingBlocks) : Handler Unit :=
  modify (fun s => { s with pendingBlocks := pendingBlocks })

def pushVote (op : BLSOp) : Handler Unit :=
  modify (fun s => { s with votes := s.votes ++ [op] })

def failIf (failed : Bool) (stop : Stop) : Handler Unit :=
  if failed then throw stop else pure ()

variable (env : Environment)

def sharableBanksRoot : Handler ℕ := do
  pure (env.bankRoot (← tick))

/-- A send on a channel, blocking or not, fails when it is disconnected. -/
def send (channel : Channel) : Handler Unit := do
  failIf (env.disconnected (← tick) channel) (.channelDisconnected channel)

/-! ## Votes -/

variable (vote : Vote)

def createVoteMessage (respectWaitToVote : Bool) :
    Handler (Except VoteError VoteMessage) := do
  let waitToVoteSlot := if respectWaitToVote then env.waitToVoteSlot else none
  match env.generateVoteTx (← tick) vote waitToVoteSlot with
  | none => throw .generateVoteTxPanic
  | some (.vote message) => pure (.ok message)
  | some result =>
    if result.isTransientError then pure (.error (.transientError result))
    else pure (.error (.invalidConfig result))

def handleSkippableVoteError : VoteError → Handler Unit
  | .invalidConfig _ => pure ()
  | .transientError _ => pure ()
  | error => throw (.votingError error)

def sendVoteMessage (channel : Channel) : Handler Unit := do
  failIf (env.disconnected (← tick) channel) (.votingError (.channelDisconnected channel))

def sendReward (message : VoteMessage) : Handler Unit := do
  if env.rewardsWantsVote (← sharableBanksRoot env) message.vote then
    sendVoteMessage env .ownRewardSender
  else pure ()

def createAndSendOwnVoteMessage (respectWaitToVote : Bool) :
    Handler (Option VoteMessage) := do
  match ← createVoteMessage env vote respectWaitToVote with
  | .error error => do
    handleSkippableVoteError error
    pure none
  | .ok message => do
    sendVoteMessage env .ownVoteSender
    sendReward env message
    pure (some message)

def addVote : Handler Unit := do
  let history ← ask (fun history => history.addVote vote)
  modify (fun s => { s with voteHistory := history, trace := s.trace ++ [.recorded vote] })

def insertVoteAndCreateBlsMessage : Handler (Option BLSOp) := do
  addVote vote
  match ← createAndSendOwnVoteMessage env vote true with
  | none => pure none
  | some message => do
    failIf (env.saveFails (← tick)) (.votingError .savedVoteHistoryError)
    pure (some (.pushVote message))

def castVote : Handler Unit := do
  match ← insertVoteAndCreateBlsMessage env vote with
  | some op => pushVote op
  | none => pure ()

variable (block : Block)

def tryFinal : Handler Bool := do
  if !(← get).voteHistory.isBlockNotarized block then pure false
  else if ← ask (fun history => history.itsOver block.slot) then pure false
  else if ← ask (fun history => history.badWindow block.slot) then pure false
  else if (← ask (fun history => history.votedNotar block.slot)) ≠ some block.blockId then
    pure false
  else do
    castVote env (.finalize block.slot)
    pure true

def isParentVotable (block parentBlock : Block) : Handler Bool := do
  if leaderSlotIndex block.slot = 0 ∨ block.slot = 1 then
    pure ((← get).voteHistory.isParentReady block.slot parentBlock)
  else if parentBlock.slot + 1 ≠ block.slot then pure false
  else
    pure ((← ask (fun history => history.votedNotar parentBlock.slot)) = some parentBlock.blockId)

def tryNotar (block parentBlock : Block) : Handler Bool := do
  if ← ask (fun history => history.voted block.slot) then pure false
  else if !(← isParentVotable block parentBlock) then pure false
  else do
    castVote env (.notarize block)
    setPendingBlocks ((← get).pendingBlocks.remove block.slot).2
    let _ ← tryFinal env block
    pure true

def checkPendingBlocks : Handler Unit := do
  let blocksToCheck := (← get).pendingBlocks.values.flatten
  forM blocksToCheck (fun (block, parentBlock) => do
    let _ ← tryNotar env block parentBlock
    pure ())

variable (slot : ℕ)

def trySkipWindow : Handler Unit := do
  let rootSlot := max (← get).voteHistory.root (← sharableBanksRoot env)
  let start := max (firstOfConsecutiveLeaderSlots slot) rootSlot
  let slots := List.range' start (lastOfConsecutiveLeaderSlots slot + 1 - start)
  forM slots (fun s => do
    if ← ask (fun history => history.voted s) then pure ()
    else castVote env (.skip s))

def generateRefreshVoteMessage : Handler (Option VoteMessage) := do
  match ← createVoteMessage env vote true with
  | .ok message => pure (some message)
  | .error error => do
    handleSkippableVoteError error
    pure none

def generateRefreshVoteMessages : List Vote → Handler (List VoteMessage)
  | [] => pure []
  | vote :: votes => do
    let message ← generateRefreshVoteMessage env vote
    let messages ← generateRefreshVoteMessages votes
    pure (message.toList ++ messages)

def refreshVotes (highestFinalizedSlot : ℕ) : Handler Unit := do
  let votes := (← get).voteHistory.votesCastSince highestFinalizedSlot
  let refreshedVotes ← generateRefreshVoteMessages env votes
  if refreshedVotes.isEmpty then pure () else pushVote (.refreshVotes refreshedVotes)

/-! ## Roots -/

def setRoot (newRoot : Block) : Handler Unit :=
  modify (fun s => { s with
    voteHistory := s.voteHistory.setRoot newRoot.slot
    pendingBlocks := s.pendingBlocks.splitOff newRoot.slot
    finalizedBlocks := s.finalizedBlocks.splitOff ⟨newRoot.slot, defaultHash⟩
    receivedShred := s.receivedShred.filter (newRoot.slot ≤ ·) })

/-- Whether a finalized block can be rooted; a frozen bank with the wrong hash is
beyond repair. -/
def isRootable (forks : BankForks) (oldRoot : ℕ) (block : Block) : Handler Bool := do
  match forks.get block.slot with
  | none => pure false
  | some bank => do
    failIf (bank.isFrozen && bank.blockId = some block.blockId &&
      bank.expectedBankHash.any (· ≠ bank.hash)) (.bankHashMismatch block)
    if block.slot ≤ oldRoot then pure false
    else if !(← ask (fun history => history.voted block.slot)) then pure false
    else pure (bank.isFrozen && bank.blockId = some block.blockId)

def rootableBlocks (forks : BankForks) (oldRoot : ℕ) : List Block → Handler (List Block)
  | [] => pure []
  | block :: blocks => do
    let rootable ← isRootable forks oldRoot block
    let rest ← rootableBlocks forks oldRoot blocks
    pure (if rootable then block :: rest else rest)

/-- The last of the blocks with the highest slot, as `max_by_key` finds it. -/
def maxBySlot (blocks : List Block) : Option Block :=
  blocks.foldl (fun best block =>
    match best with
    | none => some block
    | some other => if other.slot ≤ block.slot then some block else some other) none

def checkRootableBlocksAndBankHashMismatches : Handler Unit := do
  let forks := env.bankForks (← tick)
  let s ← get
  let oldRoot := max forks.root s.voteHistory.root
  let rootable ← rootableBlocks forks oldRoot s.finalizedBlocks.keys
  match maxBySlot rootable with
  | none => pure ()
  | some newRoot => setRoot newRoot

/-! ## Events -/

def addMissingParentReady (finalizedBlock : Block) : Handler (Option Block) := do
  let firstSlotOfWindow := firstOfConsecutiveLeaderSlots finalizedBlock.slot
  let s ← get
  if firstSlotOfWindow = 0 then pure none
  else if s.voteHistory.highestParentReadySlot.any (firstSlotOfWindow ≤ ·) ||
      !s.finalizedBlocks.containsKey finalizedBlock then
    pure none
  else
    match (env.bankForks (← tick)).get finalizedBlock.slot with
    | none => pure none
    | some bank =>
      if !bank.isFrozen then pure none
      else if bank.blockId ≠ some finalizedBlock.blockId then pure none
      else
        match bank.parent with
        | none => pure none
        | some parent => pure (parent.blockId.map (fun blockId => ⟨parent.slot, blockId⟩))

def handleParentReadyEvent (parentBlock : Block) : Handler Unit := do
  setVoteHistory ((← get).voteHistory.addParentReady slot parentBlock).1
  checkPendingBlocks env
  modify (fun s =>
    if s.highestParentReady.1 < slot then { s with highestParentReady := (slot, parentBlock) }
    else s)

def changeIdentity (newPubkey : ℕ) : Handler Unit := do
  let restored := (env.restore (← tick) newPubkey).getD (VoteHistory.new newPubkey 0)
  modify (fun s => { s with
    myPubkey := newPubkey
    voteHistory := restored
    trace := s.trace ++ [.identityChanged] })

def initializeGenesis : Handler Unit := do
  let s ← get
  let history ← ask (fun history => history.initializeGenesis s.genesisBlock)
  setVoteHistory history

/-- The end of `handle_set_identity`; the slots which it looks up are above the
root. -/
def reconcileRoot : Handler Unit := do
  let bankRoot ← sharableBanksRoot env
  modify (fun s =>
    let effectiveRoot := max s.voteHistory.root bankRoot
    { s with
      pendingBlocks := s.pendingBlocks.retain
        (fun slot _ => effectiveRoot < slot && slot ∉ s.voteHistory.votedSlots)
      standstillSlot := s.standstillSlot.filter (effectiveRoot ≤ ·) })

def followIdentity (newPubkey : ℕ) : Handler Unit := do
  let s ← get
  if s.myPubkey ≠ newPubkey ∨ s.voteHistory.nodePubkey ≠ newPubkey then
    changeIdentity env newPubkey
  else pure ()

def handleSetIdentity : Handler Unit := do
  followIdentity env (env.identity (← tick))
  initializeGenesis
  reconcileRoot env

def sendVoteHistoryToConsensusPool : Handler Unit := do
  let s ← get
  let root := max s.voteHistory.root (← sharableBanksRoot env)
  forM (s.voteHistory.votesCastSince (root - 1)) (fun vote => do
    let _ ← createAndSendOwnVoteMessage env vote false
    pure ())

def getBlockParentBlock (bank : Bank) : Handler (Block × Block) :=
  match bank.blockId with
  | none => throw .blockIdMissing
  | some blockId =>
    pure (⟨bank.slot, blockId⟩, ⟨bank.parentSlot, bank.parentBlockId.getD defaultHash⟩)

/-- Triggers a parent ready event which is missing for a finalized block. -/
def triggerMissingParentReady : Handler Unit := do
  match ← addMissingParentReady env block with
  | none => pure ()
  | some parentBlock => handleParentReadyEvent env block.slot parentBlock

def addPendingBlock (block parentBlock : Block) : Handler Unit :=
  modify (fun s => { s with
    pendingBlocks := (s.pendingBlocks.insert slot
      ((s.pendingBlocks.get? slot).getD [] ++ [(block, parentBlock)])).2 })

def voteOrWait (block parentBlock : Block) : Handler Unit := do
  if ← tryNotar env block parentBlock then checkPendingBlocks env
  else if ← ask (fun history => history.voted slot) then pure ()
  else addPendingBlock slot block parentBlock

def handleBlock (completedBlock : CompletedBlock) : Handler Unit := do
  send env .consensusMetricsSender
  let (block, parentBlock) ← getBlockParentBlock completedBlock.bank
  voteOrWait env completedBlock.slot block parentBlock
  checkRootableBlocksAndBankHashMismatches env
  triggerMissingParentReady env block

def handleFinalized : Handler Unit := do
  modify (fun s => { s with finalizedBlocks := (s.finalizedBlocks.insert block ()).2 })
  send env .repairEventSender
  checkRootableBlocksAndBankHashMismatches env
  modify (fun s => { s with standstillSlot := s.standstillSlot.filter (block.slot ≤ ·) })
  triggerMissingParentReady env block
  send env .consensusMetricsSender

def sendStartOfNextSlot : Handler Unit :=
  if slot ≠ lastOfConsecutiveLeaderSlots slot then send env .consensusMetricsSender
  else pure ()

def handleSafeToNotar : Handler Unit := do
  trySkipWindow env block.slot
  if ← ask (fun history => history.itsOver block.slot) then pure ()
  else if ← ask (fun history => history.votedNotarFallback block.slot block.blockId) then
    pure ()
  else castVote env (.notarizeFallback block)

def handleSafeToSkip : Handler Unit := do
  trySkipWindow env slot
  if ← ask (fun history => history.itsOver slot) then pure ()
  else if ← ask (fun history => history.votedSkipFallback slot) then pure ()
  else castVote env (.skipFallback slot)

def react : VotorEvent → Handler Unit
  | .block completedBlock => handleBlock env completedBlock
  | .blockNotarized block => do
    setVoteHistory ((← get).voteHistory.addBlockNotarized block)
    let _ ← tryFinal env block
    send env .repairEventSender
  | .blockNotarFallback _ => send env .repairEventSender
  | .firstShred slot =>
    modify (fun s => { s with receivedShred := insert slot s.receivedShred })
  | .parentReady slot parentBlock => do
    send env .consensusMetricsSender
    handleParentReadyEvent env slot parentBlock
  | .timeoutCrashedLeader slot => do
    if ← ask (fun history => history.voted slot) then pure ()
    else if slot ∈ (← get).receivedShred then pure ()
    else trySkipWindow env slot
  | .timeout slot => do
    sendStartOfNextSlot env slot
    if ← ask (fun history => history.voted slot) then pure ()
    else trySkipWindow env slot
  | .safeToNotar block => handleSafeToNotar env block
  | .safeToSkip slot => handleSafeToSkip env slot
  | .produceWindow _ => send env .leaderWindowInfoSender
  | .finalized block _ => handleFinalized env block
  | .standstill highestFinalizedSlot => do
    modify (fun s => { s with
      standstillSlot := s.standstillSlot <|> some highestFinalizedSlot })
    refreshVotes env highestFinalizedSlot
  | .setIdentity => do
    handleSetIdentity env
    sendVoteHistoryToConsensusPool env

def handleEvent (event : VotorEvent) : Handler (List BLSOp) := do
  modify (fun s => { s with votes := [] })
  react env event
  pure (← get).votes

def processEvent (event : VotorEvent) : Handler Unit := do
  let rootSlot ← sharableBanksRoot env
  if event.shouldIgnore (max rootSlot (← get).voteHistory.root) then pure ()
  else do
    modify (fun s => { s with trace := s.trace ++ [.handled event] })
    let votes ← handleEvent env event
    forM votes (fun _ => send env .blsSender)

def eventLoop (events : List VotorEvent) : Handler Unit :=
  forM events (processEvent env)

end EventHandler

end RakuraiValidator.Votor
