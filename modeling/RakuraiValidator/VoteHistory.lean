import Mathlib.Data.Finset.Sort
import RakuraiValidator.OrderedMap
import RakuraiValidator.VotorMessages

/-!
# The vote history

`VoteHistory` records the votes of one identity and answers what was voted.  Its
assertions are errors here, one for each `assert!` of the source.  Fields which
share their name with a method carry the kind of their keys in the name.
Maps without order in the source are read in the order of their keys.
-/

namespace RakuraiValidator.Votor

open Finset Votor.Vote

attribute [local simp] isBadWindow isNotarizeOrSkip

inductive VoteHistoryPanic
  | slotBelowRoot
  | votedTwice
  | notarizedTwice
  | finalizedSkippedSlot
  | fallbackBeforeVote
  | fallbackAfterFinalize
  | genesisVotedNotarMismatch
  | genesisNotarizedMismatch
deriving DecidableEq

structure VoteHistory where
  nodePubkey : ℕ
  votedSlots : Finset ℕ := ∅
  votedNotarBlocks : BTreeMap ℕ ℕ := BTreeMap.empty
  votedNotarFallbackBlocks : BTreeMap ℕ (Finset ℕ) := BTreeMap.empty
  votedSkipFallbackSlots : Finset ℕ := ∅
  skippedSlots : Finset ℕ := ∅
  itsOverSlots : Finset ℕ := ∅
  votesCast : BTreeMap ℕ (List Vote) := BTreeMap.empty
  notarizedBlocks : Finset Block := ∅
  parentReadySlots : BTreeMap ℕ (Finset Block) := BTreeMap.empty
  root : ℕ

variable {genesisBlock : Block} {α : Type}

namespace VoteHistory

def new (nodePubkey root : ℕ) : VoteHistory := { nodePubkey := nodePubkey, root := root }

/-- A query about a slot asserts that the slot is not below the root. -/
def query {α : Type} (history : VoteHistory) (slot : ℕ) (answer : α) : Except VoteHistoryPanic α :=
  if history.root ≤ slot then .ok answer else .error .slotBelowRoot

variable (history : VoteHistory) (slot : ℕ)

def voted : Except VoteHistoryPanic Bool :=
  history.query slot (slot ∈ history.votedSlots)

def votedNotar : Except VoteHistoryPanic (Option ℕ) :=
  history.query slot (history.votedNotarBlocks.get? slot)

def votedNotarFallback (slot blockId : ℕ) : Except VoteHistoryPanic Bool :=
  history.query slot
    ((history.votedNotarFallbackBlocks.get? slot).any (fun ids => blockId ∈ ids))

def votedSkipFallback : Except VoteHistoryPanic Bool :=
  history.query slot (slot ∈ history.votedSkipFallbackSlots)

def skipped : Except VoteHistoryPanic Bool :=
  history.query slot (slot ∈ history.skippedSlots)

def itsOver : Except VoteHistoryPanic Bool :=
  history.query slot (slot ∈ history.itsOverSlots)

def badWindow : Except VoteHistoryPanic Bool :=
  history.query slot
    (slot ∈ history.skippedSlots || history.votedNotarFallbackBlocks.containsKey slot ||
      slot ∈ history.votedSkipFallbackSlots)

def isBlockNotarized (block : Block) : Bool :=
  block ∈ history.notarizedBlocks

def isParentReady (parent : Block) : Bool :=
  (history.parentReadySlots.get? slot).any (fun parents => parent ∈ parents)

def votesCastSince : List Vote :=
  (history.votesCast.entries.filter (fun entry => slot < entry.1)).flatMap Prod.snd

def assertFallback : Except VoteHistoryPanic Unit := do
  if !(← history.voted slot) then .error .fallbackBeforeVote
  else if ← history.itsOver slot then .error .fallbackAfterFinalize
  else .ok ()

/-- The assertions of `add_vote` which guard against equivocation.  Two of them
test what an insertion returns, which is decided by the history before it. -/
def assertVote : Vote → Except VoteHistoryPanic Unit
  | .notarize block =>
    if block.slot ∈ history.votedSlots then .error .votedTwice
    else if (history.votedNotarBlocks.get? block.slot).isSome then .error .notarizedTwice
    else .ok ()
  | .finalize slot => do
    if ← history.skipped slot then .error .finalizedSkippedSlot else .ok ()
  | .skip _ => .ok ()
  | .notarizeFallback block => history.assertFallback block.slot
  | .skipFallback slot => history.assertFallback slot
  | .genesis _ => .ok ()

def recordVote : Vote → VoteHistory
  | .notarize block =>
    { history with
      votedSlots := insert block.slot history.votedSlots
      votedNotarBlocks := (history.votedNotarBlocks.insert block.slot block.blockId).2 }
  | .finalize slot => { history with itsOverSlots := insert slot history.itsOverSlots }
  | .skip slot =>
    { history with
      votedSlots := insert slot history.votedSlots
      skippedSlots := insert slot history.skippedSlots }
  | .notarizeFallback block =>
    { history with
      skippedSlots := insert block.slot history.skippedSlots
      votedNotarFallbackBlocks := (history.votedNotarFallbackBlocks.insert block.slot
        (insert block.blockId ((history.votedNotarFallbackBlocks.get? block.slot).getD ∅))).2 }
  | .skipFallback slot =>
    { history with
      skippedSlots := insert slot history.skippedSlots
      votedSkipFallbackSlots := insert slot history.votedSkipFallbackSlots }
  | .genesis _ => history

def pushVoteCast (vote : Vote) : VoteHistory :=
  { history with
    votesCast := (history.votesCast.insert vote.slot
      ((history.votesCast.get? vote.slot).getD [] ++ [vote])).2 }

def addVote (vote : Vote) : Except VoteHistoryPanic VoteHistory :=
  if vote.slot < history.root then .error .slotBelowRoot
  else do
    history.assertVote vote
    .ok ((history.recordVote vote).pushVoteCast vote)

def addBlockNotarized (block : Block) : VoteHistory :=
  if block.slot < history.root then history
  else { history with notarizedBlocks := insert block history.notarizedBlocks }

def addParentReady (parent : Block) : VoteHistory × Bool :=
  if slot < history.root then (history, false)
  else
    match history.parentReadySlots.get? slot with
    | some parents =>
      ({ history with
        parentReadySlots :=
          (history.parentReadySlots.insert slot (insert parent parents)).2 }, false)
    | none =>
      ({ history with
        parentReadySlots := (history.parentReadySlots.insert slot {parent}).2 }, true)

def highestParentReady : Option (ℕ × Block) :=
  history.parentReadySlots.entries.getLast?.bind
    (fun entry => (entry.2.sort (· ≤ ·)).head?.map (fun parent => (entry.1, parent)))

def highestParentReadySlot : Option ℕ :=
  history.highestParentReady.map Prod.fst

def setRoot (root : ℕ) : VoteHistory :=
  { nodePubkey := history.nodePubkey
    votedSlots := history.votedSlots.filter (root ≤ ·)
    votedNotarBlocks := history.votedNotarBlocks.retain (fun slot _ => root ≤ slot)
    votedNotarFallbackBlocks :=
      history.votedNotarFallbackBlocks.retain (fun slot _ => root ≤ slot)
    votedSkipFallbackSlots := history.votedSkipFallbackSlots.filter (root ≤ ·)
    skippedSlots := history.skippedSlots.filter (root ≤ ·)
    itsOverSlots := history.itsOverSlots.filter (root ≤ ·)
    votesCast := history.votesCast.retain (fun slot _ => root ≤ slot)
    notarizedBlocks := history.notarizedBlocks.filter (fun block => root ≤ block.slot)
    parentReadySlots := history.parentReadySlots.retain (fun slot _ => root ≤ slot)
    root := root }

def insertGenesis (genesisBlock : Block) : VoteHistory :=
  { history with
    votedSlots := insert genesisBlock.slot history.votedSlots
    votedNotarBlocks :=
      (history.votedNotarBlocks.insert genesisBlock.slot genesisBlock.blockId).2
    notarizedBlocks := insert genesisBlock history.notarizedBlocks }

def initializeGenesis (genesisBlock : Block) :
    Except VoteHistoryPanic VoteHistory :=
  if genesisBlock.slot < history.root then .ok history
  else if (history.votedNotarBlocks.get? genesisBlock.slot).any (· ≠ genesisBlock.blockId) then
    .error .genesisVotedNotarMismatch
  else if ∀ block ∈ history.notarizedBlocks,
      block.slot ≠ genesisBlock.slot ∨ block.blockId = genesisBlock.blockId then
    .ok ((history.setRoot genesisBlock.slot).insertGenesis genesisBlock)
  else .error .genesisNotarizedMismatch

/-! ## What `add_vote` changes -/

def Accepts : Vote → Prop
  | .notarize block => block.slot ∉ history.votedSlots ∧
      history.votedNotarBlocks.get? block.slot = none
  | .finalize slot => slot ∉ history.skippedSlots
  | .skip _ => True
  | .notarizeFallback block => block.slot ∈ history.votedSlots ∧
      block.slot ∉ history.itsOverSlots
  | .skipFallback slot => slot ∈ history.votedSlots ∧ slot ∉ history.itsOverSlots
  | .genesis _ => True

structure Recorded (vote : Vote) (history history' : VoteHistory) : Prop where
  root : history'.root = history.root
  nodePubkey : history'.nodePubkey = history.nodePubkey
  notarizedBlocks : history'.notarizedBlocks = history.notarizedBlocks
  votedSlots : ∀ slot, slot ∈ history'.votedSlots ↔ slot ∈ history.votedSlots ∨
    vote.isNotarizeOrSkip = true ∧ vote.slot = slot
  votedNotar : ∀ slot blockId, history'.votedNotarBlocks.get? slot = some blockId ↔
    history.votedNotarBlocks.get? slot = some blockId ∨ vote = .notarize ⟨slot, blockId⟩
  skippedSlots : ∀ slot, slot ∈ history'.skippedSlots ↔ slot ∈ history.skippedSlots ∨
    vote.isBadWindow = true ∧ vote.slot = slot
  itsOverSlots : ∀ slot, slot ∈ history'.itsOverSlots ↔ slot ∈ history.itsOverSlots ∨
    vote = .finalize slot

variable {history history' : VoteHistory} {vote : Vote} {slot : ℕ}

theorem query_eq_ok (hroot : history.root ≤ slot) (answer : α) :
    history.query slot answer = .ok answer := by
  simp [query, hroot]

theorem query_eq_ok_iff {answer a : α} :
    history.query slot answer = .ok a ↔ history.root ≤ slot ∧ answer = a := by
  by_cases hroot : history.root ≤ slot
  · simp [query, hroot]
  · simp [query, hroot]

theorem assertFallback_eq_ok_iff (hroot : history.root ≤ slot) :
    history.assertFallback slot = .ok () ↔
      slot ∈ history.votedSlots ∧ slot ∉ history.itsOverSlots := by
  simp only [assertFallback, voted, itsOver, query_eq_ok hroot, bind, Except.bind]
  by_cases hvoted : slot ∈ history.votedSlots
  · by_cases hover : slot ∈ history.itsOverSlots
    · simp [hvoted, hover]
    · simp [hvoted, hover]
  · simp [hvoted]

theorem assertVote_eq_ok_iff (hroot : history.root ≤ vote.slot) :
    history.assertVote vote = .ok () ↔ history.Accepts vote := by
  cases vote with
  | notarize block =>
    simp only [assertVote, Accepts]
    by_cases hvoted : block.slot ∈ history.votedSlots
    · simp [hvoted]
    · cases hnotar : history.votedNotarBlocks.get? block.slot with
      | none => simp [hvoted]
      | some blockId => simp [hvoted]
  | finalize slot =>
    have hslot : history.root ≤ slot := hroot
    simp [assertVote, Accepts, skipped, query_eq_ok hslot, bind, Except.bind]
  | skip slot => simp [assertVote, Accepts]
  | genesis block => simp [assertVote, Accepts]
  | notarizeFallback block | skipFallback slot => exact assertFallback_eq_ok_iff hroot

theorem recordVote_recorded (h : history.Accepts vote) :
    Recorded vote history (history.recordVote vote) := by
  have hins : ∀ (slots : Finset ℕ) (new slot : ℕ),
      slot ∈ insert new slots ↔ slot ∈ slots ∨ new = slot := by
    intro slots new slot
    rw [mem_insert, or_comm, eq_comm]
  cases vote with
  | notarize block =>
    rcases block with ⟨slot, blockId⟩
    have hnotar : history.votedNotarBlocks.get? slot = none := h.2
    constructor
    all_goals simp [recordVote, Vote.slot, hins, BTreeMap.get?_insert, -mem_insert]
    intro other otherId
    by_cases heq : other = slot
    · subst heq
      simp [hnotar]
    · simp [heq, Ne.symm heq]
  | finalize slot =>
    constructor <;> simp [recordVote, hins, -mem_insert]
  | skip slot | notarizeFallback block | skipFallback slot =>
    constructor <;> simp [recordVote, Vote.slot, hins, -mem_insert]
  | genesis block =>
    constructor <;> simp [recordVote]

theorem accepts_badWindow (h : history.Accepts vote) (hbad : vote.isBadWindow = true) :
    vote.isNotarizeOrSkip = true ∨
      vote.slot ∈ history.votedSlots ∧ vote.slot ∉ history.itsOverSlots := by
  cases vote with
  | skip slot => exact .inl rfl
  | notarizeFallback block => exact .inr h
  | skipFallback slot => exact .inr h
  | notarize block | finalize slot | genesis block => simp at hbad

theorem addVote_eq_ok (hroot : history.root ≤ vote.slot) (h : history.Accepts vote) :
    history.addVote vote = .ok ((history.recordVote vote).pushVoteCast vote) := by
  rw [addVote, if_neg (not_lt.mpr hroot), (assertVote_eq_ok_iff hroot).mpr h]
  rfl

theorem addVote_inv (h : history.addVote vote = .ok history') :
    history.root ≤ vote.slot ∧ history.Accepts vote ∧ Recorded vote history history' := by
  unfold addVote at h
  split at h
  next => contradiction
  next hroot =>
    rw [not_lt] at hroot
    cases hassert : history.assertVote vote with
    | error panic =>
      rw [hassert] at h
      contradiction
    | ok _ =>
      have hacc := (assertVote_eq_ok_iff hroot).mp hassert
      have hrec := recordVote_recorded hacc
      rw [hassert] at h
      cases h
      exact ⟨hroot, hacc, hrec.root, hrec.nodePubkey,
        hrec.notarizedBlocks, hrec.votedSlots, hrec.votedNotar,
        hrec.skippedSlots, hrec.itsOverSlots⟩

theorem initializeGenesis_inv (h : history.initializeGenesis genesisBlock = .ok history') :
    genesisBlock.slot < history.root ∧ history' = history ∨
      history.root ≤ genesisBlock.slot ∧
        history' = (history.setRoot genesisBlock.slot).insertGenesis genesisBlock := by
  unfold initializeGenesis at h
  split at h
  next hroot => exact Or.inl ⟨hroot, (Except.ok.inj h).symm⟩
  next hroot =>
    split at h
    · contradiction
    · split at h
      · exact Or.inr ⟨not_lt.mp hroot, (Except.ok.inj h).symm⟩
      · contradiction

theorem addBlockNotarized_root (block : Block) :
    (history.addBlockNotarized block).root = history.root := by
  unfold addBlockNotarized
  split
  · rfl
  · rfl

theorem addBlockNotarized_nodePubkey {block : Block} :
    (history.addBlockNotarized block).nodePubkey = history.nodePubkey := by
  unfold addBlockNotarized
  split
  · rfl
  · rfl

theorem addParentReady_nodePubkey {parent : Block} :
    (history.addParentReady slot parent).1.nodePubkey = history.nodePubkey := by
  unfold addParentReady
  split
  · rfl
  · split
    · rfl
    · rfl

theorem initializeGenesis_nodePubkey (h : history.initializeGenesis genesisBlock = .ok history') :
    history'.nodePubkey = history.nodePubkey := by
  rcases initializeGenesis_inv h with ⟨_, heq⟩ | ⟨_, heq⟩
  · rw [heq]
  · rw [heq]
    rfl

/-! ## Well-formed histories -/

/-- The slots with a notarize, a skip, a fallback or a finalize vote were voted on,
and a slot with a finalize vote was not skipped. -/
structure WellFormed (history : VoteHistory) : Prop where
  votedNotar : ∀ slot blockId, history.votedNotarBlocks.get? slot = some blockId →
    slot ∈ history.votedSlots
  skipped : ∀ slot ∈ history.skippedSlots, slot ∈ history.votedSlots
  itsOver : ∀ slot ∈ history.itsOverSlots, slot ∈ history.votedSlots
  notSkipped : ∀ slot ∈ history.itsOverSlots, slot ∉ history.skippedSlots

theorem wellFormed_new (nodePubkey root : ℕ) : (new nodePubkey root).WellFormed := by
  constructor <;> simp [new]

namespace WellFormed

variable (h : history.WellFormed)

include h

theorem addVote (hadd : history.addVote vote = .ok history')
    (hfirst : vote.isNotarizeOrSkip = true → vote.slot ∉ history.votedSlots)
    (hfin : ∀ slot, vote = .finalize slot → slot ∈ history.votedSlots) :
    history'.WellFormed := by
  rcases addVote_inv hadd with ⟨_, hacc, hrec⟩
  constructor
  · intro slot blockId hnotar
    rw [hrec.votedSlots]
    rcases (hrec.votedNotar slot blockId).mp hnotar with hold | hvote
    · exact .inl (h.votedNotar slot blockId hold)
    · subst hvote
      exact .inr ⟨rfl, rfl⟩
  · intro slot hskipped
    rw [hrec.votedSlots]
    rcases (hrec.skippedSlots slot).mp hskipped with hold | ⟨hbad, hslot⟩
    · exact .inl (h.skipped slot hold)
    · subst hslot
      rcases accepts_badWindow hacc hbad with hskip | ⟨hvoted, _⟩
      · exact .inr ⟨hskip, rfl⟩
      · exact .inl hvoted
  · intro slot hover
    rw [hrec.votedSlots]
    rcases (hrec.itsOverSlots slot).mp hover with hold | hvote
    · exact .inl (h.itsOver slot hold)
    · exact .inl (hfin slot hvote)
  · intro slot hover hskipped
    rcases (hrec.itsOverSlots slot).mp hover with hold | hvote
    · rcases (hrec.skippedSlots slot).mp hskipped with hskip | ⟨hbad, hslot⟩
      · exact h.notSkipped slot hold hskip
      · subst hslot
        rcases accepts_badWindow hacc hbad with hskip | ⟨_, hopen⟩
        · exact hfirst hskip (h.itsOver _ hold)
        · exact hopen hold
    · subst hvote
      rcases (hrec.skippedSlots slot).mp hskipped with hskip | ⟨hbad, _⟩
      · exact hacc hskip
      · simp at hbad

theorem setRoot (root : ℕ) : (history.setRoot root).WellFormed := by
  constructor
  · intro slot blockId hnotar
    have hkept : root ≤ slot ∧ history.votedNotarBlocks.get? slot = some blockId := by
      simpa [VoteHistory.setRoot, BTreeMap.get?_retain] using hnotar
    simpa [VoteHistory.setRoot, hkept.1] using h.votedNotar slot blockId hkept.2
  · intro slot
    simp only [VoteHistory.setRoot, mem_filter]
    exact fun hslot => ⟨h.skipped slot hslot.1, hslot.2⟩
  · intro slot
    simp only [VoteHistory.setRoot, mem_filter]
    exact fun hslot => ⟨h.itsOver slot hslot.1, hslot.2⟩
  · intro slot
    simp only [VoteHistory.setRoot, mem_filter]
    exact fun hslot hskipped => h.notSkipped slot hslot.1 hskipped.1

theorem insertGenesis (genesisBlock : Block) : (history.insertGenesis genesisBlock).WellFormed := by
  constructor
  · intro slot blockId
    simp only [VoteHistory.insertGenesis, BTreeMap.get?_insert, mem_insert]
    split
    next heq => exact fun _ => .inl heq
    next => exact fun hnotar => .inr (h.votedNotar slot blockId hnotar)
  · exact fun slot hslot => mem_insert_of_mem (h.skipped slot hslot)
  · exact fun slot hslot => mem_insert_of_mem (h.itsOver slot hslot)
  · exact h.notSkipped

end WellFormed

end VoteHistory

end RakuraiValidator.Votor
