import Mathlib.Data.Prod.Lex
import Mathlib.Order.Lattice

/-!
# Blocks, votes and events of Votor

The data which the parts of Votor exchange.  Slots are natural numbers, and a
block id, which is a 32 byte hash with the order of its bytes, is the number
with these bytes.  Of a bank only the fields which Votor reads are kept.
-/

namespace RakuraiValidator.Votor

structure Block where
  slot : ℕ
  blockId : ℕ
deriving DecidableEq

/-- The order derived for `Block`: by slot, then by block id. -/
instance : LinearOrder Block :=
  LinearOrder.lift' (fun block => toLex (block.slot, block.blockId)) (by
    rintro ⟨slot, blockId⟩ ⟨slot', blockId'⟩ h
    simpa using h)

def defaultHash : ℕ := 0

/-! ## Leader windows -/

def numConsecutiveLeaderSlots : ℕ := 4

def firstOfConsecutiveLeaderSlots (slot : ℕ) : ℕ :=
  slot / numConsecutiveLeaderSlots * numConsecutiveLeaderSlots

def lastOfConsecutiveLeaderSlots (slot : ℕ) : ℕ :=
  firstOfConsecutiveLeaderSlots slot + numConsecutiveLeaderSlots - 1

def leaderSlotIndex (slot : ℕ) : ℕ := slot % numConsecutiveLeaderSlots

/-! ## Votes -/

inductive Vote
  | notarize (block : Block)
  | finalize (slot : ℕ)
  | skip (slot : ℕ)
  | notarizeFallback (block : Block)
  | skipFallback (slot : ℕ)
  | genesis (block : Block)
deriving DecidableEq

def Vote.slot : Vote → ℕ
  | .notarize block => block.slot
  | .finalize slot => slot
  | .skip slot => slot
  | .notarizeFallback block => block.slot
  | .skipFallback slot => slot
  | .genesis block => block.slot

def Vote.isNotarizeOrSkip : Vote → Bool
  | .notarize _ | .skip _ => true
  | _ => false

def Vote.isBadWindow : Vote → Bool
  | .skip _ | .skipFallback _ | .notarizeFallback _ => true
  | _ => false

structure VoteMessage where
  vote : Vote
  rank : ℕ
  stake : ℕ
deriving DecidableEq

/-! ## Events -/

structure ParentBank where
  slot : ℕ
  blockId : Option ℕ
deriving DecidableEq

structure Bank where
  slot : ℕ
  blockId : Option ℕ
  parentSlot : ℕ
  parent : Option ParentBank
  hash : ℕ
  expectedBankHash : Option ℕ
deriving DecidableEq

namespace Bank

def isFrozen (bank : Bank) : Bool := bank.hash ≠ defaultHash

def parentBlockId (bank : Bank) : Option ℕ := bank.parent.bind ParentBank.blockId

end Bank

/-- Both senders of this event take the slot from the bank. -/
structure CompletedBlock where
  slot : ℕ
  bank : Bank
  slot_eq : bank.slot = slot
deriving DecidableEq

structure LeaderWindowInfo where
  startSlot : ℕ
  endSlot : ℕ
  parentBlock : Block
deriving DecidableEq

inductive VotorEvent
  | block (completedBlock : CompletedBlock)
  | blockNotarized (block : Block)
  | blockNotarFallback (block : Block)
  | firstShred (slot : ℕ)
  | parentReady (slot : ℕ) (parentBlock : Block)
  | timeoutCrashedLeader (slot : ℕ)
  | timeout (slot : ℕ)
  | safeToNotar (block : Block)
  | safeToSkip (slot : ℕ)
  | produceWindow (info : LeaderWindowInfo)
  | finalized (block : Block) (isFastFinalization : Bool)
  | standstill (highestFinalizedSlot : ℕ)
  | setIdentity
deriving DecidableEq

def VotorEvent.shouldIgnore (root : ℕ) : VotorEvent → Bool
  | .block completedBlock => completedBlock.slot ≤ root
  | .timeout slot => slot ≤ root
  | .safeToSkip slot => slot ≤ root
  | .timeoutCrashedLeader slot => slot ≤ root
  | .firstShred slot => slot ≤ root
  | .safeToNotar ⟨slot, _⟩ => slot ≤ root
  | .finalized ⟨slot, _⟩ _ => slot ≤ root
  | .blockNotarized ⟨slot, _⟩ => slot ≤ root
  | .blockNotarFallback ⟨slot, _⟩ => slot ≤ root
  | .parentReady slot _ => slot ≤ root
  | .standstill slot => slot < root
  | .produceWindow info => info.startSlot ≤ root
  | .setIdentity => false

end RakuraiValidator.Votor
