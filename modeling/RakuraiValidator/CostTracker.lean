import Mathlib.Data.List.Basic
import Mathlib.Logic.Function.Basic
import Mathlib.Tactic

/-!
# Cost tracker

The block producer adds the estimated cost of a transaction to the block and to each
account the transaction writes, unless a limit would be exceeded.  Later the estimate is
replaced by the actual cost, or the transaction is removed.
-/

namespace RakuraiValidator.CostModel

def maxU64 : ℕ := 2 ^ 64 - 1

def saturatingAdd (a b : ℕ) : ℕ := min (a + b) maxU64

inductive CostTrackerError
  | wouldExceedBlockMaxLimit
  | wouldExceedAccountMaxLimit
  | wouldExceedAccountDataBlockLimit
  | wouldExceedAccountDataTotalLimit
deriving DecidableEq

structure TransactionCost (Pubkey : Type) where
  accountKeys : List Pubkey
  isWritable : ℕ → Bool
  signatureCost : ℕ
  writeLockCost : ℕ
  dataBytesCost : ℕ
  programsExecutionCost : ℕ
  loadedAccountsDataSizeCost : ℕ
  allocatedAccountsDataSize : ℕ
  numTransactionSignatures : ℕ
  numSecp256k1InstructionSignatures : ℕ
  numEd25519InstructionSignatures : ℕ
  numSecp256r1InstructionSignatures : ℕ

inductive Counter
  | transactionCount
  | allocatedAccountsDataSize
  | transactionSignatureCount
  | secp256k1InstructionSignatureCount
  | ed25519InstructionSignatureCount
  | secp256r1InstructionSignatureCount
deriving DecidableEq

namespace TransactionCost

variable {Pubkey : Type}

def sum (self : TransactionCost Pubkey) : ℕ :=
  saturatingAdd (saturatingAdd (saturatingAdd (saturatingAdd self.signatureCost
    self.writeLockCost) self.dataBytesCost) self.programsExecutionCost)
    self.loadedAccountsDataSizeCost

def writableAccounts (self : TransactionCost Pubkey) : List Pubkey :=
  self.accountKeys.zipIdx.filterMap fun (key, index) =>
    if self.isWritable index then some key else none

def amount (self : TransactionCost Pubkey) : Counter → ℕ
  | .transactionCount => 1
  | .allocatedAccountsDataSize => self.allocatedAccountsDataSize
  | .transactionSignatureCount => self.numTransactionSignatures
  | .secp256k1InstructionSignatureCount => self.numSecp256k1InstructionSignatures
  | .ed25519InstructionSignatureCount => self.numEd25519InstructionSignatures
  | .secp256r1InstructionSignatureCount => self.numSecp256r1InstructionSignatures

end TransactionCost

structure UpdatedCosts where
  updatedBlockCost : ℕ
  updatedCostliestAccountCost : ℕ
deriving DecidableEq

structure CostTrackerLimits where
  accountCost : ℕ
  blockCost : ℕ
  allocatedDataSize : ℕ

structure CostTracker (Pubkey : Type) where
  limits : CostTrackerLimits
  costByWritableAccounts : Pubkey → Option ℕ
  blockCost : ℕ
  counters : Counter → ℕ

namespace CostTracker

variable {Pubkey : Type} [DecidableEq Pubkey]

def fresh (limits : CostTrackerLimits) : CostTracker Pubkey :=
  ⟨limits, fun _ => none, 0, fun _ => 0⟩

def fetchAdd (blockCost adjustment : ℕ) : ℕ := (blockCost + adjustment) % 2 ^ 64

def fetchSub (blockCost adjustment : ℕ) : ℕ := (blockCost + (2 ^ 64 - adjustment)) % 2 ^ 64

/-- Applies the cost to the accounts in turn.  An error carries the number of accounts to
which the cost has been applied. -/
def applyAccountCosts (accountLimit cost : ℕ) :
    List Pubkey → ℕ → ℕ → (Pubkey → Option ℕ) → (Pubkey → Option ℕ) × Except ℕ ℕ
  | [], _, costliest, costs => (costs, .ok costliest)
  | account :: accounts, index, costliest, costs =>
    match costs account with
    | some accountCost =>
      if accountLimit < saturatingAdd accountCost cost then (costs, .error index)
      else applyAccountCosts accountLimit cost accounts (index + 1)
        (max costliest (saturatingAdd accountCost cost))
        (Function.update costs account (some (saturatingAdd accountCost cost)))
    | none =>
      applyAccountCosts accountLimit cost accounts (index + 1) (max costliest cost)
        (Function.update costs account (some cost))

def rollBackAccountCost (cost : ℕ) (costs : Pubkey → Option ℕ) (account : Pubkey) :
    Pubkey → Option ℕ :=
  match costs account with
  | some accountCost =>
    Function.update costs account
      (if accountCost - cost = 0 then none else some (accountCost - cost))
  | none => costs

def rollBackAppliedCosts (txCost : TransactionCost Pubkey) (cost numApplied : ℕ)
    (costs : Pubkey → Option ℕ) : Pubkey → Option ℕ :=
  (txCost.writableAccounts.take numApplied).foldl (rollBackAccountCost cost) costs

variable (self : CostTracker Pubkey) (txCost : TransactionCost Pubkey)

def tryAdd : CostTracker Pubkey × Except CostTrackerError UpdatedCosts :=
  let cost := txCost.sum
  let allocated := saturatingAdd (self.counters .allocatedAccountsDataSize)
    txCost.allocatedAccountsDataSize
  if self.limits.blockCost < saturatingAdd self.blockCost cost then
    (self, .error .wouldExceedBlockMaxLimit)
  else if self.limits.accountCost < cost then
    (self, .error .wouldExceedAccountMaxLimit)
  else if self.limits.allocatedDataSize < allocated then
    (self, .error .wouldExceedAccountDataBlockLimit)
  else
    match applyAccountCosts self.limits.accountCost cost txCost.writableAccounts 0 0
        self.costByWritableAccounts with
    | (costs, .error numApplied) =>
      ({ self with costByWritableAccounts := rollBackAppliedCosts txCost cost numApplied costs },
        .error .wouldExceedAccountMaxLimit)
    | (costs, .ok costliest) =>
      let blockCost := fetchAdd self.blockCost cost
      ({ self with
          costByWritableAccounts := costs
          blockCost := blockCost
          counters := fun counter =>
            saturatingAdd (self.counters counter) (txCost.amount counter) },
        .ok ⟨blockCost, costliest⟩)

def adjustAccountCost (adjust : ℕ → ℕ) (costs : Pubkey → Option ℕ) (account : Pubkey) :
    Pubkey → Option ℕ :=
  Function.update costs account (some (adjust ((costs account).getD 0)))

def addTransactionExecutionCost (adjustment : ℕ) : CostTracker Pubkey :=
  { self with
    costByWritableAccounts := txCost.writableAccounts.foldl
      (adjustAccountCost (saturatingAdd · adjustment)) self.costByWritableAccounts
    blockCost := fetchAdd self.blockCost adjustment }

def subTransactionExecutionCost (adjustment : ℕ) : CostTracker Pubkey :=
  { self with
    costByWritableAccounts := txCost.writableAccounts.foldl
      (adjustAccountCost (· - adjustment)) self.costByWritableAccounts
    blockCost := fetchSub self.blockCost adjustment }

def updateExecutionCost (self : CostTracker Pubkey) (estimatedTxCost : TransactionCost Pubkey)
    (actualExecutionUnits actualLoadedAccountsDataSizeCost : ℕ) : CostTracker Pubkey :=
  let actual := saturatingAdd actualExecutionUnits actualLoadedAccountsDataSizeCost
  let estimated := saturatingAdd estimatedTxCost.programsExecutionCost
    estimatedTxCost.loadedAccountsDataSizeCost
  if actual = estimated then self
  else if estimated < actual then
    self.addTransactionExecutionCost estimatedTxCost (actual - estimated)
  else self.subTransactionExecutionCost estimatedTxCost (estimated - actual)

def remove : CostTracker Pubkey :=
  let subtracted := self.subTransactionExecutionCost txCost txCost.sum
  { subtracted with
    counters := fun counter => self.counters counter - txCost.amount counter }

end CostTracker

end RakuraiValidator.CostModel
