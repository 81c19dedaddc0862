import RakuraiValidator.DescendingPasses

/-!
# Instructions and nested calls

An instruction refers to accounts by their index in the transaction.  A nested call names accounts by
key, in any order and with repetitions: the flags of the repetitions are merged in a first pass, and
the privileges of the first entry of each account are checked in a second one.  A map from indices in
the transaction to indices in the instruction finds the first entry of an account; its values are
16-bit numbers.

Compute units, logs, instruction data and the limits of the trace are left out.
-/

namespace RakuraiValidator.Svm

inductive InstructionError
  | missingAccount
  | privilegeEscalation
  | invalidSeeds
  | modifiedProgramId
  | externalAccountLamportSpend
  | readonlyLamportChange
  | readonlyDataModified
  | externalAccountDataModified
  | invalidRealloc
  | maxAccountsDataAllocationsExceeded
  | executableAccountNotRentExempt
  | executableModified
  | arithmeticOverflow
  | invalidAccountOwner
  | unbalancedInstruction
  | callDepth
  | panic
  deriving DecidableEq

structure InstructionAccount where
  indexInTransaction : ℕ
  isSigner : Bool
  isWritable : Bool
  deriving DecidableEq

/-- The flags of a repeated account are joined. -/
def InstructionAccount.merge (account : InstructionAccount) (isSigner isWritable : Bool) :
    InstructionAccount :=
  { account with
    isSigner := account.isSigner || isSigner
    isWritable := account.isWritable || isWritable }

structure CompiledInstruction where
  programIdIndex : ℕ
  accounts : List ℕ

structure Message (Pubkey : Type) where
  accountKeys : List Pubkey
  isSigner : ℕ → Bool
  isWritable : ℕ → Bool

structure AccountMeta (Pubkey : Type) where
  pubkey : Pubkey
  isSigner : Bool
  isWritable : Bool

structure Instruction (Pubkey : Type) where
  programId : Pubkey
  accounts : List (AccountMeta Pubkey)

structure InstructionContext where
  programAccountIndexInTx : ℕ
  instructionAccounts : List InstructionAccount
  dedupMap : List ℕ
  deriving DecidableEq

namespace InstructionContext

def getIndexOfAccountInInstruction (context : InstructionContext) (indexInTransaction : ℕ) :
    Except InstructionError ℕ :=
  match context.dedupMap[indexInTransaction]? with
  | some index =>
    if context.instructionAccounts.length ≤ index then .error .missingAccount else .ok index
  | none => .error .missingAccount

end InstructionContext

def u16Max : ℕ := 65535

def maxAccountsPerTransaction : ℕ := 256

def emptyMap (accounts : ℕ) : List ℕ :=
  List.replicate (min accounts maxAccountsPerTransaction) u16Max

/-! ## Top level instructions -/

section TopLevel

variable {Pubkey : Type} (message : Message Pubkey)

def addTopLevelAccount (state : List ℕ × List InstructionAccount) (indexInTransaction : ℕ) :
    Except InstructionError (List ℕ × List InstructionAccount) :=
  match state.1[indexInTransaction]? with
  | none => .error .panic
  | some indexInCallee =>
    let map :=
      if state.2.length < indexInCallee then
        state.1.set indexInTransaction (state.2.length % 2 ^ 16)
      else state.1
    .ok (map, state.2 ++ [⟨indexInTransaction, message.isSigner indexInTransaction,
      message.isWritable indexInTransaction⟩])

def prepareTopLevelInstruction (instruction : CompiledInstruction) :
    Except InstructionError InstructionContext := do
  let (map, accounts) ← instruction.accounts.foldlM (addTopLevelAccount message)
    (emptyMap message.accountKeys.length, [])
  .ok ⟨instruction.programIdIndex, accounts, map⟩

end TopLevel

/-! ## Nested calls -/

section Cpi

variable {Pubkey : Type} [DecidableEq Pubkey] (keys : List Pubkey)

def findIndexOfAccount (pubkey : Pubkey) : Option ℕ := keys.findIdx? (· = pubkey)

/-- The first pass: a repeated account gets the flags of all its entries so far. -/
def addMeta (state : List ℕ × List InstructionAccount) (accountMeta : AccountMeta Pubkey) :
    Except InstructionError (List ℕ × List InstructionAccount) :=
  match findIndexOfAccount keys accountMeta.pubkey with
  | none => .error .missingAccount
  | some indexInTransaction =>
    match state.1[indexInTransaction]? with
    | none => .error .panic
    | some indexInCallee =>
      if indexInCallee < state.2.length then
        match state.2[indexInCallee]? with
        | none => .error .missingAccount
        | some account =>
          let account := account.merge accountMeta.isSigner accountMeta.isWritable
          .ok (state.1, state.2.set indexInCallee account ++ [account])
      else
        .ok (state.1.set indexInTransaction (state.2.length % 2 ^ 16),
          state.2 ++ [⟨indexInTransaction, accountMeta.isSigner, accountMeta.isWritable⟩])

variable (caller : InstructionContext)

/-- The privileges of the first entry of an account. -/
def checkPrivileges (signers : List Pubkey) (accountKey : Pubkey) (account : InstructionAccount) :
    Except InstructionError Unit := do
  let indexInCaller ← caller.getIndexOfAccountInInstruction account.indexInTransaction
  match caller.instructionAccounts[indexInCaller]? with
  | none => .error .panic
  | some callerAccount =>
    if account.isWritable && !callerAccount.isWritable then .error .privilegeEscalation
    else if account.isSigner && !(callerAccount.isSigner || signers.contains accountKey) then
      .error .privilegeEscalation
    else .ok ()

/-- The second pass: a repeated entry takes the flags of the first one, which is checked. -/
def checkEntry (signers : List Pubkey) (metas : List (AccountMeta Pubkey)) (map : List ℕ)
    (accounts : List InstructionAccount) (currentIndex : ℕ) :
    Except InstructionError (List InstructionAccount) :=
  match accounts[currentIndex]? with
  | none => .error .panic
  | some account =>
    match map[account.indexInTransaction]? with
    | none => .error .panic
    | some indexInCallee =>
      if currentIndex ≠ indexInCallee then
        match accounts[indexInCallee]? with
        | none => .error .missingAccount
        | some reference =>
          .ok (accounts.set currentIndex (account.merge reference.isSigner reference.isWritable))
      else
        match metas[currentIndex]? with
        | none => .error .panic
        | some accountMeta => do
          checkPrivileges caller signers accountMeta.pubkey account
          .ok accounts

def prepareNextCpiInstruction (instruction : Instruction Pubkey) (signers : List Pubkey) :
    Except InstructionError InstructionContext := do
  let (map, accounts) ← instruction.accounts.foldlM (addMeta keys) (emptyMap keys.length, [])
  let accounts ← (List.range accounts.length).foldlM
    (checkEntry caller signers instruction.accounts map) accounts
  match findIndexOfAccount keys instruction.programId with
  | none => .error .missingAccount
  | some programIndex => do
    let _ ← caller.getIndexOfAccountInInstruction programIndex
    .ok ⟨programIndex, accounts, map⟩

/-- The signers are derived from the program of the caller. -/
def nativeInvokeSigned {Seeds : Type} (createProgramAddress : Seeds → Pubkey → Option Pubkey)
    (caller : InstructionContext) (instruction : Instruction Pubkey) (signerSeeds : List Seeds) :
    Except InstructionError InstructionContext :=
  match keys[caller.programAccountIndexInTx]? with
  | none => .error .missingAccount
  | some callerProgramId =>
    match signerSeeds.mapM fun seeds => createProgramAddress seeds callerProgramId with
    | none => .error .invalidSeeds
    | some signers => prepareNextCpiInstruction keys caller instruction signers

end Cpi

end RakuraiValidator.Svm
