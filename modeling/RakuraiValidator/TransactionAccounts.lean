import RakuraiValidator.InvokeContext

/-!
# Account changes inside a transaction

A program changes accounts through borrowed instruction accounts, or by storing to memory regions of
its virtual machine.  A region with a payload may grow: the access violation handler resizes the
account behind it.  The payload is set while the program may change the data; it is computed again
when the program gives the account away, and after a nested call that may have done so.

Two running numbers follow the lamports and the data lengths of all accounts, and every change of an
account sets its touched flag.  Only `push` writes to the instructions sysvar without doing so.

The limits of the trace and of the call depth, and outstanding borrows, are left out: they only make
more operations fail.  Lengths of data fit 63 bits.
-/

namespace RakuraiValidator.Svm

def maxAccountDataLen : ℕ := 10 * 1024 * 1024

def maxAccountDataGrowthPerTransaction : ℤ := maxAccountDataLen * 2

def saturateI64 (n : ℤ) : ℤ := max (-2 ^ 63) (min n (2 ^ 63 - 1))

structure Account (Pubkey : Type) where
  lamports : UInt64
  data : List UInt8
  owner : Pubkey
  executable : Bool
  deriving DecidableEq

structure TransactionAccounts (Pubkey : Type) where
  accounts : List (Account Pubkey)
  touchedFlags : List Bool
  resizeDelta : ℤ
  lamportsDelta : ℤ
  deriving DecidableEq

variable (data : List UInt8)

def resize (newLen : ℕ) : List UInt8 :=
  data.take newLen ++ List.replicate (newLen - data.length) 0

/-- A store into a slice keeps its length. -/
def overwrite (data bytes : List UInt8) : List UInt8 :=
  bytes.take data.length ++ data.drop bytes.length

section

variable {Pubkey : Type}

namespace TransactionAccounts

variable (self : TransactionAccounts Pubkey)

def touch (index : ℕ) :
    Except InstructionError (TransactionAccounts Pubkey) :=
  if index < self.touchedFlags.length then
    .ok { self with touchedFlags := self.touchedFlags.set index true }
  else .error .missingAccount

def resizedDelta (oldLen newLen : ℕ) : ℤ :=
  saturateI64 (self.resizeDelta + saturateI64 (newLen - oldLen))

def updateAccountsResizeDelta (oldLen newLen : ℕ) :
    TransactionAccounts Pubkey :=
  { self with resizeDelta := self.resizedDelta oldLen newLen }

def canDataBeResized (oldLen newLen : ℕ) :
    Except InstructionError Unit :=
  if maxAccountDataLen < newLen then .error .invalidRealloc
  else if maxAccountDataGrowthPerTransaction < self.resizedDelta oldLen newLen then
    .error .maxAccountsDataAllocationsExceeded
  else .ok ()

def addLamportsDelta (balance : ℤ) :
    Except InstructionError (TransactionAccounts Pubkey) :=
  let delta := self.lamportsDelta + balance
  if -2 ^ 127 ≤ delta ∧ delta < 2 ^ 127 then .ok { self with lamportsDelta := delta }
  else .error .arithmeticOverflow

def store (index : ℕ) (account : Account Pubkey) :
    TransactionAccounts Pubkey :=
  { self with accounts := self.accounts.set index account }

/-- A store to the region of an account.  The region is as long as the account was when it was mapped,
and it may grow into the reserved space. -/
def accessViolationHandler (payload : Option ℕ)
    (regionLen reserved requestedLength : ℕ) : TransactionAccounts Pubkey :=
  match payload with
  | none => self
  | some index =>
    if reserved < requestedLength then self
    else
      match self.accounts[index]?, self.touch index with
      | some account, .ok touched =>
        if regionLen < requestedLength then
          let oldLen := account.data.length
          let remaining := saturateI64 (maxAccountDataGrowthPerTransaction - self.resizeDelta)
          let newLen := min (min reserved maxAccountDataLen) (oldLen + remaining.toNat)
          (touched.updateAccountsResizeDelta oldLen newLen).store index
            { account with data := resize account.data newLen }
        else touched
      | _, _ => self

end TransactionAccounts

/-! ## Borrowed accounts -/

structure BorrowedInstructionAccount (Pubkey : Type) where
  accounts : TransactionAccounts Pubkey
  account : Account Pubkey
  instructionAccount : InstructionAccount
  programKey : Option Pubkey

namespace BorrowedInstructionAccount

variable [DecidableEq Pubkey] (self : BorrowedInstructionAccount Pubkey)

def index : ℕ := self.instructionAccount.indexInTransaction

def isOwnedByCurrentProgram : Bool := self.programKey = some self.account.owner

def isWritable : Bool := self.instructionAccount.isWritable

def setOwner (pubkey : Pubkey) : Except InstructionError (TransactionAccounts Pubkey) :=
  if !self.isOwnedByCurrentProgram then .error .modifiedProgramId
  else if !self.isWritable then .error .modifiedProgramId
  else if !self.account.data.all (· = 0) then .error .modifiedProgramId
  else if self.account.owner = pubkey then .ok self.accounts
  else do
    let accounts ← self.accounts.touch self.index
    .ok (accounts.store self.index { self.account with owner := pubkey })

def setLamports (lamports : UInt64) : Except InstructionError (TransactionAccounts Pubkey) :=
  if !self.isOwnedByCurrentProgram && lamports < self.account.lamports then
    .error .externalAccountLamportSpend
  else if !self.isWritable then .error .readonlyLamportChange
  else if self.account.lamports = lamports then .ok self.accounts
  else do
    let accounts ← self.accounts.addLamportsDelta (lamports.toNat - self.account.lamports.toNat)
    let accounts ← accounts.touch self.index
    .ok (accounts.store self.index { self.account with lamports := lamports })

def canDataBeChanged : Except InstructionError Unit :=
  if !self.isWritable then .error .readonlyDataModified
  else if !self.isOwnedByCurrentProgram then .error .externalAccountDataModified
  else .ok ()

def canDataBeResized (newLen : ℕ) : Except InstructionError Unit := do
  self.accounts.canDataBeResized self.account.data.length newLen
  self.canDataBeChanged

/-- The slice of `get_data_mut` is written to. -/
def getDataMut (bytes : List UInt8) : Except InstructionError (TransactionAccounts Pubkey) := do
  self.canDataBeChanged
  let accounts ← self.accounts.touch self.index
  .ok (accounts.store self.index { self.account with data := overwrite self.account.data bytes })

/-- The end of the functions that replace the data. -/
def replaceData (data : List UInt8) : Except InstructionError (TransactionAccounts Pubkey) := do
  let accounts ← self.accounts.touch self.index
  .ok ((accounts.updateAccountsResizeDelta self.account.data.length data.length).store self.index
    { self.account with data := data })

def setDataFromSlice (data : List UInt8) :
    Except InstructionError (TransactionAccounts Pubkey) := do
  self.canDataBeResized data.length
  self.replaceData data

def setDataLength (newLength : ℕ) : Except InstructionError (TransactionAccounts Pubkey) := do
  self.canDataBeResized newLength
  if self.account.data.length = newLength then .ok self.accounts
  else self.replaceData (resize self.account.data newLength)

def extendFromSlice (data : List UInt8) : Except InstructionError (TransactionAccounts Pubkey) := do
  self.canDataBeResized (self.account.data.length + data.length)
  if data.isEmpty then .ok self.accounts else self.replaceData (self.account.data ++ data)

def setExecutable (isExempt : UInt64 → ℕ → Bool) (isExecutable : Bool) :
    Except InstructionError (TransactionAccounts Pubkey) :=
  if !isExempt self.account.lamports self.account.data.length then
    .error .executableAccountNotRentExempt
  else if !self.isOwnedByCurrentProgram then .error .executableModified
  else if !self.isWritable then .error .executableModified
  else if self.account.executable = isExecutable then .ok self.accounts
  else do
    let accounts ← self.accounts.touch self.index
    .ok (accounts.store self.index { self.account with executable := isExecutable })

def modifyMemoryRegionOfAccount : Option ℕ :=
  if self.canDataBeChanged = .ok () then some self.index else none

def createMemoryRegionOfAccount (isShared : Bool) :
    Except InstructionError (TransactionAccounts Pubkey × Option ℕ) := do
  let accounts ← if self.canDataBeChanged = .ok () ∧ !isShared then self.getDataMut []
    else .ok self.accounts
  .ok (accounts, self.modifyMemoryRegionOfAccount)

end BorrowedInstructionAccount

/-! ## The instruction stack -/

/-- An instruction on the stack, with the accounts whose regions have a payload. -/
structure Frame where
  context : InstructionContext
  regions : List ℕ

def Frame.setPayload (frame : Frame) (index : ℕ) (payload : Option ℕ) : Frame :=
  { frame with regions := payload.toList ++ frame.regions.filter (· ≠ index) }

structure TransactionContext (Pubkey : Type) where
  accounts : TransactionAccounts Pubkey
  frames : List Frame
  nextTopLevelInstructionIndex : ℕ

/-- What does not change during a transaction. -/
structure Environment (Pubkey Seeds : Type) where
  message : Message Pubkey
  instructionsId : Pubkey
  sysvarId : Pubkey
  createProgramAddress : Seeds → Pubkey → Option Pubkey
  isExempt : UInt64 → ℕ → Bool
  /-- The writer of the instructions sysvar, which the repository imports. -/
  storeCurrentIndexChecked : List UInt8 → UInt16 → Except InstructionError (List UInt8)
  storeCurrentIndexChecked_length : ∀ data index stored,
    storeCurrentIndexChecked data index = .ok stored → stored.length = data.length

inductive Mutation (Pubkey : Type)
  | setOwner (pubkey : Pubkey)
  | setLamports (lamports : UInt64)
  | getDataMut (bytes : List UInt8)
  | setDataFromSlice (data : List UInt8)
  | setDataLength (newLength : ℕ)
  | extendFromSlice (data : List UInt8)
  | setExecutable (isExecutable : Bool)

/-- A program step.  Accounts are named by their position in the instruction. -/
inductive Action (Pubkey Seeds : Type)
  | mutate (position : ℕ) (mutation : Mutation Pubkey)
  | createRegion (position : ℕ) (isShared : Bool)
  | modifyRegion (position : ℕ)
  | fault (index regionLen reserved requestedLength : ℕ)
  | store (index : ℕ) (bytes : List UInt8)
  | topLevel (instruction : CompiledInstruction)
  | call (instruction : Instruction Pubkey) (signerSeeds : List Seeds)
  | pop

variable [DecidableEq Pubkey] {Seeds : Type} (environment : Environment Pubkey Seeds)

def BorrowedInstructionAccount.mutate (self : BorrowedInstructionAccount Pubkey) :
    Mutation Pubkey → Except InstructionError (TransactionAccounts Pubkey)
  | .setOwner pubkey => self.setOwner pubkey
  | .setLamports lamports => self.setLamports lamports
  | .getDataMut bytes => self.getDataMut bytes
  | .setDataFromSlice data => self.setDataFromSlice data
  | .setDataLength newLength => self.setDataLength newLength
  | .extendFromSlice data => self.extendFromSlice data
  | .setExecutable isExecutable => self.setExecutable environment.isExempt isExecutable

def InstructionContext.isWritable (context : InstructionContext) (index : ℕ) : Bool :=
  context.instructionAccounts.any fun account =>
    account.indexInTransaction = index && account.isWritable

namespace TransactionContext

variable (self : TransactionContext Pubkey)

def tryBorrowInstructionAccount (context : InstructionContext)
    (position : ℕ) : Except InstructionError (BorrowedInstructionAccount Pubkey) :=
  match context.instructionAccounts[position]? with
  | none => .error .missingAccount
  | some instructionAccount =>
    match self.accounts.accounts[instructionAccount.indexInTransaction]? with
    | none => .error .missingAccount
    | some account => .ok ⟨self.accounts, account, instructionAccount,
        environment.message.accountKeys[context.programAccountIndexInTx]?⟩

variable (accounts : TransactionAccounts Pubkey)

/-- Whether the region of an account gets a payload. -/
def hasPayload (context : InstructionContext) (index : ℕ) : Bool :=
  context.isWritable index && accounts.accounts[index]?.any fun account =>
    environment.message.accountKeys[context.programAccountIndexInTx]? = some account.owner

/-- The payloads of the given accounts are computed again. -/
def updateRegions (changed : ℕ → Bool) (frame : Frame) : Frame :=
  { frame with
    regions := frame.regions.filter fun index =>
      !changed index || hasPayload environment accounts frame.context index }

/-- The instructions sysvar says which instruction of the message runs. -/
def storeCurrentIndex (instructionIndex : ℕ) :
    Except InstructionError (TransactionAccounts Pubkey) :=
  match findIndexOfAccount environment.message.accountKeys environment.instructionsId with
  | none => .ok accounts
  | some index =>
    match accounts.accounts[index]? with
    | none => .error .missingAccount
    | some account =>
      if account.owner ≠ environment.sysvarId then .error .invalidAccountOwner
      else do
        let data ← environment.storeCurrentIndexChecked account.data (.ofNat instructionIndex)
        .ok (accounts.store index { account with data := data })

def push (context : InstructionContext) :
    Except InstructionError (TransactionContext Pubkey) :=
  if !self.frames.isEmpty && self.accounts.lamportsDelta ≠ 0 then .error .unbalancedInstruction
  else do
    let current := if self.frames.isEmpty then self.nextTopLevelInstructionIndex
      else self.nextTopLevelInstructionIndex - 1
    let accounts ← storeCurrentIndex environment self.accounts current
    .ok ⟨accounts, ⟨context, []⟩ :: self.frames, current + 1⟩

/-- The instruction is popped even if it is unbalanced.  The regions of the caller are updated for the
accounts that were writable. -/
def pop :
    Except InstructionError Unit × TransactionContext Pubkey :=
  match self.frames with
  | [] => (.error .callDepth, self)
  | callee :: callers =>
    (if self.accounts.lamportsDelta ≠ 0 then .error .unbalancedInstruction else .ok (),
      { self with
        frames := callers.modifyHead
          (updateRegions environment self.accounts callee.context.isWritable) })

/-- A step of the current instruction. -/
def act (frame : Frame) (callers : List Frame) :
    Action Pubkey Seeds → Except InstructionError (TransactionContext Pubkey)
  | .mutate position mutation => do
    let account ← self.tryBorrowInstructionAccount environment frame.context position
    let accounts ← account.mutate environment mutation
    -- only a new owner makes a difference to the payload
    .ok { self with
      accounts := accounts
      frames := updateRegions environment accounts (· = account.index) frame :: callers }
  | .createRegion position isShared => do
    let account ← self.tryBorrowInstructionAccount environment frame.context position
    let (accounts, payload) ← account.createMemoryRegionOfAccount isShared
    .ok { self with
      accounts := accounts
      frames := frame.setPayload account.index payload :: callers }
  | .modifyRegion position => do
    let account ← self.tryBorrowInstructionAccount environment frame.context position
    let payload := account.modifyMemoryRegionOfAccount
    .ok { self with frames := frame.setPayload account.index payload :: callers }
  | .fault index regionLen reserved requestedLength =>
    let payload := if frame.regions.contains index then some index else none
    .ok { self with
      accounts := self.accounts.accessViolationHandler payload regionLen reserved requestedLength }
  | .store index bytes =>
    -- a region is writable once its account was touched
    if frame.regions.contains index && self.accounts.touchedFlags[index]? = some true then
      match self.accounts.accounts[index]? with
      | none => .error .missingAccount
      | some account =>
        let accounts := self.accounts.store index
          { account with data := overwrite account.data bytes }
        .ok { self with accounts := accounts }
    else .error .readonlyDataModified
  | .call instruction signerSeeds => do
    let callee ← nativeInvokeSigned environment.message.accountKeys
      environment.createProgramAddress frame.context instruction signerSeeds
    self.push environment callee
  | .topLevel _ => .error .callDepth
  | .pop => .ok (self.pop environment).2

/-- Without an instruction on the stack, the next one of the message is due. -/
def start :
    Action Pubkey Seeds → Except InstructionError (TransactionContext Pubkey)
  | .topLevel instruction => do
    let context ← prepareTopLevelInstruction environment.message instruction
    self.push environment context
  | _ => .error .callDepth

def apply (action : Action Pubkey Seeds) :
    Except InstructionError (TransactionContext Pubkey) :=
  match self.frames with
  | [] => self.start environment action
  | frame :: callers => self.act environment frame callers action

/-- A failed operation changes nothing; the program may go on or give up. -/
def run (actions : List (Action Pubkey Seeds)) :
    TransactionContext Pubkey :=
  actions.foldl (fun state action => (state.apply environment action).toOption.getD state) self

/-- An instruction of the message, with what its program does and returns.  The instruction is popped
independent of the result. -/
def processInstruction (instruction : CompiledInstruction)
    (actions : List (Action Pubkey Seeds)) (result : Except InstructionError Unit) :
    Except InstructionError (TransactionContext Pubkey) := do
  let context ← prepareTopLevelInstruction environment.message instruction
  let state ← self.push environment context
  let popped := (state.run environment actions).pop environment
  result
  popped.1
  .ok popped.2

def processMessage
    (instructions : List (CompiledInstruction × List (Action Pubkey Seeds) ×
      Except InstructionError Unit)) : Except InstructionError (TransactionContext Pubkey) :=
  instructions.foldlM (fun state (instruction, actions, result) =>
    state.processInstruction environment instruction actions result) self

def new (loaded : List (Account Pubkey)) : TransactionContext Pubkey :=
  ⟨⟨loaded, loaded.map fun _ => false, 0, 0⟩, [], 0⟩

end TransactionContext

/-- A sum of 128 bits. -/
def transactionAccountsLamportsSum (accounts : List (Account Pubkey)) : Option ℕ :=
  accounts.foldlM (fun sum account =>
    if sum + account.lamports.toNat < 2 ^ 128 then some (sum + account.lamports.toNat) else none) 0

/-- The check after a message has been processed. -/
def isUnbalancedTransaction (accountsBefore accountsAfter : List (Account Pubkey)) : Bool :=
  ((transactionAccountsLamportsSum accountsAfter).filter
    (· = (transactionAccountsLamportsSum accountsBefore).getD 0)).isNone

end

end RakuraiValidator.Svm
