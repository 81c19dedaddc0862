import Mathlib.Tactic

/-!
# Results of BAM batches

A batch that passes the first checks is dispatched as one work item.  The worker returns a result
for each transaction, and the scheduler sends one message for the batch.  Batches that are reverted
on an error go through all results.  For the others the results are consumed one for each batch, so
a batch of several transactions is reported by the first of them.
-/

namespace RakuraiValidator.BamScheduler

open List

/-! ## Checks on arrival -/

def maxPacketsPerBundle : ℕ := 5

/-- `meta.flags.revert_on_error`, where the meta data or the flags may be missing. -/
structure Packet where
  flags : Option (Option Bool)

structure AtomicTxnBatch where
  seqId : ℕ
  maxScheduleSlot : ℕ
  packets : List Packet

inductive SchedulingError
  | outsideLeaderSlot
  | pohTimeout

inductive DeserializationErrorReason
  | empty
  | sanitizeError
  | inconsistentBundle

/-- Why a batch was not committed; `ε` are the transaction errors of the protocol. -/
inductive Reason (ε : Type)
  | schedulingError (error : SchedulingError)
  | deserializationError (index : ℕ) (reason : DeserializationErrorReason)
  | transactionError (index : ℕ) (reason : ε)

structure Prevalidated where
  batchPacketCount : ℕ
  revertOnError : Bool
  seqId : ℕ
  maxScheduleSlot : ℕ

def allEqualValue : List Bool → Option Bool
  | [] => none
  | value :: values => if values.all (· = value) then some value else none

variable {ε : Type}

def prevalidateBatch (currentSlot : ℕ) (batch : AtomicTxnBatch) :
    Except (Reason ε × ℕ) Prevalidated :=
  if batch.maxScheduleSlot < currentSlot then
    .error (.schedulingError .outsideLeaderSlot, batch.seqId)
  else if batch.packets.isEmpty then .error (.deserializationError 0 .empty, batch.seqId)
  else if maxPacketsPerBundle < batch.packets.length then
    .error (.deserializationError 0 .sanitizeError, batch.seqId)
  else
    match allEqualValue (batch.packets.map fun packet => (packet.flags.bind id).getD false) with
    | none => .error (.deserializationError 0 .inconsistentBundle, batch.seqId)
    | some revertOnError =>
      .ok ⟨batch.packets.length, revertOnError, batch.seqId, batch.maxScheduleSlot⟩

def prevalidateBatches (atomicTxnBatchGroups : List (List AtomicTxnBatch)) (currentSlot : ℕ) :
    List (Except (Reason ε × ℕ) Prevalidated) :=
  atomicTxnBatchGroups.flatMap fun batches => batches.map (prevalidateBatch currentSlot)

/-! ## Results -/

inductive NotCommittedReason (Error : Type)
  | pohTimeout
  | error (err : Error)

inductive TransactionResult (Details Error : Type)
  | committed (result : Details)
  | notCommitted (reason : NotCommittedReason Error)

inductive BatchResult (Details ε : Type)
  | committed (transactionResults : List Details)
  | notCommitted (reason : Reason ε)

/-- The error of a transaction that failed for another one, and the errors in the protocol. -/
structure Errors (Error ε : Type) where
  commitCancelled : Error
  convertTxnErrorToProto : Error → ε

variable {Details Error Id : Type} [DecidableEq Error] (errors : Errors Error ε)

def convertReasonToProto (index : ℕ) : NotCommittedReason Error → Reason ε
  | .pohTimeout => .schedulingError .pohTimeout
  | .error err => .transactionError (index % 2 ^ 32) (errors.convertTxnErrorToProto err)

def revertOnErrorLoop (index : ℕ) (sawCommitCancelled : Bool) (transactionResults : List Details) :
    List (TransactionResult Details Error) → BatchResult Details ε
  | [] =>
    if sawCommitCancelled then .notCommitted (convertReasonToProto errors 0 .pohTimeout)
    else .committed transactionResults
  | .committed processed :: results =>
    revertOnErrorLoop (index + 1) sawCommitCancelled (transactionResults ++ [processed]) results
  | .notCommitted .pohTimeout :: _ => .notCommitted (convertReasonToProto errors index .pohTimeout)
  | .notCommitted (.error err) :: results =>
    if err ≠ errors.commitCancelled then
      .notCommitted (convertReasonToProto errors index (.error err))
    else revertOnErrorLoop (index + 1) true transactionResults results

def generateRevertOnErrorBundleResult (processedResults : List (TransactionResult Details Error)) :
    BatchResult Details ε :=
  revertOnErrorLoop errors 0 false [] processedResults

def generateBundleResult : TransactionResult Details Error → BatchResult Details ε
  | .committed result => .committed [result]
  | .notCommitted reason => .notCommitted (convertReasonToProto errors 0 reason)

/-- The messages for the batches of a work item. -/
def reportBatches (revertOnError : Bool) : List (Id × ℕ) →
    Option (List (TransactionResult Details Error)) → List (ℕ × BatchResult Details ε)
  | [], _ => []
  | (_, seqId) :: batches, processedResults =>
    if revertOnError then
      (processedResults.map fun results =>
          (seqId, generateRevertOnErrorBundleResult errors results)).toList ++
        reportBatches revertOnError batches none
    else
      match processedResults with
      | some (result :: results) =>
        (seqId, generateBundleResult errors result) ::
          reportBatches revertOnError batches (some results)
      | missing => reportBatches revertOnError batches missing

/-- What `receive_completed` sends for a work item that is in flight and not retried. -/
def receiveCompleted (batchPriorityIds : List (Id × ℕ)) (revertOnError : Bool)
    (extraInfo : Option (List (TransactionResult Details Error))) :
    List (ℕ × BatchResult Details ε) :=
  reportBatches errors revertOnError
    (batchPriorityIds.take (if revertOnError then 1 else batchPriorityIds.length)) extraInfo

/-! ## What is reported -/

theorem packetCount_bounds {groups : List (List AtomicTxnBatch)} {currentSlot : ℕ}
    {batch : Prevalidated}
    (h : (.ok batch : Except (Reason ε × ℕ) _) ∈ prevalidateBatches groups currentSlot) :
    0 < batch.batchPacketCount ∧ batch.batchPacketCount ≤ maxPacketsPerBundle := by
  obtain ⟨batches, _, hmem⟩ := List.mem_flatMap.mp h
  obtain ⟨received, _, hvalid⟩ := List.mem_map.mp hmem
  unfold prevalidateBatch at hvalid
  split_ifs at hvalid with _ hempty hlen
  split at hvalid
  · contradiction
  · cases hvalid
    exact ⟨length_pos_iff.mpr (by simpa using hempty), not_lt.mp hlen⟩

variable (results : List (TransactionResult Details Error))

theorem revertOnErrorLoop_cases (index : ℕ) (sawCommitCancelled : Bool) (done : List Details) :
    (sawCommitCancelled = false ∧ ∃ details,
      revertOnErrorLoop errors index sawCommitCancelled done results =
        .committed (done ++ details) ∧ results = details.map .committed) ∨
    ∃ reason, revertOnErrorLoop errors index sawCommitCancelled done results =
      .notCommitted reason ∧ (sawCommitCancelled = true ∨ ∃ other, .notCommitted other ∈ results) := by
  induction results generalizing index sawCommitCancelled done with
  | nil =>
    cases sawCommitCancelled with
    | false => exact .inl ⟨rfl, [], by simp [revertOnErrorLoop], rfl⟩
    | true => exact .inr ⟨_, rfl, .inl rfl⟩
  | cons result results ih =>
    match result with
    | .committed processed =>
      rcases ih (index + 1) sawCommitCancelled (done ++ [processed]) with
        ⟨hsaw, details, hloop, rfl⟩ | ⟨reason, hloop, hother⟩
      · exact .inl ⟨hsaw, processed :: details, by simpa [revertOnErrorLoop] using hloop, rfl⟩
      · exact .inr ⟨reason, hloop, hother.imp_right fun ⟨other, hmem⟩ =>
          ⟨other, mem_cons_of_mem _ hmem⟩⟩
    | .notCommitted .pohTimeout => exact .inr ⟨_, rfl, .inr ⟨_, mem_cons_self⟩⟩
    | .notCommitted (.error err) =>
      right
      rw [revertOnErrorLoop]
      split
      · exact ⟨_, rfl, .inr ⟨_, mem_cons_self⟩⟩
      · rcases ih (index + 1) true done with ⟨hsaw, _⟩ | ⟨reason, hloop, _⟩
        · contradiction
        · exact ⟨reason, hloop, .inr ⟨_, mem_cons_self⟩⟩

/-- Committed, or not for the error of another transaction. -/
def Passes (errors : Errors Error ε) (result : TransactionResult Details Error) : Prop :=
  (∃ details, result = .committed details) ∨ result = .notCommitted (.error errors.commitCancelled)

variable {errors} in
theorem revertOnErrorLoop_first {before after : List (TransactionResult Details Error)} {err : Error}
    (hbefore : ∀ result ∈ before, Passes errors result) (herr : err ≠ errors.commitCancelled)
    (index : ℕ) (sawCommitCancelled : Bool) (done : List Details) :
    revertOnErrorLoop errors index sawCommitCancelled done
      (before ++ .notCommitted (.error err) :: after) =
        .notCommitted (convertReasonToProto errors (index + before.length) (.error err)) := by
  induction before generalizing index sawCommitCancelled done with
  | nil => simp [revertOnErrorLoop, herr]
  | cons result before ih =>
    have hrest := ih (fun other hother => hbefore other (mem_cons_of_mem _ hother)) (index + 1)
    rw [length_cons, Nat.add_comm before.length, ← Nat.add_assoc]
    rcases hbefore result mem_cons_self with ⟨details, rfl⟩ | rfl
    · exact hrest _ _
    · rw [cons_append, revertOnErrorLoop, if_neg (by simp)]
      exact hrest _ _

/-- One message is sent for a batch.  It is `committed` with the details of all transactions if all
of them were committed, and otherwise names the first error of a batch that is reverted. -/
def Truthful (batch : Prevalidated) (priorityId : Id) : Prop :=
  ∃ result, receiveCompleted errors [(priorityId, batch.seqId)] batch.revertOnError
      (some results) = [(batch.seqId, result)] ∧
    ((∃ details, result = .committed details ∧ results = details.map .committed) ∨
      ∃ reason other, result = .notCommitted reason ∧ .notCommitted other ∈ results) ∧
    (batch.revertOnError = true → ∀ before err after,
      results = before ++ .notCommitted (.error err) :: after →
      (∀ other ∈ before, Passes errors other) → err ≠ errors.commitCancelled →
        result = .notCommitted
          (.transactionError before.length (errors.convertTxnErrorToProto err)))

/-- The messages of a batch are truthful for all results exactly if it is reverted on an error or
has one packet. -/
theorem batch_result_truthful [Nonempty Details] {groups : List (List AtomicTxnBatch)}
    {currentSlot : ℕ} {batch : Prevalidated}
    (hbatch : (.ok batch : Except (Reason ε × ℕ) _) ∈ prevalidateBatches groups currentSlot)
    (priorityId : Id) :
    (∀ results : List (TransactionResult Details Error), results.length = batch.batchPacketCount →
      Truthful errors results batch priorityId) ↔
    batch.revertOnError = true ∨ batch.batchPacketCount = 1 := by
  obtain ⟨hpos, hbound⟩ := packetCount_bounds hbatch
  unfold Truthful
  cases hrevert : batch.revertOnError with
  | true =>
    refine ⟨fun _ => .inl rfl, fun _ results hlength =>
      ⟨generateRevertOnErrorBundleResult errors results, rfl, ?_, ?_⟩⟩
    · rcases revertOnErrorLoop_cases errors results 0 false [] with
        ⟨_, hcommitted⟩ | ⟨reason, hloop, hother⟩
      · exact .inl hcommitted
      · obtain ⟨other, hmem⟩ := hother.resolve_left nofun
        exact .inr ⟨reason, other, hloop, hmem⟩
    · rintro - before err after rfl hbefore herr
      rw [← hlength, length_append, length_cons, maxPacketsPerBundle] at hbound
      rw [generateRevertOnErrorBundleResult, revertOnErrorLoop_first hbefore herr, Nat.zero_add,
        convertReasonToProto, Nat.mod_eq_of_lt (by omega)]
  | false =>
    constructor
    · -- all transactions are committed, but only the first one is reported
      intro htruthful
      obtain ⟨details⟩ := ‹Nonempty Details›
      obtain ⟨count, hcount⟩ := Nat.exists_eq_succ_of_ne_zero hpos.ne'
      obtain ⟨result, hsent, hresult, -⟩ :=
        htruthful (.committed details :: replicate count (.committed details)) (by simp [hcount])
      cases hsent
      rcases hresult with ⟨reported, hreported, hall⟩ | ⟨reason, other, hreported, -⟩
      · cases hreported
        rw [map_singleton, cons_eq_cons, replicate_eq_nil_iff] at hall
        simp [hcount, hall.2]
      · cases hreported
    · intro hkind results hlength
      rw [hkind.resolve_left nofun] at hlength
      obtain ⟨result, rfl⟩ := List.length_eq_one_iff.mp hlength
      refine ⟨generateBundleResult errors result, rfl, ?_, nofun⟩
      cases result with
      | committed details => exact .inl ⟨[details], rfl, rfl⟩
      | notCommitted reason => exact .inr ⟨_, reason, rfl, mem_singleton_self _⟩

def plainErrors : Errors ℕ ℕ := ⟨0, id⟩

def cancelledAndFailed : List (TransactionResult ℕ ℕ) :=
  [.notCommitted (.error 0), .notCommitted (.error 3)]

theorem batch_result_truthful_reverted :
    receiveCompleted plainErrors [((), 7)] true (some cancelledAndFailed) =
      [(7, .notCommitted (.transactionError 1 3))] := by
  have hbatch : (.ok ⟨2, true, 7, 10⟩ : Except (Reason ℕ × ℕ) _) ∈
      prevalidateBatches [[⟨7, 10, [⟨some (some true)⟩, ⟨some (some true)⟩]⟩]] 10 :=
    mem_singleton_self _
  obtain ⟨result, hsent, _, hfirst⟩ :=
    (batch_result_truthful plainErrors hbatch ()).mpr (.inl rfl) cancelledAndFailed rfl
  have hresult := hfirst rfl [.notCommitted (.error 0)] 3 [] rfl (by simp [Passes, plainErrors])
    (by decide)
  rw [hsent, hresult]
  rfl

/-- The batch is reported as committed, although its second transaction failed. -/
theorem second_result_dropped :
    (.ok ⟨2, false, 7, 10⟩ : Except (Reason ℕ × ℕ) _) ∈
      prevalidateBatches [[⟨7, 10, [⟨none⟩, ⟨none⟩]⟩]] 10 ∧
    receiveCompleted plainErrors [((), 7)] false
      (some [.committed 5, (.notCommitted (.error 3) : TransactionResult ℕ ℕ)]) =
        [(7, .committed [5])] :=
  ⟨mem_singleton_self _, rfl⟩

end RakuraiValidator.BamScheduler
