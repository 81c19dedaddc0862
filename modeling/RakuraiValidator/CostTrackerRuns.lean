import RakuraiValidator.CostTrackerSums

/-!
# Runs of the cost tracker

Every transaction is added at most once and settled at most once.  What is tracked in the
end depends on the events of each transaction, not on how the events of different
transactions interleave.
-/

namespace RakuraiValidator.CostModel

open List

variable {Pubkey : Type}

section Runs

variable {Id : Type} [DecidableEq Id]

inductive Event (Id Pubkey : Type)
  | added (id : Id) (txCost : TransactionCost Pubkey)
  | refused (txCost : TransactionCost Pubkey)
  | removed (id : Id)
  | updated (id : Id) (executionUnits loadedCost : ℕ)

namespace Event

def concerns (id : Id) : Event Id Pubkey → Bool
  | .added other _ => other = id
  | .refused _ => false
  | .removed other => other = id
  | .updated other _ _ => other = id

def next (id : Id) (record : Option (Tracked Id Pubkey)) :
    Event Id Pubkey → Option (Tracked Id Pubkey)
  | .added other txCost => if other = id then some ⟨id, txCost, none⟩ else record
  | .refused _ => record
  | .removed other => if other = id then none else record
  | .updated other executionUnits loadedCost =>
    if other = id then
      record.map fun tracked => { tracked with actual := some (executionUnits, loadedCost) }
    else record

end Event

def recordAfter (id : Id) (events : List (Event Id Pubkey)) : Option (Tracked Id Pubkey) :=
  events.foldl (Event.next id) none

theorem recordAfter_append (id : Id) (events : List (Event Id Pubkey)) (event : Event Id Pubkey) :
    recordAfter id (events ++ [event]) = event.next id (recordAfter id events) := by
  simp [recordAfter]

theorem recordAfter_filter (id : Id) (events : List (Event Id Pubkey)) :
    recordAfter id (events.filter (Event.concerns id)) = recordAfter id events := by
  unfold recordAfter
  generalize (none : Option (Tracked Id Pubkey)) = record
  induction events generalizing record with
  | nil => rfl
  | cons event events ih =>
    by_cases hconcerns : event.concerns id
    · rw [filter_cons_of_pos hconcerns, foldl_cons, foldl_cons, ih]
    · have hsame : event.next id record = record := by
        cases event with
        | refused => rfl
        | _ => simp_all [Event.concerns, Event.next]
      rw [filter_cons_of_neg hconcerns, foldl_cons, hsame, ih]

/-- The tracked transactions are those the events leave tracked. -/
structure Bookkeeping (events : List (Event Id Pubkey)) (tracked : List (Tracked Id Pubkey)) :
    Prop where
  ids : (tracked.map Tracked.id).Nodup
  records : ∀ id record,
    recordAfter id events = some record ↔ record ∈ tracked ∧ record.id = id
  unknown : ∀ id, (∀ txCost, .added id txCost ∉ events) → recordAfter id events = none

variable {events : List (Event Id Pubkey)} {tracked : List (Tracked Id Pubkey)}

namespace Bookkeeping

variable {rest : List (Tracked Id Pubkey)} {id : Id} {txCost : TransactionCost Pubkey}

section

omit [DecidableEq Id]

variable {first record : Tracked Id Pubkey}

theorem mem_cons_other (hne : first.id ≠ id) :
    record ∈ first :: rest ∧ record.id = id ↔ record ∈ rest ∧ record.id = id := by
  rw [mem_cons]
  constructor
  · rintro ⟨rfl | hmem, hsame⟩
    · exact absurd hsame hne
    · exact ⟨hmem, hsame⟩
  · exact fun ⟨hmem, hsame⟩ => ⟨.inr hmem, hsame⟩

theorem mem_cons_same (hnew : ∀ other ∈ rest, other.id ≠ first.id) :
    record ∈ first :: rest ∧ record.id = first.id ↔ record = first := by
  constructor
  · rintro ⟨hmem, hsame⟩
    exact (mem_cons.mp hmem).resolve_right fun hmem => hnew record hmem hsame
  · rintro rfl
    exact ⟨mem_cons_self, rfl⟩

end

section

variable (h : Bookkeeping events tracked)

include h

theorem perm (hperm : tracked.Perm rest) : Bookkeeping events rest := by
  constructor
  · exact (hperm.map _).nodup_iff.mp h.ids
  · intro id record
    rw [h.records, hperm.mem_iff]
  · exact h.unknown

theorem added (hid : ∀ other, .added id other ∉ events) :
    Bookkeeping (events ++ [.added id txCost]) (⟨id, txCost, none⟩ :: tracked) := by
  have hnone : recordAfter id events = none := h.unknown id hid
  have hnew : ∀ record ∈ tracked, record.id ≠ id := by
    intro record hmem heq
    have hsome := (h.records id record).mpr ⟨hmem, heq⟩
    rw [hnone] at hsome
    cases hsome
  constructor
  · rw [map_cons, nodup_cons]
    constructor
    · intro hmem
      obtain ⟨record, hrec, heq⟩ := mem_map.mp hmem
      exact hnew record hrec heq
    · exact h.ids
  · intro other record
    rw [recordAfter_append, Event.next]
    by_cases heq : id = other
    · subst heq
      rw [if_pos rfl, Option.some.injEq, eq_comm]
      exact (mem_cons_same hnew).symm
    · rw [if_neg heq, h.records]
      exact (mem_cons_other heq).symm
  · intro other hother
    have hne : id ≠ other := by
      intro heq
      subst heq
      exact hother txCost (by simp)
    rw [recordAfter_append, Event.next, if_neg hne]
    exact h.unknown other fun other' hmem => hother other' (mem_append_left _ hmem)

theorem refused : Bookkeeping (events ++ [.refused txCost]) tracked := by
  constructor
  · exact h.ids
  · intro id record
    rw [recordAfter_append]
    exact h.records id record
  · intro id hid
    rw [recordAfter_append]
    exact h.unknown id fun other hmem => hid other (mem_append_left _ hmem)

end

omit [DecidableEq Id] in
theorem id_ne_of_cons {record : Tracked Id Pubkey}
    (hids : ((record :: rest).map Tracked.id).Nodup) : ∀ other ∈ rest, other.id ≠ record.id := by
  rw [map_cons, nodup_cons] at hids
  intro other hmem heq
  exact hids.1 (heq ▸ mem_map_of_mem hmem)

variable (h : Bookkeeping events (⟨id, txCost, none⟩ :: rest))

include h

theorem removed : Bookkeeping (events ++ [.removed id]) rest := by
  have hne := id_ne_of_cons h.ids
  constructor
  · exact (nodup_cons.mp h.ids).2
  · intro other record
    rw [recordAfter_append, Event.next]
    by_cases heq : id = other
    · subst heq
      simp only [if_true, reduceCtorEq, false_iff, not_and]
      exact hne record
    · rw [if_neg heq, h.records]
      exact mem_cons_other heq
  · intro other hother
    rw [recordAfter_append, Event.next]
    split
    · rfl
    · exact h.unknown other fun other' hmem => hother other' (mem_append_left _ hmem)

theorem updated {executionUnits loadedCost : ℕ} :
    Bookkeeping (events ++ [.updated id executionUnits loadedCost])
      (⟨id, txCost, some (executionUnits, loadedCost)⟩ :: rest) := by
  have hne := id_ne_of_cons h.ids
  have hrec : recordAfter id events = some ⟨id, txCost, none⟩ :=
    (h.records id _).mpr ⟨mem_cons_self, rfl⟩
  constructor
  · exact h.ids
  · intro other record
    rw [recordAfter_append, Event.next]
    by_cases heq : id = other
    · subst heq
      rw [if_pos rfl, hrec, Option.map_some, Option.some.injEq, eq_comm]
      exact Iff.symm (mem_cons_same fun other hmem => hne other hmem)
    · rw [if_neg heq, h.records, mem_cons_other heq, mem_cons_other heq]
  · intro other hother
    have hnone : recordAfter other events = none :=
      h.unknown other fun other' hmem => hother other' (mem_append_left _ hmem)
    rw [recordAfter_append, Event.next, hnone]
    split <;> rfl

end Bookkeeping

theorem Bookkeeping.perm_of_filter_eq {events' : List (Event Id Pubkey)}
    {tracked' : List (Tracked Id Pubkey)} (h : Bookkeeping events tracked)
    (h' : Bookkeeping events' tracked')
    (hsame : ∀ id, events.filter (Event.concerns id) = events'.filter (Event.concerns id)) :
    tracked.Perm tracked' := by
  apply (perm_ext_iff_of_nodup (List.Nodup.of_map _ h.ids) (List.Nodup.of_map _ h'.ids)).mpr
  intro record
  have hrec : recordAfter record.id events = recordAfter record.id events' := by
    rw [← recordAfter_filter, hsame, recordAfter_filter]
  have hleft := h.records record.id record
  have hright := h'.records record.id record
  rw [hrec, hright] at hleft
  simpa using hleft.symm

variable [DecidableEq Pubkey]

/-- The trackers of a run, with the transactions they track.  Each transaction is added at
most once, and removed or updated at most once. -/
inductive Run (limits : CostTrackerLimits) :
    List (Event Id Pubkey) → CostTracker Pubkey → List (Tracked Id Pubkey) → Prop where
  | fresh : Run limits [] (.fresh limits) []
  | added {events : List (Event Id Pubkey)} {tracker next : CostTracker Pubkey}
      {tracked : List (Tracked Id Pubkey)} {id : Id} {txCost : TransactionCost Pubkey}
      {updated : UpdatedCosts} (run : Run limits events tracker tracked)
      (hid : ∀ other, .added id other ∉ events) (hnodup : txCost.writableAccounts.Nodup)
      (hfits : Fits tracked txCost) (hcall : tracker.tryAdd txCost = (next, .ok updated)) :
      Run limits (events ++ [.added id txCost]) next (⟨id, txCost, none⟩ :: tracked)
  | refused {events : List (Event Id Pubkey)} {tracker next : CostTracker Pubkey}
      {tracked : List (Tracked Id Pubkey)} {txCost : TransactionCost Pubkey}
      {err : CostTrackerError} (run : Run limits events tracker tracked)
      (hnodup : txCost.writableAccounts.Nodup) (hfits : Fits tracked txCost)
      (hcall : tracker.tryAdd txCost = (next, .error err)) :
      Run limits (events ++ [.refused txCost]) next tracked
  | removed {events : List (Event Id Pubkey)} {tracker : CostTracker Pubkey}
      {tracked rest : List (Tracked Id Pubkey)} {id : Id} {txCost : TransactionCost Pubkey}
      (run : Run limits events tracker tracked)
      (hperm : tracked.Perm (⟨id, txCost, none⟩ :: rest)) :
      Run limits (events ++ [.removed id]) (tracker.remove txCost) rest
  | updated {events : List (Event Id Pubkey)} {tracker : CostTracker Pubkey}
      {tracked rest : List (Tracked Id Pubkey)} {id : Id} {txCost : TransactionCost Pubkey}
      {executionUnits loadedCost : ℕ} (run : Run limits events tracker tracked)
      (hperm : tracked.Perm (⟨id, txCost, none⟩ :: rest))
      (hfits : blockSum (⟨id, txCost, some (executionUnits, loadedCost)⟩ :: rest :
        List (Tracked Id Pubkey)) < 2 ^ 64) :
      Run limits (events ++ [.updated id executionUnits loadedCost])
        (tracker.updateExecutionCost txCost executionUnits loadedCost)
        (⟨id, txCost, some (executionUnits, loadedCost)⟩ :: rest)

structure RunInvariant (limits : CostTrackerLimits) (events : List (Event Id Pubkey))
    (tracker : CostTracker Pubkey) (tracked : List (Tracked Id Pubkey)) : Prop where
  accounts : Accounts tracker tracked
  limits_eq : tracker.limits = limits
  range : blockSum tracked < 2 ^ 64
  distinct : ∀ record ∈ tracked, record.txCost.writableAccounts.Nodup
  bookkeeping : Bookkeeping events tracked

theorem RunInvariant.perm {limits : CostTrackerLimits} {tracker : CostTracker Pubkey}
    (h : RunInvariant limits events tracker tracked) (hperm : tracked.Perm rest) :
    RunInvariant limits events tracker rest := by
  have haccts := h.accounts.perm hperm
  have hrange := h.range
  rw [h.accounts.block.symm, haccts.block] at hrange
  exact ⟨haccts, h.limits_eq, hrange, fun record hmem => h.distinct record
    (hperm.mem_iff.mpr hmem), h.bookkeeping.perm hperm⟩

theorem Run.invariant {limits : CostTrackerLimits} {tracker : CostTracker Pubkey}
    (run : Run limits events tracker tracked) : RunInvariant limits events tracker tracked := by
  induction run with
  | fresh =>
    constructor
    · constructor <;> intros <;> rfl
    · rfl
    · simp [blockSum]
    · simp
    · constructor
      · simp
      · simp [recordAfter]
      · exact fun _ _ => rfl
  | @added events tracker next tracked id txCost updated run hid hnodup hfits hcall ih =>
    rcases ih.accounts.tryAdd hnodup hfits with
      ⟨next', updated', hadd, haccts, hlims, _⟩ | ⟨next', err, hrefused, _⟩
    · rw [hcall] at hadd
      cases hadd
      constructor
      · exact haccts id
      · exact hlims.trans ih.limits_eq
      · rw [blockSum_cons]
        have := hfits.block
        change txCost.total + _ < _
        omega
      · intro record hmem
        rcases mem_cons.mp hmem with heq | hmem
        · subst heq
          exact hnodup
        · exact ih.distinct record hmem
      · exact ih.bookkeeping.added hid
    · rw [hcall] at hrefused
      cases hrefused
  | @refused events tracker next tracked txCost err run hnodup hfits hcall ih =>
    rcases ih.accounts.tryAdd hnodup hfits with
      ⟨next', updated', hadd, _⟩ | ⟨next', err', hrefused, hlims, hblock, hcounts, hcosts⟩
    · rw [hcall] at hadd
      cases hadd
    · rw [hcall] at hrefused
      cases hrefused
      constructor
      · constructor
        · rw [hblock]
          exact ih.accounts.block
        · intro account
          rw [hcosts]
          exact ih.accounts.account account
        · rw [hcounts]
          exact ih.accounts.counter
      · exact hlims.trans ih.limits_eq
      · exact ih.range
      · exact ih.distinct
      · exact ih.bookkeeping.refused
  | removed run hperm ih =>
    have h := ih.perm hperm
    have hrange := h.range
    constructor
    · exact h.accounts.remove (h.distinct _ mem_cons_self) hrange
    · exact h.limits_eq
    · rw [blockSum_cons] at hrange
      omega
    · exact fun record hmem => h.distinct record (mem_cons_of_mem _ hmem)
    · exact h.bookkeeping.removed
  | @updated events tracker tracked rest id txCost executionUnits loadedCost run hperm hfits ih =>
    have h := ih.perm hperm
    have hdist := h.distinct _ mem_cons_self
    constructor
    · exact h.accounts.updateExecutionCost hdist h.range hfits
    · unfold CostTracker.updateExecutionCost
      dsimp only
      split
      · exact ih.limits_eq
      · split <;> exact ih.limits_eq
    · exact hfits
    · intro record hmem
      rcases mem_cons.mp hmem with heq | hmem
      · subst heq
        exact hdist
      · exact h.distinct record (mem_cons_of_mem _ hmem)
    · exact h.bookkeeping.updated

/-- Along every run the tracker is exact, a transaction is added within the limits or not at
all, and the costs do not depend on how the events interleave. -/
theorem cost_accounting_exact {limits : CostTrackerLimits} {events : List (Event Id Pubkey)}
    {tracker : CostTracker Pubkey} {tracked : List (Tracked Id Pubkey)}
    (run : Run limits events tracker tracked) :
    Accounts tracker tracked ∧
    (∀ txCost : TransactionCost Pubkey, txCost.writableAccounts.Nodup → Fits tracked txCost →
      (∀ next updated, tracker.tryAdd txCost = (next, .ok updated) →
        next.blockCost ≤ limits.blockCost ∧
        (∀ account ∈ txCost.writableAccounts,
          accountCost next.costByWritableAccounts account ≤ limits.accountCost) ∧
        next.counters .allocatedAccountsDataSize ≤ limits.allocatedDataSize) ∧
      (∀ next err, tracker.tryAdd txCost = (next, .error err) →
        next.blockCost = tracker.blockCost ∧ next.counters = tracker.counters ∧
        ∀ account, accountCost next.costByWritableAccounts account =
          accountCost tracker.costByWritableAccounts account)) ∧
    (∀ {events' : List (Event Id Pubkey)} {tracker' : CostTracker Pubkey}
      {tracked' : List (Tracked Id Pubkey)}, Run limits events' tracker' tracked' →
      (∀ id, events.filter (Event.concerns id) = events'.filter (Event.concerns id)) →
      tracker'.blockCost = tracker.blockCost ∧ tracker'.counters = tracker.counters ∧
        ∀ account, accountCost tracker'.costByWritableAccounts account =
          accountCost tracker.costByWritableAccounts account) := by
  have hinvariant := run.invariant
  refine ⟨hinvariant.accounts, ?_, ?_⟩
  · intro txCost hnodup hfits
    rcases hinvariant.accounts.tryAdd hnodup hfits with
      ⟨next, updated, hadded, _, _, hblock, haccounts, hallocated⟩ |
      ⟨next, err, hrefused, _, hblock, hcounters, haccounts⟩
    · rw [hinvariant.limits_eq] at hblock haccounts hallocated
      rw [hadded]
      constructor
      · intro next' updated' hcall
        cases hcall
        exact ⟨hblock, haccounts, hallocated⟩
      · intro next' err' hcall
        cases hcall
    · rw [hrefused]
      constructor
      · intro next' updated' hcall
        cases hcall
      · intro next' err' hcall
        cases hcall
        exact ⟨hblock, hcounters, haccounts⟩
  · intro events' tracker' tracked' run' hsame
    have hinvariant' := run'.invariant
    have hperm := hinvariant.bookkeeping.perm_of_filter_eq hinvariant'.bookkeeping hsame
    have haccounts := hinvariant.accounts.perm hperm
    refine ⟨?_, ?_, ?_⟩
    · rw [hinvariant'.accounts.block, haccounts.block]
    · funext counter
      rw [hinvariant'.accounts.counter, haccounts.counter]
    · intro account
      rw [hinvariant'.accounts.account, haccounts.account]

end Runs

def transferCost : TransactionCost ℕ where
  accountKeys := [1, 2, 3]
  isWritable := fun index => index < 2
  signatureCost := 720
  writeLockCost := 600
  dataBytesCost := 3
  programsExecutionCost := 450
  loadedAccountsDataSizeCost := 8
  allocatedAccountsDataSize := 0
  numTransactionSignatures := 1
  numSecp256k1InstructionSignatures := 0
  numEd25519InstructionSignatures := 0
  numSecp256r1InstructionSignatures := 0

def sharingCost : TransactionCost ℕ := { transferCost with accountKeys := [2, 4, 3] }

/-- Of two transactions which write one account, the first one turns out cheaper than estimated, and
the second one is removed. -/
theorem cost_accounting_exact_removed :
    ∃ tracker : CostTracker ℕ,
      Run ⟨10000, 20000, 100⟩
        [.added 0 transferCost, .added 1 sharingCost, .updated 0 150 4, .removed 1] tracker
        [⟨0, transferCost, some (150, 4)⟩] ∧
      tracker.blockCost = 1477 ∧ accountCost tracker.costByWritableAccounts 2 = 1477 ∧
      accountCost tracker.costByWritableAccounts 4 = 0 := by
  have hfits : Fits ([] : List (Tracked ℕ ℕ)) transferCost := by
    constructor
    · decide
    · intro counter
      cases counter <;> decide
  have hfits' : Fits [(⟨0, transferCost, none⟩ : Tracked ℕ ℕ)] sharingCost := by
    constructor
    · decide
    · intro counter
      cases counter <;> decide
  have hfirst : ((CostTracker.fresh ⟨10000, 20000, 100⟩).tryAdd transferCost).2 =
      .ok ⟨1781, 1781⟩ := by decide +kernel
  have hsecond : (((CostTracker.fresh ⟨10000, 20000, 100⟩).tryAdd transferCost).1.tryAdd
      sharingCost).2 = .ok ⟨3562, 3562⟩ := by decide +kernel
  have hfresh : Run ⟨10000, 20000, 100⟩ ([] : List (Event ℕ ℕ)) (.fresh ⟨10000, 20000, 100⟩) [] :=
    .fresh
  have hadded : Run ⟨10000, 20000, 100⟩ ([] ++ [.added 0 transferCost]) _
      [⟨0, transferCost, none⟩] :=
    hfresh.added (by simp) (by decide) hfits (Prod.ext rfl hfirst)
  have hboth : Run ⟨10000, 20000, 100⟩ ([.added 0 transferCost] ++ [.added 1 sharingCost]) _
      [⟨1, sharingCost, none⟩, ⟨0, transferCost, none⟩] :=
    hadded.added (by simp) (by decide) hfits' (Prod.ext rfl hsecond)
  have hupdated : Run ⟨10000, 20000, 100⟩
      ([.added 0 transferCost, .added 1 sharingCost] ++ [.updated 0 150 4]) _
      [⟨0, transferCost, some (150, 4)⟩, ⟨1, sharingCost, none⟩] :=
    hboth.updated (.swap _ _ _) (by decide)
  have hremoved : Run ⟨10000, 20000, 100⟩
      ([.added 0 transferCost, .added 1 sharingCost, .updated 0 150 4] ++ [.removed 1]) _
      [⟨0, transferCost, some (150, 4)⟩] := hupdated.removed (.swap _ _ _)
  obtain ⟨haccounts, _⟩ := cost_accounting_exact hremoved
  exact ⟨_, hremoved, haccounts.block, haccounts.account 2, haccounts.account 4⟩

end RakuraiValidator.CostModel
