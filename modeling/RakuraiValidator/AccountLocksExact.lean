import RakuraiValidator.AccountLockEntries
import RakuraiValidator.Traces

/-!
# The lock table holds exactly the outstanding locks

A run starts from the empty table, takes locks and releases some of the locks it holds, in
any order.  The entries represent the locks held at each point of the run, so the threads
offered to the selector are those without a conflict.
-/

namespace RakuraiValidator.Scheduling

open AccountLocks Finset

variable {Pubkey : Type} [DecidableEq Pubkey]

def Tracks (self : ThreadAwareAccountLocks Pubkey) (writes reads : Pubkey → ℕ → ℕ) : Prop :=
  ∀ account, Represents (self.locks account) (writes account) (reads account)

def Free (writes reads : Pubkey → ℕ → ℕ) (writeAccounts readAccounts : List Pubkey) (t : ℕ) :
    Prop :=
  (∀ account ∈ writeAccounts, ∀ u, u ≠ t → writes account u = 0 ∧ reads account u = 0) ∧
    ∀ account ∈ readAccounts, ∀ u, u ≠ t → writes account u = 0

/-- An operation succeeds and keeps the number of threads. -/
abbrev Becomes (self : ThreadAwareAccountLocks Pubkey)
    (result : Except LockPanic (ThreadAwareAccountLocks Pubkey))
    (P : ThreadAwareAccountLocks Pubkey → Prop) : Prop :=
  ∃ self', result = .ok self' ∧ self'.numThreads = self.numThreads ∧ P self'

variable (accounts : List Pubkey) {writeAccounts : List Pubkey} {readAccounts : List Pubkey}

namespace Tracks

variable {self : ThreadAwareAccountLocks Pubkey} {writes reads : Pubkey → ℕ → ℕ} {t : ℕ}
  {account : Pubkey}

section

variable (h : Tracks self writes reads)

include h

theorem modifyEntry {operation : Option AccountLocks → Except LockPanic (Option AccountLocks)}
    {writes' reads' : Pubkey → ℕ → ℕ}
    (hop : ∃ entry, operation (self.locks account) = .ok entry ∧
      Represents entry (writes' account) (reads' account))
    (hother : ∀ other, other ≠ account → writes' other = writes other ∧
      reads' other = reads other) :
    Becomes self (self.modifyEntry account operation) (Tracks · writes' reads') := by
  obtain ⟨entry, hentry, hrepr⟩ := hop
  constructor
  constructor
  · simp only [ThreadAwareAccountLocks.modifyEntry, hentry]
    rfl
  · constructor
    · rfl
    · intro other
      by_cases ho : other = account
      · subst ho
        simpa using hrepr
      · obtain ⟨hw, hr⟩ := hother other ho
        simpa [Function.update_of_ne ho, hw, hr] using h other

theorem writeLockAccount (hfree : ∀ u, u ≠ t → writes account u = 0 ∧ reads account u = 0) :
    Becomes self (ThreadAwareAccountLocks.writeLockAccount t self account)
      (Tracks · (addLocks writes t [account]) reads) := by
  apply h.modifyEntry
  · rw [addLocks_singleton_same]
    exact (h account).writeLock hfree
  · intro other ho
    rw [addLocks_cons_of_ne writes t [] ho, addLocks_nil]
    exact ⟨rfl, rfl⟩

theorem readLockAccount (hfree : ∀ u, u ≠ t → writes account u = 0) :
    Becomes self (ThreadAwareAccountLocks.readLockAccount t self account)
      (Tracks · writes (addLocks reads t [account])) := by
  apply h.modifyEntry
  · rw [addLocks_singleton_same]
    exact (h account).readLock hfree
  · intro other ho
    rw [addLocks_cons_of_ne reads t [] ho, addLocks_nil]
    exact ⟨rfl, rfl⟩

end

theorem writeUnlockAccount {accounts : List Pubkey}
    (h : Tracks self (addLocks writes t (account :: accounts)) reads)
    (hrange : addLocks writes t (account :: accounts) account t < 2 ^ 32) :
    Becomes self (ThreadAwareAccountLocks.writeUnlockAccount t self account)
      (Tracks · (addLocks writes t accounts) reads) := by
  apply h.modifyEntry
  · have hrepr := h account
    rw [addLocks_cons_same] at hrepr hrange
    rw [bump_same] at hrange
    exact hrepr.writeUnlock hrange
  · intro other ho
    rw [addLocks_cons_of_ne writes t accounts ho]
    exact ⟨rfl, rfl⟩

theorem readUnlockAccount {accounts : List Pubkey}
    (h : Tracks self writes (addLocks reads t (account :: accounts)))
    (hrange : addLocks reads t (account :: accounts) account t < 2 ^ 32) :
    Becomes self (ThreadAwareAccountLocks.readUnlockAccount t self account)
      (Tracks · writes (addLocks reads t accounts)) := by
  apply h.modifyEntry
  · have hrepr := h account
    rw [addLocks_cons_same] at hrepr hrange
    rw [bump_same] at hrange
    exact hrepr.readUnlock hrange
  · intro other ho
    rw [addLocks_cons_of_ne reads t accounts ho]
    exact ⟨rfl, rfl⟩

section Loops

variable {locks : Pubkey → ℕ → ℕ}
  {operation : ThreadAwareAccountLocks Pubkey → Pubkey →
    Except LockPanic (ThreadAwareAccountLocks Pubkey)}
  {P : ThreadAwareAccountLocks Pubkey → (Pubkey → ℕ → ℕ) → Prop}

/-- The loop over the accounts to lock.  The locks tracked so far and those still to be taken add up
to the same locks. -/
theorem lockEach
    (hstep : ∀ state held account, account ∈ accounts → P state held → (∀ u, u ≠ t →
      held account u = locks account u) →
      Becomes state (operation state account) (P · (addLocks held t [account])))
    (h : P self locks) :
    Becomes self (accounts.foldlM operation self) (P · (addLocks locks t accounts)) := by
  have hrun := Traces.foldlM_ok_of_step operation
    (fun left state => state.numThreads = self.numThreads ∧ left ⊆ accounts ∧ ∃ held,
      addLocks held t left = addLocks locks t accounts ∧ P state held ∧
      ∀ account u, u ≠ t → held account u = locks account u)
    ?_ accounts ⟨rfl, List.Subset.refl _, locks, rfl, h, fun _ _ _ => rfl⟩
  · obtain ⟨last, hlast, hthreads, _, held, hsum, hheld, _⟩ := hrun
    rw [addLocks_nil] at hsum
    subst hsum
    exact ⟨last, hlast, hthreads, hheld⟩
  · intro account left state ⟨hthreads, hsubset, held, hsum, hheld, hsame⟩
    obtain ⟨hmem, hleft⟩ := List.cons_subset.mp hsubset
    obtain ⟨next, hnext, hnumThreads, hkeep⟩ := hstep state held account hmem hheld (hsame account)
    refine ⟨next, hnext, hnumThreads.trans hthreads, hleft, addLocks held t [account], ?_, hkeep, ?_⟩
    · rw [addLocks_cons, hsum]
    · intro other u hu
      rw [addLocks_of_ne held [account] other hu]
      exact hsame other u hu

theorem unlockEach
    (hstep : ∀ state account left, P state (addLocks locks t (account :: left)) →
      addLocks locks t (account :: left) account t < 2 ^ 32 →
      Becomes state (operation state account) (P · (addLocks locks t left)))
    (h : P self (addLocks locks t accounts))
    (hrange : ∀ account, addLocks locks t accounts account t < 2 ^ 32) :
    Becomes self (accounts.foldlM operation self) (P · locks) := by
  have hrun := Traces.foldlM_ok_of_step operation
    (fun left state => state.numThreads = self.numThreads ∧ P state (addLocks locks t left) ∧
      ∀ account, addLocks locks t left account t < 2 ^ 32) ?_ accounts ⟨rfl, h, hrange⟩
  · obtain ⟨last, hlast, hthreads, hlocks, _⟩ := hrun
    rw [addLocks_nil] at hlocks
    exact ⟨last, hlast, hthreads, hlocks⟩
  · intro account left state ⟨hthreads, hlocks, hleft⟩
    obtain ⟨next, hnext, hsame, hkeep⟩ := hstep state account left hlocks (hleft account)
    refine ⟨next, hnext, hsame.trans hthreads, hkeep, fun other => lt_of_le_of_lt ?_ (hleft other)⟩
    simp only [addLocks, if_true]
    exact Nat.add_le_add_left List.count_le_count_cons _

end Loops

variable (h : Tracks self writes reads)

include h in
theorem lockAccounts (ht : t < self.numThreads)
    (hfree : Free writes reads writeAccounts readAccounts t) :
    Becomes self (self.lockAccounts writeAccounts readAccounts t)
      (Tracks · (addLocks writes t writeAccounts) (addLocks reads t readAccounts)) := by
  obtain ⟨self₁, hwrite, hthreads₁, htracks₁⟩ :=
    lockEach (P := fun state held => Tracks state held reads) writeAccounts
      (fun _ _ account hmem htracks hsame => htracks.writeLockAccount fun u hu =>
        hsame u hu ▸ hfree.1 account hmem u hu) h
  have hread : ∀ account ∈ readAccounts, ∀ u, u ≠ t →
      addLocks writes t writeAccounts account u = 0 := by
    intro account hacct u hu
    rw [addLocks_of_ne writes writeAccounts account hu]
    exact hfree.2 account hacct u hu
  obtain ⟨self₂, hread, hthreads₂, htracks₂⟩ :=
    lockEach (P := fun state held => Tracks state (addLocks writes t writeAccounts) held)
      readAccounts
      (fun _ _ account hmem htracks _ => htracks.readLockAccount (hread account hmem)) htracks₁
  refine ⟨self₂, ?_, hthreads₂.trans hthreads₁, htracks₂⟩
  simp only [ThreadAwareAccountLocks.lockAccounts, Nat.not_le.mpr ht, if_false, hwrite]
  exact hread

theorem unlockAccounts
    (h : Tracks self (addLocks writes t writeAccounts) (addLocks reads t readAccounts))
    (hwrites : ∀ account, addLocks writes t writeAccounts account t < 2 ^ 32)
    (hreads : ∀ account, addLocks reads t readAccounts account t < 2 ^ 32) :
    Becomes self (self.unlockAccounts writeAccounts readAccounts t) (Tracks · writes reads) := by
  obtain ⟨self₁, hwrite, hthreads₁, htracks₁⟩ :=
    unlockEach (P := fun state held => Tracks state held (addLocks reads t readAccounts))
      writeAccounts (fun _ _ _ htracks hlast => htracks.writeUnlockAccount hlast) h hwrites
  obtain ⟨self₂, hread, hthreads₂, htracks₂⟩ :=
    unlockEach (P := fun state held => Tracks state writes held) readAccounts
      (fun _ _ _ htracks hlast => htracks.readUnlockAccount hlast) htracks₁ hreads
  refine ⟨self₂, ?_, hthreads₂.trans hthreads₁, htracks₂⟩
  simp only [ThreadAwareAccountLocks.unlockAccounts, hwrite]
  exact hread

omit [DecidableEq Pubkey] in
include h in
theorem intersectThreads (write : Bool) (accounts : List Pubkey)
    {threads : ThreadSet} (hne : threads.Nonempty) (hsub : ∀ t ∈ threads, t < self.numThreads) :
    ∃ left : ThreadSet, (∀ t, t ∈ left ↔ t ∈ threads ∧ ∀ account ∈ accounts, ∀ u, u ≠ t →
        writes account u = 0 ∧ (write = true → reads account u = 0)) ∧
      self.intersectThreads write accounts threads =
        .ok (if left = ∅ then none else some left) := by
  induction accounts generalizing threads with
  | nil =>
    refine ⟨threads, by simp, ?_⟩
    rw [if_neg hne.ne_empty]
    rfl
  | cons account accounts ih =>
    obtain ⟨schedulable, hschedulable, hmem⟩ :=
      (h account).schedulableThreads self.numThreads write
    have hinter : ∀ t, t ∈ threads ∩ schedulable ↔ t ∈ threads ∧ ∀ u, u ≠ t →
        writes account u = 0 ∧ (write = true → reads account u = 0) := by
      intro t
      rw [mem_inter]
      exact and_congr_right fun ht => hmem t (hsub t ht)
    simp only [ThreadAwareAccountLocks.intersectThreads, hschedulable]
    by_cases hempty : threads ∩ schedulable = ∅
    · refine ⟨∅, ?_, by simp [hempty]⟩
      intro t
      have hnot := hinter t
      rw [hempty] at hnot
      simp only [notMem_empty, false_iff, List.mem_cons, forall_eq_or_imp] at hnot ⊢
      exact fun hall => hnot ⟨hall.1, hall.2.1⟩
    · rw [if_neg hempty]
      obtain ⟨left, hleft, hres⟩ := ih (nonempty_iff_ne_empty.mpr hempty)
        (fun t ht => hsub t (mem_inter.mp ht).1)
      refine ⟨left, ?_, hres⟩
      intro t
      rw [hleft, hinter, List.forall_mem_cons, and_assoc]

omit [DecidableEq Pubkey] in
include h in
theorem accountsSchedulableThreads
    (writeAccounts readAccounts : List Pubkey) :
    ∃ left : ThreadSet, (∀ t, t ∈ left ↔ t < self.numThreads ∧
        Free writes reads writeAccounts readAccounts t) ∧
      self.accountsSchedulableThreads writeAccounts readAccounts =
        .ok (if left = ∅ then none else some left) := by
  have hany : (ThreadSet.any self.numThreads).Nonempty :=
    nonempty_range_iff.mpr self.numThreads_pos.ne'
  obtain ⟨left₁, hleft₁, hres₁⟩ := h.intersectThreads true writeAccounts hany
    (fun t ht => mem_range.mp ht)
  simp only [ThreadAwareAccountLocks.accountsSchedulableThreads, hres₁]
  by_cases hempty : left₁ = ∅
  · refine ⟨∅, ?_, by simp [hempty]⟩
    intro t
    have hnot := hleft₁ t
    rw [hempty] at hnot
    simp only [notMem_empty, ThreadSet.any, mem_range, false_iff, true_implies] at hnot ⊢
    exact fun hall => hnot ⟨hall.1, hall.2.1⟩
  · rw [if_neg hempty]
    obtain ⟨left₂, hleft₂, hres₂⟩ := h.intersectThreads false readAccounts
      (nonempty_iff_ne_empty.mpr hempty)
      (fun t ht => mem_range.mp ((hleft₁ t).mp ht).1)
    refine ⟨left₂, ?_, hres₂⟩
    intro t
    rw [hleft₂, hleft₁]
    simp [Free, ThreadSet.any, and_assoc]

include h in
theorem tryLockAccounts (writeAccounts readAccounts : List Pubkey)
    (allowed : ThreadSet) {selector : ThreadSet → ℕ}
    (hsel : ∀ threads : ThreadSet, threads.Nonempty → selector threads ∈ threads) :
    (∃ t self', t < self.numThreads ∧ t ∈ allowed ∧ Free writes reads writeAccounts readAccounts t ∧
      self.tryLockAccounts writeAccounts readAccounts allowed selector = .ok (self', .ok t) ∧
      self'.numThreads = self.numThreads ∧
      Tracks self' (addLocks writes t writeAccounts) (addLocks reads t readAccounts)) ∨
    (∃ err, (¬ ∃ t, t < self.numThreads ∧ t ∈ allowed ∧
        Free writes reads writeAccounts readAccounts t) ∧
      self.tryLockAccounts writeAccounts readAccounts allowed selector =
        .ok (self, .error err)) := by
  obtain ⟨left, hleft, hres⟩ := h.accountsSchedulableThreads writeAccounts readAccounts
  simp only [ThreadAwareAccountLocks.tryLockAccounts, hres]
  by_cases hempty : left = ∅
  · right
    refine ⟨.multipleConflicts, ?_, by simp [hempty]⟩
    intro ⟨t, ht, _, hfree⟩
    have := (hleft t).mpr ⟨ht, hfree⟩
    simp [hempty] at this
  · rw [if_neg hempty]
    by_cases hallow : left ∩ allowed = ∅
    · right
      refine ⟨.threadNotAllowed, ?_, by simp [hallow]⟩
      intro ⟨t, ht, hmem, hfree⟩
      have := mem_inter.mpr ⟨(hleft t).mpr ⟨ht, hfree⟩, hmem⟩
      simp [hallow] at this
    · left
      have hmem := hsel (left ∩ allowed) (nonempty_iff_ne_empty.mpr hallow)
      rw [mem_inter] at hmem
      obtain ⟨ht, hfree⟩ := (hleft _).mp hmem.1
      obtain ⟨self', hlock, hthreads, htracks⟩ := h.lockAccounts ht hfree
      refine ⟨selector (left ∩ allowed), self', ht, hmem.2, hfree, ?_, hthreads, htracks⟩
      simp only [hallow, if_false, hlock]

end Tracks

def PicksMember (selector : ThreadSet → ℕ) : Prop :=
  ∀ threads : ThreadSet, threads.Nonempty → selector threads ∈ threads

def FewLocks (held : List (HeldLocks Pubkey)) : Prop :=
  ∀ account t, writesHeld held account t < 2 ^ 32 ∧ readsHeld held account t < 2 ^ 32

inductive Reachable : ThreadAwareAccountLocks Pubkey → List (HeldLocks Pubkey) → Prop
  | new (numThreads : ℕ) (hpos : 0 < numThreads) (hle : numThreads ≤ maxThreads) :
      Reachable (.new numThreads hpos hle) []
  | locked {state next : ThreadAwareAccountLocks Pubkey} {held : List (HeldLocks Pubkey)}
      {writeAccounts readAccounts : List Pubkey} {allowed : ThreadSet}
      {selector : ThreadSet → ℕ} {t : ℕ} (run : Reachable state held)
      (hselector : PicksMember selector)
      (hcall : state.tryLockAccounts writeAccounts readAccounts allowed selector =
        .ok (next, .ok t))
      (hfew : FewLocks (⟨t, writeAccounts, readAccounts⟩ :: held)) :
      Reachable next (⟨t, writeAccounts, readAccounts⟩ :: held)
  | refused {state next : ThreadAwareAccountLocks Pubkey} {held : List (HeldLocks Pubkey)}
      {writeAccounts readAccounts : List Pubkey} {allowed : ThreadSet}
      {selector : ThreadSet → ℕ} {err : TryLockError} (run : Reachable state held)
      (hselector : PicksMember selector)
      (hcall : state.tryLockAccounts writeAccounts readAccounts allowed selector =
        .ok (next, .error err)) :
      Reachable next held
  | unlocked {state next : ThreadAwareAccountLocks Pubkey} {held : List (HeldLocks Pubkey)}
      {record : HeldLocks Pubkey} {writeAccounts readAccounts : List Pubkey}
      (run : Reachable state held) (hmem : record ∈ held)
      (hwrites : writeAccounts.Perm record.writes) (hreads : readAccounts.Perm record.reads)
      (hcall : state.unlockAccounts writeAccounts readAccounts record.threadId = .ok next) :
      Reachable next (held.erase record)

/-- The table tracks the held locks, all of which are in range. -/
structure HoldsLocks (state : ThreadAwareAccountLocks Pubkey) (held : List (HeldLocks Pubkey)) :
    Prop where
  tracks : Tracks state (writesHeld held) (readsHeld held)
  few : FewLocks held

namespace HoldsLocks

variable {state : ThreadAwareAccountLocks Pubkey} {held : List (HeldLocks Pubkey)}

theorem unlockAccounts (h : HoldsLocks state held) {record : HeldLocks Pubkey}
    (hmem : record ∈ held) (hwrites : writeAccounts.Perm record.writes)
    (hreads : readAccounts.Perm record.reads) :
    ∃ next, state.unlockAccounts writeAccounts readAccounts record.threadId = .ok next ∧
      HoldsLocks next (held.erase record) := by
  have hperm := List.perm_cons_erase hmem
  have hw : writesHeld held =
      addLocks (writesHeld (held.erase record)) record.threadId writeAccounts := by
    rw [writesHeld_perm hperm, writesHeld_cons, addLocks_perm _ _ hwrites]
  have hr : readsHeld held =
      addLocks (readsHeld (held.erase record)) record.threadId readAccounts := by
    rw [readsHeld_perm hperm, readsHeld_cons, addLocks_perm _ _ hreads]
  have htracks := h.tracks
  have hfew := h.few
  unfold FewLocks at hfew
  rw [hw, hr] at htracks hfew
  obtain ⟨next, hnext, _, hkeep⟩ := Tracks.unlockAccounts htracks
    (fun account => (hfew account _).1) (fun account => (hfew account _).2)
  refine ⟨next, hnext, hkeep, ?_⟩
  intro account t
  obtain ⟨hwrite, hread⟩ := hfew account t
  constructor
  · exact (Nat.le_add_right _ _).trans_lt hwrite
  · exact (Nat.le_add_right _ _).trans_lt hread

end HoldsLocks

theorem Reachable.holdsLocks {state : ThreadAwareAccountLocks Pubkey}
    {held : List (HeldLocks Pubkey)} (h : Reachable state held) : HoldsLocks state held := by
  induction h with
  | new numThreads hpos hle =>
    constructor
    · exact fun _ => Represents.empty
    · intro account t
      simp [writesHeld, readsHeld]
  | locked run hsel hcall hfew ih =>
    rcases ih.tracks.tryLockAccounts _ _ _ hsel with
      ⟨u, next', _, _, _, hgrant, _, htracks⟩ | ⟨err, _, hrefused⟩
    · rw [hcall] at hgrant
      cases hgrant
      constructor
      · rwa [writesHeld_cons, readsHeld_cons]
      · exact hfew
    · rw [hcall] at hrefused
      cases hrefused
  | refused run hsel hcall ih =>
    rcases ih.tracks.tryLockAccounts _ _ _ hsel with
      ⟨u, next', _, _, _, hgrant, _, _⟩ | ⟨err, _, hrefused⟩
    · rw [hcall] at hgrant
      cases hgrant
    · rw [hcall] at hrefused
      cases hrefused
      exact ih
  | unlocked run hmem hwrites hreads hcall ih =>
    obtain ⟨next', hnext, hkeep⟩ := ih.unlockAccounts hmem hwrites hreads
    rw [hcall] at hnext
    cases hnext
    exact hkeep

structure StoresExactly (entry : Option AccountLocks) (writes reads : ℕ → ℕ) : Prop where
  present : entry.isSome ↔ ∃ t, 0 < writes t + reads t
  write : ∀ t lockCount, entry.bind writeLocks = some ⟨t, lockCount⟩ ↔
    0 < writes t ∧ lockCount = writes t
  read_none : entry.bind readLocks = none ↔ ∀ t, reads t = 0
  read_some : ∀ r, entry.bind readLocks = some r →
    ∀ t, (t ∈ r.threadSet ↔ 0 < reads t) ∧ r.lockCounts t = reads t

theorem Represents.storesExactly {entry : Option AccountLocks} {writes reads : ℕ → ℕ}
    (h : Represents entry writes reads) (hfew : ∀ t, writes t < 2 ^ 32 ∧ reads t < 2 ^ 32) :
    StoresExactly entry writes reads := by
  constructor
  · constructor
    · intro hsome
      by_contra hnone
      simp only [not_exists, Nat.not_lt, Nat.le_zero_eq, Nat.add_eq_zero_iff] at hnone
      rw [h.eq_none (fun t => (hnone t).1) (fun t => (hnone t).2)] at hsome
      cases hsome
    · intro ⟨t, ht⟩
      by_contra hnone
      rw [Option.not_isSome_iff_eq_none] at hnone
      subst hnone
      have hw := h.write.none rfl t
      have hr := h.read.none rfl t
      omega
  · intro t lockCount
    constructor
    · intro hstor
      obtain ⟨hpos, hcount⟩ := h.write.some _ hstor
      refine ⟨hpos, ?_⟩
      rw [Nat.mod_eq_of_lt (hfew t).1] at hcount
      exact hcount
    · intro ⟨hpos, hcount⟩
      cases hstor : entry.bind writeLocks with
      | none =>
        have := h.write.none hstor t
        omega
      | some w =>
        obtain ⟨_, hw⟩ := h.write.some w hstor
        have hid : w.threadId = t :=
          h.write.threadId_eq hstor (fun u hu => (h.exclusive t u hpos hu).1)
        rw [hid, Nat.mod_eq_of_lt (hfew t).1] at hw
        cases w
        simp_all
  · constructor
    · exact h.read.none
    · intro hzero
      by_contra hsome
      obtain ⟨r, hr⟩ := Option.ne_none_iff_exists'.mp hsome
      obtain ⟨⟨u, hu⟩, hmem⟩ := h.read.some r hr
      have := (hmem u).1.mp hu
      simp [hzero] at this
  · intro r hr t
    obtain ⟨_, hmem⟩ := h.read.some r hr
    constructor
    · exact (hmem t).1
    · rw [(hmem t).2, Nat.mod_eq_of_lt (hfew t).2]

/-- Along every run the table is exact, requests are decided by the conflicts and no call
panics. -/
theorem account_locks_exact {state : ThreadAwareAccountLocks Pubkey}
    {held : List (HeldLocks Pubkey)} (h : Reachable state held) :
    (∀ account t u, 0 < writesHeld held account t → u ≠ t →
      writesHeld held account u = 0 ∧ readsHeld held account u = 0) ∧
    (∀ account, StoresExactly (state.locks account) (writesHeld held account)
      (readsHeld held account)) ∧
    (∀ writeAccounts readAccounts allowed selector, PicksMember selector →
      ∃ next result,
        state.tryLockAccounts writeAccounts readAccounts allowed selector = .ok (next, result) ∧
        ((∃ t, result = .ok t) ↔ ∃ t, t < state.numThreads ∧ t ∈ allowed ∧
          Free (writesHeld held) (readsHeld held) writeAccounts readAccounts t) ∧
        (∀ t, result = .ok t → t < state.numThreads ∧ t ∈ allowed ∧
          Free (writesHeld held) (readsHeld held) writeAccounts readAccounts t) ∧
        (∀ err, result = .error err → next = state)) ∧
    (∀ record ∈ held, ∀ writeAccounts readAccounts, writeAccounts.Perm record.writes →
      readAccounts.Perm record.reads →
      ∃ next, state.unlockAccounts writeAccounts readAccounts record.threadId = .ok next) ∧
    (held = [] → ∀ account, state.locks account = none) := by
  have hholds := h.holdsLocks
  refine ⟨?_, ?_, ?_, ?_, ?_⟩
  · exact fun account => (hholds.tracks account).exclusive
  · exact fun account => (hholds.tracks account).storesExactly (hholds.few account)
  · intro writeAccounts readAccounts allowed selector hselector
    rcases hholds.tracks.tryLockAccounts writeAccounts readAccounts allowed hselector with
      ⟨t, next, ht, hallowed, hfree, hcall, _, _⟩ | ⟨err, hnone, hcall⟩
    · refine ⟨next, .ok t, hcall, ?_, ?_, ?_⟩
      · exact ⟨fun _ => ⟨t, ht, hallowed, hfree⟩, fun _ => ⟨t, rfl⟩⟩
      · intro u hu
        cases hu
        exact ⟨ht, hallowed, hfree⟩
      · intro err herr
        cases herr
    · refine ⟨state, .error err, hcall, ?_, ?_, fun _ _ => rfl⟩
      · constructor
        · intro ⟨t, ht⟩
          cases ht
        · exact fun hsome => absurd hsome hnone
      · intro t ht
        cases ht
  · intro record hmem writeAccounts readAccounts hwrites hreads
    obtain ⟨next, hnext, _⟩ := hholds.unlockAccounts hmem hwrites hreads
    exact ⟨next, hnext⟩
  · intro hnil account
    subst hnil
    exact (hholds.tracks account).eq_none (by simp [writesHeld]) (by simp [readsHeld])

theorem FewLocks.tail {record : HeldLocks Pubkey} {held : List (HeldLocks Pubkey)}
    (h : FewLocks (record :: held)) : FewLocks held := by
  intro account t
  have hboth := h account t
  simp only [writesHeld, readsHeld, List.map_cons, List.sum_cons] at hboth ⊢
  omega

theorem fewLocks_shared : FewLocks [⟨1, [], [7]⟩, ⟨1, [7], [8]⟩] := by
  intro account t
  simp only [writesHeld, readsHeld, List.map_cons, List.map_nil, List.sum_cons, List.sum_nil,
    List.count_cons, List.count_nil]
  split_ifs <;> norm_num

def lastThread (threads : ThreadSet) : ℕ := threads.sup id

theorem picksMember_lastThread : PicksMember lastThread := by
  intro threads hne
  obtain ⟨t, ht, heq⟩ := exists_mem_eq_sup threads hne id
  rw [lastThread, heq]
  exact ht

/-- The second transaction reads what the first one writes and is queued on the same thread. -/
theorem exists_reachable_shared : ∃ state : ThreadAwareAccountLocks ℕ,
    Reachable state [⟨1, [], [7]⟩, ⟨1, [7], [8]⟩] := by
  have hnew : Reachable (ThreadAwareAccountLocks.new 2 (by decide) (by decide) :
      ThreadAwareAccountLocks ℕ) [] := .new 2 (by decide) (by decide)
  have hfirst := Reachable.locked hnew picksMember_lastThread
    (rfl : ThreadAwareAccountLocks.tryLockAccounts _ [7] [8] {0, 1} lastThread = .ok (_, .ok 1))
    fewLocks_shared.tail
  have hsecond := Reachable.locked hfirst picksMember_lastThread
    (rfl : ThreadAwareAccountLocks.tryLockAccounts _ [] [7] {0, 1} lastThread = .ok (_, .ok 1))
    fewLocks_shared
  exact ⟨_, hsecond⟩

theorem account_locks_exact_shared :
    ∃ (state : ThreadAwareAccountLocks ℕ) (held : List (HeldLocks ℕ)),
      held = [⟨1, [], [7]⟩, ⟨1, [7], [8]⟩] ∧ Reachable state held ∧
      StoresExactly (state.locks 7) (writesHeld held 7) (readsHeld held 7) := by
  obtain ⟨state, hstate⟩ := exists_reachable_shared
  exact ⟨state, _, rfl, hstate, (account_locks_exact hstate).2.1 7⟩

/-- An entry has no state beside the locks it stands for. -/
theorem StoresExactly.eq {entry entry' : Option AccountLocks} {writes reads : ℕ → ℕ}
    (h : StoresExactly entry writes reads) (h' : StoresExactly entry' writes reads) :
    entry = entry' := by
  have hwrite : entry.bind writeLocks = entry'.bind writeLocks := by
    ext ⟨t, lockCount⟩
    exact (h.write t lockCount).trans (h'.write t lockCount).symm
  have hread : entry.bind readLocks = entry'.bind readLocks := by
    have hnone := h.read_none.trans h'.read_none.symm
    cases hr : entry.bind readLocks with
    | none => exact (hnone.mp hr).symm
    | some r =>
      obtain ⟨r', hr'⟩ := Option.ne_none_iff_exists'.mp (mt hnone.mpr (by simp [hr]))
      obtain ⟨threads, counts⟩ := r
      obtain ⟨threads', counts'⟩ := r'
      rw [hr', Option.some_inj, AccountReadLocks.mk.injEq]
      constructor
      · ext t
        exact (h.read_some _ hr t).1.trans (h'.read_some _ hr' t).1.symm
      · funext t
        exact (h.read_some _ hr t).2.trans (h'.read_some _ hr' t).2.symm
  have hpresent := h.present.trans h'.present.symm
  rcases entry with _ | ⟨w, r⟩ <;> rcases entry' with _ | ⟨w', r'⟩ <;> simp_all

/-- The table depends on the locks held, but not on the calls that led to them. -/
theorem lock_table_determined {state state' : ThreadAwareAccountLocks Pubkey}
    {held held' : List (HeldLocks Pubkey)} (h : Reachable state held) (h' : Reachable state' held')
    (hperm : held.Perm held') : state.locks = state'.locks := by
  have hholds := h.holdsLocks
  have hholds' := h'.holdsLocks
  funext account
  have hexact := (hholds.tracks account).storesExactly (hholds.few account)
  rw [writesHeld_perm hperm, readsHeld_perm hperm] at hexact
  exact hexact.eq ((hholds'.tracks account).storesExactly (hholds'.few account))

/-- Two transactions over one account are locked in both orders. -/
theorem lock_table_determined_reordered :
    ∃ state state' : ThreadAwareAccountLocks ℕ, Reachable state [⟨1, [], [7]⟩, ⟨1, [7], [8]⟩] ∧
      Reachable state' [⟨1, [7], [8]⟩, ⟨1, [], [7]⟩] ∧ state.locks = state'.locks := by
  have hswap : [⟨1, [], [7]⟩, ⟨1, [7], [8]⟩].Perm [(⟨1, [7], [8]⟩ : HeldLocks ℕ), ⟨1, [], [7]⟩] :=
    .swap _ _ _
  have hfew : FewLocks [(⟨1, [7], [8]⟩ : HeldLocks ℕ), ⟨1, [], [7]⟩] := by
    intro account t
    rw [← writesHeld_perm hswap, ← readsHeld_perm hswap]
    exact fewLocks_shared account t
  have hnew : Reachable (ThreadAwareAccountLocks.new 2 (by decide) (by decide) :
      ThreadAwareAccountLocks ℕ) [] := .new 2 (by decide) (by decide)
  have hreader := Reachable.locked hnew picksMember_lastThread
    (rfl : ThreadAwareAccountLocks.tryLockAccounts _ [] [7] {0, 1} lastThread = .ok (_, .ok 1))
    hfew.tail
  have hreordered := Reachable.locked hreader picksMember_lastThread
    (rfl : ThreadAwareAccountLocks.tryLockAccounts _ [7] [8] {0, 1} lastThread = .ok (_, .ok 1))
    hfew
  obtain ⟨state, hstate⟩ := exists_reachable_shared
  exact ⟨state, _, hstate, hreordered, lock_table_determined hstate hreordered hswap⟩

end RakuraiValidator.Scheduling
