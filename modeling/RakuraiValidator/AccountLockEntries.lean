import RakuraiValidator.ThreadAwareAccountLocks

/-!
# Entries of the lock table

An entry represents the numbers of write and read locks which each thread holds on the
account.  Counters wrap, so they are compared modulo their range; the range only matters
when a lock is released.
-/

namespace RakuraiValidator.Scheduling

open Finset ThreadSet Nat

theorem ThreadSet.onlyOneContained_eq_some {threads : ThreadSet} {t : ℕ} :
    threads.onlyOneContained = some t ↔ threads = {t} := by
  unfold onlyOneContained
  constructor
  · intro h
    split at h
    · rename_i hcard
      obtain ⟨u, hu⟩ := card_eq_one.mp hcard
      subst hu
      simpa using h
    · cases h
  · intro h
    subst h
    simp

variable (n : ℕ)

theorem wrappingIncrement_mod : wrappingIncrement (n % 2 ^ 32) = (n + 1) % 2 ^ 32 := by
  unfold wrappingIncrement
  omega

theorem wrappingDecrement_mod : wrappingDecrement ((n + 1) % 2 ^ 32) = n % 2 ^ 32 := by
  unfold wrappingDecrement
  omega

variable (locks : ℕ → ℕ)

def bump (t : ℕ) : ℕ → ℕ := fun u => if u = t then locks u + 1 else locks u

attribute [local simp] bump

@[simp]
theorem bump_same (t : ℕ) : bump locks t t = locks t + 1 := by
  simp

theorem bump_of_ne {t u : ℕ} (h : u ≠ t) : bump locks t u = locks u := by
  simp [h]

structure RepresentsWrite (stored : Option AccountWriteLocks) (writes : ℕ → ℕ) : Prop where
  none : stored = none → ∀ t, writes t = 0
  some : ∀ w, stored = some w → 0 < writes w.threadId ∧ w.lockCount = writes w.threadId % 2 ^ 32

structure RepresentsRead (stored : Option AccountReadLocks) (reads : ℕ → ℕ) : Prop where
  none : stored = none → ∀ t, reads t = 0
  some : ∀ r, stored = some r → r.threadSet.Nonempty ∧
    ∀ t, (t ∈ r.threadSet ↔ 0 < reads t) ∧ r.lockCounts t = reads t % 2 ^ 32

variable {writes : ℕ → ℕ} {t : ℕ}

namespace RepresentsWrite

variable {stored : Option AccountWriteLocks}

theorem of_zero (h : ∀ u, writes u = 0) : RepresentsWrite Option.none writes :=
  ⟨fun _ => h, nofun⟩

theorem of_count {count : ℕ} (hpos : 0 < writes t) (hcount : count = writes t % 2 ^ 32) :
    RepresentsWrite (Option.some ⟨t, count⟩) writes := by
  refine ⟨nofun, fun w hw => ?_⟩
  cases hw
  exact ⟨hpos, hcount⟩

theorem threadId_eq (h : RepresentsWrite stored writes) {w : AccountWriteLocks}
    (hw : stored = Option.some w) (hother : ∀ u, u ≠ t → writes u = 0) : w.threadId = t := by
  by_contra hne
  have := (h.some w hw).1
  simp [hother _ hne] at this

end RepresentsWrite

variable {reads : ℕ → ℕ}

namespace RepresentsRead

variable {stored : Option AccountReadLocks}

theorem of_zero (h : ∀ u, reads u = 0) : RepresentsRead Option.none reads :=
  ⟨fun _ => h, nofun⟩

theorem of_counts {threadSet : ThreadSet} {lockCounts : ℕ → ℕ} (hne : threadSet.Nonempty)
    (h : ∀ u, (u ∈ threadSet ↔ 0 < reads u) ∧ lockCounts u = reads u % 2 ^ 32) :
    RepresentsRead (Option.some ⟨threadSet, lockCounts⟩) reads := by
  refine ⟨nofun, fun r hr => ?_⟩
  cases hr
  exact ⟨hne, h⟩

theorem threadSet_eq_singleton (h : RepresentsRead stored reads) {r : AccountReadLocks}
    (hr : stored = Option.some r) (hother : ∀ u, u ≠ t → reads u = 0) : r.threadSet = {t} := by
  obtain ⟨hne, hmem⟩ := h.some r hr
  apply eq_singleton_iff_nonempty_unique_mem.mpr
  constructor
  · exact hne
  · intro u hu
    by_contra hut
    have := (hmem u).1.mp hu
    simp [hother u hut] at this

end RepresentsRead

/-- The entry of an account with the given numbers of locks on each thread. -/
structure Represents (entry : Option AccountLocks) (writes reads : ℕ → ℕ) : Prop where
  exclusive : ∀ t u, 0 < writes t → u ≠ t → writes u = 0 ∧ reads u = 0
  write : RepresentsWrite (entry.bind AccountLocks.writeLocks) writes
  read : RepresentsRead (entry.bind AccountLocks.readLocks) reads
  nonempty : entry ≠ some ⟨none, none⟩

variable {entry : Option AccountLocks}

namespace Represents

theorem empty : Represents none (fun _ => 0) (fun _ => 0) := by
  constructor
  · intro t u h
    simp at h
  · constructor <;> simp
  · constructor <;> simp
  · simp

section

variable (h : Represents entry writes reads)

include h

theorem eq_none (hw : ∀ t, writes t = 0) (hr : ∀ t, reads t = 0) : entry = none := by
  match entry, h with
  | none, _ => rfl
  | some ⟨some w, _⟩, h =>
    have := (h.write.some w rfl).1
    simp [hw] at this
  | some ⟨none, some r⟩, h =>
    obtain ⟨⟨u, hu⟩, hmem⟩ := h.read.some r rfl
    have := (hmem u).1.mp hu
    simp [hr] at this
  | some ⟨none, none⟩, h => exact absurd rfl h.nonempty

theorem write_getD : RepresentsWrite (entry.getD ⟨none, none⟩).writeLocks writes := by
  cases entry <;> exact h.write

theorem read_getD : RepresentsRead (entry.getD ⟨none, none⟩).readLocks reads := by
  cases entry <;> exact h.read

end

/-- With the locks of the other threads gone, only `t` can be a writer. -/
theorem exclusive_of_other (hother : ∀ u, u ≠ t → writes u = 0 ∧ reads u = 0) (v u : ℕ)
    (hv : 0 < writes v) (huv : u ≠ v) : writes u = 0 ∧ reads u = 0 := by
  have hvt : v = t := by
    by_contra hne
    simp [(hother v hne).1] at hv
  subst hvt
  exact hother u huv

theorem writeLock (h : Represents entry writes reads)
    (hother : ∀ u, u ≠ t → writes u = 0 ∧ reads u = 0) :
    ∃ entry', AccountLocks.writeLock entry t = .ok entry' ∧
      Represents entry' (bump writes t) reads := by
  have hexcl : ∀ v u, 0 < bump writes t v → u ≠ v → bump writes t u = 0 ∧ reads u = 0 := by
    apply exclusive_of_other
    intro u hu
    rw [bump_of_ne writes hu]
    exact hother u hu
  have hwrite := h.write_getD
  have hread := h.read_getD
  unfold AccountLocks.writeLock
  generalize entry.getD ⟨none, none⟩ = locks at hwrite hread
  have hfree : ¬ locks.readLocks.any
      (fun read => read.threadSet.onlyOneContained ≠ some t) := by
    cases hr : locks.readLocks with
    | none => simp
    | some r =>
      have := hread.threadSet_eq_singleton hr (fun u hu => (hother u hu).2)
      simp [onlyOneContained_eq_some, this]
  simp only [hfree, Bool.false_eq_true, if_false]
  cases hw : locks.writeLocks with
  | none =>
    have hzero := hwrite.none hw
    exact ⟨_, rfl, hexcl, .of_count (by simp) (by simp [hzero]), hread, by simp⟩
  | some w =>
    have hid : w.threadId = t := hwrite.threadId_eq hw fun u hu => (hother u hu).1
    have hnext : wrappingIncrement w.lockCount = (writes t + 1) % 2 ^ 32 := by
      rw [(hwrite.some w hw).2, hid, wrappingIncrement_mod]
    simp only [hid, ne_eq, not_true_eq_false, if_false]
    exact ⟨_, rfl, hexcl, .of_count (by simp) (by simp [hnext]), hread, by simp⟩

theorem readLock (h : Represents entry writes reads) (hother : ∀ u, u ≠ t → writes u = 0) :
    ∃ entry', AccountLocks.readLock entry t = .ok entry' ∧
      Represents entry' writes (bump reads t) := by
  have hexcl : ∀ v u, 0 < writes v → u ≠ v → writes u = 0 ∧ bump reads t u = 0 := by
    intro v u hv huv
    have hvt : v = t := by
      by_contra hne
      simp [hother v hne] at hv
    subst hvt
    rw [bump_of_ne reads huv]
    exact h.exclusive v u hv huv
  have hwrite := h.write_getD
  have hread := h.read_getD
  unfold AccountLocks.readLock
  generalize entry.getD ⟨none, none⟩ = locks at hwrite hread
  have hfree : ¬ locks.writeLocks.any (fun write => write.threadId ≠ t) := by
    cases hw : locks.writeLocks with
    | none => simp
    | some w => simp [hwrite.threadId_eq hw hother]
  simp only [hfree, Bool.false_eq_true, if_false]
  cases hr : locks.readLocks with
  | none =>
    have hzero := hread.none hr
    refine ⟨_, rfl, hexcl, hwrite, .of_counts (by simp) fun u => ?_, by simp⟩
    by_cases hu : u = t <;> simp [hzero, hu]
  | some r =>
    obtain ⟨_, hmem⟩ := hread.some r hr
    have hnext : wrappingIncrement (r.lockCounts t) = (reads t + 1) % 2 ^ 32 := by
      rw [(hmem t).2, wrappingIncrement_mod]
    refine ⟨_, rfl, hexcl, hwrite, .of_counts (by simp) fun u => ?_, by simp⟩
    by_cases hu : u = t
    · subst hu
      simp [hnext]
    · simp [hu, hmem u]

theorem writeUnlock (h : Represents entry (bump writes t) reads) (hrange : writes t + 1 < 2 ^ 32) :
    ∃ entry', AccountLocks.writeUnlock entry t = .ok entry' ∧ Represents entry' writes reads := by
  have hother : ∀ u, u ≠ t → writes u = 0 ∧ reads u = 0 := by
    intro u hu
    have := h.exclusive t u (by simp) hu
    rwa [bump_of_ne writes hu] at this
  match entry, h with
  | none, h => simpa using h.write.none rfl t
  | some ⟨none, _⟩, h => simpa using h.write.none rfl t
  | some ⟨some w, stored⟩, h =>
    have hid : w.threadId = t := by
      apply h.write.threadId_eq rfl
      intro u hu
      rw [bump_of_ne writes hu]
      exact (hother u hu).1
    have hcount : w.lockCount = (writes t + 1) % 2 ^ 32 := by
      have := (h.write.some w rfl).2
      rwa [hid, bump_same] at this
    have hdecr : wrappingDecrement w.lockCount = writes t := by
      rw [hcount, wrappingDecrement_mod, mod_eq_of_lt (by omega)]
    simp only [AccountLocks.writeUnlock, hid, ne_eq, not_true_eq_false, if_false, hdecr]
    by_cases hlast : writes t = 0
    · have hzero : ∀ u, writes u = 0 := by
        intro u
        by_cases hu : u = t
        · rw [hu, hlast]
        · exact (hother u hu).1
      rw [if_pos hlast]
      cases stored with
      | none | some r => exact ⟨_, rfl, exclusive_of_other hother, .of_zero hzero, h.read, by simp⟩
    · rw [if_neg hlast]
      refine ⟨_, rfl, exclusive_of_other hother, .of_count (pos_of_ne_zero hlast) ?_, h.read,
        by simp⟩
      rw [mod_eq_of_lt (by omega)]

theorem readUnlock (h : Represents entry writes (bump reads t)) (hrange : reads t + 1 < 2 ^ 32) :
    ∃ entry', AccountLocks.readUnlock entry t = .ok entry' ∧ Represents entry' writes reads := by
  have hexcl : ∀ v u, 0 < writes v → u ≠ v → writes u = 0 ∧ reads u = 0 := by
    intro v u hv huv
    obtain ⟨hw, hr⟩ := h.exclusive v u hv huv
    constructor
    · exact hw
    · unfold bump at hr
      split at hr <;> omega
  match entry, h with
  | none, h => simpa using h.read.none rfl t
  | some ⟨_, none⟩, h => simpa using h.read.none rfl t
  | some ⟨stored, some r⟩, h =>
    obtain ⟨_, hmem⟩ := h.read.some r rfl
    have hin : t ∈ r.threadSet := (hmem t).1.mpr (by simp)
    have hdecr : wrappingDecrement (r.lockCounts t) = reads t := by
      rw [(hmem t).2, bump_same, wrappingDecrement_mod, mod_eq_of_lt (by omega)]
    have hcounts : ∀ u,
        Function.update r.lockCounts t (reads t) u = reads u % 2 ^ 32 := by
      intro u
      by_cases hu : u = t
      · subst hu
        rw [Function.update_self, mod_eq_of_lt (by omega)]
      · rw [Function.update_of_ne hu, (hmem u).2, bump_of_ne reads hu]
    have herase : reads t = 0 → ∀ u, u ∈ r.threadSet.erase t ↔ 0 < reads u := by
      intro hlast u
      by_cases hu : u = t
      · subst hu
        simp [hlast]
      · rw [mem_erase, (hmem u).1, bump_of_ne reads hu]
        simp [hu]
    have hkept : reads t ≠ 0 → ∀ u, u ∈ r.threadSet ↔ 0 < reads u := by
      intro hmore u
      by_cases hu : u = t
      · subst hu
        simp only [hin, true_iff]
        omega
      · simp only [(hmem u).1, bump_of_ne reads hu]
    simp only [AccountLocks.readUnlock, hin, not_true_eq_false, if_false, hdecr]
    by_cases hlast : reads t = 0
    · rw [if_pos hlast]
      by_cases hempty : r.threadSet.erase t = ∅
      · have hzero : ∀ u, reads u = 0 := by
          intro u
          have := herase hlast u
          rw [hempty] at this
          simpa using this
        rw [if_pos hempty]
        cases stored with
        | none | some w => exact ⟨_, rfl, hexcl, h.write, .of_zero hzero, by simp⟩
      · rw [if_neg hempty]
        exact ⟨_, rfl, hexcl, h.write, .of_counts (nonempty_iff_ne_empty.mpr hempty)
          fun u => ⟨herase hlast u, hcounts u⟩, by simp⟩
    · rw [if_neg hlast]
      exact ⟨_, rfl, hexcl, h.write, .of_counts ⟨t, hin⟩
        fun u => ⟨hkept hlast u, hcounts u⟩, by simp⟩

end Represents

namespace Represents

theorem schedulableThreads (h : Represents entry writes reads) (numThreads : ℕ) (write : Bool) :
    ∃ threads, AccountLocks.schedulableThreads numThreads write entry = .ok threads ∧
      ∀ t < numThreads, t ∈ threads ↔ ∀ u, u ≠ t → writes u = 0 ∧ (write = true → reads u = 0) := by
  match entry, h with
  | none, h =>
    have hw := h.write.none rfl
    have hr := h.read.none rfl
    constructor
    constructor
    · rfl
    · intro t ht
      simp [ThreadSet.any, ht, hw, hr]
  | some ⟨none, some r⟩, h =>
    have hw := h.write.none rfl
    obtain ⟨hne, hmem⟩ := h.read.some r rfl
    constructor
    constructor
    · rfl
    · intro t ht
      cases write with
      | false => simp [ThreadSet.any, ht, hw]
      | true =>
        -- A writer needs every reader on its own thread.
        have hsingle : (∀ u, u ≠ t → reads u = 0) ↔ r.threadSet = {t} := by
          constructor
          · exact fun hother => h.read.threadSet_eq_singleton rfl hother
          · intro hset u hu
            have := (hmem u).1
            rw [hset] at this
            simp only [mem_singleton, hu, false_iff] at this
            omega
        simp only [if_true, hw, true_and, forall_const, hsingle]
        cases hone : r.threadSet.onlyOneContained with
        | none =>
          simp only [notMem_empty, false_iff]
          intro hset
          rw [ThreadSet.onlyOneContained_eq_some.mpr hset] at hone
          cases hone
        | some v =>
          rw [ThreadSet.onlyOneContained_eq_some.mp hone]
          simp [eq_comm]
  | some ⟨some w, none⟩, h =>
    have hpos := (h.write.some w rfl).1
    have hr := h.read.none rfl
    constructor
    constructor
    · rfl
    · intro t ht
      simp only [mem_singleton, hr, implies_true, and_true]
      constructor
      · intro heq u hu
        subst heq
        exact (h.exclusive _ u hpos hu).1
      · intro hother
        exact (h.write.threadId_eq rfl hother).symm
  | some ⟨some w, some r⟩, h =>
    have hpos := (h.write.some w rfl).1
    have hset : r.threadSet = {w.threadId} := by
      apply h.read.threadSet_eq_singleton rfl
      exact fun u hu => (h.exclusive _ u hpos hu).2
    constructor
    constructor
    · simp only [AccountLocks.schedulableThreads, ne_eq,
        ThreadSet.onlyOneContained_eq_some.mpr hset, not_true_eq_false, if_false]
      rfl
    · intro t ht
      rw [hset, mem_singleton]
      constructor
      · intro heq u hu
        subst heq
        obtain ⟨hw, hr⟩ := h.exclusive _ u hpos hu
        exact ⟨hw, fun _ => hr⟩
      · intro hother
        exact (h.write.threadId_eq rfl (fun u hu => (hother u hu).1)).symm
  | some ⟨none, none⟩, h => exact absurd rfl h.nonempty

end Represents

/-- The locks of a successful call that has not been undone. -/
structure HeldLocks (Pubkey : Type) where
  threadId : ℕ
  writes : List Pubkey
  reads : List Pubkey
deriving DecidableEq

section Outstanding

variable {Pubkey : Type} [DecidableEq Pubkey]

def addLocks (locks : Pubkey → ℕ → ℕ) (t : ℕ) (accounts : List Pubkey) : Pubkey → ℕ → ℕ :=
  fun account u => locks account u + if u = t then accounts.count account else 0

attribute [local simp] addLocks

variable (locks : Pubkey → ℕ → ℕ) (record : HeldLocks Pubkey)

theorem addLocks_of_ne {t u : ℕ} (accounts : List Pubkey) (account : Pubkey) (h : u ≠ t) :
    addLocks locks t accounts account u = locks account u := by
  simp [h]

@[simp]
theorem addLocks_nil (t : ℕ) : addLocks locks t [] = locks := by
  funext account u
  simp

theorem addLocks_perm (t : ℕ) {accounts accounts' : List Pubkey} (h : accounts.Perm accounts') :
    addLocks locks t accounts = addLocks locks t accounts' := by
  funext account u
  simp [h.count_eq]

theorem addLocks_cons_same (t : ℕ) (account : Pubkey) (accounts : List Pubkey) :
    addLocks locks t (account :: accounts) account = bump (addLocks locks t accounts account) t := by
  funext u
  by_cases hu : u = t <;> simp [hu, add_assoc]

theorem addLocks_cons_of_ne (t : ℕ) {account other : Pubkey} (accounts : List Pubkey)
    (h : other ≠ account) :
    addLocks locks t (account :: accounts) other = addLocks locks t accounts other := by
  funext u
  simp [List.count_cons_of_ne (Ne.symm h)]

theorem addLocks_singleton_same (t : ℕ) (account : Pubkey) :
    addLocks locks t [account] account = bump (locks account) t := by
  rw [addLocks_cons_same, addLocks_nil]

theorem addLocks_cons (t : ℕ) (account : Pubkey) (accounts : List Pubkey) :
    addLocks (addLocks locks t [account]) t accounts = addLocks locks t (account :: accounts) := by
  funext other u
  by_cases hu : u = t
  · by_cases ho : account = other
    · simp [hu, ho, add_assoc, add_comm 1]
    · simp [hu, ho]
  · simp [hu]

variable (held : List (HeldLocks Pubkey))

def writesHeld (account : Pubkey) (t : ℕ) : ℕ :=
  (held.map fun record => if t = record.threadId then record.writes.count account else 0).sum

def readsHeld (account : Pubkey) (t : ℕ) : ℕ :=
  (held.map fun record => if t = record.threadId then record.reads.count account else 0).sum

theorem writesHeld_cons :
    writesHeld (record :: held) = addLocks (writesHeld held) record.threadId record.writes := by
  funext account t
  simp [writesHeld, add_comm]

theorem readsHeld_cons :
    readsHeld (record :: held) = addLocks (readsHeld held) record.threadId record.reads := by
  funext account t
  simp [readsHeld, add_comm]

variable {held held' : List (HeldLocks Pubkey)}

theorem writesHeld_perm (h : held.Perm held') : writesHeld held = writesHeld held' := by
  funext account t
  exact (h.map _).sum_eq

theorem readsHeld_perm (h : held.Perm held') : readsHeld held = readsHeld held' := by
  funext account t
  exact (h.map _).sum_eq

end Outstanding

end RakuraiValidator.Scheduling
