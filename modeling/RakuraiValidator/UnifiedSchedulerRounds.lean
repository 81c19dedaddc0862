import RakuraiValidator.UnifiedSchedulerLocking

/-!
# The loops over the lock contexts of a task

`try_lock_usage_queues` and `unlock_usage_queues` visit the usage queues of a
task one after the other, so in the middle of a loop some queues know the task
and some do not.  `Consistent` therefore takes the usages which each queue
serves as a parameter.  A round of a loop changes this parameter at one address;
by induction the whole loop changes it at the addresses of the task.
-/

namespace RakuraiValidator.UnifiedScheduler

open LockContext SchedulingStateMachine List Function UnifiedScheduler.Task

variable {α η : Type}

def Task.addresses (task : Task α η) : List α := task.lockContexts.map usageQueue

theorem Task.addresses_nodup (task : Task α η) : task.addresses.Nodup := task.usageQueue_nodup

/-- The usages of one address which the given lock contexts of a task ask for. -/
def Task.usagesIn (task : Task α η) [DecidableEq α] (contexts : List (LockContext α)) (a : α) :
    List (UsageFromTask α η) :=
  (contexts.filter (fun context => context.usageQueue = a)).map
    (fun context => (context.requestedUsage, task))

def blockedUsageCount (queues : α → UsageQueueInner α η) (task : Task α η) : ℕ :=
  task.addresses.countP (fun a => task.taskId ∈ taskIds (queues a).blockedUsages)

structure Consistent (capability : Capability) (waiting : Task α η → Prop)
    (known : List (Task α η)) (users : α → List (UsageFromTask α η))
    (queues : α → UsageQueueInner α η) (counts : BlockedUsageCounts) : Prop where
  serves : ∀ a, ∃ holders,
    Serves capability waiting (queues a) (users a) holders (queues a).blockedUsages
  users_known : ∀ a, ∀ usage ∈ users a, usage.2 ∈ known ∧ a ∈ usage.2.addresses
  users_nodup : ∀ a, (taskIds (users a)).Nodup
  counts_eq : ∀ task ∈ known, counts task.taskId = blockedUsageCount queues task

/-! ## Counting blocked usages -/

variable {ids : List ℕ}

theorem count_eq_ite (hnodup : ids.Nodup) (id : ℕ) : ids.count id = if id ∈ ids then 1 else 0 := by
  split
  next hmem => exact count_eq_one_of_mem hnodup hmem
  next hmem => exact count_eq_zero_of_not_mem hmem

variable {a : α}

theorem countP_eq_of_eq_except [DecidableEq α] {l : List α} (hnodup : l.Nodup)
    (ha : a ∈ l) {p q : α → Bool} (h : ∀ b, b ≠ a → p b = q b) :
    l.countP p + (if q a then 1 else 0) = l.countP q + (if p a then 1 else 0) := by
  have hperm := perm_cons_erase ha
  have hrest : (l.erase a).countP p = (l.erase a).countP q := by
    apply countP_congr
    intro b hb
    have hne : b ≠ a := by
      rintro rfl
      exact hnodup.not_mem_erase hb
    rw [h b hne]
  rw [hperm.countP_eq p, hperm.countP_eq q, countP_cons, countP_cons, hrest]
  omega

variable {task : Task α η} {queues : α → UsageQueueInner α η}

theorem blockedUsageCount_lt (ha : a ∈ task.addresses)
    (hnot : task.taskId ∉ taskIds (queues a).blockedUsages) :
    blockedUsageCount queues task < counterMax := by
  have hlt : blockedUsageCount queues task < task.addresses.length := by
    rw [blockedUsageCount, countP_lt_length_iff]
    exact ⟨a, ha, by simpa using hnot⟩
  have hlen : task.addresses.length = task.lockContexts.length := by
    simp [addresses]
  have hle := task.lockContexts_length_le
  omega

theorem not_mem_blocked_of_count_eq_zero (hzero : blockedUsageCount queues task = 0)
    (ha : a ∈ task.addresses) : task.taskId ∉ taskIds (queues a).blockedUsages := by
  rw [blockedUsageCount, countP_eq_zero] at hzero
  simpa using hzero a ha

section Update

variable [DecidableEq α] {queue' : UsageQueueInner α η}

theorem blockedUsageCount_update (hnodup : (taskIds (queues a).blockedUsages).Nodup)
    (hnodup' : (taskIds queue'.blockedUsages).Nodup)
    (hold : task.taskId ∈ taskIds (queues a).blockedUsages → a ∈ task.addresses)
    (hnew : task.taskId ∈ taskIds queue'.blockedUsages → a ∈ task.addresses) :
    blockedUsageCount (Function.update queues a queue') task +
        (taskIds (queues a).blockedUsages).count task.taskId =
      blockedUsageCount queues task + (taskIds queue'.blockedUsages).count task.taskId := by
  rw [count_eq_ite hnodup, count_eq_ite hnodup']
  by_cases ha : a ∈ task.addresses
  · have hcount := countP_eq_of_eq_except task.addresses_nodup ha
      (p := fun b => task.taskId ∈ taskIds (update queues a queue' b).blockedUsages)
      (q := fun b => task.taskId ∈ taskIds (queues b).blockedUsages)
      (by intro b hb; simp [update_of_ne hb])
    simpa [blockedUsageCount, addresses] using hcount
  · have hsame : blockedUsageCount (update queues a queue') task =
        blockedUsageCount queues task := by
      apply countP_congr
      intro b hb
      have hne : b ≠ a := by
        rintro rfl
        exact ha hb
      simp [update_of_ne hne]
    simp [hsame, mt hold ha, mt hnew ha]

end Update

theorem raiseCounts_eq_add (counts : BlockedUsageCounts) (hnodup : ids.Nodup) (id : ℕ) :
    raiseCounts counts ids id = counts id + ids.count id := by
  rw [count_eq_ite hnodup, raiseCounts]
  split <;> rfl

theorem lowerCounts_eq_sub (counts : BlockedUsageCounts) (hnodup : ids.Nodup) (id : ℕ) :
    lowerCounts counts ids id = counts id - ids.count id := by
  rw [count_eq_ite hnodup, lowerCounts]
  split <;> rfl

variable {known : List (Task α η)}

theorem eq_of_taskId_eq (hknown : (known.map taskId).Nodup) {other : Task α η}
    (htask : task ∈ known) (hother : other ∈ known) (heq : task.taskId = other.taskId) :
    task = other :=
  inj_on_of_nodup_map hknown htask hother heq

/-- The known tasks which lost their last blocked usage on the way. -/
structure Releases (known : List (Task α η)) (counts counts' : BlockedUsageCounts)
    (released : List (Task α η)) : Prop where
  le : ∀ id, counts' id ≤ counts id
  nodup : released.Nodup
  mem_iff : ∀ task, task ∈ released ↔
    task ∈ known ∧ counts task.taskId ≠ 0 ∧ counts' task.taskId = 0

theorem Releases.refl (known : List (Task α η)) (counts : BlockedUsageCounts) :
    Releases known counts counts [] where
  le _ := le_refl _
  nodup := nodup_nil
  mem_iff task := by
    simp only [not_mem_nil, false_iff]
    exact fun h => h.2.1 h.2.2

variable {counts : BlockedUsageCounts}

theorem Releases.trans {released released' : List (Task α η)}
    {counts' counts'' : BlockedUsageCounts} (h : Releases known counts counts' released)
    (h' : Releases known counts' counts'' released') :
    Releases known counts counts'' (released ++ released') where
  le id := (h'.le id).trans (h.le id)
  nodup := by
    refine nodup_append'.mpr ⟨h.nodup, h'.nodup, ?_⟩
    intro task htask htask'
    exact ((h'.mem_iff task).mp htask').2.1 ((h.mem_iff task).mp htask).2.2
  mem_iff task := by
    rw [mem_append, h.mem_iff, h'.mem_iff]
    have hle := h.le task.taskId
    have hle' := h'.le task.taskId
    constructor
    · rintro (⟨hknown, hne, hzero⟩ | ⟨hknown, hne, hzero⟩)
      · exact ⟨hknown, hne, by omega⟩
      · exact ⟨hknown, by omega, hzero⟩
    · rintro ⟨hknown, hne, hzero⟩
      by_cases hmiddle : counts' task.taskId = 0
      · exact Or.inl ⟨hknown, hne, hmiddle⟩
      · exact Or.inr ⟨hknown, hmiddle, hzero⟩

theorem releases_newlyUnblocked (hknown : (known.map taskId).Nodup)
    {woken : List (UsageFromTask α η)} (hnodup : (taskIds woken).Nodup)
    (hmem : ∀ usage ∈ woken, usage.2 ∈ known)
    (hcounts : ∀ usage ∈ woken, counts usage.2.taskId ≠ 0) :
    Releases known counts (lowerCounts counts (taskIds woken)) (newlyUnblocked counts woken) where
  le id := by
    unfold lowerCounts
    split <;> omega
  nodup := by
    apply List.Nodup.of_map taskId
    unfold newlyUnblocked
    rw [map_map]
    exact hnodup.sublist (filter_sublist.map _)
  mem_iff task := by
    unfold newlyUnblocked
    simp only [mem_map, mem_filter, decide_eq_true_eq]
    constructor
    · rintro ⟨usage, ⟨husage, hone⟩, rfl⟩
      refine ⟨hmem usage husage, hcounts usage husage, ?_⟩
      simp [lowerCounts, mem_taskIds_of_mem husage, hone]
    · rintro ⟨htask, hne, hzero⟩
      unfold lowerCounts at hzero
      split at hzero
      next hid =>
        obtain ⟨usage, husage, heq⟩ := mem_taskIds.mp hid
        have hsame := eq_of_taskId_eq hknown (hmem usage husage) htask heq
        exact ⟨usage, ⟨husage, by rw [heq]; omega⟩, hsame⟩
      next => exact absurd hzero hne

variable {usage : UsageFromTask α η} {count : ℕ}

variable {capability : Capability} {waiting : Task α η → Prop} {m : SchedulingStateMachine α η}

namespace Consistent

variable {users : α → List (UsageFromTask α η)}

section

variable (h : Consistent capability waiting known users queues counts)

include h

theorem blocked_subset (a : α) (husage : usage ∈ (queues a).blockedUsages) : usage ∈ users a := by
  obtain ⟨holders, hserv⟩ := h.serves a
  exact hserv.users_perm.mem_iff.mp (mem_append_right _ husage)

theorem blocked_nodup (a : α) : (taskIds (queues a).blockedUsages).Nodup := by
  obtain ⟨holders, hserv⟩ := h.serves a
  have hnodup := hserv.nodup (h.users_nodup a)
  rw [taskIds_append] at hnodup
  exact hnodup.of_append_right

theorem mem_addresses_of_blocked (hknown : (known.map taskId).Nodup) {task : Task α η}
    (htask : task ∈ known) {a : α} (hblocked : task.taskId ∈ taskIds (queues a).blockedUsages) :
    a ∈ task.addresses := by
  obtain ⟨usage, husage, heq⟩ := mem_taskIds.mp hblocked
  obtain ⟨hmem, ha⟩ := h.users_known a usage (h.blocked_subset a husage)
  rwa [eq_of_taskId_eq hknown hmem htask heq] at ha

end

/-! ## A round of the locking loop -/

section Rounds

variable [DecidableEq α]

variable (h : Consistent capability waiting known users queues counts)
  (hknown : (known.map taskId).Nodup)

include h hknown in
theorem update {queue' : UsageQueueInner α η}
    {users' holders' : List (UsageFromTask α η)} {counts' : BlockedUsageCounts}
    (hserv : Serves capability waiting queue' users' holders' queue'.blockedUsages)
    (husers : ∀ usage ∈ users', usage.2 ∈ known ∧ a ∈ usage.2.addresses)
    (hnodup : (taskIds users').Nodup) (hcounts : ∀ other ∈ known,
      counts' other.taskId + (taskIds (queues a).blockedUsages).count other.taskId =
        counts other.taskId + (taskIds queue'.blockedUsages).count other.taskId) :
    Consistent capability waiting known (Function.update users a users')
      (Function.update queues a queue') counts' where
  serves b := by
    by_cases hb : b = a
    · subst hb
      exact ⟨holders', by simpa using hserv⟩
    · simpa [update_of_ne hb] using h.serves b
  users_known b := by
    by_cases hb : b = a
    · subst hb
      simpa using husers
    · simpa [update_of_ne hb] using h.users_known b
  users_nodup b := by
    by_cases hb : b = a
    · subst hb
      simpa using hnodup
    · simpa [update_of_ne hb] using h.users_nodup b
  counts_eq other hother := by
    have hblocked' : (taskIds queue'.blockedUsages).Nodup := by
      have hids := hserv.nodup hnodup
      rw [taskIds_append] at hids
      exact hids.of_append_right
    have hnew : other.taskId ∈ taskIds queue'.blockedUsages → a ∈ other.addresses := by
      intro hmem
      obtain ⟨usage, husage, heq⟩ := mem_taskIds.mp hmem
      obtain ⟨hmem', ha⟩ :=
        husers usage (hserv.users_perm.mem_iff.mp (mem_append_right _ husage))
      rwa [eq_of_taskId_eq hknown hmem' hother heq] at ha
    have hupd := blockedUsageCount_update (h.blocked_nodup a) hblocked'
      (h.mem_addresses_of_blocked hknown hother) hnew
    have hcount := hcounts other hother
    have hold := h.counts_eq other hother
    omega

theorem lockOrBlock
    (h : Consistent capability waiting known users queues (Function.update counts task.taskId
      count))
    (hknown : (known.map taskId).Nodup) (htask : task ∈ known) (ha : a ∈ task.addresses)
    (usage : RequestedUsage) (hfresh : task.taskId ∉ taskIds (users a))
    (hwaiting : ∀ other ∈ known, other ≠ task → (waiting other ↔ counts other.taskId ≠ 0))
    (hlen : (users a).length < counterMax) :
    ∃ queue' counts' count',
      (queues a).lockOrBlock counts task usage count = .ok (queue', counts', count') ∧
      Consistent capability waiting known
        (Function.update users a (users a ++ [(usage, task)]))
        (Function.update queues a queue') (Function.update counts' task.taskId count') ∧
      ∀ id, counts' id = 0 ↔ counts id = 0 := by
  obtain ⟨holders, hserv⟩ := h.serves a
  have hcount : count = blockedUsageCount queues task := by
    simpa using h.counts_eq task htask
  have hnotBlocked : task.taskId ∉ taskIds (queues a).blockedUsages := by
    intro hmem
    obtain ⟨other, hother, heq⟩ := mem_taskIds.mp hmem
    exact hfresh (heq ▸ mem_taskIds_of_mem (h.blocked_subset a hother))
  have hothers : ∀ holder ∈ holders, holder.2 ∈ known ∧ a ∈ holder.2.addresses ∧
      holder.2 ≠ task ∧ holder.2.taskId ≠ task.taskId ∧
      holder.2.taskId ∉ taskIds (queues a).blockedUsages := by
    intro holder hhold
    have hmem := hserv.users_perm.mem_iff.mp (mem_append_left _ hhold)
    obtain ⟨hholdKnown, hholdAddr⟩ := h.users_known a holder hmem
    have hne := hserv.ne_of_fresh hfresh (mem_append_left _ hhold)
    have hnodup := hserv.nodup (h.users_nodup a)
    rw [taskIds_append] at hnodup
    exact ⟨hholdKnown, hholdAddr, fun heq => hne (heq ▸ rfl), hne.symm,
      disjoint_of_nodup_append hnodup (mem_taskIds_of_mem hhold)⟩
  have hmax : ∀ holder ∈ holders, counts holder.2.taskId < counterMax := by
    intro holder hhold
    obtain ⟨hmem, haddr, _, hne, hnot⟩ := hothers holder hhold
    have hcounts := h.counts_eq holder.2 hmem
    rw [update_of_ne hne] at hcounts
    rw [hcounts]
    exact blockedUsageCount_lt haddr hnot
  obtain ⟨queue', reblocked, holders', blocked', entering, hstep, hserv', hentering,
      hblocked', hreblocked⟩ :=
    hserv.lockOrBlock usage (h.users_nodup a) hfresh
      (fun holder hhold => hwaiting _ (hothers holder hhold).1 (hothers holder hhold).2.2.1)
      hmax hlen (hcount ▸ blockedUsageCount_lt ha hnotBlocked)
  have hqueue' := hserv'.represents.blockedUsages_eq
  rw [← hqueue'] at hserv' hblocked'
  refine ⟨queue', _, _, hstep, ?_, ?_⟩
  · have husersNodup : (taskIds (users a ++ [(usage, task)])).Nodup := by
      rw [taskIds_append]
      exact nodup_append_comm.mp (by simpa using ⟨hfresh, h.users_nodup a⟩)
    have hblockedIds : (taskIds (entering ++ (reblocked ++ (queues a).blockedUsages))).Nodup := by
      have hids := hserv'.nodup husersNodup
      rw [taskIds_append] at hids
      exact (taskIds_perm hblocked').nodup_iff.mp hids.of_append_right
    rw [taskIds_append, taskIds_append] at hblockedIds
    have hreblockedNodup := hblockedIds.of_append_right.of_append_left
    refine h.update hknown hserv' ?_ husersNodup ?_
    · intro other hother
      rcases mem_append.mp hother with hother | hother
      · exact h.users_known a other hother
      · obtain rfl := mem_singleton.mp hother
        exact ⟨htask, ha⟩
    · intro other hother
      have hcountBlocked' := (taskIds_perm hblocked').count_eq other.taskId
      rw [taskIds_append, taskIds_append, count_append, count_append] at hcountBlocked'
      by_cases heq : other = task
      · subst heq
        have hentered : (taskIds entering).count other.taskId = entering.length := by
          rcases hentering with rfl | rfl <;> simp
        have hnotReblocked : (taskIds reblocked).count other.taskId = 0 := by
          apply count_eq_zero_of_not_mem
          intro hmem
          obtain ⟨holder, hhold, hid⟩ := mem_taskIds.mp hmem
          exact (hothers holder (hreblocked holder hhold).1).2.2.2.1 hid
        simp only [update_self]
        omega
      · have hne : other.taskId ≠ task.taskId :=
          fun hid => heq (eq_of_taskId_eq hknown hother htask hid)
        have hnotEntered : (taskIds entering).count other.taskId = 0 := by
          rcases hentering with rfl | rfl
          · simp
          · simp [hne.symm]
        rw [update_of_ne hne, update_of_ne hne, raiseCounts_eq_add counts hreblockedNodup]
        omega
  · intro id
    unfold raiseCounts
    split
    next hmem =>
      obtain ⟨holder, hhold, rfl⟩ := mem_taskIds.mp hmem
      simp [(hreblocked holder hhold).2]
    next => rfl

/-! ## A round of the unlocking loop -/

include h hknown in
theorem unlockAndRelock (htask : task ∈ known) {usage : RequestedUsage}
    (husage : (usage, task) ∈ users a) (hzero : counts task.taskId = 0)
    (unblocked : List (Task α η)) (hlen : (users a).length ≤ counterMax) :
    ∃ queue' counts' released,
      (queues a).unlockAndRelock counts unblocked task usage =
        .ok (queue', counts', unblocked ++ released) ∧
      Consistent capability waiting known
        (Function.update users a (withoutTask task.taskId (users a)))
        (Function.update queues a queue') counts' ∧
      Releases known counts counts' released := by
  obtain ⟨holders, hserv⟩ := h.serves a
  have hnotBlocked : task.taskId ∉ taskIds (queues a).blockedUsages :=
    not_mem_blocked_of_count_eq_zero ((h.counts_eq task htask).symm.trans hzero)
      (h.users_known a _ husage).2
  have hhold : (usage, task) ∈ holders := by
    rcases mem_append.mp (hserv.users_perm.mem_iff.mpr husage) with hmem | hmem
    · exact hmem
    · exact absurd (mem_taskIds_of_mem hmem) hnotBlocked
  have hblockedKnown : ∀ other ∈ (queues a).blockedUsages, other.2 ∈ known :=
    fun other hother => (h.users_known a other (h.blocked_subset a hother)).1
  have hcounts : ∀ other ∈ (queues a).blockedUsages, counts other.2.taskId ≠ 0 := by
    intro other hother hzero'
    have hmem := hblockedKnown other hother
    have hnot := not_mem_blocked_of_count_eq_zero ((h.counts_eq _ hmem).symm.trans hzero')
      (h.users_known a other (h.blocked_subset a hother)).2
    exact hnot (mem_taskIds_of_mem hother)
  have hblockedLen : (queues a).blockedUsages.length ≤ counterMax := by
    have hlens := hserv.users_perm.length_eq
    rw [length_append] at hlens
    omega
  obtain ⟨queue', holders', woken, blocked', hstep, hserv', hblocked⟩ :=
    hserv.unlockAndRelock hhold unblocked (h.users_nodup a) hcounts hblockedLen
  have hqueue' := hserv'.represents.blockedUsages_eq
  rw [← hqueue'] at hserv' hblocked
  have hids := h.blocked_nodup a
  rw [hblocked, taskIds_append] at hids
  have hwoken := hids.of_append_left
  refine ⟨queue', _, _, hstep, ?_, ?_⟩
  · refine h.update hknown hserv' ?_ ?_ ?_
    · exact fun other hother => h.users_known a other (mem_of_mem_filter hother)
    · exact (h.users_nodup a).sublist (filter_sublist.map _)
    · intro other hother
      have hle : (taskIds woken).count other.taskId ≤ counts other.taskId := by
        rw [count_eq_ite hwoken]
        split
        next hmem =>
          obtain ⟨usage, husage, hid⟩ := mem_taskIds.mp hmem
          have hne := hcounts usage (hblocked ▸ mem_append_left _ husage)
          rw [hid] at hne
          omega
        next => omega
      rw [lowerCounts_eq_sub counts hwoken, hblocked, taskIds_append, count_append]
      omega
  · refine releases_newlyUnblocked hknown hwoken ?_ ?_
    · exact fun other hother => hblockedKnown other (hblocked ▸ mem_append_left _ hother)
    · exact fun other hother => hcounts other (hblocked ▸ mem_append_left _ hother)

/-! ## Whole loops -/

variable {contexts : List (LockContext α)}

theorem lockContexts
    (h : Consistent capability waiting known users m.usageQueues (Function.update
      m.blockedUsageCounts task.taskId count))
    (hknown : (known.map taskId).Nodup) (htask : task ∈ known)
    (hnodup : (contexts.map usageQueue).Nodup)
    (haddr : ∀ context ∈ contexts, context.usageQueue ∈ task.addresses)
    (hfresh : ∀ context ∈ contexts, task.taskId ∉ taskIds (users context.usageQueue))
    (hlen : ∀ context ∈ contexts, (users context.usageQueue).length < counterMax)
    (hwaiting : ∀ other ∈ known, other ≠ task → (waiting other ↔
      m.blockedUsageCounts other.taskId ≠ 0)) :
    ∃ queues' counts' count',
      SchedulingStateMachine.lockContexts task contexts m count =
        .ok ({ m with usageQueues := queues', blockedUsageCounts := counts' }, count') ∧
      Consistent capability waiting known (fun a => users a ++ task.usagesIn contexts a)
        queues' (Function.update counts' task.taskId count') ∧
      ∀ id, counts' id = 0 ↔ m.blockedUsageCounts id = 0 := by
  induction contexts generalizing m users count with
  | nil =>
    exact ⟨m.usageQueues, m.blockedUsageCounts, count, rfl, by simpa [usagesIn] using h,
      fun _ => Iff.rfl⟩
  | cons context rest ih =>
    rw [map_cons, nodup_cons] at hnodup
    obtain ⟨hctx, hrest⟩ := hnodup
    have hother : ∀ next ∈ rest, next.usageQueue ≠ context.usageQueue := by
      intro next hnext heq
      exact hctx (heq ▸ mem_map_of_mem hnext)
    obtain ⟨queue', counts', count', hround, hcons, hzero⟩ :=
      h.lockOrBlock hknown htask (haddr context (by simp)) context.requestedUsage
        (hfresh context (by simp)) hwaiting (hlen context (by simp))
    obtain ⟨queues'', counts'', count'', hloop, hcons', hzero'⟩ :=
      ih (m := { m with
          usageQueues := Function.update m.usageQueues context.usageQueue queue'
          blockedUsageCounts := counts' }) hcons hrest
        (fun next hnext => haddr next (by simp [hnext]))
        (fun next hnext => by
          rw [update_of_ne (hother next hnext)]
          exact hfresh next (by simp [hnext]))
        (fun next hnext => by
          rw [update_of_ne (hother next hnext)]
          exact hlen next (by simp [hnext]))
        (fun other hmem hne => (hwaiting other hmem hne).trans (not_congr (hzero _)).symm)
    refine ⟨queues'', counts'', count'', ?_, ?_, fun id => (hzero' id).trans (hzero id)⟩
    · simp only [SchedulingStateMachine.lockContexts, hround, bind, Except.bind]
      exact hloop
    · have husers : (fun a => Function.update users context.usageQueue
          (users context.usageQueue ++ [(context.requestedUsage, task)]) a ++
            task.usagesIn rest a) =
          fun a => users a ++ task.usagesIn (context :: rest) a := by
        funext a
        by_cases ha : a = context.usageQueue
        · subst ha
          simp [usagesIn]
        · simp [usagesIn, update_of_ne ha, Ne.symm ha]
      rwa [husers] at hcons'

theorem unlockContexts
    (h : Consistent capability waiting known users m.usageQueues m.blockedUsageCounts)
    (hknown : (known.map taskId).Nodup) (htask : task ∈ known)
    (hnodup : (contexts.map usageQueue).Nodup)
    (husage : ∀ context ∈ contexts, (context.requestedUsage, task) ∈ users context.usageQueue)
    (hzero : m.blockedUsageCounts task.taskId = 0)
    (hlen : ∀ context ∈ contexts, (users context.usageQueue).length ≤ counterMax) :
    ∃ queues' counts' released,
      SchedulingStateMachine.unlockContexts task contexts m =
        .ok { m with
          usageQueues := queues'
          blockedUsageCounts := counts'
          unblockedTaskQueue := m.unblockedTaskQueue ++ released } ∧
      Consistent capability waiting known
        (fun a => if a ∈ contexts.map usageQueue
          then withoutTask task.taskId (users a) else users a)
        queues' counts' ∧
      Releases known m.blockedUsageCounts counts' released := by
  induction contexts generalizing m users with
  | nil =>
    exact ⟨m.usageQueues, m.blockedUsageCounts, [],
      by simp [SchedulingStateMachine.unlockContexts], by simpa using h, Releases.refl _ _⟩
  | cons context rest ih =>
    rw [map_cons, nodup_cons] at hnodup
    obtain ⟨hctx, hrest⟩ := hnodup
    have hother : ∀ next ∈ rest, next.usageQueue ≠ context.usageQueue := by
      intro next hnext heq
      exact hctx (heq ▸ mem_map_of_mem hnext)
    obtain ⟨queue', counts', released, hround, hcons, hrel⟩ :=
      h.unlockAndRelock hknown htask (husage context (by simp)) hzero m.unblockedTaskQueue
        (hlen context (by simp))
    have hzero' : counts' task.taskId = 0 := by
      have hle := hrel.le task.taskId
      omega
    obtain ⟨queues'', counts'', released', hloop, hcons', hrel'⟩ :=
      ih (m := { m with
          usageQueues := Function.update m.usageQueues context.usageQueue queue'
          blockedUsageCounts := counts'
          unblockedTaskQueue := m.unblockedTaskQueue ++ released }) hcons hrest
        (fun next hnext => by
          rw [update_of_ne (hother next hnext)]
          exact husage next (by simp [hnext]))
        hzero'
        (fun next hnext => by
          rw [update_of_ne (hother next hnext)]
          exact hlen next (by simp [hnext]))
    refine ⟨queues'', counts'', released ++ released', ?_, ?_, hrel.trans hrel'⟩
    · simp only [SchedulingStateMachine.unlockContexts, hround, bind, Except.bind]
      rw [hloop]
      simp
    · have husers : (fun a => if a ∈ rest.map usageQueue
          then withoutTask task.taskId (Function.update users context.usageQueue
            (withoutTask task.taskId (users context.usageQueue)) a)
          else Function.update users context.usageQueue
            (withoutTask task.taskId (users context.usageQueue)) a) =
          fun a => if a ∈ (context :: rest).map usageQueue
            then withoutTask task.taskId (users a) else users a := by
        funext a
        by_cases ha : a = context.usageQueue
        · subst ha
          rw [if_neg hctx, if_pos (by simp), update_self]
        · simp only [update_of_ne ha, map_cons, mem_cons, ha, false_or]
      rwa [husers] at hcons'

end Rounds

end Consistent

/-! ## The queues of all active tasks -/

section Active

variable [DecidableEq α] {active : List (Task α η)}

/-- The usages of one address by all active tasks, in the order of submission. -/
def usersAt (active : List (Task α η)) (a : α) : List (UsageFromTask α η) :=
  active.flatMap (fun task => task.usagesIn task.lockContexts a)

theorem mem_usersAt {a : α} :
    usage ∈ usersAt active a ↔
      usage.2 ∈ active ∧ LockContext.mk a usage.1 ∈ usage.2.lockContexts := by
  simp only [usersAt, usagesIn, mem_flatMap, mem_map, mem_filter,
    decide_eq_true_eq]
  constructor
  · rintro ⟨task, htask, context, ⟨hctx, rfl⟩, rfl⟩
    exact ⟨htask, hctx⟩
  · rintro ⟨htask, hctx⟩
    exact ⟨usage.2, htask, _, ⟨hctx, rfl⟩, rfl⟩

theorem taskIds_usagesIn_sublist (task : Task α η) (a : α) :
    (taskIds (task.usagesIn task.lockContexts a)).Sublist [task.taskId] := by
  have hlen : (task.lockContexts.filter (fun context => context.usageQueue = a)).length ≤ 1 := by
    have hcount := nodup_iff_count_le_one.mp task.usageQueue_nodup a
    rw [count, countP_map, countP_eq_length_filter] at hcount
    exact hcount
  have hids : taskIds (task.usagesIn task.lockContexts a) =
      replicate (task.lockContexts.filter (fun context => context.usageQueue = a)).length
        task.taskId := by
    simp [taskIds, usagesIn, comp_def]
  rw [hids]
  exact (replicate_sublist_replicate task.taskId).mpr hlen

theorem usersAt_cons (task : Task α η) (rest : List (Task α η)) (a : α) :
    usersAt (task :: rest) a = task.usagesIn task.lockContexts a ++ usersAt rest a := by
  simp [usersAt]

theorem taskIds_usersAt_sublist (active : List (Task α η)) (a : α) :
    (taskIds (usersAt active a)).Sublist (active.map taskId) := by
  induction active with
  | nil => simp [usersAt, taskIds]
  | cons task rest ih =>
    rw [usersAt_cons, taskIds_append]
    exact (taskIds_usagesIn_sublist task a).append ih

theorem withoutTask_usersAt (active : List (Task α η)) (id : ℕ) (a : α) :
    withoutTask id (usersAt active a) =
      usersAt (active.filter (fun task => task.taskId ≠ id)) a := by
  induction active with
  | nil => rfl
  | cons task rest ih =>
    rw [usersAt_cons, withoutTask_append, ih]
    by_cases hid : task.taskId = id
    · have hnil : withoutTask id (task.usagesIn task.lockContexts a) = [] := by
        apply filter_eq_nil_iff.mpr
        intro usage husage
        obtain ⟨_, _, rfl⟩ := mem_map.mp husage
        simp [hid]
      simp [hnil, hid]
    · have hself : withoutTask id (task.usagesIn task.lockContexts a) =
          task.usagesIn task.lockContexts a := by
        apply filter_eq_self.mpr
        intro usage husage
        obtain ⟨_, _, rfl⟩ := mem_map.mp husage
        simpa using hid
      simp [hself, hid, usersAt]

theorem tryLockUsageQueues_spec
    (h : Consistent capability (fun other => m.blockedUsageCounts other.taskId ≠ 0) active
      (usersAt active) m.usageQueues m.blockedUsageCounts)
    (hnodup : ((active ++ [task]).map taskId).Nodup)
    (hcount : m.blockedUsageCounts task.taskId = 0) (hlen : active.length < counterMax) :
    ∃ queues' counts',
      m.tryLockUsageQueues task =
        .ok ({ m with usageQueues := queues', blockedUsageCounts := counts' },
          if counts' task.taskId = 0 then some task else none) ∧
      Consistent capability
        (fun other => m.blockedUsageCounts other.taskId ≠ 0 ∨ other.taskId = task.taskId)
        (active ++ [task]) (usersAt (active ++ [task])) queues' counts' ∧
      ∀ id, id ≠ task.taskId → (counts' id = 0 ↔ m.blockedUsageCounts id = 0) := by
  have hfresh : task.taskId ∉ active.map taskId := by
    rw [map_append] at hnodup
    exact fun hmem => disjoint_of_nodup_append hnodup hmem (by simp)
  have hfreshUsers : ∀ a, task.taskId ∉ taskIds (usersAt active a) :=
    fun a hmem => hfresh ((taskIds_usersAt_sublist active a).subset hmem)
  have hsame : update m.blockedUsageCounts task.taskId 0 = m.blockedUsageCounts := by
    rw [← hcount]
    exact update_eq_self _ _
  have hstart : Consistent capability
      (fun other => m.blockedUsageCounts other.taskId ≠ 0 ∨ other.taskId = task.taskId)
      (active ++ [task]) (usersAt active) m.usageQueues
      (update m.blockedUsageCounts task.taskId 0) := by
    rw [hsame]
    refine ⟨?_, ?_, h.users_nodup, ?_⟩
    · intro a
      obtain ⟨holders, hserv⟩ := h.serves a
      refine ⟨holders, hserv.mono ?_⟩
      intro holder hhold hwait
      have hne := hserv.ne_of_fresh (hfreshUsers a) (mem_append_left _ hhold)
      exact hwait.resolve_right hne.symm
    · intro a usage husage
      obtain ⟨hact, haddr⟩ := h.users_known a usage husage
      exact ⟨mem_append_left _ hact, haddr⟩
    · intro other hother
      rcases mem_append.mp hother with hother | hother
      · exact h.counts_eq other hother
      · obtain rfl := mem_singleton.mp hother
        rw [hcount, blockedUsageCount, eq_comm, countP_eq_zero]
        intro a _ hblocked
        simp only [decide_eq_true_eq] at hblocked
        obtain ⟨usage, husage, heq⟩ := mem_taskIds.mp hblocked
        exact hfreshUsers a (heq ▸ mem_taskIds_of_mem (h.blocked_subset a husage))
  have hlens : ∀ context ∈ task.lockContexts,
      (usersAt active context.usageQueue).length < counterMax := by
    intro context _
    have hle := (taskIds_usersAt_sublist active context.usageQueue).length_le
    simp only [taskIds, length_map] at hle
    exact hle.trans_lt hlen
  have hwaiting : ∀ other ∈ active ++ [task], other ≠ task →
      ((m.blockedUsageCounts other.taskId ≠ 0 ∨ other.taskId = task.taskId) ↔
        m.blockedUsageCounts other.taskId ≠ 0) := by
    intro other hother hne
    have hid : other.taskId ≠ task.taskId :=
      fun heq => hne (eq_of_taskId_eq hnodup hother (by simp) heq)
    simp [hid]
  obtain ⟨queues', counts', count', hloop, hcons, hzero⟩ :=
    hstart.lockContexts hnodup (by simp) task.usageQueue_nodup
      (fun context hctx => mem_map_of_mem hctx)
      (fun context _ => hfreshUsers context.usageQueue) hlens hwaiting
  have husers : (fun a => usersAt active a ++ task.usagesIn task.lockContexts a) =
      usersAt (active ++ [task]) := by
    funext a
    simp [usersAt]
  rw [husers] at hcons
  refine ⟨queues', update counts' task.taskId count', ?_, hcons, ?_⟩
  · -- the count of the task is only stored when it is positive
    by_cases hcount' : count' = 0
    · subst hcount'
      have hstor : update counts' task.taskId 0 = counts' := by
        rw [← (hzero task.taskId).mpr hcount]
        exact update_eq_self _ _
      simp [tryLockUsageQueues, hloop, bind, Except.bind, hstor]
    · simp [tryLockUsageQueues, hloop, bind, Except.bind, hcount']
  · intro id hid
    rw [update_of_ne hid]
    exact hzero id

theorem unlockUsageQueues_spec
    (h : Consistent capability waiting active (usersAt active) m.usageQueues m.blockedUsageCounts)
    (hnodup : (active.map taskId).Nodup) (htask : task ∈ active)
    (hcount : m.blockedUsageCounts task.taskId = 0) (hlen : active.length ≤ counterMax) :
    ∃ queues' counts' released,
      m.unlockUsageQueues task =
        .ok { m with
          usageQueues := queues'
          blockedUsageCounts := counts'
          unblockedTaskQueue := m.unblockedTaskQueue ++ released } ∧
      Consistent capability waiting (active.filter (fun other => other.taskId ≠ task.taskId))
        (usersAt (active.filter (fun other => other.taskId ≠ task.taskId))) queues' counts' ∧
      Releases active m.blockedUsageCounts counts' released := by
  have husage : ∀ context ∈ task.lockContexts,
      (context.requestedUsage, task) ∈ usersAt active context.usageQueue :=
    fun context hctx => mem_usersAt.mpr ⟨htask, hctx⟩
  have hlens : ∀ context ∈ task.lockContexts,
      (usersAt active context.usageQueue).length ≤ counterMax := by
    intro context _
    have hle := (taskIds_usersAt_sublist active context.usageQueue).length_le
    simp only [taskIds, length_map] at hle
    exact hle.trans hlen
  obtain ⟨queues', counts', released, hloop, hcons, hrel⟩ :=
    h.unlockContexts hnodup htask task.usageQueue_nodup husage hcount hlens
  refine ⟨queues', counts', released, hloop, ?_, hrel⟩
  have husers : (fun a => if a ∈ task.lockContexts.map usageQueue
      then withoutTask task.taskId (usersAt active a) else usersAt active a) =
      usersAt (active.filter (fun other => other.taskId ≠ task.taskId)) := by
    funext a
    split
    next => exact withoutTask_usersAt active task.taskId a
    next hnot =>
      rw [← withoutTask_usersAt, withoutTask_eq_self]
      intro hmem
      obtain ⟨usage, husage, heq⟩ := mem_taskIds.mp hmem
      obtain ⟨hact, haddr⟩ := h.users_known a usage husage
      exact hnot (eq_of_taskId_eq hnodup hact htask heq ▸ haddr)
  rw [husers] at hcons
  refine ⟨hcons.serves, ?_, hcons.users_nodup, ?_⟩
  · intro a usage husage
    exact ⟨(mem_usersAt.mp husage).1, (hcons.users_known a usage husage).2⟩
  · exact fun other hother => hcons.counts_eq other (mem_of_mem_filter hother)

end Active

end RakuraiValidator.UnifiedScheduler
