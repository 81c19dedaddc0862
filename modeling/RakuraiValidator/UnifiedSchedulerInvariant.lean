import RakuraiValidator.UnifiedSchedulerSystem

/-!
# Every operation keeps the invariant

The invariant holds of a machine which was just created, and each of the three
operations has one of the outcomes listed in the previous module.  So every
reachable system satisfies the invariant, and an allowed operation can only
stop because one of two counters is exhausted.
-/

namespace RakuraiValidator.UnifiedScheduler

open SchedulingStateMachine ShortCounter List UnifiedScheduler.System

attribute [local simp] SchedulingStateMachine.scheduleNextUnblockedTask System.initial Except.bind
  isTaskRunnable increment System.step newlyQueued bind SchedulingStateMachine.scheduleOrBufferTask
  SchedulingStateMachine.descheduleTask runnable

variable {α η : Type} [DecidableEq α] [DecidableEq η] {capability : Capability}

theorem SystemInvariant.initial {maxRunningTaskCount maxUniqueActiveTaskCount : Option ℕ}
    {machine : SchedulingStateMachine α η}
    (hmach : exclusivelyInitialize capability
      maxRunningTaskCount maxUniqueActiveTaskCount = .ok machine) :
    SystemInvariant capability (System.initial machine) := by
  simp only [exclusivelyInitialize] at hmach
  split at hmach
  next hmax =>
    cases hmach
    refine ⟨?_, ?_, by simp, by simp, ?_, ?_, ?_⟩
    · constructor <;> simp [counterMax] at *
      exact hmax
    · refine ⟨?_, ?_, ?_, ?_⟩
      · exact fun a => ⟨[], Serves.new _ _⟩
      · simp [usersAt]
      · simp [usersAt]
      · simp
    · simp
    · simp
    · simp
  next => contradiction

variable {s : System α η} {s' : System α η} (h : SystemInvariant capability s)

include h in
theorem SystemInvariant.transfer (hacctg : Accounting s')
    (hqueues : s'.machine.usageQueues = s.machine.usageQueues)
    (hcounts : s'.machine.blockedUsageCounts = s.machine.blockedUsageCounts)
    (hact : s'.active = s.active) (hrunnable : s'.runnable = s.runnable)
    (hsubmitted : s.submitted ⊆ s'.submitted) : SystemInvariant capability s' where
  accounting := hacctg
  consistent := by
    rw [hqueues, hcounts, hact]
    exact h.consistent
  active_nodup := hact ▸ h.active_nodup
  counts_settled := by
    rw [hact, hcounts]
    exact h.counts_settled
  runnable_nodup := hrunnable ▸ h.runnable_nodup
  mem_runnable := by
    rw [hrunnable, hact, hcounts]
    exact h.mem_runnable
  active_submitted := fun task htask => hsubmitted (h.active_submitted task (hact ▸ htask))

/-! ## Handing out the next task -/

include h in
theorem outcome_scheduleNextUnblockedTask :
    Outcome capability s .scheduleNextUnblockedTask (s.step .scheduleNextUnblockedTask) := by
  by_cases hrunnable : s.machine.runningTaskCount < s.machine.maxRunningTaskCount
  · cases hqueue : s.machine.unblockedTaskQueue with
    | nil =>
      have hstep : s.step .scheduleNextUnblockedTask = .ok s := by
        simp [hrunnable, hqueue]
      rw [hstep]
      exact .idle (by simp [hasRunnableTask,
        hasUnblockedTask, hqueue])
    | cons task rest =>
      have hrunning : s.machine.runningTaskCount < counterMax :=
        hrunnable.trans_le h.accounting.maxRunning_le
      by_cases hunblocked : s.machine.unblockedTaskCount < counterMax
      · have hstep : s.step .scheduleNextUnblockedTask = .ok
            { s with
              machine := { s.machine with
                unblockedTaskQueue := rest
                runningTaskCount := s.machine.runningTaskCount + 1
                unblockedTaskCount := s.machine.unblockedTaskCount + 1 }
              running := s.running ++ [task]
              history := s.history ++ [.handedOut task] } := by
          simp [hrunnable, hqueue, hrunning, hunblocked]
        rw [hstep]
        refine .handedOut (h.transfer ?_ rfl rfl rfl ?_ ?_) rfl rfl hqueue rfl rfl rfl
        · have hacctg := h.accounting
          exact { hacctg with
            running_eq := by simp [hacctg.running_eq]
            running_le := hrunnable }
        · simp [hqueue]
        · simp [submitted]
      · have hstep : s.step .scheduleNextUnblockedTask = .error .counterOverflow := by
          simp [hrunnable, hqueue, hrunning, hunblocked]
        rw [hstep]
        exact .overflow (not_lt.mp hunblocked)
  · have hstep : s.step .scheduleNextUnblockedTask = .ok s := by
      simp [hrunnable]
    rw [hstep]
    exact .idle (by simp [hasRunnableTask, hrunnable])

/-! ## Descheduling a task -/

/-- The machine in the middle of `deschedule_task`, when only the accounts have
been changed. -/
def SchedulingStateMachine.settle (m : SchedulingStateMachine α η) (task : Task α η) :
    SchedulingStateMachine α η :=
  { m with
    runningTaskCount := m.runningTaskCount - 1
    uniqueActiveTaskHashes := m.uniqueActiveTaskHashes.erase task.hash
    activeTaskCount := m.activeTaskCount - 1
    handledTaskCount := m.handledTaskCount + 1 }

variable {queues : α → UsageQueueInner α η} {counts : BlockedUsageCounts} {queue : List (Task α η)}

variable {task : Task α η}

namespace SystemInvariant

section

variable (h : SystemInvariant capability s)

include h

theorem running_subset (htask : task ∈ s.running) :
    task ∈ s.active ∧ s.machine.blockedUsageCounts task.taskId = 0 :=
  (h.mem_runnable task).mp (mem_append_left _ htask)

theorem running_nodup : (s.running.map Task.taskId).Nodup := by
  have hnodup := h.runnable_nodup
  unfold runnable at hnodup
  refine List.Nodup.map_on ?_ hnodup.of_append_left
  intro x hx y hy heq
  exact eq_of_taskId_eq h.active_nodup (h.running_subset hx).1 (h.running_subset hy).1 heq

theorem descheduleTask_eq (htask : task ∈ s.running) :
    s.machine.descheduleTask task = (s.machine.settle task).unlockUsageQueues task := by
  have hact := (h.running_subset htask).1
  have hrunNe : s.machine.runningTaskCount ≠ 0 := by
    rw [h.accounting.running_eq]
    exact length_pos_iff.mpr (ne_nil_of_mem htask) |>.ne'
  have hactNe : s.machine.activeTaskCount ≠ 0 := by
    rw [h.accounting.active_eq]
    exact length_pos_iff.mpr (ne_nil_of_mem hact) |>.ne'
  have hhandled : s.machine.handledTaskCount < counterMax := by
    have htot := h.accounting.total_eq
    have hle := h.accounting.total_le
    omega
  cases hcap : s.machine.maxUniqueActiveTaskCount with
  | none =>
    have hhash := h.accounting.hashes_uncapped hcap
    simp [removeTaskHash, decrement, hrunNe, hactNe, hhandled, hcap, settle, hhash]
  | some cap =>
    have hmem : task.hash ∈ s.machine.uniqueActiveTaskHashes := by
      rw [(h.accounting.hashes_capped cap hcap).2, mem_toFinset]
      exact mem_map_of_mem hact
    simp [removeTaskHash, decrement, hrunNe, hactNe, hhandled, hcap, settle, hmem]

theorem accounting_descheduled (htask : task ∈ s.running)
    (hact : s'.active = s.active.filter (fun other => other.taskId ≠ task.taskId))
    (hrunning : s'.running = s.running.filter (fun other => other.taskId ≠ task.taskId))
    (hmach : s'.machine = { s.machine.settle task with
      usageQueues := queues, blockedUsageCounts := counts, unblockedTaskQueue := queue }) :
    Accounting s' := by
  have htaskAct := (h.running_subset htask).1
  have hactPerm := perm_cons_filter_ne Task.taskId htaskAct h.active_nodup
  have hrunPerm := perm_cons_filter_ne Task.taskId htask h.running_nodup
  have hactLen := hactPerm.length_eq
  have hrunLen := hrunPerm.length_eq
  rw [length_cons, ← hact] at hactLen
  rw [length_cons, ← hrunning] at hrunLen
  have hacctg := h.accounting
  have hactEq := hacctg.active_eq
  have hrunEq := hacctg.running_eq
  have hrunLe := hacctg.running_le
  have htot := hacctg.total_eq
  refine ⟨?_, ?_, ?_, ?_, ?_, ?_, ?_, ?_⟩ <;>
    rw [hmach] <;> simp only [settle]
  · omega
  · omega
  · omega
  · exact hacctg.maxRunning_le
  · omega
  · exact hacctg.total_le
  · intro hcap
    rw [hacctg.hashes_uncapped hcap]
    rfl
  · intro cap hcap
    obtain ⟨hnodup, hhash⟩ := hacctg.hashes_capped cap hcap
    have hhashPerm := hactPerm.map Task.hash
    rw [map_cons, ← hact] at hhashPerm
    have hnodup' := hhashPerm.nodup_iff.mp hnodup
    rw [nodup_cons] at hnodup'
    refine ⟨hnodup'.2, ?_⟩
    rw [hhash, toFinset_eq_of_perm _ _ hhashPerm, toFinset_cons,
      Finset.erase_insert (by simpa using hnodup'.1)]

end

variable {counts' : BlockedUsageCounts} {released : List (Task α η)}

theorem runnable_nodup_descheduled (h : SystemInvariant capability s)
    (hrel : Releases s.active s.machine.blockedUsageCounts counts' released) :
    (s.running.filter (fun other => other.taskId ≠ task.taskId) ++
      (s.machine.unblockedTaskQueue ++ released)).Nodup := by
  have hreleased : (s.runnable ++ released).Nodup := by
    refine nodup_append'.mpr ⟨h.runnable_nodup, hrel.nodup, ?_⟩
    intro other hother hreleased
    exact ((hrel.mem_iff other).mp hreleased).2.1 ((h.mem_runnable other).mp hother).2
  unfold runnable at hreleased
  rw [append_assoc] at hreleased
  exact hreleased.sublist (filter_sublist.append_right _)

theorem mem_runnable_descheduled (h : SystemInvariant capability s) (htask : task ∈ s.running)
    (hrel : Releases s.active s.machine.blockedUsageCounts counts' released)
    (other : Task α η) :
    other ∈ s.running.filter (fun other => other.taskId ≠ task.taskId) ++
        (s.machine.unblockedTaskQueue ++ released) ↔
      other ∈ s.active.filter (fun other => other.taskId ≠ task.taskId) ∧
        counts' other.taskId = 0 := by
  have hle := hrel.le other.taskId
  have hrunnable := h.mem_runnable other
  simp only [runnable, mem_append] at hrunnable
  simp only [mem_append, mem_filter, decide_eq_true_eq, hrel.mem_iff]
  constructor
  · rintro (⟨hrunning, hne⟩ | hqueued | ⟨hact, hne, hzero⟩)
    · obtain ⟨hact, hzero⟩ := hrunnable.mp (.inl hrunning)
      exact ⟨⟨hact, hne⟩, by omega⟩
    · obtain ⟨hact, hzero⟩ := hrunnable.mp (.inr hqueued)
      refine ⟨⟨hact, ?_⟩, by omega⟩
      -- a task which runs is not in the unblocked task queue
      intro heq
      have hsame := eq_of_taskId_eq h.active_nodup hact (h.running_subset htask).1 heq
      have hnodup := h.runnable_nodup
      unfold runnable at hnodup
      exact disjoint_of_nodup_append hnodup htask (hsame ▸ hqueued)
    · refine ⟨⟨hact, ?_⟩, hzero⟩
      intro heq
      exact hne (heq ▸ (h.running_subset htask).2)
  · rintro ⟨⟨hact, hne⟩, hzero⟩
    by_cases hbefore : s.machine.blockedUsageCounts other.taskId = 0
    · rcases hrunnable.mpr ⟨hact, hbefore⟩ with hrunning | hqueued
      · exact .inl ⟨hrunning, hne⟩
      · exact .inr (.inl hqueued)
    · exact .inr (.inr ⟨hact, hbefore, hzero⟩)

end SystemInvariant

include h in
theorem outcome_descheduleTask (htask : task ∈ s.running) :
    Outcome capability s (.descheduleTask task) (s.step (.descheduleTask task)) := by
  obtain ⟨htaskAct, htaskCount⟩ := h.running_subset htask
  have hlen : s.active.length ≤ counterMax := by
    have hact := h.accounting.active_eq
    have htot := h.accounting.total_eq
    have hle := h.accounting.total_le
    omega
  obtain ⟨queues', counts', released, hunlock, hcons, hrel⟩ :=
    unlockUsageQueues_spec (m := s.machine.settle task) h.consistent h.active_nodup
      htaskAct htaskCount hlen
  have hrel' : Releases s.active s.machine.blockedUsageCounts counts' released := hrel
  have hstep : s.step (.descheduleTask task) = .ok
      { machine := { s.machine.settle task with
          usageQueues := queues'
          blockedUsageCounts := counts'
          unblockedTaskQueue := s.machine.unblockedTaskQueue ++ released }
        active := s.active.filter (fun other => other.taskId ≠ task.taskId)
        running := s.running.filter (fun other => other.taskId ≠ task.taskId)
        history := s.history ++ .descheduled task :: released.map .unblocked } := by
    simp only [step, h.descheduleTask_eq htask, hunlock, bind, Except.bind]
    simp [settle]
  rw [hstep]
  refine .descheduled ?_ rfl rfl rfl rfl hrel' hcons.serves rfl rfl
  have hcountsLe := hrel'.le
  refine ⟨h.accounting_descheduled htask rfl rfl rfl, ?_, ?_, ?_, ?_, ?_, ?_⟩
  · refine ⟨?_, hcons.users_known, hcons.users_nodup, hcons.counts_eq⟩
    intro a
    obtain ⟨holders, hserv⟩ := hcons.serves a
    refine ⟨holders, hserv.mono ?_⟩
    intro holder _ hne hzero
    exact hne (Nat.le_zero.mp ((hcountsLe holder.2.taskId).trans hzero.le))
  · exact h.active_nodup.sublist (filter_sublist.map _)
  · intro id hid
    refine Nat.le_zero.mp ((hcountsLe id).trans ?_)
    by_cases heq : id = task.taskId
    · exact (heq ▸ htaskCount).le
    · refine (h.counts_settled id ?_).le
      intro hmem
      obtain ⟨other, hother, rfl⟩ := mem_map.mp hmem
      exact hid (mem_map_of_mem (mem_filter.mpr ⟨hother, by simpa using heq⟩))
  · exact h.runnable_nodup_descheduled hrel'
  · exact h.mem_runnable_descheduled htask hrel'
  · intro other hother
    have hmem := h.active_submitted other (mem_of_mem_filter hother)
    simp only [submitted, filterMap_append, mem_append] at hmem ⊢
    exact .inl hmem

/-! ## Scheduling or buffering a task -/

/-- The machine in the middle of `schedule_or_buffer_task`, when an admitted task
has been counted. -/
def SchedulingStateMachine.withTask (m : SchedulingStateMachine α η) (task : Task α η) :
    SchedulingStateMachine α η :=
  { m with
    totalTaskCount := m.totalTaskCount + 1
    uniqueActiveTaskHashes :=
      if m.maxUniqueActiveTaskCount.isSome then insert task.hash m.uniqueActiveTaskHashes
      else m.uniqueActiveTaskHashes
    activeTaskCount := m.activeTaskCount + 1
    peakActiveTaskCount := max m.peakActiveTaskCount (m.activeTaskCount + 1) }

attribute [local simp] withTask

variable {m : SchedulingStateMachine α η}

theorem scheduleOrBufferTask_admitted
    (forceBuffering : Bool) (htot : m.totalTaskCount < counterMax)
    (hact : m.activeTaskCount < counterMax) (hdrop : m.isDropped task = false) :
    m.scheduleOrBufferTask task forceBuffering = (do
      let (m, locked) ← (m.withTask task).tryLockUsageQueues task
      match locked with
      | none => .ok (m, none)
      | some task => m.runOrBuffer task forceBuffering) := by
  have hdrop' : isDropped
      { m with totalTaskCount := m.totalTaskCount + 1 } task = false := hdrop
  have hins : insertTaskHash
      { m with totalTaskCount := m.totalTaskCount + 1 } task =
      { m with
        totalTaskCount := m.totalTaskCount + 1
        uniqueActiveTaskHashes :=
          if m.maxUniqueActiveTaskCount.isSome then insert task.hash m.uniqueActiveTaskHashes
          else m.uniqueActiveTaskHashes } := by
    cases hcap : m.maxUniqueActiveTaskCount <;>
      simp [insertTaskHash]
  simp only [scheduleOrBufferTask, increment, htot,
    if_true, bind, Except.bind, hdrop', hins, scheduleAdmitted,
    hact]
  rfl

omit [DecidableEq α] [DecidableEq η] in
theorem runOrBuffer_buffered {forceBuffering : Bool}
    (hbuffer : (!m.isTaskRunnable || forceBuffering) = true) (task : Task α η) :
    m.runOrBuffer task forceBuffering =
      if m.unblockedTaskCount < counterMax then
        .ok ({ m with
          unblockedTaskCount := m.unblockedTaskCount + 1
          unblockedTaskQueue := m.unblockedTaskQueue ++ [task] }, none)
      else .error .counterOverflow := by
  unfold runOrBuffer increment
  rw [if_pos hbuffer]
  split <;> rfl

namespace SystemInvariant

variable (h : SystemInvariant capability s)

include h

theorem fresh_of_allowed (hfresh : task.taskId ∉ s.submitted.map Task.taskId) :
    task.taskId ∉ s.active.map Task.taskId := by
  intro hmem
  obtain ⟨other, hother, heq⟩ := mem_map.mp hmem
  exact hfresh (mem_map.mpr ⟨other, h.active_submitted other hother, heq⟩)

theorem accounting_accepted (htot : s.machine.totalTaskCount < counterMax)
    (hdrop : s.machine.isDropped task = false) (hact : s'.active = s.active ++ [task])
    {running unblocked : ℕ}
    (hmach : s'.machine = { s.machine.withTask task with
      usageQueues := queues, blockedUsageCounts := counts, unblockedTaskQueue := queue
      runningTaskCount := running, unblockedTaskCount := unblocked })
    (hrunning : running = s'.running.length)
    (hrunLe : running ≤ s.machine.maxRunningTaskCount) : Accounting s' := by
  have hacctg := h.accounting
  have hactEq := hacctg.active_eq
  have htotEq := hacctg.total_eq
  refine ⟨?_, ?_, ?_, ?_, ?_, ?_, ?_, ?_⟩ <;>
    rw [hmach] <;> simp only [withTask]
  · rw [hact, length_append, length_singleton]
    omega
  · exact hrunning
  · exact hrunLe
  · exact hacctg.maxRunning_le
  · omega
  · exact htot
  · intro hcap
    rw [hcap]
    exact hacctg.hashes_uncapped hcap
  · intro cap hcap
    obtain ⟨hnodup, hhash⟩ := hacctg.hashes_capped cap hcap
    have hfresh : task.hash ∉ s.machine.uniqueActiveTaskHashes := by
      unfold isDropped at hdrop
      rw [hcap] at hdrop
      simp only [Bool.or_eq_false_iff, decide_eq_false_iff_not] at hdrop
      exact hdrop.2
    have hperm : (s'.active.map Task.hash).Perm (task.hash :: s.active.map Task.hash) := by
      rw [hact, map_append]
      exact perm_append_singleton _ _
    refine ⟨hperm.nodup_iff.mpr (nodup_cons.mpr ⟨?_, hnodup⟩), ?_⟩
    · rw [hhash, mem_toFinset] at hfresh
      exact hfresh
    · rw [hcap, toFinset_eq_of_perm _ _ hperm, toFinset_cons, hhash]
      rfl

theorem of_accepted (hfresh : task.taskId ∉ s.active.map Task.taskId) {waiting : Task α η → Prop}
    (hacctg : Accounting s') (hact : s'.active = s.active ++ [task])
    (hcons : Consistent capability waiting s'.active (usersAt s'.active)
      s'.machine.usageQueues s'.machine.blockedUsageCounts)
    (hwait : ∀ other ∈ s'.active, s'.machine.blockedUsageCounts other.taskId ≠ 0 → waiting other)
    (hzero : ∀ id, id ≠ task.taskId → (s'.machine.blockedUsageCounts id = 0 ↔
      s.machine.blockedUsageCounts id = 0))
    (hrunnable : s'.runnable.Perm (s.runnable ++ if s'.machine.blockedUsageCounts task.taskId =
      0 then [task] else []))
    (hsubmitted : s'.submitted = s.submitted ++ [task]) : SystemInvariant capability s' where
  accounting := hacctg
  consistent := by
    refine ⟨?_, hcons.users_known, hcons.users_nodup, hcons.counts_eq⟩
    intro a
    obtain ⟨holders, hserv⟩ := hcons.serves a
    refine ⟨holders, hserv.mono ?_⟩
    intro holder hhold hne
    have hmem := hserv.users_perm.mem_iff.mp (mem_append_left _ hhold)
    exact hwait holder.2 (mem_usersAt.mp hmem).1 hne
  active_nodup := by
    rw [hact, map_append]
    exact nodup_append_comm.mp (nodup_cons.mpr ⟨hfresh, h.active_nodup⟩)
  counts_settled := by
    intro id hid
    rw [hact, map_append, mem_append, not_or] at hid
    have hne : id ≠ task.taskId := by simpa using hid.2
    exact (hzero id hne).mpr (h.counts_settled id hid.1)
  runnable_nodup := by
    rw [hrunnable.nodup_iff]
    refine nodup_append'.mpr ⟨h.runnable_nodup, by split <;> simp, ?_⟩
    intro other hother hnew
    have hsame : other = task := by
      split at hnew
      · simpa using hnew
      · simp at hnew
    exact hfresh (mem_map.mpr ⟨other, ((h.mem_runnable other).mp hother).1, hsame ▸ rfl⟩)
  mem_runnable := by
    intro other
    rw [hrunnable.mem_iff, mem_append, h.mem_runnable, hact, mem_append, mem_singleton]
    have hmember : other ∈ (if s'.machine.blockedUsageCounts task.taskId = 0 then [task] else []) ↔
        other = task ∧ s'.machine.blockedUsageCounts task.taskId = 0 := by
      split <;> simp_all
    rw [hmember]
    constructor
    · rintro (⟨hmem, hcount⟩ | ⟨rfl, hcount⟩)
      · have hne : other.taskId ≠ task.taskId :=
          fun heq => hfresh (heq ▸ mem_map_of_mem hmem)
        exact ⟨.inl hmem, (hzero _ hne).mpr hcount⟩
      · exact ⟨.inr rfl, hcount⟩
    · rintro ⟨hmem | rfl, hcount⟩
      · have hne : other.taskId ≠ task.taskId :=
          fun heq => hfresh (heq ▸ mem_map_of_mem hmem)
        exact .inl ⟨hmem, (hzero _ hne).mp hcount⟩
      · exact .inr ⟨rfl, hcount⟩
  active_submitted := by
    intro other hother
    rw [hsubmitted]
    rw [hact] at hother
    rcases mem_append.mp hother with hother | hother
    · exact mem_append_left _ (h.active_submitted other hother)
    · exact mem_append_right _ hother

end SystemInvariant

section

variable (h : SystemInvariant capability s)

include h

variable (forceBuffering : Bool)

theorem outcome_accepted (hfresh : task.taskId ∉ s.active.map Task.taskId)
    (htot : s.machine.totalTaskCount < counterMax) (hdrop : s.machine.isDropped task = false) :
    Outcome capability s (.scheduleOrBufferTask task forceBuffering)
      (s.step (.scheduleOrBufferTask task forceBuffering)) := by
  have hacctg := h.accounting
  have hactEq := hacctg.active_eq
  have htotEq := hacctg.total_eq
  have hactLt : s.machine.activeTaskCount < counterMax := by omega
  have hnodup : ((s.active ++ [task]).map Task.taskId).Nodup := by
    rw [map_append]
    exact nodup_append_comm.mp (nodup_cons.mpr ⟨hfresh, h.active_nodup⟩)
  obtain ⟨queues', counts', hlock, hcons, hzero⟩ :=
    tryLockUsageQueues_spec (m := s.machine.withTask task) h.consistent hnodup
      (h.counts_settled _ hfresh) (by omega)
  have hsched := scheduleOrBufferTask_admitted forceBuffering htot hactLt hdrop
  simp only [hlock, bind, Except.bind] at hsched
  have hwait : ∀ other ∈ s.active ++ [task], counts' other.taskId ≠ 0 →
      s.machine.blockedUsageCounts other.taskId ≠ 0 ∨ other.taskId = task.taskId := by
    intro other _ hne
    by_cases hid : other.taskId = task.taskId
    · exact .inr hid
    · exact .inl (fun hcount => hne ((hzero _ hid).mpr hcount))
  -- the three ways to go on differ in where the task is put
  have hfinish : ∀ (queued returned : List (Task α η)) (running unblocked : ℕ),
      queued ++ returned = (if counts' task.taskId = 0 then [task] else []) →
      running = (s.running ++ returned).length → running ≤ s.machine.maxRunningTaskCount →
      s.step (.scheduleOrBufferTask task forceBuffering) = .ok
        { machine := { s.machine.withTask task with
            usageQueues := queues'
            blockedUsageCounts := counts'
            unblockedTaskQueue := s.machine.unblockedTaskQueue ++ queued
            runningTaskCount := running
            unblockedTaskCount := unblocked }
          active := s.active ++ [task]
          running := s.running ++ returned
          history := s.history ++ .accepted task ::
            ((queued ++ returned).map .unblocked ++ returned.map .handedOut) } →
      Outcome capability s (.scheduleOrBufferTask task forceBuffering)
        (s.step (.scheduleOrBufferTask task forceBuffering)) := by
    intro queued returned running unblocked hnew hrunning hrunLe hstep
    rw [hstep]
    refine .accepted (h.of_accepted hfresh ?_ rfl hcons hwait hzero ?_ ?_) rfl rfl rfl
      rfl hnew hcons.serves
    · exact h.accounting_accepted htot hdrop rfl rfl hrunning hrunLe
    · simp only [runnable, append_assoc]
      refine List.Perm.append_left _ ?_
      rw [← hnew]
      exact perm_append_comm.trans (by rw [append_assoc])
    · simp [submitted, Event.submission, Function.comp_def]
  by_cases hcount : counts' task.taskId = 0
  · rw [if_pos hcount] at hsched
    by_cases hrun : s.machine.runningTaskCount < s.machine.maxRunningTaskCount ∧
        forceBuffering = false
    · obtain ⟨hrunnable, rfl⟩ := hrun
      have hrunning : s.machine.runningTaskCount < counterMax :=
        hrunnable.trans_le hacctg.maxRunning_le
      refine hfinish [] [task] (s.machine.runningTaskCount + 1) s.machine.unblockedTaskCount
        (by simp [hcount]) (by simp [hacctg.running_eq]) hrunnable ?_
      simp only [step, hsched, bind, Except.bind]
      simp [runOrBuffer, hrunnable, hrunning]
    · have hbuffer : (!s.machine.isTaskRunnable || forceBuffering) = true := by
        cases forceBuffering with
        | false => simpa using hrun
        | true => simp
      have hsched' := hsched.trans (runOrBuffer_buffered (m := { s.machine.withTask task with
        usageQueues := queues', blockedUsageCounts := counts' }) hbuffer task)
      by_cases hunblocked : s.machine.unblockedTaskCount < counterMax
      · rw [if_pos (by exact hunblocked)] at hsched'
        refine hfinish [task] [] s.machine.runningTaskCount (s.machine.unblockedTaskCount + 1)
          (by simp [hcount]) (by simp [hacctg.running_eq]) hacctg.running_le ?_
        simp only [step, hsched', bind, Except.bind]
        simp
      · rw [if_neg (by exact hunblocked)] at hsched'
        have hstep : s.step (.scheduleOrBufferTask task forceBuffering) =
            .error .counterOverflow := by
          simp only [step, hsched', bind, Except.bind]
        rw [hstep]
        exact .overflow (.inr (not_lt.mp hunblocked))
  · rw [if_neg hcount] at hsched
    refine hfinish [] [] s.machine.runningTaskCount s.machine.unblockedTaskCount
      (by simp [hcount]) (by simp [hacctg.running_eq]) hacctg.running_le ?_
    simp only [step, hsched, bind, Except.bind]
    simp

theorem outcome_dropped (htot : s.machine.totalTaskCount < counterMax)
    (hdrop : s.machine.isDropped task = true) :
    Outcome capability s (.scheduleOrBufferTask task forceBuffering)
      (s.step (.scheduleOrBufferTask task forceBuffering)) := by
  have hacctg := h.accounting
  have htotEq := hacctg.total_eq
  have hdropLt : s.machine.droppedTaskCount < counterMax := by omega
  have hdrop' : isDropped
      { s.machine with totalTaskCount := s.machine.totalTaskCount + 1 } task = true := hdrop
  have hstep : s.step (.scheduleOrBufferTask task forceBuffering) = .ok
      { s with
        machine := { s.machine with
          totalTaskCount := s.machine.totalTaskCount + 1
          droppedTaskCount := s.machine.droppedTaskCount + 1 }
        history := s.history ++ [.dropped task] } := by
    simp [hdrop', dropTask, htot, hdropLt]
  rw [hstep]
  refine .dropped (h.transfer ?_ rfl rfl rfl rfl ?_) rfl rfl rfl rfl
  · exact { hacctg with
      total_eq := by simp only; omega
      total_le := htot }
  · simp [submitted]

theorem outcome_scheduleOrBufferTask (hfresh : task.taskId ∉ s.submitted.map Task.taskId) :
    Outcome capability s (.scheduleOrBufferTask task forceBuffering)
      (s.step (.scheduleOrBufferTask task forceBuffering)) := by
  by_cases htot : s.machine.totalTaskCount < counterMax
  · cases hdrop : s.machine.isDropped task with
    | true => exact outcome_dropped h forceBuffering htot hdrop
    | false =>
      exact outcome_accepted h forceBuffering (h.fresh_of_allowed hfresh) htot hdrop
  · have hstep : s.step (.scheduleOrBufferTask task forceBuffering) = .error .counterOverflow := by
      simp [htot]
    rw [hstep]
    exact .overflow (.inl (not_lt.mp htot))

end

/-! ## Whole runs -/

variable {op : Operation α η}

include h in
theorem outcome (hallow : s.Allowed op) : Outcome capability s op (s.step op) := by
  cases op with
  | scheduleOrBufferTask task forceBuffering =>
    exact outcome_scheduleOrBufferTask h forceBuffering hallow
  | scheduleNextUnblockedTask => exact outcome_scheduleNextUnblockedTask h
  | descheduleTask task => exact outcome_descheduleTask h hallow

include h in
theorem Outcome.invariant (hout : Outcome capability s op (.ok s')) :
    SystemInvariant capability s' := by
  cases hout with
  | dropped hinv | accepted hinv | handedOut hinv | descheduled hinv =>
    exact hinv
  | idle => exact h

theorem Reachable.invariant (h : Reachable capability s) : SystemInvariant capability s := by
  induction h with
  | initial hmach => exact SystemInvariant.initial hmach
  | step _ hallow hstep ih =>
    have hout := outcome ih hallow
    rw [hstep] at hout
    exact hout.invariant ih

end RakuraiValidator.UnifiedScheduler
