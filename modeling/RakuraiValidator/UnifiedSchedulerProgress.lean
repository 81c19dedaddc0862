import Mathlib.Data.Set.Card
import RakuraiValidator.UnifiedSchedulerHistory

/-!
# Progress

A blocked task waits for a task which was submitted earlier, or which has higher
priority or is runnable.  So some active task is always runnable, no task is
lost, and under priority queueing a task which becomes runnable never overtakes
a conflicting task of higher priority which is still blocked.
-/

namespace RakuraiValidator.UnifiedScheduler

open Traces SchedulingStateMachine Reachable List

variable {α η : Type} [DecidableEq α] [DecidableEq η] {capability : Capability}
  {s : System α η}

namespace SystemInvariant

theorem exists_holder_of_blocked (h : SystemInvariant capability s) {task : Task α η}
    (htask : task ∈ s.active) (hcount : s.machine.blockedUsageCounts task.taskId ≠ 0) :
    ∃ a holders usage, Serves capability
        (fun other => s.machine.blockedUsageCounts other.taskId ≠ 0)
        (s.machine.usageQueues a) (usersAt s.active a) holders
        (s.machine.usageQueues a).blockedUsages ∧
      holders ≠ [] ∧ (usage, task) ∈ (s.machine.usageQueues a).blockedUsages := by
  rw [h.consistent.counts_eq task htask, blockedUsageCount, ne_eq, countP_eq_zero] at hcount
  push Not at hcount
  obtain ⟨a, _, hblocked⟩ := hcount
  simp only [decide_eq_true_eq] at hblocked
  obtain ⟨⟨usage, other⟩, hmem, heq⟩ := mem_taskIds.mp hblocked
  have hother := (h.consistent.users_known a _ (h.consistent.blocked_subset a hmem)).1
  obtain rfl := eq_of_taskId_eq h.active_nodup hother htask heq
  obtain ⟨holders, hserv⟩ := h.consistent.serves a
  refine ⟨a, holders, usage, hserv, ?_, hmem⟩
  intro hnil
  rw [hserv.idle hnil] at hmem
  simp at hmem

theorem head_count_eq_zero (h : SystemInvariant .fifoQueueing s) {task : Task α η}
    {rest : List (Task α η)} (hact : s.active = task :: rest) :
    s.machine.blockedUsageCounts task.taskId = 0 := by
  by_contra hcount
  obtain ⟨a, holders, usage, hserv, hne, hblocked⟩ :=
    h.exists_holder_of_blocked (by simp [hact]) hcount
  have husers := hserv.arrival rfl
  have hctx : LockContext.mk a usage ∈ task.lockContexts :=
    (mem_usersAt.mp (h.consistent.blocked_subset a hblocked)).2
  -- the first user of the address is the oldest task, so it holds the queue
  obtain ⟨first, others, hfirst⟩ := exists_cons_of_ne_nil hne
  have hhead : first.2 = task := by
    have hsplit : usersAt s.active a = task.usagesIn task.lockContexts a ++ usersAt rest a := by
      simp [usersAt, hact]
    have hmem : (usage, task) ∈ task.usagesIn task.lockContexts a :=
      mem_map.mpr ⟨_, mem_filter.mpr ⟨hctx, by simp⟩, rfl⟩
    obtain ⟨used, more, hused⟩ := exists_cons_of_ne_nil (ne_nil_of_mem hmem)
    rw [husers, hfirst, hused, cons_append, cons_append, cons.injEq] at hsplit
    have hmem' : first ∈ task.usagesIn task.lockContexts a := by
      rw [hused, hsplit.1]
      exact mem_cons_self
    obtain ⟨_, _, rfl⟩ := mem_map.mp hmem'
    rfl
  have hnodup := hserv.nodup (h.consistent.users_nodup a)
  rw [taskIds_append] at hnodup
  refine disjoint_of_nodup_append hnodup ?_ (mem_taskIds_of_mem hblocked)
  rw [hfirst, taskIds_cons, hhead]
  exact mem_cons_self

theorem exists_count_eq_zero (h : SystemInvariant .priorityQueueing s) (hact : s.active ≠ []) :
    ∃ task ∈ s.active, s.machine.blockedUsageCounts task.taskId = 0 := by
  obtain ⟨first, hfirst, hleast⟩ := Finset.exists_min_image s.active.toFinset Task.taskId
    (by simpa [Finset.nonempty_iff_ne_empty] using hact)
  rw [mem_toFinset] at hfirst
  by_cases hcount : s.machine.blockedUsageCounts first.taskId = 0
  · exact ⟨first, hfirst, hcount⟩
  · obtain ⟨a, holders, usage, hserv, hne, hblocked⟩ :=
      h.exists_holder_of_blocked hfirst hcount
    obtain ⟨holder, hhold⟩ := exists_mem_of_ne_nil holders hne
    have hmem := hserv.users_perm.mem_iff.mp (mem_append_left _ hhold)
    have hholdAct := (h.consistent.users_known a holder hmem).1
    refine ⟨holder.2, hholdAct, ?_⟩
    by_contra hwait
    have hlt := hserv.before rfl holder hhold hwait _ hblocked
    exact absurd hlt (not_lt.mpr (hleast holder.2 (mem_toFinset.mpr hholdAct)))

theorem exists_runnable (h : SystemInvariant capability s) (hact : s.active ≠ []) :
    s.runnable ≠ [] := by
  obtain ⟨task, htask, hcount⟩ :
      ∃ task ∈ s.active, s.machine.blockedUsageCounts task.taskId = 0 := by
    cases capability with
    | fifoQueueing =>
      obtain ⟨task, rest, hcons⟩ := exists_cons_of_ne_nil hact
      exact ⟨task, by simp [hcons], h.head_count_eq_zero hcons⟩
    | priorityQueueing => exact h.exists_count_eq_zero hact
  exact ne_nil_of_mem ((h.mem_runnable task).mpr ⟨htask, hcount⟩)

end SystemInvariant

/-! ## No deadlock and no lost task -/

variable {task : Task α η}

section

variable (h : Reachable capability s)

include h

theorem Reachable.count_eq_ncard (htask : task ∈ s.submitted) :
    s.machine.blockedUsageCounts task.taskId =
      {a | task.taskId ∈ taskIds (s.machine.usageQueues a).blockedUsages}.ncard := by
  have hinv := h.invariant
  have hblocked : ∀ a, task.taskId ∈ taskIds (s.machine.usageQueues a).blockedUsages →
      task ∈ s.active ∧ a ∈ task.addresses := by
    intro a hmem
    obtain ⟨usage, husage, heq⟩ := mem_taskIds.mp hmem
    obtain ⟨hact, haddr⟩ :=
      hinv.consistent.users_known a usage (hinv.consistent.blocked_subset a husage)
    have hsame := eq_of_taskId_eq h.historyInvariant.submitted_nodup
      (hinv.active_submitted _ hact) htask heq
    exact ⟨hsame ▸ hact, hsame ▸ haddr⟩
  by_cases hact : task ∈ s.active
  · have hset : {a | task.taskId ∈ taskIds (s.machine.usageQueues a).blockedUsages} =
        ((task.addresses.filter (fun a =>
          task.taskId ∈ taskIds (s.machine.usageQueues a).blockedUsages)).toFinset : Set α) := by
      ext a
      simp only [Set.mem_ofPred_eq, coe_toFinset, mem_filter, decide_eq_true_eq]
      exact ⟨fun hmem => ⟨(hblocked a hmem).2, hmem⟩, fun hmem => hmem.2⟩
    rw [hset, Set.ncard_coe_finset, toFinset_card_of_nodup
      (task.addresses_nodup.filter _), hinv.consistent.counts_eq task hact,
      blockedUsageCount, countP_eq_length_filter]
  · have hset : {a | task.taskId ∈ taskIds (s.machine.usageQueues a).blockedUsages} = ∅ := by
      apply Set.eq_empty_of_forall_notMem
      exact fun a hmem => hact (hblocked a hmem).1
    rw [hset, Set.ncard_empty]
    apply hinv.counts_settled
    intro hmem
    obtain ⟨other, hother, heq⟩ := mem_map.mp hmem
    have hsame := eq_of_taskId_eq h.historyInvariant.submitted_nodup
      (hinv.active_submitted _ hother) htask heq
    exact hact (hsame ▸ hother)

theorem Reachable.count_handedOut_eq_one (hidle : s.machine.activeTaskCount = 0)
    (htask : .accepted task ∈ s.history) : s.history.count (.handedOut task) = 1 := by
  have hhist := h.historyInvariant
  have hnil : s.active = [] := by
    rw [h.invariant.accounting.active_eq] at hidle
    exact length_eq_zero_iff.mp hidle
  have hdesch : .descheduled task ∈ s.history := by
    by_contra hnot
    have hmem : task ∈ s.active := by
      rw [hhist.active_eq]
      exact mem_filter.mpr ⟨mem_accepted.mpr htask, by simpa using hnot⟩
    simp [hnil] at hmem
  rw [count_handedOut]
  apply count_eq_one_of_mem hhist.handedOut_nodup
  exact mem_handedOut.mpr ((hhist.handedOut_iff task).mpr (.inr hdesch))

theorem no_deadlock :
    (0 < s.machine.activeTaskCount → s.running ≠ [] ∨ s.machine.unblockedTaskQueue ≠ []) ∧
    (0 < s.machine.activeTaskCount → 0 < s.machine.maxRunningTaskCount →
      s.running ≠ [] ∨ s.machine.hasRunnableTask = true) := by
  have hinv := h.invariant
  have hrunnable : 0 < s.machine.activeTaskCount →
      s.running ≠ [] ∨ s.machine.unblockedTaskQueue ≠ [] := by
    intro hpos
    rw [hinv.accounting.active_eq, length_pos_iff] at hpos
    have hne := hinv.exists_runnable hpos
    unfold System.runnable at hne
    by_contra hnone
    push Not at hnone
    simp [hnone] at hne
  refine ⟨hrunnable, ?_⟩
  intro hpos hmax
  by_cases hnil : s.running = []
  · have hqueue := (hrunnable hpos).resolve_left (not_not.mpr hnil)
    have hzero := hinv.accounting.running_eq
    rw [hnil, length_nil] at hzero
    right
    simp [hasRunnableTask, hasUnblockedTask, isTaskRunnable, hqueue, hzero, hmax]
  · exact .inl hnil

theorem exists_handedOut (hrunnable : s.machine.hasRunnableTask = true)
    (hcounter : s.machine.unblockedTaskCount < counterMax) :
    ∃ task s', s.step .scheduleNextUnblockedTask = .ok s' ∧
      s'.history = s.history ++ [.handedOut task] := by
  have hout := outcome_scheduleNextUnblockedTask h.invariant
  cases hstep : s.step .scheduleNextUnblockedTask with
  | error panic =>
    rw [hstep] at hout
    cases hout with
    | overflow hexhausted => exact absurd hexhausted (not_le.mpr hcounter)
  | ok s' =>
    rw [hstep] at hout
    cases hout with
    | idle hidle => simp [hidle] at hrunnable
    | handedOut _ _ _ _ hhist => exact ⟨_, s', rfl, hhist⟩

end

/-- While tasks are active, one of them runs or can be handed out, and a task which can be is handed
out on request.  Once no task is active, every accepted one has been handed out exactly once. -/
theorem no_deadlock_no_lost_task (h : Reachable capability s) :
    (0 < s.machine.activeTaskCount → s.running ≠ [] ∨ s.machine.unblockedTaskQueue ≠ []) ∧
    (0 < s.machine.activeTaskCount → 0 < s.machine.maxRunningTaskCount →
      s.running ≠ [] ∨ s.machine.hasRunnableTask = true) ∧
    (s.machine.hasRunnableTask = true → s.machine.unblockedTaskCount < counterMax →
      ∃ task s', s.step .scheduleNextUnblockedTask = .ok s' ∧
        s'.history = s.history ++ [.handedOut task]) ∧
    (∀ task ∈ s.submitted, s.machine.blockedUsageCounts task.taskId =
      {a | task.taskId ∈ taskIds (s.machine.usageQueues a).blockedUsages}.ncard) ∧
    (∀ ops s', s.run ops = some s' → s'.machine.activeTaskCount = 0 →
      ∀ task, .accepted task ∈ s.history → s'.history.count (.handedOut task) = 1) := by
  refine ⟨(no_deadlock h).1, (no_deadlock h).2, exists_handedOut h,
    fun task htask => h.count_eq_ncard htask, ?_⟩
  intro ops s' hrun hidle task htask
  exact (h.run hrun).count_handedOut_eq_one hidle (history_subset_of_run h hrun htask)

theorem no_deadlock_no_lost_task_run :
    ∃ s : System ℕ ℕ, Reachable .fifoQueueing s ∧ 0 < s.machine.activeTaskCount ∧
      (s.running ≠ [] ∨ s.machine.unblockedTaskQueue ≠ []) := by
  have hrun : (System.runNew .fifoQueueing (some 8) none sampleOperations).any
      (fun s => 0 < s.machine.activeTaskCount) = true := by
    decide +kernel
  obtain ⟨s, hs, hactive⟩ := (Option.any_eq_true _ _).mp hrun
  have hreachable := runNew hs
  have hpos : 0 < s.machine.activeTaskCount := by simpa using hactive
  exact ⟨s, hreachable, hpos, (no_deadlock_no_lost_task hreachable).1 hpos⟩

/-! ## The priority law of reblocking -/

variable {waiting : Task α η → Prop}

theorem SystemInvariant.lt_of_unblocked (h : SystemInvariant .priorityQueueing s)
    (hserv : ∀ a, ∃ holders, Serves .priorityQueueing waiting (s.machine.usageQueues a)
      (usersAt s.active a) holders (s.machine.usageQueues a).blockedUsages)
    {other : Task α η} (htask : task ∈ s.runnable) (hwaiting : waiting task)
    (hother : other ∈ s.active) (hne : other ≠ task) (hconfl : other.Conflicts task) :
    task.taskId < other.taskId := by
  obtain ⟨⟨a, usage'⟩, hctx', ⟨b, usage⟩, hctx, hqueue, hwrite⟩ := hconfl
  simp only at hqueue hwrite
  subst hqueue
  obtain ⟨holders, hserv⟩ := hserv a
  have hhold := h.mem_holders_of_runnable htask hserv hctx
  have huser : (usage', other) ∈ usersAt s.active a := mem_usersAt.mpr ⟨hother, hctx'⟩
  rcases mem_append.mp (hserv.users_perm.mem_iff.mpr huser) with hmem | hmem
  · exact absurd hwrite (hserv.represents.readonly_of_holders hmem hhold hne)
  · exact hserv.before rfl _ hhold hwaiting _ hmem

/-- When a task becomes runnable, every conflicting task of higher priority which
was submitted before has become runnable before. -/
def RespectsPriority (past : List (Event α η)) (event : Event α η) : Prop :=
  ∀ task, event = .unblocked task → ∀ other, .accepted other ∈ past → other ≠ task →
    other.Conflicts task → other.taskId < task.taskId → .unblocked other ∈ past

variable {s' : System α η}

theorem respectsPriority_new (hhist : HistoryInvariant s)
    (hinv' : SystemInvariant .priorityQueueing s') (hhist' : HistoryInvariant s')
    (hserv : ∀ a, ∃ holders,
      Serves .priorityQueueing waiting (s'.machine.usageQueues a) (usersAt s'.active a) holders
      (s'.machine.usageQueues a).blockedUsages)
    {new : List (Event α η)} (hnew : s'.history = s.history ++ new)
    (hunblocked : ∀ task, .unblocked task ∈ new → task ∈ s'.runnable ∧ waiting task)
    (hdesch : ∀ task, .descheduled task ∈ new → task ∈ s.running) :
    ∀ past event future, new = past ++ event :: future →
      RespectsPriority (s.history ++ past) event := by
  rintro past event future hsplit task rfl other hacc hne hconfl hlower
  obtain ⟨hrunnable, hwaiting⟩ := hunblocked task (by simp [hsplit])
  by_cases hdone : .descheduled other ∈ s'.history
  · refine mem_append_left _ ((hhist.unblocked_iff other).mpr ?_)
    rw [hnew] at hdone
    rcases mem_append.mp hdone with hdone | hdone
    · exact .inr hdone
    · exact .inl (mem_append_left _ (hdesch other hdone))
  · -- otherwise the other task is active, and then it cannot have higher priority
    have hact : other ∈ s'.active := by
      rw [hhist'.active_eq, mem_filter]
      refine ⟨mem_accepted.mpr ?_, by simpa using hdone⟩
      rw [hnew, hsplit, ← append_assoc]
      exact mem_append_left _ hacc
    have hlt := hinv'.lt_of_unblocked hserv hrunnable hwaiting hact hne hconfl
    exact absurd hlower (not_lt.mpr hlt.le)

theorem Causal.respectsPriority_step {op : Operation α η} (h : Reachable .priorityQueueing s)
    (hallow : s.Allowed op) (hout : Outcome .priorityQueueing s op (.ok s'))
    (hcausal : Causal RespectsPriority s.history) : Causal RespectsPriority s'.history := by
  have hhist := h.historyInvariant
  have hhist' := hhist.step h.invariant hallow hout
  have hinv' := hout.invariant h.invariant
  cases hout with
  | dropped _ _ _ _ hnew | handedOut _ _ _ _ hnew =>
    rw [hnew]
    refine hcausal.append ?_
    rintro past event future hsplit task rfl
    have hmem : Event.unblocked task ∈ past ++ .unblocked task :: future := by simp
    rw [← hsplit] at hmem
    simp at hmem
  | @accepted task _ _ queued returned _ hact hrunning hqueue hnew hplaced hserv =>
    rw [hnew]
    refine hcausal.append
      (respectsPriority_new hhist hinv' hhist' hserv hnew ?_ (by simp))
    intro other hother
    have hmem : other ∈ queued ++ returned := by simpa using hother
    rw [hplaced] at hmem
    split at hmem
    next hcount =>
      obtain rfl := mem_singleton.mp hmem
      exact ⟨(hinv'.mem_runnable other).mpr ⟨by simp [hact], hcount⟩, .inr rfl⟩
    next => simp at hmem
  | idle => exact hcausal
  | @descheduled task _ released _ hact hrunning hqueue hnew hrel hserv =>
    rw [hnew]
    refine hcausal.append (respectsPriority_new hhist hinv' hhist' hserv hnew ?_ ?_)
    · intro other hother
      have hmem : other ∈ released := by simpa using hother
      refine ⟨?_, ((hrel.mem_iff other).mp hmem).2.1⟩
      simp [System.runnable, hqueue, hmem]
    · intro other hother
      obtain rfl : other = task := by simpa using hother
      exact hallow

/-- When a task becomes fully unblocked, every other task which was accepted
before, conflicts with it and has higher priority has become fully unblocked
before, whether it is active still or not. -/
theorem priority_law (h : Reachable .priorityQueueing s) {past future : List (Event α η)}
    {task other : Task α η} (hhistory : s.history = past ++ .unblocked task :: future)
    (haccepted : .accepted other ∈ past) (hne : other ≠ task)
    (hconflict : other.Conflicts task) (hlower : other.taskId < task.taskId) :
    .unblocked other ∈ past := by
  have hcausal : Causal RespectsPriority s.history :=
    h.induction_outcome (fun _ _ => causal_nil)
      (fun _ _ _ hreachable hallowed houtcome ih =>
        Causal.respectsPriority_step hreachable hallowed houtcome ih)
  exact hcausal past _ future hhistory task rfl other haccepted hne hconflict hlower

/-- A task over two addresses. -/
def crossingTask : Task ℕ ℕ where
  taskId := 3
  hash := 3
  lockContexts := [⟨0, .writable⟩, ⟨1, .writable⟩]
  usageQueue_nodup := by simp
  lockContexts_length_le := by simp [counterMax]

def overtakingTask : Task ℕ ℕ where
  taskId := 1
  hash := 1
  lockContexts := [⟨1, .writable⟩]
  usageQueue_nodup := by simp
  lockContexts_length_le := by simp [counterMax]

/-- A task holds one address while it waits for another.  A task of higher priority takes the
held address from it. -/
theorem priority_law_overtaking :
    ∃ (s : System ℕ ℕ) (past future : List (Event ℕ ℕ)), Reachable .priorityQueueing s ∧
      s.history = past ++ .unblocked crossingTask :: future ∧ .unblocked overtakingTask ∈ past := by
  have hrun : (System.runNew .priorityQueueing (some 8) (some 8)
      [.scheduleOrBufferTask (sampleTask 2 .writable) false,
        .scheduleOrBufferTask crossingTask false, .scheduleOrBufferTask overtakingTask false,
        .descheduleTask (sampleTask 2 .writable), .descheduleTask overtakingTask]).any
      (fun s => s.history.dropLast ++ [.unblocked crossingTask] = s.history ∧
        .accepted overtakingTask ∈ s.history.dropLast) = true := by
    decide +kernel
  obtain ⟨s, hs, hhistory⟩ := (Option.any_eq_true _ _).mp hrun
  simp only [decide_eq_true_eq] at hhistory
  have hreachable := runNew hs
  exact ⟨s, s.history.dropLast, [], hreachable, hhistory.1.symm,
    priority_law hreachable hhistory.1.symm hhistory.2 (by decide) (by decide) (by decide)⟩

end RakuraiValidator.UnifiedScheduler
