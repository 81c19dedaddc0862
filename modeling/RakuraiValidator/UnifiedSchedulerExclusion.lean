import RakuraiValidator.UnifiedSchedulerInvariant

/-!
# Safety of the usage queues

Runnable tasks hold all their usages, and the holders of a queue are
compatible.  So conflicting tasks never run side by side, and the queues stay in
the states which the assertions of the source describe.
-/

namespace RakuraiValidator.UnifiedScheduler

variable {α η : Type} [DecidableEq α] [DecidableEq η] {capability : Capability}
  {s : System α η} {task : Task α η}

namespace SystemInvariant

theorem mem_holders_of_runnable (h : SystemInvariant capability s) (htask : task ∈ s.runnable)
    {a : α} {waiting : Task α η → Prop} {holders : List (UsageFromTask α η)}
    (hserv : Serves capability waiting (s.machine.usageQueues a) (usersAt s.active a) holders
      (s.machine.usageQueues a).blockedUsages)
    {usage : RequestedUsage} (hctx : LockContext.mk a usage ∈ task.lockContexts) :
    (usage, task) ∈ holders := by
  obtain ⟨hact, hcount⟩ := (h.mem_runnable task).mp htask
  have hmem : (usage, task) ∈ usersAt s.active a := mem_usersAt.mpr ⟨hact, hctx⟩
  rcases List.mem_append.mp (hserv.users_perm.mem_iff.mpr hmem) with hhold | hblocked
  · exact hhold
  · have hzero := (h.consistent.counts_eq task hact).symm.trans hcount
    exact absurd (mem_taskIds_of_mem hblocked)
      (not_mem_blocked_of_count_eq_zero hzero (List.mem_map_of_mem hctx))

end SystemInvariant

/-! ## Mutual exclusion -/

def sampleTask (taskId : ℕ) (usage : RequestedUsage) : Task ℕ ℕ where
  taskId := taskId
  hash := taskId
  lockContexts := [⟨0, usage⟩]
  usageQueue_nodup := by simp
  lockContexts_length_le := by simp [counterMax]

/-- A writer runs, a reader and a reader of higher priority wait for it, and then
the writer is descheduled. -/
def sampleOperations : List (Operation ℕ ℕ) :=
  [.scheduleOrBufferTask (sampleTask 2 .writable) false,
    .scheduleOrBufferTask (sampleTask 3 .readonly) false,
    .scheduleOrBufferTask (sampleTask 1 .readonly) false,
    .descheduleTask (sampleTask 2 .writable)]

/-- Two tasks which run, or which can be handed out, do not conflict. -/
theorem mutual_exclusion (h : Reachable capability s) {task other : Task α η}
    (htask : task ∈ s.running ++ s.machine.unblockedTaskQueue)
    (hother : other ∈ s.running ++ s.machine.unblockedTaskQueue) (hne : task ≠ other) :
    ¬ task.Conflicts other := by
  rintro ⟨⟨a, usage⟩, hcontext, ⟨b, usage'⟩, hcontext', hqueue, hwrite⟩
  simp only at hqueue hwrite
  subst hqueue
  have hinvariant := h.invariant
  obtain ⟨holders, hserves⟩ := hinvariant.consistent.serves a
  exact hserves.represents.readonly_of_holders
    (hinvariant.mem_holders_of_runnable htask hserves hcontext)
    (hinvariant.mem_holders_of_runnable hother hserves hcontext') hne hwrite

theorem mutual_exclusion_readers :
    ∃ s, Reachable .priorityQueueing s ∧
      (sampleTask 1 .readonly ∈ s.running ++ s.machine.unblockedTaskQueue ∧
        sampleTask 3 .readonly ∈ s.running ++ s.machine.unblockedTaskQueue) ∧
      ¬ (sampleTask 1 .readonly).Conflicts (sampleTask 3 .readonly) := by
  have hrun : (System.runNew .priorityQueueing (some 8) (some 8) sampleOperations).any
      (fun s => sampleTask 1 .readonly ∈ s.running ++ s.machine.unblockedTaskQueue ∧
        sampleTask 3 .readonly ∈ s.running ++ s.machine.unblockedTaskQueue) = true := by
    decide +kernel
  obtain ⟨s, hs, hmem⟩ := (Option.any_eq_true _ _).mp hrun
  have hreachable := Reachable.runNew hs
  simp only [decide_eq_true_eq] at hmem
  exact ⟨s, hreachable, hmem, mutual_exclusion hreachable hmem.1 hmem.2 (by decide)⟩

/-! ## The assertions of the usage queues -/

/-- The tasks which a priority queue remembers as its current usage. -/
def UsageQueueInner.currentTasks : UsageQueueInner α η → List (Task α η)
  | .priority (some (.readonly tasks)) _ => tasks.values
  | .priority (some (.writable task)) _ => [task]
  | _ => []

variable {queue : UsageQueueInner α η} {holders blocked : List (UsageFromTask α η)}

omit [DecidableEq α] [DecidableEq η] in
theorem UsageQueueInner.Represents.mem_currentTasks
    (h : Represents capability queue holders blocked) (htask : task ∈ queue.currentTasks) :
    ∃ usage, (usage, task) ∈ holders := by
  cases h with
  | fifo _ => simp [currentTasks] at htask
  | priority husage _ _ =>
    cases husage with
    | unused => simp [currentTasks] at htask
    | readers _ _ hperm =>
      exact ⟨.readonly, hperm.mem_iff.mpr (List.mem_map_of_mem htask)⟩
    | writer writer =>
      obtain rfl : task = writer := by simpa [currentTasks] using htask
      exact ⟨.writable, by simp⟩

/-- The queues satisfy what their assertions say, and an allowed operation stops
only because a counter of the machine is exhausted. -/
theorem usageQueues_never_panic (h : Reachable capability s) :
    (∀ a, (s.machine.usageQueues a).currentUsage = none →
      (s.machine.usageQueues a).blockedUsages = []) ∧
    (capability = .priorityQueueing → ∀ a,
      ((s.machine.usageQueues a).currentUsage = some .readonly →
        ∀ usage, (s.machine.usageQueues a).blockedUsages.head? = some usage → usage.1 = .writable) ∧
      (∀ holder ∈ (s.machine.usageQueues a).currentTasks,
        s.machine.blockedUsageCounts holder.taskId ≠ 0 →
          ∀ usage ∈ (s.machine.usageQueues a).blockedUsages,
            holder.taskId < usage.2.taskId)) ∧
    (∀ op, s.Allowed op → ∀ panic, s.step op = .error panic →
      panic = .counterOverflow ∧ s.Exhausted op) := by
  have hinvariant := h.invariant
  refine ⟨?_, ?_, ?_⟩
  · intro a hnone
    obtain ⟨holders, hserves⟩ := hinvariant.consistent.serves a
    exact hserves.idle (hserves.represents.currentUsage_eq_none_iff.mp hnone)
  · intro hpriority a
    obtain ⟨holders, hserves⟩ := hinvariant.consistent.serves a
    refine ⟨?_, ?_⟩
    · intro hcurrent
      apply hserves.headWritable hpriority
      intro holder hholder
      rw [hserves.represents.currentUsage_eq hholder] at hcurrent
      exact Option.some.inj hcurrent
    · intro holder hholder hcount
      obtain ⟨usage, hmem⟩ := hserves.represents.mem_currentTasks hholder
      exact hserves.before hpriority _ hmem hcount
  · intro op hallowed panic hpanic
    have houtcome := outcome hinvariant hallowed
    rw [hpanic] at houtcome
    cases houtcome with
    | overflow hexhausted => exact ⟨rfl, hexhausted⟩

theorem usageQueues_never_panic_run :
    ∃ s : System ℕ ℕ, Reachable .priorityQueueing s ∧
      ∀ op, s.Allowed op → ∀ panic, s.step op = .error panic → panic = .counterOverflow := by
  have hrun : (System.runNew .priorityQueueing (some 8) (some 8) sampleOperations).isSome =
      true := by
    decide +kernel
  obtain ⟨s, hs⟩ := Option.isSome_iff_exists.mp hrun
  have hreachable := Reachable.runNew hs
  exact ⟨s, hreachable, fun op hallowed panic hpanic =>
    ((usageQueues_never_panic hreachable).2.2 op hallowed panic hpanic).1⟩

end RakuraiValidator.UnifiedScheduler
