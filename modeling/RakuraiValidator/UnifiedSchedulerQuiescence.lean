import RakuraiValidator.UnifiedSchedulerProgress

/-!
# Quiescence and clearing

The counters of the machine account for every task, and a machine without active
tasks has fresh usage queues.  `clear_and_reinitialize` has no list of the active
tasks; it hands out and deschedules tasks until none is left.  Each round of its
loop is a pair of operations of the system, so progress shows that the loop
reaches every active task, and what it returns is a machine like a new one.
-/

namespace RakuraiValidator.UnifiedScheduler

open SchedulingStateMachine Event List

variable {α η : Type} [DecidableEq α] [DecidableEq η] {capability : Capability}
  {s : System α η}

variable (h : SystemInvariant capability s) (hactive : s.active = [])

include h hactive in
theorem SystemInvariant.usageQueues_eq_new (a : α) :
    s.machine.usageQueues a = UsageQueueInner.new capability := by
  obtain ⟨holders, hserv⟩ := h.consistent.serves a
  have hnil : holders ++ (s.machine.usageQueues a).blockedUsages = [] := by
    have hperm := hserv.users_perm
    rw [hactive] at hperm
    exact hperm.eq_nil
  rw [append_eq_nil_iff] at hnil
  have hrepr := hserv.represents
  rw [hnil.1, hnil.2] at hrepr
  exact hrepr.eq_new

/-! ## One round of the clearing loop -/

variable {s' : System α η} {task : Task α η}

theorem machine_of_step_next (hstep : s.step .scheduleNextUnblockedTask = .ok s')
    (hrunning : s'.running = s.running ++ [task]) :
    s.machine.scheduleNextUnblockedTask = .ok (s'.machine, some task) := by
  simp only [System.step, bind, Except.bind] at hstep
  split at hstep
  next => contradiction
  next result hres =>
    obtain ⟨machine, returned⟩ := result
    cases hstep
    simp only [append_cancel_left_eq] at hrunning
    cases returned with
    | none => simp at hrunning
    | some other =>
      obtain rfl : other = task := by simpa using hrunning
      exact hres

theorem machine_of_step_deschedule (hstep : s.step (.descheduleTask task) = .ok s') :
    s.machine.descheduleTask task = .ok s'.machine := by
  simp only [System.step, bind, Except.bind] at hstep
  split at hstep
  next => contradiction
  next machine hmach =>
    cases hstep
    exact hmach

def Event.completion : Event α η → Option (Task α η)
  | .descheduled task => some task
  | _ => none

def System.completed (s : System α η) : List (Task α η) := s.history.filterMap completion

def clearingOperations (tasks : List (Task α η)) : List (Operation α η) :=
  tasks.flatMap (fun task => [.scheduleNextUnblockedTask, .descheduleTask task])

structure ClearRound (s : System α η) (task : Task α η) (s' : System α η) : Prop where
  mem_active : task ∈ s.active
  run : s.run [.scheduleNextUnblockedTask, .descheduleTask task] = some s'
  machine : ∃ m, s.machine.scheduleNextUnblockedTask = .ok (m, some task) ∧
    m.descheduleTask task = .ok s'.machine
  running : s'.running = []
  active : s'.active = s.active.filter (fun other => other.taskId ≠ task.taskId)
  handedOut : s'.handedOut = s.handedOut ++ [task]
  completed : s'.completed = s.completed ++ [task]
  counter : s'.machine.unblockedTaskCount = s.machine.unblockedTaskCount + 1
  limits : s'.machine.limits = s.machine.limits

theorem clear_round (h : Reachable capability s) (hrunning : s.running = [])
    (hactive : s.active ≠ []) (hmax : 1 ≤ s.machine.maxRunningTaskCount)
    (hcounter : s.machine.unblockedTaskCount < counterMax) :
    ∃ task s', ClearRound s task s' := by
  have hinv := h.invariant
  have hrunnable : s.machine.hasRunnableTask = true := by
    have hpos : 0 < s.machine.activeTaskCount := by
      rw [hinv.accounting.active_eq]
      exact length_pos_iff.mpr hactive
    exact ((no_deadlock h).2 hpos hmax).resolve_left (not_not.mpr hrunning)
  have hnext := outcome_scheduleNextUnblockedTask hinv
  cases hstep : s.step .scheduleNextUnblockedTask with
  | error panic =>
    rw [hstep] at hnext
    cases hnext with
    | overflow hexhausted => exact absurd hcounter (not_lt.mpr hexhausted)
  | ok s' =>
    rw [hstep] at hnext
    cases hnext with
    | idle hidle =>
      rw [hrunnable] at hidle
      contradiction
    | @handedOut task _ hinv' hactive' hrunning' hqueue hhist hcounter' hlims =>
      have htask : task ∈ s'.running := by simp [hrunning']
      have hdesch := outcome_descheduleTask hinv' htask
      cases hstep' : s'.step (.descheduleTask task) with
      | error panic =>
        rw [hstep'] at hdesch
        cases hdesch with
        | overflow hexhausted => exact hexhausted.elim
      | ok s'' =>
        rw [hstep'] at hdesch
        cases hdesch with
        | descheduled _ hactive'' hrunning'' _ hhist' _ _ hcounter'' hlims' =>
          refine ⟨task, s'', ?_, ?_, ?_, ?_, ?_, ?_, ?_, ?_, ?_⟩
          · exact hactive' ▸ (hinv'.running_subset htask).1
          · have hallow : s.Allowed .scheduleNextUnblockedTask := trivial
            have hallow' : s'.Allowed (.descheduleTask task) := htask
            simp [System.run, hallow, hstep, hallow', hstep']
          · exact ⟨s'.machine, machine_of_step_next hstep hrunning',
              machine_of_step_deschedule hstep'⟩
          · simp [hrunning'', hrunning', hrunning]
          · rw [hactive'', hactive']
          · simp [System.handedOut, hhist', hhist, filterMap_cons, handOut, Function.comp_def]
          · simp [System.completed, hhist', hhist, filterMap_cons, completion, Function.comp_def]
          · rw [hcounter'', hcounter']
          · rw [hlims', hlims]

/-! ## The clearing loop -/

structure Cleared (s : System α η) (order : List (Task α η)) (s' : System α η) : Prop where
  perm : order.Perm s.active
  run : s.run (clearingOperations order) = some s'
  handedOut : s'.handedOut = s.handedOut ++ order
  completed : s'.completed = s.completed ++ order
  active : s'.active = []
  running : s'.running = []
  limits : s'.machine.limits = s.machine.limits

theorem System.run_append {ops ops' : List (Operation α η)} (hrun : s.run ops = some s') :
    s.run (ops ++ ops') = s'.run ops' := by
  induction ops generalizing s with
  | nil =>
    cases hrun
    rfl
  | cons op ops ih =>
    simp only [System.run, cons_append] at hrun ⊢
    split at hrun
    next hallow =>
      rw [if_pos hallow]
      cases hstep : s.step op with
      | ok next =>
        rw [hstep] at hrun
        exact ih hrun
      | error _ =>
        rw [hstep] at hrun
        contradiction
    next => contradiction

theorem ClearRound.cons {s'' : System α η} {order : List (Task α η)} (hround : ClearRound s task s')
    (hcleared : Cleared s' order s'') (hnodup : (s.active.map Task.taskId).Nodup) :
    Cleared s (task :: order) s'' where
  perm := by
    have hperm := hcleared.perm
    rw [hround.active] at hperm
    exact (hperm.cons task).trans (perm_cons_filter_ne Task.taskId hround.mem_active hnodup).symm
  run := by
    have hsplit : clearingOperations (task :: order) =
        [.scheduleNextUnblockedTask, .descheduleTask task] ++ clearingOperations order := rfl
    rw [hsplit, System.run_append hround.run, hcleared.run]
  handedOut := by simp [hcleared.handedOut, hround.handedOut]
  completed := by simp [hcleared.completed, hround.completed]
  active := hcleared.active
  running := hcleared.running
  limits := hcleared.limits.trans hround.limits

include h hactive in
theorem SystemInvariant.unblockedTaskQueue_eq_nil : s.machine.unblockedTaskQueue = [] := by
  rw [eq_nil_iff_forall_not_mem]
  intro task htask
  have hmem := ((h.mem_runnable task).mp (mem_append_right _ htask)).1
  simp [hactive] at hmem

-- Each round consumes one active task, so the induction is on their number.  The
-- rounds count in `unblocked_task_count` and in the returned counter.
theorem clearLoop_spec (n : ℕ) (h : Reachable capability s) (hrunning : s.running = [])
    (hlen : s.active.length = n) (hmax : 1 ≤ s.machine.maxRunningTaskCount)
    (hcounter : s.machine.unblockedTaskCount + n ≤ counterMax) {count : ℕ}
    (hcount : count + n ≤ counterMax) :
    ∃ order s', Cleared s order s' ∧
      s.machine.clearLoop (n + 1) count = .ok (s'.machine, count + n) := by
  induction n generalizing s count with
  | zero =>
    have hactive := length_eq_zero_iff.mp hlen
    have hqueue := h.invariant.unblockedTaskQueue_eq_nil hactive
    refine ⟨[], s, ⟨?_, rfl, ?_, ?_, hactive, hrunning, rfl⟩, ?_⟩
    · rw [hactive]
    · simp
    · simp
    · have hnone : s.machine.scheduleNextUnblockedTask = .ok (s.machine, none) := by
        simp [scheduleNextUnblockedTask, hqueue]
      simp [clearLoop, hnone, bind, Except.bind]
  | succ n ih =>
    have hactive : s.active ≠ [] := by
      intro hnil
      simp [hnil] at hlen
    obtain ⟨task, s', hround⟩ := clear_round h hrunning hactive hmax (by omega)
    have hmax' : s'.machine.maxRunningTaskCount = s.machine.maxRunningTaskCount :=
      congrArg Prod.fst hround.limits
    have hlen' : s'.active.length = n := by
      have hperm := perm_cons_filter_ne Task.taskId hround.mem_active h.invariant.active_nodup
      have hsucc := hperm.length_eq
      rw [← hround.active, length_cons] at hsucc
      omega
    have hcounter' := hround.counter
    obtain ⟨order, s'', hcleared, hloop⟩ := ih (h.run hround.run) hround.running hlen'
      (hmax' ▸ hmax) (by omega) (show (count + 1) + n ≤ counterMax by omega)
    refine ⟨task :: order, s'', hround.cons hcleared h.invariant.active_nodup, ?_⟩
    obtain ⟨m, hnext, hdesch⟩ := hround.machine
    have hincr : ShortCounter.increment count = .ok (count + 1) := by
      rw [ShortCounter.increment, if_pos (by omega)]
    rw [clearLoop]
    simp only [hnext, bind, Except.bind, hdesch, hincr]
    rw [hloop]
    congr 2
    omega

include h hactive in
theorem reinitialize_eq_new
    (hrunning : s.running = []) :
    ∃ m, s.machine.reinitialize = .ok m ∧
      exclusivelyInitialize capability
        (some s.machine.maxRunningTaskCount) s.machine.maxUniqueActiveTaskCount = .ok m := by
  have hactive_zero : s.machine.activeTaskCount = 0 := by
    rw [h.accounting.active_eq, hactive, length_nil]
  have hrunning_zero : s.machine.runningTaskCount = 0 := by
    rw [h.accounting.running_eq, hrunning, length_nil]
  have hhash : s.machine.uniqueActiveTaskHashes = ∅ := by
    cases hcap : s.machine.maxUniqueActiveTaskCount with
    | none => exact h.accounting.hashes_uncapped hcap
    | some cap => simp [(h.accounting.hashes_capped cap hcap).2, hactive]
  have hqueue := h.unblockedTaskQueue_eq_nil hactive
  have hqueues : s.machine.usageQueues = fun _ => UsageQueueInner.new capability :=
    funext (h.usageQueues_eq_new hactive)
  have hcounts : s.machine.blockedUsageCounts = fun _ => 0 := by
    funext id
    exact h.counts_settled id (by simp [hactive])
  have hmax := h.accounting.maxRunning_le
  simp [ reinitialize, hasNoActiveTask,
    exclusivelyInitialize, hactive_zero, hrunning_zero, hhash, hqueue,
    hqueues, hcounts, hmax]

/-- Accounting and quiescence.  Clearing increments `unblocked_task_count` once per
active task, so that counter must have room for them. -/
theorem accounting_and_quiescence (h : Reachable capability s) :
    s.machine.totalTaskCount = s.machine.droppedTaskCount + s.machine.activeTaskCount +
      s.machine.handledTaskCount ∧
    s.machine.runningTaskCount ≤ s.machine.maxRunningTaskCount ∧
    (∀ cap, s.machine.maxUniqueActiveTaskCount = some cap →
      s.machine.uniqueActiveTaskHashes.card = s.machine.activeTaskCount) ∧
    (s.machine.hasNoActiveTask = true →
      ∀ a, s.machine.usageQueues a = UsageQueueInner.new capability) ∧
    (s.machine.hasNoRunningTask = true → 1 ≤ s.machine.maxRunningTaskCount →
      s.machine.unblockedTaskCount + s.machine.activeTaskCount ≤ counterMax →
      ∃ order s' m, order.Perm s.active ∧ order.Nodup ∧
        s.run (clearingOperations order) = some s' ∧
        s'.handedOut = s.handedOut ++ order ∧ s'.completed = s.completed ++ order ∧
        s'.machine.reinitialize = .ok m ∧
        s.machine.clearAndReinitialize = .ok (m, s.machine.activeTaskCount) ∧
        exclusivelyInitialize capability
          (some s.machine.maxRunningTaskCount) s.machine.maxUniqueActiveTaskCount = .ok m) := by
  have hinvariant := h.invariant
  have haccounting := hinvariant.accounting
  refine ⟨haccounting.total_eq, haccounting.running_le, ?_, ?_, ?_⟩
  · intro cap hcap
    obtain ⟨hnodup, hhashes⟩ := haccounting.hashes_capped cap hcap
    rw [hhashes, toFinset_card_of_nodup hnodup, length_map, haccounting.active_eq]
  · intro hactive
    simp only [hasNoActiveTask, decide_eq_true_eq,
      haccounting.active_eq, length_eq_zero_iff] at hactive
    exact hinvariant.usageQueues_eq_new hactive
  · intro hrunning hmax hcounter
    simp only [hasNoRunningTask, decide_eq_true_eq,
      haccounting.running_eq, length_eq_zero_iff] at hrunning
    have hcount : 0 + s.machine.activeTaskCount ≤ counterMax := by omega
    obtain ⟨order, s', hcleared, hloop⟩ := clearLoop_spec s.machine.activeTaskCount h hrunning
      haccounting.active_eq.symm hmax hcounter hcount
    obtain ⟨m, hreinitialize, hnew⟩ := reinitialize_eq_new (h.run hcleared.run).invariant
      hcleared.active hcleared.running
    obtain ⟨hlimit, hcap⟩ := Prod.ext_iff.mp hcleared.limits
    simp only [limits] at hlimit hcap
    have hnodup : order.Nodup :=
      hcleared.perm.nodup_iff.mpr (List.Nodup.of_map Task.taskId hinvariant.active_nodup)
    refine ⟨order, s', m, hcleared.perm, hnodup, hcleared.run, hcleared.handedOut,
      hcleared.completed, hreinitialize, ?_, ?_⟩
    · simp [ clearAndReinitialize, hloop, bind, Except.bind, hreinitialize]
    · rw [← hlimit, ← hcap]
      exact hnew

theorem accounting_and_quiescence_buffered :
    ∃ s : System ℕ ℕ, Reachable .priorityQueueing s ∧ s.machine.activeTaskCount = 3 ∧
      ∃ m, s.machine.clearAndReinitialize = .ok (m, 3) := by
  have hrun : (System.runNew .priorityQueueing (some 1) (some 5)
      [.scheduleOrBufferTask (sampleTask 2 .writable) true,
       .scheduleOrBufferTask (sampleTask 1 .readonly) true,
       .scheduleOrBufferTask (sampleTask 3 .writable) true]).any
      (fun s => s.machine.activeTaskCount = 3 && s.machine.hasNoRunningTask &&
        1 ≤ s.machine.maxRunningTaskCount &&
        s.machine.unblockedTaskCount + s.machine.activeTaskCount ≤ counterMax) = true := by
    decide +kernel
  obtain ⟨s, hs, hconditions⟩ := (Option.any_eq_true _ _).mp hrun
  simp only [Bool.and_eq_true, decide_eq_true_eq] at hconditions
  obtain ⟨⟨⟨hactive, hrunning⟩, hmax⟩, hcounter⟩ := hconditions
  have hreachable := Reachable.runNew hs
  obtain ⟨_, _, m, _, _, _, _, _, _, hclear, _⟩ :=
    (accounting_and_quiescence hreachable).2.2.2.2 hrunning hmax hcounter
  exact ⟨s, hreachable, hactive, m, hactive ▸ hclear⟩

end RakuraiValidator.UnifiedScheduler
