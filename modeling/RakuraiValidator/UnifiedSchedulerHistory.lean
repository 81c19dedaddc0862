import RakuraiValidator.Traces
import RakuraiValidator.UnifiedSchedulerExclusion

/-!
# The history of a run

The history of a system determines the lists of tasks it keeps: the active tasks
are the accepted ones which have not been descheduled, in the order of their
submission, and a task is handed out at most once.  With the invariant of the
queues this gives progress, the order of hand outs under FIFO queueing, and the
order in which tasks become runnable under priority queueing.
-/

namespace RakuraiValidator.UnifiedScheduler

open Traces Event List Function UnifiedScheduler.System

attribute [local simp] submitted filterMap_cons runnable comp_def acceptance submission

variable {α η : Type} [DecidableEq α] [DecidableEq η] {capability : Capability}
  {s : System α η}

structure HistoryInvariant (s : System α η) : Prop where
  submitted_nodup : (s.submitted.map Task.taskId).Nodup
  active_eq : s.active = s.accepted.filter (fun task => .descheduled task ∉ s.history)
  descheduled_accepted : ∀ task, .descheduled task ∈ s.history → task ∈ s.accepted
  unblocked_iff : ∀ task, .unblocked task ∈ s.history ↔
    task ∈ s.runnable ∨ .descheduled task ∈ s.history
  handedOut_iff : ∀ task, .handedOut task ∈ s.history ↔
    task ∈ s.running ∨ .descheduled task ∈ s.history
  handedOut_nodup : s.handedOut.Nodup

omit [DecidableEq α] [DecidableEq η] in
theorem mem_accepted {task : Task α η} : task ∈ s.accepted ↔ .accepted task ∈ s.history := by
  unfold System.accepted
  rw [mem_filterMap]
  constructor
  · rintro ⟨event, hevent, htask⟩
    cases event <;> simp_all
  · exact fun hmem => ⟨_, hmem, rfl⟩

omit [DecidableEq α] [DecidableEq η] in
theorem mem_handedOut {task : Task α η} : task ∈ s.handedOut ↔ .handedOut task ∈ s.history := by
  unfold System.handedOut
  rw [mem_filterMap]
  constructor
  · rintro ⟨event, hevent, htask⟩
    cases event <;> simp_all [handOut]
  · exact fun hmem => ⟨_, hmem, rfl⟩

omit [DecidableEq α] [DecidableEq η] in
theorem accepted_sublist_submitted (s : System α η) : s.accepted.Sublist s.submitted := by
  unfold System.accepted submitted
  generalize s.history = history
  induction history with
  | nil => simp
  | cons event history ih =>
    cases event with
    | accepted task => exact ih.cons_cons task
    | dropped task => exact ih.cons task
    | unblocked _ => exact ih
    | handedOut _ => exact ih
    | descheduled _ => exact ih

variable {op : Operation α η}

namespace HistoryInvariant

theorem initial (machine : SchedulingStateMachine α η) (hqueue : machine.unblockedTaskQueue = []) :
    HistoryInvariant (System.initial machine) := by
  constructor <;>
    simp [System.initial, System.accepted, System.handedOut, hqueue]

variable {task : Task α η}

theorem not_descheduled (h : HistoryInvariant s) (htask : task ∈ s.active) :
    .descheduled task ∉ s.history := by
  rw [h.active_eq] at htask
  simpa using (mem_filter.mp htask).2

theorem not_descheduled_of_fresh (h : HistoryInvariant s)
    (hfresh : task.taskId ∉ s.submitted.map Task.taskId) :
    .descheduled task ∉ s.history := by
  intro hmem
  have hsubmitted := (accepted_sublist_submitted s).subset (h.descheduled_accepted task hmem)
  exact hfresh (mem_map_of_mem hsubmitted)

variable {s' : System α η}

variable (h : HistoryInvariant s)

include h

theorem submitted_append_nodup (hfresh : task.taskId ∉ s.submitted.map Task.taskId) :
    ((s.submitted ++ [task]).map Task.taskId).Nodup := by
  rw [map_append]
  exact List.nodup_append_comm.mp (List.nodup_cons.mpr ⟨hfresh, h.submitted_nodup⟩)

theorem dropped (hfresh : task.taskId ∉ s.submitted.map Task.taskId)
    (hact : s'.active = s.active) (hrunning : s'.running = s.running)
    (hqueue : s'.machine.unblockedTaskQueue = s.machine.unblockedTaskQueue)
    (hhist : s'.history = s.history ++ [.dropped task]) : HistoryInvariant s' := by
  have hsubmitted : s'.submitted = s.submitted ++ [task] := by
    simp [hhist]
  have hacc : s'.accepted = s.accepted := by
    simp [System.accepted, hhist]
  have hhandedOut : s'.handedOut = s.handedOut := by
    simp [System.handedOut, hhist, handOut]
  have hrunnable : s'.runnable = s.runnable := by
    simp [hrunning, hqueue]
  constructor
  · rw [hsubmitted]
    exact h.submitted_append_nodup hfresh
  · rw [hact, hacc, h.active_eq]
    simp [hhist]
  · intro other
    rw [hacc, hhist]
    simpa using h.descheduled_accepted other
  · intro other
    rw [hrunnable, hhist]
    simpa using h.unblocked_iff other
  · intro other
    rw [hrunning, hhist]
    simpa using h.handedOut_iff other
  · rw [hhandedOut]
    exact h.handedOut_nodup

variable (hinv : SystemInvariant capability s)

include hinv

theorem accepted {queued returned : List (Task α η)}
    (hfresh : task.taskId ∉ s.submitted.map Task.taskId)
    (hact : s'.active = s.active ++ [task]) (hrunning : s'.running = s.running ++ returned)
    (hqueue : s'.machine.unblockedTaskQueue = s.machine.unblockedTaskQueue ++ queued)
    (hhist : s'.history =
      s.history ++ .accepted task :: ((queued ++ returned).map .unblocked ++ returned.map
      .handedOut))
    (hret : returned.Sublist [task]) : HistoryInvariant s' := by
  have hsubmitted : s'.submitted = s.submitted ++ [task] := by
    simp [hhist]
  have hacc : s'.accepted = s.accepted ++ [task] := by
    simp [System.accepted, hhist]
  have hhandedOut : s'.handedOut = s.handedOut ++ returned := by
    simp [System.handedOut, hhist, handOut]
  have hnot := h.not_descheduled_of_fresh hfresh
  have hdesch : ∀ other : Task α η,
      .descheduled other ∈ s'.history ↔ .descheduled other ∈ s.history := by
    intro other
    simp [hhist]
  constructor
  · rw [hsubmitted]
    exact h.submitted_append_nodup hfresh
  · simp only [hact, hacc, hdesch, filter_append, ← h.active_eq]
    simp [hnot]
  · intro other hother
    rw [hacc]
    exact mem_append_left _ (h.descheduled_accepted other ((hdesch other).mp hother))
  · intro other
    rw [hdesch, runnable, hrunning, hqueue, hhist]
    have hold := h.unblocked_iff other
    simp only [runnable, mem_append] at hold
    simp [hold]
    grind
  · intro other
    rw [hdesch, hrunning, hhist]
    have hold := h.handedOut_iff other
    simp [hold]
    grind
  · rw [hhandedOut]
    refine List.nodup_append'.mpr ⟨h.handedOut_nodup, (nodup_singleton task).sublist hret, ?_⟩
    intro other hother hmem
    obtain rfl := List.mem_singleton.mp (hret.subset hmem)
    rcases (h.handedOut_iff other).mp (mem_handedOut.mp hother) with hrun | hdone
    · have hsub := hinv.active_submitted _ (hinv.running_subset hrun).1
      exact hfresh (mem_map_of_mem hsub)
    · exact hnot hdone

theorem handedOut (hact : s'.active = s.active) (hrunning : s'.running = s.running ++ [task])
    (hqueue : s.machine.unblockedTaskQueue = task :: s'.machine.unblockedTaskQueue)
    (hhist : s'.history = s.history ++ [.handedOut task]) : HistoryInvariant s' := by
  have hsubmitted : s'.submitted = s.submitted := by
    simp [hhist]
  have hacc : s'.accepted = s.accepted := by
    simp [System.accepted, hhist]
  have hhandedOut : s'.handedOut = s.handedOut ++ [task] := by
    simp [System.handedOut, hhist, handOut]
  have hrunnable : s'.runnable = s.runnable := by
    simp [hrunning, hqueue]
  have hdesch : ∀ other : Task α η,
      .descheduled other ∈ s'.history ↔ .descheduled other ∈ s.history := by
    intro other
    simp [hhist]
  have hmem : task ∈ s.runnable := by
    simp [hqueue]
  constructor
  · rw [hsubmitted]
    exact h.submitted_nodup
  · simp only [hact, hacc, hdesch, ← h.active_eq]
  · intro other hother
    rw [hacc]
    exact h.descheduled_accepted other ((hdesch other).mp hother)
  · intro other
    rw [hdesch, hrunnable, ← h.unblocked_iff, hhist]
    simp
  · intro other
    rw [hdesch, hrunning, hhist]
    have hold := h.handedOut_iff other
    simp [hold]
    grind
  · rw [hhandedOut]
    refine List.nodup_append'.mpr ⟨h.handedOut_nodup, nodup_singleton task, ?_⟩
    intro other hother hmem'
    obtain rfl := List.mem_singleton.mp hmem'
    rcases (h.handedOut_iff other).mp (mem_handedOut.mp hother) with hrun | hdone
    · have hnodup := hinv.runnable_nodup
      unfold runnable at hnodup
      exact disjoint_of_nodup_append hnodup hrun (by simp [hqueue])
    · exact h.not_descheduled ((hinv.mem_runnable other).mp hmem).1 hdone

theorem descheduled {released : List (Task α η)} (htask : task ∈ s.running)
    (hact : s'.active = s.active.filter (fun other => other.taskId ≠ task.taskId))
    (hrunning : s'.running = s.running.filter (fun other => other.taskId ≠ task.taskId))
    (hqueue : s'.machine.unblockedTaskQueue = s.machine.unblockedTaskQueue ++ released)
    (hhist : s'.history = s.history ++ .descheduled task :: released.map .unblocked) :
    HistoryInvariant s' := by
  have hsubmitted : s'.submitted = s.submitted := by
    simp [hhist]
  have hacc : s'.accepted = s.accepted := by
    simp [System.accepted, hhist]
  have hhandedOut : s'.handedOut = s.handedOut := by
    simp [System.handedOut, hhist, handOut]
  have hdesch : ∀ other : Task α η, .descheduled other ∈ s'.history ↔
      .descheduled other ∈ s.history ∨ other = task := by
    intro other
    simp [hhist]
  have htaskAct := (hinv.running_subset htask).1
  have hsame : ∀ other ∈ s.active, other.taskId ≠ task.taskId ↔ other ≠ task := by
    intro other hother
    constructor
    · rintro hne rfl
      exact hne rfl
    · exact fun hne heq =>
        hne (eq_of_taskId_eq hinv.active_nodup hother htaskAct heq)
  have hmemRun : ∀ other, other ∈ s'.running ↔ other ∈ s.running ∧ other ≠ task := by
    intro other
    rw [hrunning, mem_filter, decide_eq_true_eq]
    exact and_congr_right (fun hmem => hsame other (hinv.running_subset hmem).1)
  constructor
  · rw [hsubmitted]
    exact h.submitted_nodup
  · rw [hact, hacc, h.active_eq, filter_filter]
    apply filter_congr
    intro other hother
    rw [Bool.eq_iff_iff]
    simp only [Bool.and_eq_true, decide_eq_true_eq, hdesch, not_or]
    constructor
    · rintro ⟨hne, hnot⟩
      exact ⟨hnot, fun heq => hne (heq ▸ rfl)⟩
    · rintro ⟨hnot, hne⟩
      have hmem : other ∈ s.active := by
        rw [h.active_eq]
        exact List.mem_filter.mpr ⟨hother, by simpa using hnot⟩
      exact ⟨(hsame other hmem).mpr hne, hnot⟩
  · intro other hother
    rw [hacc]
    rcases (hdesch other).mp hother with hother | rfl
    · exact h.descheduled_accepted other hother
    · rw [h.active_eq] at htaskAct
      exact mem_of_mem_filter htaskAct
  · intro other
    have hold := h.unblocked_iff other
    have hself : other = task → other ∈ s.running := fun heq => heq ▸ htask
    rw [hdesch, hhist]
    simp only [runnable, mem_append, hmemRun, hqueue] at hold ⊢
    simp [hold]
    grind
  · intro other
    have hold := h.handedOut_iff other
    have hself : other = task → other ∈ s.running := fun heq => heq ▸ htask
    rw [hdesch, hmemRun, hhist]
    simp [hold]
    grind
  · rw [hhandedOut]
    exact h.handedOut_nodup

theorem step (hallow : s.Allowed op) (hout : Outcome capability s op (.ok s')) :
    HistoryInvariant s' := by
  cases hout with
  | dropped _ hact hrunning hqueue hhist =>
    exact h.dropped hallow hact hrunning hqueue hhist
  | @accepted task _ _ queued returned _ hact hrunning hqueue hhist hnew _ =>
    have hret : returned.Sublist [task] := by
      refine (sublist_append_right queued returned).trans ?_
      rw [hnew]
      split <;> simp
    exact h.accepted hinv hallow hact hrunning hqueue hhist hret
  | idle => exact h
  | handedOut _ hact hrunning hqueue hhist =>
    exact h.handedOut hinv hact hrunning hqueue hhist
  | descheduled _ hact hrunning hqueue hhist _ _ =>
    exact h.descheduled hinv hallow hact hrunning hqueue hhist

end HistoryInvariant

theorem Reachable.induction_outcome {motive : System α η → Prop}
    (hinit : ∀ machine : SchedulingStateMachine α η, machine.unblockedTaskQueue = [] →
      motive (System.initial machine))
    (hstep : ∀ (s s' : System α η) (op : Operation α η), Reachable capability s →
      s.Allowed op → Outcome capability s op (.ok s') → motive s → motive s')
    (h : Reachable capability s) : motive s := by
  induction h with
  | @initial maxRunningTaskCount maxUniqueActiveTaskCount machine hmach =>
    apply hinit
    simp only [SchedulingStateMachine.exclusivelyInitialize] at hmach
    split at hmach
    · cases hmach
      rfl
    · contradiction
  | @step s s' op hreach hallow hrun ih =>
    have hout := outcome hreach.invariant hallow
    rw [hrun] at hout
    exact hstep s s' op hreach hallow hout ih

theorem Reachable.historyInvariant (h : Reachable capability s) : HistoryInvariant s :=
  h.induction_outcome HistoryInvariant.initial
    (fun _ _ _ hreach hallow hout ih =>
      ih.step hreach.invariant hallow hout)

theorem Outcome.history_subset {s' : System α η} (h : Outcome capability s op (.ok s')) :
    s.history ⊆ s'.history := by
  cases h with
  | dropped _ _ _ _ hhist | accepted _ _ _ _ hhist | handedOut _ _ _ _ hhist
  | descheduled _ _ _ _ hhist =>
    simp [hhist]
  | idle => simp

theorem history_subset_of_run (h : Reachable capability s) {ops : List (Operation α η)}
    {s' : System α η} (hrun : s.run ops = some s') : s.history ⊆ s'.history := by
  induction ops generalizing s with
  | nil =>
    cases hrun
    simp
  | cons op ops ih =>
    simp only [run] at hrun
    split at hrun
    next hallow =>
      cases hstep : s.step op with
      | ok next =>
        rw [hstep] at hrun
        have hout := outcome h.invariant hallow
        rw [hstep] at hout
        exact List.Subset.trans hout.history_subset (ih (h.step hallow hstep) hrun)
      | error _ =>
        rw [hstep] at hrun
        contradiction
    next => contradiction

theorem count_handedOut (s : System α η) (task : Task α η) :
    s.history.count (.handedOut task) = s.handedOut.count task := by
  unfold System.handedOut
  generalize s.history = history
  induction history with
  | nil => rfl
  | cons event history ih =>
    cases event <;> simp [handOut, count_cons, ih]

end RakuraiValidator.UnifiedScheduler
