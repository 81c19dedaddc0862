import RakuraiValidator.UnifiedSchedulerProgress

/-!
# FIFO serializability

Under FIFO queueing the usages of an address are granted in the order of
submission.  A task is therefore handed out after every conflicting task which
was submitted before it has been descheduled, and executing the tasks in the
order in which they are handed out gives the same accounts as executing them in
the order of their submission.
-/

namespace RakuraiValidator.UnifiedScheduler

open Traces Event List

variable {α η : Type} [DecidableEq α] [DecidableEq η] {s : System α η} {first second : Task α η}

theorem SystemInvariant.not_conflicts_of_before (h : SystemInvariant .fifoQueueing s)
    (horder : [first, second].Sublist s.active) (hrunnable : second ∈ s.runnable) :
    ¬ first.Conflicts second := by
  rintro ⟨⟨a, usage⟩, hctx, ⟨b, usage'⟩, hctx', hqueue, hwrite⟩
  simp only at hqueue hwrite
  subst hqueue
  obtain ⟨holders, hserv⟩ := h.consistent.serves a
  have hsecond := h.mem_holders_of_runnable hrunnable hserv hctx'
  have hne : first ≠ second := by
    have hnodup := (List.Nodup.of_map _ h.active_nodup).sublist horder
    simpa using hnodup
  have husers : [(usage, first), (usage', second)].Sublist (usersAt s.active a) := by
    refine List.Sublist.trans ?_ (horder.flatMap _)
    have hfirst : (usage, first) ∈ first.usagesIn first.lockContexts a :=
      mem_map.mpr ⟨_, mem_filter.mpr ⟨hctx, by simp⟩, rfl⟩
    have hsecond' : (usage', second) ∈ second.usagesIn second.lockContexts a :=
      mem_map.mpr ⟨_, mem_filter.mpr ⟨hctx', by simp⟩, rfl⟩
    simpa using (singleton_sublist.mpr hfirst).append (singleton_sublist.mpr hsecond')
  rw [hserv.arrival rfl] at husers
  have hnodup := hserv.nodup (h.consistent.users_nodup a)
  rw [taskIds_append] at hnodup
  have hnotBlocked : (usage', second) ∉ (s.machine.usageQueues a).blockedUsages :=
    fun hmem => disjoint_of_nodup_append hnodup (mem_taskIds_of_mem hsecond)
      (mem_taskIds_of_mem hmem)
  -- whatever precedes a holder in the order of arrival is a holder
  have hfirst : (usage, first) ∈ holders := by
    obtain ⟨xs, ys, hsplit, hxs, hys⟩ := sublist_append_iff.mp husers
    cases xs with
    | nil =>
      rw [nil_append] at hsplit
      exact absurd (hys.subset (by simp [← hsplit])) hnotBlocked
    | cons x xs =>
      rw [cons_append, cons.injEq] at hsplit
      exact hxs.subset (by simp [hsplit.1])
  exact hserv.represents.readonly_of_holders hfirst hsecond hne hwrite

/-- A task is handed out after it was accepted, and after the conflicting tasks
which were accepted before it have been handed out and descheduled. -/
def FollowsSubmission (past : List (Event α η)) (event : Event α η) : Prop :=
  ∀ task, event = .handedOut task → .accepted task ∈ past ∧
    ∀ other, [other, task].Sublist (past.filterMap acceptance) → other.Conflicts task →
      .descheduled other ∈ past ∧ .handedOut other ∈ past

variable {s' : System α η}

theorem followsSubmission_new (hhist : HistoryInvariant s)
    (hinv' : SystemInvariant .fifoQueueing s') (hhist' : HistoryInvariant s')
    {new : List (Event α η)} (hnew : s'.history = s.history ++ new)
    (hdesch : ∀ task, .descheduled task ∉ new)
    (hhandedOut : ∀ past task future, new = past ++ .handedOut task :: future →
      task ∈ s'.running ∧ .accepted task ∈ s.history ++ past) :
    ∀ past event future, new = past ++ event :: future →
      FollowsSubmission (s.history ++ past) event := by
  rintro past event future hsplit task rfl
  obtain ⟨hrunning, hacc⟩ := hhandedOut past task future hsplit
  refine ⟨hacc, ?_⟩
  intro other horder hconfl
  have hact := (hinv'.running_subset hrunning).1
  have hdone : .descheduled other ∈ s.history := by
    by_contra hnot
    have hnot' : .descheduled other ∉ s'.history := by
      rw [hnew, mem_append, not_or]
      exact ⟨hnot, hdesch other⟩
    have horder' : [other, task].Sublist s'.accepted := by
      refine horder.trans (List.Sublist.filterMap _ ?_)
      rw [hnew, hsplit, ← append_assoc]
      exact sublist_append_left _ _
    refine hinv'.not_conflicts_of_before ?_ (mem_append_left _ hrunning) hconfl
    rw [hhist'.active_eq]
    simpa [hnot', hhist'.not_descheduled hact] using
      horder'.filter (fun task => .descheduled task ∉ s'.history)
  exact ⟨mem_append_left _ hdone, mem_append_left _ ((hhist.handedOut_iff other).mpr (.inr hdone))⟩

section

variable (h : Reachable .fifoQueueing s)

include h

theorem Causal.followsSubmission_step {op : Operation α η} (hallow : s.Allowed op)
    (hout : Outcome .fifoQueueing s op (.ok s'))
    (hcausal : Causal FollowsSubmission s.history) : Causal FollowsSubmission s'.history := by
  have hinv := h.invariant
  have hhist := h.historyInvariant
  have hhist' := hhist.step hinv hallow hout
  have hinv' := hout.invariant hinv
  cases hout with
  | dropped _ _ _ _ hnew | descheduled _ _ _ _ hnew _ _ =>
    rw [hnew]
    refine hcausal.append ?_
    rintro past event future hsplit task rfl
    exact absurd (congrArg (handedOut task ∈ ·) hsplit) (by simp)
  | @accepted task _ _ queued returned _ hact hrunning hqueue hnew hplaced _ =>
    rw [hnew]
    refine hcausal.append
      (followsSubmission_new hhist hinv' hhist' hnew (by simp) ?_)
    intro past other future hsplit
    have hret : other ∈ returned := by
      have hmem : handedOut other ∈ past ++ .handedOut other :: future := by simp
      rw [← hsplit] at hmem
      simpa using hmem
    have hsame : other = task := by
      have hmem : other ∈ queued ++ returned := mem_append_right _ hret
      rw [hplaced] at hmem
      split at hmem
      · exact mem_singleton.mp hmem
      · simp at hmem
    subst hsame
    refine ⟨by simp [hrunning, hret], mem_append_right _ ?_⟩
    cases past with
    | nil =>
      rw [nil_append, cons.injEq] at hsplit
      exact absurd hsplit.1 (by simp)
    | cons first past =>
      rw [cons_append, cons.injEq] at hsplit
      simp [← hsplit.1]
  | idle => exact hcausal
  | @handedOut task _ _ hact hrunning hqueue hnew =>
    rw [hnew]
    refine hcausal.append
      (followsSubmission_new hhist hinv' hhist' hnew (by simp) ?_)
    intro past other future hsplit
    obtain rfl : other = task := by
      have hmem : handedOut other ∈ past ++ .handedOut other :: future := by simp
      rw [← hsplit] at hmem
      simpa using hmem
    refine ⟨by simp [hrunning], mem_append_left _ (mem_accepted.mp ?_)⟩
    have hmem := ((hinv.mem_runnable other).mp (by simp [System.runnable, hqueue])).1
    rw [hhist.active_eq] at hmem
    exact mem_of_mem_filter hmem

theorem Reachable.followsSubmission : Causal FollowsSubmission s.history :=
  h.induction_outcome (fun _ _ => causal_nil)
    (fun _ _ _ hreach hallow hout ih =>
      Causal.followsSubmission_step hreach hallow hout ih)

theorem Reachable.pair_sublist_past {past future : List (Event α η)}
    (hsplit : s.history = past ++ .handedOut second :: future)
    (horder : [first, second].Sublist s.accepted) :
    [first, second].Sublist (past.filterMap acceptance) := by
  have hacc := (h.followsSubmission past _ future hsplit second rfl).1
  have hmem : second ∈ past.filterMap acceptance :=
    mem_filterMap.mpr ⟨_, hacc, rfl⟩
  have hnodup : s.accepted.Nodup :=
    (List.Nodup.of_map _ h.historyInvariant.submitted_nodup).sublist (accepted_sublist_submitted s)
  have hparts : s.accepted = past.filterMap acceptance ++
      (handedOut second :: future).filterMap acceptance := by
    simp [System.accepted, hsplit]
  rw [hparts] at horder hnodup
  obtain ⟨xs, ys, heq, hxs, hys⟩ := sublist_append_iff.mp horder
  rcases eq_nil_or_concat ys with rfl | ⟨front, last, rfl⟩
  · rw [append_nil] at heq
    exact heq ▸ hxs
  · have hlast : last = second := by
      have := congrArg getLast? heq
      simpa [eq_comm] using this
    exact absurd (hys.subset (by simp [hlast])) (disjoint_of_nodup_append hnodup hmem)

end

/-! ## Execution -/

/-- How tasks change accounts: a task changes only what it writes, and what it
writes depends only on the addresses it uses. -/
structure AccountSemantics (α η ν : Type) where
  execute : Task α η → (α → ν) → α → ν
  writes_only : ∀ task accounts a, LockContext.mk a .writable ∉ task.lockContexts →
    execute task accounts a = accounts a
  reads_only : ∀ task accounts accounts', (∀ a ∈ task.addresses, accounts a = accounts' a) →
    ∀ a ∈ task.addresses, execute task accounts a = execute task accounts' a

namespace AccountSemantics

variable {ν : Type} (semantics : AccountSemantics α η ν)

def executeAll (accounts : α → ν) (tasks : List (Task α η)) : α → ν :=
  tasks.foldl (fun accounts task => semantics.execute task accounts) accounts

omit [DecidableEq α] [DecidableEq η] in
theorem execute_after {task other : Task α η} (hconfl : ¬ task.Conflicts other)
    (accounts : α → ν) {a : α} (ha : LockContext.mk a .writable ∈ task.lockContexts) :
    semantics.execute task (semantics.execute other accounts) a =
      semantics.execute other (semantics.execute task accounts) a := by
  have hother : LockContext.mk a .writable ∉ other.lockContexts :=
    fun hmem => hconfl ⟨_, ha, _, hmem, rfl, .inl rfl⟩
  rw [semantics.writes_only other _ a hother]
  refine semantics.reads_only task _ _ ?_ a (mem_map_of_mem ha)
  intro b hb
  obtain ⟨context, hctx, rfl⟩ := mem_map.mp hb
  exact semantics.writes_only other _ _
    (fun hmem => hconfl ⟨_, hctx, _, hmem, rfl, .inr rfl⟩)

omit [DecidableEq α] [DecidableEq η] in
theorem execute_comm {task other : Task α η} (hconfl : ¬ task.Conflicts other)
    (accounts : α → ν) :
    semantics.execute other (semantics.execute task accounts) =
      semantics.execute task (semantics.execute other accounts) := by
  have hconfl' : ¬ other.Conflicts task := by
    rintro ⟨context, hctx, context', hctx', hqueue, hwrite⟩
    exact hconfl ⟨context', hctx', context, hctx, hqueue.symm, hwrite.symm⟩
  funext a
  by_cases htask : LockContext.mk a .writable ∈ task.lockContexts
  · exact (semantics.execute_after hconfl accounts htask).symm
  · by_cases hother : LockContext.mk a .writable ∈ other.lockContexts
    · exact semantics.execute_after hconfl' accounts hother
    · rw [semantics.writes_only other _ a hother, semantics.writes_only task _ a htask,
        semantics.writes_only task _ a htask, semantics.writes_only other _ a hother]

end AccountSemantics

/-! ## Serializability -/

def System.handedOutInSubmissionOrder (s : System α η) : List (Task α η) :=
  s.accepted.filter (fun task => task ∈ s.handedOut)

theorem Reachable.handedOut_perm {capability : Capability} (h : Reachable capability s) :
    s.handedOut.Perm s.handedOutInSubmissionOrder := by
  have hhist := h.historyInvariant
  have hnodup : s.accepted.Nodup :=
    (List.Nodup.of_map _ hhist.submitted_nodup).sublist (accepted_sublist_submitted s)
  refine (perm_ext_iff_of_nodup hhist.handedOut_nodup (hnodup.filter _)).mpr ?_
  intro task
  simp only [mem_filter, decide_eq_true_eq]
  refine ⟨fun hmem => ⟨?_, hmem⟩, fun hmem => hmem.2⟩
  rcases (hhist.handedOut_iff task).mp (mem_handedOut.mp hmem) with hrunning | hdone
  · have hact := (h.invariant.running_subset hrunning).1
    rw [hhist.active_eq] at hact
    exact mem_of_mem_filter hact
  · exact hhist.descheduled_accepted task hdone

theorem Reachable.handedOut_order (h : Reachable .fifoQueueing s)
    (hconfl : first.Conflicts second)
    (horder : [first, second].Sublist s.handedOutInSubmissionOrder) :
    [first, second].Sublist s.handedOut := by
  have hacc : [first, second].Sublist s.accepted := horder.trans filter_sublist
  have hsecond : second ∈ s.handedOut := by
    have hmem : second ∈ s.handedOutInSubmissionOrder := horder.subset (by simp)
    simpa using (mem_filter.mp hmem).2
  obtain ⟨past, future, hsplit⟩ := append_of_mem (mem_handedOut.mp hsecond)
  have hfirst := ((h.followsSubmission past _ future hsplit second rfl).2 first
    (h.pair_sublist_past hsplit hacc) hconfl).2
  have hparts : s.handedOut = past.filterMap handOut ++ second :: future.filterMap handOut := by
    simp [System.handedOut, hsplit, handOut]
  rw [hparts]
  have hmem : first ∈ past.filterMap handOut :=
    mem_filterMap.mpr ⟨_, hfirst, rfl⟩
  exact (singleton_sublist.mpr hmem).append (singleton_sublist.mpr mem_cons_self)

/-- A task is handed out only after the conflicting tasks submitted before it have been descheduled.
So the accounts are those of an execution in the order of submission. -/
theorem fifo_serializability (h : Reachable .fifoQueueing s) :
    (∀ (first second : Task α η) (past future : List (Event α η)),
      [first, second].Sublist s.accepted → first.Conflicts second →
      s.history = past ++ .handedOut second :: future → .descheduled first ∈ past) ∧
    (∀ (ν : Type) (semantics : AccountSemantics α η ν) (accounts : α → ν),
      semantics.executeAll accounts s.handedOut =
        semantics.executeAll accounts s.handedOutInSubmissionOrder) ∧
    (s.machine.activeTaskCount = 0 → s.handedOutInSubmissionOrder = s.accepted) := by
  refine ⟨?_, ?_, ?_⟩
  · intro first second past future horder hconflict hsplit
    exact ((h.followsSubmission past _ future hsplit second rfl).2 first
      (h.pair_sublist_past hsplit horder) hconflict).1
  · intro ν semantics accounts
    exact foldl_eq_of_perm (fun accounts task => semantics.execute task accounts)
      Task.Conflicts (fun accounts _ _ hconflict => semantics.execute_comm hconflict accounts)
      h.handedOut_perm h.historyInvariant.handedOut_nodup
      (fun _ _ hconflict horder => h.handedOut_order hconflict horder) accounts
  · intro hidle
    apply filter_eq_self.mpr
    intro task htask
    have hone := h.count_handedOut_eq_one hidle (mem_accepted.mp htask)
    rw [count_handedOut] at hone
    simpa using count_pos_iff.mp (hone ▸ Nat.one_pos)

theorem fifo_serializability_readers :
    ∃ s : System ℕ ℕ, Reachable .fifoQueueing s ∧
      s.handedOut = [sampleTask 2 .writable, sampleTask 3 .readonly, sampleTask 1 .readonly] ∧
      ∀ (semantics : AccountSemantics ℕ ℕ ℕ) (accounts : ℕ → ℕ),
        semantics.executeAll accounts s.handedOut =
          semantics.executeAll accounts s.handedOutInSubmissionOrder := by
  have hrun : (System.runNew .fifoQueueing (some 8) none
      (sampleOperations ++ [.scheduleNextUnblockedTask, .scheduleNextUnblockedTask])).any
      (fun s => s.handedOut =
        [sampleTask 2 .writable, sampleTask 3 .readonly, sampleTask 1 .readonly]) = true := by
    decide +kernel
  obtain ⟨s, hs, hhandedOut⟩ := (Option.any_eq_true _ _).mp hrun
  have hreachable := Reachable.runNew hs
  exact ⟨s, hreachable, by simpa using hhandedOut,
    fun semantics accounts => (fifo_serializability hreachable).2.1 ℕ semantics accounts⟩

end RakuraiValidator.UnifiedScheduler
