import RakuraiValidator.UnifiedSchedulerQueueInvariant

/-!
# Locking a usage queue

A new task either locks a usage queue or waits in it.  Under FIFO queueing it
waits behind everything which waits already.  Under priority queueing
`prepare_lock` first moves holders of lower priority back to the blocked
usages, unless they are runnable; `Prepared` describes what it leaves behind.
-/

namespace RakuraiValidator.UnifiedScheduler

open BTreeMap BlockedUsageCounts
open List hiding isEmpty

attribute [local simp] Except.bind bind AllReadonly ShortCounter.increment Function.comp_def

variable {α η : Type}

/-! ## Reblocking -/

variable {capability : Capability} (entries : List (ℕ × Task α η)) {usage : UsageFromTask α η}

theorem extractLoop_tryReblock (counts : BlockedUsageCounts)
    (hnodup : (entries.map (fun entry => entry.2.taskId)).Nodup)
    (hmax : ∀ entry ∈ entries, counts entry.2.taskId < counterMax) :
    extractLoop (fun counts task => tryReblock counts task) entries counts =
      .ok (entries.filter (fun entry => counts entry.2.taskId ≠ 0),
        raiseCounts counts ((entries.filter (fun entry => counts entry.2.taskId ≠ 0)).map
          (fun entry => entry.2.taskId))) := by
  induction entries generalizing counts with
  | nil => simp [extractLoop]
  | cons head rest ih =>
    rw [map_cons, nodup_cons] at hnodup
    obtain ⟨hhead, hrest⟩ := hnodup
    have hmaxRest : ∀ entry ∈ rest, counts entry.2.taskId < counterMax :=
      fun entry hentry => hmax entry (mem_cons_of_mem _ hentry)
    by_cases hzero : counts head.2.taskId = 0
    · have hskip : counts.tryReblock head.2 = .ok (false, counts) := by
        simp [tryReblock, hzero]
      simp only [extractLoop, hskip, bind, Except.bind, ih counts hrest hmaxRest]
      simp [hzero]
    · -- raising the count of this reader does not change the counts of the others
      have hother : ∀ entry ∈ rest,
          raiseCounts counts [head.2.taskId] entry.2.taskId = counts entry.2.taskId := by
        intro entry hentry
        have hne : entry.2.taskId ≠ head.2.taskId := by
          intro heq
          exact hhead (mem_map.mpr ⟨entry, hentry, heq⟩)
        simp [raiseCounts, hne]
      have hfilter :
          rest.filter (fun entry => raiseCounts counts [head.2.taskId] entry.2.taskId ≠ 0) =
            rest.filter (fun entry => counts entry.2.taskId ≠ 0) := by
        apply filter_congr
        intro entry hentry
        rw [hother entry hentry]
      have hfresh : head.2.taskId ∉
          (rest.filter (fun entry => counts entry.2.taskId ≠ 0)).map
            (fun entry => entry.2.taskId) := by
        intro hmem
        obtain ⟨entry, hentry, heq⟩ := mem_map.mp hmem
        exact hhead (mem_map.mpr ⟨entry, mem_of_mem_filter hentry, heq⟩)
      have hrec := ih (raiseCounts counts [head.2.taskId]) hrest
        (fun entry hentry => by rw [hother entry hentry]; exact hmaxRest entry hentry)
      rw [hfilter, raiseCounts_cons counts hfresh] at hrec
      simp only [extractLoop, tryReblock_of_ne_zero hzero (hmax head (by simp)),
        bind, Except.bind, hrec]
      simp [hzero]

theorem extractIf_tryReblock {tasks : BTreeMap ℕ (Task α η)} {counts : BlockedUsageCounts}
    (hkeys : ∀ entry ∈ tasks.entries, entry.1 = entry.2.taskId)
    (hmax : ∀ entry ∈ tasks.entries, counts entry.2.taskId < counterMax) (lower : ℕ) :
    ∃ out rest,
      tasks.extractIf lower (fun counts task => tryReblock counts task) counts =
        .ok (out, rest, raiseCounts counts (out.map (fun entry => entry.2.taskId))) ∧
      tasks.entries.Perm (out ++ rest.entries) ∧
      (∀ entry ∈ out, lower ≤ entry.2.taskId ∧ counts entry.2.taskId ≠ 0) ∧
      ∀ entry ∈ rest.entries, counts entry.2.taskId ≠ 0 → entry.2.taskId < lower := by
  have hids : tasks.entries.map (fun entry => entry.2.taskId) = tasks.keys :=
    map_congr_left (fun entry hentry => (hkeys entry hentry).symm)
  have hnodup : ((tasks.entries.filter (fun entry => lower ≤ entry.1)).map
      (fun entry => entry.2.taskId)).Nodup := by
    refine List.Nodup.sublist (filter_sublist.map _) ?_
    rw [hids]
    exact tasks.keys_nodup
  have hloop := extractLoop_tryReblock (tasks.entries.filter (fun entry => lower ≤ entry.1))
    counts hnodup (fun entry hentry => hmax entry (mem_of_mem_filter hentry))
  have hsubl := (filter_sublist (p := fun entry => decide (counts entry.2.taskId ≠ 0))
    (l := tasks.entries.filter (fun entry => lower ≤ entry.1))).trans filter_sublist
  refine ⟨_, _, by simp only [extractIf, hloop, bind, Except.bind],
    tasks.perm_append_retain hsubl, ?_, ?_⟩
  · intro entry hentry
    simp only [mem_filter, decide_eq_true_eq] at hentry
    rw [← hkeys entry hentry.1.1]
    exact ⟨hentry.1.2, hkeys entry hentry.1.1 ▸ hentry.2⟩
  · intro entry hentry hcount
    obtain ⟨hmem, hkey⟩ := (mem_retain _ _ _).mp hentry
    simp only [decide_eq_true_eq] at hkey
    by_contra hlower
    apply hkey
    refine mem_map_of_mem ?_
    simp only [mem_filter, decide_eq_true_eq]
    refine ⟨⟨hmem, ?_⟩, hcount⟩
    rw [hkeys entry hmem]
    exact not_lt.mp hlower

theorem Serves.ne_of_fresh {waiting : Task α η → Prop} {queue : UsageQueueInner α η}
    {users holders blocked : List (UsageFromTask α η)}
    (h : Serves capability waiting queue users holders blocked) {task : Task α η}
    (hfresh : task.taskId ∉ taskIds users) (husage : usage ∈ holders ++ blocked) :
    task.taskId ≠ usage.2.taskId := by
  intro heq
  exact hfresh (heq ▸ mem_taskIds_of_mem (h.users_perm.mem_iff.mp husage))

variable {blocked' : List (UsageFromTask α η)}

variable {blocked users holders : List (UsageFromTask α η)} {task : Task α η}
  {waiting : Task α η → Prop} {counts : BlockedUsageCounts} {queue : UsageQueueInner α η}

namespace UsageQueueInner

theorem insertReblocked_spec {waiting : PriorityUsageQueue α η}
    (hkeys : ∀ entry ∈ waiting.entries, entry.1 = entry.2.2.taskId)
    (hnodup : (entries.map (fun entry => entry.2.taskId) ++ taskIds waiting.values).Nodup) :
    ∃ waiting', insertReblocked waiting entries = .ok waiting' ∧
      waiting'.values.Perm
        (entries.map (fun entry => (.readonly, entry.2)) ++ waiting.values) ∧
      ∀ entry ∈ waiting'.entries, entry.1 = entry.2.2.taskId := by
  induction entries generalizing waiting with
  | nil => exact ⟨waiting, rfl, List.Perm.refl _, hkeys⟩
  | cons head rest ih =>
    rw [map_cons, cons_append, nodup_cons] at hnodup
    obtain ⟨hhead, hrest⟩ := hnodup
    obtain ⟨inserted, hinsert, hperm, hkeys'⟩ :=
      insertUsageFromTask_spec hkeys (.readonly, head.2)
        (fun hmem => hhead (mem_append_right _ hmem))
    have hnodup' :
        (rest.map (fun entry => entry.2.taskId) ++ taskIds inserted.values).Nodup := by
      refine (List.Perm.nodup_iff ?_).mpr (nodup_cons.mpr ⟨hhead, hrest⟩)
      exact ((hperm.map _).append_left _).trans perm_middle
    obtain ⟨waiting', hrec, hperm', hkeys''⟩ := ih hkeys' hnodup'
    refine ⟨waiting', ?_, ?_, hkeys''⟩
    · simp [insertReblocked, hinsert, hrec]
    · refine hperm'.trans ((hperm.append_left _).trans ?_)
      simp

/-- What `prepare_lock` leaves behind under priority queueing.  The reblocked
usages move from the holders to the blocked usages. -/
structure Prepared (counts : BlockedUsageCounts) (task : Task α η) (usage : RequestedUsage)
    (holders blocked reblocked holders' blocked' : List (UsageFromTask α η))
    (queue' : UsageQueueInner α η) (result : LockResult) : Prop where
  represents : Represents .priorityQueueing queue' holders' blocked'
  holders_perm : holders.Perm (reblocked ++ holders')
  blocked_perm : blocked'.Perm (reblocked ++ blocked)
  lower : ∀ holder ∈ reblocked,
    counts holder.2.taskId ≠ 0 ∧ task.taskId < holder.2.taskId
  split : ∀ holder ∈ holders', counts holder.2.taskId ≠ 0 →
    ∀ other ∈ reblocked, holder.2.taskId < other.2.taskId
  admitted : result = .ok →
    AllReadonly holders' ∧ (usage = .writable → holders' = []) ∧
      (∀ other ∈ blocked', task.taskId < other.2.taskId) ∧
      (usage = .readonly → ∀ other, blocked'.head? = some other → other.1 = .writable)
  refused : result = .err →
    holders' ≠ [] ∧
      (∀ holder ∈ holders', counts holder.2.taskId ≠ 0 → holder.2.taskId < task.taskId) ∧
      (AllReadonly holders' →
        (usage = .writable ∧ ∀ other ∈ blocked', task.taskId < other.2.taskId) ∨
          ∃ other, blocked'.head? = some other ∧ other.1 = .writable ∧ other.2.taskId < task.taskId)

variable {first : UsageFromTask α η}

section

variable (hasc : blocked.Pairwise (fun x y => x.2.taskId < y.2.taskId))

include hasc

theorem head?_le_of_ascending {other : UsageFromTask α η} (hfirst : blocked.head? = some first)
    (hother : other ∈ blocked) : first.2.taskId ≤ other.2.taskId := by
  cases blocked with
  | nil => simp at hother
  | cons head rest =>
    obtain rfl : head = first := by simpa using hfirst
    rcases mem_cons.mp hother with rfl | hother
    · exact le_refl _
    · exact (rel_of_pairwise_cons hasc hother).le

theorem head?_eq_of_ascending (hfirst : first ∈ blocked)
    (hleast : ∀ other ∈ blocked, first.2.taskId ≤ other.2.taskId) : blocked.head? = some first := by
  cases blocked with
  | nil => simp at hfirst
  | cons head rest =>
    rcases mem_cons.mp hfirst with rfl | hmem
    · rfl
    · have hlt := rel_of_pairwise_cons hasc hmem
      exact absurd (hleast head (by simp)) (not_le.mpr hlt)

end

theorem isHigherPriority_eq {other : Task α η} (hne : task.taskId ≠ other.taskId) :
    task.isHigherPriority other = .ok (decide (task.taskId < other.taskId)) := by
  unfold Task.isHigherPriority
  split
  next hlt => simp [hlt]
  next hlt =>
    have hgt : other.taskId < task.taskId := by omega
    simp [hgt, hlt]

section PriorityQueueing

variable {pending : PriorityUsageQueue α η}

theorem prepareLock_writer {current : Task α η} (usage : RequestedUsage)
    (h : Serves .priorityQueueing waiting (.priority (some (.writable current)) pending) users
      [(.writable, current)] blocked)
    (hnodup : (taskIds users).Nodup) (hfresh : task.taskId ∉ taskIds users)
    (hwaiting : counts current.taskId ≠ 0 → waiting current)
    (hmax : counts current.taskId < counterMax) :
    ∃ queue' reblocked holders' blocked' result,
      prepareLock (.priority (some (.writable current)) pending) counts task usage =
        .ok (queue', raiseCounts counts (taskIds reblocked), result) ∧
      Prepared counts task usage [(.writable, current)] blocked reblocked holders' blocked'
        queue' result := by
  have hne : task.taskId ≠ current.taskId :=
    h.ne_of_fresh hfresh (mem_append_left _ (mem_singleton_self _))
  by_cases hlower : task.taskId < current.taskId ∧ counts current.taskId ≠ 0
  · obtain ⟨hlt, hcount⟩ := hlower
    have hids := h.nodup hnodup
    cases h.represents with
    | priority husage hvals hkeys =>
      subst hvals
      have hnot : current.taskId ∉ taskIds pending.values :=
        (nodup_cons.mp hids).1
      obtain ⟨inserted, hinsert, hperm, hkeys'⟩ :=
        insertUsageFromTask_spec hkeys (.writable, current) hnot
      have hqueue' : Represents .priorityQueueing
          (.priority none inserted : UsageQueueInner α η) [] inserted.values :=
        .priority .unused rfl hkeys'
      have hprecedes : ∀ other ∈ inserted.values, current.taskId ≤ other.2.taskId := by
        intro other hother
        rcases mem_cons.mp (hperm.mem_iff.mp hother) with rfl | hother
        · exact le_refl _
        · exact (h.before rfl _ (mem_singleton_self _) (hwaiting hcount) other hother).le
      refine ⟨.priority none inserted, [(.writable, current)], [], inserted.values, .ok,
        ?_, hqueue', by simp, hperm, by simpa using ⟨hcount, hlt⟩, by simp, ?_, by simp⟩
      · simp [prepareLock, isHigherPriority_eq hne, hlt, tryReblock_of_ne_zero hcount hmax,
          PriorityUsage.takeWritable, hinsert]
      · intro _
        refine ⟨by simp, fun _ => rfl, ?_, ?_⟩
        · exact fun other hother => hlt.trans_le (hprecedes other hother)
        · intro _ other hother
          have hfirst := head?_eq_of_ascending hqueue'.ascending
            (hperm.mem_iff.mpr (mem_cons_self)) hprecedes
          rw [hfirst] at hother
          cases hother
          rfl
  · refine ⟨_, [], [(.writable, current)], blocked, .err, ?_, h.represents, by simp, by simp,
      by simp, by simp, by simp, ?_⟩
    · by_cases hlt : task.taskId < current.taskId
      · have hcount : counts current.taskId = 0 := by tauto
        simp [prepareLock, isHigherPriority_eq hne, hlt, tryReblock, hcount]
      · simp [prepareLock, isHigherPriority_eq hne, hlt]
    · intro _
      refine ⟨by simp, ?_, by simp⟩
      intro holder hhold hcount
      obtain rfl := mem_singleton.mp hhold
      have hnotlt : ¬ task.taskId < current.taskId := fun hlt => hlower ⟨hlt, hcount⟩
      exact lt_of_le_of_ne (not_lt.mp hnotlt) hne.symm

variable {tasks : BTreeMap ℕ (Task α η)}
  (h : Serves .priorityQueueing waiting (.priority (some (.readonly tasks)) pending) users holders
    blocked)

include h in
theorem prepareLock_reader (hfresh : task.taskId ∉ taskIds users) (hne : holders ≠ [])
    (hread : AllReadonly holders)
    (hwaiting : ∀ holder ∈ holders, counts holder.2.taskId ≠ 0 → waiting holder.2) :
    ∃ result,
      prepareLock (.priority (some (.readonly tasks)) pending) counts task .readonly =
        .ok (.priority (some (.readonly tasks)) pending, counts, result) ∧
      Prepared counts task .readonly holders blocked [] holders blocked
        (.priority (some (.readonly tasks)) pending) result := by
  have hpeek := peekBlocked_eq h.represents
  have hasc := h.represents.ascending
  cases hhead : blocked.head? with
  | none =>
    have hnil : blocked = [] := by simpa using hhead
    subst hnil
    refine ⟨.ok, ?_, h.represents, by simp, by simp, by simp, by simp, ?_, by simp⟩
    · simp [prepareLock, hpeek]
    · exact fun _ => ⟨hread, by simp, by simp, by simp⟩
  | some first =>
    obtain ⟨kind, peeked⟩ := first
    have hkind : kind = .writable := h.headWritable rfl hread _ hhead
    subst hkind
    have hpeeked : (.writable, peeked) ∈ blocked := mem_of_head? hhead
    have hneq : task.taskId ≠ peeked.taskId :=
      h.ne_of_fresh hfresh (mem_append_right _ hpeeked)
    rw [hhead] at hpeek
    by_cases hlt : task.taskId < peeked.taskId
    · refine ⟨.ok, ?_, h.represents, by simp, by simp, by simp, by simp, ?_, by simp⟩
      · simp [prepareLock, hpeek, isHigherPriority_eq hneq, hlt]
      · intro _
        refine ⟨hread, by simp, ?_, fun _ => h.headWritable rfl hread⟩
        exact fun other hother =>
          hlt.trans_le (head?_le_of_ascending hasc hhead hother)
    · have hgt : peeked.taskId < task.taskId := by omega
      refine ⟨.err, ?_, h.represents, by simp, by simp, by simp, by simp, by simp, ?_⟩
      · simp [prepareLock, hpeek, isHigherPriority_eq hneq, hlt]
      · intro _
        refine ⟨hne, ?_, fun _ => .inr ⟨_, hhead, rfl, hgt⟩⟩
        intro holder hhold hcount
        exact (h.before rfl holder hhold (hwaiting holder hhold hcount) _ hpeeked).trans hgt

theorem prepareLock_readers_head {reblocked : List (UsageFromTask α η)}
    (h : Serves .priorityQueueing waiting queue users holders blocked)
    (hfresh : task.taskId ∉ taskIds users) (hread : AllReadonly holders)
    (hmoved : ∀ holder ∈ reblocked, task.taskId < holder.2.taskId ∧
      ∀ other ∈ blocked, holder.2.taskId < other.2.taskId)
    (hblocked' : blocked'.Perm (reblocked ++ blocked))
    (hasc : blocked'.Pairwise (fun x y => x.2.taskId < y.2.taskId))
    (hnot : ¬ ∀ other ∈ blocked', task.taskId < other.2.taskId) :
    ∃ other, blocked'.head? = some other ∧ other.1 = .writable ∧ other.2.taskId < task.taskId := by
  push Not at hnot
  obtain ⟨other, hother, hle⟩ := hnot
  rcases mem_append.mp (hblocked'.mem_iff.mp hother) with hmem | hmem
  · exact absurd (hmoved other hmem).1 (not_lt.mpr hle)
  · have hlt : other.2.taskId < task.taskId :=
      lt_of_le_of_ne hle (h.ne_of_fresh hfresh (mem_append_right _ hmem)).symm
    have hnone : reblocked = [] := by
      apply eq_nil_iff_forall_not_mem.mpr
      intro holder hhold
      obtain ⟨hlower, hbefore⟩ := hmoved holder hhold
      exact absurd (hlower.trans (hbefore other hmem)) (not_lt.mpr hle)
    rw [hnone, nil_append] at hblocked'
    cases hhead : blocked.head? with
    | none =>
      have hnil : blocked = [] := by simpa using hhead
      simp [hnil] at hmem
    | some first =>
      have hleast : ∀ usage ∈ blocked, first.2.taskId ≤ usage.2.taskId :=
        fun usage husage => head?_le_of_ascending h.represents.ascending hhead husage
      refine ⟨first, ?_, h.headWritable rfl hread first hhead, (hleast other hmem).trans_lt hlt⟩
      exact head?_eq_of_ascending hasc
        (hblocked'.mem_iff.mpr (mem_of_head? hhead))
        (fun usage husage => hleast usage (hblocked'.mem_iff.mp husage))

include h in
theorem prepareLock_readers (hnodup : (taskIds users).Nodup)
    (hfresh : task.taskId ∉ taskIds users) (hne : holders ≠ []) (hread : AllReadonly holders)
    (hwaiting : ∀ holder ∈ holders, counts holder.2.taskId ≠ 0 → waiting holder.2)
    (hmax : ∀ holder ∈ holders, counts holder.2.taskId < counterMax) :
    ∃ queue' reblocked holders' blocked' result,
      prepareLock (.priority (some (.readonly tasks)) pending) counts task .writable =
        .ok (queue', raiseCounts counts (taskIds reblocked), result) ∧
      Prepared counts task .writable holders blocked reblocked holders' blocked' queue' result := by
  cases hrepr : h.represents with
  | priority husage hvals hkeys =>
    cases husage with
    | readers _ htaskKeys hperm =>
      subst hvals
      have hhold : ∀ entry ∈ tasks.entries, (.readonly, entry.2) ∈ holders :=
        fun entry hentry => hperm.mem_iff.mpr (mem_map_of_mem (mem_map_of_mem hentry))
      obtain ⟨out, rest, hextr, hsplit, hout, hrest⟩ :=
        extractIf_tryReblock htaskKeys
          (fun entry hentry => hmax _ (hhold entry hentry)) task.taskId
      obtain ⟨reblocked, hreblocked⟩ :
          ∃ usages, usages = out.map (fun entry => (RequestedUsage.readonly, entry.2)) :=
        ⟨_, rfl⟩
      have hreblockedIds : taskIds reblocked = out.map (fun entry => entry.2.taskId) := by
        simp [hreblocked, taskIds]
      have hholders : holders.Perm (reblocked ++
          rest.values.map (fun task => (RequestedUsage.readonly, task))) := by
        refine hperm.trans ?_
        simpa [hreblocked, values] using
          hsplit.map (fun entry => (RequestedUsage.readonly, entry.2))
      have hmoved : ∀ holder ∈ reblocked, counts holder.2.taskId ≠ 0 ∧
          task.taskId < holder.2.taskId ∧
          ∀ other ∈ pending.values, holder.2.taskId < other.2.taskId := by
        intro holder hmem
        have hmem' := hholders.mem_iff.mpr (mem_append_left _ hmem)
        have hneq := h.ne_of_fresh hfresh (mem_append_left _ hmem')
        rw [hreblocked] at hmem
        obtain ⟨entry, hentry, rfl⟩ := mem_map.mp hmem
        obtain ⟨hle, hcount⟩ := hout entry hentry
        exact ⟨hcount, lt_of_le_of_ne hle hneq, h.before rfl _ hmem' (hwaiting _ hmem' hcount)⟩
      have hids : (out.map (fun entry => entry.2.taskId) ++ taskIds pending.values).Nodup := by
        rw [← hreblockedIds, ← taskIds_append]
        refine (taskIds_perm (hholders.append_right _)).nodup_iff.mp (h.nodup hnodup)
          |>.sublist (List.Sublist.map _ ?_)
        rw [append_assoc]
        exact (sublist_append_right _ _).append_left reblocked
      obtain ⟨inserted, hinsert, hins, hkeys'⟩ := insertReblocked_spec out hkeys hids
      rw [← hreblocked] at hins
      by_cases hempty : rest.entries = []
      · have hnone : rest.values = [] := by simpa using hempty
        rw [hnone, map_nil] at hholders
        refine ⟨.priority none inserted, reblocked, [], inserted.values, .ok, ?_,
          .priority .unused rfl hkeys', hholders, hins,
          fun holder hmem => ⟨(hmoved holder hmem).1, (hmoved holder hmem).2.1⟩, by simp,
          ?_, by simp⟩
        · rw [hreblockedIds]
          simp [prepareLock, hextr, hinsert, PriorityUsage.takeReadable, isEmpty, hempty]
        · intro _
          refine ⟨by simp, fun _ => rfl, ?_, by simp⟩
          obtain ⟨holder, hhold⟩ := exists_mem_of_ne_nil holders hne
          obtain ⟨_, hlt, hbefore⟩ := hmoved holder (by simpa using hholders.mem_iff.mp hhold)
          intro other hother
          rcases mem_append.mp (hins.mem_iff.mp hother) with hother | hother
          · exact (hmoved other hother).2.1
          · exact hlt.trans (hbefore other hother)
      · have hkept : ∀ holder ∈ rest.values.map (fun task => (RequestedUsage.readonly, task)),
            counts holder.2.taskId ≠ 0 → holder.2.taskId < task.taskId := by
          intro holder hhold hcount
          obtain ⟨_, hmem, rfl⟩ := mem_map.mp hhold
          obtain ⟨entry, hentry, rfl⟩ := mem_map.mp hmem
          exact hrest entry hentry hcount
        refine ⟨.priority (some (.readonly rest)) inserted, reblocked,
          rest.values.map (fun task => (.readonly, task)), inserted.values,
          .err, ?_, .priority (.readers ?_ ?_ (List.Perm.refl _)) rfl hkeys', hholders,
          hins, fun holder hmem => ⟨(hmoved holder hmem).1, (hmoved holder hmem).2.1⟩,
          ?_, by simp, ?_⟩
        · rw [hreblockedIds]
          simp [prepareLock, hextr, hinsert, isEmpty, hempty]
        · simpa using hempty
        · intro entry hentry
          exact htaskKeys entry (hsplit.mem_iff.mpr (mem_append_right _ hentry))
        · exact fun holder hhold hcount other hother =>
            (hkept holder hhold hcount).trans (hmoved other hother).2.1
        · intro _
          refine ⟨by simpa using hempty, hkept, fun _ => ?_⟩
          by_cases hall : ∀ other ∈ inserted.values, task.taskId < other.2.taskId
          · exact .inl ⟨rfl, hall⟩
          · right
            exact prepareLock_readers_head h hfresh hread
              (fun holder hmem => (hmoved holder hmem).2) hins
              (Represents.priority .unused rfl hkeys').ascending hall

theorem prepareLock_priority (h : Serves .priorityQueueing waiting queue users holders blocked)
    (usage : RequestedUsage) (hnodup : (taskIds users).Nodup) (hfresh : task.taskId ∉ taskIds users)
    (hwaiting : ∀ holder ∈ holders, counts holder.2.taskId ≠ 0 → waiting holder.2)
    (hmax : ∀ holder ∈ holders, counts holder.2.taskId < counterMax) :
    ∃ queue' reblocked holders' blocked' result,
      queue.prepareLock counts task usage =
        .ok (queue', raiseCounts counts (taskIds reblocked), result) ∧
      Prepared counts task usage holders blocked reblocked holders' blocked' queue' result := by
  have hrepr := h.represents
  cases hrepr with
  | priority husage hvals hkeys =>
    cases husage with
    | unused =>
      have hnil := h.idle rfl
      subst hnil
      refine ⟨_, [], [], [], .ok, ?_, h.represents, by simp, by simp, by simp, by simp,
        fun _ => ⟨by simp, fun _ => rfl, by simp, by simp⟩, by simp⟩
      simp [prepareLock, isEmpty, ← values_eq_nil_iff, hvals]
    | writer current =>
      have hmem := mem_singleton_self (RequestedUsage.writable, current)
      exact prepareLock_writer usage h hnodup hfresh (hwaiting _ hmem) (hmax _ hmem)
    | readers hne _ hperm =>
      have hread : AllReadonly holders := by
        intro holder hhold
        obtain ⟨_, _, rfl⟩ := mem_map.mp (hperm.mem_iff.mp hhold)
        rfl
      cases usage with
      | readonly =>
        obtain ⟨result, hprepare, hprep⟩ :=
          prepareLock_reader h hfresh hne hread hwaiting
        exact ⟨_, [], holders, blocked, result, by simpa using hprepare, hprep⟩
      | writable => exact prepareLock_readers h hnodup hfresh hne hread hwaiting hmax

end PriorityQueueing

/-! ## A task arrives -/

variable {prepared : UsageQueueInner α η} {counts' : BlockedUsageCounts}

theorem lockOrBlock_locked {usage : RequestedUsage} (count : ℕ)
    (hprepare : queue.prepareLock counts task usage = .ok (prepared, counts', .ok))
    (h : Represents capability prepared holders blocked) (hread : AllReadonly holders)
    (hwrite : usage = .writable → holders = []) (hfresh : task.taskId ∉ taskIds holders)
    (hlen : holders.length < counterMax) :
    ∃ queue', queue.lockOrBlock counts task usage count = .ok (queue', counts', count) ∧
      Represents capability queue' ((usage, task) :: holders) blocked := by
  have hfresh' : ((usage, task) : UsageFromTask α η).2.taskId ∉ taskIds holders := hfresh
  obtain ⟨queue', hlock, hqueue'⟩ := tryLock_woken h hread hwrite hfresh' hlen
  refine ⟨queue', ?_, hqueue'⟩
  simp [lockOrBlock, hprepare, hlock]

theorem lockOrBlock_blocked {usage : RequestedUsage} {result : LockResult} {count : ℕ}
    (hprepare : queue.prepareLock counts task usage = .ok (prepared, counts', result))
    (hrefused : result = .ok → prepared.tryLock task usage = .ok (prepared, .err))
    (h : Represents capability prepared holders blocked) (hne : holders ≠ [])
    (hfresh : task.taskId ∉ taskIds blocked) (hcount : count < counterMax) :
    ∃ queue' blocked', queue.lockOrBlock counts task usage count =
        .ok (queue', counts', count + 1) ∧
      Represents capability queue' holders blocked' ∧
      Enqueues capability (usage, task) blocked blocked' := by
  have hfresh' : ((usage, task) : UsageFromTask α η).2.taskId ∉ taskIds blocked := hfresh
  obtain ⟨queue', blocked', hpush, hqueue', henqueues⟩ := pushBlocked_spec h hne hfresh'
  refine ⟨queue', blocked', ?_, hqueue', henqueues⟩
  cases result with
  | ok =>
    simp [lockOrBlock, hprepare, hrefused rfl, hcount, hpush]
  | err =>
    simp [lockOrBlock, hprepare, hcount, hpush]

end UsageQueueInner

namespace Serves

variable {count : ℕ}

theorem lockOrBlock_fifo (h : Serves .fifoQueueing waiting queue users holders blocked)
    (counts : BlockedUsageCounts) (usage : RequestedUsage) (hfresh : task.taskId ∉ taskIds users)
    (hlen : users.length < counterMax) (hcount : count < counterMax) :
    ∃ queue' holders' blocked' entering,
      queue.lockOrBlock counts task usage count = .ok (queue', counts, count + entering.length) ∧
      Serves .fifoQueueing waiting queue' (users ++ [(usage, task)]) holders' blocked' ∧
      (entering = [] ∨ entering = [(usage, task)]) ∧
      blocked'.Perm (entering ++ blocked) := by
  have hfreshHolders : task.taskId ∉ taskIds holders := by
    intro hmem
    obtain ⟨holder, hhold, heq⟩ := mem_taskIds.mp hmem
    exact h.ne_of_fresh hfresh (mem_append_left _ hhold) heq.symm
  have hfreshBlocked : task.taskId ∉ taskIds blocked := by
    intro hmem
    obtain ⟨other, hother, heq⟩ := mem_taskIds.mp hmem
    exact h.ne_of_fresh hfresh (mem_append_right _ hother) heq.symm
  have hprepare : queue.prepareLock counts task usage =
      .ok (queue, counts, if blocked.isEmpty then .ok else .err) := by
    cases h.represents with
    | fifo _ => rfl
  by_cases hlock : blocked = [] ∧ AllReadonly holders ∧ (usage = .writable → holders = [])
  · obtain ⟨rfl, hread, hwrite⟩ := hlock
    have hholders : holders.length < counterMax := by
      have hperm := h.users_perm.length_eq
      simp only [append_nil] at hperm
      omega
    obtain ⟨queue', hstep, hqueue'⟩ := UsageQueueInner.lockOrBlock_locked count hprepare
      h.represents hread hwrite hfreshHolders hholders
    refine ⟨queue', holders ++ [(usage, task)], [], [], hstep, ?_, .inl rfl, by simp⟩
    refine ⟨hqueue'.perm (perm_append_singleton _ _).symm, ?_, by simp, ?_, by simp,
      by simp⟩
    · rw [append_nil]
      exact (append_nil holders ▸ h.users_perm).append_right _
    · intro hfifo
      rw [h.arrival hfifo]
      simp
  · have hne : holders ≠ [] := by
      rintro rfl
      exact hlock ⟨h.idle rfl, by simp, fun _ => rfl⟩
    have hrefused : (if blocked.isEmpty then LockResult.ok else .err) = .ok →
        queue.tryLock task usage = .ok (queue, .err) := by
      intro hok
      have hnil : blocked = [] := by
        by_contra hblocked
        simp [hblocked] at hok
      refine UsageQueueInner.tryLock_refused h.represents hne task ?_
      rintro ⟨hread, rfl⟩
      exact hlock ⟨hnil, hread, by simp⟩
    obtain ⟨queue', blocked', hstep, hqueue', henqueues⟩ :=
      UsageQueueInner.lockOrBlock_blocked hprepare hrefused h.represents hne hfreshBlocked hcount
    have hblocked' : blocked' = blocked ++ [(usage, task)] := henqueues
    subst hblocked'
    refine ⟨queue', holders, _, [(usage, task)], hstep, ?_, .inr rfl, perm_append_singleton _ _⟩
    refine ⟨hqueue', ?_, fun hnil => absurd hnil hne, ?_, by simp, by simp⟩
    · rw [← append_assoc]
      exact h.users_perm.append_right _
    · intro hfifo
      simp [h.arrival hfifo]

theorem head?_writable_of_enters
    (hasc : blocked'.Pairwise (fun x y => x.2.taskId < y.2.taskId))
    (hperm : blocked'.Perm (usage :: blocked))
    (hsort : blocked.Pairwise (fun x y => x.2.taskId < y.2.taskId))
    (hfirst : (usage.1 = .writable ∧ ∀ other ∈ blocked, usage.2.taskId < other.2.taskId) ∨
      ∃ other, blocked.head? = some other ∧ other.1 = .writable ∧ other.2.taskId < usage.2.taskId) :
    ∀ first, blocked'.head? = some first → first.1 = .writable := by
  intro first hhead
  obtain ⟨least, hkind, hmem, hleast⟩ : ∃ least : UsageFromTask α η, least.1 = .writable ∧
      least ∈ blocked' ∧ ∀ other ∈ blocked', least.2.taskId ≤ other.2.taskId := by
    rcases hfirst with ⟨hkind, hlt⟩ | ⟨least, hleast, hkind, hlt⟩
    · refine ⟨usage, hkind, hperm.mem_iff.mpr (mem_cons_self), ?_⟩
      intro other hother
      rcases mem_cons.mp (hperm.mem_iff.mp hother) with rfl | hother
      · exact le_refl _
      · exact (hlt other hother).le
    · refine ⟨least, hkind,
        hperm.mem_iff.mpr (mem_cons_of_mem _ (mem_of_head? hleast)), ?_⟩
      intro other hother
      rcases mem_cons.mp (hperm.mem_iff.mp hother) with rfl | hother
      · exact hlt.le
      · exact UsageQueueInner.head?_le_of_ascending hsort hleast hother
  have heq := UsageQueueInner.head?_eq_of_ascending hasc hmem hleast
  rw [hhead] at heq
  cases heq
  exact hkind

section

variable (usage : RequestedUsage) (hnodup : (taskIds users).Nodup)
  (hfresh : task.taskId ∉ taskIds users)
  (hwaiting : ∀ holder ∈ holders, waiting holder.2 ↔ counts holder.2.taskId ≠ 0)
  (hmax : ∀ holder ∈ holders, counts holder.2.taskId < counterMax)
  (hlen : users.length < counterMax) (hcount : count < counterMax)

include hnodup hfresh hwaiting hmax hlen hcount

theorem lockOrBlock_priority (h : Serves .priorityQueueing waiting queue users holders blocked) :
    ∃ queue' reblocked holders' blocked' entering,
      queue.lockOrBlock counts task usage count =
        .ok (queue', raiseCounts counts (taskIds reblocked), count + entering.length) ∧
      Serves .priorityQueueing waiting queue' (users ++ [(usage, task)]) holders' blocked' ∧
      (entering = [] ∨ entering = [(usage, task)]) ∧
      blocked'.Perm (entering ++ (reblocked ++ blocked)) ∧
      ∀ holder ∈ reblocked, holder ∈ holders ∧ counts holder.2.taskId ≠ 0 := by
  obtain ⟨prepared, reblocked, kept, blocked', result, hprepare, hprep⟩ :=
    UsageQueueInner.prepareLock_priority h usage hnodup hfresh
      (fun holder hhold => (hwaiting holder hhold).mpr) hmax
  have hreblocked : ∀ holder ∈ reblocked, holder ∈ holders ∧ counts holder.2.taskId ≠ 0 :=
    fun holder hmem => ⟨hprep.holders_perm.mem_iff.mpr (mem_append_left _ hmem),
      (hprep.lower holder hmem).1⟩
  have hkept : ∀ holder ∈ kept, holder ∈ holders :=
    fun holder hmem => hprep.holders_perm.mem_iff.mpr (mem_append_right _ hmem)
  have hall : (kept ++ blocked').Perm (holders ++ blocked) := by
    refine (hprep.blocked_perm.append_left kept).trans ?_
    rw [← append_assoc]
    exact (perm_append_comm.trans hprep.holders_perm.symm).append_right blocked
  have hfresh' : task.taskId ∉ taskIds (kept ++ blocked') := by
    intro hmem
    obtain ⟨other, hother, heq⟩ := mem_taskIds.mp hmem
    exact h.ne_of_fresh hfresh (hall.mem_iff.mp hother) heq.symm
  rw [taskIds_append, mem_append, not_or] at hfresh'
  -- the holders which keep the usage and still wait precede everything blocked
  have hbefore : ∀ holder ∈ kept, waiting holder.2 →
      ∀ other ∈ blocked', holder.2.taskId < other.2.taskId := by
    intro holder hhold hwait other hother
    have hcounts := (hwaiting holder (hkept holder hhold)).mp hwait
    rcases mem_append.mp (hprep.blocked_perm.mem_iff.mp hother) with hother | hother
    · exact hprep.split holder hhold hcounts other hother
    · exact h.before rfl holder (hkept holder hhold) hwait other hother
  cases result with
  | ok =>
    obtain ⟨hread, hwrite, hprecedes, hhead⟩ := hprep.admitted rfl
    have hkeptLen : kept.length < counterMax := by
      have hlens := hall.trans h.users_perm |>.length_eq
      rw [length_append] at hlens
      omega
    obtain ⟨queue', hstep, hqueue'⟩ := UsageQueueInner.lockOrBlock_locked count hprepare
      hprep.represents hread hwrite hfresh'.1 hkeptLen
    refine ⟨queue', reblocked, (usage, task) :: kept, blocked', [], hstep, ?_, .inl rfl,
      hprep.blocked_perm, hreblocked⟩
    refine ⟨hqueue', ?_, by simp, by simp, ?_, ?_⟩
    · refine List.Perm.trans ?_ (perm_append_singleton _ _).symm
      exact (hall.trans h.users_perm).cons _
    · intro _ holder hhold hwait other hother
      rcases mem_cons.mp hhold with rfl | hhold
      · exact hprecedes other hother
      · exact hbefore holder hhold hwait other hother
    · intro _ hread'
      exact hhead (hread' _ mem_cons_self)
  | err =>
    obtain ⟨hne, hlower, hfirst⟩ := hprep.refused rfl
    obtain ⟨queue', blocked'', hstep, hqueue', henqueues⟩ :=
      UsageQueueInner.lockOrBlock_blocked hprepare (by simp) hprep.represents hne hfresh'.2 hcount
    have henters : blocked''.Perm ((usage, task) :: blocked') := henqueues
    refine ⟨queue', reblocked, kept, blocked'', [(usage, task)], hstep, ?_, .inr rfl,
      henters.trans (hprep.blocked_perm.cons _), hreblocked⟩
    refine ⟨hqueue', ?_, fun hnil => absurd hnil hne, by simp, ?_, ?_⟩
    · refine (henters.append_left kept).trans ?_
      refine (perm_middle.trans ?_).trans (perm_append_singleton _ _).symm
      exact (hall.trans h.users_perm).cons _
    · intro _ holder hhold hwait other hother
      rcases mem_cons.mp (henters.mem_iff.mp hother) with rfl | hother
      · exact hlower holder hhold ((hwaiting holder (hkept holder hhold)).mp hwait)
      · exact hbefore holder hhold hwait other hother
    · intro _ hread
      exact head?_writable_of_enters hqueue'.ascending henters
        hprep.represents.ascending (hfirst hread)

theorem lockOrBlock (h : Serves capability waiting queue users holders blocked) :
    ∃ queue' reblocked holders' blocked' entering,
      queue.lockOrBlock counts task usage count =
        .ok (queue', raiseCounts counts (taskIds reblocked), count + entering.length) ∧
      Serves capability waiting queue' (users ++ [(usage, task)]) holders' blocked' ∧
      (entering = [] ∨ entering = [(usage, task)]) ∧
      blocked'.Perm (entering ++ (reblocked ++ blocked)) ∧
      ∀ holder ∈ reblocked, holder ∈ holders ∧ counts holder.2.taskId ≠ 0 := by
  cases capability with
  | fifoQueueing =>
    obtain ⟨queue', holders', blocked', entering, hstep, hserv, hentering, hblocked'⟩ :=
      h.lockOrBlock_fifo counts usage hfresh hlen hcount
    exact ⟨queue', [], holders', blocked', entering, by simpa using hstep, hserv,
      hentering, hblocked', by simp⟩
  | priorityQueueing =>
    exact h.lockOrBlock_priority usage hnodup hfresh hwaiting hmax hlen hcount

end

end Serves

end RakuraiValidator.UnifiedScheduler
