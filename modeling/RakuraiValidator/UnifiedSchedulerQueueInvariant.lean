import RakuraiValidator.UnifiedSchedulerQueueSpec

/-!
# The invariant of one usage queue

`Serves` says that a queue deals with exactly the usages of a given list of
active tasks.  A task which arrives and a task which leaves change that list by
one usage, and the two step lemmas of this module show that the rounds of the
locking loop and of the unlocking loop follow: they never panic, they keep
`Serves`, and they change the blocked usage counts by exactly the usages which
enter or leave the blocked list.

Under priority queueing the predicate `waiting` marks the tasks which may still
be reblocked.  A holder of that kind precedes every blocked task, and this is
what makes reblocking consistent over all queues.
-/

namespace RakuraiValidator.UnifiedScheduler

open BlockedUsageCounts List

attribute [local simp] Except.bind bind

variable {α η : Type}

structure Serves (capability : Capability) (waiting : Task α η → Prop)
    (queue : UsageQueueInner α η) (users holders blocked : List (UsageFromTask α η)) :
    Prop where
  represents : UsageQueueInner.Represents capability queue holders blocked
  users_perm : (holders ++ blocked).Perm users
  idle : holders = [] → blocked = []
  arrival : capability = .fifoQueueing → users = holders ++ blocked
  before : capability = .priorityQueueing →
    ∀ holder ∈ holders, waiting holder.2 → ∀ usage ∈ blocked, holder.2.taskId < usage.2.taskId
  headWritable : capability = .priorityQueueing → AllReadonly holders →
    ∀ usage, blocked.head? = some usage → usage.1 = .writable

/-! ## Changes of the blocked usage counts -/

def raiseCounts (counts : BlockedUsageCounts) (ids : List ℕ) : BlockedUsageCounts :=
  fun id => if id ∈ ids then counts id + 1 else counts id

attribute [local simp] raiseCounts

def lowerCounts (counts : BlockedUsageCounts) (ids : List ℕ) : BlockedUsageCounts :=
  fun id => if id ∈ ids then counts id - 1 else counts id

attribute [local simp] lowerCounts

variable (counts : BlockedUsageCounts)

@[simp] theorem raiseCounts_nil : raiseCounts counts [] = counts := by
  funext id
  simp

@[simp] theorem lowerCounts_nil : lowerCounts counts [] = counts := by
  funext id
  simp

theorem update_eq_raiseCounts (id : ℕ) :
    Function.update counts id (counts id + 1) = raiseCounts counts [id] := by
  funext other
  by_cases hother : other = id
  · subst hother
    simp
  · simp [hother]

theorem update_eq_lowerCounts (id : ℕ) :
    Function.update counts id (counts id - 1) = lowerCounts counts [id] := by
  funext other
  by_cases hother : other = id
  · subst hother
    simp
  · simp [hother]

variable {id : ℕ} (fuel : ℕ) {task : Task α η} {ids : List ℕ}

theorem raiseCounts_cons (hfresh : id ∉ ids) :
    raiseCounts (raiseCounts counts [id]) ids = raiseCounts counts (id :: ids) := by
  funext other
  by_cases hother : other = id
  · subst hother
    simp [hfresh]
  · simp [hother]

theorem lowerCounts_cons (hfresh : id ∉ ids) :
    lowerCounts (lowerCounts counts [id]) ids = lowerCounts counts (id :: ids) := by
  funext other
  by_cases hother : other = id
  · subst hother
    simp [hfresh]
  · simp [hother]

variable {counts}

theorem tryReblock_of_ne_zero (hne : counts task.taskId ≠ 0)
    (hmax : counts task.taskId < counterMax) :
    counts.tryReblock task = .ok (true, raiseCounts counts [task.taskId]) := by
  simp [tryReblock, hne, ShortCounter.increment, hmax, ← update_eq_raiseCounts]

theorem tryUnblock_of_ne_zero (hne : counts task.taskId ≠ 0) :
    counts.tryUnblock task =
      .ok (decide (counts task.taskId = 1), lowerCounts counts [task.taskId]) := by
  have hone : ∀ n : ℕ, n ≠ 0 → (n - 1 = 0 ↔ n = 1) := by
    intro n hn
    omega
  simp [tryUnblock, hne, ShortCounter.decrement, hone _ hne, ← update_eq_lowerCounts]

/-! ## Relocking -/

/-- The blocked usages which lock the queue once it is free: one writer, or the
readers in front of the next writer. -/
def wakes : List (UsageFromTask α η) → List (UsageFromTask α η)
  | [] => []
  | usage :: blocked =>
    match usage.1 with
    | .writable => [usage]
    | .readonly => usage :: blocked.takeWhile (fun usage => usage.1 = .readonly)

def stays : List (UsageFromTask α η) → List (UsageFromTask α η)
  | [] => []
  | usage :: blocked =>
    match usage.1 with
    | .writable => blocked
    | .readonly => blocked.dropWhile (fun usage => usage.1 = .readonly)

theorem wakes_append_stays (blocked : List (UsageFromTask α η)) :
    wakes blocked ++ stays blocked = blocked := by
  cases blocked with
  | nil => rfl
  | cons usage blocked =>
    obtain ⟨kind, task⟩ := usage
    cases kind <;> simp [wakes, stays]

variable {blocked : List (UsageFromTask α η)}

theorem wakes_eq_nil (h : wakes blocked = []) : blocked = [] := by
  cases blocked with
  | nil => rfl
  | cons usage blocked =>
    unfold wakes at h
    cases hkind : usage.1 <;> simp [hkind] at h

variable {usage : UsageFromTask α η}

theorem wakes_single
    (h : usage.1 = .writable ∨ ∀ next, blocked.head? = some next → next.1 = .writable) :
    wakes (usage :: blocked) = [usage] ∧ stays (usage :: blocked) = blocked := by
  obtain ⟨kind, task⟩ := usage
  cases kind with
  | writable => simp [wakes, stays]
  | readonly =>
    cases blocked with
    | nil => simp [wakes, stays]
    | cons next blocked =>
      have hnext : next.1 = .writable := by simpa using h
      simp [wakes, stays, hnext]

theorem wakes_readers {next : UsageFromTask α η} (blocked : List (UsageFromTask α η))
    (husage : usage.1 = .readonly) (hnext : next.1 = .readonly) :
    wakes (usage :: next :: blocked) = usage :: wakes (next :: blocked) ∧
      stays (usage :: next :: blocked) = stays (next :: blocked) := by
  simp [wakes, stays, husage, hnext]

theorem stays_head_writable (hread : AllReadonly (wakes blocked))
    (husage : (stays blocked).head? = some usage) : usage.1 = .writable := by
  cases blocked with
  | nil => simp [stays] at husage
  | cons first blocked =>
    cases hkind : first.1 with
    | writable =>
      have hfirst := hread first (by simp [wakes, hkind])
      rw [hkind] at hfirst
      contradiction
    | readonly =>
      simp only [stays, hkind] at husage
      have hnot := head?_dropWhile_not (fun usage => decide (usage.1 = .readonly)) blocked
      rw [husage] at hnot
      cases husage : usage.1 with
      | writable => rfl
      | readonly => simp [husage] at hnot

/-- The tasks among the woken usages which have no other blocked usage. -/
def newlyUnblocked (counts : BlockedUsageCounts) (usages : List (UsageFromTask α η)) :
    List (Task α η) :=
  (usages.filter (fun usage => counts usage.2.taskId = 1)).map Prod.snd

attribute [local simp] newlyUnblocked

variable {usages : List (UsageFromTask α η)}

theorem newlyUnblocked_lowerCounts (hfresh : id ∉ taskIds usages) :
    newlyUnblocked (lowerCounts counts [id]) usages = newlyUnblocked counts usages := by
  unfold newlyUnblocked
  congr 1
  apply filter_congr
  intro usage husage
  have hne : usage.2.taskId ≠ id := by
    rintro rfl
    exact hfresh (mem_taskIds_of_mem husage)
  simp [hne]

variable (unblocked : List (Task α η))

variable {capability : Capability} {queue : UsageQueueInner α η}
  {holders : List (UsageFromTask α η)}

namespace UsageQueueInner

theorem tryLock_woken (h : Represents capability queue holders blocked) (hread : AllReadonly holders)
    (hwrite : usage.1 = .writable → holders = [])
    (hfresh : usage.2.taskId ∉ taskIds holders) (hlen : holders.length < counterMax) :
    ∃ queue', queue.tryLock usage.2 usage.1 = .ok (queue', .ok) ∧
      Represents capability queue' (usage :: holders) blocked := by
  by_cases hempty : holders = []
  · subst hempty
    exact tryLock_unused h usage.2 usage.1
  · obtain ⟨kind, task⟩ := usage
    cases kind with
    | writable => exact absurd (hwrite rfl) hempty
    | readonly => exact tryLock_readonly h hempty hread hfresh hlen

section

variable (h : Represents capability queue holders blocked) (hread : AllReadonly holders)
  (hwrite : usage.1 = .writable → holders = [])

variable (hfresh : usage.2.taskId ∉ taskIds holders) (hcount : counts usage.2.taskId ≠ 0)
  (hlen : holders.length < counterMax)

include h hread hwrite

include hfresh hcount hlen in
theorem relock_round :
    ∃ locked, Represents capability locked (usage :: holders) blocked ∧
      relock (fuel + 1) queue counts unblocked (some usage) = (do
        let (queue, newlyLockable) ← match usage.1 with
          | .readonly => locked.popLockableReadonly
          | .writable => .ok (locked, none)
        relock fuel queue (lowerCounts counts [usage.2.taskId])
          (unblocked ++ newlyUnblocked counts [usage]) newlyLockable) := by
  obtain ⟨locked, hlock, hlocked⟩ := tryLock_woken h hread hwrite hfresh hlen
  refine ⟨locked, hlocked, ?_⟩
  have hunblocked : (if decide (counts usage.2.taskId = 1) = true then unblocked ++ [usage.2]
      else unblocked) = unblocked ++ newlyUnblocked counts [usage] := by
    by_cases hone : counts usage.2.taskId = 1 <;> simp [hone]
  rw [← hunblocked]
  cases husage : usage.1 with
  | readonly | writable =>
    rw [husage] at hlock
    simp [relock, husage, hlock, tryUnblock_of_ne_zero hcount]

include hfresh hcount hlen in
theorem relock_single
    (hstop : usage.1 = .writable ∨ ∀ next, blocked.head? = some next → next.1 = .writable) :
    ∃ queue', relock (fuel + 1) queue counts unblocked (some usage) =
        .ok (queue', lowerCounts counts (taskIds (wakes (usage :: blocked))),
          unblocked ++ newlyUnblocked counts (wakes (usage :: blocked))) ∧
      Represents capability queue' (wakes (usage :: blocked) ++ holders)
        (stays (usage :: blocked)) := by
  obtain ⟨locked, hlocked, hround⟩ :=
    relock_round fuel unblocked h hread hwrite hfresh hcount hlen
  obtain ⟨hwakes, hstays⟩ := wakes_single hstop
  refine ⟨locked, ?_, by simpa [hwakes, hstays] using hlocked⟩
  rw [hround, hwakes]
  cases hkind : usage.1 with
  | writable => simp [relock]
  | readonly =>
    have hhead : ∀ next, blocked.head? = some next → next.1 = .writable := by
      rcases hstop with hwritable | hhead
      · rw [hkind] at hwritable
        contradiction
      · exact hhead
    simp [popLockableReadonly_none hlocked hhead, relock]

omit h hread hwrite in
theorem taskId_notMem (hnodup : (taskIds (holders ++ usage :: blocked)).Nodup) :
    usage.2.taskId ∉ taskIds holders := by
  intro hmem
  simp only [taskIds_append] at hnodup
  exact disjoint_of_nodup_append hnodup hmem (by simp)

theorem relock_spec (hnodup : (taskIds (holders ++ usage :: blocked)).Nodup)
    (hcounts : ∀ other ∈ usage :: blocked, counts other.2.taskId ≠ 0)
    (hlen : holders.length + blocked.length < counterMax) (hfuel : blocked.length < fuel) :
    ∃ queue', relock fuel queue counts unblocked (some usage) =
        .ok (queue', lowerCounts counts (taskIds (wakes (usage :: blocked))),
          unblocked ++ newlyUnblocked counts (wakes (usage :: blocked))) ∧
      Represents capability queue' (wakes (usage :: blocked) ++ holders)
        (stays (usage :: blocked)) := by
  -- each round pops one more reader, so the induction follows the blocked usages
  induction blocked generalizing queue holders usage counts unblocked fuel with
  | nil =>
    obtain ⟨fuel, rfl⟩ := Nat.exists_eq_add_one_of_ne_zero (by omega : fuel ≠ 0)
    exact relock_single fuel unblocked h hread hwrite (taskId_notMem hnodup)
      (hcounts usage (by simp)) (by simpa using hlen) (by simp)
  | cons next blocked ih =>
    obtain ⟨fuel, rfl⟩ := Nat.exists_eq_add_one_of_ne_zero (by omega : fuel ≠ 0)
    have hfresh := taskId_notMem hnodup
    have hcount := hcounts usage (by simp)
    simp only [length_cons] at hlen hfuel
    by_cases hstop : usage.1 = .writable ∨ next.1 = .writable
    · exact relock_single fuel unblocked h hread hwrite hfresh hcount (by omega)
        (by simpa using hstop)
    · have husage := RequestedUsage.ne_writable_iff.mp (not_or.mp hstop).1
      have hnext := RequestedUsage.ne_writable_iff.mp (not_or.mp hstop).2
      obtain ⟨locked, hlocked, hround⟩ :=
        relock_round fuel unblocked h hread hwrite hfresh hcount (by omega)
      obtain ⟨nextKind, nextTask⟩ := next
      simp only at hnext
      subst hnext
      obtain ⟨popped, hpop, hpopped⟩ :=
        popLockableReadonly_readonly hlocked (by simp : usage ∈ usage :: holders) husage
      have hread' : AllReadonly (usage :: holders) := by
        intro other hother
        rcases mem_cons.mp hother with rfl | hother
        · exact husage
        · exact hread other hother
      have hfresh' : usage.2.taskId ∉ taskIds ((.readonly, nextTask) :: blocked) := by
        simp only [taskIds_append] at hnodup
        exact (nodup_cons.mp hnodup.of_append_right).1
      have hcounts' : ∀ other ∈ ((.readonly, nextTask) :: blocked),
          lowerCounts counts [usage.2.taskId] other.2.taskId ≠ 0 := by
        intro other hother
        have hne : other.2.taskId ≠ usage.2.taskId := by
          intro heq
          exact hfresh' (heq ▸ mem_taskIds_of_mem hother)
        simpa [hne] using hcounts other (mem_cons_of_mem _ hother)
      have hnodup' : (taskIds ((usage :: holders) ++ (.readonly, nextTask) :: blocked)).Nodup := by
        refine (List.Perm.nodup_iff ?_).mp hnodup
        exact perm_middle.map _
      obtain ⟨queue', hrelock, hqueue'⟩ :=
        ih fuel (unblocked ++ newlyUnblocked counts [usage]) hpopped hread' (by simp)
          hnodup' hcounts' (by simp only [length_cons]; omega) (by omega)
      obtain ⟨hwakes, hstays⟩ :=
        wakes_readers blocked husage (rfl : (RequestedUsage.readonly, nextTask).1 = .readonly)
      have hfresh'' : usage.2.taskId ∉ taskIds (wakes ((.readonly, nextTask) :: blocked)) := by
        rw [← wakes_append_stays ((.readonly, nextTask) :: blocked), taskIds_append] at hfresh'
        exact fun hmem => hfresh' (mem_append_left _ hmem)
      refine ⟨queue', ?_, ?_⟩
      · rw [hround, husage]
        simp only [hpop, bind, Except.bind]
        rw [hrelock, hwakes, taskIds_cons, lowerCounts_cons counts hfresh'',
          newlyUnblocked_lowerCounts hfresh'', append_assoc]
        by_cases hone : counts usage.2.taskId = 1 <;> simp [hone]
      · rw [hwakes, hstays]
        exact hqueue'.perm perm_middle

end

/-! ## A task leaves -/

theorem unlockAndRelock_represents (h : Represents capability queue (usage :: holders) blocked)
    (hnodup : (taskIds ((usage :: holders) ++ blocked)).Nodup)
    (hcounts : ∀ other ∈ blocked, counts other.2.taskId ≠ 0)
    (hlen : blocked.length ≤ counterMax) :
    ∃ queue' holders' woken blocked',
      queue.unlockAndRelock counts unblocked usage.2 usage.1 =
        .ok (queue', lowerCounts counts (taskIds woken),
          unblocked ++ newlyUnblocked counts woken) ∧
      Represents capability queue' holders' blocked' ∧ blocked = woken ++ blocked' ∧
      ((holders ≠ [] ∧ holders' = holders ∧ woken = []) ∨
        (holders = [] ∧ holders' = wakes blocked ∧ woken = wakes blocked ∧
          blocked' = stays blocked)) := by
  by_cases hempty : holders = []
  · subst hempty
    obtain ⟨released, hunlock, hrel⟩ := unlock_last h
    cases blocked with
    | nil =>
      refine ⟨released, [], [], [], ?_, hrel, rfl, .inr ⟨rfl, rfl, rfl, rfl⟩⟩
      simp [unlockAndRelock, hunlock, relock]
    | cons first rest =>
      have hrest : released.blockedUsages = rest := hrel.blockedUsages_eq
      have hnodup' : (taskIds ([] ++ first :: rest)).Nodup := by
        simp only [taskIds_append] at hnodup
        exact hnodup.of_append_right
      obtain ⟨queue', hrelock, hqueue'⟩ := relock_spec (rest.length + 1) unblocked hrel
        (by simp [AllReadonly]) (fun _ => rfl) hnodup' hcounts
        (by simpa using hlen) (by simp)
      refine ⟨queue', wakes (first :: rest), wakes (first :: rest), stays (first :: rest),
        ?_, by simpa using hqueue', (wakes_append_stays _).symm,
        .inr ⟨rfl, rfl, rfl, rfl⟩⟩
      simp only [unlockAndRelock, hunlock, bind, Except.bind, hrest, head?_cons]
      exact hrelock
  · have hfresh : usage.2.taskId ∉ taskIds holders := by
      simp only [cons_append, taskIds_cons, taskIds_append] at hnodup
      exact fun hmem => (nodup_cons.mp hnodup).1 (mem_append_left _ hmem)
    obtain ⟨queue', hunlock, hqueue'⟩ := unlock_shared h hempty hfresh
    refine ⟨queue', holders, [], blocked, ?_, hqueue', rfl, .inl ⟨hempty, rfl, rfl⟩⟩
    simp [unlockAndRelock, hunlock, relock]

end UsageQueueInner

def withoutTask (id : ℕ) (usages : List (UsageFromTask α η)) : List (UsageFromTask α η) :=
  usages.filter (fun usage => usage.2.taskId ≠ id)

theorem withoutTask_append (id : ℕ) (xs ys : List (UsageFromTask α η)) :
    withoutTask id (xs ++ ys) = withoutTask id xs ++ withoutTask id ys := by
  simp [withoutTask]

theorem withoutTask_eq_self (hfresh : id ∉ taskIds usages) : withoutTask id usages = usages := by
  apply filter_eq_self.mpr
  intro usage husage
  have hne : usage.2.taskId ≠ id := by
    rintro rfl
    exact hfresh (mem_taskIds_of_mem husage)
  simpa using hne

theorem perm_cons_filter_ne {β : Type} (key : β → ℕ) {x : β} {l : List β} (hmem : x ∈ l)
    (hnodup : (l.map key).Nodup) : l.Perm (x :: l.filter (fun y => key y ≠ key x)) := by
  induction l with
  | nil => simp at hmem
  | cons head rest ih =>
    rw [map_cons, nodup_cons] at hnodup
    obtain ⟨hhead, hrest⟩ := hnodup
    rcases mem_cons.mp hmem with rfl | hmem
    · have htail : rest.filter (fun y => key y ≠ key x) = rest := by
        apply filter_eq_self.mpr
        intro y hy
        have hne : key y ≠ key x := fun heq => hhead (heq ▸ mem_map_of_mem hy)
        simpa using hne
      rw [filter_cons_of_neg (by simp), htail]
    · have hne : key head ≠ key x := fun heq => hhead (heq ▸ mem_map_of_mem hmem)
      rw [filter_cons_of_pos (by simpa using hne)]
      exact ((ih hmem hrest).cons head).trans (List.Perm.swap _ _ _)

namespace Serves

variable {waiting waiting' : Task α η → Prop} {users : List (UsageFromTask α η)}

theorem new (capability : Capability) (waiting : Task α η → Prop) :
    Serves capability waiting (UsageQueueInner.new capability) [] []
      (UsageQueueInner.new capability : UsageQueueInner α η).blockedUsages := by
  rw [(UsageQueueInner.represents_new capability).blockedUsages_eq]
  exact ⟨UsageQueueInner.represents_new capability, by simp, by simp, by simp, by simp, by simp⟩

section

variable (h : Serves capability waiting queue users holders blocked)

include h

theorem mono (hwaiting : ∀ holder ∈ holders, waiting' holder.2 → waiting holder.2) :
    Serves capability waiting' queue users holders blocked :=
  { h with
    before := fun hprio holder hhold hwait =>
      h.before hprio holder hhold (hwaiting holder hhold hwait) }

theorem nodup (hnodup : (taskIds users).Nodup) : (taskIds (holders ++ blocked)).Nodup :=
  ((h.users_perm.map _).nodup_iff).mpr hnodup

end

theorem before_of_wakes (h : Serves .priorityQueueing waiting queue users holders blocked) :
    ∀ holder ∈ wakes blocked, ∀ usage ∈ stays blocked,
      holder.2.taskId < usage.2.taskId := by
  have hasc := h.represents.ascending
  rw [← wakes_append_stays blocked] at hasc
  exact (pairwise_append.mp hasc).2.2

theorem unlockAndRelock (h : Serves capability waiting queue users holders blocked)
    {usage : UsageFromTask α η} (husage : usage ∈ holders) {counts : BlockedUsageCounts}
    (unblocked : List (Task α η)) (hnodup : (taskIds users).Nodup)
    (hcounts : ∀ other ∈ blocked, counts other.2.taskId ≠ 0)
    (hlen : blocked.length ≤ counterMax) :
    ∃ queue' holders' woken blocked',
      queue.unlockAndRelock counts unblocked usage.2 usage.1 =
        .ok (queue', lowerCounts counts (taskIds woken),
          unblocked ++ newlyUnblocked counts woken) ∧
      Serves capability waiting queue' (withoutTask usage.2.taskId users) holders' blocked' ∧
      blocked = woken ++ blocked' := by
  have hids := h.nodup hnodup
  rw [taskIds_append] at hids
  have hperm : holders.Perm (usage :: withoutTask usage.2.taskId holders) :=
    perm_cons_filter_ne (fun other : UsageFromTask α η => other.2.taskId) husage hids.of_append_left
  have hfresh : usage.2.taskId ∉ taskIds blocked :=
    disjoint_of_nodup_append hids (mem_taskIds_of_mem husage)
  have hids' : (taskIds ((usage :: withoutTask usage.2.taskId holders) ++ blocked)).Nodup := by
    refine ((List.Perm.map _ ?_).nodup_iff).mp (h.nodup hnodup)
    exact hperm.append_right blocked
  obtain ⟨queue', holders', woken, blocked', hstep, hrepr, hblocked, hcases⟩ :=
    UsageQueueInner.unlockAndRelock_represents unblocked (h.represents.perm hperm) hids'
      hcounts hlen
  have hrem : holders' ++ blocked' = withoutTask usage.2.taskId (holders ++ blocked) := by
    rw [withoutTask_append, withoutTask_eq_self hfresh]
    rcases hcases with ⟨_, rfl, rfl⟩ | ⟨hempty, rfl, rfl, rfl⟩
    · simp [hblocked]
    · rw [hempty, wakes_append_stays]
      rfl
  refine ⟨queue', holders', woken, blocked', hstep, ?_, hblocked⟩
  refine ⟨hrepr, ?_, ?_, ?_, ?_, ?_⟩
  · rw [hrem]
    exact h.users_perm.filter _
  · rcases hcases with ⟨hne, rfl, _⟩ | ⟨_, rfl, _, rfl⟩
    · exact fun hnil => absurd hnil hne
    · intro hnil
      rw [wakes_eq_nil hnil]
      rfl
  · intro hfifo
    rw [hrem, h.arrival hfifo]
  · intro hprio holder hhold hwait
    subst hprio
    rcases hcases with ⟨_, rfl, rfl⟩ | ⟨_, rfl, _, rfl⟩
    · rw [nil_append] at hblocked
      subst hblocked
      exact h.before rfl holder (mem_of_mem_filter hhold) hwait
    · exact h.before_of_wakes holder hhold
  · intro hprio hread first hfirst
    subst hprio
    rcases hcases with ⟨hne, rfl, rfl⟩ | ⟨_, rfl, _, rfl⟩
    · rw [nil_append] at hblocked
      subst hblocked
      -- a usage beside another holder reads, so all holders did
      have hall : AllReadonly holders := by
        rcases h.represents.compatible with hall | ⟨task, rfl⟩
        · exact hall
        · obtain rfl := mem_singleton.mp husage
          simp [withoutTask] at hne
      exact h.headWritable rfl hall first hfirst
    · exact stays_head_writable hread hfirst

end Serves

end RakuraiValidator.UnifiedScheduler
