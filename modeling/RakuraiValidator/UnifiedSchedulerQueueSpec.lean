import RakuraiValidator.UnifiedSchedulerMachine

/-!
# What a usage queue represents

Both representations of a usage queue stand for the same two lists: the usages
which are held right now and the usages which wait.  `Represents` relates a
queue to these lists, the holders up to a permutation, and every operation of
the queue is described once in terms of them.  The proofs about the state
machine use only these descriptions.
-/

namespace RakuraiValidator.UnifiedScheduler

open BTreeMap PriorityUsageQueue

attribute [local simp] Except.bind popFirstUsageFromTask

variable {α η : Type}

def taskIds (usages : List (UsageFromTask α η)) : List ℕ :=
  usages.map (fun usage => usage.2.taskId)

@[simp] theorem taskIds_nil : taskIds ([] : List (UsageFromTask α η)) = [] := rfl

@[simp] theorem taskIds_cons (usage : UsageFromTask α η) (usages) :
    taskIds (usage :: usages) = usage.2.taskId :: taskIds usages := rfl

@[simp] theorem taskIds_append (xs ys : List (UsageFromTask α η)) :
    taskIds (xs ++ ys) = taskIds xs ++ taskIds ys := by
  simp [taskIds]

theorem mem_taskIds {id : ℕ} {usages : List (UsageFromTask α η)} :
    id ∈ taskIds usages ↔ ∃ usage ∈ usages, usage.2.taskId = id := by
  simp [taskIds]

theorem mem_taskIds_of_mem {usage : UsageFromTask α η} {usages} (h : usage ∈ usages) :
    usage.2.taskId ∈ taskIds usages :=
  mem_taskIds.mpr ⟨usage, h, rfl⟩

theorem RequestedUsage.ne_writable_iff {kind : RequestedUsage} :
    kind ≠ .writable ↔ kind = .readonly := by
  cases kind <;> simp

theorem taskIds_perm {xs ys : List (UsageFromTask α η)} (h : xs.Perm ys) :
    (taskIds xs).Perm (taskIds ys) :=
  h.map _

def AllReadonly (usages : List (UsageFromTask α η)) : Prop :=
  ∀ usage ∈ usages, usage.1 = .readonly

attribute [local simp] AllReadonly

/-! ## The representation relation -/

inductive FifoUsage.Summarizes : Option FifoUsage → List (UsageFromTask α η) → Prop
  | unused : Summarizes none []
  | readers {holders : List (UsageFromTask α η)} (hne : holders ≠ [])
      (hall : AllReadonly holders) :
      Summarizes (some (.readonly holders.length)) holders
  | writer (task : Task α η) : Summarizes (some (.writable ())) [(.writable, task)]

inductive PriorityUsage.Summarizes : Option (PriorityUsage α η) → List (UsageFromTask α η) → Prop
  | unused : Summarizes none []
  | readers {tasks : BTreeMap ℕ (Task α η)}
      {holders : List (UsageFromTask α η)} (hne : holders ≠ [])
      (hkeys : ∀ entry ∈ tasks.entries, entry.1 = entry.2.taskId)
      (hperm : holders.Perm (tasks.values.map (fun task => (.readonly, task)))) :
      Summarizes (some (.readonly tasks)) holders
  | writer (task : Task α η) : Summarizes (some (.writable task)) [(.writable, task)]

namespace UsageQueueInner

inductive Represents : Capability → UsageQueueInner α η →
    List (UsageFromTask α η) → List (UsageFromTask α η) → Prop
  | fifo {usage : Option FifoUsage} {holders blocked : List (UsageFromTask α η)}
      (husage : FifoUsage.Summarizes usage holders) :
      Represents .fifoQueueing (.fifo usage blocked) holders blocked
  | priority {usage : Option (PriorityUsage α η)} {waiting : PriorityUsageQueue α η}
      {holders blocked : List (UsageFromTask α η)}
      (husage : PriorityUsage.Summarizes usage holders)
      (hvalues : waiting.values = blocked)
      (hkeys : ∀ entry ∈ waiting.entries, entry.1 = entry.2.2.taskId) :
      Represents .priorityQueueing (.priority usage waiting) holders blocked

theorem represents_new (capability : Capability) :
    Represents capability (new capability : UsageQueueInner α η) [] [] := by
  cases capability with
  | fifoQueueing => exact .fifo .unused
  | priorityQueueing => exact .priority .unused rfl (by simp)

variable {capability : Capability} {queue : UsageQueueInner α η}
  {holders holders' blocked : List (UsageFromTask α η)}

theorem Represents.eq_new (h : Represents capability queue [] []) : queue = new capability := by
  cases h with
  | fifo husage =>
    cases husage with
    | unused => rfl
    | readers hne _ => exact absurd rfl hne
  | @priority _ waiting _ _ husage hvals _ =>
    have hwait : waiting = BTreeMap.empty := by
      apply BTreeMap.ext
      simpa using hvals
    subst hwait
    cases husage with
    | unused => rfl
    | readers hne _ _ => exact absurd rfl hne

section

variable (h : Represents capability queue holders blocked)

include h

theorem Represents.blockedUsages_eq : queue.blockedUsages = blocked := by
  cases h with
  | fifo _ => rfl
  | priority _ hvals _ => exact hvals

theorem Represents.perm (hperm : holders.Perm holders') :
    Represents capability queue holders' blocked := by
  cases h with
  | fifo husage =>
    refine .fifo ?_
    cases husage with
    | unused =>
      rw [hperm.nil_eq.symm]
      exact .unused
    | readers hne hall =>
      rw [hperm.length_eq]
      refine .readers ?_ (fun usage hmem => hall usage (hperm.mem_iff.mpr hmem))
      rintro rfl
      exact hne hperm.eq_nil
    | writer task =>
      rw [← List.singleton_perm.mp hperm]
      exact .writer task
  | priority husage hvals hkeys =>
    refine .priority ?_ hvals hkeys
    cases husage with
    | unused =>
      rw [hperm.nil_eq.symm]
      exact .unused
    | readers hne htaskKeys htasks =>
      refine .readers ?_ htaskKeys (hperm.symm.trans htasks)
      rintro rfl
      exact hne hperm.eq_nil
    | writer task =>
      rw [← List.singleton_perm.mp hperm]
      exact .writer task

theorem Represents.compatible : AllReadonly holders ∨ ∃ task, holders = [(.writable, task)] := by
  cases h with
  | fifo husage =>
    cases husage with
    | unused => exact .inl (by simp)
    | readers _ hall => exact .inl hall
    | writer task => exact .inr ⟨task, rfl⟩
  | priority husage _ _ =>
    cases husage with
    | unused => exact .inl (by simp)
    | readers _ _ hperm =>
      left
      intro usage hmem
      obtain ⟨task, _, rfl⟩ := List.mem_map.mp (hperm.mem_iff.mp hmem)
      rfl
    | writer task => exact .inr ⟨task, rfl⟩

end

variable {task : Task α η} (h : Represents capability queue holders blocked)

include h in
theorem Represents.readonly_of_holders {other : Task α η} {usage usage' : RequestedUsage}
    (htask : (usage, task) ∈ holders) (hother : (usage', other) ∈ holders) (hne : task ≠ other) :
    ¬ (usage = .writable ∨ usage' = .writable) := by
  rcases h.compatible with hread | ⟨writer, rfl⟩
  · have husage : usage = .readonly := hread _ htask
    have husage' : usage' = .readonly := hread _ hother
    simp [husage, husage']
  · simp only [List.mem_singleton, Prod.mk.injEq] at htask hother
    exact absurd (htask.2.trans hother.2.symm) hne

theorem Represents.ascending (h : Represents .priorityQueueing queue holders blocked) :
    blocked.Pairwise (fun x y => x.2.taskId < y.2.taskId) := by
  cases h with
  | @priority _ waiting _ _ _ hvals hkeys =>
    subst hvals
    unfold values
    rw [List.pairwise_map]
    refine waiting.ascending.imp_of_mem ?_
    intro x y hx hy hlt
    rwa [hkeys x hx, hkeys y hy] at hlt

variable {holder : UsageFromTask α η}

section

variable (h : Represents capability queue holders blocked)

include h

theorem Represents.currentUsage_eq (hhold : holder ∈ holders) :
    queue.currentUsage = some holder.1 := by
  cases h with
  | fifo husage =>
    cases husage with
    | unused => simp at hhold
    | readers _ hall => simp [currentUsage, Usage.requestedUsage, hall holder hhold]
    | writer task =>
      rw [List.mem_singleton.mp hhold]
      rfl
  | priority husage _ _ =>
    cases husage with
    | unused => simp at hhold
    | readers _ _ hperm =>
      obtain ⟨task, _, rfl⟩ := List.mem_map.mp (hperm.mem_iff.mp hhold)
      rfl
    | writer task =>
      rw [List.mem_singleton.mp hhold]
      rfl

theorem Represents.currentUsage_eq_none_iff : queue.currentUsage = none ↔ holders = [] := by
  constructor
  · intro hnone
    apply List.eq_nil_iff_forall_not_mem.mpr
    intro holder hhold
    rw [h.currentUsage_eq hhold] at hnone
    contradiction
  · rintro rfl
    cases h with
    | fifo husage =>
      cases husage with
      | unused => rfl
      | readers hne _ => exact absurd rfl hne
    | priority husage _ _ =>
      cases husage with
      | unused => rfl
      | readers hne _ _ => exact absurd rfl hne

end

/-! ## Locking a queue -/

theorem tryLock_unused (h : Represents capability queue [] blocked)
    (task : Task α η) (usage : RequestedUsage) :
    ∃ queue', queue.tryLock task usage = .ok (queue', .ok) ∧
      Represents capability queue' [(usage, task)] blocked := by
  cases h with
  | @fifo _ _ blocked husage =>
    cases husage with
    | unused =>
      refine ⟨.fifo (some (FifoUsage.from usage)) blocked,
        by cases usage <;> rfl, .fifo ?_⟩
      cases usage with
      | readonly =>
        have hall : AllReadonly [(.readonly, task)] := by
          simp
        exact .readers (by simp) hall
      | writable => exact .writer task
    | readers hne _ => exact absurd rfl hne
  | @priority _ waiting _ _ husage hvals hkeys =>
    cases husage with
    | unused =>
      refine ⟨.priority (some (PriorityUsage.from task usage)) waiting,
        by cases usage <;> rfl, .priority ?_ hvals hkeys⟩
      cases usage with
      | readonly =>
        refine .readers (by simp) ?_ ?_
        · intro entry hentry
          rcases (mem_insert _ _ _ _).mp hentry with rfl | ⟨hentry, _⟩
          · rfl
          · simp at hentry
        · exact ((values_insert_perm _ task (get?_empty _)).map _).symm
      | writable => exact .writer task
    | readers hne _ _ => exact absurd rfl hne

section

variable (h : Represents capability queue holders blocked) (hne : holders ≠ [])

include h hne

theorem tryLock_readonly (hall : AllReadonly holders) (hfresh : task.taskId ∉ taskIds holders)
    (hlen : holders.length < counterMax) :
    ∃ queue', queue.tryLock task .readonly = .ok (queue', .ok) ∧
      Represents capability queue' ((.readonly, task) :: holders) blocked := by
  have hall' : AllReadonly ((.readonly, task) :: holders) := by
    intro usage hmem
    rcases List.mem_cons.mp hmem with rfl | hmem
    · rfl
    · exact hall usage hmem
  cases h with
  | fifo husage =>
    cases husage with
    | unused => exact absurd rfl hne
    | readers _ _ =>
      refine ⟨.fifo (some (.readonly (holders.length + 1))) blocked, ?_, .fifo ?_⟩
      · simp [tryLock, ShortCounter.increment, hlen, bind]
      · exact FifoUsage.Summarizes.readers (by simp) hall'
    | writer other => simp at hall
  | @priority _ waiting _ _ husage hvals hkeys =>
    cases husage with
    | unused => exact absurd rfl hne
    | @readers tasks _ _ htaskKeys hperm =>
      have hnone : tasks.get? task.taskId = none := by
        rw [get?_eq_none_iff]
        intro other hmem
        have hother : (.readonly, other) ∈ holders := by
          apply hperm.mem_iff.mpr
          exact List.mem_map_of_mem (List.mem_map.mpr ⟨_, hmem, rfl⟩)
        have hkey : task.taskId = other.taskId := htaskKeys _ hmem
        exact hfresh (hkey ▸ mem_taskIds_of_mem hother)
      refine ⟨.priority (some (.readonly (tasks.insert task.taskId task).2)) waiting,
        ?_, .priority (.readers (by simp) ?_ ?_) hvals hkeys⟩
      · simp only [tryLock]
        rw [show tasks.insert task.taskId task =
          (none, (tasks.insert task.taskId task).2) from Prod.ext hnone rfl]
      · intro entry hentry
        rcases (mem_insert _ _ _ _).mp hentry with rfl | ⟨hentry, _⟩
        · rfl
        · exact htaskKeys entry hentry
      · have hins := (values_insert_perm tasks task hnone).map
          (fun task => (RequestedUsage.readonly, task))
        exact ((hperm.cons _).trans (by simpa using hins.symm))
    | writer other => simp at hall

theorem tryLock_refused (task : Task α η) {usage : RequestedUsage}
    (hconfl : ¬ (AllReadonly holders ∧ usage = .readonly)) :
    queue.tryLock task usage = .ok (queue, .err) := by
  cases h with
  | fifo husage =>
    cases husage with
    | unused => exact absurd rfl hne
    | readers _ hall =>
      cases usage with
      | readonly => exact absurd ⟨hall, rfl⟩ hconfl
      | writable => rfl
    | writer other => cases usage <;> rfl
  | priority husage hvals hkeys =>
    cases husage with
    | unused => exact absurd rfl hne
    | readers _ _ hperm =>
      cases usage with
      | readonly =>
        refine absurd ⟨?_, rfl⟩ hconfl
        intro usage hmem
        obtain ⟨task, _, rfl⟩ := List.mem_map.mp (hperm.mem_iff.mp hmem)
        rfl
      | writable => rfl
    | writer other => cases usage <;> rfl

end

/-! ## Waiting in a queue -/

def Enqueues : Capability → UsageFromTask α η →
    List (UsageFromTask α η) → List (UsageFromTask α η) → Prop
  | .fifoQueueing, usage, blocked, blocked' => blocked' = blocked ++ [usage]
  | .priorityQueueing, usage, blocked, blocked' => blocked'.Perm (usage :: blocked)

theorem insertUsageFromTask_spec {waiting : PriorityUsageQueue α η}
    (hkeys : ∀ entry ∈ waiting.entries, entry.1 = entry.2.2.taskId)
    (usage : UsageFromTask α η) (hfresh : usage.2.taskId ∉ taskIds waiting.values) :
    ∃ waiting', insertUsageFromTask waiting usage = .ok waiting' ∧
      waiting'.values.Perm (usage :: waiting.values) ∧
      ∀ entry ∈ waiting'.entries, entry.1 = entry.2.2.taskId := by
  have hnone : waiting.get? usage.2.taskId = none := by
    rw [get?_eq_none_iff]
    intro other hmem
    have hkey : usage.2.taskId = other.2.taskId := hkeys _ hmem
    have hother : other ∈ waiting.values := List.mem_map.mpr ⟨_, hmem, rfl⟩
    exact hfresh (hkey ▸ mem_taskIds_of_mem hother)
  refine ⟨(waiting.insert usage.2.taskId usage).2, ?_, waiting.values_insert_perm usage hnone, ?_⟩
  · unfold insertUsageFromTask
    rw [show waiting.insert usage.2.taskId usage =
      (none, (waiting.insert usage.2.taskId usage).2) from Prod.ext hnone rfl]
  · intro entry hentry
    rcases (mem_insert _ _ _ _).mp hentry with rfl | ⟨hentry, _⟩
    · rfl
    · exact hkeys entry hentry

variable {usage : UsageFromTask α η}

include h in
theorem pushBlocked_spec (hne : holders ≠ []) (hfresh : usage.2.taskId ∉ taskIds blocked) :
    ∃ queue' blocked', queue.pushBlocked usage = .ok queue' ∧
      Represents capability queue' holders blocked' ∧
      Enqueues capability usage blocked blocked' := by
  obtain ⟨holder, hhold⟩ := List.exists_mem_of_ne_nil holders hne
  have hcur := h.currentUsage_eq hhold
  unfold pushBlocked
  rw [hcur]
  cases h with
  | fifo husage => exact ⟨_, _, rfl, .fifo husage, rfl⟩
  | @priority current waiting _ _ husage hvals hkeys =>
    subst hvals
    obtain ⟨waiting', hins, hperm, hkeys'⟩ := insertUsageFromTask_spec hkeys usage hfresh
    refine ⟨.priority current waiting', waiting'.values, ?_, .priority husage rfl hkeys', hperm⟩
    simp [push, hins, bind]

/-! ## Releasing a queue -/

include h in
theorem pop_spec :
    queue.pop.1 = blocked.head? ∧ Represents capability queue.pop.2 holders blocked.tail := by
  cases h with
  | fifo husage => exact ⟨rfl, .fifo husage⟩
  | @priority current waiting _ _ husage hvals hkeys =>
    subst hvals
    refine ⟨?_, .priority husage (by simp) ?_⟩
    · simp [pop, popFirst, values]
    · intro entry hentry
      exact hkeys entry (List.mem_of_mem_tail hentry)

theorem unlock_shared (h : Represents capability queue (usage :: holders) blocked)
    (hne : holders ≠ []) (hfresh : usage.2.taskId ∉ taskIds holders) :
    ∃ queue', queue.unlock usage.2 usage.1 = .ok (queue', none) ∧
      Represents capability queue' holders blocked := by
  have hlen : holders.length ≠ 0 := by simpa using hne
  have hall : AllReadonly (usage :: holders) := by
    rcases h.compatible with hall | ⟨task, htask⟩
    · exact hall
    · simp only [List.cons.injEq] at htask
      exact absurd htask.2 hne
  have hall' : AllReadonly holders :=
    fun other hother => hall other (List.mem_cons_of_mem _ hother)
  obtain ⟨kind, task⟩ := usage
  have hkind : kind = .readonly := hall (kind, task) (by simp)
  subst hkind
  cases h with
  | fifo husage =>
    cases husage with
    | readers _ _ =>
      refine ⟨.fifo (some (.readonly holders.length)) blocked, ?_, .fifo (.readers hne hall')⟩
      simp [unlock, ShortCounter.decrement, hne, bind]
  | @priority _ waiting _ _ husage hvals hkeys =>
    cases husage with
    | @readers tasks _ _ htaskKeys hperm =>
      have hmem : (task.taskId, task) ∈ tasks.entries := by
        have htask := hperm.mem_iff.mp (List.mem_cons_self (a := (RequestedUsage.readonly, task)))
        obtain ⟨other, hother, heq⟩ := List.mem_map.mp htask
        obtain ⟨entry, hentry, rfl⟩ := List.mem_map.mp hother
        simp only [Prod.mk.injEq, true_and] at heq
        have hkey := htaskKeys entry hentry
        rw [heq] at hkey
        rw [← hkey, ← heq]
        exact hentry
      have hremove := tasks.remove_perm hmem
      have hholders : holders.Perm
          ((tasks.remove task.taskId).2.values.map
            (fun task => (.readonly, task))) := by
        apply List.Perm.cons_inv (a := (RequestedUsage.readonly, task))
        refine hperm.trans ?_
        simpa [values, Function.comp_def] using
          hremove.map (fun entry => (RequestedUsage.readonly, entry.2))
      have hents : (tasks.remove task.taskId).2.entries ≠ [] := by
        intro hempty
        rw [show (tasks.remove task.taskId).2.values = [] by simpa using hempty] at hholders
        exact hne (by simpa using hholders)
      refine ⟨.priority (some (.readonly (tasks.remove task.taskId).2)) waiting, ?_,
        .priority (.readers hne ?_ hholders) hvals hkeys⟩
      · have hfst : (tasks.remove task.taskId) = (some task, (tasks.remove task.taskId).2) :=
          Prod.ext ((tasks.get?_eq_some_iff _ _).mpr hmem) rfl
        have hisEmpty : (tasks.remove task.taskId).2.isEmpty = false := by
          simpa [isEmpty] using hents
        simp only [unlock, bind, Except.bind]
        rw [hfst]
        simp [hisEmpty]
      · intro entry hentry
        exact htaskKeys entry ((mem_retain _ _ _).mp hentry).1

theorem unlock_last (h : Represents capability queue [usage] blocked) :
    ∃ queue', queue.unlock usage.2 usage.1 = .ok (queue', blocked.head?) ∧
      Represents capability queue' [] blocked.tail := by
  have hrel : ∃ released : UsageQueueInner α η,
      queue.unlock usage.2 usage.1 = .ok (released.pop.2, released.pop.1) ∧
        Represents capability released [] blocked := by
    obtain ⟨kind, task⟩ := usage
    cases h with
    | @fifo _ _ blocked husage =>
      refine ⟨.fifo none blocked, ?_, .fifo .unused⟩
      cases husage with
      | readers _ hall =>
        have hkind : kind = .readonly := hall (kind, task) (by simp)
        subst hkind
        simp [unlock, bind]
      | writer _ => rfl
    | @priority _ waiting _ _ husage hvals hkeys =>
      refine ⟨.priority none waiting, ?_, .priority .unused hvals hkeys⟩
      cases husage with
      | @readers tasks _ _ htaskKeys hperm =>
        have hvals : tasks.values.map (fun task => (.readonly, task)) =
            [(kind, task)] := List.perm_singleton.mp hperm.symm
        obtain ⟨entry, hents⟩ : ∃ entry, tasks.entries = [entry] := by
          apply List.length_eq_one_iff.mp
          simpa [values] using congrArg List.length hvals
        have hentry : kind = .readonly ∧ entry.2 = task := by
          simpa [values, hents, eq_comm] using hvals
        have hkey : entry.1 = task.taskId := by
          rw [htaskKeys entry (by simp [hents]), hentry.2]
        have hfst : tasks.remove task.taskId = (some task, (tasks.remove task.taskId).2) := by
          refine Prod.ext ((tasks.get?_eq_some_iff _ _).mpr ?_) rfl
          rw [hents, ← hkey, ← hentry.2]
          simp
        have hisEmpty : (tasks.remove task.taskId).2.isEmpty = true := by
          simp [remove, retain, isEmpty, hents, hkey]
        obtain ⟨rfl, _⟩ := hentry
        simp only [unlock, bind, Except.bind]
        rw [hfst]
        simp [hisEmpty]
      | writer _ => rfl
  obtain ⟨released, hunlock, hrepr⟩ := hrel
  obtain ⟨hpop, hrest⟩ := pop_spec hrepr
  exact ⟨released.pop.2, by rw [hunlock, hpop], hrest⟩

include h in
theorem peekBlocked_eq : queue.peekBlocked = blocked.head? := by
  cases h with
  | fifo _ => rfl
  | priority _ hvals _ =>
    subst hvals
    exact firstKeyValue_map_snd _

theorem popLockableReadonly_readonly
    (h : Represents capability queue holders ((.readonly, task) :: blocked))
    (hhold : holder ∈ holders) (hkind : holder.1 = .readonly) :
    ∃ queue', queue.popLockableReadonly = .ok (queue', some (.readonly, task)) ∧
      Represents capability queue' holders blocked := by
  obtain ⟨hpop, hrest⟩ := pop_spec h
  refine ⟨queue.pop.2, ?_, hrest⟩
  unfold popLockableReadonly
  rw [peekBlocked_eq h, h.currentUsage_eq hhold, hkind, hpop]
  rfl

include h in
theorem popLockableReadonly_none
    (hhead : ∀ usage, blocked.head? = some usage → usage.1 = .writable) :
    queue.popLockableReadonly = .ok (queue, none) := by
  unfold popLockableReadonly
  rw [peekBlocked_eq h]
  cases hblocked : blocked.head? with
  | none => rfl
  | some usage =>
    obtain ⟨kind, task⟩ := usage
    have hkind : kind = .writable := hhead (kind, task) hblocked
    subst hkind
    rfl

end UsageQueueInner

end RakuraiValidator.UnifiedScheduler
