import RakuraiValidator.StatusCacheLedger

/-!
# The status cache neither forgets nor invents

Every reachable cache agrees with its ledger.  A cache which is built again from the deltas
of the roots knows all statuses of the roots.
-/

namespace RakuraiValidator.TransactionStatus

open StatusCache BTreeMap List Tracked

variable {Hash T : Type} [LinearOrder Hash]

structure Consistent (cache : StatusCache Hash T) (ledger : Ledger Hash T) : Prop where
  well : cache.WellFormed
  tracks : Tracks cache ledger
  roots : RootsBounded cache ledger

variable {record : Record Hash T} {blockhash : Hash} {status : KeySlice × T} {ancestors : Finset ℕ}
  (fork : ℕ)

variable {cache : StatusCache Hash T} {ledger : Ledger Hash T}

namespace Consistent

theorem empty (inserted : List (Insertion Hash T)) :
    Consistent StatusCache.default (Ledger.empty inserted) :=
  ⟨default_wellFormed, Tracks.empty inserted, RootsBounded.empty inserted⟩

variable (h : Consistent cache ledger)

include h

theorem add (hins : ∃ insertion ∈ ledger.inserted, insertion.record = record) :
    Consistent (cache.insertWithSlice record.blockhash record.slot 0 record.slice record.value)
      (ledger.add record) where
  well := h.well.insertWithSlice _ _ _ _
  tracks := h.tracks.add hins
  roots := ⟨h.roots.max, h.roots.length, h.roots.full, h.roots.above⟩

theorem insert_eq (blockhash : Hash) (key : List Byte) (slot : ℕ) (value : T) :
    cache.insert blockhash key slot value =
      cache.insertWithSlice blockhash slot 0 (sliceOf key 0) value := by
  have hidx : ((cache.cache.get? blockhash).getD ⟨slot, 0, BTreeMap.empty⟩).keyIndex = 0 := by
    cases hentry : cache.cache.get? blockhash with
    | none => rfl
    | some entry => exact h.well.index blockhash entry hentry
  simp only [StatusCache.insert, insertWithSlice, sliceOf, hidx, Nat.zero_min]

theorem insert (insertion : Insertion Hash T) :
    Consistent (cache.insert insertion.blockhash insertion.key insertion.slot insertion.value)
      (ledger.insert insertion) := by
  rw [h.insert_eq]
  exact ⟨h.well.insertWithSlice _ _ _ _, h.tracks.insert insertion,
    ⟨h.roots.max, h.roots.length, h.roots.full, h.roots.above⟩⟩

theorem withRoot : (cache.withRoot fork).WellFormed ∧ Tracks (cache.withRoot fork) ledger :=
  ⟨⟨h.well.index, h.well.statuses, h.well.cached, h.well.maxSlot⟩,
    ⟨h.tracks.kept, h.tracks.recorded, h.tracks.deltas, h.tracks.current, h.tracks.uncleared,
      h.tracks.used, h.tracks.uses, h.tracks.inserted⟩⟩

theorem addRoot : Consistent (cache.addRoot fork) (ledger.purge (cache.withRoot fork).cutoff) := by
  have hroots := h.roots.addRoot fork
  obtain ⟨hwell, htracks⟩ := h.withRoot fork
  unfold StatusCache.addRoot purgeRoots at hroots ⊢
  cases hcutoff : (cache.withRoot fork).cutoff with
  | none =>
    rw [hcutoff] at hroots
    exact ⟨hwell, htracks, hroots⟩
  | some cutoff =>
    rw [hcutoff] at hroots
    exact ⟨hwell.purgeTo cutoff, htracks.purge cutoff, hroots⟩

theorem clear {cleared : StatusCache Hash T} {slot : ℕ}
    (hclear : cache.clearSlotEntries slot = .ok cleared) :
    Consistent cleared (ledger.clear slot cleared) := by
  have hclears := h.well.clearsSlot hclear
  refine ⟨h.well.clear hclears, h.tracks.clear hclears, ?_⟩
  constructor
  · rw [hclears.maxRootEntries]
    exact h.roots.max
  · rw [hclears.roots]
    exact h.roots.length
  · rw [hclears.roots]
    exact h.roots.full
  · rw [hclears.roots]
    exact h.roots.above

end Consistent

/-! ## Building a cache again -/

structure Grows (before after : Tracked Hash T) : Prop where
  consistent : Consistent after.1 after.2
  inserted : after.2.inserted = before.2.inserted
  roots : after.1.roots = before.1.roots
  kept : ∀ record ∈ before.2.kept, record ∈ after.2.kept

theorem Grows.trans {first second third : Tracked Hash T} (h : Grows first second)
    (h' : Grows second third) : Grows first third where
  consistent := h'.consistent
  inserted := h'.inserted.trans h.inserted
  roots := h'.roots.trans h.roots
  kept := fun record hmem => h'.kept record (h.kept record hmem)

variable {tracked : Tracked Hash T} {slot : ℕ}

section

variable (h : Consistent tracked.1 tracked.2)

include h

theorem grows_addStatuses {statuses : List (KeySlice × T)}
    (hins : ∀ status ∈ statuses, ∃ insertion ∈ tracked.2.inserted, insertion.record =
      ⟨blockhash, status.1, slot, status.2⟩) :
    Grows tracked (statuses.foldl (addStatus blockhash slot 0) tracked) ∧
      ∀ status ∈ statuses, ⟨blockhash, status.1, slot, status.2⟩ ∈
        (statuses.foldl (addStatus blockhash slot 0) tracked).2.kept := by
  induction statuses generalizing tracked with
  | nil => exact ⟨⟨h, rfl, rfl, fun _ hmem => hmem⟩, nofun⟩
  | cons status statuses ih =>
    have hfirst : Grows tracked (tracked.addStatus blockhash slot 0 status) :=
      ⟨h.add (hins status mem_cons_self), rfl, rfl, fun _ hmem => mem_append_left _ hmem⟩
    obtain ⟨hrest, hall⟩ := ih hfirst.consistent fun other hmem => by
      rw [hfirst.inserted]
      exact hins other (mem_cons_of_mem _ hmem)
    refine ⟨hfirst.trans hrest, fun other hmem => ?_⟩
    rcases mem_cons.mp hmem with heq | hmem
    · rw [heq]
      exact hrest.kept _ (mem_append_right _ (mem_singleton_self _))
    · exact hall other hmem

theorem grows_items {items : List (Hash × (ℕ × List (KeySlice × T)))}
    (hitems : ∀ item ∈ items, item.2.1 = 0 ∧ ∀ status ∈ item.2.2, ∃ insertion ∈
      tracked.2.inserted, insertion.record = ⟨item.1, status.1, slot, status.2⟩) :
    Grows tracked (items.foldl (addStatuses slot) tracked) ∧
      ∀ item ∈ items, ∀ status ∈ item.2.2, ⟨item.1, status.1, slot, status.2⟩ ∈
        (items.foldl (addStatuses slot) tracked).2.kept := by
  induction items generalizing tracked with
  | nil => exact ⟨⟨h, rfl, rfl, fun _ hmem => hmem⟩, nofun⟩
  | cons item items ih =>
    obtain ⟨hidx, hstatuses⟩ := hitems item mem_cons_self
    have hitem := grows_addStatuses h hstatuses
    have hstep : tracked.addStatuses slot item =
        item.2.2.foldl (addStatus item.1 slot 0) tracked := by
      rw [addStatuses, hidx]
    rw [← hstep] at hitem
    obtain ⟨hfirst, hkept⟩ := hitem
    obtain ⟨hrest, hall⟩ := ih hfirst.consistent fun other hmem => by
      rw [hfirst.inserted]
      exact hitems other (mem_cons_of_mem _ hmem)
    refine ⟨hfirst.trans hrest, fun other hmem => ?_⟩
    rcases mem_cons.mp hmem with heq | hmem
    · rw [heq]
      exact fun status hstat => hrest.kept _ (hkept status hstat)
    · exact hall other hmem

end

structure BuiltFrom (inserted : List (Insertion Hash T)) (done : List (SlotDelta Hash T))
    (tracked : Tracked Hash T) : Prop where
  consistent : Consistent tracked.1 tracked.2
  inserted : tracked.2.inserted = inserted
  roots : ∀ root ∈ tracked.1.roots.keys, root = 0 ∨ root ∈ done.map SlotDelta.slot
  rooted : ∀ delta ∈ done, delta.slot ∈ tracked.1.roots.keys
  kept : ∀ delta ∈ done, ∀ item ∈ delta.statuses.entries, ∀ status ∈ item.2.2,
    ⟨item.1, status.1, delta.slot, status.2⟩ ∈ tracked.2.kept

theorem smallest_eq_zero {roots slots : List ℕ} (hroots : roots.Nodup)
    (hsub : ∀ root ∈ roots, root = 0 ∨ root ∈ slots) (hlen : slots.length < roots.length) :
    0 ∈ roots ∧ 0 ∉ slots := by
  have hle : (∀ root ∈ roots, root ∈ slots) → False := by
    intro hall
    have := (subperm_of_subset hroots hall).length_le
    omega
  constructor
  · by_contra hzero
    apply hle
    intro root hmem
    rcases hsub root hmem with heq | hslot
    · rw [heq] at hmem
      exact absurd hmem hzero
    · exact hslot
  · intro hzero
    apply hle
    intro root hmem
    rcases hsub root hmem with heq | hslot
    · rw [heq]
      exact hzero
    · exact hslot

variable {inserted : List (Insertion Hash T)} {done : List (SlotDelta Hash T)}

theorem BuiltFrom.addSlot (h : BuiltFrom inserted done tracked) {delta : SlotDelta Hash T}
    (hroot : delta.isRoot = true) (hlen : (done ++ [delta]).length ≤ maxRootEntries)
    (hitems : ∀ item ∈ delta.statuses.entries, item.2.1 = 0 ∧ ∀ status ∈ item.2.2,
      ∃ insertion ∈ inserted,
        insertion.record = ⟨item.1, status.1, delta.slot, status.2⟩) :
    BuiltFrom inserted (done ++ [delta]) (tracked.addSlot delta) := by
  rw [← h.inserted] at hitems
  obtain ⟨hgrows, hkept⟩ := grows_items h.consistent hitems
  unfold Tracked.addSlot
  simp only [hroot, if_true]
  generalize delta.statuses.entries.foldl (addStatuses delta.slot) tracked = appended at *
  have hroots : ∀ root ∈ (appended.1.withRoot delta.slot).roots.keys,
      root = 0 ∨ root ∈ (done ++ [delta]).map SlotDelta.slot := by
    intro root hmem
    rw [map_append, mem_append]
    rcases (appended.1.mem_withRoot delta.slot root).mp hmem with heq | hold
    · exact .inr (.inr (by simp [heq]))
    · rw [hgrows.roots] at hold
      exact (h.roots root hold).imp_right .inl
  have hdone : ∀ other ∈ done ++ [delta],
      other.slot ∈ (appended.1.withRoot delta.slot).roots.keys := by
    intro other hmem
    rw [mem_withRoot]
    rcases List.mem_append.mp hmem with hmem | hmem
    · right
      rw [hgrows.roots]
      exact h.rooted other hmem
    · left
      rw [List.mem_singleton.mp hmem]
  have hall : ∀ other ∈ done ++ [delta], ∀ item ∈ other.statuses.entries,
      ∀ status ∈ item.2.2, ⟨item.1, status.1, other.slot, status.2⟩ ∈ appended.2.kept := by
    intro other hmem item hitem status hstat
    rcases List.mem_append.mp hmem with hmem | hmem
    · exact hgrows.kept _ (h.kept other hmem item hitem status hstat)
    · rw [List.mem_singleton.mp hmem] at hitem ⊢
      exact hkept item hitem status hstat
  have hcons := hgrows.consistent.addRoot delta.slot
  unfold Tracked.addRoot
  unfold StatusCache.addRoot purgeRoots at hcons ⊢
  rcases hgrows.consistent.roots.cutoff_cases delta.slot with
    ⟨hnone, -⟩ | ⟨smallest, rest, hkeys, hrest, hcutoff, -⟩
  · rw [hnone] at hcons ⊢
    exact ⟨hcons, hgrows.inserted.trans h.inserted, hroots, hdone, hall⟩
  · -- The purged root is 0, which is not the slot of any of the deltas.
    rw [hcutoff] at hcons ⊢
    have hexcess : 0 ∈ (appended.1.withRoot delta.slot).roots.keys ∧
        0 ∉ (done ++ [delta]).map SlotDelta.slot := by
      apply smallest_eq_zero (keys_nodup _) hroots
      rw [length_map, hkeys, length_cons, hrest]
      omega
    have hsmallest : smallest = 0 := by
      have hasc := RootsBounded.keys_ascending (appended.1.withRoot delta.slot).roots
      have hzero := hexcess.1
      rw [hkeys] at hasc hzero
      rcases List.mem_cons.mp hzero with heq | hmem
      · exact heq.symm
      · exact absurd ((List.pairwise_cons.mp hasc).1 0 hmem) (Nat.not_lt_zero _)
    subst hsmallest
    have hpos : ∀ other ∈ done ++ [delta], 0 < other.slot := by
      intro other hmem
      apply Nat.pos_of_ne_zero
      intro heq
      exact hexcess.2 (List.mem_map.mpr ⟨other, hmem, heq⟩)
    refine ⟨hcons, hgrows.inserted.trans h.inserted, ?_, ?_, ?_⟩
    · intro root hmem
      exact hroots root ((mem_purgeTo_roots _ _ _).mp hmem).1
    · intro other hmem
      exact (mem_purgeTo_roots _ _ _).mpr ⟨hdone other hmem, hpos other hmem⟩
    · intro other hmem item hitem status hstat
      have hrec := hall other hmem item hitem status hstat
      refine List.mem_filter.mpr ⟨hrec, List.any_eq_true.mpr
        ⟨_, hgrows.consistent.tracks.used _ hrec, ?_⟩⟩
      simp [hpos other hmem]

variable {deltas : List (SlotDelta Hash T)}

theorem BuiltFrom.foldl (h : BuiltFrom inserted done tracked)
    (hlen : (done ++ deltas).length ≤ maxRootEntries)
    (hdeltas : ∀ delta ∈ deltas, delta.isRoot = true ∧ ∀ item ∈ delta.statuses.entries,
      item.2.1 = 0 ∧ ∀ status ∈ item.2.2, ∃ insertion ∈ inserted,
        insertion.record = ⟨item.1, status.1, delta.slot, status.2⟩) :
    BuiltFrom inserted (done ++ deltas) (deltas.foldl Tracked.addSlot tracked) := by
  induction deltas generalizing done tracked with
  | nil => simpa using h
  | cons delta deltas ih =>
    obtain ⟨hroot, hitems⟩ := hdeltas delta mem_cons_self
    have hsplit : done ++ delta :: deltas = (done ++ [delta]) ++ deltas := by simp
    rw [hsplit] at hlen ⊢
    have hfirst : (done ++ [delta]).length ≤ maxRootEntries := by
      rw [length_append] at hlen
      omega
    exact ih (h.addSlot hroot hfirst hitems) hlen
      fun other hmem => hdeltas other (mem_cons_of_mem _ hmem)

theorem Consistent.rebuild {source : StatusCache Hash T} {ledger : Ledger Hash T}
    (h : Consistent source ledger) (hdeltas : deltas.Perm source.rootSlotDeltas) :
    BuiltFrom ledger.inserted deltas (rebuild ledger.inserted deltas) := by
  have hstart : BuiltFrom ledger.inserted []
      (StatusCache.default, Ledger.empty ledger.inserted) := by
    refine ⟨Consistent.empty _, rfl, ?_, nofun, nofun⟩
    intro root hmem
    left
    simpa [StatusCache.default, BTreeMap.keys, BTreeMap.insert, insertEntry] using hmem
  have hlen : deltas.length ≤ maxRootEntries := by
    rw [hdeltas.length_eq, rootSlotDeltas, length_map]
    exact h.roots.length
  refine hstart.foldl hlen fun delta hmem => ?_
  have hsrc := hdeltas.mem_iff.mp hmem
  obtain ⟨root, -, heq⟩ := List.mem_map.mp hsrc
  subst heq
  refine ⟨rfl, fun item hitem => ?_⟩
  cases hstat : source.slotDeltas.get? root with
  | none =>
    rw [hstat] at hitem
    cases hitem
  | some status =>
    rw [hstat] at hitem
    refine ⟨(h.well.statuses root status hstat item hitem).1, fun key hkey => ?_⟩
    refine h.tracks.inserted _ (h.tracks.recorded _ _ _ (h.well.cached root item.1 key ?_))
    rw [deltas_eq hstat hitem]
    exact hkey

/-! ## Reachable caches -/

theorem Reachable.consistent {cache : StatusCache Hash T} {ledger : Ledger Hash T}
    (h : Reachable cache ledger) : Consistent cache ledger := by
  induction h with
  | default => exact Consistent.empty []
  | insert _ blockhash _ slot value ih => exact ih.insert ⟨blockhash, _, slot, value⟩
  | addRoot _ fork ih => exact ih.addRoot fork
  | clear _ hclear ih => exact ih.clear hclear
  | append _ hdeltas ih =>
    rw [← rebuild_fst]
    exact (ih.rebuild hdeltas).consistent

namespace Consistent

theorem getStatus_eq (h : Consistent cache ledger) (key : List Byte) (blockhash : Hash)
    (ancestors : Finset ℕ) :
    cache.getStatus key blockhash ancestors =
      (cache.forks blockhash (sliceOf key 0)).find? fun fork =>
        fork.1 ∈ ancestors || cache.roots.containsKey fork.1 := by
  unfold getStatus forks
  cases hentry : cache.cache.get? blockhash with
  | none => rfl
  | some entry =>
    simp only [h.well.index blockhash entry hentry, bind, Option.bind]
    cases entry.keyMap.get? (sliceOf key 0) with
    | none => rfl
    | some forks => rfl

variable {key : List Byte}

variable (h : Consistent cache ledger)

include h

theorem getStatus_isSome (hrec : record ∈ ledger.kept) (hkey : sliceOf key 0 = record.slice)
    (hslot : record.slot ∈ ancestors ∨ record.slot ∈ cache.roots.keys) :
    (cache.getStatus key record.blockhash ancestors).isSome := by
  rw [h.getStatus_eq, hkey, find?_isSome]
  refine ⟨(record.slot, record.value), h.tracks.kept record hrec, ?_⟩
  rw [← cache.mem_roots_iff] at hslot
  simpa using hslot

theorem getStatus_recorded {slot : ℕ} {value : T}
    (hstat : cache.getStatus key blockhash ancestors = some (slot, value)) :
    (slot ∈ ancestors ∨ slot ∈ cache.roots.keys) ∧
      ⟨blockhash, sliceOf key 0, slot, value⟩ ∈ ledger.recorded := by
  rw [h.getStatus_eq] at hstat
  constructor
  · have hfound := find?_some hstat
    rw [← cache.mem_roots_iff]
    simpa using hfound
  · exact h.tracks.recorded _ _ _ (mem_of_find?_eq_some hstat)

theorem rebuild_getStatus (hrec : record ∈ ledger.uncleared)
    (hroot : record.slot ∈ cache.roots.keys) {deltas : List (SlotDelta Hash T)}
    (hdeltas : deltas.Perm cache.rootSlotDeltas) (hkey : sliceOf key 0 = record.slice)
    (ancestors : Finset ℕ) :
    ((StatusCache.default.append deltas).getStatus key record.blockhash ancestors).isSome := by
  have hbuilt := h.rebuild hdeltas
  have hdelta := h.tracks.deltas record (h.tracks.uncleared record hrec) (h.roots.above _ hroot)
  unfold StatusCache.deltas at hdelta
  cases hstat : cache.slotDeltas.get? record.slot with
  | none => simp [hstat] at hdelta
  | some status =>
    cases hitem : status.get? record.blockhash with
    | none => simp [hstat, hitem] at hdelta
    | some item =>
      simp only [hstat, Option.bind_some, hitem, Option.map_some, Option.getD_some] at hdelta
      have hmem : (⟨record.slot, true, status⟩ : SlotDelta Hash T) ∈ deltas := by
        rw [hdeltas.mem_iff]
        refine List.mem_map.mpr ⟨record.slot, hroot, ?_⟩
        rw [hstat, Option.getD_some]
      have hkept := hbuilt.kept _ hmem (record.blockhash, item)
        ((status.get?_eq_some_iff _ _).mp hitem) _ hdelta
      rw [← rebuild_fst ledger.inserted]
      exact hbuilt.consistent.getStatus_isSome hkept hkey (.inr (hbuilt.rooted _ hmem))

end Consistent

/-- The cache finds every kept insertion, also after it was built again from the deltas of
its roots, returns only recorded insertions, and clearing a slot never panics. -/
theorem status_cache_exact {cache : StatusCache Hash T} {ledger : Ledger Hash T}
    (h : Reachable cache ledger) :
    (∀ record ∈ ledger.kept, ∀ key, sliceOf key 0 = record.slice → ∀ ancestors : Finset ℕ,
      record.slot ∈ ancestors ∨ record.slot ∈ cache.roots.keys →
      (cache.getStatus key record.blockhash ancestors).isSome) ∧
    (∀ record ∈ ledger.uncleared, ledger.above record.slot → record ∈ ledger.kept) ∧
    (∀ key blockhash ancestors slot value,
      cache.getStatus key blockhash ancestors = some (slot, value) →
      (slot ∈ ancestors ∨ slot ∈ cache.roots.keys) ∧
      ⟨blockhash, sliceOf key 0, slot, value⟩ ∈ ledger.recorded ∧
      ∃ insertion ∈ ledger.inserted,
        insertion.record = ⟨blockhash, sliceOf key 0, slot, value⟩) ∧
    (∀ record ∈ ledger.uncleared, record.slot ∈ cache.roots.keys →
      ∀ deltas : List (SlotDelta Hash T), deltas.Perm cache.rootSlotDeltas →
      ∀ key, sliceOf key 0 = record.slice → ∀ ancestors,
      ((StatusCache.default.append deltas).getStatus key record.blockhash ancestors).isSome) ∧
    ∀ slot, ∃ cleared, cache.clearSlotEntries slot = .ok cleared := by
  have hconsistent := h.consistent
  refine ⟨?_, hconsistent.tracks.current, ?_, ?_, ?_⟩
  · intro record hrecord key hkey ancestors hslot
    exact hconsistent.getStatus_isSome hrecord hkey hslot
  · intro key blockhash ancestors slot value hstatus
    obtain ⟨hslot, hrecorded⟩ := hconsistent.getStatus_recorded hstatus
    exact ⟨hslot, hrecorded, hconsistent.tracks.inserted _ hrecorded⟩
  · intro record hrecord hroot deltas hdeltas key hkey ancestors
    exact hconsistent.rebuild_getStatus hrecord hroot hdeltas hkey ancestors
  · intro slot
    obtain ⟨cleared, hcleared, -⟩ := cache.clearSlotEntries_spec slot fun status hstatus =>
      hconsistent.well.present hstatus
    exact ⟨cleared, hcleared⟩

/-! ## Purged blockhashes and slots -/

theorem keys_insert_range {roots : BTreeMap ℕ Unit} {n : ℕ} (h : roots.keys = List.range n) :
    (roots.insert n ()).2.keys = List.range (n + 1) := by
  have hbelow : ∀ entry ∈ roots.entries, entry.1 < n := by
    intro entry hmem
    have hkey : entry.1 ∈ roots.keys := mem_map_of_mem hmem
    rw [h] at hkey
    exact mem_range.mp hkey
  rw [BTreeMap.keys, roots.entries_insert_last () hbelow, map_append, range_succ, ← h]
  rfl

def withRoots (tracked : Tracked Hash T) (n : ℕ) : Tracked Hash T :=
  ((List.range n).map (· + 1)).foldl Tracked.addRoot tracked

theorem Reachable.withRoots (h : Reachable tracked.1 tracked.2) (n : ℕ) :
    Reachable (withRoots tracked n).1 (withRoots tracked n).2 := by
  unfold TransactionStatus.withRoots
  induction (range n).map (· + 1) generalizing tracked with
  | nil => exact h
  | cons fork forks ih => exact ih (h.addRoot fork)

section

variable (hroots : tracked.1.roots.keys = [0]) (hmax : tracked.1.maxRootEntries = maxRootEntries)

include hroots hmax

theorem withRoots_fits {n : ℕ} (hn : n < maxRootEntries) :
    ∃ roots, withRoots tracked n = ({ tracked.1 with roots := roots }, tracked.2) ∧
      roots.keys = List.range (n + 1) := by
  induction n with
  | zero => exact ⟨tracked.1.roots, rfl, hroots⟩
  | succ n ih =>
    obtain ⟨roots, hbefore, hkeys⟩ := ih (Nat.lt_of_succ_lt hn)
    have hlast := keys_insert_range hkeys
    have hnone : (StatusCache.withRoot { tracked.1 with roots := roots } (n + 1)).cutoff =
        none := by
      unfold StatusCache.cutoff StatusCache.withRoot
      simp only [hlast, hmax, length_range]
      rw [if_neg (Nat.not_lt.mpr hn)]
    refine ⟨(roots.insert (n + 1) ()).2, ?_, hlast⟩
    have hstep : withRoots tracked (n + 1) = (withRoots tracked n).addRoot (n + 1) := by
      simp only [withRoots, range_succ, map_append, foldl_append]
      rfl
    rw [hstep, hbefore, Tracked.addRoot, StatusCache.addRoot, purgeRoots, hnone]
    rfl

theorem withRoots_purges :
    ∃ roots, withRoots tracked maxRootEntries =
      (purgeTo { tracked.1 with roots := roots } 0, tracked.2.purge (some 0)) ∧
      roots.keys = List.range 301 := by
  obtain ⟨roots, hbefore, hkeys⟩ := withRoots_fits hroots hmax (n := 299) (by decide)
  have hlast : (roots.insert 300 ()).2.keys = List.range 301 := keys_insert_range hkeys
  have hcutoff : (StatusCache.withRoot { tracked.1 with roots := roots } 300).cutoff = some 0 := by
    unfold StatusCache.cutoff StatusCache.withRoot
    simp only [hlast, hmax, length_range]
    decide
  refine ⟨(roots.insert 300 ()).2, ?_, hlast⟩
  have hstep : withRoots tracked maxRootEntries = (withRoots tracked 299).addRoot 300 := by
    have hrange : List.range maxRootEntries = List.range 299 ++ [299] := range_succ
    simp only [withRoots, hrange, map_append, foldl_append]
    rfl
  rw [hstep, hbefore, Tracked.addRoot, StatusCache.addRoot, purgeRoots, hcutoff]
  rfl

end

def sampleKey (byte : Byte) : List Byte := List.replicate 32 byte

/-- One transaction of slot 0, and one of another slot, with the same blockhash. -/
def sampleInsert (tracked : Tracked ℕ Bool) (byte : Byte) (slot : ℕ) : Tracked ℕ Bool :=
  (tracked.1.insert 7 (sampleKey byte) slot true,
    tracked.2.insert ⟨7, sampleKey byte, slot, true⟩)

theorem sampleInsert_reachable {tracked : Tracked ℕ Bool} (h : Reachable tracked.1 tracked.2)
    (byte : Byte) (slot : ℕ) :
    Reachable (sampleInsert tracked byte slot).1 (sampleInsert tracked byte slot).2 :=
  h.insert 7 (.inl (length_replicate)) slot true

def sampleStart : Tracked ℕ Bool := (StatusCache.default, Ledger.empty [])

/-- Slot 400 is cleared, but the blockhash was used there, so its transaction of slot 0 is found
after slot 0 is purged.  The one of root 5 is found after the cache is built again. -/
theorem status_cache_exact_cleared :
    ∃ cache : StatusCache ℕ Bool, (cache.getStatus (sampleKey 1) 7 {0}).isSome ∧
      ((StatusCache.default.append cache.rootSlotDeltas).getStatus (sampleKey 3) 7 ∅).isSome := by
  have hdefault : Reachable sampleStart.1 sampleStart.2 := Reachable.default
  have hinserted := sampleInsert_reachable (sampleInsert_reachable
    (sampleInsert_reachable hdefault 1 0) 2 400) 3 5
  generalize hsample : sampleInsert (sampleInsert (sampleInsert sampleStart 1 0) 2 400) 3 5 =
    sample at hinserted
  obtain ⟨cleared, hclear⟩ : ∃ cleared, sample.1.clearSlotEntries 400 = .ok cleared := by
    rw [← hsample]
    exact ⟨_, rfl⟩
  obtain ⟨hroots, hmax, hentry⟩ : cleared.roots.keys = [0] ∧
      cleared.maxRootEntries = maxRootEntries ∧ cleared.cache.containsKey 7 = true := by
    subst hsample
    cases hclear
    exact ⟨rfl, rfl, rfl⟩
  let tracked : Tracked ℕ Bool := (cleared, sample.2.clear 400 cleared)
  have hcleared : Reachable tracked.1 tracked.2 := hinserted.clear hclear
  have huse : tracked.2.inUse 7 0 = true := by
    refine any_eq_true.mpr ⟨(7, 400), mem_filter.mpr ⟨?_, hentry⟩, rfl⟩
    rw [← hsample]
    exact mem_cons_of_mem _ mem_cons_self
  obtain ⟨roots, hpurged, hkeys⟩ := @withRoots_purges _ _ _ tracked hroots hmax
  have hreachable := hcleared.withRoots maxRootEntries
  rw [hpurged] at hreachable
  have hexact := status_cache_exact hreachable
  refine ⟨_, hexact.1 ⟨7, sliceOf (sampleKey 1) 0, 0, true⟩ (mem_filter.mpr ⟨?_, huse⟩) _ rfl _
      (.inl (Finset.mem_singleton_self 0)),
    hexact.2.2.2.1 ⟨7, sliceOf (sampleKey 3) 0, 5, true⟩ ?_
      ((mem_purgeTo_roots _ _ _).mpr ⟨?_, Nat.zero_lt_succ 4⟩) _ .rfl _ rfl _⟩
  · subst hsample
    exact mem_cons_self
  · subst hsample
    exact mem_cons_of_mem _ mem_cons_self
  · exact hkeys ▸ mem_range.mpr (by decide)

/-- A blockhash that was purged and is used again does not bring its old transaction back.
A slot below the cutoff is no longer cleared. -/
theorem purged_blockhash_and_slot :
    (∃ cache : StatusCache ℕ Bool, ∃ ledger, Reachable cache ledger ∧
      ∃ record ∈ ledger.uncleared, ∃ other ∈ ledger.uncleared,
        other.blockhash = record.blockhash ∧ ledger.above other.slot ∧
        sliceOf (sampleKey 1) 0 = record.slice ∧
        cache.getStatus (sampleKey 1) record.blockhash {record.slot} = none) ∧
    ∃ cache cleared : StatusCache ℕ Bool, ∃ ledger, Reachable cache ledger ∧
      0 ∉ cache.roots.keys ∧ cache.clearSlotEntries 0 = .ok cleared ∧
      (∀ record ∈ (ledger.clear 0 cleared).uncleared, record.slot ≠ 0) ∧
      cleared.getStatus (sampleKey 1) 7 {0} = some (0, true) := by
  have hdefault : Reachable sampleStart.1 sampleStart.2 := Reachable.default
  have hfirst := sampleInsert_reachable hdefault 1 0
  constructor
  · obtain ⟨roots, hpurged, -⟩ :=
      withRoots_purges (rfl : (sampleInsert sampleStart 1 0).1.roots.keys = [0]) rfl
    have hreachable := hfirst.withRoots maxRootEntries
    rw [hpurged] at hreachable
    have hsecond := sampleInsert_reachable hreachable 2 5
    refine ⟨_, _, hsecond, ⟨7, sliceOf (sampleKey 1) 0, 0, true⟩, mem_cons_self,
      ⟨7, sliceOf (sampleKey 2) 0, 5, true⟩, mem_cons_of_mem _ mem_cons_self, rfl, ?_,
      rfl, rfl⟩
    intro cutoff hcutoff
    cases hcutoff
    decide
  · obtain ⟨roots, hpurged, -⟩ := withRoots_purges
      (rfl : (sampleInsert (sampleInsert sampleStart 1 0) 2 400).1.roots.keys = [0]) rfl
    have hreachable := (sampleInsert_reachable hfirst 2 400).withRoots maxRootEntries
    rw [hpurged] at hreachable
    refine ⟨_, _, _, hreachable, ?_, rfl, ?_, rfl⟩
    · intro hroot
      exact Nat.lt_irrefl 0 ((mem_purgeTo_roots _ _ _).mp hroot).2
    · intro record hmem
      exact of_decide_eq_true (mem_filter.mp hmem).2

end RakuraiValidator.TransactionStatus
