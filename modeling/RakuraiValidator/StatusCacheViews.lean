import RakuraiValidator.StatusCache
import RakuraiValidator.Traces

/-!
# What the operations of the status cache change

The two maps are read through the statuses of a key and the statuses of a slot.  Each
operation is described by what it does to the two readings.
-/

namespace RakuraiValidator.TransactionStatus

open Option BTreeMap

variable {Hash T : Type} [LinearOrder Hash] {entry : KeyStatus T} {other : Hash} {cutoff : ℕ}

namespace StatusCache

variable (self : StatusCache Hash T)

def forks (blockhash : Hash) (slice : KeySlice) : ForkStatus T :=
  ((self.cache.get? blockhash).bind fun entry => entry.keyMap.get? slice).getD []

def deltas (slot : ℕ) (blockhash : Hash) : List (KeySlice × T) :=
  (((self.slotDeltas.get? slot).bind fun status => status.get? blockhash).map Prod.snd).getD []

/-! ## Insertion -/

variable (blockhash : Hash) (slot keyIndex : ℕ) (slice : KeySlice) (res : T)

theorem insertWithSlice_entry (other : Hash) :
    (self.insertWithSlice blockhash slot keyIndex slice res).cache.get? other =
      if other = blockhash then
        some (((self.cache.get? blockhash).getD ⟨slot, keyIndex, BTreeMap.empty⟩).push slot slice
          res)
      else self.cache.get? other :=
  get?_insert _ _ _ _

theorem insertWithSlice_forks (other : Hash) (otherSlice : KeySlice) :
    (self.insertWithSlice blockhash slot keyIndex slice res).forks other otherSlice =
      if other = blockhash ∧ otherSlice = slice then
        self.forks blockhash slice ++ [(slot, res)]
      else self.forks other otherSlice := by
  have hpush : ∀ entry : KeyStatus T, ((entry.push slot slice res).keyMap.get? otherSlice) =
      if otherSlice = slice then some ((entry.keyMap.get? slice).getD [] ++ [(slot, res)])
      else entry.keyMap.get? otherSlice := by
    intro entry
    rw [KeyStatus.push, get?_insert]
    by_cases hslice : otherSlice = slice
    · rw [if_pos hslice, if_pos hslice]
    · rw [if_neg hslice, if_neg hslice]
  unfold forks
  rw [insertWithSlice_entry]
  by_cases hother : other = blockhash
  · subst hother
    rw [if_pos rfl, bind_some, hpush]
    cases self.cache.get? other with
    | none =>
      by_cases hslice : otherSlice = slice
      · simp [hslice, BTreeMap.get?]
      · simp [hslice, BTreeMap.get?]
    | some entry =>
      by_cases hslice : otherSlice = slice
      · simp [hslice]
      · simp [hslice]
  · rw [if_neg hother, if_neg fun h => hother h.1]

theorem insertWithSlice_slotDeltas (other : ℕ) :
    (self.insertWithSlice blockhash slot keyIndex slice res).slotDeltas.get? other =
      if other = slot then
        some (pushStatus ((self.slotDeltas.get? slot).getD BTreeMap.empty) blockhash keyIndex
          slice res)
      else self.slotDeltas.get? other :=
  get?_insert _ _ _ _

omit slot in
theorem pushStatus_get? (forkEntry : Status Hash T) (other : Hash) :
    (pushStatus forkEntry blockhash keyIndex slice res).get? other =
      if other = blockhash then
        some (((forkEntry.get? blockhash).getD (keyIndex, [])).1,
          ((forkEntry.get? blockhash).getD (keyIndex, [])).2 ++ [(slice, res)])
      else forkEntry.get? other :=
  get?_insert _ _ _ _

theorem insertWithSlice_deltas (otherSlot : ℕ) (other : Hash) :
    (self.insertWithSlice blockhash slot keyIndex slice res).deltas otherSlot other =
      if otherSlot = slot ∧ other = blockhash then
        self.deltas slot blockhash ++ [(slice, res)]
      else self.deltas otherSlot other := by
  unfold deltas
  rw [insertWithSlice_slotDeltas]
  by_cases hslot : otherSlot = slot
  · subst hslot
    rw [if_pos rfl, bind_some, pushStatus_get?]
    by_cases hother : other = blockhash
    · subst hother
      cases hstat : self.slotDeltas.get? otherSlot with
      | none => simp [BTreeMap.get?]
      | some status =>
        cases hentry : status.get? other with
        | none => simp [hentry]
        | some entry => simp [hentry]
    · rw [if_neg hother, if_neg fun h => hother h.2]
      cases hstat : self.slotDeltas.get? otherSlot with
      | none => simp [BTreeMap.get?]
      | some status => simp
  · rw [if_neg hslot, if_neg fun h => hslot h.1]

/-! ## Purging -/

theorem purgeTo_entry (cutoff : ℕ) (other : Hash) :
    (self.purgeTo cutoff).cache.get? other =
      (self.cache.get? other).filter fun entry => cutoff < entry.maxSlot :=
  get?_retain_value _ _ _

theorem purgeTo_slotDeltas (cutoff other : ℕ) :
    (self.purgeTo cutoff).slotDeltas.get? other =
      if cutoff < other then self.slotDeltas.get? other else none := by
  unfold purgeTo
  rw [get?_retain _ fun slot => decide (cutoff < slot)]
  simp only [decide_eq_true_eq]

theorem purgeTo_deltas (cutoff otherSlot : ℕ) (other : Hash) :
    (self.purgeTo cutoff).deltas otherSlot other =
      if cutoff < otherSlot then self.deltas otherSlot other else [] := by
  unfold deltas
  rw [purgeTo_slotDeltas]
  split
  · rfl
  · rfl

theorem purgeTo_forks_of_lt (h : self.cache.get? other = some entry)
    (hlt : cutoff < entry.maxSlot) (otherSlice : KeySlice) :
    (self.purgeTo cutoff).forks other otherSlice = self.forks other otherSlice := by
  unfold forks
  rw [purgeTo_entry, h, filter_some, if_pos (by simpa using hlt)]

theorem mem_forks_of_purgeTo {otherSlice : KeySlice} {fork : ℕ × T}
    (h : fork ∈ (self.purgeTo cutoff).forks other otherSlice) :
    fork ∈ self.forks other otherSlice := by
  unfold forks at h ⊢
  rw [purgeTo_entry] at h
  cases hentry : self.cache.get? other with
  | none =>
    rw [hentry] at h
    exact h
  | some entry =>
    rw [hentry, filter_some] at h
    split at h
    · exact h
    · simp at h

/-! ## Clearing -/

def forksIn (keyMap : BTreeMap KeySlice (ForkStatus T)) (slice : KeySlice) : ForkStatus T :=
  (keyMap.get? slice).getD []

theorem clearKey_forksIn (keyMap : BTreeMap KeySlice (ForkStatus T)) (key : KeySlice × T)
    (otherSlice : KeySlice) :
    forksIn (clearKey slot keyMap key) otherSlice =
      if otherSlice = key.1 then (forksIn keyMap otherSlice).filter fun fork => fork.1 ≠ slot
      else forksIn keyMap otherSlice := by
  unfold clearKey forksIn
  cases hget : keyMap.get? key.1 with
  | none =>
    by_cases hslice : otherSlice = key.1
    · simp [hslice, hget]
    · simp [hslice]
  | some keyList =>
    simp only
    split
    · rename_i hempty
      rw [get?_remove]
      by_cases hslice : otherSlice = key.1
      · rw [if_pos hslice, if_pos hslice, hslice, hget]
        exact (List.isEmpty_iff.mp hempty).symm
      · rw [if_neg hslice, if_neg hslice]
    · rw [get?_insert]
      by_cases hslice : otherSlice = key.1
      · rw [if_pos hslice, if_pos hslice, hslice, hget]
        rfl
      · rw [if_neg hslice, if_neg hslice]

theorem foldl_clearKey_forksIn (keys : List (KeySlice × T))
    (keyMap : BTreeMap KeySlice (ForkStatus T)) (otherSlice : KeySlice) :
    forksIn (keys.foldl (clearKey slot) keyMap) otherSlice =
      if otherSlice ∈ keys.map Prod.fst then
        (forksIn keyMap otherSlice).filter fun fork => fork.1 ≠ slot
      else forksIn keyMap otherSlice := by
  induction keys generalizing keyMap with
  | nil => simp
  | cons key keys ih =>
    rw [List.foldl_cons, ih, clearKey_forksIn]
    by_cases hkey : otherSlice = key.1
    · simp [hkey, List.filter_filter]
    · have hmem : otherSlice ∈ (key :: keys).map Prod.fst ↔ otherSlice ∈ keys.map Prod.fst := by
        rw [List.map_cons, List.mem_cons, or_iff_right hkey]
      simp only [if_neg hkey, hmem]

/-- The entry of a blockhash after the keys of a slot were cleared. -/
def clearedEntry (entry : KeyStatus T) (keys : List (KeySlice × T)) : Option (KeyStatus T) :=
  if (keys.foldl (clearKey slot) entry.keyMap).isEmpty then none
  else some { entry with keyMap := keys.foldl (clearKey slot) entry.keyMap }

variable {cache : BTreeMap Hash (KeyStatus T)}

theorem clearBlockhash_get? {item : Hash × (ℕ × List (KeySlice × T))}
    (h : cache.get? item.1 = some entry) :
    ∃ next, clearBlockhash slot cache item = .ok next ∧ ∀ other, next.get? other =
      if other = item.1 then clearedEntry slot entry item.2.2 else cache.get? other := by
  unfold clearBlockhash clearedEntry
  rw [h]
  simp only
  split
  · refine ⟨_, rfl, fun other => ?_⟩
    rw [get?_remove]
  · refine ⟨_, rfl, fun other => ?_⟩
    rw [get?_insert]

theorem foldlM_clearBlockhash {status : Status Hash T}
    (hpres : ∀ item ∈ status.entries, (cache.get? item.1).isSome) :
    ∃ last, status.entries.foldlM (clearBlockhash slot) cache = .ok last ∧
      ∀ other, last.get? other = match status.get? other with
        | none => cache.get? other
        | some (_, keys) => (cache.get? other).bind fun entry => clearedEntry slot entry keys := by
  -- The blockhashes that are left are as they were.
  let target : Hash → Option (KeyStatus T) := fun other =>
    match status.get? other with
    | none => cache.get? other
    | some (_, keys) => (cache.get? other).bind fun entry => clearedEntry slot entry keys
  have hstart : ∀ other, cache.get? other =
      if other ∈ status.entries.map Prod.fst then cache.get? other else target other := by
    intro other
    by_cases hother : other ∈ status.entries.map Prod.fst
    · rw [if_pos hother]
    · rw [if_neg hother]
      have hnone : status.get? other = none := by
        rw [status.get?_eq_none_iff]
        intro value hmem
        exact hother (List.mem_map.mpr ⟨_, hmem, rfl⟩)
      simp only [target, hnone]
  have hrun := Traces.foldlM_ok_of_step (clearBlockhash slot)
    (fun left current => left.Sublist status.entries ∧ ∀ other, current.get? other =
      if other ∈ left.map Prod.fst then cache.get? other else target other) ?_ status.entries
    ⟨List.Sublist.refl _, hstart⟩
  · obtain ⟨last, hlast, -, hget⟩ := hrun
    exact ⟨last, hlast, fun other => by simpa using hget other⟩
  · rintro item left current ⟨hsubl, hcur⟩
    have hmem : item ∈ status.entries := hsubl.subset List.mem_cons_self
    have hitem : status.get? item.1 = some item.2 := (status.get?_eq_some_iff _ _).mpr hmem
    have hnew : item.1 ∉ left.map Prod.fst := by
      have hnodup := status.keys_nodup.sublist (hsubl.map Prod.fst)
      exact (List.nodup_cons.mp hnodup).1
    obtain ⟨entry, hentry⟩ := Option.isSome_iff_exists.mp (hpres item hmem)
    have hget : current.get? item.1 = some entry := by
      rw [hcur, if_pos (by simp), hentry]
    obtain ⟨next, hnext, hother⟩ := clearBlockhash_get? slot hget
    refine ⟨next, hnext, (List.sublist_cons_self _ _).trans hsubl, fun other => ?_⟩
    rw [hother, hcur]
    by_cases heq : other = item.1
    · subst heq
      rw [if_pos rfl, if_neg hnew]
      simp only [target, hitem, hentry, bind_some]
    · have hmem : other ∈ (item :: left).map Prod.fst ↔ other ∈ left.map Prod.fst := by
        rw [List.map_cons, List.mem_cons, or_iff_right heq]
      simp only [if_neg heq, hmem]

structure ClearsSlot (before after : StatusCache Hash T) (slot : ℕ) : Prop where
  roots : after.roots = before.roots
  maxRootEntries : after.maxRootEntries = before.maxRootEntries
  slotDeltas : ∀ other, after.slotDeltas.get? other =
    if other = slot then none else before.slotDeltas.get? other
  entries : ∀ other entry, after.cache.get? other = some entry → ∃ old,
    before.cache.get? other = some old ∧ entry.maxSlot = old.maxSlot ∧ entry.keyIndex = old.keyIndex
  forks : ∀ other slice, after.forks other slice =
    if slice ∈ (before.deltas slot other).map Prod.fst then
      (before.forks other slice).filter fun fork => fork.1 ≠ slot
    else before.forks other slice

theorem clearSlotEntries_spec (hpres : ∀ status, self.slotDeltas.get? slot = some status →
      ∀ item ∈ status.entries, (self.cache.get? item.1).isSome) :
    ∃ cleared, self.clearSlotEntries slot = .ok cleared ∧ ClearsSlot self cleared slot := by
  unfold clearSlotEntries
  simp only [remove]
  cases hstat : self.slotDeltas.get? slot with
  | none =>
    refine ⟨self, rfl, rfl, rfl, ?_, fun other entry hentry => ⟨entry, hentry, rfl, rfl⟩, ?_⟩
    · intro other
      by_cases hother : other = slot
      · rw [if_pos hother, hother, hstat]
      · rw [if_neg hother]
    · intro other otherSlice
      simp [deltas, hstat]
  | some status =>
    obtain ⟨cache, hcache, hget⟩ := foldlM_clearBlockhash slot (hpres status hstat)
    simp only [hcache, bind, Except.bind, pure, Except.pure]
    refine ⟨_, rfl, rfl, rfl, ?_, ?_, ?_⟩
    · intro other
      exact self.slotDeltas.get?_remove slot other
    · intro other entry hentry
      rw [hget] at hentry
      split at hentry
      · exact ⟨entry, hentry, rfl, rfl⟩
      · rw [bind_eq_some_iff] at hentry
        obtain ⟨before, hbefore, hclear⟩ := hentry
        simp only [clearedEntry, ite_none_left_eq_some, Option.some.injEq] at hclear
        refine ⟨before, hbefore, ?_, ?_⟩
        · rw [← hclear.2]
        · rw [← hclear.2]
    · intro other otherSlice
      unfold forks deltas
      rw [hget, hstat, bind_some]
      cases hkeys : status.get? other with
      | none => simp
      | some item =>
        cases hentry : self.cache.get? other with
        | none => simp
        | some entry =>
          have hclear := foldl_clearKey_forksIn slot item.2 entry.keyMap otherSlice
          unfold forksIn at hclear
          simp only [bind_some, clearedEntry, map_some, getD_some]
          rw [← hclear]
          split
          · rename_i hempty
            rw [BTreeMap.isEmpty_iff] at hempty
            simp [BTreeMap.get?, hempty]
          · rfl

end StatusCache

end RakuraiValidator.TransactionStatus
