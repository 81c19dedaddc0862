import RakuraiValidator.StatusCacheViews

/-!
# Which transactions the status cache remembers

A ledger records the insertions beside the cache.  The cache holds every insertion that the
ledger keeps and none that it has not recorded, whatever the order of insertions, purges and
clearings.
-/

namespace RakuraiValidator.TransactionStatus

open BTreeMap StatusCache List

variable {Hash T : Type} [LinearOrder Hash]

structure Record (Hash T : Type) where
  blockhash : Hash
  slice : KeySlice
  slot : ℕ
  value : T

structure Insertion (Hash T : Type) where
  blockhash : Hash
  key : List Byte
  slot : ℕ
  value : T

variable (insertion : Insertion Hash T)

def Insertion.record : Record Hash T :=
  ⟨insertion.blockhash, sliceOf insertion.key 0, insertion.slot, insertion.value⟩

structure Ledger (Hash T : Type) where
  /-- All of them, also those of the caches it was built from. -/
  inserted : List (Insertion Hash T)
  /-- Their slot was not cleared afterwards. -/
  uncleared : List (Record Hash T)
  /-- At every purge since, the blockhash was in use above the cutoff. -/
  kept : List (Record Hash T)
  /-- Their slot was not cleared while it was above the cutoff. -/
  recorded : List (Record Hash T)
  /-- The slots at which a blockhash was used since the cache has its entry. -/
  uses : List (Hash × ℕ)
  /-- The largest purged root. -/
  cutoff : Option ℕ

namespace Ledger

def empty (inserted : List (Insertion Hash T)) : Ledger Hash T := ⟨inserted, [], [], [], [], none⟩

variable (ledger : Ledger Hash T)

def above (slot : ℕ) : Prop :=
  ∀ cutoff ∈ ledger.cutoff, cutoff < slot

instance (ledger : Ledger Hash T) (slot : ℕ) : Decidable (ledger.above slot) :=
  inferInstanceAs (Decidable (∀ cutoff ∈ ledger.cutoff, cutoff < slot))

def add (record : Record Hash T) : Ledger Hash T :=
  { ledger with
    uncleared := ledger.uncleared ++ [record]
    kept := ledger.kept ++ [record]
    recorded := ledger.recorded ++ [record]
    uses := ledger.uses ++ [(record.blockhash, record.slot)] }

def insert (ledger : Ledger Hash T) (insertion : Insertion Hash T) : Ledger Hash T :=
  { ledger.add insertion.record with inserted := ledger.inserted ++ [insertion] }

def inUse (blockhash : Hash) (slot : ℕ) : Bool :=
  ledger.uses.any fun use => use.1 = blockhash && slot < use.2

def purge : Option ℕ → Ledger Hash T
  | none => ledger
  | some cutoff =>
    { ledger with
      kept := ledger.kept.filter fun record => ledger.inUse record.blockhash cutoff
      uses := ledger.uses.filter fun use => ledger.inUse use.1 cutoff
      cutoff := some (max cutoff (ledger.cutoff.getD 0)) }

def clear (slot : ℕ) (cleared : StatusCache Hash T) : Ledger Hash T :=
  { ledger with
    uncleared := ledger.uncleared.filter fun record => record.slot ≠ slot
    kept := ledger.kept.filter fun record => record.slot ≠ slot
    recorded :=
      if ledger.above slot then ledger.recorded.filter fun record => record.slot ≠ slot
      else ledger.recorded
    uses := ledger.uses.filter fun use => cleared.cache.containsKey use.1 }

end Ledger

/-! ## A cache with its ledger -/

abbrev Tracked (Hash T : Type) [LinearOrder Hash] := StatusCache Hash T × Ledger Hash T

variable (inserted : List (Insertion Hash T)) {status : Status Hash T}

namespace Tracked

def addStatus (blockhash : Hash) (slot keyIndex : ℕ) (tracked : Tracked Hash T)
    (status : KeySlice × T) : Tracked Hash T :=
  (tracked.1.insertWithSlice blockhash slot keyIndex status.1 status.2,
    tracked.2.add ⟨blockhash, status.1, slot, status.2⟩)

variable (tracked : Tracked Hash T)

def addRoot (fork : ℕ) : Tracked Hash T :=
  (tracked.1.addRoot fork, tracked.2.purge (tracked.1.withRoot fork).cutoff)

def addStatuses (slot : ℕ) (tracked : Tracked Hash T) (item : Hash × (ℕ × List (KeySlice × T))) :
    Tracked Hash T :=
  item.2.2.foldl (addStatus item.1 slot item.2.1) tracked

def addSlot (delta : SlotDelta Hash T) : Tracked Hash T :=
  let appended := delta.statuses.entries.foldl (addStatuses delta.slot) tracked
  if delta.isRoot then appended.addRoot delta.slot else appended

def rebuild (inserted : List (Insertion Hash T)) (deltas : List (SlotDelta Hash T)) :
    Tracked Hash T :=
  deltas.foldl addSlot (StatusCache.default, Ledger.empty inserted)

theorem addSlot_fst (delta : SlotDelta Hash T) :
    (tracked.addSlot delta).1 = tracked.1.appendSlot delta := by
  have hstatuses : ∀ (tracked : Tracked Hash T) (item : Hash × (ℕ × List (KeySlice × T))),
      (tracked.addStatuses delta.slot item).1 = tracked.1.appendStatuses delta.slot item :=
    fun tracked item => (foldl_hom Prod.fst fun _ _ => rfl).symm
  have hfold : (delta.statuses.entries.foldl (addStatuses delta.slot) tracked).1 =
      delta.statuses.entries.foldl (appendStatuses delta.slot) tracked.1 :=
    (foldl_hom Prod.fst fun current item => (hstatuses current item).symm).symm
  unfold addSlot appendSlot
  simp only [← hfold]
  split <;> rfl

theorem rebuild_fst (deltas : List (SlotDelta Hash T)) :
    (rebuild inserted deltas).1 = StatusCache.default.append deltas :=
  (foldl_hom Prod.fst fun tracked delta => (addSlot_fst tracked delta).symm).symm

end Tracked

inductive Reachable : StatusCache Hash T → Ledger Hash T → Prop
  | default : Reachable StatusCache.default (Ledger.empty [])
  | insert {cache : StatusCache Hash T} {ledger : Ledger Hash T} (h : Reachable cache ledger)
      (blockhash : Hash) {key : List Byte} (hkey : key.length = 32 ∨ key.length = 64) (slot : ℕ)
      (value : T) :
      Reachable (cache.insert blockhash key slot value) (ledger.insert ⟨blockhash, key, slot, value⟩)
  | addRoot {cache : StatusCache Hash T} {ledger : Ledger Hash T} (h : Reachable cache ledger)
      (fork : ℕ) :
      Reachable (cache.addRoot fork) (ledger.purge (cache.withRoot fork).cutoff)
  | clear {cache cleared : StatusCache Hash T} {ledger : Ledger Hash T}
      (h : Reachable cache ledger) {slot : ℕ} (hclear : cache.clearSlotEntries slot = .ok cleared) :
      Reachable cleared (ledger.clear slot cleared)
  | append {source : StatusCache Hash T} {ledger : Ledger Hash T} (h : Reachable source ledger)
      {deltas : List (SlotDelta Hash T)} (hdeltas : deltas.Perm source.rootSlotDeltas) :
      Reachable (StatusCache.default.append deltas) (Tracked.rebuild ledger.inserted deltas).2

/-! ## The maps agree -/

variable {cache : StatusCache Hash T}

namespace StatusCache

structure WellFormed (cache : StatusCache Hash T) : Prop where
  index : ∀ blockhash entry, cache.cache.get? blockhash = some entry → entry.keyIndex = 0
  statuses : ∀ slot status, cache.slotDeltas.get? slot = some status →
    ∀ item ∈ status.entries, item.2.1 = 0 ∧ item.2.2 ≠ []
  cached : ∀ slot blockhash, ∀ status ∈ cache.deltas slot blockhash,
    (slot, status.2) ∈ cache.forks blockhash status.1
  maxSlot : ∀ blockhash entry, cache.cache.get? blockhash = some entry →
    ∀ slice, ∀ fork ∈ cache.forks blockhash slice, fork.1 ≤ entry.maxSlot

variable {blockhash : Hash} {slice : KeySlice} {fork : ℕ × T}

theorem entry_of_mem_forks (h : fork ∈ cache.forks blockhash slice) :
    ∃ entry, cache.cache.get? blockhash = some entry := by
  unfold forks at h
  cases hentry : cache.cache.get? blockhash with
  | none => simp [hentry] at h
  | some entry => exact ⟨entry, rfl⟩

variable {slot : ℕ}

theorem deltas_eq (h : cache.slotDeltas.get? slot = some status)
    {item : Hash × (ℕ × List (KeySlice × T))} (hitem : item ∈ status.entries) :
    cache.deltas slot item.1 = item.2.2 := by
  simp [deltas, h, (status.get?_eq_some_iff _ _).mpr hitem]

theorem WellFormed.present (h : cache.WellFormed)
    (hstat : cache.slotDeltas.get? slot = some status) :
    ∀ item ∈ status.entries, (cache.cache.get? item.1).isSome := by
  intro item hitem
  obtain ⟨key, hkey⟩ := exists_mem_of_ne_nil _ (h.statuses slot status hstat item hitem).2
  rw [← deltas_eq hstat hitem] at hkey
  obtain ⟨entry, hentry⟩ := entry_of_mem_forks (h.cached slot item.1 key hkey)
  rw [hentry]
  rfl

theorem default_wellFormed : (default : StatusCache Hash T).WellFormed where
  index := by
    intro blockhash entry hentry
    cases hentry
  statuses := by
    intro slot status hstat
    cases hstat
  cached := by
    intro slot blockhash status hstat
    cases hstat
  maxSlot := by
    intro blockhash entry hentry
    cases hentry

theorem WellFormed.insertWithSlice (h : cache.WellFormed) (blockhash : Hash) (slot : ℕ)
    (slice : KeySlice) (res : T) :
    (cache.insertWithSlice blockhash slot 0 slice res).WellFormed where
  index := by
    intro other entry hentry
    rw [insertWithSlice_entry] at hentry
    split at hentry
    · cases hentry
      cases hbefore : cache.cache.get? blockhash with
      | none => rfl
      | some before => exact h.index blockhash before hbefore
    · exact h.index other entry hentry
  statuses := by
    intro other status hstat item hitem
    rw [insertWithSlice_slotDeltas] at hstat
    split at hstat
    · cases hstat
      have hget := (get?_eq_some_iff _ _ _).mpr hitem
      rw [pushStatus_get?] at hget
      cases hbefore : cache.slotDeltas.get? slot with
      | none =>
        rw [hbefore] at hget
        split at hget
        · have hval := Option.some.inj hget
          rw [← hval]
          exact ⟨rfl, by simp⟩
        · cases hget
      | some before =>
        rw [hbefore, Option.getD_some] at hget
        split at hget
        · have hval := Option.some.inj hget
          rw [← hval]
          refine ⟨?_, by simp⟩
          cases hentry : before.get? blockhash with
          | none => rfl
          | some entry =>
            exact (h.statuses slot before hbefore (blockhash, entry)
              ((before.get?_eq_some_iff _ _).mp hentry)).1
        · exact h.statuses slot before hbefore item ((before.get?_eq_some_iff _ _).mp hget)
    · exact h.statuses other status hstat item hitem
  cached := by
    intro other otherHash status hstat
    rw [insertWithSlice_deltas] at hstat
    rw [insertWithSlice_forks]
    have hold : (other, status.2) ∈ cache.forks otherHash status.1 →
        (other, status.2) ∈ if otherHash = blockhash ∧ status.1 = slice then
          cache.forks blockhash slice ++ [(slot, res)] else cache.forks otherHash status.1 := by
      intro hmem
      split
      · rename_i heq
        rw [← heq.1, ← heq.2]
        exact mem_append_left _ hmem
      · exact hmem
    split at hstat
    · rename_i heq
      rcases mem_append.mp hstat with hmem | hmem
      · rw [← heq.1, ← heq.2] at hmem
        exact hold (h.cached other otherHash status hmem)
      · rw [mem_singleton.mp hmem, if_pos ⟨heq.2, rfl⟩, heq.1]
        simp
    · exact hold (h.cached other otherHash status hstat)
  maxSlot := by
    intro other entry hentry otherSlice fork hfork
    rw [insertWithSlice_entry] at hentry
    rw [insertWithSlice_forks] at hfork
    have hold : ∀ otherSlice, fork ∈ cache.forks other otherSlice → fork.1 ≤ entry.maxSlot := by
      intro otherSlice hmem
      obtain ⟨before, hbefore⟩ := entry_of_mem_forks hmem
      have hle := h.maxSlot other before hbefore otherSlice fork hmem
      split at hentry
      · rename_i heq
        rw [heq] at hbefore
        cases hentry
        rw [hbefore]
        exact hle.trans (Nat.le_max_right _ _)
      · rw [hbefore] at hentry
        cases hentry
        exact hle
    split at hfork
    · rename_i heq
      rcases mem_append.mp hfork with hmem | hmem
      · rw [← heq.1] at hmem
        exact hold slice hmem
      · rw [mem_singleton.mp hmem]
        rw [if_pos heq.1] at hentry
        cases hentry
        exact Nat.le_max_left _ _
    · exact hold otherSlice hfork

theorem WellFormed.purgeTo (h : cache.WellFormed) (cutoff : ℕ) :
    (cache.purgeTo cutoff).WellFormed where
  index := by
    intro blockhash entry hentry
    rw [purgeTo_entry, Option.filter_eq_some_iff] at hentry
    exact h.index blockhash entry hentry.1
  statuses := by
    intro slot status hstat
    rw [purgeTo_slotDeltas, Option.ite_none_right_eq_some] at hstat
    exact h.statuses slot status hstat.2
  cached := by
    intro slot blockhash status hstat
    rw [purgeTo_deltas] at hstat
    split at hstat
    · rename_i hlt
      have hmem := h.cached slot blockhash status hstat
      obtain ⟨entry, hentry⟩ := entry_of_mem_forks hmem
      rw [purgeTo_forks_of_lt _ hentry (hlt.trans_le (h.maxSlot blockhash entry hentry _ _ hmem))]
      exact hmem
    · cases hstat
  maxSlot := by
    intro blockhash entry hentry slice fork hfork
    rw [purgeTo_entry, Option.filter_eq_some_iff] at hentry
    exact h.maxSlot blockhash entry hentry.1 slice fork (mem_forks_of_purgeTo _ hfork)

variable {before after : StatusCache Hash T}

section

variable (h : ClearsSlot before after slot)

include h

theorem ClearsSlot.deltas (other : ℕ) (blockhash : Hash) :
    after.deltas other blockhash = if other = slot then [] else before.deltas other blockhash := by
  unfold StatusCache.deltas
  rw [h.slotDeltas]
  split
  · rfl
  · rfl

theorem ClearsSlot.mem_forks (hfork : fork ∈ after.forks blockhash slice) :
    fork ∈ before.forks blockhash slice := by
  rw [h.forks] at hfork
  split at hfork
  · exact (mem_filter.mp hfork).1
  · exact hfork

theorem ClearsSlot.mem_forks_of_ne (hfork : fork ∈ before.forks blockhash slice)
    (hne : fork.1 ≠ slot) : fork ∈ after.forks blockhash slice := by
  rw [h.forks]
  split
  · exact mem_filter.mpr ⟨hfork, by simpa using hne⟩
  · exact hfork

end

variable {cleared : StatusCache Hash T}

theorem WellFormed.clearsSlot (h : cache.WellFormed)
    (hclear : cache.clearSlotEntries slot = .ok cleared) : ClearsSlot cache cleared slot := by
  obtain ⟨result, hres, hspec⟩ := cache.clearSlotEntries_spec slot fun status hstat =>
    h.present hstat
  rw [hclear] at hres
  cases hres
  exact hspec

theorem WellFormed.clear (h : cache.WellFormed) (hclears : ClearsSlot cache cleared slot) :
    cleared.WellFormed where
  index := by
    intro blockhash entry hentry
    obtain ⟨before, hbefore, -, hidx⟩ := hclears.entries blockhash entry hentry
    rw [hidx]
    exact h.index blockhash before hbefore
  statuses := by
    intro other status hstat
    rw [hclears.slotDeltas, Option.ite_none_left_eq_some] at hstat
    exact h.statuses other status hstat.2
  cached := by
    intro other blockhash status hstat
    rw [hclears.deltas] at hstat
    split at hstat
    · cases hstat
    · rename_i hne
      exact hclears.mem_forks_of_ne (h.cached other blockhash status hstat) hne
  maxSlot := by
    intro blockhash entry hentry slice fork hfork
    obtain ⟨before, hbefore, hmax, -⟩ := hclears.entries blockhash entry hentry
    rw [hmax]
    exact h.maxSlot blockhash before hbefore slice fork (hclears.mem_forks hfork)

end StatusCache

/-! ## The ledger and the cache -/

structure Tracks (cache : StatusCache Hash T) (ledger : Ledger Hash T) : Prop where
  kept : ∀ record ∈ ledger.kept,
    (record.slot, record.value) ∈ cache.forks record.blockhash record.slice
  recorded : ∀ blockhash slice, ∀ fork ∈ cache.forks blockhash slice,
    ⟨blockhash, slice, fork.1, fork.2⟩ ∈ ledger.recorded
  deltas : ∀ record ∈ ledger.recorded, ledger.above record.slot →
    (record.slice, record.value) ∈ cache.deltas record.slot record.blockhash
  current : ∀ record ∈ ledger.uncleared, ledger.above record.slot → record ∈ ledger.kept
  uncleared : ∀ record ∈ ledger.uncleared, record ∈ ledger.recorded
  used : ∀ record ∈ ledger.kept, (record.blockhash, record.slot) ∈ ledger.uses
  uses : ∀ use ∈ ledger.uses, ∃ entry, cache.cache.get? use.1 = some entry ∧ use.2 ≤ entry.maxSlot
  inserted : ∀ record ∈ ledger.recorded, ∃ insertion ∈ ledger.inserted, insertion.record = record

variable {ledger : Ledger Hash T}

namespace Tracks

theorem empty : Tracks StatusCache.default (Ledger.empty inserted) where
  kept := by
    intro record hmem
    cases hmem
  recorded := by
    intro blockhash slice fork hmem
    cases hmem
  deltas := by
    intro record hmem
    cases hmem
  current := by
    intro record hmem
    cases hmem
  uncleared := by
    intro record hmem
    cases hmem
  used := by
    intro record hmem
    cases hmem
  uses := by
    intro use hmem
    cases hmem
  inserted := by
    intro record hmem
    cases hmem

variable (h : Tracks cache ledger)

include h

theorem add {record : Record Hash T}
    (hins : ∃ insertion ∈ ledger.inserted, insertion.record = record) :
    Tracks (cache.insertWithSlice record.blockhash record.slot 0 record.slice record.value)
      (ledger.add record) where
  kept := by
    intro other hmem
    rw [insertWithSlice_forks]
    rcases mem_append.mp hmem with hmem | hmem
    · have hold := h.kept other hmem
      split
      · rename_i heq
        rw [← heq.1, ← heq.2]
        exact mem_append_left _ hold
      · exact hold
    · rw [mem_singleton.mp hmem, if_pos ⟨rfl, rfl⟩]
      simp
  recorded := by
    intro blockhash slice fork hfork
    rw [insertWithSlice_forks] at hfork
    split at hfork
    · rename_i heq
      rcases mem_append.mp hfork with hmem | hmem
      · rw [← heq.1, ← heq.2] at hmem
        exact mem_append_left _ (h.recorded blockhash slice fork hmem)
      · rw [mem_singleton.mp hmem, heq.1, heq.2]
        exact mem_append_right _ (mem_singleton_self _)
    · exact mem_append_left _ (h.recorded blockhash slice fork hfork)
  deltas := by
    intro other hmem habove
    rw [insertWithSlice_deltas]
    rcases mem_append.mp hmem with hmem | hmem
    · have hold := h.deltas other hmem habove
      split
      · rename_i heq
        rw [← heq.1, ← heq.2]
        exact mem_append_left _ hold
      · exact hold
    · rw [mem_singleton.mp hmem, if_pos ⟨rfl, rfl⟩]
      simp
  current := by
    intro other hmem habove
    rcases mem_append.mp hmem with hmem | hmem
    · exact mem_append_left _ (h.current other hmem habove)
    · exact mem_append_right _ hmem
  uncleared := by
    intro other hmem
    rcases mem_append.mp hmem with hmem | hmem
    · exact mem_append_left _ (h.uncleared other hmem)
    · exact mem_append_right _ hmem
  used := by
    intro other hmem
    rcases mem_append.mp hmem with hmem | hmem
    · exact mem_append_left _ (h.used other hmem)
    · rw [mem_singleton.mp hmem]
      exact mem_append_right _ (mem_singleton_self _)
  uses := by
    intro use hmem
    rw [insertWithSlice_entry]
    rcases mem_append.mp hmem with hmem | hmem
    · obtain ⟨entry, hentry, hle⟩ := h.uses use hmem
      split
      · rename_i heq
        rw [← heq, hentry]
        exact ⟨_, rfl, hle.trans (Nat.le_max_right _ _)⟩
      · exact ⟨entry, hentry, hle⟩
    · rw [mem_singleton.mp hmem, if_pos rfl]
      exact ⟨_, rfl, Nat.le_max_left _ _⟩
  inserted := by
    intro other hmem
    rcases mem_append.mp hmem with hmem | hmem
    · exact h.inserted other hmem
    · rw [mem_singleton.mp hmem]
      exact hins

theorem insert :
    Tracks (cache.insertWithSlice insertion.blockhash insertion.slot 0 (sliceOf insertion.key 0)
      insertion.value) (ledger.insert insertion) := by
  have hmore : Tracks cache { ledger with inserted := ledger.inserted ++ [insertion] } :=
    { h with
      inserted := by
        intro record hmem
        obtain ⟨earlier, hearlier, heq⟩ := h.inserted record hmem
        exact ⟨earlier, mem_append_left _ hearlier, heq⟩ }
  have hpres : ∃ other ∈ ledger.inserted ++ [insertion], other.record = insertion.record :=
    ⟨insertion, by simp, rfl⟩
  exact hmore.add hpres

theorem entry_of_inUse {blockhash : Hash} {cutoff : ℕ}
    (huse : ledger.inUse blockhash cutoff = true) :
    ∃ entry, cache.cache.get? blockhash = some entry ∧ cutoff < entry.maxSlot := by
  obtain ⟨use, hmem, hcond⟩ := any_eq_true.mp huse
  simp only [Bool.and_eq_true, decide_eq_true_eq] at hcond
  obtain ⟨entry, hentry, hle⟩ := h.uses use hmem
  exact ⟨entry, hcond.1 ▸ hentry, hcond.2.trans_le hle⟩

theorem purge (cutoff : ℕ) : Tracks (cache.purgeTo cutoff) (ledger.purge (some cutoff)) := by
  have habove : ∀ slot, (ledger.purge (some cutoff)).above slot →
      cutoff < slot ∧ ledger.above slot := by
    intro slot hslot
    have hlt := hslot _ rfl
    constructor
    · exact (Nat.le_max_left _ _).trans_lt hlt
    · intro earlier hearlier
      rw [Option.mem_def.mp hearlier, Option.getD_some] at hlt
      exact (Nat.le_max_right _ _).trans_lt hlt
  constructor
  · intro record hmem
    obtain ⟨hmem, huse⟩ := mem_filter.mp hmem
    -- The blockhash was used above the cutoff, so its entry stays.
    obtain ⟨entry, hentry, hlt⟩ := h.entry_of_inUse huse
    rw [purgeTo_forks_of_lt _ hentry hlt]
    exact h.kept record hmem
  · intro blockhash slice fork hfork
    exact h.recorded blockhash slice fork (mem_forks_of_purgeTo _ hfork)
  · intro record hmem hslot
    obtain ⟨hlt, hold⟩ := habove _ hslot
    rw [purgeTo_deltas, if_pos hlt]
    exact h.deltas record hmem hold
  · intro record hmem hslot
    obtain ⟨hlt, hold⟩ := habove _ hslot
    have hkept := h.current record hmem hold
    refine mem_filter.mpr ⟨hkept, any_eq_true.mpr ⟨_, h.used record hkept, ?_⟩⟩
    simp [hlt]
  · exact h.uncleared
  · intro record hmem
    obtain ⟨hmem, huse⟩ := mem_filter.mp hmem
    exact mem_filter.mpr ⟨h.used record hmem, huse⟩
  · intro use hmem
    obtain ⟨hmem, huse⟩ := mem_filter.mp hmem
    obtain ⟨entry, hentry, hlt⟩ := h.entry_of_inUse huse
    obtain ⟨same, hsame, hle⟩ := h.uses use hmem
    rw [hentry, Option.some_inj] at hsame
    refine ⟨entry, ?_, hsame ▸ hle⟩
    rw [purgeTo_entry, hentry, Option.filter_some, if_pos (by simpa using hlt)]
  · exact h.inserted

theorem clear {cleared : StatusCache Hash T} {slot : ℕ}
    (hclears : StatusCache.ClearsSlot cache cleared slot) :
    Tracks cleared (ledger.clear slot cleared) where
  kept := by
    intro record hmem
    obtain ⟨hmem, hne⟩ := mem_filter.mp hmem
    exact hclears.mem_forks_of_ne (h.kept record hmem) (of_decide_eq_true hne)
  recorded := by
    intro blockhash slice fork hfork
    have hrec := h.recorded blockhash slice fork (hclears.mem_forks hfork)
    unfold Ledger.clear
    simp only
    split
    · rename_i habove
      refine mem_filter.mpr ⟨hrec, decide_eq_true ?_⟩
      -- Above the cutoff every status of the slot is among its deltas.
      intro heq
      have hslot : fork.1 = slot := heq
      have hdelta : (slice, fork.2) ∈ cache.deltas slot blockhash := by
        rw [← hslot] at habove ⊢
        exact h.deltas _ hrec habove
      rw [hclears.forks, if_pos (mem_map.mpr ⟨_, hdelta, rfl⟩)] at hfork
      exact of_decide_eq_true (mem_filter.mp hfork).2 hslot
    · exact hrec
  deltas := by
    intro record hmem habove
    have hold : ledger.above record.slot := habove
    rw [hclears.deltas]
    unfold Ledger.clear at hmem
    simp only at hmem
    split at hmem
    · obtain ⟨hmem, hne⟩ := mem_filter.mp hmem
      rw [if_neg (of_decide_eq_true hne)]
      exact h.deltas record hmem hold
    · rename_i hnot
      have hne : record.slot ≠ slot := by
        intro heq
        rw [heq] at hold
        exact hnot hold
      rw [if_neg hne]
      exact h.deltas record hmem hold
  current := by
    intro record hmem habove
    obtain ⟨hmem, hne⟩ := mem_filter.mp hmem
    exact mem_filter.mpr ⟨h.current record hmem habove, hne⟩
  uncleared := by
    intro record hmem
    obtain ⟨hmem, hne⟩ := mem_filter.mp hmem
    unfold Ledger.clear
    simp only
    split
    · exact mem_filter.mpr ⟨h.uncleared record hmem, hne⟩
    · exact h.uncleared record hmem
  used := by
    intro record hmem
    obtain ⟨hmem, hne⟩ := mem_filter.mp hmem
    obtain ⟨entry, hentry⟩ := entry_of_mem_forks
      (hclears.mem_forks_of_ne (h.kept record hmem) (of_decide_eq_true hne))
    exact mem_filter.mpr ⟨h.used record hmem, Option.isSome_iff_exists.mpr ⟨entry, hentry⟩⟩
  uses := by
    intro use hmem
    obtain ⟨hmem, hkept⟩ := mem_filter.mp hmem
    obtain ⟨entry, hentry⟩ := Option.isSome_iff_exists.mp hkept
    obtain ⟨before, hbefore, hmax, -⟩ := hclears.entries _ _ hentry
    obtain ⟨same, hsame, hle⟩ := h.uses use hmem
    rw [hbefore, Option.some_inj] at hsame
    exact ⟨entry, hentry, by rwa [hmax, hsame]⟩
  inserted := by
    intro record hmem
    unfold Ledger.clear at hmem
    simp only at hmem
    split at hmem
    · exact h.inserted record (mem_filter.mp hmem).1
    · exact h.inserted record hmem

end Tracks

/-! ## Roots -/

theorem StatusCache.mem_roots_iff (cache : StatusCache Hash T) (slot : ℕ) :
    cache.roots.containsKey slot = true ↔ slot ∈ cache.roots.keys := by
  unfold containsKey BTreeMap.keys
  rw [Option.isSome_iff_exists, mem_map]
  constructor
  · intro ⟨value, hval⟩
    exact ⟨(slot, value), (cache.roots.get?_eq_some_iff _ _).mp hval, rfl⟩
  · intro ⟨entry, hentry, heq⟩
    subst heq
    exact ⟨entry.2, (cache.roots.get?_eq_some_iff _ _).mpr hentry⟩

theorem StatusCache.mem_withRoot (cache : StatusCache Hash T) (fork slot : ℕ) :
    slot ∈ (cache.withRoot fork).roots.keys ↔ slot = fork ∨ slot ∈ cache.roots.keys := by
  rw [← mem_roots_iff, ← mem_roots_iff]
  exact containsKey_insert _ _ _ _

theorem StatusCache.mem_purgeTo_roots (cache : StatusCache Hash T) (cutoff slot : ℕ) :
    slot ∈ (cache.purgeTo cutoff).roots.keys ↔ slot ∈ cache.roots.keys ∧ cutoff < slot := by
  rw [← mem_roots_iff, ← mem_roots_iff]
  unfold containsKey purgeTo
  simp only
  rw [get?_retain_value]
  cases hget : cache.roots.get? slot with
  | none => simp
  | some value => simp [Option.filter_some]

/-- There are never more roots than fit, and all of them are above the purged ones. -/
structure RootsBounded (cache : StatusCache Hash T) (ledger : Ledger Hash T) : Prop where
  max : cache.maxRootEntries = maxRootEntries
  length : cache.roots.keys.length ≤ maxRootEntries
  full : ledger.cutoff.isSome → cache.roots.keys.length = maxRootEntries
  above : ∀ root ∈ cache.roots.keys, ledger.above root

namespace RootsBounded

theorem empty : RootsBounded StatusCache.default (Ledger.empty inserted) where
  max := rfl
  length := (by decide : 1 ≤ maxRootEntries)
  full := nofun
  above := by
    intro root _ cutoff hcutoff
    cases hcutoff

theorem withRoot_length (cache : StatusCache Hash T) (fork : ℕ) :
    (cache.withRoot fork).roots.keys.length ≤ cache.roots.keys.length + 1 := by
  have hsub : (cache.withRoot fork).roots.keys ⊆ fork :: cache.roots.keys := by
    intro slot hmem
    exact mem_cons.mpr ((cache.mem_withRoot fork slot).mp hmem)
  exact (subperm_of_subset (keys_nodup _) hsub).length_le

theorem cutoff_cases (h : RootsBounded cache ledger) (fork : ℕ) :
    (cache.withRoot fork).cutoff = none ∧ (cache.withRoot fork).roots.keys.length ≤ maxRootEntries ∨
      ∃ smallest rest, (cache.withRoot fork).roots.keys = smallest :: rest ∧
        rest.length = maxRootEntries ∧ (cache.withRoot fork).cutoff = some smallest ∧
        fork ∉ cache.roots.keys := by
  have hmax : (cache.withRoot fork).maxRootEntries = maxRootEntries := h.max
  by_cases hfits : (cache.withRoot fork).roots.keys.length ≤ maxRootEntries
  · left
    refine ⟨?_, hfits⟩
    unfold cutoff
    rw [hmax, if_neg (Nat.not_lt.mpr hfits)]
  · right
    have hlen : (cache.withRoot fork).roots.keys.length = maxRootEntries + 1 := by
      have hle := withRoot_length cache fork
      have hold := h.length
      omega
    cases hkeys : (cache.withRoot fork).roots.keys with
    | nil =>
      rw [hkeys] at hlen
      cases hlen
    | cons smallest rest =>
      rw [hkeys] at hlen
      refine ⟨smallest, rest, rfl, Nat.succ.inj hlen, ?_, ?_⟩
      · unfold cutoff
        rw [hmax, hkeys, hlen, if_pos (Nat.lt_succ_self _)]
        simp
      · intro hmem
        have hsub : (cache.withRoot fork).roots.keys ⊆ cache.roots.keys := by
          intro slot hslot
          rcases (cache.mem_withRoot fork slot).mp hslot with heq | hold
          · rwa [heq]
          · exact hold
        have hle := (subperm_of_subset (keys_nodup _) hsub).length_le
        exact hfits (hle.trans h.length)

theorem keys_ascending (roots : BTreeMap ℕ Unit) : roots.keys.Pairwise (· < ·) :=
  pairwise_map.mpr roots.ascending

theorem addRoot (h : RootsBounded cache ledger) (fork : ℕ) :
    RootsBounded (cache.addRoot fork) (ledger.purge (cache.withRoot fork).cutoff) := by
  unfold StatusCache.addRoot purgeRoots
  rcases h.cutoff_cases fork with ⟨hnone, hfits⟩ | ⟨smallest, rest, hkeys, hlen, hcutoff, hnew⟩
  · rw [hnone]
    refine ⟨h.max, hfits, ?_, ?_⟩
    · intro hsome
      have hfull := h.full hsome
      have hsub : cache.roots.keys ⊆ (cache.withRoot fork).roots.keys :=
        fun slot hslot => (cache.mem_withRoot fork slot).mpr (Or.inr hslot)
      have hle := (subperm_of_subset (keys_nodup _) hsub).length_le
      simp only
      omega
    · intro root hmem
      rcases (cache.mem_withRoot fork root).mp hmem with heq | hold
      · -- A new root fits only while nothing has been purged.
        intro cutoff hcutoff
        have hfull := h.full (Option.isSome_iff_exists.mpr ⟨cutoff, hcutoff⟩)
        by_cases hpres : fork ∈ cache.roots.keys
        · rw [heq]
          exact h.above fork hpres cutoff hcutoff
        · have hsub : fork :: cache.roots.keys ⊆ (cache.withRoot fork).roots.keys :=
            fun slot hslot => (cache.mem_withRoot fork slot).mpr (List.mem_cons.mp hslot)
          have hnodup : (fork :: cache.roots.keys).Nodup :=
            List.nodup_cons.mpr ⟨hpres, keys_nodup _⟩
          have hle := (subperm_of_subset hnodup hsub).length_le
          rw [length_cons] at hle
          omega
      · exact h.above root hold
  · rw [hcutoff]
    have hasc := keys_ascending (cache.withRoot fork).roots
    rw [hkeys, pairwise_cons] at hasc
    have hmem : ∀ root, root ∈ ((cache.withRoot fork).purgeTo smallest).roots.keys ↔
        root ∈ rest := by
      intro root
      rw [mem_purgeTo_roots, hkeys, mem_cons]
      constructor
      · rintro ⟨heq | hrest, hlt⟩
        · omega
        · exact hrest
      · intro hrest
        exact ⟨Or.inr hrest, hasc.1 root hrest⟩
    have hperm : ((cache.withRoot fork).purgeTo smallest).roots.keys.Perm rest := by
      have hnodup : rest.Nodup := hasc.2.imp Nat.ne_of_lt
      exact (perm_ext_iff_of_nodup (keys_nodup _) hnodup).mpr hmem
    have hsize := hperm.length_eq.trans hlen
    refine ⟨h.max, hsize.le, fun _ => hsize, ?_⟩
    intro root hroot cutoff hcut
    have hrest := (hmem root).mp hroot
    have hlt := hasc.1 root hrest
    cases hcut
    rw [Nat.max_lt]
    refine ⟨hlt, ?_⟩
    cases hold : ledger.cutoff with
    | none => exact (Nat.zero_le _).trans_lt hlt
    | some earlier =>
      -- Either the root or the smaller one was there before.
      have hroot' : root ∈ (cache.withRoot fork).roots.keys := by
        rw [hkeys]
        exact mem_cons_of_mem _ hrest
      have hsmallest : smallest ∈ (cache.withRoot fork).roots.keys := by
        rw [hkeys]
        exact mem_cons_self
      rcases (cache.mem_withRoot fork root).mp hroot' with heq | hbefore
      · rcases (cache.mem_withRoot fork smallest).mp hsmallest with heq' | hbefore
        · omega
        · exact (h.above smallest hbefore earlier hold).trans hlt
      · exact h.above root hbefore earlier hold

end RootsBounded

end RakuraiValidator.TransactionStatus
