import RakuraiValidator.OrderedMap
import RakuraiValidator.VotorMessages

/-!
# The parent-ready tracker

`ParentReadyTracker` keeps for each slot the certificates seen and the blocks
which may be parents there.  Each certificate is propagated forward along the
skipped slots which follow it.  The two loops over slots stop at the first slot
without a skip certificate; they carry a bound here which lies beyond every
entry, and leaving a loop because of it would be the error `loopNotFinished`.
-/

namespace RakuraiValidator.Votor

open BTreeMap

def maxNotarFallbackBlocks : ℕ := 4

structure ParentReadyStatus where
  skip : Bool := false
  notarFallbacks : List Block := []
  parentsReady : List Block := []
deriving DecidableEq

inductive TrackerPanic
  | tooManyNotarFallbackBlocks
  | loopNotFinished
deriving DecidableEq

inductive BlockProductionParent
  | missedWindow
  | parentNotReady
  | parent (block : Block)
deriving DecidableEq

structure ParentReadyTracker where
  slotStatuses : BTreeMap ℕ ParentReadyStatus
  root : ℕ
  highestWithParentReady : ℕ

namespace ParentReadyTracker

variable (t : ParentReadyTracker) (slot : ℕ)

/-- The status of a slot, which is the default one without an entry. -/
def status : ParentReadyStatus :=
  (t.slotStatuses.get? slot).getD {}

def setStatus (status : ParentReadyStatus) :
    ParentReadyTracker :=
  { t with slotStatuses := (t.slotStatuses.insert slot status).2 }

def horizon : ℕ := t.slotStatuses.keys.max?.getD 0 + 1

def new (root slot : ℕ) (parentBlock : Block) : ParentReadyTracker :=
  let slotStatuses :=
    (BTreeMap.empty.insert parentBlock.slot { notarFallbacks := [parentBlock] }).2
  let between := List.range' (parentBlock.slot + 1) (slot - (parentBlock.slot + 1))
  let slotStatuses := between.foldl
    (fun statuses s => (statuses.insert s { skip := true, parentsReady := [parentBlock] }).2)
    slotStatuses
  { slotStatuses := (slotStatuses.insert slot { parentsReady := [parentBlock] }).2
    root := min parentBlock.slot root
    highestWithParentReady := max slot root }

/-- Adds a parent to a slot unless it is there; only the first slot of a leader
window notifies. -/
def addParentReady (events : List VotorEvent) (s : ℕ) (block : Block) :
    ParentReadyTracker × List VotorEvent :=
  if block ∈ (t.status s).parentsReady then (t, events)
  else
    (t.setStatus s
      { t.status s with parentsReady := (t.status s).parentsReady ++ [block] },
     if s % numConsecutiveLeaderSlots = 0 then events ++ [.parentReady s block] else events)

variable (block : Block)

def addFallbackParent (s : ℕ) (t : ParentReadyTracker) (events : List VotorEvent) :
    ParentReadyTracker × List VotorEvent :=
  if block ∈ (t.status s).parentsReady then (t, events)
  else
    let (t, events) := t.addParentReady events s block
    ({ t with highestWithParentReady := max s t.highestWithParentReady }, events)

/-- The loop of `add_notar_fallback_or_stronger` from the slot `s` on. -/
def notarFallbackLoop (block : Block) :
    ℕ → ℕ → ParentReadyTracker → List VotorEvent →
    Except TrackerPanic (ParentReadyTracker × List VotorEvent)
  | 0, _, _, _ => .error .loopNotFinished
  | fuel + 1, s, t, events =>
    let (t, events) := addFallbackParent block s t events
    if (t.status s).skip then notarFallbackLoop block fuel (s + 1) t events
    else .ok (t, events)

def recordNotarFallback : ParentReadyTracker :=
  t.setStatus block.slot
    { t.status block.slot with
      notarFallbacks := (t.status block.slot).notarFallbacks ++ [block] }

variable (events : List VotorEvent)

def addNotarFallbackOrStronger :
    Except TrackerPanic (ParentReadyTracker × List VotorEvent) :=
  if block ∈ (t.status block.slot).notarFallbacks then .ok (t, events)
  else
    let t := t.recordNotarFallback block
    if (t.status block.slot).notarFallbacks.length ≤ maxNotarFallbackBlocks then
      notarFallbackLoop block (t.horizon + 1) (block.slot + 1) t events
    else .error .tooManyNotarFallbackBlocks

def addNewNotarFallbackOrStronger :
    Except TrackerPanic (ParentReadyTracker × List VotorEvent) :=
  if block.slot ≤ t.root then .ok (t, events)
  else t.addNotarFallbackOrStronger block events

/-- The slots from `s` up to the first one without a skip certificate. -/
def futureSlots (t : ParentReadyTracker) : ℕ → ℕ → Except TrackerPanic (List ℕ)
  | 0, _ => .error .loopNotFinished
  | fuel + 1, s =>
    if (t.slotStatuses.get? s).any ParentReadyStatus.skip then do
      let rest ← t.futureSlots fuel (s + 1)
      .ok (s :: rest)
    else .ok [s]

def addPotentialParents (potentialParents : List Block)
    (acc : ParentReadyTracker × List VotorEvent) (s : ℕ) :
    ParentReadyTracker × List VotorEvent :=
  let (t, events) := potentialParents.foldl
    (fun acc block => acc.1.addParentReady acc.2 s block) acc
  ({ t with highestWithParentReady := max s t.highestWithParentReady }, events)

def recordSkip : ParentReadyTracker :=
  t.setStatus slot { t.status slot with skip := true }

def addNewSkip :
    Except TrackerPanic (ParentReadyTracker × List VotorEvent) :=
  if slot ≤ t.root then .ok (t, events)
  else do
    let t := t.recordSkip slot
    let futureSlots ← t.futureSlots (t.horizon + 1) (slot + 1)
    match t.slotStatuses.get? (slot - 1) with
    | none => .ok (t, events)
    | some status =>
      let potentialParents :=
        status.notarFallbacks ++ if status.skip then status.parentsReady else []
      if potentialParents.isEmpty then .ok (t, events)
      else .ok (futureSlots.foldl (addPotentialParents potentialParents) (t, events))

def setRoot (root : ℕ) : ParentReadyTracker :=
  { t with
    root := root
    slotStatuses := t.slotStatuses.retain (fun s _ => root ≤ s) }

def blockProductionParent : BlockProductionParent :=
  if t.highestWithParentReady > slot then .missedWindow
  else
    match (t.slotStatuses.get? slot).bind (fun status => status.parentsReady.min?) with
    | some parent => .parent parent
    | none => .parentNotReady

/-! ## Statuses after updates -/

@[simp] theorem status_setStatus
    (status : ParentReadyStatus) (s : ℕ) :
    (t.setStatus slot status).status s = if s = slot then status else t.status s := by
  simp only [ParentReadyTracker.status, setStatus, get?_insert]
  split <;> rfl

section Records

variable (t : ParentReadyTracker) (block : Block) (slot s : ℕ)

@[simp] theorem recordNotarFallback_skip :
    ((t.recordNotarFallback block).status s).skip = (t.status s).skip := by
  simp only [recordNotarFallback, status_setStatus]
  split
  next hs => rw [hs]
  next => rfl

@[simp] theorem recordNotarFallback_parentsReady :
    ((t.recordNotarFallback block).status s).parentsReady = (t.status s).parentsReady := by
  simp only [recordNotarFallback, status_setStatus]
  split
  next hs => rw [hs]
  next => rfl

theorem mem_recordNotarFallback (b : Block) :
    b ∈ ((t.recordNotarFallback block).status s).notarFallbacks ↔
      b ∈ (t.status s).notarFallbacks ∨ (s = block.slot ∧ b = block) := by
  simp only [recordNotarFallback, status_setStatus]
  by_cases hs : s = block.slot
  · subst hs
    simp
  · simp [hs]

theorem recordSkip_skip :
    ((t.recordSkip slot).status s).skip = true ↔ (t.status s).skip = true ∨ s = slot := by
  simp only [recordSkip, status_setStatus]
  by_cases hs : s = slot
  · simp [hs]
  · simp [hs]

@[simp] theorem recordSkip_parentsReady :
    ((t.recordSkip slot).status s).parentsReady = (t.status s).parentsReady := by
  simp only [recordSkip, status_setStatus]
  split
  next hs => rw [hs]
  next => rfl

@[simp] theorem recordSkip_notarFallbacks :
    ((t.recordSkip slot).status s).notarFallbacks = (t.status s).notarFallbacks := by
  simp only [recordSkip, status_setStatus]
  split
  next hs => rw [hs]
  next => rfl

end Records

@[simp] theorem status_setRoot (root s : ℕ) :
    (t.setRoot root).status s = if root ≤ s then t.status s else {} := by
  simp only [ParentReadyTracker.status, setRoot,
    get?_retain _ (fun key => decide (root ≤ key)), decide_eq_true_eq]
  split <;> rfl

theorem status_new (root : ℕ) {slot : ℕ} {parentBlock : Block}
    (hpar : parentBlock.slot < slot) (s : ℕ) :
    (new root slot parentBlock).status s =
      if s = slot then { parentsReady := [parentBlock] }
      else if parentBlock.slot < s ∧ s < slot then
        { skip := true, parentsReady := [parentBlock] }
      else if s = parentBlock.slot then { notarFallbacks := [parentBlock] }
      else {} := by
  have hbetween : s ∈ List.range' (parentBlock.slot + 1) (slot - (parentBlock.slot + 1)) ↔
      parentBlock.slot < s ∧ s < slot := by
    rw [List.mem_range'_1]
    omega
  simp only [ParentReadyTracker.status, new, get?_insert, get?_foldl_insert, hbetween, get?_empty]
  split_ifs <;> rfl

section New

variable (root : ℕ) {slot : ℕ} {parentBlock : Block} (hpar : parentBlock.slot < slot)
include hpar

theorem skip_new (s : ℕ) :
    ((new root slot parentBlock).status s).skip = true ↔ parentBlock.slot < s ∧ s < slot := by
  rw [status_new root hpar]
  split_ifs with hslot hbetween hself
  · simp [hslot]
  · simp [hbetween]
  · simp [hbetween]
  · simp [hbetween]

theorem mem_notarFallbacks_new (s : ℕ) (b : Block) :
    b ∈ ((new root slot parentBlock).status s).notarFallbacks ↔
      b = parentBlock ∧ s = parentBlock.slot := by
  rw [status_new root hpar]
  split_ifs with hslot hbetween hself
  · have hne : s ≠ parentBlock.slot := by omega
    simp [hne]
  · have hne : s ≠ parentBlock.slot := by omega
    simp [hne]
  · simp [hself]
  · simp [hself]

theorem mem_parentsReady_new (s : ℕ) (b : Block) :
    b ∈ ((new root slot parentBlock).status s).parentsReady ↔
      b = parentBlock ∧ parentBlock.slot < s ∧ s ≤ slot := by
  rw [status_new root hpar]
  split_ifs with hslot hbetween hself
  · simp [hslot, hpar]
  · simp [hbetween.1, hbetween.2.le]
  · simp [hself]
  · have hnot : ¬ (parentBlock.slot < s ∧ s ≤ slot) := by omega
    simp [hnot]

end New

theorem any_skip_eq (s : ℕ) :
    (t.slotStatuses.get? s).any ParentReadyStatus.skip = (t.status s).skip := by
  unfold ParentReadyTracker.status
  cases t.slotStatuses.get? s with
  | none => rfl
  | some status => rfl

theorem skip_eq_false_of_horizon_le {s : ℕ} (h : t.horizon ≤ s) :
    (t.status s).skip = false := by
  have hnone : t.slotStatuses.get? s = none := by
    rw [get?_eq_none_iff]
    intro status hmem
    have hkey : s ∈ t.slotStatuses.keys := List.mem_map_of_mem hmem
    have hle : s ≤ t.slotStatuses.keys.max?.getD 0 := List.le_max?_getD_of_mem hkey
    unfold horizon at h
    omega
  simp [ParentReadyTracker.status, hnone]

end ParentReadyTracker

end RakuraiValidator.Votor
