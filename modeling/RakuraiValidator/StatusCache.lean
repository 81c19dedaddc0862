import Mathlib.Data.List.Lex
import RakuraiValidator.OrderedMap

/-!
# The status cache

The cache remembers the processed transactions, by blockhash and by a slice of the
transaction key, with the slot of each fork that processed one.  A second map by slot serves
the snapshots and the clearing of a slot.  Only the newest roots are kept.
-/

namespace RakuraiValidator.TransactionStatus

abbrev Byte := Fin 256

def maxRootEntries : ℕ := 300

def cachedKeySize : ℕ := 20

abbrev KeySlice := List Byte

abbrev ForkStatus (T : Type) := List (ℕ × T)

structure KeyStatus (T : Type) where
  maxSlot : ℕ
  keyIndex : ℕ
  keyMap : BTreeMap KeySlice (ForkStatus T)

abbrev Status (Hash T : Type) [LinearOrder Hash] := BTreeMap Hash (ℕ × List (KeySlice × T))

structure SlotDelta (Hash T : Type) [LinearOrder Hash] where
  slot : ℕ
  isRoot : Bool
  statuses : Status Hash T

structure StatusCache (Hash T : Type) [LinearOrder Hash] where
  cache : BTreeMap Hash (KeyStatus T)
  roots : BTreeMap ℕ Unit
  maxRootEntries : ℕ
  slotDeltas : BTreeMap ℕ (Status Hash T)

inductive ClearPanic
  | missingBlockhash (slot : ℕ)
deriving DecidableEq

variable {Hash T : Type} [LinearOrder Hash]

/-- The bytes of a key from an index on, as far as the key has that many. -/
def sliceOf (key : List Byte) (index : ℕ) : KeySlice :=
  (key.drop (min index (key.length - (cachedKeySize + 1)))).take cachedKeySize

def KeyStatus.push (entry : KeyStatus T) (slot : ℕ) (keySlice : KeySlice) (res : T) : KeyStatus T :=
  { entry with
    maxSlot := max slot entry.maxSlot
    keyMap := (entry.keyMap.insert keySlice
      (((entry.keyMap.get? keySlice).getD []) ++ [(slot, res)])).2 }

def pushStatus (forkEntry : Status Hash T) (transactionBlockhash : Hash) (keyIndex : ℕ)
    (keySlice : KeySlice) (res : T) : Status Hash T :=
  let hashEntry := (forkEntry.get? transactionBlockhash).getD (keyIndex, [])
  (forkEntry.insert transactionBlockhash (hashEntry.1, hashEntry.2 ++ [(keySlice, res)])).2

namespace StatusCache

def default : StatusCache Hash T where
  cache := BTreeMap.empty
  roots := (BTreeMap.empty.insert 0 ()).2
  maxRootEntries := TransactionStatus.maxRootEntries
  slotDeltas := BTreeMap.empty

/-! ## Lookup -/

variable (self : StatusCache Hash T)

def getStatus (key : List Byte) (transactionBlockhash : Hash) (ancestors : Finset ℕ) :
    Option (ℕ × T) := do
  let entry ← self.cache.get? transactionBlockhash
  let storedForks ← entry.keyMap.get? (sliceOf key entry.keyIndex)
  storedForks.find? fun fork => fork.1 ∈ ancestors || self.roots.containsKey fork.1

/-! ## Insertion -/

def addToSlotDelta (transactionBlockhash : Hash) (slot keyIndex : ℕ)
    (keySlice : KeySlice) (res : T) : StatusCache Hash T :=
  let forkEntry := (self.slotDeltas.get? slot).getD BTreeMap.empty
  { self with
    slotDeltas := (self.slotDeltas.insert slot
      (pushStatus forkEntry transactionBlockhash keyIndex keySlice res)).2 }

def insert (transactionBlockhash : Hash) (key : List Byte) (slot : ℕ) (res : T) :
    StatusCache Hash T :=
  let maxKeyIndex := key.length - (cachedKeySize + 1)
  let entry := (self.cache.get? transactionBlockhash).getD ⟨slot, 0, BTreeMap.empty⟩
  let keyIndex := min entry.keyIndex maxKeyIndex
  let keySlice := (key.drop keyIndex).take cachedKeySize
  addToSlotDelta
    { self with
      cache := (self.cache.insert transactionBlockhash (entry.push slot keySlice res)).2 }
    transactionBlockhash slot keyIndex keySlice res

def insertWithSlice (transactionBlockhash : Hash)
    (slot keyIndex : ℕ) (keySlice : KeySlice) (res : T) : StatusCache Hash T :=
  let entry := (self.cache.get? transactionBlockhash).getD ⟨slot, keyIndex, BTreeMap.empty⟩
  addToSlotDelta
    { self with
      cache := (self.cache.insert transactionBlockhash (entry.push slot keySlice res)).2 }
    transactionBlockhash slot keyIndex keySlice res

/-! ## Roots -/

def cutoff : Option ℕ :=
  if self.maxRootEntries < self.roots.keys.length then
    self.roots.keys[self.roots.keys.length - self.maxRootEntries - 1]?
  else none

def purgeTo (cutoff : ℕ) : StatusCache Hash T :=
  { self with
    roots := self.roots.retain fun root _ => cutoff < root
    cache := self.cache.retain fun _ entry => cutoff < entry.maxSlot
    slotDeltas := self.slotDeltas.retain fun slot _ => cutoff < slot }

def purgeRoots : StatusCache Hash T :=
  match self.cutoff with
  | none => self
  | some cutoff => self.purgeTo cutoff

def withRoot (fork : ℕ) : StatusCache Hash T :=
  { self with roots := (self.roots.insert fork ()).2 }

def addRoot (fork : ℕ) : StatusCache Hash T :=
  (self.withRoot fork).purgeRoots

/-! ## Clearing a slot -/

def clearKey (slot : ℕ) (keyMap : BTreeMap KeySlice (ForkStatus T)) (key : KeySlice × T) :
    BTreeMap KeySlice (ForkStatus T) :=
  match keyMap.get? key.1 with
  | none => keyMap
  | some keyList =>
    let kept := keyList.filter fun fork => fork.1 ≠ slot
    if kept.isEmpty then (keyMap.remove key.1).2 else (keyMap.insert key.1 kept).2

def clearBlockhash (slot : ℕ) (cache : BTreeMap Hash (KeyStatus T))
    (item : Hash × (ℕ × List (KeySlice × T))) :
    Except ClearPanic (BTreeMap Hash (KeyStatus T)) :=
  match cache.get? item.1 with
  | none => .error (.missingBlockhash slot)
  | some entry =>
    let keyMap := item.2.2.foldl (clearKey slot) entry.keyMap
    if keyMap.isEmpty then .ok (cache.remove item.1).2
    else .ok (cache.insert item.1 { entry with keyMap := keyMap }).2

def clearSlotEntries (slot : ℕ) : Except ClearPanic (StatusCache Hash T) :=
  match self.slotDeltas.remove slot with
  | (none, _) => .ok self
  | (some slotDelta, slotDeltas) => do
    let cache ← slotDelta.entries.foldlM (clearBlockhash slot) self.cache
    return { self with cache := cache, slotDeltas := slotDeltas }

/-! ## Snapshots -/

def rootSlotDeltas : List (SlotDelta Hash T) :=
  self.roots.keys.map fun root =>
    ⟨root, true, (self.slotDeltas.get? root).getD BTreeMap.empty⟩

def appendStatuses (slot : ℕ) (self : StatusCache Hash T)
    (item : Hash × (ℕ × List (KeySlice × T))) : StatusCache Hash T :=
  item.2.2.foldl (fun cache status =>
    cache.insertWithSlice item.1 slot item.2.1 status.1 status.2) self

def appendSlot (delta : SlotDelta Hash T) : StatusCache Hash T :=
  let appended := delta.statuses.entries.foldl (appendStatuses delta.slot) self
  if delta.isRoot then appended.addRoot delta.slot else appended

def append (slotDeltas : List (SlotDelta Hash T)) : StatusCache Hash T :=
  slotDeltas.foldl appendSlot self

end StatusCache

end RakuraiValidator.TransactionStatus
