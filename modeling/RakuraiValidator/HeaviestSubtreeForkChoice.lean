import Mathlib.Data.Prod.Lex
import RakuraiValidator.DescendingPasses
import RakuraiValidator.ForestTraversals

/-!
# The fork choice tree

The blocks of `HeaviestSubtreeForkChoice` form a tree.  Each block carries the stake that voted for
it and, for its subtree, the stake, the height, the deepest block and the best block.  Votes and
validity marks are turned into batches of update operations, which are processed from the greatest
block to the smallest; a new leaf instead writes itself into the blocks above.

A failed `assert!`, `expect` or `unwrap` is an error, and so is a stake that would become negative.
Sums of stakes are assumed to fit their type.  A loop over parents or over a worklist has as many
rounds as there are blocks, and running out of them is an error as well.
-/

namespace RakuraiValidator.ForkChoice

variable {Hash : Type} [LinearOrder Hash]

inductive Panic
  | missingFork
  | duplicateConfirmed
  | unbounded
  deriving DecidableEq

/-! ## Blocks -/

structure SlotHashKey (Hash : Type) where
  slot : ℕ
  hash : Hash
  deriving Repr

instance [Inhabited Hash] : Inhabited (SlotHashKey Hash) := ⟨⟨0, default⟩⟩

/-- Blocks are ordered by slot, then by hash. -/
instance : LinearOrder (SlotHashKey Hash) :=
  LinearOrder.lift' (fun key => toLex (key.slot, key.hash)) (by
    intro x y h
    cases x
    cases y
    simpa using h)

structure ForkInfo (Hash : Type) [LinearOrder Hash] where
  stakeVotedAt : ℕ
  stakeVotedSubtree : ℕ
  height : ℕ
  bestSlot : SlotHashKey Hash
  deepestSlot : SlotHashKey Hash
  parent : Option (SlotHashKey Hash)
  children : BTreeMap (SlotHashKey Hash) Unit
  latestInvalidAncestor : Option ℕ
  isDuplicateConfirmed : Bool

namespace ForkInfo

variable (info : ForkInfo Hash)

def isCandidate : Bool := info.latestInvalidAncestor.isNone

def setDuplicateConfirmed : ForkInfo Hash :=
  { info with isDuplicateConfirmed := true, latestInvalidAncestor := none }

def updateWithNewlyValidAncestor (newlyValidAncestor : ℕ) : ForkInfo Hash :=
  match info.latestInvalidAncestor with
  | some latest =>
    if latest ≤ newlyValidAncestor then { info with latestInvalidAncestor := none } else info
  | none => info

def updateWithNewlyInvalidAncestor (newlyInvalidAncestor : ℕ) : Except Panic (ForkInfo Hash) :=
  if info.isDuplicateConfirmed then .error .duplicateConfirmed
  else if info.latestInvalidAncestor.all (· < newlyInvalidAncestor) then
    .ok { info with latestInvalidAncestor := some newlyInvalidAncestor }
  else .ok info

end ForkInfo

abbrev ForkInfos (Hash : Type) [LinearOrder Hash] := BTreeMap (SlotHashKey Hash) (ForkInfo Hash)

namespace ForkInfos

variable (forkInfos : ForkInfos Hash) (key : SlotHashKey Hash)

def expectFork :
    Except Panic (ForkInfo Hash) :=
  match forkInfos.get? key with
  | none => .error .missingFork
  | some info => .ok info

def parent : Option (SlotHashKey Hash) :=
  (forkInfos.get? key).bind ForkInfo.parent

def children :
    Except Panic (List (SlotHashKey Hash)) :=
  (forkInfos.expectFork key).map fun info => info.children.keys

def latestInvalidAncestor : Option ℕ :=
  (forkInfos.get? key).bind ForkInfo.latestInvalidAncestor

def ancestorIterator :
    List (SlotHashKey Hash) :=
  Forests.ancestorsWithin forkInfos.parent forkInfos.entries.length key

/-- All blocks reachable from `root1`, excluding the subtree at `root2`. -/
def subtreeDiff (root1 root2 : SlotHashKey Hash) :
    Except Panic (List (SlotHashKey Hash)) :=
  if forkInfos.containsKey root1 then
    Forests.collect forkInfos.children (· = root2) .unbounded forkInfos.entries.length [root1] []
  else .ok []

end ForkInfos

/-! ## New leaves -/

namespace ForkInfos

variable (forkInfos : ForkInfos Hash)

def isBestChild (maybeBestChild : SlotHashKey Hash) :
    Except Panic Bool := do
  let info ← forkInfos.expectFork maybeBestChild
  match info.parent with
  | none => .ok true
  | some parent => do
    let siblings ← forkInfos.children parent
    siblings.allM fun key => do
      let child ← forkInfos.expectFork key
      .ok !(child.isCandidate && (info.stakeVotedSubtree < child.stakeVotedSubtree ||
        (info.stakeVotedSubtree = child.stakeVotedSubtree && key < maybeBestChild)))

def isDeepestChild (maybeDeepestChild : SlotHashKey Hash) :
    Except Panic Bool := do
  let info ← forkInfos.expectFork maybeDeepestChild
  match info.parent with
  | none => .ok true
  | some parent => do
    let siblings ← forkInfos.children parent
    siblings.allM fun key => do
      let child ← forkInfos.expectFork key
      .ok !(info.height < child.height || (child.height = info.height &&
        (info.stakeVotedSubtree < child.stakeVotedSubtree ||
          (child.stakeVotedSubtree = info.stakeVotedSubtree && key < maybeDeepestChild))))

/-- The ancestors whose best block was that of the parent follow the new leaf. -/
def propagateBest (leaf parentBest : SlotHashKey Hash) :
    ℕ → Option (SlotHashKey Hash) → ForkInfos Hash → Except Panic (ForkInfos Hash)
  | _, none, forkInfos => .ok forkInfos
  | 0, some _, _ => .error .unbounded
  | fuel + 1, some ancestor, forkInfos => do
    let info ← forkInfos.expectFork ancestor
    if info.bestSlot = parentBest then
      propagateBest leaf parentBest fuel info.parent
        (forkInfos.insert ancestor { info with bestSlot := leaf }).2
    else .ok forkInfos

/-- The ancestors become higher as long as the leaf is in their deepest subtree. -/
def propagateDeepest (leaf : SlotHashKey Hash) :
    ℕ → Option (SlotHashKey Hash) → SlotHashKey Hash → ℕ → ForkInfos Hash →
      Except Panic (ForkInfos Hash)
  | _, none, _, _, forkInfos => .ok forkInfos
  | 0, some _, _, _, _ => .error .unbounded
  | fuel + 1, some ancestor, currentChild, currentHeight, forkInfos => do
    let deepest ← forkInfos.isDeepestChild currentChild
    if deepest then do
      let info ← forkInfos.expectFork ancestor
      propagateDeepest leaf fuel info.parent ancestor (currentHeight + 1)
        (forkInfos.insert ancestor
          { info with deepestSlot := leaf, height := currentHeight + 1 }).2
    else .ok forkInfos

def propagateNewLeaf (leaf parent : SlotHashKey Hash) :
    Except Panic (ForkInfos Hash) := do
  let parentInfo ← forkInfos.expectFork parent
  let best ← forkInfos.isBestChild leaf
  let forkInfos ←
    if best then
      propagateBest leaf parentInfo.bestSlot forkInfos.entries.length (some parent) forkInfos
    else .ok forkInfos
  propagateDeepest leaf forkInfos.entries.length (some parent) leaf 1 forkInfos

def newLeaf (key : SlotHashKey Hash)
    (parent : Option (SlotHashKey Hash)) : ForkInfo Hash where
  stakeVotedAt := 0
  stakeVotedSubtree := 0
  height := 1
  bestSlot := key
  deepestSlot := key
  parent := parent
  children := BTreeMap.empty
  latestInvalidAncestor := parent.bind forkInfos.latestInvalidAncestor
  isDuplicateConfirmed := parent.isNone

def addNewLeafSlot (key : SlotHashKey Hash)
    (parent : Option (SlotHashKey Hash)) : Except Panic (ForkInfos Hash) :=
  if forkInfos.containsKey key then .ok forkInfos
  else
    let withLeaf : ForkInfos Hash := (forkInfos.insert key (forkInfos.newLeaf key parent)).2
    match parent with
    | none => .ok withLeaf
    | some parent => do
      let info ← withLeaf.expectFork parent
      let linked : ForkInfos Hash :=
        (withLeaf.insert parent { info with children := (info.children.insert key ()).2 }).2
      linked.propagateNewLeaf key parent

end ForkInfos

/-! ## Update operations -/

inductive UpdateLabel
  | aggregate
  | markValid (slot : ℕ)
  | markInvalid (slot : ℕ)

def UpdateLabel.rank : UpdateLabel → ℕ ×ₗ ℕ
  | aggregate => toLex (0, 0)
  | markValid slot => toLex (1, slot)
  | markInvalid slot => toLex (2, slot)

theorem UpdateLabel.rank_injective : Function.Injective UpdateLabel.rank := by
  intro x y h
  cases x <;> cases y <;> simp_all [UpdateLabel.rank]

instance : LinearOrder UpdateLabel := LinearOrder.lift' UpdateLabel.rank UpdateLabel.rank_injective

inductive UpdateOperation
  | markValid (slot : ℕ)
  | markInvalid (slot : ℕ)
  | aggregate

abbrev UpdateOperations (Hash : Type) [LinearOrder Hash] :=
  BTreeMap (SlotHashKey Hash ×ₗ UpdateLabel) UpdateOperation

namespace UpdateOperations

variable (operations : UpdateOperations Hash)

def insertValidity (key : SlotHashKey Hash) : Option UpdateOperation → UpdateOperations Hash
  | some (.markValid slot) =>
    (operations.insert (toLex (key, .markValid slot)) (.markValid slot)).2
  | some (.markInvalid slot) =>
    (operations.insert (toLex (key, .markInvalid slot)) (.markInvalid slot)).2
  | _ => operations

def doInsertAggregateOperation
    (modifyForkValidity : Option UpdateOperation) (key : SlotHashKey Hash) :
    Bool × UpdateOperations Hash :=
  if operations.containsKey (toLex (key, .aggregate)) then (false, operations)
  else
    (true, ((operations.insertValidity key modifyForkValidity).insert
      (toLex (key, .aggregate)) .aggregate).2)

/-- Ancestors of an ancestor which is already there are taken to be there as well. -/
def insertAcross (modifyForkValidity : Option UpdateOperation) :
    List (SlotHashKey Hash) → UpdateOperations Hash → UpdateOperations Hash
  | [], operations => operations
  | ancestor :: ancestors, operations =>
    match operations.doInsertAggregateOperation modifyForkValidity ancestor with
    | (true, operations) => insertAcross modifyForkValidity ancestors operations
    | (false, operations) => operations

def insertAggregateOperations (forkInfos : ForkInfos Hash) (key : SlotHashKey Hash) :
    UpdateOperations Hash :=
  insertAcross none (forkInfos.ancestorIterator key) operations

end UpdateOperations

structure Aggregation (Hash : Type) where
  stakeVotedSubtree : ℕ
  isDuplicateConfirmed : Bool
  bestChildStakeVotedSubtree : ℕ
  bestChildSlotKey : SlotHashKey Hash
  bestSlotHashKey : SlotHashKey Hash
  deepestChildHeight : ℕ
  deepestChildStakeVotedSubtree : ℕ
  deepestChildSlotKey : SlotHashKey Hash
  deepestSlotHashKey : SlotHashKey Hash

namespace Aggregation

variable (key : SlotHashKey Hash)

def start (stakeVotedAt : ℕ) : Aggregation Hash where
  stakeVotedSubtree := stakeVotedAt
  isDuplicateConfirmed := false
  bestChildStakeVotedSubtree := 0
  bestChildSlotKey := key
  bestSlotHashKey := key
  deepestChildHeight := 0
  deepestChildStakeVotedSubtree := 0
  deepestChildSlotKey := key
  deepestSlotHashKey := key

variable (total : Aggregation Hash)

def countStake (child : ForkInfo Hash) : Aggregation Hash :=
  { total with
    stakeVotedSubtree := total.stakeVotedSubtree + child.stakeVotedSubtree
    isDuplicateConfirmed := total.isDuplicateConfirmed || child.isDuplicateConfirmed }

variable (childKey : SlotHashKey Hash) (child : ForkInfo Hash)

/-- Children which are no candidates are never best, but their stake counts. -/
def compareBest : Aggregation Hash :=
  if child.isCandidate ∧ (total.bestChildSlotKey = key ∨
      total.bestChildStakeVotedSubtree < child.stakeVotedSubtree ∨
      (child.stakeVotedSubtree = total.bestChildStakeVotedSubtree ∧
        childKey < total.bestChildSlotKey)) then
    { total with
      bestChildStakeVotedSubtree := child.stakeVotedSubtree
      bestChildSlotKey := childKey
      bestSlotHashKey := child.bestSlot }
  else total

def compareDeepest : Aggregation Hash :=
  if total.deepestChildSlotKey = key ∨ total.deepestChildHeight < child.height ∨
      (child.height = total.deepestChildHeight ∧
        (total.deepestChildStakeVotedSubtree < child.stakeVotedSubtree ∨
          (child.stakeVotedSubtree = total.deepestChildStakeVotedSubtree ∧
            childKey < total.deepestChildSlotKey))) then
    { total with
      deepestChildHeight := child.height
      deepestChildStakeVotedSubtree := child.stakeVotedSubtree
      deepestChildSlotKey := childKey
      deepestSlotHashKey := child.deepestSlot }
  else total

def visit : Aggregation Hash :=
  ((total.countStake child).compareBest key childKey child).compareDeepest key childKey child

end Aggregation

def ForkInfo.aggregated (info : ForkInfo Hash) (total : Aggregation Hash) : ForkInfo Hash :=
  { (if total.isDuplicateConfirmed then info.setDuplicateConfirmed else info) with
    stakeVotedSubtree := total.stakeVotedSubtree
    height := total.deepestChildHeight + 1
    bestSlot := total.bestSlotHashKey
    deepestSlot := total.deepestSlotHashKey }

namespace ForkInfos

open DescendingPasses (update)

variable (forkInfos : ForkInfos Hash) (key : SlotHashKey Hash)

def gather (info : ForkInfo Hash) : Except Panic (Aggregation Hash) :=
  info.children.keys.foldlM
    (fun total childKey => do
      let child ← forkInfos.expectFork childKey
      .ok (total.visit key childKey child))
    (Aggregation.start key info.stakeVotedAt)

def aggregateSlot : Except Panic (ForkInfos Hash) :=
  update forkInfos key fun info => (forkInfos.gather key info).map info.aggregated

def markForkValid (validSlot : ℕ) : Except Panic (ForkInfos Hash) :=
  update forkInfos key fun info =>
    let info := info.updateWithNewlyValidAncestor validSlot
    .ok (if key.slot = validSlot then { info with isDuplicateConfirmed := true } else info)

def markForkInvalid (invalidSlot : ℕ) : Except Panic (ForkInfos Hash) :=
  update forkInfos key fun info => info.updateWithNewlyInvalidAncestor invalidSlot

def processUpdateOperation : UpdateOperation → Except Panic (ForkInfos Hash)
  | .markValid validSlot => forkInfos.markForkValid key validSlot
  | .markInvalid invalidSlot => forkInfos.markForkInvalid key invalidSlot
  | .aggregate => forkInfos.aggregateSlot key

def processUpdateOperations (forkInfos : ForkInfos Hash) (operations : UpdateOperations Hash) :
    Except Panic (ForkInfos Hash) :=
  operations.entries.reverse.foldlM
    (fun forkInfos entry => forkInfos.processUpdateOperation (ofLex entry.1).1 entry.2) forkInfos

end ForkInfos

/-! ## The fork choice -/

structure HeaviestSubtreeForkChoice (Hash : Type) [LinearOrder Hash] where
  forkInfos : ForkInfos Hash
  treeRoot : SlotHashKey Hash

namespace HeaviestSubtreeForkChoice

variable (forkChoice : HeaviestSubtreeForkChoice Hash)

def new (treeRoot : SlotHashKey Hash) :
    Except Panic (HeaviestSubtreeForkChoice Hash) := do
  let forkInfos ← ForkInfos.addNewLeafSlot BTreeMap.empty treeRoot none
  .ok ⟨forkInfos, treeRoot⟩

def addNewLeafSlot (key : SlotHashKey Hash) (parent : Option (SlotHashKey Hash)) :
    Except Panic (HeaviestSubtreeForkChoice Hash) := do
  let forkInfos ← forkChoice.forkInfos.addNewLeafSlot key parent
  .ok { forkChoice with forkInfos }

/-- The operations which notify a subtree of a mark, and all ancestors of the change. -/
def markOperations (key : SlotHashKey Hash) (subtree : List (SlotHashKey Hash))
    (mark : UpdateOperation) : UpdateOperations Hash :=
  let operations := subtree.foldl
    (fun (operations : UpdateOperations Hash) child =>
      (operations.doInsertAggregateOperation (some mark) child).2)
    BTreeMap.empty
  operations.insertAggregateOperations forkChoice.forkInfos key

def markForkInvalidCandidate [Inhabited Hash] (key : SlotHashKey Hash) :
    Except Panic (HeaviestSubtreeForkChoice Hash) :=
  match forkChoice.forkInfos.get? key with
  | none => .ok forkChoice
  | some info =>
    if info.isDuplicateConfirmed then .error .duplicateConfirmed
    else do
      let subtree ← forkChoice.forkInfos.subtreeDiff key default
      let forkInfos ← forkChoice.forkInfos.processUpdateOperations
        (forkChoice.markOperations key subtree (.markInvalid key.slot))
      .ok { forkChoice with forkInfos }

def newlyDuplicateConfirmed (keys : List (SlotHashKey Hash)) :
    Except Panic (List (SlotHashKey Hash)) :=
  keys.foldlM
    (fun newly key => do
      let info ← forkChoice.forkInfos.expectFork key
      .ok (if info.isDuplicateConfirmed then newly else newly ++ [key]))
    []

def markForkValidCandidate [Inhabited Hash] (key : SlotHashKey Hash) :
    Except Panic (List (SlotHashKey Hash) × HeaviestSubtreeForkChoice Hash) := do
  let newly ← forkChoice.newlyDuplicateConfirmed (key :: forkChoice.forkInfos.ancestorIterator key)
  let subtree ← forkChoice.forkInfos.subtreeDiff key default
  let forkInfos ← forkChoice.forkInfos.processUpdateOperations
    (forkChoice.markOperations key subtree (.markValid key.slot))
  .ok (newly, { forkChoice with forkInfos })

end HeaviestSubtreeForkChoice

end RakuraiValidator.ForkChoice
