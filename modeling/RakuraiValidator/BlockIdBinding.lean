import RakuraiValidator.BlockIdRepair

/-!
# What a block id binds

A response with another number of FEC sets is checked with a proof of another length.  A shorter one
ends in an inner node of the tree of the block, which is no parent info.  A longer one goes on below
the Merkle root of a FEC set, into the tree of its shreds: it is stopped there by the messages of the
inner nodes and of the shreds, but not by an entry that no published shred covers.  Such an entry is
whatever the leader put into the Merkle proofs of the shreds next to it.
-/

namespace RakuraiValidator.BlockIdRepair

open ShredMerkle MerkleOpenings List

attribute [local simp] Tree.atDepth maxFecSetsPerSlot

/-! ## Blocks -/

/-- The part of a shred that its Merkle leaf hashes: between the signature and the Merkle proof of a
data shred or a coding shred, with or without a retransmitter signature. -/
structure Shred where
  bytes : Bytes
  length_mem : bytes.length ∈ [1019, 955, 1044, 980]

def Shred.message (shred : Shred) : Bytes := [merkleHashPrefixLeaf, shred.bytes].flatten

/-- A tree of shreds.  An entry which no published shred covers may be anything. -/
inductive ShredTree : ℕ → Type
  | unseen {height : ℕ} (entry : MerkleProofEntry) : ShredTree height
  | shred (leaf : Shred) : ShredTree 0
  | join {height : ℕ} (left right : ShredTree height) : ShredTree (height + 1)

namespace ShredTree

def tree {height : ℕ} : ShredTree height → Tree Bytes MerkleProofEntry
  | unseen entry => .unseen entry
  | shred leaf => .leaf leaf.message
  | join left right => .join left.tree right.tree

def unseenEntries {height : ℕ} : ShredTree height → List MerkleProofEntry
  | unseen entry => [entry]
  | shred _ => []
  | join left right => left.unseenEntries ++ right.unseenEntries

end ShredTree

attribute [local simp] ShredTree.tree

structure FecSet where
  left : ShredTree 5
  right : ShredTree 5

namespace FecSet

variable (sha256 : Bytes → Hash) (fecSet : FecSet)

def tree : Tree Bytes MerkleProofEntry := .join fecSet.left.tree fecSet.right.tree

def merkleRoot : Hash :=
  joinNodes sha256 (fecSet.left.tree.entry (digest sha256) nodeMessage)
    (fecSet.right.tree.entry (digest sha256) nodeMessage)

def unseenEntries : List MerkleProofEntry :=
  fecSet.left.unseenEntries ++ fecSet.right.unseenEntries

end FecSet

structure Block where
  fecSets : List FecSet
  parentInfo : ParentInfo
  count_pos : 1 ≤ fecSets.length
  count_le : fecSets.length ≤ maxFecSetsPerSlot.toNat

namespace Block

variable (sha256 : Bytes → Hash) (block : Block)

def fecSetCount : UInt32 := UInt32.ofNat block.fecSets.length

def merkleRoot (fecSetIndex : ℕ) : Option Hash :=
  (block.fecSets[fecSetIndex / dataShredsPerFecBlock]?).map (·.merkleRoot sha256)

def doubleMerkleTree : Except BlockstoreError MerkleTree :=
  buildDoubleMerkleTree sha256 (some (some block.parentInfo.slot, block.parentInfo.blockId))
    (block.merkleRoot sha256) block.fecSetCount

def leaves : List (Tree Bytes MerkleProofEntry) :=
  block.fecSets.map FecSet.tree ++ [.leaf (parentInfoMessage block.parentInfo block.fecSetCount)]

def depth : ℕ := getProofSize (block.fecSets.length + 1)

def messages : List Bytes :=
  (collapse .join block.depth block.leaves).flatMap (·.messages (digest sha256) nodeMessage)

end Block

/-! ## Responses -/

structure ParentFecSetCount where
  fecSetCount : UInt32
  parentInfo : ParentInfo
  parentProof : Bytes

namespace ParentFecSetCount

variable (sha256 : Bytes → Hash) (response : ParentFecSetCount)

def start : ℕ × MerkleProofEntry :=
  (response.fecSetCount.toNat,
    digest sha256 (parentInfoMessage response.parentInfo response.fecSetCount))

def messages : List Bytes :=
  parentInfoMessage response.parentInfo response.fecSetCount ::
    climbed (digest sha256) nodeMessage (response.start sha256) (chunksExact response.parentProof)

/-- The nodes that the proof passes below the root, from its leaf on. -/
def passed : List MerkleProofEntry :=
  (List.range (chunksExact response.parentProof).length).map fun i =>
    (climb (digest sha256) nodeMessage (response.start sha256)
      ((chunksExact response.parentProof).take i)).2

def accepted (slot : UInt64) (blockId : Hash) : Bool :=
  verifyResponse sha256 (.parentAndFecSetCount slot blockId)
    (.parentFecSetCount response.fecSetCount response.parentInfo response.parentProof)

end ParentFecSetCount

/-! ## The tree of a block -/

variable {k : ℕ} {m : Bytes} {e : MerkleProofEntry} {slot : UInt64} (shred : Shred)

section Binding

variable {sha256 : Bytes → Hash} {block : Block} {response : ParentFecSetCount}

theorem toNat_fecSetCount (block : Block) : block.fecSetCount.toNat = block.fecSets.length := by
  have hle := block.count_le
  have hmax : maxFecSetsPerSlot.toNat = 1024 := rfl
  simp only [Block.fecSetCount, UInt32.toNat_ofNat']
  omega

def leafHashes (sha256 : Bytes → Hash) (block : Block) : List Hash :=
  block.fecSets.map (·.merkleRoot sha256) ++
    [parentInfoLeaf sha256 block.parentInfo block.fecSetCount]

theorem leafHashes_entries (sha256 : Bytes → Hash) (block : Block) :
    (leafHashes sha256 block).map hashAsMerkleProofEntry =
      block.leaves.map (·.entry (digest sha256) nodeMessage) := by
  simp only [leafHashes, Block.leaves, map_append, map_map, map_singleton]
  rfl

theorem doubleMerkleTree_eq (sha256 : Bytes → Hash) (block : Block) :
    block.doubleMerkleTree sha256 =
      match MerkleTree.tryNewWithLen sha256 ((leafHashes sha256 block).map .ok)
        (leafHashes sha256 block).length with
      | .ok tree => .ok tree
      | .error _ => .error .merkleTreeConstructionFailure := by
  have hroots : (range block.fecSets.length).map (fun i =>
      okOr .invalidMerkleRoot (block.merkleRoot sha256 (i * dataShredsPerFecBlock))) =
        block.fecSets.map fun fecSet => (.ok (fecSet.merkleRoot sha256) : Except Error Hash) := by
    apply ext_getElem
    · simp
    · intro i hi hi'
      have hlt : i < block.fecSets.length := by simpa using hi'
      simp [Block.merkleRoot, dataShredsPerFecBlock, hlt, okOr]
  simp only [Block.doubleMerkleTree, buildDoubleMerkleTree, toNat_fecSetCount, hroots, leafHashes,
    map_append, map_map, length_append, length_map, length_singleton]
  rfl

theorem doubleMerkleTree_root (sha256 : Bytes → Hash) (block : Block) :
    ∃ merkleTree blockId, block.doubleMerkleTree sha256 = .ok merkleTree ∧
      merkleTree.root = some blockId ∧
      collapse (join sha256) block.depth (leafHashes sha256 block) = [blockId] := by
  have hlen : (leafHashes sha256 block).length = block.fecSets.length + 1 := by
    simp [leafHashes]
  obtain ⟨merkleTree, blockId, hbuilt, hroot, hcoll⟩ :=
    tryNewWithLen_root sha256 (leafHashes sha256 block) (by omega)
  refine ⟨merkleTree, blockId, ?_, hroot, ?_⟩
  · rw [doubleMerkleTree_eq, hbuilt]
  · rw [Block.depth, ← hlen]
    exact hcoll

variable {blockId : Hash}

theorem doubleMerkleTree_entry
    (hcoll : collapse (join sha256) block.depth (leafHashes sha256 block) = [blockId]) :
    ∃ tree, collapse .join block.depth block.leaves = [tree] ∧
      tree.entry (digest sha256) nodeMessage = hashAsMerkleProofEntry blockId := by
  have hhash := map_collapse (f := join sha256) (fun a b => digest sha256 (nodeMessage a b))
    (g := hashAsMerkleProofEntry) (fun _ _ => rfl) block.depth (leafHashes sha256 block)
  have hents := map_collapse (f := Tree.join) (fun a b => digest sha256 (nodeMessage a b))
    (g := fun tree => tree.entry (digest sha256) nodeMessage) (fun _ _ => rfl) block.depth
    block.leaves
  rw [leafHashes_entries, ← hents, hcoll] at hhash
  obtain ⟨tree, htree, hentry⟩ := map_eq_singleton_iff.mp hhash.symm
  exact ⟨tree, htree, hentry⟩

/-! ## Messages of different kinds -/

theorem message_ne_nodeMessage (a b : MerkleProofEntry) : shred.message ≠ nodeMessage a b := by
  intro h
  have hfirst := congrArg head? h
  simp [Shred.message, nodeMessage, merkleHashPrefixLeaf, merkleHashPrefixNode] at hfirst

theorem message_ne_parentInfoMessage (parent : ParentInfo) (count : UInt32) :
    shred.message ≠ parentInfoMessage parent count := by
  intro h
  have hlen := congrArg length h
  have hmem := shred.length_mem
  simp only [length_parentInfoMessage, Shred.message, merkleHashPrefixLeaf, flatten_cons,
    flatten_nil, append_nil, length_append, length_cons, length_nil]
    at hlen
  simp only [mem_cons, not_mem_nil, or_false] at hmem
  omega

theorem nodeMessage_ne_parentInfoMessage (a b : MerkleProofEntry) (parent : ParentInfo)
    (count : UInt32) : nodeMessage a b ≠ parentInfoMessage parent count := by
  intro h
  have hlen := congrArg length h
  rw [length_nodeMessage, length_parentInfoMessage] at hlen
  contradiction

namespace ShredTree

variable {height : ℕ} {tree : ShredTree height}

theorem leaves_ne_nodeMessage (h : m ∈ tree.tree.leaves) (a b : MerkleProofEntry) :
    m ≠ nodeMessage a b := by
  induction tree with
  | unseen entry => simp [Tree.leaves] at h
  | shred leaf =>
    rw [mem_singleton.mp h]
    exact message_ne_nodeMessage leaf a b
  | join left right ihl ihr =>
    rcases mem_append.mp h with h | h
    · exact ihl h
    · exact ihr h

theorem mem_unseenEntries (h : .unseen e ∈ tree.tree.atDepth k) : e ∈ tree.unseenEntries := by
  induction tree generalizing k with
  | unseen entry => cases k <;> simp_all [unseenEntries]
  | shred leaf => cases k <;> simp at h
  | join left right ihl ihr =>
    cases k with
    | zero => simp at h
    | succ k =>
      rcases mem_append.mp h with h | h
      · exact mem_append_left _ (ihl h)
      · exact mem_append_right _ (ihr h)

theorem leaf_of_mem_atDepth (h : .leaf m ∈ tree.tree.atDepth k) :
    ∃ shred : Shred, m = shred.message := by
  induction tree generalizing k with
  | unseen entry => cases k <;> simp at h
  | shred leaf =>
    cases k with
    | zero => exact ⟨leaf, by simpa using h⟩
    | succ k => simp at h
  | join left right ihl ihr =>
    cases k with
    | zero => simp at h
    | succ k =>
      rcases mem_append.mp h with h | h
      · exact ihl h
      · exact ihr h

end ShredTree

/-! ## Accepted responses -/

theorem climb_of_accepted (h : response.accepted sha256 slot blockId = true) :
    (chunksExact response.parentProof).length = getProofSize (response.fecSetCount.toNat + 1) ∧
    (climb (digest sha256) nodeMessage (response.start sha256)
      (chunksExact response.parentProof)).2 = hashAsMerkleProofEntry blockId := by
  simp only [ParentFecSetCount.accepted, verifyResponse] at h
  split at h
  · contradiction
  · split at h
    · contradiction
    next hlen =>
      refine ⟨?_, climb_of_verifyMerkleProof ?_⟩
      · rw [length_chunksExact, not_not.mp hlen]
        exact Nat.mul_div_cancel _ (by decide)
      · cases hver : verifyMerkleProof sha256
          (hashAsMerkleProofEntry (parentInfoLeaf sha256 response.parentInfo response.fecSetCount))
          response.fecSetCount.toNat response.parentProof blockId with
        | error e => simp [hver, Except.isOk, Except.toBool] at h
        | ok => exact hver

theorem leaves_block (h : ∃ below ∈ block.leaves, m ∈ below.leaves) (a b : MerkleProofEntry) :
    m ≠ nodeMessage a b := by
  obtain ⟨below, hbelow, hm⟩ := h
  rcases mem_append.mp hbelow with hset | hlast
  · obtain ⟨fecSet, _, rfl⟩ := mem_map.mp hset
    rcases mem_append.mp hm with h | h
    · exact ShredTree.leaves_ne_nodeMessage h a b
    · exact ShredTree.leaves_ne_nodeMessage h a b
  · rw [mem_singleton.mp hlast] at hm
    rw [mem_singleton.mp hm]
    exact (nodeMessage_ne_parentInfoMessage a b _ _).symm

variable {tree : Tree Bytes MerkleProofEntry}

section

variable (htree : tree ∈ collapse .join block.depth block.leaves)

include htree

/-- A node of the block's tree that joins nothing is in the tree of a FEC set, or the last leaf. -/
theorem part_of_block {part : Tree Bytes MerkleProofEntry} (hpart : part ∈ tree.atDepth k)
    (hnot : ∀ left right, part ≠ .join left right) :
    (∃ fecSet ∈ block.fecSets, block.depth < k ∧
      ∃ i, part ∈ fecSet.left.tree.atDepth i ∨ part ∈ fecSet.right.tree.atDepth i) ∨
    part = .leaf (parentInfoMessage block.parentInfo block.fecSetCount) := by
  rcases atDepth_of_mem_collapse htree hpart with ⟨_, left, right, hjoin⟩ | ⟨hle, below, hbelow, h⟩
  · exact absurd hjoin (hnot left right)
  · rcases mem_append.mp hbelow with hset | hlast
    · obtain ⟨fecSet, hmem, rfl⟩ := mem_map.mp hset
      cases hcase : k - block.depth with
      | zero =>
        rw [hcase] at h
        exact absurd (mem_singleton.mp h) (hnot _ _)
      | succ i =>
        rw [hcase] at h
        exact .inl ⟨fecSet, hmem, by omega, i, mem_append.mp h⟩
    · rw [mem_singleton.mp hlast] at h
      cases hcase : k - block.depth with
      | zero => exact .inr (by simpa [hcase] using h)
      | succ i => simp [hcase] at h

theorem unseen_below (h : .unseen e ∈ tree.atDepth k) :
    block.depth < k ∧ ∃ fecSet ∈ block.fecSets, e ∈ fecSet.unseenEntries := by
  rcases part_of_block htree h nofun with ⟨fecSet, hmem, hdeep, i, hleft | hright⟩ | hlast
  · exact ⟨hdeep, fecSet, hmem, mem_append_left _ (ShredTree.mem_unseenEntries hleft)⟩
  · exact ⟨hdeep, fecSet, hmem, mem_append_right _ (ShredTree.mem_unseenEntries hright)⟩
  · contradiction

theorem leaf_message (h : .leaf m ∈ tree.atDepth k) :
    m = parentInfoMessage block.parentInfo block.fecSetCount ∨ ∃ shred : Shred, m = shred.message := by
  rcases part_of_block htree h nofun with ⟨_, _, _, i, hside⟩ | hlast
  · exact .inr (hside.elim ShredTree.leaf_of_mem_atDepth ShredTree.leaf_of_mem_atDepth)
  · exact .inl (Tree.leaf.inj hlast)

end

theorem mem_passed {i : ℕ} (h : i < (chunksExact response.parentProof).length)
    {limit : ℕ} (hi : i < limit) :
    (climb (digest sha256) nodeMessage (response.start sha256)
      ((chunksExact response.parentProof).take i)).2 ∈ (response.passed sha256).take limit := by
  have hlen : (response.passed sha256).length = (chunksExact response.parentProof).length := by
    rw [ParentFecSetCount.passed, length_map, length_range]
  rw [mem_take_iff_getElem]
  exact ⟨i, Nat.lt_min.mpr ⟨hi, hlen ▸ h⟩, by simp [ParentFecSetCount.passed]⟩

/-- A hash function that tells the messages of small blocks apart: by the number of FEC sets in a
parent info, by the hashes of the children in a node. -/
def tag (message : Bytes) : UInt8 :=
  if message.length = 44 then message.getD 40 0
  else if message.length = 66 then 1 + message.getD 26 0 + 16 * message.getD 46 0
  else 100

def tagHash (message : Bytes) : Hash := ⟨List.replicate 32 (tag message), length_replicate⟩

def zeroEntry : MerkleProofEntry := ⟨List.replicate 20 0, rfl⟩

def firstShred : (height : ℕ) → ShredTree height
  | 0 => .shred ⟨List.replicate 1019 0, by rw [length_replicate]; exact mem_cons_self⟩
  | height + 1 => .join (firstShred height) (.unseen zeroEntry)

def firstFecSet : FecSet := ⟨firstShred 5, .unseen zeroEntry⟩

def parentZero : ParentInfo := ⟨0, ⟨List.replicate 32 0, rfl⟩⟩

end Binding

/-! ## A forged number of FEC sets -/

section Forged

variable (sha256 : Bytes → Hash) (first second : FecSet) (published : ShredTree 5)
  (parentInfo claimed : ParentInfo)

/-- Only the first half of the last FEC set is published, with the leaf of another parent info as the
entry of the other half in the Merkle proofs. -/
def forgedBlock : Block where
  fecSets := [first, second,
    ⟨published, .unseen (digest sha256 (parentInfoMessage claimed 5))⟩]
  parentInfo := parentInfo
  count_pos := by simp
  count_le := by simp

def forgedResponse : ParentFecSetCount where
  fecSetCount := 5
  parentInfo := claimed
  parentProof :=
    ([published.tree.entry (digest sha256) nodeMessage,
      digest sha256 (parentInfoMessage parentInfo 3),
      digest sha256 (nodeMessage (hashAsMerkleProofEntry (first.merkleRoot sha256))
        (hashAsMerkleProofEntry (second.merkleRoot sha256)))].map FixedBytes.bytes).flatten

theorem forgedResponse_accepted (slot : UInt64) : ∃ merkleTree blockId,
    (forgedBlock sha256 first second published parentInfo claimed).doubleMerkleTree sha256 =
      .ok merkleTree ∧ merkleTree.root = some blockId ∧
    (forgedBlock sha256 first second published parentInfo claimed).fecSets.length = 3 ∧
    (forgedResponse sha256 first second published parentInfo claimed).accepted sha256 slot blockId =
      true ∧
    (forgedResponse sha256 first second published parentInfo claimed).fecSetCount.toNat = 5 ∧
    (forgedResponse sha256 first second published parentInfo claimed).parentInfo = claimed := by
  obtain ⟨merkleTree, blockId, hbuilt, hroot, hcoll⟩ := doubleMerkleTree_root sha256
    (forgedBlock sha256 first second published parentInfo claimed)
  let last : FecSet := ⟨published, .unseen (digest sha256 (parentInfoMessage claimed 5))⟩
  have hblockId : blockId = join sha256
      (join sha256 (first.merkleRoot sha256) (second.merkleRoot sha256))
      (join sha256 (last.merkleRoot sha256) (parentInfoLeaf sha256 parentInfo 3)) := by
    have hdepth : (forgedBlock sha256 first second published parentInfo claimed).depth = 2 := by
      simp only [Block.depth, forgedBlock, length_cons, length_nil]
      decide
    rw [hdepth] at hcoll
    exact (cons.inj hcoll).1.symm
  refine ⟨merkleTree, blockId, hbuilt, hroot, rfl, ?_, rfl, rfl⟩
  rw [hblockId]
  have hlen : (forgedResponse sha256 first second published parentInfo claimed).parentProof.length =
      getProofSize (5 + 1) * sizeOfMerkleProofEntry := length_flatten_bytes _
  -- the walk starts in the unseen half, whose sibling is the published one
  have hverified : verifyMerkleProof sha256 (hashAsMerkleProofEntry (parentInfoLeaf sha256 claimed 5)) 5
      (forgedResponse sha256 first second published parentInfo claimed).parentProof
      (join sha256 (join sha256 (first.merkleRoot sha256) (second.merkleRoot sha256))
        (join sha256 (last.merkleRoot sha256) (parentInfoLeaf sha256 parentInfo 3))) = .ok () := by
    rw [verifyMerkleProof, if_neg (by rw [hlen]; decide), forgedResponse, chunksExact_flatten]
    exact if_pos rfl
  have hcount : ¬ ((5 : UInt32) = 0 ∨ maxFecSetsPerSlot < 5) := by decide
  rw [ParentFecSetCount.accepted, verifyResponse]
  exact (if_neg hcount).trans ((if_neg (not_not.mpr hlen)).trans (congrArg Except.isOk hverified))

def otherParent : ParentInfo := ⟨9, parentZero.blockId⟩

def sampleBlock : Block :=
  forgedBlock tagHash firstFecSet firstFecSet (firstShred 5) parentZero otherParent

def sampleResponse : ParentFecSetCount :=
  forgedResponse tagHash firstFecSet firstFecSet (firstShred 5) parentZero otherParent

theorem injOn_sample : Set.InjOn (digest tagHash)
    {m | m ∈ sampleBlock.messages tagHash ∨ m ∈ sampleResponse.messages tagHash} := by
  have hdistinct : ∀ a ∈ sampleBlock.messages tagHash ++ sampleResponse.messages tagHash,
      ∀ b ∈ sampleBlock.messages tagHash ++ sampleResponse.messages tagHash,
        digest tagHash a = digest tagHash b → a = b := by
    decide +kernel
  exact fun a ha b hb => hdistinct a (mem_append.mpr ha) b (mem_append.mpr hb)

end Forged

end RakuraiValidator.BlockIdRepair
