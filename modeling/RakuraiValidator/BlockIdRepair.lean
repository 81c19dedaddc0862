import RakuraiValidator.ShredMerkleTree

/-!
# Repair by block id

The id of a block is the root of a second Merkle tree: its leaves are the Merkle roots of the FEC
sets of the block, and the last leaf binds the parent and the number of FEC sets.  A repair response
is checked against the id with a Merkle proof whose length follows from the number of FEC sets.

Reading from the blockstore is a parameter, and a ping comes with the result of its signature check.
-/

namespace RakuraiValidator.BlockIdRepair

open ShredMerkle List

def dataShredsPerFecBlock : ℕ := 32

def maxFecSetsPerSlot : UInt32 := 1024

def leBytes : ℕ → ℕ → Bytes
  | 0, _ => []
  | k + 1, n => UInt8.ofNat (n % 256) :: leBytes k (n / 256)

structure ParentInfo where
  slot : UInt64
  blockId : Hash
  deriving DecidableEq

section Model

variable (sha256 : Bytes → Hash)

def parentInfoLeaf (parent : ParentInfo) (fecSetCount : UInt32) : Hash :=
  hashv sha256 [leBytes 8 parent.slot.toNat, parent.blockId.bytes, leBytes 4 fecSetCount.toNat]

def okOr {α ε : Type} (error : ε) : Option α → Except ε α
  | some a => .ok a
  | none => .error error

inductive BlockstoreError
  | parentInfoUnavailable
  | merkleTreeConstructionFailure

def buildDoubleMerkleTree (parentInfo : Option (Option UInt64 × Hash))
    (merkleRoot : ℕ → Option Hash) (fecSetCount : UInt32) : Except BlockstoreError MerkleTree :=
  match parentInfo with
  | some (some parentSlot, parentBlockId) =>
    let leaves : List (Except Error Hash) :=
      (List.range fecSetCount.toNat).map (fun i =>
        okOr .invalidMerkleRoot (merkleRoot (i * dataShredsPerFecBlock))) ++
      [.ok (parentInfoLeaf sha256 ⟨parentSlot, parentBlockId⟩ fecSetCount)]
    match MerkleTree.tryNewWithLen sha256 leaves (fecSetCount.toNat + 1) with
    | .ok tree => .ok tree
    | .error _ => .error .merkleTreeConstructionFailure
  | _ => .error .parentInfoUnavailable

/-! ## Requests and responses -/

inductive BlockIdRepairType
  | parentAndFecSetCount (slot : UInt64) (blockId : Hash)
  | fecSetRoot (slot : UInt64) (blockId : Hash) (fecSetIndex fecSetCount : UInt32)

inductive BlockIdRepairResponse
  | parentFecSetCount (fecSetCount : UInt32) (parentInfo : ParentInfo) (parentProof : Bytes)
  | fecSetRoot (fecSetRoot : MerkleProofEntry) (fecSetProof : Bytes)
  | ping (verified : Bool)

def verifyResponse : BlockIdRepairType → BlockIdRepairResponse → Bool
  | _, .ping verified => verified
  | .parentAndFecSetCount _ blockId, .parentFecSetCount fecSetCount parentInfo parentProof =>
    if fecSetCount = 0 ∨ maxFecSetsPerSlot < fecSetCount then false
    else if parentProof.length ≠
        getProofSize (fecSetCount.toNat + 1) * sizeOfMerkleProofEntry then false
    else
      (verifyMerkleProof sha256
        (hashAsMerkleProofEntry (parentInfoLeaf sha256 parentInfo fecSetCount))
        fecSetCount.toNat parentProof blockId).isOk
  | .fecSetRoot _ blockId fecSetIndex fecSetCount, .fecSetRoot fecSetRoot fecSetProof =>
    if fecSetCount = 0 ∨ maxFecSetsPerSlot < fecSetCount then false
    else if fecSetIndex.toNat % dataShredsPerFecBlock ≠ 0 then false
    else if fecSetCount.toNat ≤ fecSetIndex.toNat / dataShredsPerFecBlock then false
    else if fecSetProof.length ≠
        getProofSize (fecSetCount.toNat + 1) * sizeOfMerkleProofEntry then false
    else
      (verifyMerkleProof sha256 fecSetRoot (fecSetIndex.toNat / dataShredsPerFecBlock) fecSetProof
        blockId).isOk
  | .parentAndFecSetCount .., .fecSetRoot .. => false
  | .fecSetRoot .., .parentFecSetCount .. => false

end Model

/-! ## The last leaf -/

variable (parent : ParentInfo) (fecSetCount : UInt32)

def parentInfoMessage : Bytes :=
  [leBytes 8 parent.slot.toNat, parent.blockId.bytes, leBytes 4 fecSetCount.toNat].flatten

@[simp] theorem length_leBytes (k n : ℕ) : (leBytes k n).length = k := by
  induction k generalizing n with
  | zero => rfl
  | succ k ih => simp [leBytes, ih]

theorem leBytes_inj {k n m : ℕ} (hn : n < 256 ^ k) (hm : m < 256 ^ k)
    (h : leBytes k n = leBytes k m) : n = m := by
  induction k generalizing n m with
  | zero => simp at hn hm; omega
  | succ k ih =>
    obtain ⟨hlow, hhigh⟩ := cons.inj h
    have hlow' : n % 256 = m % 256 := by
      have := congrArg UInt8.toNat hlow
      simpa using this
    rw [pow_succ] at hn hm
    have := ih (by omega) (by omega) hhigh
    omega

theorem length_parentInfoMessage : (parentInfoMessage parent fecSetCount).length = 44 := by
  simp [parentInfoMessage, parent.blockId.length_eq]

theorem parentInfoMessage_inj {parent other : ParentInfo} {count count' : UInt32}
    (h : parentInfoMessage parent count = parentInfoMessage other count') :
    parent = other ∧ count = count' := by
  simp only [parentInfoMessage, flatten_cons, flatten_nil, append_nil] at h
  obtain ⟨hslot, hrest⟩ := append_inj h (by simp)
  obtain ⟨hid, hcount⟩ := append_inj hrest (parent.blockId.length_eq.trans other.blockId.length_eq.symm)
  have hslot' := leBytes_inj parent.slot.toNat_lt other.slot.toNat_lt hslot
  have hcount' := leBytes_inj count.toNat_lt count'.toNat_lt hcount
  constructor
  · obtain ⟨slot, id⟩ := parent
    obtain ⟨slot', id'⟩ := other
    rw [ParentInfo.mk.injEq]
    exact ⟨UInt64.toNat.inj hslot', FixedBytes.ext hid⟩
  · exact UInt32.toNat.inj hcount'

end RakuraiValidator.BlockIdRepair
