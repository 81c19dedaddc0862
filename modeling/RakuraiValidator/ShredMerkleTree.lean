import RakuraiValidator.MerkleOpenings
import RakuraiValidator.DescendingPasses
import Mathlib.Data.Nat.Log

/-!
# Merkle trees of shreds

Nodes are hashes of 32 bytes, of which a parent and a proof take the first 20.  The nodes of a tree
are kept in one list, level after level.  The hash function is a parameter.
-/

namespace RakuraiValidator.ShredMerkle

open MerkleOpenings List Nat

abbrev Bytes := List UInt8

@[ext]
structure FixedBytes (size : ℕ) where
  bytes : Bytes
  length_eq : bytes.length = size
  deriving DecidableEq

abbrev Hash := FixedBytes 32

abbrev MerkleProofEntry := FixedBytes 20

def sizeOfMerkleProofEntry : ℕ := 20

def hashAsMerkleProofEntry (hash : Hash) : MerkleProofEntry :=
  ⟨hash.bytes.take sizeOfMerkleProofEntry, by simp [hash.length_eq, sizeOfMerkleProofEntry]⟩

def merkleHashPrefixLeaf : Bytes :=
  [0x00, 0x53, 0x4f, 0x4c, 0x41, 0x4e, 0x41, 0x5f, 0x4d, 0x45, 0x52, 0x4b, 0x4c, 0x45, 0x5f,
    0x53, 0x48, 0x52, 0x45, 0x44, 0x53, 0x5f, 0x4c, 0x45, 0x41, 0x46]

def merkleHashPrefixNode : Bytes :=
  [0x01, 0x53, 0x4f, 0x4c, 0x41, 0x4e, 0x41, 0x5f, 0x4d, 0x45, 0x52, 0x4b, 0x4c, 0x45, 0x5f,
    0x53, 0x48, 0x52, 0x45, 0x44, 0x53, 0x5f, 0x4e, 0x4f, 0x44, 0x45]

inductive Error
  | invalidMerkleProof
  | invalidMerkleRoot
  | panic
  deriving DecidableEq

/-! ## Trees -/

section Model

variable (sha256 : Bytes → Hash)

def hashv (slices : List Bytes) : Hash := sha256 slices.flatten

def joinNodes (node other : MerkleProofEntry) : Hash :=
  hashv sha256 [merkleHashPrefixNode, node.bytes, other.bytes]

structure MerkleTree where
  nodes : List Hash

def MerkleTree.root (tree : MerkleTree) : Option Hash := tree.nodes.getLast?

/-- The sizes of the levels which are joined, down to the one with two nodes. -/
def levelSizes : ℕ → ℕ → List ℕ
  | 0, _ => []
  | fuel + 1, k => k :: if 2 < k then levelSizes fuel ((k + 1) / 2) else []

def pushLevel (nodes : List Hash) (size : ℕ) : Except Error (List Hash) :=
  if nodes.length < size then .error .panic
  else do
    let offset := nodes.length - size
    let parents ← (List.range ((size + 1) / 2)).mapM fun i =>
      match nodes[offset + 2 * i]?, nodes[min (offset + 2 * i + 1) (offset + size - 1)]? with
      | some node, some other =>
        .ok (joinNodes sha256 (hashAsMerkleProofEntry node) (hashAsMerkleProofEntry other))
      | _, _ => .error .panic
    .ok (nodes ++ parents)

def MerkleTree.tryNewWithLen (shreds : List (Except Error Hash)) (len : ℕ) :
    Except Error MerkleTree := do
  let nodes ← shreds.mapM id
  let nodes ← (if 1 < len then levelSizes len len else []).foldlM (pushLevel sha256) nodes
  .ok ⟨nodes⟩

/-! ## Proofs -/

def getMerkleRoot (index : ℕ) (node : Hash) (proof : List MerkleProofEntry) : Except Error Hash :=
  let (index, root) := proof.foldl (fun (index, node) other =>
    let parent :=
      if index % 2 = 0 then joinNodes sha256 (hashAsMerkleProofEntry node) other
      else joinNodes sha256 other (hashAsMerkleProofEntry node)
    (index / 2, parent)) (index, node)
  if index = 0 then .ok root else .error .invalidMerkleProof

def chunksExact (proof : Bytes) : List MerkleProofEntry :=
  (finRange (proof.length / sizeOfMerkleProofEntry)).map fun i : Fin _ =>
    ⟨(proof.drop (sizeOfMerkleProofEntry * i)).take sizeOfMerkleProofEntry, by
      have hi := i.2
      rw [length_take, length_drop]
      simp only [sizeOfMerkleProofEntry] at hi ⊢
      omega⟩

def verifyMerkleProof (node : MerkleProofEntry) (index : ℕ) (proof : Bytes) (expectedRoot : Hash) :
    Except Error Unit :=
  if proof.length % sizeOfMerkleProofEntry ≠ 0 then .error .invalidMerkleProof
  else
    match chunksExact proof with
    | [] => .error .invalidMerkleProof
    | other :: proof => do
      let parent :=
        if index % 2 = 0 then joinNodes sha256 node other else joinNodes sha256 other node
      let merkleRoot ← getMerkleRoot sha256 (index / 2) parent proof
      if merkleRoot = expectedRoot then .ok () else .error .invalidMerkleProof

end Model

def getProofSize (numShreds : ℕ) : ℕ :=
  let bits := if numShreds = 0 then 0 else numShreds.log2 + 1
  if 2 ^ numShreds.log2 = numShreds then bits - 1 else bits

/-! ## The number of levels -/

theorem getProofSize_eq_clog (n : ℕ) : getProofSize n = Nat.clog 2 n := by
  rcases Nat.eq_zero_or_pos n with rfl | hpos
  · simp [getProofSize]
  · simp only [getProofSize, if_neg hpos.ne']
    have hle := log2_self_le hpos.ne'
    have hlt := lt_log2_self (n := n)
    split
    next heq =>
      rw [Nat.add_sub_cancel]
      nth_rewrite 2 [← heq]
      exact (clog_pow 2 _ one_lt_two).symm
    next hne =>
      apply le_antisymm
      · exact (lt_clog_iff_pow_lt one_lt_two).mpr (lt_of_le_of_ne hle hne)
      · exact clog_le_of_le_pow hlt.le

theorem getProofSize_of_two_le {n : ℕ} (h : 2 ≤ n) :
    getProofSize n = getProofSize ((n + 1) / 2) + 1 := by
  rw [getProofSize_eq_clog, getProofSize_eq_clog, clog_of_two_le one_lt_two h]
  rfl

/-! ## What a tree holds -/

variable (entries : List MerkleProofEntry) {index : ℕ}

section Trees

variable {sha256 : Bytes → Hash}

def join (sha256 : Bytes → Hash) (node other : Hash) : Hash :=
  joinNodes sha256 (hashAsMerkleProofEntry node) (hashAsMerkleProofEntry other)

theorem mapM_range {β ε : Type} {f : ℕ → Except ε β} (l : List β)
    (h : ∀ i b, l[i]? = some b → f i = .ok b) : (List.range l.length).mapM f = .ok l := by
  induction l using reverseRecOn with
  | nil => rfl
  | append_singleton l b ih =>
    have hbefore : (range l.length).mapM f = .ok l := by
      apply ih
      intro i c hc
      apply h
      rw [getElem?_append_left (List.getElem?_eq_some_iff.mp hc).1, hc]
    have hlast : f l.length = .ok b := h _ b (by simp)
    rw [length_append, length_singleton, range_succ, mapM_append, hbefore, mapM_cons, hlast]
    rfl

theorem pushLevel_append (earlier level : List Hash) :
    pushLevel sha256 (earlier ++ level) level.length =
      .ok (earlier ++ level ++ pairUp (join sha256) level) := by
  have hnot : ¬ (earlier ++ level).length < level.length := by simp
  have hoffset : (earlier ++ level).length - level.length = earlier.length := by simp
  have hparents : (List.range ((level.length + 1) / 2)).mapM (fun i =>
      match (earlier ++ level)[earlier.length + 2 * i]?,
        (earlier ++ level)[min (earlier.length + 2 * i + 1)
          (earlier.length + level.length - 1)]? with
      | some node, some other =>
        .ok (joinNodes sha256 (hashAsMerkleProofEntry node) (hashAsMerkleProofEntry other))
      | _, _ => .error .panic) =
      (.ok (pairUp (join sha256) level) : Except Error (List Hash)) := by
    rw [← length_pairUp (f := join sha256)]
    apply mapM_range
    intro i parent hpar
    have hi := (List.getElem?_eq_some_iff.mp hpar).1
    rw [length_pairUp] at hi
    obtain ⟨a, b, ha, hb, hab⟩ := getElem?_pairUp (f := join sha256) level i (by omega)
    have hmin : min (earlier.length + 2 * i + 1) (earlier.length + level.length - 1) =
        earlier.length + min (2 * i + 1) (level.length - 1) := by omega
    rw [hmin, getElem?_append_right (Nat.le_add_right _ _),
      getElem?_append_right (Nat.le_add_right _ _), Nat.add_sub_cancel_left,
      Nat.add_sub_cancel_left, ha, hb, ← Option.some.inj (hab.symm.trans hpar)]
    rfl
  simp only [pushLevel, if_neg hnot, hoffset, hparents]
  rfl

theorem foldlM_pushLevel (sha256 : Bytes → Hash) (fuel : ℕ) (earlier level : List Hash)
    (hfuel : level.length ≤ fuel) (htwo : 2 ≤ level.length) :
    ∃ nodes root, (levelSizes fuel level.length).foldlM (pushLevel sha256) (earlier ++ level) =
        .ok (nodes ++ [root]) ∧
      collapse (join sha256) (getProofSize level.length) level = [root] := by
  induction fuel generalizing earlier level with
  | zero => omega
  | succ fuel ih =>
    have hlen := length_pairUp (f := join sha256) level
    rw [levelSizes, foldlM_cons, pushLevel_append]
    rw [getProofSize_of_two_le htwo, collapse, ← hlen]
    split
    next hmore =>
      exact ih (earlier ++ level) (pairUp (join sha256) level) (by omega) (by omega)
    next hless =>
      have hone : (pairUp (join sha256) level).length = 1 := by omega
      obtain ⟨root, hroot⟩ := length_eq_one_iff.mp hone
      rw [hroot]
      exact ⟨earlier ++ level, root, rfl, rfl⟩

theorem mapM_id_ok {α ε : Type} (l : List α) : (l.map (Except.ok (ε := ε))).mapM id = .ok l := by
  induction l with
  | nil => rfl
  | cons a l ih =>
    rw [map_cons, mapM_cons, ih]
    rfl

theorem tryNewWithLen_root (sha256 : Bytes → Hash) (leaves : List Hash) (hpos : 1 ≤ leaves.length) :
    ∃ tree root, MerkleTree.tryNewWithLen sha256 (leaves.map .ok) leaves.length = .ok tree ∧
      tree.root = some root ∧
      collapse (join sha256) (getProofSize leaves.length) leaves = [root] := by
  simp only [MerkleTree.tryNewWithLen, mapM_id_ok]
  rcases hpos.eq_or_lt with heq | htwo
  · obtain ⟨root, rfl⟩ := length_eq_one_iff.mp heq.symm
    exact ⟨⟨[root]⟩, root, rfl, rfl, rfl⟩
  · obtain ⟨nodes, root, hrun, hroot⟩ :=
      foldlM_pushLevel sha256 leaves.length [] leaves le_rfl htwo
    rw [nil_append] at hrun
    refine ⟨⟨nodes ++ [root]⟩, root, ?_, by simp [MerkleTree.root], hroot⟩
    rw [if_pos htwo]
    exact congrArg (· >>= fun nodes => .ok (⟨nodes⟩ : MerkleTree)) hrun

/-! ## What a proof shows -/

def digest (sha256 : Bytes → Hash) (message : Bytes) : MerkleProofEntry :=
  hashAsMerkleProofEntry (sha256 message)

def nodeMessage (node other : MerkleProofEntry) : Bytes :=
  [merkleHashPrefixNode, node.bytes, other.bytes].flatten

theorem nodeMessage_inj {a b c d : MerkleProofEntry} (h : nodeMessage a b = nodeMessage c d) :
    a = c ∧ b = d := by
  simp only [nodeMessage, flatten_cons, flatten_nil, append_nil] at h
  have hrest := append_cancel_left h
  have hboth := append_inj hrest (a.length_eq.trans c.length_eq.symm)
  exact ⟨FixedBytes.ext hboth.1, FixedBytes.ext hboth.2⟩

@[simp] theorem length_nodeMessage (a b : MerkleProofEntry) : (nodeMessage a b).length = 66 := by
  simp [nodeMessage, a.length_eq, b.length_eq, merkleHashPrefixNode]

theorem digest_parent (index : ℕ) (node other : MerkleProofEntry) :
    hashAsMerkleProofEntry (if index % 2 = 0 then joinNodes sha256 node other
      else joinNodes sha256 other node) = digest sha256 (parent nodeMessage index node other) := by
  unfold parent
  split <;> rfl

theorem climb_of_getMerkleRoot {node root : Hash} {proof : List MerkleProofEntry}
    (h : getMerkleRoot sha256 index node proof = .ok root) :
    (climb (digest sha256) nodeMessage (index, hashAsMerkleProofEntry node) proof).2 =
      hashAsMerkleProofEntry root := by
  induction proof generalizing index node with
  | nil =>
    change (if index = 0 then Except.ok node else .error Error.invalidMerkleProof) = .ok root at h
    by_cases hzero : index = 0
    · rw [if_pos hzero] at h
      exact congrArg hashAsMerkleProofEntry (Except.ok.inj h)
    · rw [if_neg hzero] at h
      contradiction
  | cons other proof ih =>
    have hnext := ih h
    rw [digest_parent] at hnext
    exact hnext

theorem climb_of_verifyMerkleProof {node : MerkleProofEntry} {proof : Bytes} {root : Hash}
    (h : verifyMerkleProof sha256 node index proof root = .ok ()) :
    (climb (digest sha256) nodeMessage (index, node) (chunksExact proof)).2 =
      hashAsMerkleProofEntry root := by
  unfold verifyMerkleProof at h
  split at h
  · contradiction
  · split at h
    · contradiction
    next other rest hchunks =>
      obtain ⟨merkleRoot, hroot, hsame⟩ := DescendingPasses.bind_eq_ok_iff.mp h
      split at hsame
      next heq =>
        have hclimb := climb_of_getMerkleRoot hroot
        rw [digest_parent, heq] at hclimb
        rw [hchunks]
        exact hclimb
      next => contradiction

@[simp] theorem length_chunksExact (proof : Bytes) :
    (chunksExact proof).length = proof.length / sizeOfMerkleProofEntry := by
  simp [chunksExact]

theorem length_flatten_bytes :
    (entries.map FixedBytes.bytes).flatten.length = sizeOfMerkleProofEntry * entries.length := by
  induction entries with
  | nil => rfl
  | cons entry entries ih =>
    rw [map_cons, flatten_cons, length_append, ih, entry.length_eq, length_cons,
      sizeOfMerkleProofEntry]
    omega

theorem take_drop_flatten {entries : List MerkleProofEntry} {i : ℕ} {entry : MerkleProofEntry}
    (h : entries[i]? = some entry) :
    ((entries.map FixedBytes.bytes).flatten.drop (sizeOfMerkleProofEntry * i)).take
      sizeOfMerkleProofEntry = entry.bytes := by
  induction entries generalizing i with
  | nil => simp at h
  | cons first entries ih =>
    have hfirst : first.bytes.length = sizeOfMerkleProofEntry := first.length_eq
    rw [map_cons, flatten_cons]
    cases i with
    | zero =>
      rw [getElem?_cons_zero, Option.some.injEq] at h
      rw [mul_zero, drop_zero, ← hfirst, take_left, h]
    | succ i =>
      rw [getElem?_cons_succ] at h
      rw [mul_succ, add_comm, ← drop_drop, ← hfirst, drop_left, hfirst]
      exact ih h

theorem chunksExact_flatten : chunksExact (entries.map FixedBytes.bytes).flatten = entries := by
  have hlen : (chunksExact (entries.map FixedBytes.bytes).flatten).length = entries.length := by
    rw [length_chunksExact, length_flatten_bytes, sizeOfMerkleProofEntry]
    omega
  apply ext_getElem hlen
  intro i hi hi'
  apply FixedBytes.ext
  simp only [chunksExact, getElem_map, getElem_finRange]
  exact take_drop_flatten (getElem?_eq_getElem hi')

end Trees

end RakuraiValidator.ShredMerkle
