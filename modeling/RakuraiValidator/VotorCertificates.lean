import Mathlib.Data.PNat.Basic
import RakuraiValidator.Bitmaps
import RakuraiValidator.OrderedMap
import RakuraiValidator.VotorMessages

/-!
# Certificates and the accumulation of votes

A certificate is built from the votes of one kind, or of a primary and a fallback
kind, once their stake reaches the threshold.  `AggregateAccumulator` collects the
ranks, the stake and the aggregate signature of one vote.  Signatures are elements
of a commutative group; bytes which are no signature have no element.  The encoding
of bitmaps belongs to another crate and is a parameter.
-/

namespace RakuraiValidator.Votor

open Bitmap Finset

/-! ## Stakes and fractions -/

def u64Max : ℕ := 2 ^ 64 - 1

def saturatingAdd (a b : ℕ) : ℕ := min (a + b) u64Max

theorem saturatingAdd_eq {a b : ℕ} (h : a + b ≤ u64Max) : saturatingAdd a b = a + b :=
  min_eq_left h

/-- Numerator and denominator of 64 bits, so that the products of a comparison fit
into 128 bits. -/
structure Fraction where
  numerator : ℕ
  denominator : ℕ+
deriving DecidableEq

namespace Fraction

def fromPercentage (percentage : ℕ) : Fraction := ⟨percentage, 100⟩

/-- Fractions are compared by cross multiplication. -/
instance : LE Fraction :=
  ⟨fun x y => x.numerator * y.denominator ≤ y.numerator * x.denominator⟩

instance : LT Fraction :=
  ⟨fun x y => x.numerator * y.denominator < y.numerator * x.denominator⟩

instance (x y : Fraction) : Decidable (x ≤ y) := inferInstanceAs (Decidable (_ ≤ _))

instance (x y : Fraction) : Decidable (x < y) := inferInstanceAs (Decidable (_ < _))

theorem not_lt {x y : Fraction} : ¬ x < y ↔ y ≤ x := Nat.not_lt

theorem fromPercentage_le {percentage stake : ℕ} {total : ℕ+} :
    fromPercentage percentage ≤ ⟨stake, total⟩ ↔ percentage * total ≤ stake * 100 := Iff.rfl

end Fraction

/-! ## Certificates -/

inductive CertificateType
  | finalize (slot : ℕ)
  | finalizeFast (block : Block)
  | notarize (block : Block)
  | notarizeFallback (block : Block)
  | skip (slot : ℕ)
  | genesis (block : Block)
deriving DecidableEq

def genesisVoteThreshold : Fraction := .fromPercentage 82

namespace CertificateType

def slot : CertificateType → ℕ
  | .finalize slot => slot
  | .finalizeFast block => block.slot
  | .notarizeFallback block => block.slot
  | .notarize block => block.slot
  | .genesis block => block.slot
  | .skip slot => slot

def threshold : CertificateType → Fraction
  | .finalize _ => .fromPercentage 60
  | .skip _ => .fromPercentage 60
  | .notarize _ => .fromPercentage 60
  | .notarizeFallback _ => .fromPercentage 60
  | .finalizeFast _ => .fromPercentage 80
  | .genesis _ => genesisVoteThreshold

def toSourceVote : CertificateType → Vote
  | .notarize block => .notarize block
  | .finalizeFast block => .notarize block
  | .notarizeFallback block => .notarize block
  | .finalize slot => .finalize slot
  | .skip slot => .skip slot
  | .genesis block => .genesis block

def toSourceVotes : CertificateType → Option (Vote × Vote)
  | .notarizeFallback block => some (.notarize block, .notarizeFallback block)
  | .skip slot => some (.skip slot, .skipFallback slot)
  | _ => none

def sources (certType : CertificateType) : List Vote :=
  match certType.toSourceVotes with
  | some (primary, fallback) => [primary, fallback]
  | none => [certType.toSourceVote]

/-- The derived order: by the kind in the order of the declaration, then by the fields. -/
def key : CertificateType → ℕ ×ₗ ℕ ×ₗ ℕ
  | .finalize slot => toLex (0, toLex (slot, 0))
  | .finalizeFast block => toLex (1, toLex (block.slot, block.blockId))
  | .notarize block => toLex (2, toLex (block.slot, block.blockId))
  | .notarizeFallback block => toLex (3, toLex (block.slot, block.blockId))
  | .skip slot => toLex (4, toLex (slot, 0))
  | .genesis block => toLex (5, toLex (block.slot, block.blockId))

theorem key_injective : Function.Injective key := by
  intro type type' h
  rcases type with slot | ⟨slot, id⟩ | ⟨slot, id⟩ | ⟨slot, id⟩ | slot | ⟨slot, id⟩ <;>
    rcases type' with slot' | ⟨slot', id'⟩ | ⟨slot', id'⟩ | ⟨slot', id'⟩ | slot' | ⟨slot', id'⟩ <;>
    simp [key] at h ⊢ <;> exact h

instance : LinearOrder CertificateType := LinearOrder.lift' key key_injective

end CertificateType

structure Certificate (σ : Type) where
  certType : CertificateType
  signature : σ
  bitmap : List UInt8
deriving DecidableEq

/-! ## The signer store -/

inductive Decoded
  | base2 (ranks : List Bool)
  | base3 (ranks fallbackRanks : List Bool)
deriving DecidableEq

/-- The bitmap encodings of `solana_signer_store`, without a result on an error. -/
structure SignerStore where
  encodeBase2 : List Bool → Option (List UInt8)
  encodeBase3 : List Bool → List Bool → Option (List UInt8)
  decode : List UInt8 → ℕ → Option Decoded

/-- Bitmaps of at most a length have an encoding, and two bitmaps have one when no bit
is set in both. -/
structure SignerStore.Encodes (store : SignerStore) (maxValidators : ℕ) : Prop where
  base2 : ∀ ranks, ranks.length ≤ maxValidators → ∃ bitmap, store.encodeBase2 ranks = some bitmap
  base3 : ∀ ranks fallbackRanks, ranks.length = fallbackRanks.length →
    ranks.length ≤ maxValidators → Disjoint (support ranks) (support fallbackRanks) →
      ∃ bitmap, store.encodeBase3 ranks fallbackRanks = some bitmap

/-- Decoding gives back the bitmaps which were cut after their last set bit. -/
structure SignerStore.Inverse (store : SignerStore) (maxValidators : ℕ) : Prop where
  base2 : ∀ ranks bitmap, trimmedLength ranks = ranks.length → ranks.length ≤ maxValidators →
    store.encodeBase2 ranks = some bitmap → store.decode bitmap maxValidators = some (.base2 ranks)
  base3 : ∀ ranks fallbackRanks bitmap, ranks.length = fallbackRanks.length →
    max (trimmedLength ranks) (trimmedLength fallbackRanks) = ranks.length →
    ranks.length ≤ maxValidators → Disjoint (support ranks) (support fallbackRanks) →
    store.encodeBase3 ranks fallbackRanks = some bitmap →
      store.decode bitmap maxValidators = some (.base3 ranks fallbackRanks)

def SignerStore.bytewise : SignerStore where
  encodeBase2 ranks := some (2 :: ranks.map (fun bit => if bit then 1 else 0))
  encodeBase3 ranks fallbackRanks :=
    some (3 :: List.zipWith (fun bit fallbackBit =>
      if bit then 1 else if fallbackBit then 2 else 0) ranks fallbackRanks)
  decode bytes maxValidators :=
    if maxValidators < bytes.tail.length then none
    else if bytes.head? = some 2 then some (.base2 (bytes.tail.map (fun byte => byte = 1)))
    else if bytes.head? = some 3 then
      some (.base3 (bytes.tail.map (fun byte => byte = 1))
        (bytes.tail.map (fun byte => byte = 2)))
    else none

variable (maxValidators : ℕ)

theorem SignerStore.bytewise_encodes :
    SignerStore.bytewise.Encodes maxValidators where
  base2 _ _ := ⟨_, rfl⟩
  base3 _ _ _ _ _ := ⟨_, rfl⟩

theorem SignerStore.bytewise_inverse : SignerStore.bytewise.Inverse maxValidators where
  base2 ranks bitmap _ hlen henc := by
    simp only [bytewise, Option.some.injEq] at henc
    subst henc
    have hback : ranks.map ((fun byte : UInt8 => decide (byte = 1)) ∘
        fun bit : Bool => if bit then (1 : UInt8) else 0) = ranks := by
      apply List.map_id''
      intro bit
      cases bit <;> rfl
    simp [bytewise, not_lt.mpr hlen, hback]
  base3 ranks fallbackRanks bitmap hsame _ hlen hdisj henc := by
    simp only [bytewise, Option.some.injEq] at henc
    subst henc
    have hranks : (List.zipWith (fun bit fallbackBit : Bool =>
        if bit then (1 : UInt8) else if fallbackBit then 2 else 0) ranks fallbackRanks).map
          (fun byte => decide (byte = 1)) = ranks := by
      apply List.ext_getElem
      · simp [hsame]
      · intro i hi hi'
        simp only [List.getElem_map, List.getElem_zipWith]
        cases ranks[i] <;> cases fallbackRanks[i] <;> rfl
    have hfall : (List.zipWith (fun bit fallbackBit : Bool =>
        if bit then (1 : UInt8) else if fallbackBit then 2 else 0) ranks fallbackRanks).map
          (fun byte => decide (byte = 2)) = fallbackRanks := by
      apply List.ext_getElem
      · simp [hsame]
      · intro i hi hi'
        have hboth : ¬ (ranks[i] = true ∧ fallbackRanks[i] = true) := by
          intro hset
          apply Finset.disjoint_left.mp hdisj (mem_support.mpr (_ : isSet ranks i = true))
          · simpa [isSet, hi'] using hset.2
          · simpa [isSet, hsame, hi'] using hset.1
        simp only [List.getElem_map, List.getElem_zipWith]
        cases hbit : ranks[i] <;> cases hfallBit : fallbackRanks[i] <;> simp_all
    simp [bytewise, hsame ▸ hlen, hranks, hfall, hsame]

/-! ## Accumulators -/

inductive AggregateAccumulatorError
  | signatureAggregationFailed
  | encodingFailed
  | duplicate
  /-- A panic of the source. -/
  | rankOutOfRange
deriving DecidableEq

/-- A batch of identical votes whose signatures were verified. -/
structure VoteAggregate (σ : Type) where
  vote : Vote
  signature : Option σ
  stake : ℕ
  ranks : List Bool

structure SignedVoteMessage (σ : Type) extends VoteMessage where
  signature : Option σ

inductive PoolVote (σ : Type)
  | own (message : SignedVoteMessage σ)
  | external (aggregate : VoteAggregate σ)

namespace PoolVote

variable {σ : Type}

def vote : PoolVote σ → Vote
  | .own message => message.vote
  | .external aggregate => aggregate.vote

def isExternal : PoolVote σ → Bool
  | .own _ => false
  | .external _ => true

def stake : PoolVote σ → ℕ
  | .own message => message.stake
  | .external aggregate => aggregate.stake

def signature : PoolVote σ → Option σ
  | .own message => message.signature
  | .external aggregate => aggregate.signature

def voters : PoolVote σ → Finset ℕ
  | .own message => {message.rank}
  | .external aggregate => support aggregate.ranks

def votersOf (messages : List (PoolVote σ)) : Finset ℕ :=
  messages.foldr (fun message ranks => message.voters ∪ ranks) ∅

theorem mem_votersOf {messages : List (PoolVote σ)} {rank : ℕ} :
    rank ∈ votersOf messages ↔ ∃ message ∈ messages, rank ∈ message.voters := by
  induction messages with
  | nil => simp [votersOf]
  | cons message messages ih =>
    rw [votersOf, List.foldr_cons, ← votersOf, mem_union, ih]
    simp

end PoolVote

structure AggregateAccumulator (σ : Type) where
  ranks : List Bool
  signature : σ
  stake : ℕ
deriving DecidableEq

namespace AggregateAccumulator

variable {σ : Type} [AddCommGroup σ]

def new (maxValidators : ℕ) : AggregateAccumulator σ where
  ranks := List.replicate maxValidators false
  signature := 0
  stake := 0

variable (acc : AggregateAccumulator σ)

def addAggregate (aggregate : VoteAggregate σ) :
    Except AggregateAccumulatorError (AggregateAccumulator σ) :=
  match aggregate.signature with
  | none => .error .signatureAggregationFailed
  | some signature =>
    .ok { ranks := union acc.ranks aggregate.ranks
          signature := acc.signature + signature
          stake := saturatingAdd acc.stake aggregate.stake }

def addOwnVoteMessage (message : SignedVoteMessage σ) :
    Except AggregateAccumulatorError (AggregateAccumulator σ) :=
  match message.signature with
  | none => .error .signatureAggregationFailed
  | some signature =>
    if acc.ranks.length ≤ message.rank then .error .rankOutOfRange
    else if isSet acc.ranks message.rank then .error .duplicate
    else
      .ok { ranks := acc.ranks.set message.rank true
            signature := acc.signature + signature
            stake := saturatingAdd acc.stake message.stake }

def addPoolVote :
    PoolVote σ → Except AggregateAccumulatorError (AggregateAccumulator σ)
  | .own message => acc.addOwnVoteMessage message
  | .external aggregate => acc.addAggregate aggregate

/-- An accumulator after a vote, which is the same one after an error. -/
def step (message : PoolVote σ) : AggregateAccumulator σ :=
  match acc.addPoolVote message with
  | .ok acc' => acc'
  | .error _ => acc

def addPoolVotes (messages : List (PoolVote σ)) :
    AggregateAccumulator σ :=
  messages.foldl step acc

variable (store : SignerStore)

def tryBuildBase2Cert (acc : AggregateAccumulator σ) (certType : CertificateType)
    (totalStake : ℕ+) : Except AggregateAccumulatorError (Option (Certificate σ)) :=
  if (⟨acc.stake, totalStake⟩ : Fraction) < certType.threshold then .ok none
  else
    match store.encodeBase2 (resize acc.ranks (trimmedLength acc.ranks)) with
    | none => .error .encodingFailed
    | some bitmap => .ok (some ⟨certType, acc.signature, bitmap⟩)

variable [DecidableEq σ]

def isIdentity (acc : AggregateAccumulator σ) : Bool := acc.signature = 0

/-- The bitmaps of both partitions in one length, and their signature. -/
def partitions (primary : Option (AggregateAccumulator σ)) (fallback : AggregateAccumulator σ) :
    List Bool × List Bool × σ :=
  match primary with
  | none =>
    let fallbackLength := trimmedLength fallback.ranks
    (List.replicate fallbackLength false, resize fallback.ranks fallbackLength,
      fallback.signature)
  | some primary =>
    let newLength := max (trimmedLength primary.ranks) (trimmedLength fallback.ranks)
    (resize primary.ranks newLength, resize fallback.ranks newLength,
      primary.signature + fallback.signature)

def tryBuildBase3Cert (certType : CertificateType) (totalStake : ℕ+)
    (primary : Option (AggregateAccumulator σ)) (fallback : AggregateAccumulator σ) :
    Except AggregateAccumulatorError (Option (Certificate σ)) :=
  let primary := primary.filter (fun acc => !acc.isIdentity)
  if fallback.isIdentity then
    match primary with
    | some primary => primary.tryBuildBase2Cert store certType totalStake
    | none => .ok none
  else if (⟨saturatingAdd fallback.stake ((primary.map stake).getD 0), totalStake⟩ : Fraction) <
      certType.threshold then
    .ok none
  else
    let (primaryRanks, fallbackRanks, signature) := partitions primary fallback
    match store.encodeBase3 primaryRanks fallbackRanks with
    | none => .error .encodingFailed
    | some bitmap => .ok (some ⟨certType, signature, bitmap⟩)

end AggregateAccumulator

/-! ## When a certificate is built -/

section Building

variable {σ : Type} {store : SignerStore} {certType : CertificateType} {totalStake : ℕ+}
  {maxValidators : ℕ}

inductive Builds (certType : CertificateType) (totalStake : ℕ+) (stake : ℕ) :
    Except AggregateAccumulatorError (Option (Certificate σ)) → Prop where
  | none : ¬ certType.threshold ≤ ⟨stake, totalStake⟩ → Builds certType totalStake stake (.ok none)
  | some (cert : Certificate σ) : cert.certType = certType →
      certType.threshold ≤ ⟨stake, totalStake⟩ →
      Builds certType totalStake stake (.ok (some cert))

theorem CertificateType.threshold_pos (certType : CertificateType) :
    ¬ certType.threshold ≤ ⟨0, totalStake⟩ := by
  have hpos := totalStake.pos
  cases certType <;>
    simp only [threshold, genesisVoteThreshold, Fraction.fromPercentage_le] <;> omega

theorem CertificateType.threshold_le_full (certType : CertificateType) :
    certType.threshold ≤ ⟨totalStake, totalStake⟩ := by
  cases certType <;>
    simp only [threshold, genesisVoteThreshold, Fraction.fromPercentage_le] <;> omega

theorem CertificateType.threshold_le_of_le {stake stake' : ℕ} (hle : stake ≤ stake')
    (h : certType.threshold ≤ ⟨stake, totalStake⟩) :
    certType.threshold ≤ ⟨stake', totalStake⟩ :=
  Nat.le_trans h (Nat.mul_le_mul_right _ hle)

theorem threshold_le_min (htot : totalStake ≤ u64Max) {stake : ℕ} :
    certType.threshold ≤ ⟨min stake u64Max, totalStake⟩ ↔
      certType.threshold ≤ ⟨stake, totalStake⟩ := by
  constructor
  · exact CertificateType.threshold_le_of_le (min_le_left _ _)
  · intro h
    rcases le_total stake u64Max with hle | hle
    · rwa [min_eq_left hle]
    · rw [min_eq_right hle]
      exact CertificateType.threshold_le_of_le htot certType.threshold_le_full

namespace AggregateAccumulator

variable {acc fallback : AggregateAccumulator σ}
  {primary : Option (AggregateAccumulator σ)}

theorem tryBuildBase2Cert_builds (henc : store.Encodes maxValidators)
    (hlen : acc.ranks.length ≤ maxValidators) :
    Builds certType totalStake acc.stake (acc.tryBuildBase2Cert store certType totalStake) := by
  unfold tryBuildBase2Cert
  by_cases hlt : (⟨acc.stake, totalStake⟩ : Fraction) < certType.threshold
  · rw [if_pos hlt]
    exact .none (fun hle => Fraction.not_lt.mpr hle hlt)
  · rw [if_neg hlt]
    have htrimmed : (resize acc.ranks (trimmedLength acc.ranks)).length ≤ maxValidators := by
      rw [length_resize]
      exact (trimmedLength_le _).trans hlen
    rcases henc.base2 _ htrimmed with ⟨bitmap, hbitmap⟩
    rw [hbitmap]
    exact .some _ rfl (Fraction.not_lt.mp hlt)

variable [AddCommGroup σ]

theorem encodes_partitions (henc : store.Encodes maxValidators)
    (hprimary : ∀ acc ∈ primary, acc.ranks.length ≤ maxValidators ∧
      Disjoint (support acc.ranks) (support fallback.ranks))
    (hfall : fallback.ranks.length ≤ maxValidators) :
    ∃ bitmap, store.encodeBase3 (partitions primary fallback).1
      (partitions primary fallback).2.1 = some bitmap := by
  have hfall' := (trimmedLength_le fallback.ranks).trans hfall
  cases primary with
  | none =>
    apply henc.base3
    · simp [partitions]
    · simpa [partitions] using hfall'
    · simp [partitions]
  | some acc =>
    rcases hprimary acc rfl with ⟨hlen, hdisj⟩
    have hlen' := (trimmedLength_le acc.ranks).trans hlen
    apply henc.base3
    · simp [partitions]
    · simpa [partitions] using And.intro hlen' hfall'
    · simp only [partitions]
      rw [support_resize (le_max_left _ _), support_resize (le_max_right _ _)]
      exact hdisj

variable [DecidableEq σ]

theorem tryBuildBase3Cert_builds (henc : store.Encodes maxValidators)
    (htot : totalStake ≤ u64Max) (hprimary : ∀ acc ∈ primary, acc.ranks.length ≤ maxValidators ∧
      Disjoint (support acc.ranks) (support fallback.ranks) ∧
      (acc.signature = 0 → acc.stake = 0))
    (hfall : fallback.ranks.length ≤ maxValidators)
    (hsig : fallback.signature = 0 → fallback.stake = 0) :
    Builds certType totalStake ((primary.map stake).getD 0 + fallback.stake)
      (tryBuildBase3Cert store certType totalStake primary fallback) := by
  have hkept : ((primary.filter (fun acc => !acc.isIdentity)).map stake).getD 0 =
      (primary.map stake).getD 0 := by
    cases primary with
    | none => rfl
    | some acc =>
      by_cases hzero : acc.signature = 0
      · simp [Option.filter, isIdentity, hzero, (hprimary acc rfl).2.2 hzero]
      · simp [Option.filter, isIdentity, hzero]
  have hmem : ∀ acc ∈ primary.filter (fun acc => !acc.isIdentity), acc ∈ primary := by
    intro acc hacc
    exact (Option.mem_filter_iff.mp hacc).1
  unfold tryBuildBase3Cert
  rw [← hkept]
  generalize primary.filter (fun acc => !acc.isIdentity) = kept at hmem ⊢
  by_cases hident : fallback.isIdentity = true
  · have hzero : fallback.stake = 0 := hsig (by simpa [isIdentity] using hident)
    rw [if_pos hident, hzero, add_zero]
    cases kept with
    | none => exact .none certType.threshold_pos
    | some acc => exact tryBuildBase2Cert_builds henc (hprimary acc (hmem acc rfl)).1
  · simp only [if_neg hident]
    by_cases hlt : (⟨saturatingAdd fallback.stake ((kept.map stake).getD 0), totalStake⟩ :
        Fraction) < certType.threshold
    · rw [if_pos hlt]
      apply Builds.none
      rw [add_comm, ← threshold_le_min htot]
      exact fun hle => Fraction.not_lt.mpr hle hlt
    · rw [if_neg hlt]
      have hkeptDisj : ∀ acc ∈ kept, acc.ranks.length ≤ maxValidators ∧
          Disjoint (support acc.ranks) (support fallback.ranks) := by
        intro acc hacc
        have h := hprimary acc (hmem acc hacc)
        exact ⟨h.1, h.2.1⟩
      rcases encodes_partitions henc hkeptDisj hfall with ⟨bitmap, hbitmap⟩
      simp only [hbitmap]
      apply Builds.some
      · rfl
      · rw [add_comm, ← threshold_le_min htot]
        exact Fraction.not_lt.mp hlt

end AggregateAccumulator

end Building

/-! ## The ranks of an accumulator -/

section Ranks

variable {σ : Type} [AddCommGroup σ] {acc : AggregateAccumulator σ} {message : PoolVote σ}

theorem AggregateAccumulator.length_step : (acc.step message).ranks.length = acc.ranks.length := by
  unfold step
  cases message with
  | own message =>
    simp only [addPoolVote, addOwnVoteMessage]
    cases message.signature with
    | none => rfl
    | some signature =>
      by_cases hrank : acc.ranks.length ≤ message.rank
      · simp [hrank]
      · by_cases hset : isSet acc.ranks message.rank = true <;> simp [hrank, hset]
  | external aggregate =>
    simp only [addPoolVote, addAggregate]
    cases aggregate.signature <;> simp

theorem AggregateAccumulator.support_step_subset :
    support (acc.step message).ranks ⊆ support acc.ranks ∪ message.voters := by
  unfold step
  cases message with
  | own message =>
    simp only [addPoolVote, addOwnVoteMessage, PoolVote.voters]
    cases message.signature with
    | none => exact subset_union_left
    | some signature =>
      by_cases hrank : acc.ranks.length ≤ message.rank
      · simp only [hrank, if_true]
        exact subset_union_left
      by_cases hset : isSet acc.ranks message.rank = true
      · simp only [hrank, hset, if_true, if_false]
        exact subset_union_left
      · simp only [hrank, hset, if_false, Bool.false_eq_true]
        exact support_set_subset
  | external aggregate =>
    simp only [addPoolVote, addAggregate, PoolVote.voters]
    cases aggregate.signature with
    | none => exact subset_union_left
    | some signature => exact support_union_subset

variable (messages : List (PoolVote σ))

theorem AggregateAccumulator.length_addPoolVotes :
    (acc.addPoolVotes messages).ranks.length = acc.ranks.length := by
  induction messages generalizing acc with
  | nil => rfl
  | cons message messages ih =>
    rw [addPoolVotes, List.foldl_cons, ← addPoolVotes, ih, length_step]

theorem AggregateAccumulator.support_addPoolVotes_subset :
    support (acc.addPoolVotes messages).ranks ⊆ support acc.ranks ∪ PoolVote.votersOf messages := by
  induction messages generalizing acc with
  | nil => exact subset_union_left
  | cons message messages ih =>
    calc support (acc.addPoolVotes (message :: messages)).ranks
        ⊆ support (acc.step message).ranks ∪ PoolVote.votersOf messages := ih
      _ ⊆ support acc.ranks ∪ message.voters ∪ PoolVote.votersOf messages :=
          union_subset_union_left support_step_subset
      _ = support acc.ranks ∪ PoolVote.votersOf (message :: messages) :=
          union_assoc _ _ _

end Ranks

/-! ## Stakes are counted once -/

section Counting

variable {σ : Type} [AddCommGroup σ] {stakeOf : ℕ → ℕ} {signatureOf : ℕ → σ}
  {maxValidators : ℕ}

def PoolVote.Genuine (stakeOf : ℕ → ℕ) (signatureOf : ℕ → σ) (maxValidators : ℕ) : PoolVote σ → Prop
  | .own message => message.rank < maxValidators ∧ message.stake = stakeOf message.rank ∧
      message.signature = some (signatureOf message.rank)
  | .external aggregate => aggregate.ranks.length = maxValidators ∧
      aggregate.stake = ∑ rank ∈ support aggregate.ranks, stakeOf rank ∧
      aggregate.signature = some (∑ rank ∈ support aggregate.ranks, signatureOf rank)

namespace AggregateAccumulator

/-- The stake and the signature of an accumulator are those of its ranks. -/
structure Counted (stakeOf : ℕ → ℕ) (signatureOf : ℕ → σ) (maxValidators : ℕ)
    (acc : AggregateAccumulator σ) : Prop where
  length : acc.ranks.length = maxValidators
  stake : acc.stake = ∑ rank ∈ support acc.ranks, stakeOf rank
  signature : acc.signature = ∑ rank ∈ support acc.ranks, signatureOf rank

theorem counted_new : Counted stakeOf signatureOf maxValidators (new maxValidators) := by
  constructor <;> simp [new]

variable {acc : AggregateAccumulator σ} {message : PoolVote σ}

variable (hstake : ∑ rank ∈ range maxValidators, stakeOf rank ≤ u64Max)

include hstake

theorem sum_le_u64Max {bits : List Bool} (hlen : bits.length = maxValidators) :
    ∑ rank ∈ support bits, stakeOf rank ≤ u64Max := by
  apply le_trans _ hstake
  apply sum_le_sum_of_subset
  intro rank hrank
  rw [mem_range, ← hlen]
  exact lt_length_of_isSet (mem_support.mp hrank)

variable (h : Counted stakeOf signatureOf maxValidators acc)

include h

theorem Counted.step (hmsg : message.Genuine stakeOf signatureOf maxValidators)
    (hnew : message.isExternal = true → Disjoint (support acc.ranks) message.voters) :
    Counted stakeOf signatureOf maxValidators (acc.step message) ∧
      support (acc.step message).ranks = support acc.ranks ∪ message.voters := by
  cases message with
  | own message =>
    rcases hmsg with ⟨hrank, hstakeOf, hsig⟩
    have hrank' : message.rank < acc.ranks.length := h.length.symm ▸ hrank
    simp only [AggregateAccumulator.step, addPoolVote, addOwnVoteMessage, hsig, PoolVote.voters,
      not_le.mpr hrank', if_false]
    by_cases hset : isSet acc.ranks message.rank = true
    · rw [if_pos hset]
      refine ⟨h, ?_⟩
      rw [union_comm, ← insert_eq, Finset.insert_eq_self.mpr]
      exact mem_support.mpr hset
    · rw [if_neg hset]
      have hfresh : message.rank ∉ support acc.ranks := by simpa using hset
      have hsupp := support_set hrank'
      have hlen : (acc.ranks.set message.rank true).length = maxValidators := by
        rw [List.length_set, h.length]
      have hsum : ∑ rank ∈ support (acc.ranks.set message.rank true), stakeOf rank =
          acc.stake + message.stake := by
        rw [hsupp, sum_insert hfresh, hstakeOf, h.stake, add_comm]
      constructor
      · constructor
        · exact hlen
        · rw [hsum]
          apply saturatingAdd_eq
          rw [← hsum]
          exact sum_le_u64Max hstake hlen
        · rw [hsupp, sum_insert hfresh, h.signature, add_comm]
      · rw [hsupp, insert_eq, union_comm]
  | external aggregate =>
    rcases hmsg with ⟨hlen, hstakeOf, hsig⟩
    simp only [AggregateAccumulator.step, addPoolVote, addAggregate, hsig, PoolVote.voters]
    have hsupp : support (union acc.ranks aggregate.ranks) =
        support acc.ranks ∪ support aggregate.ranks :=
      support_union (by rw [hlen, h.length])
    have hdisj : Disjoint (support acc.ranks) (support aggregate.ranks) := hnew rfl
    have hlen' : (union acc.ranks aggregate.ranks).length = maxValidators := by
      rw [length_union, h.length]
    have hsum : ∑ rank ∈ support (union acc.ranks aggregate.ranks), stakeOf rank =
        acc.stake + aggregate.stake := by
      rw [hsupp, sum_union hdisj, hstakeOf, h.stake]
    constructor
    · constructor
      · exact hlen'
      · rw [hsum]
        apply saturatingAdd_eq
        rw [← hsum]
        exact sum_le_u64Max hstake hlen'
      · rw [hsupp, sum_union hdisj, h.signature]
    · exact hsupp

theorem Counted.addPoolVotes {messages : List (PoolVote σ)}
    (hmsgs : ∀ message ∈ messages, message.Genuine stakeOf signatureOf maxValidators)
    (hnew : ∀ message ∈ messages, message.isExternal = true →
      Disjoint (support acc.ranks) message.voters)
    (hpairwise : messages.Pairwise (fun earlier later => later.isExternal = true →
      Disjoint earlier.voters later.voters)) :
    Counted stakeOf signatureOf maxValidators (acc.addPoolVotes messages) ∧
      support (acc.addPoolVotes messages).ranks =
        support acc.ranks ∪ PoolVote.votersOf messages := by
  induction messages generalizing acc with
  | nil => exact ⟨h, (union_empty _).symm⟩
  | cons message messages ih =>
    rw [List.pairwise_cons] at hpairwise
    rcases h.step hstake (hmsgs message List.mem_cons_self)
      (hnew message List.mem_cons_self) with ⟨hcount, hsupp⟩
    have hall : support acc.ranks ∪ PoolVote.votersOf (message :: messages) =
        support (acc.step message).ranks ∪ PoolVote.votersOf messages := by
      rw [hsupp, union_assoc]
      rfl
    rw [hall]
    apply ih hcount
    · exact fun later hlater => hmsgs later (List.mem_cons_of_mem _ hlater)
    · intro later hlater hext
      rw [hsupp, disjoint_union_left]
      exact ⟨hnew later (List.mem_cons_of_mem _ hlater) hext, hpairwise.1 later hlater hext⟩
    · exact hpairwise.2

end AggregateAccumulator

end Counting

end RakuraiValidator.Votor
