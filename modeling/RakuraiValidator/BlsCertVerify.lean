import RakuraiValidator.VotorCertificates

/-!
# Verification of certificates

The verifier decodes the bitmap of a certificate, collects the public keys and the
stakes of its ranks and checks the aggregate signature.  Aggregate verification is
the bilinear check of a pairing, which refuses the identity as a key or, for one
payload, as a signature.
-/

namespace RakuraiValidator.Votor

open Bitmap AggregateAccumulator List

/-! ## The signature scheme -/

structure VotePayload where
  vote : Vote
  shredVersion : ℕ
deriving DecidableEq

structure BlsScheme (π σ τ : Type) [AddCommGroup π] [AddCommGroup σ] [AddCommGroup τ] where
  pairing : π →+ σ →+ τ
  generator : π
  hash : VotePayload → σ

variable {payload : VotePayload} {aggregateStake stake : ℕ} {primaryVote : Vote}

namespace BlsScheme

variable {π σ τ : Type} [AddCommGroup π] [AddCommGroup σ] [AddCommGroup τ]

def Signs (scheme : BlsScheme π σ τ) (pubkey : π) (signature : σ) (payload : VotePayload) : Prop :=
  scheme.pairing pubkey (scheme.hash payload) = scheme.pairing scheme.generator signature

instance [DecidableEq τ] (scheme : BlsScheme π σ τ) (pubkey : π) (signature : σ)
    (payload : VotePayload) : Decidable (scheme.Signs pubkey signature payload) :=
  inferInstanceAs (Decidable (_ = _))

theorem Signs.sum {scheme : BlsScheme π σ τ} {ranks : Finset ℕ} {pubkeyOf : ℕ → π}
    {signatureOf : ℕ → σ}
    (h : ∀ rank ∈ ranks, scheme.Signs (pubkeyOf rank) (signatureOf rank) payload) :
    scheme.Signs (∑ rank ∈ ranks, pubkeyOf rank) (∑ rank ∈ ranks, signatureOf rank) payload := by
  unfold Signs
  rw [map_sum, map_sum, AddMonoidHom.finsetSum_apply]
  exact Finset.sum_congr rfl h

end BlsScheme

/-! ## The verifier -/

inductive BlsError
  | emptyAggregation
  | verificationFailed
deriving DecidableEq

inductive CertVerifyError
  | missingRank
  | verifySig (error : BlsError)
  | decode
  | wrongEncoding
  | bitmapOverlap
  | notEnoughStake (aggregateStake : ℕ) (certFraction requiredFraction : Fraction)
deriving DecidableEq

structure UnverifiedCertificate (σ : Type) extends Certificate σ where
  shredVersion : ℕ

def UnverifiedCertificate.getVotePayload {σ : Type} (cert : UnverifiedCertificate σ) :
    VotePayload × Option VotePayload :=
  match cert.certType with
  | .notarize block => (⟨.notarize block, cert.shredVersion⟩, none)
  | .finalizeFast block => (⟨.notarize block, cert.shredVersion⟩, none)
  | .genesis block => (⟨.genesis block, cert.shredVersion⟩, none)
  | .finalize slot => (⟨.finalize slot, cert.shredVersion⟩, none)
  | .skip slot =>
    (⟨.skip slot, cert.shredVersion⟩, some ⟨.skipFallback slot, cert.shredVersion⟩)
  | .notarizeFallback block =>
    (⟨.notarize block, cert.shredVersion⟩, some ⟨.notarizeFallback block, cert.shredVersion⟩)

namespace CertVerify

variable {π σ τ : Type} [AddCommGroup π] [AddCommGroup σ] [AddCommGroup τ]

abbrev RankMap (π : Type) := ℕ → Option (ℕ+ × π)

/-- Collects the keys of the ranks and adds their stakes to the aggregate stake. -/
def collectPubkeys (rankMap : RankMap π) : List ℕ → ℕ → Except CertVerifyError (List π × ℕ)
  | [], aggregateStake => .ok ([], aggregateStake)
  | rank :: ranks, aggregateStake =>
    match rankMap rank with
    | none => .error .missingRank
    | some (stake, pubkey) => do
      let (pubkeys, aggregateStake) ←
        collectPubkeys rankMap ranks (saturatingAdd aggregateStake stake)
      .ok (pubkey :: pubkeys, aggregateStake)

def aggregatePubkeys (pubkeys : List π) : Except CertVerifyError π :=
  if pubkeys.isEmpty then .error (.verifySig .emptyAggregation) else .ok pubkeys.sum

/-- Ensures that no validator appears in both the primary and fallback bitmaps. -/
def checkDisjoint (ranks fallbackRanks : List Bool) : Except CertVerifyError Unit :=
  if ranks.length ≠ fallbackRanks.length then .error .wrongEncoding
  else if (ones ranks).any (isSet fallbackRanks) then .error .bitmapOverlap
  else .ok ()

def verifyStake (certType : CertificateType) (aggregateStake : ℕ) (totalStake : ℕ+) :
    Except CertVerifyError Unit :=
  if certType.threshold ≤ ⟨aggregateStake, totalStake⟩ then .ok ()
  else .error (.notEnoughStake aggregateStake ⟨aggregateStake, totalStake⟩ certType.threshold)

section Verifier

variable [DecidableEq π] [DecidableEq σ] [DecidableEq τ] (scheme : BlsScheme π σ τ)
  (store : SignerStore)

def verifySignature (pubkey : π) (signature : σ) (payload : VotePayload) :
    Except CertVerifyError Unit :=
  if pubkey ≠ 0 ∧ signature ≠ 0 ∧ scheme.Signs pubkey signature payload then .ok ()
  else .error (.verifySig .verificationFailed)

/-- The check of one signature against two keys with a payload each. -/
def verifyDistinctAggregated (pubkey fallbackPubkey : π) (signature : σ)
    (payload fallbackPayload : VotePayload) : Except CertVerifyError Unit :=
  if pubkey ≠ 0 ∧ fallbackPubkey ≠ 0 ∧
      scheme.pairing pubkey (scheme.hash payload) +
          scheme.pairing fallbackPubkey (scheme.hash fallbackPayload) =
        scheme.pairing scheme.generator signature then .ok ()
  else .error (.verifySig .verificationFailed)

def verifySingleVoteSignature (payload : VotePayload) (signature : σ) (ranks : List Bool)
    (rankMap : RankMap π) : Except CertVerifyError ℕ := do
  let (pubkeys, aggregateStake) ← collectPubkeys rankMap (ones ranks) 0
  let pubkey ← aggregatePubkeys pubkeys
  verifySignature scheme pubkey signature payload
  .ok aggregateStake

def verifyBase2 (payload : VotePayload) (signature : σ) (bitmap : List UInt8)
    (maxValidators : ℕ) (rankMap : RankMap π) : Except CertVerifyError ℕ :=
  match store.decode bitmap maxValidators with
  | none => .error .decode
  | some (.base3 _ _) => .error .wrongEncoding
  | some (.base2 ranks) => verifySingleVoteSignature scheme payload signature ranks rankMap

def verifyPartitions (payload fallbackPayload : VotePayload) (signature : σ)
    (ranks fallbackRanks : List Bool) (rankMap : RankMap π) : Except CertVerifyError ℕ := do
  checkDisjoint ranks fallbackRanks
  let (pubkeys, aggregateStake) ← collectPubkeys rankMap (ones ranks) 0
  let (fallbackPubkeys, aggregateStake) ←
    collectPubkeys rankMap (ones fallbackRanks) aggregateStake
  if pubkeys.isEmpty then
    let pubkey ← aggregatePubkeys fallbackPubkeys
    verifySignature scheme pubkey signature fallbackPayload
  else if fallbackPubkeys.isEmpty then
    let pubkey ← aggregatePubkeys pubkeys
    verifySignature scheme pubkey signature payload
  else
    let pubkey ← aggregatePubkeys pubkeys
    let fallbackPubkey ← aggregatePubkeys fallbackPubkeys
    verifyDistinctAggregated scheme pubkey fallbackPubkey signature payload fallbackPayload
  .ok aggregateStake

def verifyBase3 (payload fallbackPayload : VotePayload) (signature : σ) (bitmap : List UInt8)
    (maxValidators : ℕ) (rankMap : RankMap π) : Except CertVerifyError ℕ :=
  match store.decode bitmap maxValidators with
  | none => .error .decode
  | some (.base2 ranks) => verifySingleVoteSignature scheme payload signature ranks rankMap
  | some (.base3 ranks fallbackRanks) =>
    verifyPartitions scheme payload fallbackPayload signature ranks fallbackRanks rankMap

def verifyCertificate (cert : UnverifiedCertificate σ) (maxValidators : ℕ) (totalStake : ℕ+)
    (rankMap : RankMap π) : Except CertVerifyError (Certificate σ) := do
  let aggregateStake ←
    match cert.getVotePayload with
    | (payload, some fallbackPayload) =>
      verifyBase3 scheme store payload fallbackPayload cert.signature cert.bitmap
        maxValidators rankMap
    | (payload, none) =>
      verifyBase2 scheme store payload cert.signature cert.bitmap maxValidators rankMap
  verifyStake cert.certType aggregateStake totalStake
  .ok cert.toCertificate

end Verifier

/-! ## Collecting keys -/

variable {rankMap : RankMap π} {bits : List Bool}

section Collecting

def stakeOf (rankMap : RankMap π) (rank : ℕ) : ℕ :=
  (rankMap rank).elim 0 (fun entry => entry.1)

def pubkeyOf (rankMap : RankMap π) (rank : ℕ) : π :=
  (rankMap rank).elim 0 Prod.snd

def stakeSum (rankMap : RankMap π) (ranks : Finset ℕ) : ℕ :=
  ∑ rank ∈ ranks, stakeOf rankMap rank

def pubkeySum (rankMap : RankMap π) (ranks : Finset ℕ) : π :=
  ∑ rank ∈ ranks, pubkeyOf rankMap rank

theorem collectPubkeys_eq {ranks : List ℕ} (hknown : ∀ rank ∈ ranks, (rankMap rank).isSome = true)
    (hle : aggregateStake ≤ u64Max) :
    collectPubkeys rankMap ranks aggregateStake =
      .ok (ranks.map (pubkeyOf rankMap),
        min (aggregateStake + (ranks.map (stakeOf rankMap)).sum) u64Max) := by
  induction ranks generalizing aggregateStake with
  | nil => simp [collectPubkeys, hle]
  | cons rank ranks ih =>
    have hrank := hknown rank mem_cons_self
    rcases Option.isSome_iff_exists.mp hrank with ⟨⟨stake, pubkey⟩, hentry⟩
    have hrest : ∀ rank ∈ ranks, (rankMap rank).isSome = true :=
      fun rank hmem => hknown rank (mem_cons_of_mem _ hmem)
    have hstake : stakeOf rankMap rank = stake := by simp [stakeOf, hentry]
    have hkey : pubkeyOf rankMap rank = pubkey := by simp [pubkeyOf, hentry]
    have hsat : saturatingAdd aggregateStake stake ≤ u64Max := min_le_right _ _
    have hsum : min (saturatingAdd aggregateStake stake + (ranks.map (stakeOf rankMap)).sum)
        u64Max = min (aggregateStake + ((rank :: ranks).map (stakeOf rankMap)).sum) u64Max := by
      rw [map_cons, sum_cons, hstake, saturatingAdd]
      omega
    rw [collectPubkeys, hentry]
    simp only [ih hrest hsat, hsum, bind, Except.bind, map_cons, hkey]

theorem collectPubkeys_ones (hknown : ∀ rank ∈ support bits, (rankMap rank).isSome = true)
    (hle : aggregateStake ≤ u64Max) :
    collectPubkeys rankMap (ones bits) aggregateStake =
      .ok ((ones bits).map (pubkeyOf rankMap),
        min (aggregateStake + stakeSum rankMap (support bits)) u64Max) := by
  rw [stakeSum, ← sum_ones]
  apply collectPubkeys_eq _ hle
  intro rank hrank
  exact hknown rank (mem_support.mpr (mem_ones.mp hrank))

theorem ones_eq_nil_iff : ones bits = [] ↔ support bits = ∅ := by
  rw [support, toFinset_eq_empty_iff]

theorem aggregatePubkeys_ones (hne : support bits ≠ ∅) :
    aggregatePubkeys ((ones bits).map (pubkeyOf rankMap)) =
      .ok (pubkeySum rankMap (support bits)) := by
  have hnonempty : ones bits ≠ [] := fun hnil => hne (ones_eq_nil_iff.mp hnil)
  simp [aggregatePubkeys, hnonempty, pubkeySum, sum_ones]

end Collecting

/-! ## Local certificates -/

section Local

variable {scheme : BlsScheme π σ τ} {store : SignerStore} {shredVersion maxValidators : ℕ}
  {totalStake : ℕ+} {certType : CertificateType} {cert : Certificate σ} {vote : Vote}
  {acc fallback : AggregateAccumulator σ}

/-- The ranks of an accumulator are in the rank map, its stake is theirs, and its
signature is the sum of their valid signatures of the vote. -/
structure Accumulates (scheme : BlsScheme π σ τ) (rankMap : RankMap π)
    (shredVersion maxValidators : ℕ) (vote : Vote) (acc : AggregateAccumulator σ) : Prop where
  length : acc.ranks.length ≤ maxValidators
  known : ∀ rank ∈ support acc.ranks, (rankMap rank).isSome = true
  stake : acc.stake = stakeSum rankMap (support acc.ranks)
  signature : ∃ signatureOf : ℕ → σ,
    (∀ rank ∈ support acc.ranks,
      scheme.Signs (pubkeyOf rankMap rank) (signatureOf rank) ⟨vote, shredVersion⟩) ∧
    acc.signature = ∑ rank ∈ support acc.ranks, signatureOf rank

section

variable (h : Accumulates scheme rankMap shredVersion maxValidators vote acc)

include h

theorem Accumulates.signs :
    scheme.Signs (pubkeySum rankMap (support acc.ranks)) acc.signature ⟨vote, shredVersion⟩ := by
  rcases h.signature with ⟨signatureOf, hsigns, hsum⟩
  rw [hsum]
  exact BlsScheme.Signs.sum hsigns

theorem Accumulates.support_ne_empty (hsig : acc.signature ≠ 0) : support acc.ranks ≠ ∅ := by
  intro hempty
  rcases h.signature with ⟨signatureOf, _, hsum⟩
  rw [hempty, Finset.sum_empty] at hsum
  exact hsig hsum

end

omit [AddCommGroup σ] in
theorem getVotePayload_eq (cert : Certificate σ) (shredVersion : ℕ) :
    (UnverifiedCertificate.mk cert shredVersion).getVotePayload =
      (⟨cert.certType.toSourceVote, shredVersion⟩,
        cert.certType.toSourceVotes.map (fun votes => ⟨votes.2, shredVersion⟩)) := by
  cases cert with
  | mk certType signature bitmap => cases certType <;> rfl

theorem toSourceVote_eq {primary fallback : Vote}
    (h : certType.toSourceVotes = some (primary, fallback)) : certType.toSourceVote = primary := by
  cases certType <;> simp_all [CertificateType.toSourceVotes, CertificateType.toSourceVote]

theorem verifyStake_of_reached (htot : totalStake ≤ u64Max)
    (h : certType.threshold ≤ ⟨stake, totalStake⟩) :
    verifyStake certType (min stake u64Max) totalStake = .ok () := by
  rw [verifyStake, if_pos ((threshold_le_min htot).mpr h)]

omit [AddCommGroup σ] in
theorem tryBuildBase2Cert_eq_some
    (h : acc.tryBuildBase2Cert store certType totalStake = .ok (some cert)) :
    certType.threshold ≤ ⟨acc.stake, totalStake⟩ ∧ cert.certType = certType ∧
      cert.signature = acc.signature ∧
      store.encodeBase2 (resize acc.ranks (trimmedLength acc.ranks)) = some cert.bitmap := by
  unfold tryBuildBase2Cert at h
  by_cases hlt : (⟨acc.stake, totalStake⟩ : Fraction) < certType.threshold
  · rw [if_pos hlt] at h
    cases h
  · rw [if_neg hlt] at h
    cases henc : store.encodeBase2 (resize acc.ranks (trimmedLength acc.ranks)) with
    | none =>
      rw [henc] at h
      cases h
    | some bitmap =>
      rw [henc] at h
      cases h
      exact ⟨Fraction.not_lt.mp hlt, rfl, rfl, rfl⟩

variable [DecidableEq σ] {primary : Option (AggregateAccumulator σ)}

theorem tryBuildBase3Cert_eq_some
    (h : tryBuildBase3Cert store certType totalStake primary fallback = .ok (some cert)) :
    (∃ acc ∈ primary, acc.signature ≠ 0 ∧
      acc.tryBuildBase2Cert store certType totalStake = .ok (some cert)) ∨
    (fallback.signature ≠ 0 ∧
      ∃ kept : Option (AggregateAccumulator σ),
        (∀ acc ∈ kept, acc ∈ primary ∧ acc.signature ≠ 0) ∧
        certType.threshold ≤
          ⟨saturatingAdd fallback.stake ((kept.map AggregateAccumulator.stake).getD 0),
            totalStake⟩ ∧
        cert.certType = certType ∧
        cert.signature = (partitions kept fallback).2.2 ∧
        store.encodeBase3 (partitions kept fallback).1
          (partitions kept fallback).2.1 = some cert.bitmap) := by
  have hkept : ∀ acc ∈ primary.filter (fun acc => !acc.isIdentity),
      acc ∈ primary ∧ acc.signature ≠ 0 := by
    intro acc hacc
    rcases Option.mem_filter_iff.mp hacc with ⟨hmem, hnot⟩
    exact ⟨hmem, by simpa [isIdentity] using hnot⟩
  unfold tryBuildBase3Cert at h
  generalize primary.filter (fun acc => !acc.isIdentity) = kept at h hkept
  by_cases hident : fallback.isIdentity = true
  · left
    rw [if_pos hident] at h
    cases kept with
    | none => cases h
    | some acc => exact ⟨acc, (hkept acc rfl).1, (hkept acc rfl).2, h⟩
  · right
    simp only [if_neg hident] at h
    by_cases hlt : (⟨saturatingAdd fallback.stake
        ((kept.map stake).getD 0), totalStake⟩ : Fraction) < certType.threshold
    · rw [if_pos hlt] at h
      cases h
    · rw [if_neg hlt] at h
      cases henc : store.encodeBase3 (partitions kept fallback).1
          (partitions kept fallback).2.1 with
      | none =>
        rw [henc] at h
        cases h
      | some bitmap =>
        rw [henc] at h
        cases h
        have hsig : fallback.signature ≠ 0 := by
          simpa [isIdentity] using hident
        exact ⟨hsig, kept, hkept, Fraction.not_lt.mp hlt, rfl, rfl, henc⟩

variable [DecidableEq π] [DecidableEq τ]

theorem verifySingleVoteSignature_ok
    (h : Accumulates scheme rankMap shredVersion maxValidators vote acc)
    (hbits : support bits = support acc.ranks) (hsig : acc.signature ≠ 0)
    (hkey : pubkeySum rankMap (support acc.ranks) ≠ 0) :
    verifySingleVoteSignature scheme ⟨vote, shredVersion⟩ acc.signature bits rankMap =
      .ok (min acc.stake u64Max) := by
  have hknown : ∀ rank ∈ support bits, (rankMap rank).isSome = true := by
    rw [hbits]
    exact h.known
  have hne : support bits ≠ ∅ := by
    rw [hbits]
    exact h.support_ne_empty hsig
  simp only [verifySingleVoteSignature, collectPubkeys_ones hknown (Nat.zero_le _),
    aggregatePubkeys_ones hne, bind, Except.bind]
  rw [hbits, verifySignature, if_pos ⟨hkey, hsig, h.signs⟩, h.stake, zero_add]

theorem verifyCertificate_base2 (hinverse : store.Inverse maxValidators)
    (htot : totalStake ≤ u64Max)
    (h : Accumulates scheme rankMap shredVersion maxValidators certType.toSourceVote acc)
    (hsig : acc.signature ≠ 0) (hkey : pubkeySum rankMap (support acc.ranks) ≠ 0)
    (hbuilt : acc.tryBuildBase2Cert store certType totalStake = .ok (some cert)) :
    verifyCertificate scheme store ⟨cert, shredVersion⟩ maxValidators totalStake rankMap =
      .ok cert := by
  rcases tryBuildBase2Cert_eq_some hbuilt with ⟨hreach, rfl, hcert, henc⟩
  have hlen : trimmedLength acc.ranks ≤ maxValidators :=
    (trimmedLength_le acc.ranks).trans h.length
  have hdec := hinverse.base2 (resize acc.ranks (trimmedLength acc.ranks)) cert.bitmap
    (by rw [trimmedLength_resize le_rfl, length_resize]) (by rwa [length_resize]) henc
  unfold verifyCertificate
  rw [getVotePayload_eq]
  cases cert.certType.toSourceVotes <;>
    simp only [Option.map, verifyBase2, verifyBase3, hdec, hcert,
      verifySingleVoteSignature_ok h (support_resize le_rfl) hsig hkey, bind,
      Except.bind, verifyStake_of_reached htot hreach]

variable {fallbackBits : List Bool}

theorem verifyPartitions_fallbackOnly
    (h : Accumulates scheme rankMap shredVersion maxValidators vote fallback)
    (hlen : bits.length = fallbackBits.length) (hempty : support bits = ∅)
    (hbits : support fallbackBits = support fallback.ranks) (hsig : fallback.signature ≠ 0)
    (hkey : pubkeySum rankMap (support fallback.ranks) ≠ 0) :
    verifyPartitions scheme payload ⟨vote, shredVersion⟩ fallback.signature bits fallbackBits
      rankMap = .ok (min fallback.stake u64Max) := by
  have hnil : ones bits = [] := ones_eq_nil_iff.mpr hempty
  rw [← verifySingleVoteSignature_ok h hbits hsig hkey]
  simp only [verifyPartitions, checkDisjoint, hlen, hnil, collectPubkeys,
    verifySingleVoteSignature, bind, Except.bind, ne_eq, not_true_eq_false, if_false, any_nil,
    Bool.false_eq_true, isEmpty_nil, if_true]

variable {fallbackVote : Vote}

theorem verifyPartitions_both (h : Accumulates scheme rankMap shredVersion maxValidators vote acc)
    (hfall : Accumulates scheme rankMap shredVersion maxValidators fallbackVote fallback)
    (hlen : bits.length = fallbackBits.length) (hbits : support bits = support acc.ranks)
    (hfallBits : support fallbackBits = support fallback.ranks)
    (hdisj : Disjoint (support acc.ranks) (support fallback.ranks))
    (hsig : acc.signature ≠ 0) (hfallSig : fallback.signature ≠ 0)
    (hkey : pubkeySum rankMap (support acc.ranks) ≠ 0)
    (hfallKey : pubkeySum rankMap (support fallback.ranks) ≠ 0) :
    verifyPartitions scheme ⟨vote, shredVersion⟩ ⟨fallbackVote, shredVersion⟩
      (acc.signature + fallback.signature) bits fallbackBits rankMap =
        .ok (min (acc.stake + fallback.stake) u64Max) := by
  have hknown : ∀ rank ∈ support bits, (rankMap rank).isSome = true := by
    rw [hbits]
    exact h.known
  have hfallKnown : ∀ rank ∈ support fallbackBits, (rankMap rank).isSome = true := by
    rw [hfallBits]
    exact hfall.known
  have hne : support bits ≠ ∅ := by
    rw [hbits]
    exact h.support_ne_empty hsig
  have hfallNe : support fallbackBits ≠ ∅ := by
    rw [hfallBits]
    exact hfall.support_ne_empty hfallSig
  have hcheck : checkDisjoint bits fallbackBits = .ok () := by
    have hno : (ones bits).any (isSet fallbackBits) = false := by
      rw [any_eq_false]
      intro rank hrank hset
      rw [← hbits, ← hfallBits] at hdisj
      exact Finset.disjoint_left.mp hdisj (mem_support.mpr (mem_ones.mp hrank))
        (mem_support.mpr hset)
    simp [checkDisjoint, hlen, hno]
  have hver : verifyDistinctAggregated scheme (pubkeySum rankMap (support bits))
      (pubkeySum rankMap (support fallbackBits)) (acc.signature + fallback.signature)
      ⟨vote, shredVersion⟩ ⟨fallbackVote, shredVersion⟩ = .ok () := by
    rw [verifyDistinctAggregated, if_pos]
    rw [hbits, hfallBits, h.signs, hfall.signs, map_add]
    exact ⟨hkey, hfallKey, rfl⟩
  have hsum : min (min (0 + stakeSum rankMap (support bits)) u64Max +
      stakeSum rankMap (support fallbackBits)) u64Max =
        min (acc.stake + fallback.stake) u64Max := by
    rw [hbits, hfallBits, h.stake, hfall.stake]
    omega
  have hcons : (ones bits).isEmpty = false := by
    simpa using fun hnil => hne (ones_eq_nil_iff.mp hnil)
  have hfallCons : (ones fallbackBits).isEmpty = false := by
    simpa using fun hnil => hfallNe (ones_eq_nil_iff.mp hnil)
  simp only [verifyPartitions, hcheck, collectPubkeys_ones hknown (Nat.zero_le _),
    collectPubkeys_ones hfallKnown (min_le_right _ _), aggregatePubkeys_ones hne,
    aggregatePubkeys_ones hfallNe, bind, Except.bind, isEmpty_map, hcons,
    hfallCons, hver, hsum, Bool.false_eq_true, if_false]

theorem verifyCertificate_pair (htot : totalStake ≤ u64Max)
    (hsrcs : cert.certType.toSourceVotes = some (primaryVote, fallbackVote))
    (hdec : store.decode cert.bitmap maxValidators = some (.base3 bits fallbackBits))
    (hver : verifyPartitions scheme ⟨primaryVote, shredVersion⟩ ⟨fallbackVote,
      shredVersion⟩ cert.signature bits fallbackBits rankMap = .ok (min stake u64Max))
    (hreach : cert.certType.threshold ≤ ⟨stake, totalStake⟩) :
    verifyCertificate scheme store ⟨cert, shredVersion⟩ maxValidators totalStake rankMap =
      .ok cert := by
  unfold verifyCertificate
  rw [getVotePayload_eq, hsrcs, toSourceVote_eq hsrcs]
  simp only [Option.map, verifyBase3, hdec, hver, bind, Except.bind,
    verifyStake_of_reached htot hreach]

theorem verifyCertificate_base3 (hinverse : store.Inverse maxValidators)
    (htot : totalStake ≤ u64Max)
    (hsrcs : certType.toSourceVotes = some (primaryVote, fallbackVote))
    (hprimary : ∀ acc ∈ primary,
      Accumulates scheme rankMap shredVersion maxValidators primaryVote acc ∧
      Disjoint (support acc.ranks) (support fallback.ranks) ∧ (acc.signature ≠ 0 →
      pubkeySum rankMap (support acc.ranks) ≠ 0))
    (hfall : Accumulates scheme rankMap shredVersion maxValidators fallbackVote fallback)
    (hfallKey : fallback.signature ≠ 0 → pubkeySum rankMap (support fallback.ranks) ≠ 0)
    (hbuilt : tryBuildBase3Cert store certType totalStake primary fallback = .ok (some cert)) :
    verifyCertificate scheme store ⟨cert, shredVersion⟩ maxValidators totalStake rankMap =
      .ok cert := by
  have hfallLen := (trimmedLength_le fallback.ranks).trans hfall.length
  rcases tryBuildBase3Cert_eq_some hbuilt with ⟨acc, hacc, hsig, hbase2⟩ |
    ⟨hsig, kept, hkept, hreach, rfl, hcert, henc⟩
  · rcases hprimary acc hacc with ⟨haccum, _, hkey⟩
    rw [← toSourceVote_eq hsrcs] at haccum
    exact verifyCertificate_base2 hinverse htot haccum hsig (hkey hsig) hbase2
  · rw [saturatingAdd, threshold_le_min htot] at hreach
    cases kept with
    | none =>
      simp only [partitions] at hcert henc
      have hdec := hinverse.base3 _ _ cert.bitmap
        (by rw [length_resize, length_replicate])
        (by
          rw [trimmedLength_resize le_rfl, length_replicate]
          apply max_eq_right
          rw [trimmedLength_le_iff]
          simp)
        (by rwa [length_replicate]) (by simp) henc
      apply verifyCertificate_pair htot hsrcs hdec _ hreach
      rw [hcert]
      exact verifyPartitions_fallbackOnly hfall
        (by rw [length_resize, length_replicate]) support_replicate
        (support_resize le_rfl) hsig (hfallKey hsig)
    | some acc =>
      rcases hkept acc rfl with ⟨hacc, haccSig⟩
      rcases hprimary acc hacc with ⟨haccum, hdisj, hkey⟩
      have hlen := (trimmedLength_le acc.ranks).trans haccum.length
      have hleft := le_max_left (trimmedLength acc.ranks) (trimmedLength fallback.ranks)
      have hright := le_max_right (trimmedLength acc.ranks) (trimmedLength fallback.ranks)
      simp only [partitions] at hcert henc
      have hdec := hinverse.base3 _ _ cert.bitmap (by rw [length_resize, length_resize])
        (by rw [trimmedLength_resize hleft, trimmedLength_resize hright, length_resize])
        (by
          rw [length_resize]
          exact max_le hlen hfallLen)
        (by rwa [support_resize hleft, support_resize hright]) henc
      have hreach' : cert.certType.threshold ≤ ⟨acc.stake + fallback.stake, totalStake⟩ := by
        rw [add_comm]
        exact hreach
      apply verifyCertificate_pair htot hsrcs hdec _ hreach'
      rw [hcert]
      exact verifyPartitions_both haccum hfall
        (by rw [length_resize, length_resize]) (support_resize hleft) (support_resize hright)
        hdisj haccSig hsig (hkey haccSig)
        (hfallKey hsig)

/-- A certificate which is built from one accumulator, or from a primary and a fallback
accumulator without a common rank, is accepted by the verifier. -/
theorem local_certificates_verify (hinverse : store.Inverse maxValidators)
    (htotal : totalStake ≤ u64Max) :
    (∀ (certType : CertificateType) (acc : AggregateAccumulator σ) (cert : Certificate σ),
      Accumulates scheme rankMap shredVersion maxValidators certType.toSourceVote acc →
      acc.signature ≠ 0 → pubkeySum rankMap (support acc.ranks) ≠ 0 →
      acc.tryBuildBase2Cert store certType totalStake = .ok (some cert) →
        verifyCertificate scheme store ⟨cert, shredVersion⟩ maxValidators totalStake rankMap =
          .ok cert) ∧
    (∀ (certType : CertificateType) (primaryVote fallbackVote : Vote)
        (primary : Option (AggregateAccumulator σ)) (fallback : AggregateAccumulator σ)
        (cert : Certificate σ),
      certType.toSourceVotes = some (primaryVote, fallbackVote) →
      (∀ acc ∈ primary,
        Accumulates scheme rankMap shredVersion maxValidators primaryVote acc ∧
        Disjoint (support acc.ranks) (support fallback.ranks) ∧
        (acc.signature ≠ 0 → pubkeySum rankMap (support acc.ranks) ≠ 0)) →
      Accumulates scheme rankMap shredVersion maxValidators fallbackVote fallback →
      (fallback.signature ≠ 0 → pubkeySum rankMap (support fallback.ranks) ≠ 0) →
      tryBuildBase3Cert store certType totalStake primary fallback =
        .ok (some cert) →
        verifyCertificate scheme store ⟨cert, shredVersion⟩ maxValidators totalStake rankMap =
          .ok cert) := by
  constructor
  · intro certType acc cert haccumulates hsignature hpubkey hbuilt
    exact verifyCertificate_base2 hinverse htotal haccumulates hsignature hpubkey hbuilt
  · intro certType primaryVote fallbackVote primary fallback cert hsources hprimary hfallback
      hpubkey hbuilt
    exact verifyCertificate_base3 hinverse htotal hsources hprimary hfallback hpubkey hbuilt

end Local

/-! ## A certificate of two votes over the integers -/

/-- Keys are secret keys, and a signature is the key times the hash. -/
def integerScheme : BlsScheme ℤ ℤ ℤ where
  pairing := AddMonoidHom.mul
  generator := 1
  hash payload := if payload.vote = .skip 5 then 3 else 7

def integerRankMap (rank : ℕ) : Option (ℕ+ × ℤ) :=
  if rank = 0 then some (40, 1) else if rank = 1 then some (30, 2) else some (30, 4)

def skipAccumulator : AggregateAccumulator ℤ := ⟨[true, false, false], 3, 40⟩

def skipFallbackAccumulator : AggregateAccumulator ℤ := ⟨[false, true, false], 14, 30⟩

theorem skipAccumulator_accumulates :
    Accumulates integerScheme integerRankMap 0 3 (.skip 5) skipAccumulator where
  length := by decide
  known := by decide
  stake := by decide
  signature := ⟨fun _ => 3, by decide, by decide⟩

theorem skipFallbackAccumulator_accumulates :
    Accumulates integerScheme integerRankMap 0 3 (.skipFallback 5) skipFallbackAccumulator where
  length := by decide
  known := by decide
  stake := by decide
  signature := ⟨fun _ => 14, by decide, by decide⟩

theorem local_certificates_verify_skip :
    tryBuildBase3Cert .bytewise (.skip 5) 100 (some skipAccumulator)
      skipFallbackAccumulator = .ok (some ⟨.skip 5, 17, [3, 1, 2]⟩) ∧
    verifyCertificate integerScheme .bytewise ⟨⟨.skip 5, 17, [3, 1, 2]⟩, 0⟩ 3 100
      integerRankMap = .ok ⟨.skip 5, 17, [3, 1, 2]⟩ := by
  have hbuilt : tryBuildBase3Cert .bytewise (.skip 5) 100
      (some skipAccumulator) skipFallbackAccumulator = .ok (some ⟨.skip 5, 17, [3, 1, 2]⟩) := by
    decide +kernel
  have htotal : ((100 : ℕ+) : ℕ) ≤ u64Max := by decide
  have hprimary : ∀ acc ∈ some skipAccumulator,
      Accumulates integerScheme integerRankMap 0 3 (.skip 5) acc ∧
      Disjoint (support acc.ranks) (support skipFallbackAccumulator.ranks) ∧
      (acc.signature ≠ 0 → pubkeySum integerRankMap (support acc.ranks) ≠ 0) := by
    intro acc hacc
    cases hacc
    exact ⟨skipAccumulator_accumulates, by decide, by decide⟩
  constructor
  · exact hbuilt
  · exact (local_certificates_verify (SignerStore.bytewise_inverse 3) htotal).2 (.skip 5)
      (.skip 5) (.skipFallback 5) (some skipAccumulator) skipFallbackAccumulator _ rfl hprimary
      skipFallbackAccumulator_accumulates (by decide) hbuilt

end CertVerify

end RakuraiValidator.Votor
