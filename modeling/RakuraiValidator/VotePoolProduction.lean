import RakuraiValidator.VotePool

/-!
# The certificates of a vote pool

At most one certificate is built for each added vote, and a vote may count towards
several.  Every call leaves the certificates of its vote settled: one whose votes
reach the threshold is completed, or a stronger one is.
-/

namespace RakuraiValidator.Votor.VotePool

open Bitmap CertificateType AggregateAccumulator Finset

attribute [local simp] toSourceVotes toSourceVote sources AggregateAccumulator.new

variable {σ : Type} [AddCommGroup σ]

def stake (pool : VotePool σ) (vote : Vote) : ℕ := (pool.accumulator vote).stake

def sourceStake (pool : VotePool σ) (certType : CertificateType) : ℕ :=
  (certType.sources.map pool.stake).sum

attribute [local simp] sourceStake

def orStronger : CertificateType → List CertificateType
  | .notarize block => [.notarize block, .finalizeFast block]
  | .notarizeFallback block => [.notarizeFallback block, .notarize block, .finalizeFast block]
  | certType => [certType]

attribute [local simp] orStronger

/-- A certificate whose votes reach the threshold is completed, or a stronger one is. -/
def Settled (totalStake : ℕ+) (pool : VotePool σ) (completed : CompletedCerts σ)
    (certType : CertificateType) : Prop :=
  certType.threshold ≤ ⟨pool.sourceStake certType, totalStake⟩ →
    ∃ stronger ∈ orStronger certType, completed.containsKey stronger = true

/-- What a call does for the certificates which its vote counts towards. -/
structure Produces (totalStake : ℕ+) (pool : VotePool σ) (completed : CompletedCerts σ)
    (vote : Vote) (cert? : Option (Certificate σ)) : Prop where
  sound : ∀ cert ∈ cert?,
    cert.certType.threshold ≤ ⟨pool.sourceStake cert.certType, totalStake⟩
  complete : ∀ certType : CertificateType, vote ∈ certType.sources →
    Settled totalStake pool (completed.record cert?) certType

/-- The pool can encode its partitions, and none with a stake has lost its signature. -/
structure Encodable (pool : VotePool σ) : Prop where
  length : ∀ vote, (pool.accumulator vote).ranks.length = pool.maxValidators
  disjoint : ∀ (certType : CertificateType) (primary fallback : Vote),
    certType.toSourceVotes = some (primary, fallback) →
      Disjoint (support (pool.accumulator primary).ranks)
        (support (pool.accumulator fallback).ranks)
  signature : ∀ vote, (pool.accumulator vote).signature = 0 → pool.stake vote = 0

variable {store : SignerStore} {totalStake : ℕ+} {pool : VotePool σ}
  {completed : CompletedCerts σ} {vote : Vote} {acc : AggregateAccumulator σ}
  {certType : CertificateType}

theorem map_stake_eq (pool : VotePool σ) (vote : Vote) :
    ((pool.accumulators vote).map AggregateAccumulator.stake).getD 0 = pool.stake vote := by
  unfold stake accumulator
  cases pool.accumulators vote <;> rfl

theorem stake_eq (hacc : pool.accumulators vote = some acc) : pool.stake vote = acc.stake := by
  rw [stake, accumulator_eq hacc]

theorem stake_eq_zero (hacc : pool.accumulators vote = none) : pool.stake vote = 0 := by
  simp [stake, accumulator, hacc]

/-! ## Which votes count -/

theorem mem_orStronger_self (certType : CertificateType) : certType ∈ orStronger certType := by
  cases certType <;> simp

variable {block : Block}

theorem mem_sources_notarize :
    .notarize block ∈ certType.sources ↔ certType = .notarize block ∨
      certType = .finalizeFast block ∨ certType = .notarizeFallback block := by
  cases certType <;>
    simp [eq_comm]

/-- The certificate which a vote other than a notarization counts towards. -/
def onlyCertType : Vote → CertificateType
  | .notarize block => .notarize block
  | .notarizeFallback block => .notarizeFallback block
  | .finalize slot => .finalize slot
  | .skip slot => .skip slot
  | .skipFallback slot => .skip slot
  | .genesis block => .genesis block

theorem eq_onlyCertType (hvote : ∀ block, vote ≠ .notarize block) (h : vote ∈ certType.sources) :
    certType = onlyCertType vote := by
  cases vote with
  | notarize block => exact absurd rfl (hvote block)
  | notarizeFallback block | finalize slot | skip slot | skipFallback slot | genesis block =>
    cases certType <;>
      simp_all [onlyCertType]

theorem sourceStake_notarize :
    pool.sourceStake (.notarize block) = pool.stake (.notarize block) := by
  simp

theorem sourceStake_finalizeFast :
    pool.sourceStake (.finalizeFast block) = pool.stake (.notarize block) := by
  simp

variable {result : Except AggregateAccumulatorError (Option (Certificate σ))}
  {stronger : CertificateType} {slot : ℕ}

theorem sourceStake_finalize : pool.sourceStake (.finalize slot) = pool.stake (.finalize slot) := by
  simp

theorem sourceStake_genesis : pool.sourceStake (.genesis block) = pool.stake (.genesis block) := by
  simp

theorem sourceStake_notarizeFallback :
    pool.sourceStake (.notarizeFallback block) =
      pool.stake (.notarize block) + pool.stake (.notarizeFallback block) := by
  simp

theorem sourceStake_skip :
    pool.sourceStake (.skip slot) = pool.stake (.skip slot) + pool.stake (.skipFallback slot) := by
  simp

/-! ## One call -/

theorem builds_single (hencode : store.Encodes pool.maxValidators) (hpool : pool.Encodable)
    (hacc : pool.accumulators vote = some acc) :
    Builds certType totalStake (pool.stake vote)
      (acc.tryBuildBase2Cert store certType totalStake) := by
  rw [stake_eq hacc]
  apply tryBuildBase2Cert_builds hencode
  rw [← accumulator_eq hacc, hpool.length]

theorem produces_none (hdone : ∀ certType : CertificateType, vote ∈ certType.sources →
      Settled totalStake pool completed certType) :
    Produces totalStake pool completed vote none where
  sound _ hcert := nomatch hcert
  complete certType hvote := hdone certType hvote

theorem produces_some {cert : Certificate σ}
    (hsound : cert.certType.threshold ≤ ⟨pool.sourceStake cert.certType, totalStake⟩)
    (hdone : ∀ certType : CertificateType, vote ∈ certType.sources →
      certType.threshold ≤ ⟨pool.sourceStake certType, totalStake⟩ →
        cert.certType ∈ orStronger certType) :
    Produces totalStake pool completed vote (some cert) where
  sound other hother := by
    cases hother
    exact hsound
  complete certType hvote hreach :=
    ⟨cert.certType, hdone certType hvote hreach,
      (CompletedCerts.containsKey_record _ _ _).mpr (Or.inr ⟨cert, rfl, rfl⟩)⟩

theorem produces_of_builds
    (honly : ∀ other : CertificateType, vote ∈ other.sources → other = certType)
    (h : Builds certType totalStake (pool.sourceStake certType) result) :
    ∃ cert?, result = .ok cert? ∧ Produces totalStake pool completed vote cert? := by
  cases h with
  | none hnot =>
    exists none
    constructor
    · rfl
    · apply produces_none
      intro other hvote hreach
      rw [honly other hvote] at hreach
      exact absurd hreach hnot
  | some cert htype hreach =>
    exists some cert
    constructor
    · rfl
    · apply produces_some
      · rw [htype]
        exact hreach
      · intro other hvote _
        rw [honly other hvote, htype]
        exact mem_orStronger_self certType

theorem produces_of_completed (hvote : ∀ block, vote ≠ .notarize block)
    (hstronger : stronger ∈ orStronger (onlyCertType vote))
    (hhas : completed.containsKey stronger = true) :
    Produces totalStake pool completed vote none := by
  apply produces_none
  intro certType hmem _
  rw [eq_onlyCertType hvote hmem]
  exact ⟨stronger, hstronger, hhas⟩

/-- A vote other than for a notarization looks for its certificate only while there is none. -/
theorem produces_unless_completed (hvote : ∀ block, vote ≠ .notarize block)
    (honly : onlyCertType vote = certType)
    (h : Builds certType totalStake (pool.sourceStake certType) result) :
    ∃ cert?, (if completed.containsKey certType = true then .ok none else result) = .ok cert? ∧
      Produces totalStake pool completed vote cert? := by
  subst honly
  split
  next hhas =>
    exact ⟨none, rfl, produces_of_completed hvote (mem_orStronger_self _) hhas⟩
  next => exact produces_of_builds (fun _ => eq_onlyCertType hvote) h

theorem Settled.of_completed (hstronger : stronger ∈ orStronger certType)
    (hhas : completed.containsKey stronger = true) : Settled totalStake pool completed certType :=
  fun _ => ⟨stronger, hstronger, hhas⟩

theorem produces_notarize_none (hnotar : Settled totalStake pool completed (.notarize block))
    (hfast : Settled totalStake pool completed (.finalizeFast block))
    (hfall : Settled totalStake pool completed (.notarizeFallback block)) :
    Produces totalStake pool completed (.notarize block) none := by
  apply produces_none
  intro certType hvote
  rcases mem_sources_notarize.mp hvote with rfl | rfl | rfl
  · exact hnotar
  · exact hfast
  · exact hfall

theorem Settled.of_stake_eq {pool' : VotePool σ} {cert? : Option (Certificate σ)}
    (h : Settled totalStake pool completed certType)
    (hstake : ∀ vote ∈ certType.sources, pool'.stake vote = pool.stake vote) :
    Settled totalStake pool' (completed.record cert?) certType := by
  intro hreach
  have hsum : pool'.sourceStake certType = pool.sourceStake certType := by
    unfold sourceStake
    rw [List.map_congr_left hstake]
  rw [hsum] at hreach
  rcases h hreach with ⟨stronger, hstronger, hhas⟩
  exact ⟨stronger, hstronger, (CompletedCerts.containsKey_record _ _ _).mpr (Or.inl hhas)⟩

variable [DecidableEq σ]

section

variable (hencode : store.Encodes pool.maxValidators) (htotal : totalStake ≤ u64Max)
  (hpool : pool.Encodable)

include hencode htotal hpool

theorem builds_pair {primary fallback : Vote}
    (hsrcs : certType.toSourceVotes = some (primary, fallback))
    (hacc : pool.accumulators fallback = some acc) :
    Builds certType totalStake (pool.stake primary + pool.stake fallback)
      (tryBuildBase3Cert store certType totalStake (pool.accumulators primary) acc) := by
  rw [← map_stake_eq pool primary, stake_eq hacc]
  apply tryBuildBase3Cert_builds hencode htotal
  · intro primaryAcc hprimary
    have hlen := hpool.length primary
    have hdisj := hpool.disjoint certType primary fallback hsrcs
    have hsig := hpool.signature primary
    rw [accumulator_eq hprimary] at hlen
    rw [accumulator_eq hprimary, accumulator_eq hacc] at hdisj
    rw [accumulator_eq hprimary, stake_eq hprimary] at hsig
    exact ⟨hlen.le, hdisj, hsig⟩
  · rw [← accumulator_eq hacc, hpool.length]
  · have hsig := hpool.signature fallback
    rwa [accumulator_eq hacc, stake_eq hacc] at hsig

theorem tryProduceCert_notarize (hacc : pool.accumulators (.notarize block) = some acc) :
    ∃ cert?, pool.tryProduceCert store totalStake (.notarize block) completed acc = .ok cert? ∧
      Produces totalStake pool completed (.notarize block) cert? := by
  have hfast : Builds (.finalizeFast block) totalStake (pool.stake (.notarize block))
      (acc.tryBuildBase2Cert store (.finalizeFast block) totalStake) :=
    builds_single hencode hpool hacc
  have hnotar : Builds (.notarize block) totalStake (pool.stake (.notarize block))
      (acc.tryBuildBase2Cert store (.notarize block) totalStake) :=
    builds_single hencode hpool hacc
  simp only [tryProduceCert]
  by_cases hhasFast : completed.containsKey (.finalizeFast block) = true
  · rw [if_pos hhasFast]
    exact ⟨none, rfl, produces_notarize_none (.of_completed (by simp) hhasFast)
      (.of_completed (by simp) hhasFast) (.of_completed (by simp) hhasFast)⟩
  rw [if_neg hhasFast]
  generalize acc.tryBuildBase2Cert store (.finalizeFast block) totalStake = fast at hfast
  cases hfast with
  | some cert htype hreach =>
    refine ⟨some cert, rfl, produces_some ?_ ?_⟩
    · rw [htype, sourceStake_finalizeFast]
      exact hreach
    · intro certType hvote _
      rw [htype]
      rcases mem_sources_notarize.mp hvote with rfl | rfl | rfl <;> simp
  | none hnotFast =>
  -- from here on the fast finalization is not due
  have hfastSettled : Settled totalStake pool completed (.finalizeFast block) := by
    intro hreach
    rw [sourceStake_finalizeFast] at hreach
    exact absurd hreach hnotFast
  by_cases hhasNotar : completed.containsKey (.notarize block) = true
  · exact ⟨none, by simp [bind, Except.bind, hhasNotar], produces_notarize_none
      (.of_completed (mem_orStronger_self _) hhasNotar) hfastSettled
      (.of_completed (by simp) hhasNotar)⟩
  simp only [bind, Except.bind, if_neg hhasNotar]
  generalize acc.tryBuildBase2Cert store (.notarize block) totalStake = notarize at hnotar
  cases hnotar with
  | some cert htype hreach =>
    refine ⟨some cert, rfl, produces_some ?_ ?_⟩
    · rw [htype, sourceStake_notarize]
      exact hreach
    · intro certType hvote hcert
      rw [htype]
      rcases mem_sources_notarize.mp hvote with rfl | rfl | rfl
      · simp
      · rw [sourceStake_finalizeFast] at hcert
        exact absurd hcert hnotFast
      · simp
  | none hnotNotar =>
  have hnotarSettled : Settled totalStake pool completed (.notarize block) := by
    intro hreach
    rw [sourceStake_notarize] at hreach
    exact absurd hreach hnotNotar
  -- only the fallback certificate can still be due
  have hrem : Settled totalStake pool completed (.notarizeFallback block) →
      Produces totalStake pool completed (.notarize block) none :=
    produces_notarize_none hnotarSettled hfastSettled
  by_cases hhasFall : completed.containsKey (.notarizeFallback block) = true
  · rw [if_pos hhasFall]
    exact ⟨none, rfl, hrem (.of_completed (mem_orStronger_self _) hhasFall)⟩
  rw [if_neg hhasFall]
  cases hfall : pool.accumulators (.notarizeFallback block) with
  | none =>
    refine ⟨none, rfl, hrem ?_⟩
    intro hreach
    rw [sourceStake_notarizeFallback, stake_eq_zero hfall, add_zero] at hreach
    exact absurd hreach hnotNotar
  | some fallback =>
    have hbuilds : Builds (.notarizeFallback block) totalStake
        (pool.stake (.notarize block) + pool.stake (.notarizeFallback block))
        (tryBuildBase3Cert store (.notarizeFallback block) totalStake (some acc) fallback) := by
      rw [← hacc]
      exact builds_pair hencode htotal hpool rfl hfall
    dsimp only
    generalize tryBuildBase3Cert store (.notarizeFallback block)
      totalStake (some acc) fallback = result at hbuilds
    cases hbuilds with
    | none hnot =>
      refine ⟨none, rfl, hrem ?_⟩
      intro hreach
      rw [sourceStake_notarizeFallback] at hreach
      exact absurd hreach hnot
    | some cert htype hreach =>
      refine ⟨some cert, rfl, produces_some ?_ ?_⟩
      · rw [htype, sourceStake_notarizeFallback]
        exact hreach
      · intro certType hvote hcert
        rw [htype]
        rcases mem_sources_notarize.mp hvote with rfl | rfl | rfl
        · rw [sourceStake_notarize] at hcert
          exact absurd hcert hnotNotar
        · rw [sourceStake_finalizeFast] at hcert
          exact absurd hcert hnotFast
        · exact mem_orStronger_self _

theorem tryProduceCert_produces (hacc : pool.accumulators vote = some acc) :
    ∃ cert?, pool.tryProduceCert store totalStake vote completed acc = .ok cert? ∧
      Produces totalStake pool completed vote cert? := by
  cases vote with
  | notarize block => exact tryProduceCert_notarize hencode htotal hpool hacc
  | notarizeFallback block =>
    have honly : ∀ other : CertificateType, .notarizeFallback block ∈ other.sources →
        other = .notarizeFallback block :=
      fun other => eq_onlyCertType (by simp)
    simp only [tryProduceCert]
    by_cases hhas : (completed.containsKey (.finalizeFast block) ||
        completed.containsKey (.notarize block) ||
        completed.containsKey (.notarizeFallback block)) = true
    · rw [if_pos hhas]
      refine ⟨none, rfl, ?_⟩
      rw [Bool.or_eq_true, Bool.or_eq_true] at hhas
      rcases hhas with (hhas | hhas) | hhas
      all_goals exact produces_of_completed (by simp) (by simp [onlyCertType]) hhas
    · rw [if_neg hhas]
      apply produces_of_builds honly
      rw [sourceStake_notarizeFallback]
      exact builds_pair hencode htotal hpool rfl hacc
  | finalize slot =>
    simp only [tryProduceCert]
    apply produces_unless_completed (by simp) (by rfl)
    rw [sourceStake_finalize]
    exact builds_single hencode hpool hacc
  | skip slot =>
    simp only [tryProduceCert]
    apply produces_unless_completed (by simp) (by rfl)
    rw [sourceStake_skip]
    cases hfall : pool.accumulators (.skipFallback slot) with
    | none =>
      rw [stake_eq_zero hfall, add_zero]
      exact builds_single hencode hpool hacc
    | some fallback =>
      rw [← hacc]
      exact builds_pair hencode htotal hpool rfl hfall
  | skipFallback slot =>
    simp only [tryProduceCert]
    apply produces_unless_completed (by simp) (by rfl)
    rw [sourceStake_skip]
    exact builds_pair hencode htotal hpool rfl hacc
  | genesis block =>
    simp only [tryProduceCert]
    apply produces_unless_completed (by simp) (by rfl)
    rw [sourceStake_genesis]
    exact builds_single hencode hpool hacc

end

/-! ## Runs -/

variable {state : State σ} {message : PoolVote σ} {maxValidators : ℕ}
  {messages : List (PoolVote σ)}

theorem step_stake_of_ne (other : Vote) (hother : message.vote ≠ other) :
    (state.step store totalStake message).pool.stake other = state.pool.stake other := by
  rw [stake, step_accumulator, if_neg hother, stake]

section

variable (hencode : store.Encodes state.pool.maxValidators) (htotal : totalStake ≤ u64Max)
  (hpool : (state.step store totalStake message).pool.Encodable)

include hencode htotal hpool

theorem step_cases :
    (produced store totalStake state message = none ∧
      ∀ other, (state.step store totalStake message).pool.stake other = state.pool.stake other) ∨
    Produces totalStake (state.step store totalStake message).pool state.completed message.vote
      (produced store totalStake state message) := by
  cases hadd : (state.pool.accumulator message.vote).addPoolVote message with
  | error error =>
    left
    constructor
    · simp [produced, addPoolVote, hadd]
    · intro other
      by_cases hother : message.vote = other
      · rw [stake, step_accumulator, if_pos hother, stake, ← hother, step, hadd]
      · exact step_stake_of_ne other hother
  | ok acc =>
    right
    have hpoolEq : (state.step store totalStake message).pool =
        state.pool.setAccumulator message.vote acc := by
      rw [step_pool, step, hadd]
    rw [hpoolEq] at hpool ⊢
    have hacc : (state.pool.setAccumulator message.vote acc).accumulators message.vote =
        some acc := by
      simp [setAccumulator]
    have hcall : ∃ cert?, (state.pool.setAccumulator message.vote acc).tryProduceCert store
        totalStake message.vote state.completed acc = .ok cert? ∧
        Produces totalStake (state.pool.setAccumulator message.vote acc) state.completed
          message.vote cert? :=
      tryProduceCert_produces hencode htotal hpool hacc
    rcases hcall with ⟨cert?, hres, hprod⟩
    have hproduced : produced store totalStake state message = cert? := by
      simp [produced, addPoolVote, hadd, hres, bind, Except.bind]
    rw [hproduced]
    exact hprod

theorem settled_step (h : ∀ certType, Settled totalStake state.pool state.completed certType) :
    ∀ certType, Settled totalStake (state.step store totalStake message).pool
      (state.step store totalStake message).completed certType := by
  intro certType
  rcases step_cases hencode htotal hpool with ⟨_, hstake⟩ | hprod
  · exact (h certType).of_stake_eq (fun other _ => hstake other)
  · by_cases hvote : message.vote ∈ certType.sources
    · exact hprod.complete certType hvote
    · apply (h certType).of_stake_eq
      intro other hother
      apply step_stake_of_ne
      intro heq
      rw [heq] at hvote
      exact hvote hother

end

theorem run_append (earlier : List (PoolVote σ)) (message : PoolVote σ) :
    state.run store totalStake (earlier ++ [message]) =
      (state.run store totalStake earlier).step store totalStake message := by
  simp [State.run]

theorem run_maxValidators (messages : List (PoolVote σ)) :
    (state.run store totalStake messages).pool.maxValidators = state.pool.maxValidators := by
  induction messages generalizing state with
  | nil => rfl
  | cons message messages ih =>
    rw [State.run, List.foldl_cons, ← State.run, ih, step_pool]
    rfl

def DisjointPartitions (messages : List (PoolVote σ)) : Prop :=
  ∀ (certType : CertificateType) (primary fallback : Vote),
    certType.toSourceVotes = some (primary, fallback) →
      Disjoint (voters messages primary) (voters messages fallback)

def NeverCancels (store : SignerStore) (totalStake : ℕ+) (state : State σ)
    (messages : List (PoolVote σ)) : Prop :=
  ∀ earlier, earlier <+: messages → ∀ vote,
    ((state.run store totalStake earlier).pool.accumulator vote).signature = 0 →
      (state.run store totalStake earlier).pool.stake vote = 0

variable {earlier : List (PoolVote σ)}

omit [AddCommGroup σ] [DecidableEq σ] in
theorem voters_mono (hearlier : earlier <+: messages) (vote : Vote) :
    voters earlier vote ⊆ voters messages vote := by
  intro rank hrank
  rw [voters, PoolVote.mem_votersOf] at hrank ⊢
  rcases hrank with ⟨message, hmsg, hmem⟩
  exact ⟨message, (hearlier.sublist.filter _).subset hmsg, hmem⟩

theorem support_run_subset (messages : List (PoolVote σ)) (vote : Vote) :
    support (((State.start maxValidators completed).run store totalStake
      messages).pool.accumulator vote).ranks ⊆ voters messages vote := by
  rw [run_accumulator, start_accumulator]
  calc _ ⊆ support (AggregateAccumulator.new maxValidators : AggregateAccumulator σ).ranks ∪
        voters messages vote := support_addPoolVotes_subset _
    _ = voters messages vote := by simp

theorem encodable_run (hparts : DisjointPartitions messages)
    (hcancel : NeverCancels store totalStake (State.start maxValidators completed) messages)
    (hearlier : earlier <+: messages) :
    ((State.start maxValidators completed).run store totalStake earlier).pool.Encodable where
  length vote := by
    rw [run_accumulator, length_addPoolVotes, run_maxValidators, start_accumulator]
    exact List.length_replicate
  disjoint certType primary fallback hsrcs := by
    apply disjoint_of_subset_left
      ((support_run_subset earlier primary).trans (voters_mono hearlier primary))
    apply disjoint_of_subset_right
      ((support_run_subset earlier fallback).trans (voters_mono hearlier fallback))
    exact hparts certType primary fallback hsrcs
  signature := hcancel earlier hearlier

theorem settled_run (hencode : store.Encodes maxValidators) (htotal : totalStake ≤ u64Max)
    (hparts : DisjointPartitions messages)
    (hcancel : NeverCancels store totalStake (State.start maxValidators completed) messages)
    (hearlier : earlier <+: messages) :
    let state := (State.start maxValidators completed).run store totalStake earlier
    ∀ certType, Settled totalStake state.pool state.completed certType := by
  induction earlier using List.reverseRecOn with
  | nil =>
    intro state certType hreach
    have hzero : state.pool.sourceStake certType = 0 := by
      apply List.sum_eq_zero
      intro stake hstake
      rcases List.mem_map.mp hstake with ⟨vote, _, rfl⟩
      rfl
    rw [hzero] at hreach
    exact absurd hreach certType.threshold_pos
  | append_singleton earlier message ih =>
    have hprev : earlier <+: messages := (List.prefix_append _ _).trans hearlier
    have hpool := encodable_run hparts hcancel hearlier
    rw [run_append] at hpool
    simp only [run_append]
    apply settled_step _ htotal hpool (ih hprev)
    rw [run_maxValidators]
    exact hencode

/-- The certificates which a vote pool produces have the stake they need, and none which
has it is missing. -/
theorem certificates_sound_and_complete (hencode : store.Encodes maxValidators)
    (htotal : totalStake ≤ u64Max) (hpartitions : DisjointPartitions messages)
    (hcancel : NeverCancels store totalStake (State.start maxValidators completed) messages)
    {earlier : List (PoolVote σ)} (hearlier : earlier <+: messages) :
    let state := (State.start maxValidators completed).run store totalStake earlier
    (∀ message cert, earlier ++ [message] <+: messages →
      produced store totalStake state message = some cert →
        cert.certType.threshold ≤
          ⟨(state.step store totalStake message).pool.sourceStake cert.certType, totalStake⟩) ∧
    (∀ certType, Settled totalStake state.pool state.completed certType) ∧
    (∀ (stakeOf : ℕ → ℕ) (signatureOf : Vote → ℕ → σ),
      ∑ rank ∈ range maxValidators, stakeOf rank ≤ u64Max →
      Genuine stakeOf signatureOf maxValidators messages →
      DisjointAggregates messages → NoEcho messages →
        ∀ vote, state.pool.stake vote = ∑ rank ∈ voters earlier vote, stakeOf rank) := by
  refine ⟨?_, settled_run hencode htotal hpartitions hcancel hearlier, ?_⟩
  · intro message cert hnext hproduced
    have hpool := encodable_run hpartitions hcancel hnext
    rw [run_append] at hpool
    have hencode' : store.Encodes ((State.start maxValidators completed).run store totalStake
        earlier).pool.maxValidators := by
      rw [run_maxValidators]
      exact hencode
    rcases step_cases hencode' htotal hpool with ⟨hnone, _⟩ | hproduces
    · rw [hnone] at hproduced
      contradiction
    · exact hproduces.sound cert hproduced
  · intro stakeOf signatureOf hstake hgenuine hdisjoint hecho vote
    have hgenuine' : Genuine stakeOf signatureOf maxValidators earlier :=
      fun message hmessage => hgenuine message (hearlier.subset hmessage)
    rcases counted_run hstake hgenuine' (hdisjoint.sublist hearlier.sublist)
      (hecho.sublist hearlier.sublist) vote with ⟨hcounted, hsupport⟩
    rw [← hsupport]
    exact hcounted.stake

theorem neverCancels_of_genuine {stakeOf : ℕ → ℕ} {signatureOf : Vote → ℕ → σ}
    (hstake : ∑ rank ∈ range maxValidators, stakeOf rank ≤ u64Max)
    (hgenuine : Genuine stakeOf signatureOf maxValidators messages)
    (hdisj : DisjointAggregates messages) (hecho : NoEcho messages)
    (hsum : ∀ vote (ranks : Finset ℕ), ∑ rank ∈ ranks, signatureOf vote rank = 0 → ranks = ∅) :
    NeverCancels store totalStake (State.start maxValidators completed) messages := by
  intro earlier hearlier vote hzero
  have hgenuine' : Genuine stakeOf signatureOf maxValidators earlier :=
    fun message hmsg => hgenuine message (hearlier.subset hmsg)
  rcases counted_run hstake hgenuine' (hdisj.sublist hearlier.sublist)
    (hecho.sublist hearlier.sublist) vote with ⟨hcount, _⟩
  rw [hcount.signature] at hzero
  rw [stake, hcount.stake, hsum vote _ hzero, sum_empty]

def mixedVotes : List (PoolVote ℤ) :=
  [.external ⟨.notarize ⟨1, 7⟩, some 1, 50, [true, false]⟩,
    .own ⟨⟨.notarizeFallback ⟨1, 7⟩, 1, 20⟩, some 1⟩]

def mixedStakes (rank : ℕ) : ℕ := if rank = 0 then 50 else 20

theorem mixedVotes_disjointPartitions : DisjointPartitions mixedVotes := by
  intro certType primary fallback hsrcs
  rw [disjoint_left]
  intro rank hprimary hfall
  rcases PoolVote.mem_votersOf.mp hprimary with ⟨message, hmsg, hrank⟩
  rcases PoolVote.mem_votersOf.mp hfall with ⟨message', hmsg', hrank'⟩
  simp only [mixedVotes, List.mem_filter, List.mem_cons, List.not_mem_nil, or_false,
    decide_eq_true_eq] at hmsg hmsg'
  rcases hmsg with ⟨rfl | rfl, rfl⟩ <;> rcases hmsg' with ⟨rfl | rfl, rfl⟩
  · cases certType <;> simp [PoolVote.vote] at hsrcs
  · rw [PoolVote.voters, mem_singleton] at hrank'
    subst hrank'
    exact absurd hrank (by decide)
  · cases certType <;> simp [PoolVote.vote] at hsrcs
  · cases certType <;> simp [PoolVote.vote] at hsrcs

/-- The two votes complete the fallback certificate with 70 out of 100. -/
theorem certificates_sound_and_complete_mixed :
    mixedVotes <+: mixedVotes ∧
      ∀ certType, Settled 100 ((State.start 2 .empty).run .bytewise 100 mixedVotes).pool
        ((State.start 2 .empty).run .bytewise 100 mixedVotes).completed certType := by
  have hgenuine : Genuine mixedStakes (fun _ _ => (1 : ℤ)) 2 mixedVotes := by
    intro message hmessage
    simp only [mixedVotes, List.mem_cons, List.not_mem_nil, or_false] at hmessage
    rcases hmessage with rfl | rfl
    · exact ⟨rfl, by decide, by decide⟩
    · exact ⟨by decide, by decide, rfl⟩
  have hdisjoint : DisjointAggregates mixedVotes := by
    simp [DisjointAggregates, mixedVotes, PoolVote.vote]
  have hecho : NoEcho mixedVotes := by
    simp [NoEcho, mixedVotes, PoolVote.vote]
  have hsum : ∀ (vote : Vote) (ranks : Finset ℕ), ∑ rank ∈ ranks, (1 : ℤ) = 0 → ranks = ∅ := by
    intro _ ranks h
    simpa using h
  have hcancel : NeverCancels .bytewise 100 (State.start 2 .empty) mixedVotes :=
    neverCancels_of_genuine (by decide) hgenuine hdisjoint hecho hsum
  have hresult := certificates_sound_and_complete (SignerStore.bytewise_encodes 2)
    (by decide) mixedVotes_disjointPartitions hcancel (List.prefix_refl mixedVotes)
  exact ⟨List.prefix_refl _, hresult.2.1⟩

end RakuraiValidator.Votor.VotePool
