import RakuraiValidator.VotorCertificates

/-!
# The vote pool of a slot

`VotePool` keeps one accumulator for each vote and builds at most one certificate
for each added vote.  The results are about whole runs: what an accumulator has
counted, and which certificates are completed after every call.
-/

namespace RakuraiValidator.Votor

open Bitmap AggregateAccumulator PoolVote Finset

structure VotePool (σ : Type) where
  maxValidators : ℕ
  accumulators : Vote → Option (AggregateAccumulator σ)

abbrev CompletedCerts (σ : Type) := BTreeMap CertificateType (Certificate σ)

def CompletedCerts.record {σ : Type} (completed : CompletedCerts σ) :
    Option (Certificate σ) → CompletedCerts σ
  | some cert => (completed.insert cert.certType cert).2
  | none => completed

theorem CompletedCerts.containsKey_record {σ : Type} (completed : CompletedCerts σ)
    (cert? : Option (Certificate σ)) (certType : CertificateType) :
    (completed.record cert?).containsKey certType = true ↔
      completed.containsKey certType = true ∨ ∃ cert ∈ cert?, cert.certType = certType := by
  cases cert? with
  | none => simp [record]
  | some cert =>
    have hmem : (∃ other ∈ some cert, other.certType = certType) ↔ certType = cert.certType := by
      simp [eq_comm]
    rw [record, BTreeMap.containsKey_insert, hmem, or_comm]

variable (other : Vote)

namespace VotePool

variable {σ : Type} [AddCommGroup σ]

def new (maxValidators : ℕ) : VotePool σ := ⟨maxValidators, fun _ => none⟩

def setAccumulator (pool : VotePool σ) (vote : Vote) (acc : AggregateAccumulator σ) : VotePool σ :=
  { pool with accumulators := Function.update pool.accumulators vote (some acc) }

def accumulator (pool : VotePool σ) (vote : Vote) : AggregateAccumulator σ :=
  (pool.accumulators vote).getD (.new pool.maxValidators)

variable {pool : VotePool σ} {vote : Vote}

section Accumulators

theorem accumulator_setAccumulator (acc : AggregateAccumulator σ) :
    (pool.setAccumulator vote acc).accumulator other =
      if other = vote then acc else pool.accumulator other := by
  by_cases h : other = vote
  · subst h
    simp [accumulator, setAccumulator]
  · simp [accumulator, setAccumulator, h]

theorem accumulator_eq {acc : AggregateAccumulator σ} (h : pool.accumulators vote = some acc) :
    pool.accumulator vote = acc := by
  simp [accumulator, h]

end Accumulators

variable [DecidableEq σ] (store : SignerStore) (totalStake : ℕ+)

def tryProduceCert (pool : VotePool σ) (vote : Vote) (completed : CompletedCerts σ)
    (acc : AggregateAccumulator σ) :
    Except AggregateAccumulatorError (Option (Certificate σ)) :=
  match vote with
  | .notarize block =>
    if completed.containsKey (.finalizeFast block) then .ok none
    else do
      match ← acc.tryBuildBase2Cert store (.finalizeFast block) totalStake with
      | some cert => .ok (some cert)
      | none =>
        if completed.containsKey (.notarize block) then .ok none
        else
          match ← acc.tryBuildBase2Cert store (.notarize block) totalStake with
          | some cert => .ok (some cert)
          | none =>
            if completed.containsKey (.notarizeFallback block) then .ok none
            else
              match pool.accumulators (.notarizeFallback block) with
              | none => .ok none
              | some fallback =>
                tryBuildBase3Cert store (.notarizeFallback block) totalStake (some acc) fallback
  | .notarizeFallback block =>
    if completed.containsKey (.finalizeFast block) ||
        completed.containsKey (.notarize block) ||
        completed.containsKey (.notarizeFallback block) then .ok none
    else
      tryBuildBase3Cert store (.notarizeFallback block) totalStake
        (pool.accumulators (.notarize block)) acc
  | .finalize slot =>
    if completed.containsKey (.finalize slot) then .ok none
    else acc.tryBuildBase2Cert store (.finalize slot) totalStake
  | .skip slot =>
    if completed.containsKey (.skip slot) then .ok none
    else
      match pool.accumulators (.skipFallback slot) with
      | none => acc.tryBuildBase2Cert store (.skip slot) totalStake
      | some fallback =>
        tryBuildBase3Cert store (.skip slot) totalStake (some acc) fallback
  | .skipFallback slot =>
    if completed.containsKey (.skip slot) then .ok none
    else
      tryBuildBase3Cert store (.skip slot) totalStake (pool.accumulators (.skip slot)) acc
  | .genesis block =>
    if completed.containsKey (.genesis block) then .ok none
    else acc.tryBuildBase2Cert store (.genesis block) totalStake

/-- A new accumulator stays in the pool also when the vote is refused, and a vote
stays counted when its certificate cannot be encoded. -/
def addPoolVote (pool : VotePool σ) (message : PoolVote σ) (completed : CompletedCerts σ) :
    VotePool σ × Except AggregateAccumulatorError (ℕ × Option (Certificate σ)) :=
  let acc := pool.accumulator message.vote
  match acc.addPoolVote message with
  | .error error => (pool.setAccumulator message.vote acc, .error error)
  | .ok acc =>
    let pool := pool.setAccumulator message.vote acc
    (pool, do
      let cert ← pool.tryProduceCert store totalStake message.vote completed acc
      .ok (acc.stake, cert))

/-! ## Runs -/

structure State (σ : Type) where
  pool : VotePool σ
  completed : CompletedCerts σ

def produced (state : State σ) (message : PoolVote σ) : Option (Certificate σ) :=
  match (state.pool.addPoolVote store totalStake message state.completed).2 with
  | .ok (_, cert) => cert
  | .error _ => none

def State.step (state : State σ) (message : PoolVote σ) : State σ where
  pool := (state.pool.addPoolVote store totalStake message state.completed).1
  completed := state.completed.record (produced store totalStake state message)

def State.run (state : State σ) (messages : List (PoolVote σ)) : State σ :=
  messages.foldl (State.step store totalStake) state

def State.start (maxValidators : ℕ) (completed : CompletedCerts σ) : State σ :=
  ⟨.new maxValidators, completed⟩

variable {store totalStake} {state : State σ} {message : PoolVote σ} {completed : CompletedCerts σ}

theorem addPoolVote_fst :
    (pool.addPoolVote store totalStake message completed).1 =
      pool.setAccumulator message.vote ((pool.accumulator message.vote).step message) := by
  simp only [addPoolVote, step]
  cases (pool.accumulator message.vote).addPoolVote message <;> rfl

theorem addPoolVote_stake {stake : ℕ} {cert : Option (Certificate σ)}
    (h : (pool.addPoolVote store totalStake message completed).2 = .ok (stake, cert)) :
    stake = ((pool.accumulator message.vote).step message).stake := by
  simp only [addPoolVote] at h
  unfold step
  cases hadd : (pool.accumulator message.vote).addPoolVote message with
  | error error =>
    rw [hadd] at h
    cases h
  | ok acc =>
    simp only [hadd] at h
    generalize tryProduceCert store totalStake _ message.vote completed acc = produced at h
    cases produced with
    | error error => cases h
    | ok cert =>
      cases h
      rfl

theorem step_pool :
    (state.step store totalStake message).pool =
      state.pool.setAccumulator message.vote ((state.pool.accumulator message.vote).step message) :=
  addPoolVote_fst

theorem step_accumulator :
    (state.step store totalStake message).pool.accumulator other =
      if message.vote = other then (state.pool.accumulator other).step message
      else state.pool.accumulator other := by
  rw [step_pool, accumulator_setAccumulator]
  by_cases h : message.vote = other
  · subst h
    simp
  · simp [h, Ne.symm h]

theorem run_accumulator (messages : List (PoolVote σ)) (vote : Vote) :
    (state.run store totalStake messages).pool.accumulator vote =
      (state.pool.accumulator vote).addPoolVotes
        (messages.filter (fun message => message.vote = vote)) := by
  induction messages generalizing state with
  | nil => rfl
  | cons message messages ih =>
    rw [State.run, List.foldl_cons, ← State.run, ih, step_accumulator]
    by_cases h : message.vote = vote
    · simp [h, addPoolVotes]
    · simp [h]

omit [DecidableEq σ] in
@[simp] theorem start_accumulator (maxValidators : ℕ) (completed : CompletedCerts σ) :
    (State.start maxValidators completed).pool.accumulator vote = .new maxValidators := rfl

/-! ## Counting -/

section Counting

variable {stakeOf : ℕ → ℕ} {signatureOf : Vote → ℕ → σ} {maxValidators : ℕ}
  {messages : List (PoolVote σ)}

/-- Every message carries the stakes and the signatures of its ranks. -/
def Genuine (stakeOf : ℕ → ℕ) (signatureOf : Vote → ℕ → σ) (maxValidators : ℕ)
    (messages : List (PoolVote σ)) : Prop :=
  ∀ message ∈ messages, message.Genuine stakeOf (signatureOf message.vote) maxValidators

def DisjointAggregates (messages : List (PoolVote σ)) : Prop :=
  messages.Pairwise (fun earlier later => earlier.vote = later.vote →
    earlier.isExternal = true → later.isExternal = true → Disjoint earlier.voters later.voters)

/-- No aggregate has the rank of an own message of the same vote before it. -/
def NoEcho (messages : List (PoolVote σ)) : Prop :=
  messages.Pairwise (fun earlier later => earlier.vote = later.vote →
    earlier.isExternal = false → later.isExternal = true → Disjoint earlier.voters later.voters)

def voters (messages : List (PoolVote σ)) (vote : Vote) : Finset ℕ :=
  votersOf (messages.filter (fun message => message.vote = vote))

theorem counted_run (hstake : ∑ rank ∈ range maxValidators, stakeOf rank ≤ u64Max)
    (hgenuine : Genuine stakeOf signatureOf maxValidators messages)
    (hdisj : DisjointAggregates messages) (hecho : NoEcho messages) (vote : Vote) :
    let acc := ((State.start maxValidators completed).run store totalStake
      messages).pool.accumulator vote
    acc.Counted stakeOf (signatureOf vote) maxValidators ∧
      support acc.ranks = voters messages vote := by
  dsimp only
  rw [run_accumulator, start_accumulator]
  have hempty : support (AggregateAccumulator.new maxValidators : AggregateAccumulator σ).ranks =
      ∅ := by
    simp [AggregateAccumulator.new]
  have hvoters : voters messages vote =
      support (AggregateAccumulator.new maxValidators : AggregateAccumulator σ).ranks ∪
        votersOf (messages.filter (fun message => message.vote = vote)) := by
    rw [hempty, empty_union, voters]
  rw [hvoters]
  apply AggregateAccumulator.counted_new.addPoolVotes hstake
  · intro message hmsg
    rw [List.mem_filter, decide_eq_true_eq] at hmsg
    rw [← hmsg.2]
    exact hgenuine message hmsg.1
  · intro message _ _
    rw [hempty]
    exact disjoint_empty_left _
  · rw [List.pairwise_filter]
    apply (hdisj.and hecho).imp
    intro earlier later h hearlier hlater hext
    have hsame : earlier.vote = later.vote := by
      rw [of_decide_eq_true hearlier, of_decide_eq_true hlater]
    cases hkind : earlier.isExternal with
    | true => exact h.1 hsame hkind hext
    | false => exact h.2 hsame hkind hext

/-- Without an echo of an own message, the accumulator of a vote has the stake and one
signature of each of its ranks. -/
theorem stake_counted_once (hstake : ∑ rank ∈ range maxValidators, stakeOf rank ≤ u64Max)
    (hgenuine : Genuine stakeOf signatureOf maxValidators messages)
    (hdisjoint : DisjointAggregates messages) (hecho : NoEcho messages)
    {vote : Vote} {acc : AggregateAccumulator σ}
    (hacc : ((State.start maxValidators completed).run store totalStake messages).pool.accumulators
      vote = some acc) :
    acc.stake = ∑ rank ∈ support acc.ranks, stakeOf rank ∧
      acc.signature = ∑ rank ∈ support acc.ranks, signatureOf vote rank := by
  have hcounted : acc.Counted stakeOf (signatureOf vote) maxValidators := by
    rw [← accumulator_eq hacc]
    exact (counted_run hstake hgenuine hdisjoint hecho vote).1
  exact ⟨hcounted.stake, hcounted.signature⟩

/-- Own messages which come back, after and before the aggregate with their rank. -/
def repeatedVotes : List (PoolVote ℤ) :=
  [.own ⟨⟨.skip 1, 0, 10⟩, some 1⟩, .external ⟨.skip 1, some 1, 10, [false, true]⟩,
    .own ⟨⟨.skip 1, 1, 10⟩, some 1⟩, .own ⟨⟨.skip 1, 0, 10⟩, some 1⟩]

theorem stake_counted_once_repeated :
    ((State.start 2 .empty).run .bytewise 20 repeatedVotes).pool.accumulators (.skip 1) =
      some ⟨[true, true], 2, 20⟩ ∧
    (20 : ℕ) = ∑ _rank ∈ support [true, true], 10 ∧
      (2 : ℤ) = ∑ _rank ∈ support [true, true], 1 := by
  have hrun : ((State.start 2 .empty).run .bytewise 20 repeatedVotes).pool.accumulators (.skip 1) =
      some ⟨[true, true], 2, 20⟩ := by decide +kernel
  have hgenuine : Genuine (fun _ => 10) (fun _ _ => (1 : ℤ)) 2 repeatedVotes := by
    intro message hmessage
    simp only [repeatedVotes, List.mem_cons, List.not_mem_nil, or_false] at hmessage
    rcases hmessage with rfl | rfl | rfl | rfl
    · exact ⟨by decide, rfl, rfl⟩
    · exact ⟨rfl, by decide, by decide⟩
    · exact ⟨by decide, rfl, rfl⟩
    · exact ⟨by decide, rfl, rfl⟩
  have hdisjoint : DisjointAggregates repeatedVotes := by
    simp [DisjointAggregates, repeatedVotes, isExternal]
  have hecho : NoEcho repeatedVotes := by
    simp [NoEcho, repeatedVotes, isExternal, PoolVote.voters, isSet]
  exact ⟨hrun, stake_counted_once (by decide) hgenuine hdisjoint hecho hrun⟩

/-- An own message and then the aggregate of a network echo with its rank. -/
def echoedVotes : List (PoolVote ℤ) :=
  [.own ⟨⟨.skip 1, 0, 10⟩, some 1⟩, .external ⟨.skip 1, some 1, 10, [true, false]⟩]

/-- The aggregate adds its stake and its signature for a rank which is set already. -/
theorem echo_counted_twice :
    Genuine (fun _ => 10) (fun _ _ => (1 : ℤ)) 2 echoedVotes ∧ DisjointAggregates echoedVotes ∧
    ∃ acc, ((State.start 2 .empty).run .bytewise 20 echoedVotes).pool.accumulators (.skip 1) =
        some acc ∧
      acc.stake ≠ ∑ _rank ∈ support acc.ranks, 10 ∧
      acc.signature ≠ ∑ _rank ∈ support acc.ranks, 1 := by
  refine ⟨?_, ?_, ⟨[true, false], 2, 20⟩, by decide +kernel, by decide, by decide⟩
  · intro message hmessage
    simp only [echoedVotes, List.mem_cons, List.not_mem_nil, or_false] at hmessage
    rcases hmessage with rfl | rfl
    · exact ⟨by decide, rfl, rfl⟩
    · exact ⟨rfl, by decide, by decide⟩
  · simp [DisjointAggregates, echoedVotes, isExternal]

end Counting

end VotePool

end RakuraiValidator.Votor
