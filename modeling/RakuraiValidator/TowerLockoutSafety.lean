import RakuraiValidator.TowerVoteState

/-!
# Lockout safety of the local tower

A tower which only records votes that are not locked out stays on one chain of blocks.
It leaves the fork of a vote only when the lockout of the vote has expired.
-/

namespace RakuraiValidator.Consensus

open Vote LockoutEntry BlockTree List

attribute [local simp] Except.toOption Except.bind Except.pure

/-! ## A vote of the tower -/

namespace TowerVoteState

variable [VoteInterface] {state : TowerVoteState} {nextVoteSlot : ℕ}

section

variable (hnew : ∀ last ∈ state.lastVotedSlot, last < nextVoteSlot)

include hnew

omit [VoteInterface] in
theorem not_any_le : ¬ state.lastVotedSlot.any (nextVoteSlot ≤ ·) = true := by
  rw [Option.any_eq_true]
  intro hold
  rcases hold with ⟨last, hlast, hle⟩
  exact absurd (hnew last hlast) (not_lt.mpr (of_decide_eq_true hle))

theorem exists_processNextVoteSlot :
    ∃ rooted kept expired, Splits state.votes nextVoteSlot rooted kept expired ∧
      state.processNextVoteSlot nextVoteSlot =
        ⟨doubleLockouts (kept ++ [.new nextVoteSlot]),
          (rooted.map Lockout.slot).or state.rootSlot⟩ := by
  rcases exists_splits state.votes nextVoteSlot with
    ⟨rooted, kept, expired, hsplits, hpop⟩
  refine ⟨rooted, kept, expired, hsplits, ?_⟩
  rw [processNextVoteSlot, if_neg (not_any_le hnew)]
  simp only [hpop]
  cases rooted with
  | none =>
    have hshort : kept.length ≠ maxLockoutHistory := by simpa using hsplits.rooted
    cases kept with
    | nil => rfl
    | cons oldest kept =>
      rw [length_cons] at hshort
      simp [hshort]
  | some oldest =>
    have hfull : (oldest :: kept).length = maxLockoutHistory := by simpa using hsplits.rooted
    simp [hfull]

end

@[simp] theorem tower_doubleLockouts (votes : List Lockout) (root : Option ℕ) :
    (⟨doubleLockouts votes, root⟩ : TowerVoteState).tower = votes.map Lockout.slot :=
  map_slot_doubleLockouts

omit [VoteInterface] in
theorem lastVotedSlot_eq : state.lastVotedSlot = state.tower.getLast? := by
  rw [lastVotedSlot, tower, getLast?_map]

end TowerVoteState

/-! ## Runs -/

structure BankVote where
  slot : ℕ
  hash : ℕ
  blockId : ℕ
deriving DecidableEq

variable {ancestors : Finset ℕ}

namespace Tower

section

variable [VoteInterface] {tree : BlockTree} {start tower : Tower} {root slot : ℕ} {vote : BankVote}
  {votes past future : List BankVote}

def recordBankVotes (start : Tower) (votes : List BankVote) : Except TowerPanic Tower :=
  votes.foldlM (fun tower vote => do
    let (recorded, _) ←
      tower.recordBankVoteAndUpdateLockouts vote.slot vote.hash vote.blockId
    pure recorded) start

def Guarded (tree : BlockTree) (start : Tower) (votes : List BankVote) : Prop :=
  ∀ past vote future, votes = past ++ vote :: future →
    ∀ tower, recordBankVotes start past = .ok tower →
      tower.isLockedOut vote.slot (tree.ancestors vote.slot) = .ok false

def held (tower : Tower) (slot : ℕ) : Option Lockout :=
  tower.voteState.votes.find? (fun lockout => lockout.slot = slot)

def lastHeld (start : Tower) (votes : List BankVote) (slot : ℕ) : Option Lockout :=
  votes.inits.reverse.findSome? (fun past =>
    (recordBankVotes start past).toOption.bind (held · slot))

theorem lastHeld_concat (h : recordBankVotes start (votes ++ [vote]) = .ok tower) :
    lastHeld start (votes ++ [vote]) slot = (tower.held slot).or (lastHeld start votes slot) := by
  have hinits : (votes ++ [vote]).inits.reverse = (votes ++ [vote]) :: votes.inits.reverse := by
    simp [inits_append]
  rw [lastHeld, hinits, findSome?_cons, h]
  cases hheld : tower.held slot with
  | none => simp [lastHeld, hheld]
  | some lockout => simp [hheld]

theorem Guarded.of_append (h : Guarded tree start (past ++ future)) : Guarded tree start past := by
  intro before vote after hsplit
  apply h before vote (after ++ future)
  rw [hsplit, append_assoc, cons_append]

/-! ## The check before a vote -/

omit [VoteInterface] in
theorem isRecent_eq_true (hroot : tower.voteState.rootSlot = some root) :
    tower.isRecent slot = true ↔
      (∀ last ∈ tower.voteState.lastVotedSlot, last < slot) ∧
        (tower.voteState.lastVotedSlot = none → root < slot) := by
  rw [isRecent, hroot]
  cases tower.voteState.lastVotedSlot with
  | none => simp
  | some last => simp

theorem isLockedOut_eq_false :
    tower.isLockedOut slot ancestors = .ok false ↔
      tower.isRecent slot = true ∧
      (∀ other ∈ (tower.voteState.processNextVoteSlot slot).tower,
        slot = other ∨ other ∈ ancestors) ∧
      ∀ root ∈ (tower.voteState.processNextVoteSlot slot).rootSlot,
        slot = root ∨ root ∈ ancestors := by
  rw [isLockedOut]
  cases hrecent : tower.isRecent slot with
  | false => simp
  | true =>
    generalize tower.voteState.processNextVoteSlot slot = next
    simp only [Bool.not_true, Bool.false_eq_true, if_false, true_and,
      TowerVoteState.tower, forall_mem_map]
    by_cases hvotes : next.votes.any (fun vote => slot ≠ vote.slot ∧ vote.slot ∉ ancestors) = true
    · rw [if_pos hvotes]
      rcases any_eq_true.mp hvotes with ⟨vote, hmem, hother⟩
      have hother := of_decide_eq_true hother
      constructor
      · intro h
        cases h
      · intro h
        rcases h.1 vote hmem with heq | hanc
        · exact absurd heq hother.1
        · exact absurd hanc hother.2
    · rw [if_neg hvotes]
      have hvotes : ∀ vote ∈ next.votes, slot = vote.slot ∨ vote.slot ∈ ancestors := by
        simpa [or_iff_not_imp_left] using hvotes
      cases hroot : next.rootSlot with
      | none => simpa using hvotes
      | some root =>
        by_cases hanc : slot = root ∨ root ∈ ancestors
        · simp only [Option.any_some]
          rw [if_neg (by simpa [or_iff_not_imp_left] using hanc)]
          simpa using ⟨hvotes, hanc⟩
        · simp only [Option.any_some]
          rw [if_pos (by simpa [not_or] using hanc)]
          simp [hanc]

theorem exists_isLockedOut
    (h : tower.isRecent slot = true → (∀ other ∈ (tower.voteState.processNextVoteSlot slot).tower,
      slot = other ∨ other ∈ ancestors) → ∀ root ∈
      (tower.voteState.processNextVoteSlot slot).rootSlot, slot = root ∨ root ∈ ancestors) :
    ∃ locked, tower.isLockedOut slot ancestors = .ok locked := by
  by_cases hrecent : tower.isRecent slot = true
  · by_cases hvotes : ∀ other ∈ (tower.voteState.processNextVoteSlot slot).tower,
        slot = other ∨ other ∈ ancestors
    · exact ⟨false, isLockedOut_eq_false.mpr ⟨hrecent, hvotes, h hrecent hvotes⟩⟩
    · refine ⟨true, ?_⟩
      rw [isLockedOut, if_neg (by simp [hrecent]), if_pos]
      simpa [TowerVoteState.tower, not_or] using hvotes
  · refine ⟨true, ?_⟩
    rw [isLockedOut, if_pos (by simpa using hrecent)]

/-! ## One vote -/

/-- The votes and the root of the tower are one chain which ends at the last vote.  A
vote which has left the tower is on the chain of the root or has expired. -/
structure LockoutInvariant (tree : BlockTree) (start : Tower) (votes : List BankVote)
    (tower : Tower) (root : ℕ) : Prop where
  rootSlot : tower.voteState.rootSlot = some root
  chain : (root :: tower.voteState.tower).Pairwise (fun older newer => older ∈ tree.ancestors newer)
  last : tower.voteState.lastVotedSlot = votes.getLast?.map BankVote.slot
  recorded : ∀ slot ∈ tower.voteState.tower, slot ∈ votes.map BankVote.slot
  left : ∀ vote ∈ votes, ∃ lockout, lastHeld start votes vote.slot = some lockout ∧
    (lockout ∈ tower.voteState.votes ∧ lockout.slot = vote.slot ∨
      vote.slot = root ∨ vote.slot ∈ tree.ancestors root ∨
      ∃ last ∈ tower.voteState.lastVotedSlot, lockout.lastLockedOutSlot < last)

namespace LockoutInvariant

variable {rooted : Option Lockout} {kept expired : List Lockout}

theorem of_start (hvotes : start.voteState.votes = [])
    (hroot : start.voteState.rootSlot = some root) :
    LockoutInvariant tree start [] start root where
  rootSlot := hroot
  chain := by simp [TowerVoteState.tower, hvotes]
  last := by simp [TowerVoteState.lastVotedSlot, hvotes]
  recorded := by simp [TowerVoteState.tower, hvotes]
  left := by simp

theorem lt_of_isRecent (hinv : LockoutInvariant tree start votes tower root)
    (hrecent : tower.isRecent slot = true) :
    ∀ other ∈ root :: tower.voteState.tower, other < slot := by
  have hbounds := (isRecent_eq_true hinv.rootSlot).mp hrecent
  have hchain := hinv.chain
  rw [TowerVoteState.lastVotedSlot_eq] at hbounds
  intro other hother
  cases hlast : tower.voteState.tower.getLast? with
  | none =>
    rw [getLast?_eq_none_iff.mp hlast, mem_singleton] at hother
    rw [hother]
    exact hbounds.2 hlast
  | some last =>
    have hlt := hbounds.1 last hlast
    rcases getLast?_eq_some_iff.mp hlast with ⟨older, htower⟩
    rw [htower, ← cons_append] at hother hchain
    rcases mem_append.mp hother with hold | hnew
    · have hanc := (pairwise_append.mp hchain).2.2 other hold last (by simp)
      exact (lt_of_mem_ancestors hanc).trans hlt
    · rw [mem_singleton.mp hnew]
      exact hlt

theorem slot_mem_tower (hsplits : Splits tower.voteState.votes slot rooted kept expired)
    {lockout : Lockout} (hmem : lockout ∈ rooted.toList ++ kept) :
    lockout.slot ∈ tower.voteState.tower := by
  apply mem_map_of_mem
  rw [hsplits.votes, ← append_assoc]
  exact mem_append_left expired hmem

theorem sublist_chain (root : ℕ) (hsplits : Splits tower.voteState.votes slot rooted kept expired) :
    ((rooted.map Lockout.slot).getD root :: kept.map Lockout.slot).Sublist
      (root :: tower.voteState.tower) := by
  rw [TowerVoteState.tower, hsplits.votes]
  cases rooted with
  | none => simp
  | some oldest => simp

structure Allowed (tree : BlockTree) (tower : Tower) (root slot : ℕ) (rooted : Option Lockout)
    (kept expired : List Lockout) : Prop where
  splits : Splits tower.voteState.votes slot rooted kept expired
  next : tower.voteState.processNextVoteSlot slot =
    ⟨doubleLockouts (kept ++ [.new slot]), some ((rooted.map Lockout.slot).getD root)⟩
  newer : ∀ last ∈ tower.voteState.lastVotedSlot, last < slot
  kept : ∀ vote ∈ kept, vote.slot ∈ tree.ancestors slot
  root : (rooted.map Lockout.slot).getD root ∈ tree.ancestors slot

theorem Allowed.tower_next (hallowed : Allowed tree tower root slot rooted kept expired) :
    (tower.voteState.processNextVoteSlot slot).tower = kept.map Lockout.slot ++ [slot] := by
  rw [hallowed.next, TowerVoteState.tower_doubleLockouts, map_append]
  rfl

variable (hinv : LockoutInvariant tree start votes tower root)

include hinv

theorem exists_next (hrecent : tower.isRecent slot = true) :
    ∃ rooted kept expired, Splits tower.voteState.votes slot rooted kept expired ∧
      tower.voteState.processNextVoteSlot slot =
        ⟨doubleLockouts (kept ++ [.new slot]), some ((rooted.map Lockout.slot).getD root)⟩ := by
  have hnewer := ((isRecent_eq_true hinv.rootSlot).mp hrecent).1
  rcases TowerVoteState.exists_processNextVoteSlot hnewer with
    ⟨rooted, kept, expired, hsplits, hnext⟩
  refine ⟨rooted, kept, expired, hsplits, ?_⟩
  rw [hnext, hinv.rootSlot]
  cases rooted with
  | none => rfl
  | some oldest => rfl

theorem exists_allowed (hguard : tower.isLockedOut slot (tree.ancestors slot) = .ok false) :
    ∃ rooted kept expired, Allowed tree tower root slot rooted kept expired := by
  rcases isLockedOut_eq_false.mp hguard with ⟨hrecent, hvotes, hroot⟩
  rcases hinv.exists_next hrecent with ⟨rooted, kept, expired, hsplits, hnext⟩
  have hlt := hinv.lt_of_isRecent hrecent
  have hsub := sublist_chain root hsplits
  rw [hnext] at hvotes hroot
  refine ⟨rooted, kept, expired, hsplits, hnext,
    ((isRecent_eq_true hinv.rootSlot).mp hrecent).1, ?_, ?_⟩
  · intro vote hvote
    have hslot := hlt vote.slot (hsub.mem (mem_cons_of_mem _ (mem_map_of_mem hvote)))
    rcases hvotes vote.slot (by simpa using .inl ⟨vote, hvote, rfl⟩) with heq | hanc
    · exact absurd heq hslot.ne'
    · exact hanc
  · have hslot := hlt _ (hsub.mem mem_cons_self)
    rcases hroot _ rfl with heq | hanc
    · exact absurd heq hslot.ne'
    · exact hanc

theorem chain_next (hallowed : Allowed tree tower root slot rooted kept expired) :
    ((rooted.map Lockout.slot).getD root :: (kept.map Lockout.slot ++ [slot])).Pairwise
      (fun older newer => older ∈ tree.ancestors newer) := by
  rw [← cons_append, pairwise_append]
  refine ⟨hinv.chain.sublist (sublist_chain root hallowed.splits), pairwise_singleton _ _, ?_⟩
  intro older holder newer hnewer
  rw [mem_singleton.mp hnewer]
  rcases mem_cons.mp holder with heq | hkept
  · rw [heq]
    exact hallowed.root
  · rcases mem_map.mp hkept with ⟨vote, hvote, hslot⟩
    rw [← hslot]
    exact hallowed.kept vote hvote

theorem root_next (hsplits : Splits tower.voteState.votes slot rooted kept expired) :
    (rooted.map Lockout.slot).getD root = root ∨
      (rooted.map Lockout.slot).getD root ∈ votes.map BankVote.slot ∧
        root ∈ tree.ancestors ((rooted.map Lockout.slot).getD root) := by
  cases rooted with
  | none => exact .inl rfl
  | some oldest =>
    have hmem : oldest.slot ∈ tower.voteState.tower := slot_mem_tower hsplits (by simp)
    exact .inr ⟨hinv.recorded _ hmem, (pairwise_cons.mp hinv.chain).1 _ hmem⟩

theorem locked (hallowed : Allowed tree tower root slot rooted kept expired)
    (hvote : vote ∈ votes) :
    ∃ lockout, lastHeld start votes vote.slot = some lockout ∧
      (vote.slot ∈ tree.ancestors slot ∨ lockout.lastLockedOutSlot < slot) := by
  rcases hinv.left vote hvote with ⟨lockout, hheld, hcases⟩
  refine ⟨lockout, hheld, ?_⟩
  have hroot : root ∈ tree.ancestors slot := by
    rcases hinv.root_next hallowed.splits with heq | hmoved
    · rw [← heq]
      exact hallowed.root
    · exact mem_ancestors_trans hmoved.2 hallowed.root
  rcases hcases with ⟨hmem, hslot⟩ | heq | hanc | ⟨last, hlast, hexp⟩
  · rw [hallowed.splits.votes] at hmem
    rw [← hslot]
    rcases mem_append.mp hmem with hrooted | hmem
    · left
      have hroot := hallowed.root
      rw [Option.mem_toList.mp hrooted] at hroot
      exact hroot
    · rcases mem_append.mp hmem with hkept | hexp
      · exact .inl (hallowed.kept lockout hkept)
      · exact .inr (hallowed.splits.expired lockout hexp)
  · rw [heq]
    exact .inl hroot
  · exact .inl (mem_ancestors_trans hanc hroot)
  · exact .inr (hexp.trans (hallowed.newer last hlast))

section

variable (hallowed : Allowed tree tower root vote.slot rooted kept expired)

include hallowed

theorem left_next {recorded : Tower} (hrun : recordBankVotes start (votes ++ [vote]) = .ok recorded)
    (hstate : recorded.voteState = tower.voteState.processNextVoteSlot vote.slot) :
    ∀ old ∈ votes ++ [vote], ∃ lockout, lastHeld start (votes ++ [vote]) old.slot = some lockout ∧
      (lockout ∈ recorded.voteState.votes ∧ lockout.slot = old.slot ∨
        old.slot = (rooted.map Lockout.slot).getD root ∨
        old.slot ∈ tree.ancestors ((rooted.map Lockout.slot).getD root) ∨
        ∃ last ∈ recorded.voteState.lastVotedSlot, lockout.lastLockedOutSlot < last) := by
  intro old hold
  rw [lastHeld_concat hrun]
  have htower : recorded.voteState.tower = kept.map Lockout.slot ++ [vote.slot] := by
    rw [hstate, hallowed.tower_next]
  cases hheld : recorded.held old.slot with
  | some lockout =>
    refine ⟨lockout, by simp, .inl ⟨mem_of_find?_eq_some hheld, ?_⟩⟩
    simpa using find?_some hheld
  | none =>
    -- The vote has left the tower, so it was not kept.
    have hnot : old.slot ∉ recorded.voteState.tower := by
      intro hmem
      rcases mem_map.mp hmem with ⟨lockout, hlock, hslot⟩
      exact find?_eq_none.mp hheld lockout hlock (decide_eq_true hslot)
    have hlast : recorded.voteState.lastVotedSlot = some vote.slot := by
      rw [TowerVoteState.lastVotedSlot_eq, htower, getLast?_concat]
    have hne : old ≠ vote := by
      intro heq
      apply hnot
      rw [heq, htower]
      simp
    have hvote : old ∈ votes := by simpa [hne] using hold
    rcases hinv.left old hvote with ⟨lockout, hlock, hcases⟩
    refine ⟨lockout, by simpa using hlock, .inr ?_⟩
    rcases hcases with ⟨hmem, hslot⟩ | hroot | hroot | ⟨last, hmem, hexp⟩
    · rw [hallowed.splits.votes] at hmem
      rcases mem_append.mp hmem with hrooted | hmem
      · left
        rw [Option.mem_toList.mp hrooted, ← hslot]
        rfl
      · rcases mem_append.mp hmem with hkept | hexp
        · exfalso
          apply hnot
          rw [htower, ← hslot]
          exact mem_append_left _ (mem_map_of_mem hkept)
        · exact .inr (.inr ⟨vote.slot, hlast, hallowed.splits.expired lockout hexp⟩)
    · rw [hroot]
      rcases hinv.root_next hallowed.splits with heq | hmoved
      · exact .inl heq.symm
      · exact .inr (.inl hmoved.2)
    · right
      left
      rcases hinv.root_next hallowed.splits with heq | hmoved
      · rw [heq]
        exact hroot
      · exact mem_ancestors_trans hroot hmoved.2
    · exact .inr (.inr ⟨vote.slot, hlast, hexp.trans (hallowed.newer last hmem)⟩)

theorem exists_record :
    ∃ recorded, tower.recordBankVoteAndUpdateLockouts vote.slot vote.hash vote.blockId =
        .ok (recorded, if root ≠ (rooted.map Lockout.slot).getD root then
          some ((rooted.map Lockout.slot).getD root) else none) ∧
      recorded.voteState = tower.voteState.processNextVoteSlot vote.slot := by
  rw [recordBankVoteAndUpdateLockouts, if_neg (TowerVoteState.not_any_le hallowed.newer)]
  simp [Tower.root, updateLastVoteFromVoteState, hinv.rootSlot, hallowed.next, bind, pure]

end

theorem concat (hrun : recordBankVotes start votes = .ok tower)
    (hallowed : Allowed tree tower root vote.slot rooted kept expired) :
    ∃ recorded, tower.recordBankVoteAndUpdateLockouts vote.slot vote.hash vote.blockId =
        .ok (recorded, if root ≠ (rooted.map Lockout.slot).getD root then
          some ((rooted.map Lockout.slot).getD root) else none) ∧
      recordBankVotes start (votes ++ [vote]) = .ok recorded ∧
      LockoutInvariant tree start (votes ++ [vote]) recorded
        ((rooted.map Lockout.slot).getD root) := by
  rcases hinv.exists_record hallowed with ⟨recorded, hrec, hstate⟩
  have hrun' : recordBankVotes start (votes ++ [vote]) = .ok recorded := by
    unfold recordBankVotes at hrun ⊢
    rw [foldlM_append, hrun]
    simp [hrec, bind, pure]
  have htower : recorded.voteState.tower = kept.map Lockout.slot ++ [vote.slot] := by
    rw [hstate, hallowed.tower_next]
  refine ⟨recorded, hrec, hrun', ?_, ?_, ?_, ?_, hinv.left_next hallowed hrun' hstate⟩
  · rw [hstate, hallowed.next]
  · rw [htower]
    exact hinv.chain_next hallowed
  · rw [TowerVoteState.lastVotedSlot_eq, htower]
    simp
  · intro slot hslot
    rw [htower] at hslot
    rcases mem_append.mp hslot with hkept | hnew
    · rcases mem_map.mp hkept with ⟨lockout, hlock, heq⟩
      have hmem := hinv.recorded _ (slot_mem_tower hallowed.splits (mem_append_right _ hlock))
      rw [map_append, ← heq]
      exact mem_append_left _ hmem
    · simp [mem_singleton.mp hnew]

theorem exists_isLockedOut_of_root (hroot : root = slot ∨ root ∈ tree.ancestors slot) :
    ∃ locked, tower.isLockedOut slot (tree.ancestors slot) = .ok locked := by
  apply exists_isLockedOut
  intro hrecent hvotes next hnext
  rcases hinv.exists_next hrecent with ⟨rooted, kept, expired, hsplits, heq⟩
  rw [heq] at hvotes hnext
  rw [← Option.mem_some_iff.mp hnext]
  cases rooted with
  | none =>
    rcases hroot with hslot | hanc
    · exact .inl hslot.symm
    · exact .inr hanc
  | some oldest =>
    -- The stack was full, so the rooted vote has a kept vote on top of it.
    have hlen : kept.length + 1 = maxLockoutHistory := by simpa using hsplits.rooted
    cases kept with
    | nil => cases hlen
    | cons second kept =>
      have hchain := hinv.chain.sublist (sublist_chain root hsplits)
      have hbelow : oldest.slot ∈ tree.ancestors second.slot :=
        (pairwise_cons.mp hchain).1 second.slot (by simp)
      right
      rcases hvotes second.slot (by simp) with hslot | hanc
      · rw [hslot]
        exact hbelow
      · exact mem_ancestors_trans hbelow hanc

end LockoutInvariant

/-! ## Whole runs -/

theorem Guarded.exists_invariant (hvotes : start.voteState.votes = [])
    (hroot : start.voteState.rootSlot = some root) (hguard : Guarded tree start votes) :
    ∃ tower current, recordBankVotes start votes = .ok tower ∧
      LockoutInvariant tree start votes tower current := by
  induction votes using reverseRecOn with
  | nil => exact ⟨start, root, rfl, .of_start hvotes hroot⟩
  | append_singleton votes vote ih =>
    rcases ih hguard.of_append with ⟨tower, current, hrun, hinv⟩
    have hvote := hguard votes vote [] rfl tower hrun
    rcases hinv.exists_allowed hvote with ⟨rooted, kept, expired, hallowed⟩
    rcases hinv.concat hrun hallowed with ⟨recorded, -, hrun', hinv'⟩
    exact ⟨recorded, _, hrun', hinv'⟩

/-- A tower which starts without votes and only records votes that are not locked out.
At every step its root and its votes are one chain that ends at the last vote, and the
check returns for every descendant of the root.  The next vote is recorded.  It moves
the root, if at all, to a recorded descendant, and every recorded vote is its ancestor
or had an expired lockout when it was last in the tower. -/
theorem lockout_safety (tree : BlockTree) (start : Tower) (startRoot : ℕ) (votes : List BankVote)
    (hvotes : start.voteState.votes = []) (hroot : start.voteState.rootSlot = some startRoot)
    (hguard : Guarded tree start votes) (past future : List BankVote)
    (hsplit : votes = past ++ future) :
    ∃ tower root, recordBankVotes start past = .ok tower ∧
      tower.voteState.rootSlot = some root ∧
      tower.voteState.lastVotedSlot = past.getLast?.map BankVote.slot ∧
      (root :: tower.voteState.tower).Pairwise (fun older newer => older ∈ tree.ancestors newer) ∧
      (∀ slot, root = slot ∨ root ∈ tree.ancestors slot →
        ∃ locked, tower.isLockedOut slot (tree.ancestors slot) = .ok locked) ∧
      ∀ vote ∈ future.head?, ∃ recorded newRoot,
        tower.recordBankVoteAndUpdateLockouts vote.slot vote.hash vote.blockId =
          .ok (recorded, if root ≠ newRoot then some newRoot else none) ∧
        recorded.voteState.rootSlot = some newRoot ∧
        (newRoot = root ∨ newRoot ∈ past.map BankVote.slot ∧ root ∈ tree.ancestors newRoot) ∧
        ∀ old ∈ past, ∃ lockout, lastHeld start past old.slot = some lockout ∧
          (old.slot ∈ tree.ancestors vote.slot ∨ lockout.lastLockedOutSlot < vote.slot) := by
  subst hsplit
  rcases hguard.of_append.exists_invariant hvotes hroot with ⟨tower, root, hrun, hinv⟩
  refine ⟨tower, root, hrun, hinv.rootSlot, hinv.last, hinv.chain,
    fun slot hslot => hinv.exists_isLockedOut_of_root hslot, ?_⟩
  intro vote hvote
  rcases head?_eq_some_iff.mp hvote with ⟨later, hfuture⟩
  have hcheck := hguard past vote later (by rw [hfuture]) tower hrun
  rcases hinv.exists_allowed hcheck with ⟨rooted, kept, expired, hallowed⟩
  rcases hinv.concat hrun hallowed with ⟨recorded, hrecord, -, hinv'⟩
  exact ⟨recorded, _, hrecord, hinv'.rootSlot, hinv.root_next hallowed.splits,
    fun old hold => hinv.locked hallowed hold⟩

theorem LockoutInvariant.extend (hinv : LockoutInvariant tree start past tower root)
    (hrun : recordBankVotes start past = .ok tower) (hguard : Guarded tree start (past ++ future)) :
    ∃ tower' root', recordBankVotes start (past ++ future) = .ok tower' ∧
      LockoutInvariant tree start (past ++ future) tower' root' ∧
      (root' = root ∨ root ∈ tree.ancestors root') ∧
      ∀ vote ∈ future, root ∈ tree.ancestors vote.slot := by
  induction future using reverseRecOn with
  | nil => exact ⟨tower, root, by simpa using hrun, by simpa using hinv, .inl rfl, by simp⟩
  | append_singleton future vote ih =>
    rw [← append_assoc] at hguard ⊢
    rcases ih hguard.of_append with ⟨tower', root', hrun', hinv', hroot', hvotes⟩
    rcases hinv'.exists_allowed (hguard _ vote [] rfl tower' hrun') with
      ⟨rooted, kept, expired, hallowed⟩
    rcases hinv'.concat hrun' hallowed with ⟨recorded, -, hrecorded, hnext⟩
    have hroot : (rooted.map Lockout.slot).getD root' = root ∨
        root ∈ tree.ancestors ((rooted.map Lockout.slot).getD root') := by
      rcases hinv'.root_next hallowed.splits with heq | ⟨-, hmoved⟩
      · rwa [heq]
      · rcases hroot' with rfl | hbelow
        · exact .inr hmoved
        · exact .inr (mem_ancestors_trans hbelow hmoved)
    refine ⟨recorded, _, hrecorded, hnext, hroot, ?_⟩
    intro other hother
    rcases mem_append.mp hother with hold | hnew
    · exact hvotes other hold
    · have hlast := hnext.last
      rw [TowerVoteState.lastVotedSlot_eq, getLast?_concat] at hlast
      have hvote := (pairwise_cons.mp hnext.chain).1 _ (mem_of_getLast? hlast)
      rw [mem_singleton.mp hnew]
      rcases hroot with heq | hbelow
      · rwa [heq] at hvote
      · exact mem_ancestors_trans hbelow hvote

/-- A root is never given up: every later root and every later vote descends from it. -/
theorem root_irreversible {startRoot : ℕ} (hvotes : start.voteState.votes = [])
    (hroot : start.voteState.rootSlot = some startRoot)
    (hguard : Guarded tree start (past ++ future)) :
    ∃ tower root tower' root', recordBankVotes start past = .ok tower ∧
      tower.voteState.rootSlot = some root ∧
      recordBankVotes start (past ++ future) = .ok tower' ∧
      tower'.voteState.rootSlot = some root' ∧ (root' = root ∨ root ∈ tree.ancestors root') ∧
      ∀ vote ∈ future, root ∈ tree.ancestors vote.slot := by
  rcases hguard.of_append.exists_invariant hvotes hroot with ⟨tower, root, hrun, hinv⟩
  rcases hinv.extend hrun hguard with ⟨tower', root', hrun', hinv', hroot', hfuture⟩
  exact ⟨tower, root, tower', root', hrun, hinv.rootSlot, hrun', hinv'.rootSlot, hroot', hfuture⟩

/-! ## Two runs -/

theorem Guarded.of_take (h : ∀ i < votes.length, ∀ vote ∈ votes[i]?,
    (recordBankVotes start (votes.take i)).toOption.all
      (fun tower => tower.isLockedOut vote.slot (tree.ancestors vote.slot) = .ok false)) :
    Guarded tree start votes := by
  intro past vote future hsplit tower hrun
  have hlocked := h past.length (by simp [hsplit]) vote (by simp [hsplit])
  rw [hsplit, take_left, hrun] at hlocked
  simpa using hlocked

end

attribute [local instance] doublingLockouts

def genesisTower : Tower := ⟨⟨[], some 0⟩, ⟨[], none, 0, 0⟩, none⟩

/-- Slots 1 and 2 on one fork above the root, slot 6 on another one. -/
def twoForks : BlockTree where
  parent node := if node = 1 ∨ node = 6 then some 0 else if node = 2 then some 1 else none
  parent_lt := by
    intro node p hparent
    split_ifs at hparent with hfirst hsecond
    · rw [← Option.mem_some_iff.mp hparent]
      omega
    · rw [← Option.mem_some_iff.mp hparent]
      omega
    · cases hparent

/-- The votes for slots 1 and 2 expire before the tower switches to slot 6. -/
theorem lockout_safety_switch :
    Guarded twoForks genesisTower [⟨1, 11, 21⟩, ⟨2, 12, 22⟩, ⟨6, 16, 26⟩] ∧
    ∃ tower root, recordBankVotes genesisTower [⟨1, 11, 21⟩, ⟨2, 12, 22⟩] = .ok tower ∧
      tower.voteState.rootSlot = some root ∧
      ∀ old ∈ ([⟨1, 11, 21⟩, ⟨2, 12, 22⟩] : List BankVote), ∃ lockout,
        lastHeld genesisTower [⟨1, 11, 21⟩, ⟨2, 12, 22⟩] old.slot = some lockout ∧
        (old.slot ∈ twoForks.ancestors 6 ∨ lockout.lastLockedOutSlot < 6) := by
  have hguard : Guarded twoForks genesisTower [⟨1, 11, 21⟩, ⟨2, 12, 22⟩, ⟨6, 16, 26⟩] :=
    .of_take (by decide +kernel)
  rcases lockout_safety twoForks genesisTower 0 _ rfl rfl hguard
    [⟨1, 11, 21⟩, ⟨2, 12, 22⟩] [⟨6, 16, 26⟩] rfl with ⟨tower, root, hrun, hroot, -, -, -, hvote⟩
  rcases hvote ⟨6, 16, 26⟩ rfl with ⟨recorded, newRoot, -, -, -, hlocked⟩
  exact ⟨hguard, tower, root, hrun, hroot, hlocked⟩

def chain : BlockTree where
  parent node := if node = 0 then none else some (node - 1)
  parent_lt := by
    intro node p hparent
    split_ifs at hparent with hzero
    · cases hparent
    · rw [← Option.mem_some_iff.mp hparent]
      omega

def chainVotes (count : ℕ) : List BankVote := (range count).map fun i => ⟨i + 1, 0, 0⟩

/-- The thirty-second vote in a row roots slot 1 and the next one slot 2. -/
theorem root_irreversible_chain :
    ∃ tower tower', recordBankVotes genesisTower (chainVotes 32) = .ok tower ∧
      tower.voteState.rootSlot = some 1 ∧
      recordBankVotes genesisTower (chainVotes 32 ++ [⟨33, 0, 0⟩]) = .ok tower' ∧
      tower'.voteState.rootSlot = some 2 ∧ 1 ∈ chain.ancestors 2 ∧ 1 ∈ chain.ancestors 33 := by
  have hguard : Guarded chain genesisTower (chainVotes 32 ++ [⟨33, 0, 0⟩]) :=
    .of_take (by decide +kernel)
  have hroots : (recordBankVotes genesisTower (chainVotes 32)).map (·.voteState.rootSlot) =
      .ok (some 1) ∧ (recordBankVotes genesisTower (chainVotes 32 ++ [⟨33, 0, 0⟩])).map
        (·.voteState.rootSlot) = .ok (some 2) := by decide +kernel
  rcases root_irreversible rfl rfl hguard with
    ⟨tower, root, tower', root', hrun, hroot, hrun', hroot', hmoved, hvotes⟩
  simp only [hrun, hrun', Except.map, Except.ok.injEq, hroot, hroot', Option.some.injEq] at hroots
  obtain ⟨rfl, rfl⟩ := hroots
  exact ⟨tower, tower', hrun, hroot, hrun', hroot', hmoved.resolve_left (by decide),
    hvotes _ (mem_singleton.mpr rfl)⟩

end Tower

end RakuraiValidator.Consensus
