import Mathlib.Data.List.Nodup
import Mathlib.Data.PNat.Notation
import Mathlib.Tactic

/-!
# Admission of vote accounts

If more vote accounts are eligible than may be admitted, those with the highest stakes are, except
those with the stake of the first one that is left out.
-/

namespace RakuraiValidator.Admission

open List

structure VoteAccount (BlsPubkey : Type) where
  blsPubkeyCompressed : Option BlsPubkey
  lamports : ℕ

structure Entry (Pubkey BlsPubkey : Type) where
  pubkey : Pubkey
  stake : ℕ
  voteAccount : VoteAccount BlsPubkey

/-- The entries of the map, in the order of an iteration. -/
structure VoteAccounts (Pubkey BlsPubkey : Type) where
  voteAccounts : List (Entry Pubkey BlsPubkey)
  nodup : (voteAccounts.map Entry.pubkey).Nodup

variable {α Pubkey BlsPubkey : Type}

/-- What `select_nth_unstable_by` may return for descending keys. -/
def Selected (key : α → ℕ) (list : List α) (n : ℕ) : List α × α × List α → Prop
  | (before, cutoff, after) => before ++ cutoff :: after ~ list ∧ before.length = n ∧
    (∀ a ∈ before, key cutoff ≤ key a) ∧ ∀ a ∈ after, key a ≤ key cutoff

def Selection (key : α → ℕ) : Type :=
  { select : (list : List α) → Fin list.length → List α × α × List α //
    ∀ list (n : Fin list.length), Selected key list n (select list n) }

-- Sorting the list is one way to select.
instance (key : α → ℕ) : Nonempty (Selection key) := by
  suffices h : ∀ (list : List α) (n : Fin list.length), ∃ result, Selected key list n result by
    choose select hselect using h
    exact ⟨select, hselect⟩
  intro list n
  have hperm := mergeSort_perm list fun a b => key b ≤ key a
  have hsorted := list.pairwise_mergeSort' (fun a b => key b ≤ key a)
  generalize list.mergeSort _ = sorted at hperm hsorted
  have hn : n < sorted.length := by simp [hperm.length_eq]
  have hsplit : sorted.take n ++ sorted[n] :: sorted.drop (n + 1) = sorted := by simp
  rw [← hsplit, pairwise_append, pairwise_cons] at hsorted
  rw [← hsplit] at hperm
  exact ⟨(_, _, _), hperm, by simp [hn.le],
    fun a ha => hsorted.2.2 a ha _ mem_cons_self, hsorted.2.1.1⟩

def Entry.isEligible (minimumVoteAccountBalance : ℕ) (entry : Entry Pubkey BlsPubkey) : Bool :=
  let hasBls := entry.voteAccount.blsPubkeyCompressed.isSome
  let hasStake := entry.stake ≠ 0
  let hasBalance := minimumVoteAccountBalance ≤ entry.voteAccount.lamports
  hasBls ∧ hasStake ∧ hasBalance

variable (maxVoteAccounts : ℕ+) (selection : Selection (@Entry.stake Pubkey BlsPubkey))

def truncate (entriesToSort : List (Entry Pubkey BlsPubkey)) : List (Entry Pubkey BlsPubkey) :=
  if h : maxVoteAccounts < entriesToSort.length then
    let (before, cutoffEntry, after) := selection.1 entriesToSort ⟨maxVoteAccounts, h⟩
    let floorStake := cutoffEntry.stake
    (before ++ cutoffEntry :: after).filter (floorStake < ·.stake)
  else entriesToSort

/-- The stakes above the floor are those which at most the maximum of entries reach. -/
theorem truncate_spec {entries : List (Entry Pubkey BlsPubkey)}
    (hstaked : ∀ entry ∈ entries, 0 < entry.stake) :
    ∃ floor, truncate maxVoteAccounts selection entries ~ entries.filter (floor < ·.stake) ∧
      entries.countP (floor < ·.stake) ≤ maxVoteAccounts ∧
      ∀ stake > 0, floor < stake ↔ entries.countP (stake ≤ ·.stake) ≤ maxVoteAccounts := by
  unfold truncate
  split_ifs with hmany
  · have hsel := selection.2 entries ⟨maxVoteAccounts, hmany⟩
    generalize selection.1 entries ⟨maxVoteAccounts, hmany⟩ = result at hsel
    obtain ⟨before, cutoff, after⟩ := result
    obtain ⟨hperm, hlen, hbefore, hafter⟩ := hsel
    dsimp only at hlen
    have hcount (stake : ℕ) := hperm.countP_eq (stake ≤ ·.stake)
    simp only [countP_append, countP_cons, decide_eq_true_eq] at hcount
    have habove : ∀ stake > cutoff.stake, entries.countP (stake ≤ ·.stake) ≤ maxVoteAccounts := by
      intro stake hstake
      have hnone : after.countP (stake ≤ ·.stake) = 0 :=
        countP_eq_zero.mpr fun entry hentry => by simpa using (hafter entry hentry).trans_lt hstake
      have hsome := countP_le_length (p := (stake ≤ ·.stake)) (l := before)
      rw [← hcount, if_neg (not_le.mpr hstake), hnone]
      omega
    refine ⟨cutoff.stake, hperm.filter _, habove (cutoff.stake + 1) (Nat.lt_succ_self _),
      fun stake _ => ⟨habove stake, fun hfew => not_le.mp fun hle => ?_⟩⟩
    have hall : before.countP (stake ≤ ·.stake) = before.length :=
      countP_eq_length.mpr fun entry hentry => by simpa using hle.trans (hbefore entry hentry)
    rw [← hcount, if_pos hle, hall] at hfew
    omega
  · have hfew (p) := (countP_le_length (p := p) (l := entries)).trans (not_lt.mp hmany)
    refine ⟨0, ?_, hfew _, fun stake hstake => ⟨fun _ => hfew _, fun _ => hstake⟩⟩
    rw [filter_eq_self.mpr (by simpa using hstaked)]

namespace VoteAccounts

variable (self : VoteAccounts Pubkey BlsPubkey) (minimumVoteAccountBalance : ℕ)

def entriesToSort : List (Entry Pubkey BlsPubkey) :=
  self.voteAccounts.filter (·.isEligible minimumVoteAccountBalance)

theorem staked : ∀ entry ∈ self.entriesToSort minimumVoteAccountBalance, 0 < entry.stake := by
  intro entry hentry
  simp only [entriesToSort, mem_filter, Entry.isEligible, decide_eq_true_eq] at hentry
  exact Nat.pos_of_ne_zero hentry.2.2.1

/-- The maximum is asserted to be positive. -/
def cloneAndFilterForVat : VoteAccounts Pubkey BlsPubkey where
  voteAccounts := truncate maxVoteAccounts selection (self.entriesToSort minimumVoteAccountBalance)
  nodup := by
    obtain ⟨floor, hperm, _⟩ := truncate_spec maxVoteAccounts selection (self.staked _)
    rw [(hperm.map _).nodup_iff]
    exact self.nodup.sublist ((filter_sublist.trans filter_sublist).map _)

/-- Whoever is chosen, so is everyone of at least the same stake. -/
def UpwardClosed (entries chosen : List (Entry Pubkey BlsPubkey)) : Prop :=
  ∀ entry ∈ chosen, ∀ other ∈ entries, entry.stake ≤ other.stake → other ∈ chosen

/-- The entries whose stake at most the maximum of eligible entries reach.  They are the largest
choice of at most that many which separates no equal stakes. -/
structure UntiedTop (maximum : ℕ) (eligible kept : List (Entry Pubkey BlsPubkey)) : Prop where
  mem_iff : ∀ entry, entry ∈ kept ↔
    entry ∈ eligible ∧ eligible.countP (entry.stake ≤ ·.stake) ≤ maximum
  length_le : kept.length ≤ maximum
  upwardClosed : UpwardClosed eligible kept
  largest : ∀ chosen, chosen ⊆ eligible → chosen.length ≤ maximum → UpwardClosed eligible chosen →
    chosen ⊆ kept

/-- Of the entries with a BLS key, a stake and the required balance the filter keeps the untied top,
whatever the order of iteration and the selection. -/
theorem filter_keeps_untied_top :
    (∃ eligible : List (Entry Pubkey BlsPubkey), eligible.Nodup ∧
      (∀ entry, entry ∈ eligible ↔ entry ∈ self.voteAccounts ∧
        entry.voteAccount.blsPubkeyCompressed ≠ none ∧ entry.stake ≠ 0 ∧
        minimumVoteAccountBalance ≤ entry.voteAccount.lamports) ∧
      UntiedTop maxVoteAccounts eligible (self.cloneAndFilterForVat maxVoteAccounts selection
        minimumVoteAccountBalance).voteAccounts) ∧
    ∀ (other : VoteAccounts Pubkey BlsPubkey) selection', self.voteAccounts ~ other.voteAccounts →
      (self.cloneAndFilterForVat maxVoteAccounts selection minimumVoteAccountBalance).voteAccounts ~
        (other.cloneAndFilterForVat maxVoteAccounts selection'
          minimumVoteAccountBalance).voteAccounts := by
  set eligible := self.entriesToSort minimumVoteAccountBalance
  set kept := (self.cloneAndFilterForVat maxVoteAccounts selection
    minimumVoteAccountBalance).voteAccounts
  have hstaked := self.staked minimumVoteAccountBalance
  obtain ⟨floor, hkept, hlength, hfloor⟩ := truncate_spec maxVoteAccounts selection hstaked
  change kept ~ _ at hkept
  have hmem : ∀ entry, entry ∈ kept ↔ entry ∈ eligible ∧ floor < entry.stake := by
    simp [hkept.mem_iff, eligible]
  have hnodup : eligible.Nodup := self.nodup.of_map.filter _
  refine ⟨⟨eligible, hnodup, fun entry => ?_, fun entry => (hmem entry).trans <|
    and_congr_right fun hentry => hfloor _ (hstaked entry hentry), ?_, ?_, ?_⟩, ?_⟩
  · simp [eligible, entriesToSort, Entry.isEligible, Option.isSome_iff_ne_none]
  · rwa [hkept.length_eq, ← countP_eq_length_filter]
  · intro entry hentry other hother hle
    exact (hmem other).mpr ⟨hother, ((hmem entry).mp hentry).2.trans_le hle⟩
  · intro chosen hsub hfew hclosed entry hentry
    refine (hmem entry).mpr ⟨hsub hentry, (hfloor _ (hstaked _ (hsub hentry))).mpr ?_⟩
    have hreached : eligible.filter (entry.stake ≤ ·.stake) ⊆ chosen := by
      intro other hother
      rw [mem_filter, decide_eq_true_eq] at hother
      exact hclosed entry hentry other hother.1 hother.2
    rw [countP_eq_length_filter]
    exact ((hnodup.filter _).subperm hreached).length_le.trans hfew
  · intro other selection' hperm
    have heligible := hperm.filter (·.isEligible minimumVoteAccountBalance)
    obtain ⟨floor', hkept', _, hfloor'⟩ := truncate_spec maxVoteAccounts selection'
      (other.staked minimumVoteAccountBalance)
    refine hkept.trans (Perm.trans ?_ hkept'.symm)
    rw [filter_congr fun entry hentry => decide_eq_decide.mpr ?_]
    · exact heligible.filter _
    · have hstake := hstaked entry hentry
      rw [hfloor _ hstake, hfloor' _ hstake]
      exact iff_of_eq (congrArg (· ≤ _) (heligible.countP_eq _))

/-- Two filters in a row keep what the one with the lower maximum keeps. -/
theorem filters_compose (m m' : ℕ+) (balance : ℕ)
    (selection selection' selection'' : Selection Entry.stake) :
    ((self.cloneAndFilterForVat m selection balance).cloneAndFilterForVat m' selection'
      balance).voteAccounts ~
    (self.cloneAndFilterForVat (min m m') selection'' balance).voteAccounts := by
  set eligible := self.entriesToSort balance
  set first := self.cloneAndFilterForVat m selection balance
  obtain ⟨floor, hfirst, -, hfloor⟩ := truncate_spec m selection (self.staked balance)
  obtain ⟨floor', hkept, -, hfloor'⟩ := truncate_spec m' selection' (first.staked balance)
  obtain ⟨floor'', honce, -, hfloor''⟩ :=
    truncate_spec (min m m') selection'' (self.staked balance)
  have helig : first.entriesToSort balance ~ eligible.filter (floor < ·.stake) := by
    refine Perm.trans (.of_eq (filter_eq_self.mpr fun entry hentry => ?_)) hfirst
    exact (mem_filter.mp (mem_filter.mp (hfirst.mem_iff.mp hentry)).1).2
  refine hkept.trans ((helig.filter _).trans (Perm.trans ?_ honce.symm))
  rw [filter_filter]
  refine .of_eq (filter_congr fun entry hentry => ?_)
  have hstake := self.staked balance entry hentry
  have hmin : ((min m m' : ℕ+) : ℕ) = min (m : ℕ) m' := Monotone.map_min fun _ _ h => h
  rw [Bool.eq_iff_iff, Bool.and_eq_true, decide_eq_true_eq, decide_eq_true_eq, decide_eq_true_eq,
    hfloor'' _ hstake, hmin, le_min_iff, ← hfloor _ hstake, and_comm]
  -- Above the first floor both filters count the same entries.
  refine and_congr_right fun habove => ?_
  rw [hfloor' _ hstake, helig.countP_eq, countP_filter]
  refine iff_of_eq (congrArg (· ≤ _) (countP_congr fun other _ => ?_))
  simp only [Bool.and_eq_true, decide_eq_true_eq]
  exact and_iff_left_of_imp habove.trans_le

end VoteAccounts
end RakuraiValidator.Admission
