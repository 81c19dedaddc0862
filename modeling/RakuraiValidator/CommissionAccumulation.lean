import RakuraiValidator.PartitionedRewards

/-!
# Commissions do not depend on the order of accumulation

The rewards of the delegations are accumulated in chunks, and the chunks are merged in an order
chosen at run time.  The accumulator of any such reduction is determined by the rewards alone: for
each collector the commissions of vote accounts are paid, or all of them when there are none, and
the rest is burned.
-/

namespace RakuraiValidator.InflationRewards

open Vote VoteReward BTreeMap List

/-! ## The sum of the commissions of one collector -/

def commissionSum (isVoteAccount : Bool) (entries : List RewardCommission) : ℕ :=
  ((entries.filter (·.isVoteAccount = isVoteAccount)).map (·.commissionLamports)).sum

attribute [local simp] commissionSum

def burnedSum (entries : List RewardCommission) : ℕ := (entries.map (·.burnedLamports)).sum

attribute [local simp] burnedSum

def totalLamports (entries : List RewardCommission) : ℕ :=
  (entries.map fun entry => entry.commissionLamports + entry.burnedLamports).sum

attribute [local simp] totalLamports

def someVoteAccount (entries : List RewardCommission) : Bool := entries.any (·.isVoteAccount)

attribute [local simp] someVoteAccount

/-- What is paid and what is burned when a collector is given these entries. -/
def settle (commissionBps : Option ℕ) (entries : List RewardCommission) : RewardCommission where
  commissionBps := commissionBps
  commissionLamports :=
    if someVoteAccount entries then commissionSum true entries else commissionSum false entries
  burnedLamports :=
    burnedSum entries + if someVoteAccount entries then commissionSum false entries else 0
  isVoteAccount := someVoteAccount entries

variable (commissionBps : Option ℕ) (entries : List RewardCommission)

section Sums

variable (xs ys : List RewardCommission)

theorem commissionSum_append (isVoteAccount : Bool) :
    commissionSum isVoteAccount (xs ++ ys) =
      commissionSum isVoteAccount xs + commissionSum isVoteAccount ys := by
  simp

theorem burnedSum_append : burnedSum (xs ++ ys) = burnedSum xs + burnedSum ys := by
  simp

theorem totalLamports_append : totalLamports (xs ++ ys) = totalLamports xs + totalLamports ys := by
  simp

theorem someVoteAccount_append :
    someVoteAccount (xs ++ ys) = (someVoteAccount xs || someVoteAccount ys) := by
  simp

variable {xs ys}

theorem commissionSum_of_not_some (h : someVoteAccount xs = false) : commissionSum true xs = 0 := by
  have hnone : xs.filter (·.isVoteAccount = true) = [] := by
    apply filter_eq_nil_iff.mpr
    intro entry hentry
    simpa using any_eq_false.mp h entry hentry
  rw [commissionSum, hnone]
  rfl

theorem totalLamports_eq :
    totalLamports entries =
      commissionSum true entries + commissionSum false entries + burnedSum entries := by
  induction entries with
  | nil => rfl
  | cons entry entries ih =>
    have hsplit : totalLamports (entry :: entries) =
        entry.commissionLamports + entry.burnedLamports + totalLamports entries := by
      simp
    have hburned : burnedSum (entry :: entries) = entry.burnedLamports + burnedSum entries := by
      simp
    rw [hsplit, ih, hburned]
    cases hvote : entry.isVoteAccount <;> simp [hvote] <;> omega

theorem settle_lamports :
    (settle commissionBps entries).commissionLamports +
      (settle commissionBps entries).burnedLamports = totalLamports entries := by
  rw [totalLamports_eq]
  simp only [settle]
  cases hsome : someVoteAccount entries with
  | true =>
    simp only [if_true]
    omega
  | false =>
    have hzero := commissionSum_of_not_some hsome
    simp only [Bool.false_eq_true, if_false]
    omega

theorem settle_singleton (entry : RewardCommission) :
    settle entry.commissionBps [entry] = entry := by
  obtain ⟨bps, commission, burned, isVote⟩ := entry
  cases isVote <;> simp [settle]

theorem settle_perm (h : xs.Perm ys) : settle commissionBps xs = settle commissionBps ys := by
  have hsome : someVoteAccount xs = someVoteAccount ys := h.any_eq
  have hsum : ∀ isVoteAccount, commissionSum isVoteAccount xs = commissionSum isVoteAccount ys :=
    fun isVoteAccount => ((h.filter _).map _).sum_eq
  have hburned : burnedSum xs = burnedSum ys := (h.map _).sum_eq
  simp only [settle, hsome, hsum, hburned]

theorem saturatingAdd_of_le {a b : ℕ} (h : a + b ≤ u64Max) : saturatingAdd a b = a + b :=
  Nat.min_eq_left h

theorem accumulateLamports_settle (hfits : totalLamports (xs ++ ys) ≤ u64Max) :
    accumulateLamports (settle commissionBps xs) (settle commissionBps ys) =
      settle commissionBps (xs ++ ys) := by
  rw [totalLamports_append, totalLamports_eq, totalLamports_eq] at hfits
  have hx := @commissionSum_of_not_some xs
  have hy := @commissionSum_of_not_some ys
  simp only [accumulateLamports, settle, someVoteAccount_append, commissionSum_append,
    burnedSum_append]
  cases hsrc : someVoteAccount xs with
  | true =>
    cases hdst : someVoteAccount ys with
    | true =>
      simp only [if_true, Bool.or_self, RewardCommission.mk.injEq, true_and, and_true]
      constructor
      · rw [saturatingAdd_of_le (by omega)]
        omega
      · rw [saturatingAdd_of_le (by omega)]
        omega
    | false =>
      have hzero := hy hdst
      simp only [Bool.false_eq_true, if_false, if_true, Bool.or_false, add_zero, hzero,
        RewardCommission.mk.injEq, true_and, and_true]
      rw [saturatingAdd_of_le (by omega : burnedSum ys + commissionSum false ys ≤ u64Max),
        saturatingAdd_of_le (by omega)]
      omega
  | false =>
    have hzero := hx hsrc
    cases hdst : someVoteAccount ys with
    | true =>
      simp only [Bool.false_eq_true, if_false, if_true, Bool.or_true, add_zero, zero_add, hzero,
        RewardCommission.mk.injEq, true_and, and_true]
      rw [saturatingAdd_of_le (by omega :
          burnedSum ys + commissionSum false ys + commissionSum false xs ≤ u64Max),
        saturatingAdd_of_le (by omega)]
      omega
    | false =>
      simp only [Bool.false_eq_true, if_false, Bool.or_self, add_zero,
        RewardCommission.mk.injEq, true_and, and_true]
      constructor
      · rw [saturatingAdd_of_le (by omega)]
        omega
      · rw [saturatingAdd_of_le (by omega)]
        omega

end Sums

variable {Pubkey : Type} [LinearOrder Pubkey]

/-! ## Merging -/

/-- The entry of a collector after adding one from another accumulator. -/
def mergeEntry (src dst : Option RewardCommission) : Option RewardCommission :=
  match src, dst with
  | none, dst => dst
  | some src, none => some src
  | some src, some dst => some (accumulateLamports src dst)

attribute [local simp] mergeEntry

theorem get?_addCommission (commissions : BTreeMap Pubkey RewardCommission)
    (entry : Pubkey × RewardCommission) (pubkey : Pubkey) :
    (addCommission commissions entry).get? pubkey =
      if pubkey = entry.1 then mergeEntry (some entry.2) (commissions.get? entry.1)
      else commissions.get? pubkey := by
  unfold addCommission
  cases hget : commissions.get? entry.1 with
  | none => rw [get?_insert]; rfl
  | some present => rw [get?_insert]; rfl

theorem get?_foldl_addCommission {entries : List (Pubkey × RewardCommission)}
    (hnodup : (entries.map Prod.fst).Nodup) (commissions : BTreeMap Pubkey RewardCommission)
    (pubkey : Pubkey) :
    (entries.foldl addCommission commissions).get? pubkey =
      mergeEntry ((entries.find? (·.1 = pubkey)).map Prod.snd) (commissions.get? pubkey) := by
  induction entries generalizing commissions with
  | nil => rfl
  | cons entry entries ih =>
    obtain ⟨hfresh, hrest⟩ := nodup_cons.mp hnodup
    rw [foldl_cons, ih hrest, get?_addCommission]
    by_cases hkey : pubkey = entry.1
    · have hlater : entries.find? (·.1 = pubkey) = none := by
        apply find?_eq_none.mpr
        intro other hother hsame
        simp only [decide_eq_true_eq] at hsame
        apply hfresh
        rw [← hkey, ← hsame]
        exact mem_map_of_mem hother
      rw [hlater, if_pos hkey, find?_cons_of_pos (by simp [hkey]), hkey]
      rfl
    · rw [if_neg hkey, find?_cons_of_neg (by simpa using fun h => hkey h.symm)]

theorem find?_key_eq_some {entries : List (Pubkey × RewardCommission)}
    (hnodup : (entries.map Prod.fst).Nodup) {pubkey : Pubkey} {entry : Pubkey × RewardCommission} :
    entries.find? (·.1 = pubkey) = some entry ↔ entry ∈ entries ∧ entry.1 = pubkey := by
  constructor
  · intro h
    exact ⟨mem_of_find?_eq_some h, by simpa using find?_some h⟩
  · intro ⟨hmem, hkey⟩
    cases hfound : entries.find? (·.1 = pubkey) with
    | none => exact absurd hkey (by simpa using find?_eq_none.mp hfound entry hmem)
    | some other =>
      have hother : other.1 = pubkey := by simpa using find?_some hfound
      exact congrArg some (inj_on_of_nodup_map hnodup (mem_of_find?_eq_some hfound) hmem
        (hother.trans hkey.symm))

theorem foldl_addCommission_perm {order entries : List (Pubkey × RewardCommission)}
    (horder : order.Perm entries) (hnodup : (entries.map Prod.fst).Nodup)
    (commissions : BTreeMap Pubkey RewardCommission) :
    order.foldl addCommission commissions = entries.foldl addCommission commissions := by
  have hnodup' : (order.map Prod.fst).Nodup := (horder.map _).nodup_iff.mpr hnodup
  apply ext_get?
  intro pubkey
  have hfind : order.find? (·.1 = pubkey) = entries.find? (·.1 = pubkey) := by
    ext entry
    rw [find?_key_eq_some hnodup', find?_key_eq_some hnodup, horder.mem_iff]
  rw [get?_foldl_addCommission hnodup', get?_foldl_addCommission hnodup, hfind]

namespace RewardsAccumulator

/-- The accumulator of a reduction: chunks are folded, and their accumulators merged. -/
def reduce : Reduction (RewardAccumulation Pubkey) → RewardsAccumulator Pubkey
  | .chunk rewards => rewards.foldl addReward .new
  | .merge left right => (reduce left).accumulateIntoLarger (reduce right)

/-- A merge which visits the commissions in the given order. -/
def mergeAlong (order : List (Pubkey × RewardCommission)) (src dst : RewardsAccumulator Pubkey) :
    RewardsAccumulator Pubkey :=
  { src.mergeInto dst with
    rewardCommissions := order.foldl addCommission dst.rewardCommissions }

/-- The accumulators of a reduction when each hash map is visited in an order of its own. -/
inductive Reduces : Reduction (RewardAccumulation Pubkey) → RewardsAccumulator Pubkey → Prop
  | chunk (rewards : List (RewardAccumulation Pubkey)) :
    Reduces (.chunk rewards) (rewards.foldl addReward .new)
  | intoLeft {left right : Reduction (RewardAccumulation Pubkey)}
      {dst src : RewardsAccumulator Pubkey} {order : List (Pubkey × RewardCommission)}
      (hleft : Reduces left dst) (hright : Reduces right src)
      (hsize : src.rewardCommissions.entries.length ≤ dst.rewardCommissions.entries.length)
      (horder : order.Perm src.rewardCommissions.entries) :
    Reduces (.merge left right) (mergeAlong order src dst)
  | intoRight {left right : Reduction (RewardAccumulation Pubkey)}
      {dst src : RewardsAccumulator Pubkey} {order : List (Pubkey × RewardCommission)}
      (hleft : Reduces left src) (hright : Reduces right dst)
      (hsize : src.rewardCommissions.entries.length < dst.rewardCommissions.entries.length)
      (horder : order.Perm src.rewardCommissions.entries) :
    Reduces (.merge left right) (mergeAlong order src dst)

theorem mergeAlong_eq {order : List (Pubkey × RewardCommission)}
    {src : RewardsAccumulator Pubkey} (horder : order.Perm src.rewardCommissions.entries)
    (dst : RewardsAccumulator Pubkey) : mergeAlong order src dst = src.mergeInto dst := by
  rw [mergeAlong, foldl_addCommission_perm horder src.rewardCommissions.keys_nodup]
  rfl

theorem Reduces.eq_reduce {reduction : Reduction (RewardAccumulation Pubkey)}
    {accumulator : RewardsAccumulator Pubkey} (h : Reduces reduction accumulator) :
    accumulator = reduce reduction := by
  induction h with
  | chunk rewards => rfl
  | intoLeft _ _ hsize horder ihleft ihright =>
    rw [mergeAlong_eq horder, reduce, ← ihleft, ← ihright, accumulateIntoLarger, if_pos hsize]
  | intoRight _ _ hsize horder ihleft ihright =>
    rw [mergeAlong_eq horder, reduce, ← ihleft, ← ihright, accumulateIntoLarger,
      if_neg (not_le.mpr hsize)]

end RewardsAccumulator

/-! ## What an accumulator holds -/

variable (pubkey : Pubkey) (rewards : List (RewardAccumulation Pubkey))

def commissionsOf : List RewardCommission :=
  rewards.filterMap fun reward =>
    reward.commission.bind fun entry => if entry.1 = pubkey then some entry.2 else none

attribute [local simp] commissionsOf

theorem commissionsOf_append (pubkey : Pubkey) (xs ys : List (RewardAccumulation Pubkey)) :
    commissionsOf pubkey (xs ++ ys) = commissionsOf pubkey xs ++ commissionsOf pubkey ys := by
  simp

def SameCommission (rewards : List (RewardAccumulation Pubkey)) : Prop :=
  ∀ pubkey, ∀ x ∈ commissionsOf pubkey rewards, ∀ y ∈ commissionsOf pubkey rewards,
    x.commissionBps = y.commissionBps

structure SumsFit (rewards : List (RewardAccumulation Pubkey)) : Prop where
  count : rewards.length ≤ u64Max
  stakeRewards : (rewards.map (·.stakeReward)).sum ≤ u64Max
  commissions : ∀ pubkey, totalLamports (commissionsOf pubkey rewards) ≤ u64Max

def settled : Option RewardCommission :=
  (commissionsOf pubkey rewards).head?.map fun first =>
    settle first.commissionBps (commissionsOf pubkey rewards)

attribute [local simp] settled

/-- The accumulator of these rewards, in whatever order they were added. -/
structure Accumulates (accumulator : RewardsAccumulator Pubkey)
    (rewards : List (RewardAccumulation Pubkey)) : Prop where
  count : accumulator.numStakeRewards = rewards.length
  stakeRewards : accumulator.totalStakeRewardsLamports = (rewards.map (·.stakeReward)).sum
  commissions : ∀ pubkey, accumulator.rewardCommissions.get? pubkey = settled pubkey rewards

section Accumulation

variable {xs ys : List (RewardAccumulation Pubkey)}

theorem SameCommission.left (h : SameCommission (xs ++ ys)) : SameCommission xs := by
  intro pubkey x hx y hy
  apply h pubkey x _ y
  · rw [commissionsOf_append]
    exact mem_append_left _ hy
  · rw [commissionsOf_append]
    exact mem_append_left _ hx

theorem SameCommission.perm (h : SameCommission xs) (hperm : xs.Perm ys) : SameCommission ys := by
  intro pubkey x hx y hy
  have hcomms : (commissionsOf pubkey xs).Perm (commissionsOf pubkey ys) := hperm.filterMap _
  exact h pubkey x (hcomms.mem_iff.mpr hx) y (hcomms.mem_iff.mpr hy)

theorem SumsFit.left (h : SumsFit (xs ++ ys)) : SumsFit xs where
  count := by
    have hcount := h.count
    rw [length_append] at hcount
    omega
  stakeRewards := by
    have hsum := h.stakeRewards
    rw [map_append, sum_append] at hsum
    omega
  commissions := by
    intro pubkey
    have hsum := h.commissions pubkey
    rw [commissionsOf_append, totalLamports_append] at hsum
    omega

theorem SumsFit.perm (h : SumsFit xs) (hperm : xs.Perm ys) : SumsFit ys where
  count := hperm.length_eq ▸ h.count
  stakeRewards := by
    rw [← (hperm.map _).sum_eq]
    exact h.stakeRewards
  commissions := by
    intro pubkey
    have hcomms : (commissionsOf pubkey xs).Perm (commissionsOf pubkey ys) :=
      hperm.filterMap _
    have hsum : totalLamports (commissionsOf pubkey xs) = totalLamports (commissionsOf pubkey ys) :=
      (hcomms.map _).sum_eq
    rw [← hsum]
    exact h.commissions pubkey

theorem settled_perm (hsame : SameCommission xs) (hperm : xs.Perm ys) (pubkey : Pubkey) :
    settled pubkey xs = settled pubkey ys := by
  have hcomms : (commissionsOf pubkey xs).Perm (commissionsOf pubkey ys) := hperm.filterMap _
  unfold settled
  cases hx : commissionsOf pubkey xs with
  | nil =>
    rw [hx] at hcomms
    rw [hcomms.symm.eq_nil]
  | cons x xs' =>
    cases hy : commissionsOf pubkey ys with
    | nil =>
      rw [hy] at hcomms
      rw [hcomms.eq_nil] at hx
      cases hx
    | cons y ys' =>
      have hbps : x.commissionBps = y.commissionBps := by
        apply hsame pubkey
        · rw [hx]
          exact mem_cons_self
        · rw [hcomms.mem_iff, hy]
          exact mem_cons_self
      rw [hx, hy] at hcomms
      simp only [head?_cons, Option.map_some, hbps, settle_perm _ hcomms]

theorem mergeEntry_settled (hsame : SameCommission (xs ++ ys)) (hfits : SumsFit (xs ++ ys))
    (pubkey : Pubkey) :
    mergeEntry (settled pubkey xs) (settled pubkey ys) = settled pubkey (xs ++ ys) := by
  have hsum := hfits.commissions pubkey
  have hbps := hsame pubkey
  unfold settled
  rw [commissionsOf_append] at hsum hbps ⊢
  cases hx : commissionsOf pubkey xs with
  | nil => rfl
  | cons x xs' =>
    rw [hx] at hsum hbps
    cases hy : commissionsOf pubkey ys with
    | nil => simp
    | cons y ys' =>
      rw [hy] at hsum hbps
      have heq : y.commissionBps = x.commissionBps := hbps y (by simp) x (by simp)
      simp only [head?_cons, Option.map_some, mergeEntry, cons_append, heq]
      rw [accumulateLamports_settle _ hsum]
      rfl

variable {accumulator : RewardsAccumulator Pubkey}

theorem Accumulates.perm
    (h : Accumulates accumulator xs) (hsame : SameCommission xs) (hperm : xs.Perm ys) :
    Accumulates accumulator ys where
  count := by rw [h.count, hperm.length_eq]
  stakeRewards := by rw [h.stakeRewards, (hperm.map _).sum_eq]
  commissions := fun pubkey => (h.commissions pubkey).trans (settled_perm hsame hperm pubkey)

theorem Accumulates.mergeInto {src dst : RewardsAccumulator Pubkey} (hsrc : Accumulates src xs)
    (hdst : Accumulates dst ys) (hsame : SameCommission (xs ++ ys)) (hfits : SumsFit (xs ++ ys)) :
    Accumulates (src.mergeInto dst) (xs ++ ys) where
  count := by
    have hcount := hfits.count
    rw [length_append] at hcount ⊢
    simp only [RewardsAccumulator.mergeInto, hsrc.count, hdst.count]
    rw [saturatingAdd_of_le (by omega), add_comm]
  stakeRewards := by
    have hsum := hfits.stakeRewards
    rw [map_append, sum_append] at hsum ⊢
    simp only [RewardsAccumulator.mergeInto, hsrc.stakeRewards, hdst.stakeRewards]
    rw [saturatingAdd_of_le (by omega), add_comm]
  commissions := by
    intro pubkey
    refine (get?_foldl_addCommission src.rewardCommissions.keys_nodup _ _).trans ?_
    exact (congrArg₂ mergeEntry (hsrc.commissions pubkey) (hdst.commissions pubkey)).trans
      (mergeEntry_settled hsame hfits pubkey)

theorem Accumulates.accumulateIntoLarger {left right : RewardsAccumulator Pubkey}
    (hleft : Accumulates left xs) (hright : Accumulates right ys)
    (hsame : SameCommission (xs ++ ys)) (hfits : SumsFit (xs ++ ys)) :
    Accumulates (left.accumulateIntoLarger right) (xs ++ ys) := by
  unfold RewardsAccumulator.accumulateIntoLarger
  split
  · have hperm : (xs ++ ys).Perm (ys ++ xs) := perm_append_comm
    have hmerged := hright.mergeInto hleft (hsame.perm hperm) (hfits.perm hperm)
    exact hmerged.perm (hsame.perm hperm) hperm.symm
  · exact hleft.mergeInto hright hsame hfits

theorem Accumulates.addReward {reward : RewardAccumulation Pubkey} (h : Accumulates accumulator xs)
    (hsame : SameCommission (xs ++ [reward])) (hfits : SumsFit (xs ++ [reward])) :
    Accumulates (accumulator.addReward reward) (xs ++ [reward]) where
  count := by
    have hcount := hfits.count
    rw [length_append, length_singleton] at hcount ⊢
    simp only [RewardsAccumulator.addReward, h.count]
    exact saturatingAdd_of_le hcount
  stakeRewards := by
    have hsum := hfits.stakeRewards
    rw [map_append, sum_append, map_singleton, sum_singleton] at hsum ⊢
    simp only [RewardsAccumulator.addReward, h.stakeRewards]
    exact saturatingAdd_of_le hsum
  commissions := by
    intro pubkey
    have hperm : (xs ++ [reward]).Perm ([reward] ++ xs) := perm_append_comm
    rw [settled_perm hsame hperm, ← mergeEntry_settled (hsame.perm hperm) (hfits.perm hperm),
      ← h.commissions]
    cases hcomm : reward.commission with
    | none => simp [RewardsAccumulator.addReward, hcomm]
    | some entry =>
      simp only [RewardsAccumulator.addReward, hcomm, Option.elim_some, get?_addCommission]
      by_cases hkey : pubkey = entry.1
      · subst hkey
        simp [hcomm, settle_singleton]
      · have hother : ¬ entry.1 = pubkey := fun h => hkey h.symm
        simp [hcomm, hkey, hother]

end Accumulation

theorem accumulates_new : Accumulates (.new : RewardsAccumulator Pubkey) [] where
  count := rfl
  stakeRewards := rfl
  commissions := fun _ => rfl

theorem accumulates_foldl (rewards : List (RewardAccumulation Pubkey))
    (hsame : SameCommission rewards) (hfits : SumsFit rewards) :
    Accumulates (rewards.foldl RewardsAccumulator.addReward .new) rewards := by
  induction rewards using reverseRecOn with
  | nil => exact accumulates_new
  | append_singleton rewards reward ih =>
    rw [foldl_append]
    exact (ih hsame.left hfits.left).addReward hsame hfits

theorem accumulates_reduce (reduction : Reduction (RewardAccumulation Pubkey))
    (hsame : SameCommission reduction.items) (hfits : SumsFit reduction.items) :
    Accumulates (RewardsAccumulator.reduce reduction) reduction.items := by
  induction reduction with
  | chunk rewards => exact accumulates_foldl rewards hsame hfits
  | merge left right ihleft ihright =>
    have hperm : (left.items ++ right.items).Perm (right.items ++ left.items) :=
      perm_append_comm
    exact (ihleft hsame.left hfits.left).accumulateIntoLarger
      (ihright (hsame.perm hperm).left (hfits.perm hperm).left) hsame hfits

theorem Accumulates.unique {x y : RewardsAccumulator Pubkey}
    {rewards : List (RewardAccumulation Pubkey)} (hx : Accumulates x rewards)
    (hy : Accumulates y rewards) : x = y := by
  have hcomms : x.rewardCommissions = y.rewardCommissions := by
    apply ext_get?
    intro pubkey
    rw [hx.commissions, hy.commissions]
  have hcount := hx.count.trans hy.count.symm
  have hsum := hx.stakeRewards.trans hy.stakeRewards.symm
  cases x
  cases y
  simp_all

structure SettledBy (commission : RewardCommission) (entries : List RewardCommission) : Prop where
  isVoteAccount : commission.isVoteAccount = entries.any (·.isVoteAccount)
  paid : commission.commissionLamports =
    if entries.any (·.isVoteAccount) then commissionSum true entries
    else (entries.map (·.commissionLamports)).sum
  burned : commission.burnedLamports =
    burnedSum entries + if entries.any (·.isVoteAccount) then commissionSum false entries else 0
  conserved : commission.commissionLamports + commission.burnedLamports = totalLamports entries

theorem settle_settledBy : SettledBy (settle commissionBps entries) entries where
  isVoteAccount := rfl
  paid := by
    change (if someVoteAccount entries then _ else _) = if someVoteAccount entries then _ else _
    split
    · rfl
    next hnone =>
      have hall : entries.filter (·.isVoteAccount = false) = entries := by
        apply filter_eq_self.mpr
        intro entry hentry
        simpa using fun h => hnone (any_eq_true.mpr ⟨entry, hentry, h⟩)
      rw [commissionSum, hall]
  burned := rfl
  conserved := settle_lamports commissionBps entries

/-- The accumulator of the rewards of an epoch does not depend on how the rewards are cut into
chunks, how the chunks are merged and in which order a merge visits the commissions. -/
theorem commission_accumulation_deterministic (rewards : List (RewardAccumulation Pubkey))
    (hsame : SameCommission rewards) (hfits : SumsFit rewards)
    (reduction : Reduction (RewardAccumulation Pubkey)) (hitems : reduction.items.Perm rewards) :
    (∀ other : Reduction (RewardAccumulation Pubkey), other.items.Perm rewards →
      RewardsAccumulator.reduce other = RewardsAccumulator.reduce reduction ∧
        ∀ accumulator, RewardsAccumulator.Reduces other accumulator →
          accumulator = RewardsAccumulator.reduce reduction) ∧
    (RewardsAccumulator.reduce reduction).numStakeRewards = rewards.length ∧
    (RewardsAccumulator.reduce reduction).totalStakeRewardsLamports =
      (rewards.map (·.stakeReward)).sum ∧
    ∀ pubkey,
      match (RewardsAccumulator.reduce reduction).rewardCommissions.get? pubkey with
      | none => commissionsOf pubkey rewards = []
      | some commission =>
        commissionsOf pubkey rewards ≠ [] ∧
          SettledBy commission (commissionsOf pubkey rewards) := by
  have hreduced : ∀ other : Reduction (RewardAccumulation Pubkey), other.items.Perm rewards →
      Accumulates (RewardsAccumulator.reduce other) rewards := by
    intro other hother
    have hsame' := hsame.perm hother.symm
    exact (accumulates_reduce other hsame' (hfits.perm hother.symm)).perm hsame' hother
  have hthis := hreduced reduction hitems
  refine ⟨fun other hother => ?_, hthis.count, hthis.stakeRewards, fun pubkey => ?_⟩
  · have hsameResult := (hreduced other hother).unique hthis
    exact ⟨hsameResult, fun accumulator hreduces => hreduces.eq_reduce.trans hsameResult⟩
  rw [hthis.commissions, settled]
  cases hentries : commissionsOf pubkey rewards with
  | nil => rfl
  | cons first entries => exact ⟨cons_ne_nil _ _, settle_settledBy _ _⟩

/-- A collector which is a vote account for one delegation and not for another. -/
def mixedRewards : List (RewardAccumulation ℕ) :=
  [⟨7, some (1, ⟨none, 5, 0, false⟩)⟩, ⟨3, some (1, ⟨none, 2, 0, true⟩)⟩, ⟨0, none⟩]

attribute [local simp] mixedRewards

theorem commission_accumulation_deterministic_mixed :
    RewardsAccumulator.reduce
        (.merge (.chunk [mixedRewards[1]]) (.chunk [mixedRewards[0], ⟨0, none⟩])) =
      RewardsAccumulator.reduce (.chunk mixedRewards) := by
  have hsame : SameCommission mixedRewards := by
    intro pubkey x hx y hy
    by_cases hkey : 1 = pubkey
    · subst hkey
      have hnone : ∀ z ∈ commissionsOf 1 mixedRewards, z.commissionBps = none := by decide
      rw [hnone x hx, hnone y hy]
    · simp [hkey] at hx
  have hfits : SumsFit mixedRewards := by
    refine ⟨by decide, by decide, ?_⟩
    intro pubkey
    by_cases hkey : 1 = pubkey
    · subst hkey
      decide
    · simp [hkey]
  have hswap : (Reduction.merge (.chunk [mixedRewards[1]])
      (.chunk [mixedRewards[0], ⟨0, none⟩])).items.Perm mixedRewards := .swap _ _ _
  exact ((commission_accumulation_deterministic mixedRewards hsame hfits (.chunk mixedRewards)
    (List.Perm.refl _)).1 _ hswap).1

end RakuraiValidator.InflationRewards
