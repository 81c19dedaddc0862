import RakuraiValidator.CostTracker
import RakuraiValidator.Traces
import Mathlib.Algebra.BigOperators.Group.List.Lemmas

/-!
# The cost tracker accounts for the tracked transactions

A tracked transaction costs its estimate until the actual units are known.  The block
cost, the costs of the accounts and the counters are sums over the tracked transactions,
and each call of the tracker changes them accordingly.
-/

namespace RakuraiValidator.CostModel

open Nat

variable {Pubkey : Type}

theorem saturatingAdd_of_lt {a b : ℕ} (h : a + b < 2 ^ 64) : saturatingAdd a b = a + b := by
  unfold saturatingAdd maxU64
  omega

theorem fetchSub_of_le {blockCost adjustment : ℕ} (hle : adjustment ≤ blockCost)
    (hlt : blockCost < 2 ^ 64) :
    CostTracker.fetchSub blockCost adjustment = blockCost - adjustment := by
  unfold CostTracker.fetchSub
  omega

/-- The cost of an account; an account without an entry costs nothing. -/
def accountCost (costs : Pubkey → Option ℕ) (account : Pubkey) : ℕ := (costs account).getD 0

attribute [local simp] accountCost

namespace TransactionCost

def total (self : TransactionCost Pubkey) : ℕ :=
  self.signatureCost + self.writeLockCost + self.dataBytesCost + self.programsExecutionCost +
    self.loadedAccountsDataSizeCost

theorem sum_eq_total {self : TransactionCost Pubkey} (h : self.total < 2 ^ 64) :
    self.sum = self.total := by
  unfold total at *
  unfold sum saturatingAdd maxU64
  omega

end TransactionCost

variable {accountLimit : ℕ}

section Loops

variable [DecidableEq Pubkey]

open CostTracker

theorem accountCost_update (costs : Pubkey → Option ℕ) (account other : Pubkey) (entry : Option ℕ) :
    accountCost (Function.update costs account entry) other =
      if other = account then entry.getD 0 else accountCost costs other := by
  by_cases h : other = account
  · subst h
    simp
  · simp [h]

theorem accountCost_rollBackAccountCost (cost : ℕ) (costs : Pubkey → Option ℕ)
    (account other : Pubkey) :
    accountCost (rollBackAccountCost cost costs account) other =
      if other = account then accountCost costs account - cost else accountCost costs other := by
  unfold rollBackAccountCost
  cases hentry : costs account with
  | none =>
    by_cases h : other = account
    · subst h
      simp [hentry]
    · simp [h]
  | some accountCost' =>
    simp only [accountCost_update]
    split
    · rename_i h
      simp only [accountCost, hentry, Option.getD_some]
      split <;> simp_all
    · rfl

variable {cost : ℕ} {costs : Pubkey → Option ℕ}

theorem applyAccountCosts_cons (hcost : cost ≤ accountLimit) (account : Pubkey)
    (accounts : List Pubkey) (index costliest : ℕ)
    (hfits : accountCost costs account + cost < 2 ^ 64) :
    applyAccountCosts accountLimit cost (account :: accounts) index costliest costs =
      if accountLimit < accountCost costs account + cost then (costs, .error index)
      else applyAccountCosts accountLimit cost accounts (index + 1)
        (max costliest (accountCost costs account + cost))
        (Function.update costs account (some (accountCost costs account + cost))) := by
  rw [applyAccountCosts]
  cases hentry : costs account with
  | none =>
    have hzero : accountCost costs account = 0 := by simp [hentry]
    rw [hzero, zero_add, if_neg (Nat.not_lt.mpr hcost)]
  | some charged =>
    have hsome : accountCost costs account = charged := by simp [hentry]
    rw [hsome] at hfits ⊢
    simp only [saturatingAdd_of_lt hfits]

theorem applyAccountCosts_cases (hcost : cost ≤ accountLimit) {accounts : List Pubkey}
    (hnodup : accounts.Nodup) (index costliest : ℕ)
    (hfits : ∀ account ∈ accounts, accountCost costs account + cost < 2 ^ 64) :
    (∃ charged costliest',
      applyAccountCosts accountLimit cost accounts index costliest costs =
        (charged, .ok costliest') ∧
      (∀ account, accountCost charged account =
        if account ∈ accounts then accountCost costs account + cost
        else accountCost costs account) ∧
      ∀ account ∈ accounts, accountCost costs account + cost ≤ accountLimit) ∨
    (∃ charged numApplied,
      applyAccountCosts accountLimit cost accounts index costliest costs =
        (charged, .error (index + numApplied)) ∧
      ∀ account, accountCost charged account =
        if account ∈ accounts.take numApplied then accountCost costs account + cost
        else accountCost costs account) := by
  induction accounts generalizing index costliest costs with
  | nil =>
    left
    exact ⟨costs, costliest, rfl, by simp, by simp⟩
  | cons account accounts ih =>
    obtain ⟨hacct, hrest⟩ := List.nodup_cons.mp hnodup
    rw [applyAccountCosts_cons hcost account accounts index costliest
      (hfits account List.mem_cons_self)]
    by_cases hlim : accountLimit < accountCost costs account + cost
    · right
      rw [if_pos hlim]
      exact ⟨costs, 0, rfl, by simp⟩
    · rw [if_neg hlim]
      have hother : ∀ other ∈ accounts, other ≠ account := by
        intro other hmem heq
        exact hacct (heq ▸ hmem)
      have hfits' : ∀ other ∈ accounts, accountCost (Function.update costs account
          (some (accountCost costs account + cost))) other + cost < 2 ^ 64 := by
        intro other hmem
        rw [accountCost_update, if_neg (hother other hmem)]
        exact hfits other (List.mem_cons_of_mem account hmem)
      -- The rest of the loop leaves the account alone, which occurs only once.
      rcases ih hrest (index + 1) (max costliest (accountCost costs account + cost)) hfits' with
        ⟨charged, costliest', hres, hcharged, hwithin⟩ | ⟨charged, numApplied, hres, hcharged⟩
      · left
        refine ⟨charged, costliest', hres, ?_, ?_⟩
        · intro other
          rw [hcharged, accountCost_update]
          by_cases heq : other = account
          · subst heq
            simp [hacct]
          · simp [heq]
        · intro other hmem
          rcases List.mem_cons.mp hmem with heq | hmem'
          · subst heq
            exact Nat.not_lt.mp hlim
          · have := hwithin other hmem'
            rwa [accountCost_update, if_neg (hother other hmem')] at this
      · right
        refine ⟨charged, numApplied + 1, ?_, ?_⟩
        · rw [hres]
          congr 2
          omega
        · intro other
          rw [hcharged, accountCost_update, List.take_succ_cons]
          by_cases heq : other = account
          · subst heq
            have : other ∉ accounts.take numApplied := fun h => hacct (List.mem_of_mem_take h)
            simp [this]
          · simp [heq]

end Loops

/-- A tracked transaction, with the actual execution units and the cost of the loaded data
once they are known. -/
structure Tracked (Id Pubkey : Type) where
  id : Id
  txCost : TransactionCost Pubkey
  actual : Option (ℕ × ℕ)

def Tracked.currentCost {Id : Type} (record : Tracked Id Pubkey) : ℕ :=
  match record.actual with
  | none => record.txCost.total
  | some (executionUnits, loadedCost) =>
    record.txCost.total -
      (record.txCost.programsExecutionCost + record.txCost.loadedAccountsDataSizeCost) +
      (executionUnits + loadedCost)

section Sums

variable {Id : Type} (tracked : List (Tracked Id Pubkey))

def blockSum : ℕ :=
  (tracked.map Tracked.currentCost).sum

def counterSum (counter : Counter) : ℕ :=
  (tracked.map fun record => record.txCost.amount counter).sum

variable (record : Tracked Id Pubkey)

theorem blockSum_cons :
    blockSum (record :: tracked) = record.currentCost + blockSum tracked := by
  simp [blockSum]

theorem counterSum_cons (counter : Counter) :
    counterSum (record :: tracked) counter =
      record.txCost.amount counter + counterSum tracked counter := by
  simp [counterSum]

variable [DecidableEq Pubkey]

def Tracked.costFor (record : Tracked Id Pubkey) (account : Pubkey) : ℕ :=
  if account ∈ record.txCost.writableAccounts then record.currentCost else 0

def accountSum (tracked : List (Tracked Id Pubkey)) (account : Pubkey) : ℕ :=
  (tracked.map fun record => record.costFor account).sum

theorem accountSum_le_blockSum (tracked : List (Tracked Id Pubkey)) (account : Pubkey) :
    accountSum tracked account ≤ blockSum tracked := by
  apply List.sum_le_sum
  intro record _
  unfold Tracked.costFor
  split
  · exact le_rfl
  · exact zero_le _

structure Accounts (tracker : CostTracker Pubkey) (tracked : List (Tracked Id Pubkey)) : Prop where
  block : tracker.blockCost = blockSum tracked
  account : ∀ account,
    accountCost tracker.costByWritableAccounts account = accountSum tracked account
  counter : ∀ counter, tracker.counters counter = counterSum tracked counter

theorem Accounts.perm {tracker : CostTracker Pubkey} {tracked tracked' : List (Tracked Id Pubkey)}
    (h : Accounts tracker tracked) (hperm : tracked.Perm tracked') : Accounts tracker tracked' := by
  constructor
  · rw [h.block]
    exact (hperm.map _).sum_eq
  · intro account
    rw [h.account]
    exact (hperm.map _).sum_eq
  · intro counter
    rw [h.counter]
    exact (hperm.map _).sum_eq

structure Fits (tracked : List (Tracked Id Pubkey)) (txCost : TransactionCost Pubkey) : Prop where
  block : blockSum tracked + txCost.total < 2 ^ 64
  counter : ∀ counter, counterSum tracked counter + txCost.amount counter < 2 ^ 64

theorem accountSum_cons (tracked : List (Tracked Id Pubkey)) (account : Pubkey) :
    accountSum (record :: tracked) account = record.costFor account + accountSum tracked account := by
  simp [accountSum]

variable {tracker : CostTracker Pubkey} {tracked : List (Tracked Id Pubkey)}
  {txCost : TransactionCost Pubkey} {id : Id}

theorem Accounts.tryAdd (h : Accounts tracker tracked) (hnodup : txCost.writableAccounts.Nodup)
    (hfits : Fits tracked txCost) :
    (∃ next updated, tracker.tryAdd txCost = (next, .ok updated) ∧
      (∀ id : Id, Accounts next (⟨id, txCost, none⟩ :: tracked)) ∧
      next.limits = tracker.limits ∧ next.blockCost ≤ tracker.limits.blockCost ∧
      (∀ account ∈ txCost.writableAccounts,
        accountCost next.costByWritableAccounts account ≤ tracker.limits.accountCost) ∧
      next.counters .allocatedAccountsDataSize ≤ tracker.limits.allocatedDataSize) ∨
    (∃ next err, tracker.tryAdd txCost = (next, .error err) ∧ next.limits = tracker.limits ∧
      next.blockCost = tracker.blockCost ∧ next.counters = tracker.counters ∧
      ∀ account, accountCost next.costByWritableAccounts account =
        accountCost tracker.costByWritableAccounts account) := by
  have htot : txCost.total < 2 ^ 64 := by
    have := hfits.block
    omega
  have hblock : tracker.blockCost + txCost.total < 2 ^ 64 := by
    rw [h.block]
    exact hfits.block
  have hcount : ∀ counter, saturatingAdd (tracker.counters counter) (txCost.amount counter) =
      tracker.counters counter + txCost.amount counter := by
    intro counter
    apply saturatingAdd_of_lt
    rw [h.counter]
    exact hfits.counter counter
  have halloc : saturatingAdd (tracker.counters .allocatedAccountsDataSize)
      txCost.allocatedAccountsDataSize =
      tracker.counters .allocatedAccountsDataSize + txCost.allocatedAccountsDataSize :=
    hcount .allocatedAccountsDataSize
  have hacct : ∀ account ∈ txCost.writableAccounts,
      accountCost tracker.costByWritableAccounts account + txCost.total < 2 ^ 64 := by
    intro account _
    have hle := accountSum_le_blockSum tracked account
    have := hfits.block
    rw [h.account]
    omega
  simp only [CostTracker.tryAdd, txCost.sum_eq_total htot, saturatingAdd_of_lt hblock,
    halloc, hcount]
  by_cases hblockLim : tracker.limits.blockCost < tracker.blockCost + txCost.total
  · right
    rw [if_pos hblockLim]
    exact ⟨tracker, _, rfl, rfl, rfl, rfl, fun _ => rfl⟩
  rw [if_neg hblockLim]
  by_cases hcostLim : tracker.limits.accountCost < txCost.total
  · right
    rw [if_pos hcostLim]
    exact ⟨tracker, _, rfl, rfl, rfl, rfl, fun _ => rfl⟩
  rw [if_neg hcostLim]
  by_cases hdataLim : tracker.limits.allocatedDataSize <
      tracker.counters .allocatedAccountsDataSize + txCost.allocatedAccountsDataSize
  · right
    rw [if_pos hdataLim]
    exact ⟨tracker, _, rfl, rfl, rfl, rfl, fun _ => rfl⟩
  rw [if_neg hdataLim]
  rcases applyAccountCosts_cases (Nat.not_lt.mp hcostLim) hnodup 0 0 hacct with
    ⟨charged, costliest, hres, hcharged, hwithin⟩ | ⟨charged, numApplied, hres, hcharged⟩
  · left
    have hfetch : CostTracker.fetchAdd tracker.blockCost txCost.total =
        tracker.blockCost + txCost.total := mod_eq_of_lt hblock
    simp only [hres, hfetch]
    refine ⟨_, _, rfl, ?_, rfl, ?_, ?_, ?_⟩
    · intro id
      constructor
      · rw [blockSum_cons, ← h.block]
        exact add_comm _ _
      · intro account
        rw [accountSum_cons, ← h.account, hcharged]
        unfold Tracked.costFor
        split
        · exact add_comm _ _
        · exact (zero_add _).symm
      · intro counter
        rw [counterSum_cons, ← h.counter]
        exact add_comm _ _
    · exact Nat.not_lt.mp hblockLim
    · intro account hmem
      have := hwithin account hmem
      simp only [hcharged, hmem, if_true]
      exact this
    · exact Nat.not_lt.mp hdataLim
  · right
    rw [zero_add] at hres
    simp only [hres]
    refine ⟨_, _, rfl, rfl, rfl, rfl, fun account => ?_⟩
    unfold CostTracker.rollBackAppliedCosts
    rw [Traces.foldl_view_of_nodup accountCost (g := (· - txCost.total))
      (accountCost_rollBackAccountCost _) (hnodup.sublist (List.take_sublist _ _)), hcharged]
    split <;> omega

theorem accountCost_foldl_adjust (hnodup : txCost.writableAccounts.Nodup) (adjust : ℕ → ℕ)
    (costs : Pubkey → Option ℕ) (account : Pubkey) :
    accountCost (txCost.writableAccounts.foldl (CostTracker.adjustAccountCost adjust) costs)
        account =
      if account ∈ txCost.writableAccounts then adjust (accountCost costs account)
      else accountCost costs account :=
  Traces.foldl_view_of_nodup accountCost (fun _ _ _ => accountCost_update ..) hnodup costs account

variable (h : Accounts tracker (⟨id, txCost, none⟩ :: tracked))

include h

theorem Accounts.remove (hnodup : txCost.writableAccounts.Nodup)
    (hrange : blockSum (⟨id, txCost, none⟩ :: tracked : List (Tracked Id Pubkey)) < 2 ^ 64) :
    Accounts (tracker.remove txCost) tracked := by
  have hcur : (⟨id, txCost, none⟩ : Tracked Id Pubkey).currentCost = txCost.total := rfl
  rw [blockSum_cons, hcur] at hrange
  have htot : txCost.total < 2 ^ 64 := by omega
  have hblock := h.block
  rw [blockSum_cons, hcur] at hblock
  constructor
  · change CostTracker.fetchSub tracker.blockCost txCost.sum = _
    rw [txCost.sum_eq_total htot, fetchSub_of_le (by omega) (by omega)]
    omega
  · intro account
    have hacct := h.account account
    rw [accountSum_cons, Tracked.costFor, hcur] at hacct
    change accountCost (txCost.writableAccounts.foldl (CostTracker.adjustAccountCost
      (· - txCost.sum)) tracker.costByWritableAccounts) account = _
    rw [accountCost_foldl_adjust hnodup, txCost.sum_eq_total htot, hacct]
    split <;> omega
  · intro counter
    have hcount := h.counter counter
    rw [counterSum_cons] at hcount
    change tracker.counters counter - txCost.amount counter = _
    rw [hcount]
    exact Nat.add_sub_cancel_left _ _

theorem Accounts.settle {next : CostTracker Pubkey} {actual : Option (ℕ × ℕ)} {current : ℕ}
    (hcur : (⟨id, txCost, actual⟩ : Tracked Id Pubkey).currentCost = current)
    (hblock : next.blockCost + txCost.total = tracker.blockCost + current)
    (hacct : ∀ account ∈ txCost.writableAccounts,
      accountCost next.costByWritableAccounts account + txCost.total =
      accountCost tracker.costByWritableAccounts account + current)
    (hother : ∀ account ∉ txCost.writableAccounts,
      accountCost next.costByWritableAccounts account =
      accountCost tracker.costByWritableAccounts account)
    (hcounts : next.counters = tracker.counters) :
    Accounts next (⟨id, txCost, actual⟩ :: tracked) := by
  have hest : (⟨id, txCost, none⟩ : Tracked Id Pubkey).currentCost = txCost.total := rfl
  constructor
  · have hbefore := h.block
    rw [blockSum_cons, hest] at hbefore
    rw [blockSum_cons, hcur]
    omega
  · intro account
    have hbefore := h.account account
    rw [accountSum_cons, Tracked.costFor, hest] at hbefore
    rw [accountSum_cons, Tracked.costFor, hcur]
    by_cases hmem : account ∈ txCost.writableAccounts
    · have := hacct account hmem
      simp only [hmem, if_true] at hbefore ⊢
      omega
    · have := hother account hmem
      simp only [hmem, if_false] at hbefore ⊢
      omega
  · intro counter
    rw [hcounts, h.counter, counterSum_cons, counterSum_cons]

theorem Accounts.updateExecutionCost (hnodup : txCost.writableAccounts.Nodup)
    {executionUnits loadedCost : ℕ}
    (hbefore : blockSum (⟨id, txCost, none⟩ :: tracked : List (Tracked Id Pubkey)) < 2 ^ 64)
    (hafter : blockSum (⟨id, txCost, some (executionUnits,
      loadedCost)⟩ :: tracked : List (Tracked Id Pubkey)) < 2 ^ 64) :
    Accounts (tracker.updateExecutionCost txCost executionUnits loadedCost)
      (⟨id, txCost, some (executionUnits, loadedCost)⟩ :: tracked) := by
  let estimated := txCost.programsExecutionCost + txCost.loadedAccountsDataSizeCost
  let actual := executionUnits + loadedCost
  have hestimated : estimated ≤ txCost.total := by
    simp only [estimated, TransactionCost.total]
    omega
  have hblock : tracker.blockCost = txCost.total + blockSum tracked := by
    rw [h.block, blockSum_cons]
    rfl
  have hbefore' : txCost.total + blockSum tracked < 2 ^ 64 := by
    rw [blockSum_cons] at hbefore
    exact hbefore
  have hafter' : txCost.total - estimated + actual + blockSum tracked < 2 ^ 64 := by
    rw [blockSum_cons] at hafter
    exact hafter
  have hcost : ∀ account ∈ txCost.writableAccounts,
      accountCost tracker.costByWritableAccounts account =
        txCost.total + accountSum tracked account := by
    intro account hmem
    rw [h.account, accountSum_cons, Tracked.costFor]
    simp only [hmem, if_true]
    rfl
  have hactualAdd : saturatingAdd executionUnits loadedCost = actual :=
    saturatingAdd_of_lt (by omega)
  have hestAdd : saturatingAdd txCost.programsExecutionCost
      txCost.loadedAccountsDataSizeCost = estimated := saturatingAdd_of_lt (by omega)
  simp only [CostTracker.updateExecutionCost, hactualAdd, hestAdd]
  by_cases hequal : actual = estimated
  · rw [if_pos hequal]
    apply h.settle rfl
    · change _ = _ + (txCost.total - estimated + actual)
      omega
    · intro account _
      change _ = _ + (txCost.total - estimated + actual)
      omega
    · exact fun _ _ => rfl
    · rfl
  rw [if_neg hequal]
  by_cases hgreater : estimated < actual
  · rw [if_pos hgreater]
    apply h.settle rfl
    · change CostTracker.fetchAdd tracker.blockCost (actual - estimated) + _ =
        _ + (txCost.total - estimated + actual)
      rw [CostTracker.fetchAdd, mod_eq_of_lt (by omega)]
      omega
    · intro account hmem
      have hle := accountSum_le_blockSum tracked account
      have := hcost account hmem
      change accountCost (txCost.writableAccounts.foldl (CostTracker.adjustAccountCost
        (saturatingAdd · (actual - estimated))) tracker.costByWritableAccounts) account + _ =
        _ + (txCost.total - estimated + actual)
      rw [accountCost_foldl_adjust hnodup, if_pos hmem, saturatingAdd_of_lt (by omega)]
      omega
    · intro account hmem
      change accountCost (txCost.writableAccounts.foldl _ _) account = _
      rw [accountCost_foldl_adjust hnodup, if_neg hmem]
    · rfl
  · rw [if_neg hgreater]
    apply h.settle rfl
    · change CostTracker.fetchSub tracker.blockCost (estimated - actual) + _ =
        _ + (txCost.total - estimated + actual)
      rw [fetchSub_of_le (by omega) (by omega)]
      omega
    · intro account hmem
      have := hcost account hmem
      change accountCost (txCost.writableAccounts.foldl (CostTracker.adjustAccountCost
        (· - (estimated - actual))) tracker.costByWritableAccounts) account + _ =
        _ + (txCost.total - estimated + actual)
      rw [accountCost_foldl_adjust hnodup, if_pos hmem]
      omega
    · intro account hmem
      change accountCost (txCost.writableAccounts.foldl _ _) account = _
      rw [accountCost_foldl_adjust hnodup, if_neg hmem]
    · rfl

end Sums

end RakuraiValidator.CostModel
