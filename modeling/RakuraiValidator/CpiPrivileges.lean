import RakuraiValidator.InvokeContext
import RakuraiValidator.Traces

/-!
# Nested calls do not escalate privileges

Both passes over the accounts of a call are described by the list of indices the entries have: the
map gives the first position of an index, the first entry of an account has the flags of all its
metas after the first pass, and all entries have them after the second.  What the callee may do with
an account it may do by the rights of the caller, so along every stack of calls all rights go back
to the message or to an address derived from a program on the stack.
-/

namespace RakuraiValidator.Svm

open InstructionAccount
open DescendingPasses (bind_eq_ok_iff)
open List hiding merge

inductive Flag
  | signer
  | writable

def InstructionAccount.has (account : InstructionAccount) : Flag → Bool
  | .signer => account.isSigner
  | .writable => account.isWritable

def AccountMeta.has {Pubkey : Type} (accountMeta : AccountMeta Pubkey) : Flag → Bool
  | .signer => accountMeta.isSigner
  | .writable => accountMeta.isWritable

/-! ## The index map -/

def indices (accounts : List InstructionAccount) : List ℕ :=
  accounts.map indexInTransaction

/-- The position of the first entry of an account. -/
def firstEntry (accounts : List InstructionAccount) (index : ℕ) : ℕ :=
  if index ∈ indices accounts then (indices accounts).idxOf index else u16Max

/-- The map sends each account to its first entry. -/
structure MapsFirst (map : List ℕ) (accounts : List InstructionAccount) : Prop where
  eq : ∀ index j, map[index]? = some j → j = firstEntry accounts index
  covers : ∀ index ∈ indices accounts, index < map.length

variable {accounts : List InstructionAccount} {account : InstructionAccount} {map : List ℕ}
  {index : ℕ}

section Indices

variable {other : InstructionAccount} {j : ℕ}

theorem indices_append : indices (accounts ++ [account]) =
    indices accounts ++ [account.indexInTransaction] := by
  simp [indices]

theorem indices_set (hj : accounts[j]? = some account)
    (hidx : other.indexInTransaction = account.indexInTransaction) :
    indices (accounts.set j other) = indices accounts := by
  apply ext_getElem?
  intro k
  simp only [indices, getElem?_map, getElem?_set]
  grind

theorem firstEntry_congr {accounts' : List InstructionAccount}
    (h : indices accounts' = indices accounts) : firstEntry accounts' = firstEntry accounts := by
  funext index
  rw [firstEntry, firstEntry, h]

theorem firstEntry_lt_iff (hlength : accounts.length ≤ u16Max) :
    firstEntry accounts index < accounts.length ↔ index ∈ indices accounts := by
  have hlen : (indices accounts).length = accounts.length := length_map _
  unfold firstEntry
  split
  next hmem => simp [hmem, ← hlen, idxOf_lt_length_iff]
  next hmem => simp only [hmem, iff_false]; omega

theorem getElem?_firstEntry (h : index ∈ indices accounts) :
    ∃ account, accounts[firstEntry accounts index]? = some account ∧
      account.indexInTransaction = index := by
  rw [firstEntry, if_pos h]
  have hlt := idxOf_lt_length_iff.mpr h
  have hget := getElem_idxOf hlt
  simp only [indices, getElem_map] at hget
  exact ⟨_, getElem?_eq_getElem (by simpa [indices] using hlt), hget⟩

theorem firstEntry_append (hidx : index ∈ indices accounts ∨ index ≠ account.indexInTransaction) :
    firstEntry (accounts ++ [account]) index = firstEntry accounts index := by
  simp only [firstEntry, indices_append, mem_append, mem_singleton]
  by_cases hmem : index ∈ indices accounts
  · rw [if_pos (.inl hmem), if_pos hmem, idxOf_append_of_mem hmem]
  · have hne := hidx.resolve_left hmem
    rw [if_neg (by simp [hmem, hne]), if_neg hmem]

theorem firstEntry_append_new (hidx : account.indexInTransaction ∉ indices accounts) :
    firstEntry (accounts ++ [account]) account.indexInTransaction = accounts.length := by
  simp only [firstEntry, indices_append, mem_append, mem_singleton, or_true, if_true]
  rw [idxOf_append_of_notMem hidx]
  simp [indices]

theorem covers_append {n : ℕ} (h : ∀ index ∈ indices accounts, index < n)
    (hlt : account.indexInTransaction < n) :
    ∀ index ∈ indices (accounts ++ [account]), index < n := by
  intro index hidx
  rw [indices_append, mem_append, mem_singleton] at hidx
  rcases hidx with hidx | rfl
  · exact h index hidx
  · exact hlt

theorem MapsFirst.empty (n : ℕ) : MapsFirst (emptyMap n) [] := by
  constructor
  · intro index j hj
    simp only [emptyMap, getElem?_replicate] at hj
    grind [firstEntry, indices]
  · intro index hidx
    exact absurd hidx not_mem_nil

theorem MapsFirst.known (h : MapsFirst map accounts)
    (hidx : account.indexInTransaction ∈ indices accounts) :
    MapsFirst map (accounts ++ [account]) := by
  constructor
  · intro index j hj
    rw [h.eq index j hj, firstEntry_append]
    grind
  · exact covers_append h.covers (h.covers _ hidx)

theorem MapsFirst.new (h : MapsFirst map accounts) (hlength : accounts.length ≤ u16Max)
    (hsame : account.indexInTransaction = index) (hlt : index < map.length)
    (hidx : index ∉ indices accounts) :
    MapsFirst (map.set index (accounts.length % 2 ^ 16)) (accounts ++ [account]) := by
  subst hsame
  constructor
  · intro index j hj
    have hmod : accounts.length % 2 ^ 16 = accounts.length :=
      Nat.mod_eq_of_lt (by unfold u16Max at hlength; omega)
    rw [getElem?_set, hmod] at hj
    split at hj
    next heq =>
      subst heq
      rw [firstEntry_append_new hidx]
      grind
    next hne => rw [h.eq index j hj, firstEntry_append (.inr (Ne.symm hne))]
  · rw [length_set]
    exact covers_append h.covers hlt

end Indices

/-- The entries of one account have the same flags, and the map finds the first of them. -/
structure InstructionContext.WellFormed (context : InstructionContext) : Prop where
  short : context.instructionAccounts.length ≤ u16Max
  first : MapsFirst context.dedupMap context.instructionAccounts
  equal : ∀ a ∈ context.instructionAccounts, ∀ b ∈ context.instructionAccounts,
    a.indexInTransaction = b.indexInTransaction → a = b

/-- An index of the map is the position of an entry of the account. -/
theorem InstructionContext.WellFormed.entry {context : InstructionContext} (h : context.WellFormed)
    {index j : ℕ} (hj : context.getIndexOfAccountInInstruction index = .ok j) :
    ∃ account, context.instructionAccounts[j]? = some account ∧
      account.indexInTransaction = index := by
  unfold InstructionContext.getIndexOfAccountInInstruction at hj
  split at hj
  next first hfirst =>
    split at hj
    next => cases hj
    next hlt =>
      cases hj
      have heq := h.first.eq index j hfirst
      by_cases hmem : index ∈ indices context.instructionAccounts
      · exact heq ▸ getElem?_firstEntry hmem
      · rw [firstEntry, if_neg hmem] at heq
        have hshort := h.short
        omega
  next => cases hj

/-! ## Top level instructions -/

section TopLevel

variable {Pubkey : Type} {message : Message Pubkey} {instruction : CompiledInstruction}
  {context : InstructionContext}

/-- The entries have the flags of the message. -/
def FromMessage (message : Message Pubkey) (account : InstructionAccount) : Prop :=
  account.isSigner = message.isSigner account.indexInTransaction ∧
    account.isWritable = message.isWritable account.indexInTransaction

theorem prepareTopLevelInstruction_spec
    (h : prepareTopLevelInstruction message instruction = .ok context)
    (hshort : instruction.accounts.length ≤ u16Max) :
    context.WellFormed ∧ ∀ account ∈ context.instructionAccounts, FromMessage message account := by
  obtain ⟨⟨map, accounts⟩, hfold, hctx⟩ := bind_eq_ok_iff.mp h
  cases hctx
  have hloop := Traces.foldlM_invariant (fun done (state : List ℕ × List InstructionAccount) =>
    state.2.length = done.length ∧ (done.length ≤ u16Max → MapsFirst state.1 state.2) ∧
      ∀ account ∈ state.2, FromMessage message account) ?_ ⟨rfl, fun _ => .empty _, by simp⟩ hfold
  · obtain ⟨hlength, hfirst, hflags⟩ := hloop
    refine ⟨⟨hlength ▸ hshort, hfirst hshort, ?_⟩, hflags⟩
    intro a ha b hb hidx
    have hsign := (hflags a ha).1.trans ((congrArg _ hidx).trans (hflags b hb).1.symm)
    have hwritable := (hflags a ha).2.trans ((congrArg _ hidx).trans (hflags b hb).2.symm)
    cases a
    cases b
    simp_all
  · rintro done index ⟨map, accounts⟩ next ⟨hlength, hfirst, hflags⟩ hnext
    dsimp only at hlength hfirst hflags
    simp only [addTopLevelAccount] at hnext
    split at hnext
    next => cases hnext
    next j hj =>
      cases hnext
      refine ⟨by simp [hlength], ?_, by simp [FromMessage, or_imp, forall_and] at hflags ⊢; exact hflags⟩
      intro hdone
      rw [length_append, length_singleton] at hdone
      have hmap := hfirst (by omega)
      have hj' := hmap.eq index j hj
      by_cases hmem : index ∈ indices accounts
      · have hlt := (firstEntry_lt_iff (by omega)).mpr hmem
        rw [if_neg (by omega)]
        exact hmap.known hmem
      · have hnew : firstEntry accounts index = u16Max := if_neg hmem
        rw [if_pos (by omega)]
        exact hmap.new (by omega) rfl (List.getElem?_eq_some_iff.mp hj).1 hmem

end TopLevel

/-! ## Nested calls -/

variable {round : ℕ}

variable {caller : InstructionContext}

section Cpi

variable {Pubkey : Type} [DecidableEq Pubkey] {keys : List Pubkey}
  {metas done : List (AccountMeta Pubkey)} {signers : List Pubkey}

/-- One of the metas of the account has the flag. -/
def Requests (keys : List Pubkey) (metas : List (AccountMeta Pubkey)) (index : ℕ) (flag : Flag) :
    Prop :=
  ∃ accountMeta ∈ metas, findIndexOfAccount keys accountMeta.pubkey = some index ∧
    accountMeta.has flag = true

/-- The entries after the first pass. -/
structure Merged (keys : List Pubkey) (done : List (AccountMeta Pubkey)) (map : List ℕ)
    (accounts : List InstructionAccount) : Prop where
  entries : done.map (fun accountMeta => findIndexOfAccount keys accountMeta.pubkey) =
    (indices accounts).map some
  first : MapsFirst map accounts
  sound : ∀ account ∈ accounts, ∀ flag, account.has flag = true →
    Requests keys done account.indexInTransaction flag
  complete : ∀ index flag, Requests keys done index flag → ∀ account,
    accounts[firstEntry accounts index]? = some account → account.has flag = true

variable {accountMeta : AccountMeta Pubkey}

theorem Merged.mem_indices (h : Merged keys done map accounts) (hmem : accountMeta ∈ done)
    (hidx : findIndexOfAccount keys accountMeta.pubkey = some index) :
    index ∈ indices accounts := by
  have hentry : some index ∈ (indices accounts).map some := by
    rw [← h.entries, ← hidx]
    exact mem_map_of_mem hmem
  simpa using hentry

theorem requests_append {flag : Flag} :
    Requests keys (done ++ [accountMeta]) index flag ↔ Requests keys done index flag ∨
      (findIndexOfAccount keys accountMeta.pubkey = some index ∧ accountMeta.has flag = true) := by
  simp [Requests, or_and_right, exists_or]

/-- A repetition of an account. -/
theorem Merged.repeated (h : Merged keys done map accounts)
    (hidx : findIndexOfAccount keys accountMeta.pubkey = some index)
    {merged : InstructionAccount} (hacct : accounts[firstEntry accounts index]? = some account)
    (hsame : account.indexInTransaction = index) (hmerged : merged.indexInTransaction = index)
    (hflags : ∀ flag, merged.has flag = (account.has flag || accountMeta.has flag)) :
    Merged keys (done ++ [accountMeta]) map
      (accounts.set (firstEntry accounts index) merged ++ [merged]) := by
  have hset := indices_set hacct (hmerged.trans hsame.symm)
  have hmem : index ∈ indices accounts := by
    simp only [indices, mem_map]
    exact ⟨account, mem_of_getElem? hacct, hsame⟩
  have hsound : ∀ flag, merged.has flag = true →
      Requests keys (done ++ [accountMeta]) index flag := by
    intro flag hflag
    rw [hflags, Bool.or_eq_true] at hflag
    rw [requests_append]
    rcases hflag with hold | hnew
    · exact .inl (hsame ▸ h.sound account (mem_of_getElem? hacct) flag hold)
    · exact .inr ⟨hidx, hnew⟩
  constructor
  · rw [map_append, indices_append, hset, h.entries]
    simp [hidx, hmerged]
  · constructor
    · intro i j hj
      rw [h.first.eq i j hj, firstEntry_append (by rw [hset, hmerged]; grind), firstEntry_congr hset]
    · exact covers_append (hset ▸ h.first.covers) (hmerged ▸ h.first.covers _ hmem)
  · intro entry hentry flag hflag
    rcases mem_append.mp hentry with hentry | hentry
    · rcases mem_or_eq_of_mem_set hentry with hold | rfl
      · exact requests_append.mpr (.inl (h.sound entry hold flag hflag))
      · exact hmerged ▸ hsound flag hflag
    · obtain rfl := mem_singleton.mp hentry
      exact hmerged ▸ hsound flag hflag
  · intro i flag hreqs entry hentry
    rw [firstEntry_append (by rw [hset, hmerged]; grind), firstEntry_congr hset] at hentry
    rw [requests_append, hidx, Option.some.injEq] at hreqs
    by_cases hi : index = i
    · subst hi
      have hlt := (List.getElem?_eq_some_iff.mp hacct).1
      rw [getElem?_append_left (by simpa using hlt), getElem?_set_self hlt,
        Option.some.injEq] at hentry
      rw [← hentry, hflags, Bool.or_eq_true]
      rcases hreqs with hold | ⟨_, hnew⟩
      · exact .inl (h.complete _ flag hold account hacct)
      · exact .inr hnew
    · have hold := hreqs.resolve_right fun hnew => hi hnew.1
      obtain ⟨accountMeta, hmeta, hfind, hhas⟩ := hold
      have hi_mem := h.mem_indices hmeta hfind
      obtain ⟨first, hfirst, hfirst_index⟩ := getElem?_firstEntry hi_mem
      have hne : firstEntry accounts index ≠ firstEntry accounts i := by
        intro heq
        rw [heq, hfirst, Option.some.injEq] at hacct
        exact hi (hsame.symm.trans (hacct ▸ hfirst_index))
      have hlt := (List.getElem?_eq_some_iff.mp hfirst).1
      rw [getElem?_append_left (by simpa using hlt), getElem?_set_ne hne] at hentry
      exact h.complete i flag ⟨accountMeta, hmeta, hfind, hhas⟩ entry hentry

/-- The first entry of an account. -/
theorem Merged.new (h : Merged keys done map accounts) (hlength : accounts.length ≤ u16Max)
    (hidx : findIndexOfAccount keys accountMeta.pubkey = some index)
    (hsame : account.indexInTransaction = index) (hlt : index < map.length)
    (hnew : index ∉ indices accounts) (hflags : ∀ flag, account.has flag = accountMeta.has flag) :
    Merged keys (done ++ [accountMeta]) (map.set index (accounts.length % 2 ^ 16))
      (accounts ++ [account]) := by
  subst hsame
  constructor
  · rw [map_append, indices_append, h.entries]
    simp [hidx]
  · exact h.first.new hlength rfl hlt hnew
  · intro entry hentry flag hflag
    rw [requests_append]
    rcases mem_append.mp hentry with hentry | hentry
    · exact .inl (h.sound entry hentry flag hflag)
    · obtain rfl := mem_singleton.mp hentry
      exact .inr ⟨hidx, hflags flag ▸ hflag⟩
  · intro i flag hreqs entry hentry
    rw [requests_append, hidx, Option.some.injEq] at hreqs
    rcases hreqs with ⟨accountMeta, hmeta, hfind, hhas⟩ | ⟨rfl, hhas⟩
    · have hmem := h.mem_indices hmeta hfind
      have hlt := (firstEntry_lt_iff hlength).mpr hmem
      rw [firstEntry_append (.inl hmem), getElem?_append_left hlt] at hentry
      exact h.complete i flag ⟨accountMeta, hmeta, hfind, hhas⟩ entry hentry
    · rw [firstEntry_append_new hnew, getElem?_concat_length, Option.some.injEq] at hentry
      rw [← hentry, hflags, hhas]

theorem addMeta_merged {state next : List ℕ × List InstructionAccount}
    (h : Merged keys done state.1 state.2)
    (hlength : state.2.length < u16Max) (hnext : addMeta keys state accountMeta = .ok next) :
    Merged keys (done ++ [accountMeta]) next.1 next.2 := by
  obtain ⟨map, accounts⟩ := state
  dsimp only at h hlength
  simp only [addMeta] at hnext
  split at hnext
  next => cases hnext
  next index hidx =>
    split at hnext
    next => cases hnext
    next j hj =>
      have hfirst := h.first.eq index j hj
      subst hfirst
      split at hnext
      next hlt =>
        obtain ⟨account, hacct, hsame⟩ :=
          getElem?_firstEntry ((firstEntry_lt_iff hlength.le).mp hlt)
        rw [hacct] at hnext
        cases hnext
        exact h.repeated hidx hacct hsame hsame (by rintro ⟨⟩ <;> rfl)
      next hge =>
        cases hnext
        apply h.new hlength.le hidx rfl (List.getElem?_eq_some_iff.mp hj).1
        · exact fun hmem => hge ((firstEntry_lt_iff hlength.le).mpr hmem)
        · rintro ⟨⟩ <;> rfl

/-- The state after the first pass. -/
theorem merged_of_fold {last : List ℕ × List InstructionAccount} (hshort : metas.length ≤ u16Max)
    (h : metas.foldlM (addMeta keys) (emptyMap keys.length, []) = .ok last) :
    Merged keys metas last.1 last.2 ∧ last.2.length = metas.length := by
  have hloop := Traces.foldlM_invariant (fun done (state : List ℕ × List InstructionAccount) =>
    done.length ≤ u16Max → Merged keys done state.1 state.2) ?_ ?_ h hshort
  · refine ⟨hloop, ?_⟩
    have hlength := congrArg length hloop.entries
    simpa [indices] using hlength.symm
  · intro done accountMeta state next hdone hnext hlength
    rw [length_append, length_singleton] at hlength
    have hmerged := hdone (by omega)
    apply addMeta_merged hmerged _ hnext
    have hlength' := congrArg length hmerged.entries
    simp only [indices, length_map] at hlength'
    omega
  · intro _
    exact ⟨rfl, .empty _, by simp, by simp [Requests]⟩

/-- What the check of a first entry says. -/
def Permits (keys : List Pubkey) (caller : InstructionContext) (signers : List Pubkey)
    (account : InstructionAccount) : Prop :=
  ∃ j callerAccount, caller.getIndexOfAccountInInstruction account.indexInTransaction = .ok j ∧
    caller.instructionAccounts[j]? = some callerAccount ∧
      (account.isWritable = true → callerAccount.isWritable = true) ∧
        (account.isSigner = true → callerAccount.isSigner = true ∨
          ∃ key ∈ signers, keys[account.indexInTransaction]? = some key)

variable {pubkey : Pubkey}

theorem getElem?_of_findIndexOfAccount (h : findIndexOfAccount keys pubkey = some index) :
    keys[index]? = some pubkey := by
  obtain ⟨hlt, hkey, _⟩ := findIdx?_eq_some_iff_getElem.mp h
  rw [getElem?_eq_getElem hlt, of_decide_eq_true hkey]

theorem permits_of_checkPrivileges (hkey : keys[account.indexInTransaction]? = some pubkey)
    (h : checkPrivileges caller signers pubkey account = .ok ()) :
    Permits keys caller signers account := by
  obtain ⟨j, hj, hcheck⟩ := bind_eq_ok_iff.mp h
  split at hcheck
  next => cases hcheck
  next callerAccount hcaller =>
    split at hcheck
    next => cases hcheck
    next hwritable =>
      split at hcheck
      next => cases hcheck
      next hsign =>
        refine ⟨j, callerAccount, hj, hcaller, by simpa using hwritable, ?_⟩
        intro hsigns
        simp only [hsigns, Bool.true_and, Bool.not_eq_true', Bool.or_eq_false_iff,
          not_and_or, Bool.not_eq_false, contains_iff_mem] at hsign
        exact hsign.imp_right fun hmem => ⟨pubkey, hmem, hkey⟩

/-- The entries after some rounds of the second pass. -/
structure Checked (keys : List Pubkey) (caller : InstructionContext) (signers : List Pubkey)
    (metas : List (AccountMeta Pubkey)) (merged : List InstructionAccount) (round : ℕ)
    (accounts : List InstructionAccount) : Prop where
  indices_eq : indices accounts = indices merged
  later : ∀ p, round ≤ p → accounts[p]? = merged[p]?
  firsts : ∀ index ∈ indices merged,
    accounts[firstEntry merged index]? = merged[firstEntry merged index]?
  flags : ∀ p < round, ∀ account, accounts[p]? = some account → ∀ flag,
    (account.has flag = true ↔ Requests keys metas account.indexInTransaction flag)
  permits : ∀ p < round, ∀ account, accounts[p]? = some account →
    firstEntry merged account.indexInTransaction = p → Permits keys caller signers account

variable {merged : List InstructionAccount}

/-- A repeated entry takes the flags of the first one. -/
theorem Checked.repeated (h : Checked keys caller signers metas merged round accounts)
    {updated : InstructionAccount} (hacct : accounts[round]? = some account)
    (hne : round ≠ firstEntry merged account.indexInTransaction)
    (hsame : updated.indexInTransaction = account.indexInTransaction)
    (hflags : ∀ flag, updated.has flag = true ↔
      Requests keys metas account.indexInTransaction flag) :
    Checked keys caller signers metas merged (round + 1) (accounts.set round updated) := by
  have hentry : merged[round]? = some account := (h.later round le_rfl) ▸ hacct
  have hlt := (List.getElem?_eq_some_iff.mp hacct).1
  have hother : ∀ p, p ≠ round → (accounts.set round updated)[p]? = accounts[p]? :=
    fun p hp => getElem?_set_ne (Ne.symm hp)
  constructor
  · rw [indices_set hacct hsame, h.indices_eq]
  · intro p hp
    rw [hother p (by omega), h.later p (by omega)]
  · intro index hidx
    rw [hother, h.firsts index hidx]
    intro heq
    obtain ⟨first, hfirst, hfirst_index⟩ := getElem?_firstEntry hidx
    rw [heq, hentry, Option.some.injEq] at hfirst
    exact hne (by rw [hfirst, hfirst_index, heq])
  · intro p hp entry hentry flag
    rcases Nat.lt_succ_iff_lt_or_eq.mp hp with hp | rfl
    · rw [hother p (by omega)] at hentry
      exact h.flags p hp entry hentry flag
    · rw [getElem?_set_self hlt, Option.some.injEq] at hentry
      rw [← hentry, hsame]
      exact hflags flag
  · intro p hp entry hentry hfirst
    rcases Nat.lt_succ_iff_lt_or_eq.mp hp with hp | rfl
    · rw [hother p (by omega)] at hentry
      exact h.permits p hp entry hentry hfirst
    · rw [getElem?_set_self hlt, Option.some.injEq] at hentry
      rw [← hentry, hsame] at hfirst
      exact absurd hfirst.symm hne

theorem Checked.step {next : List InstructionAccount} (hmerged : Merged keys metas map merged)
    (h : Checked keys caller signers metas merged round accounts)
    (hnext : checkEntry caller signers metas map accounts round = .ok next) :
    Checked keys caller signers metas merged (round + 1) next := by
  simp only [checkEntry] at hnext
  split at hnext
  next => cases hnext
  next account hacct =>
    have hentry : merged[round]? = some account := (h.later round le_rfl) ▸ hacct
    have hmem : account.indexInTransaction ∈ indices merged :=
      mem_map_of_mem (mem_of_getElem? hentry)
    obtain ⟨reference, href, hsame⟩ := getElem?_firstEntry hmem
    have hunion : ∀ flag, reference.has flag = true ↔
        Requests keys metas account.indexInTransaction flag := by
      intro flag
      constructor
      · intro hflag
        exact hsame ▸ hmerged.sound reference (mem_of_getElem? href) flag hflag
      · intro hreqs
        exact hmerged.complete _ flag hreqs reference href
    split at hnext
    next => cases hnext
    next j hj =>
      have hfirst := hmerged.first.eq _ j hj
      subst hfirst
      split at hnext
      next hne =>
        rw [h.firsts _ hmem, href] at hnext
        cases hnext
        refine h.repeated hacct hne (by rfl) ?_
        intro flag
        have hmerge : (account.merge reference.isSigner reference.isWritable).has flag =
            (account.has flag || reference.has flag) := by cases flag <;> rfl
        rw [hmerge, Bool.or_eq_true, hunion]
        exact or_iff_right_of_imp (hmerged.sound account (mem_of_getElem? hentry) flag)
      next heq =>
        split at hnext
        next => cases hnext
        next accountMeta hmeta =>
          obtain ⟨_, hcheck, hok⟩ := bind_eq_ok_iff.mp hnext
          cases hok
          rw [← not_not.mp heq, hentry, Option.some.injEq] at href
          subst href
          have hidx : findIndexOfAccount keys accountMeta.pubkey =
              some account.indexInTransaction := by
            have hents := congrArg (fun l : List (Option ℕ) => l[round]?) hmerged.entries
            simpa [indices, hmeta, hentry] using hents
          have hpermits := permits_of_checkPrivileges (getElem?_of_findIndexOfAccount hidx) hcheck
          refine ⟨h.indices_eq, fun p hp => h.later p (by omega), h.firsts, ?_, ?_⟩
          · intro p hp other hother
            rcases Nat.lt_succ_iff_lt_or_eq.mp hp with hp | rfl
            · exact h.flags p hp other hother
            · rw [hacct, Option.some.injEq] at hother
              exact hother ▸ hunion
          · intro p hp other hother hfirst
            rcases Nat.lt_succ_iff_lt_or_eq.mp hp with hp | rfl
            · exact h.permits p hp other hother hfirst
            · rw [hacct, Option.some.injEq] at hother
              exact hother ▸ hpermits

/-- What the callee of an accepted call gets. -/
structure Delegates (keys : List Pubkey) (caller : InstructionContext)
    (instruction : Instruction Pubkey) (signers : List Pubkey) (callee : InstructionContext) :
    Prop where
  wellFormed : callee.WellFormed
  entries : instruction.accounts.map (fun accountMeta => findIndexOfAccount keys accountMeta.pubkey) =
    (indices callee.instructionAccounts).map some
  flags : ∀ account ∈ callee.instructionAccounts, ∀ flag, account.has flag = true ↔
    Requests keys instruction.accounts account.indexInTransaction flag
  permits : ∀ account ∈ callee.instructionAccounts, Permits keys caller signers account
  program : findIndexOfAccount keys instruction.programId = some callee.programAccountIndexInTx ∧
    ∃ j, caller.getIndexOfAccountInInstruction callee.programAccountIndexInTx = .ok j

theorem checked_of_fold {last : List InstructionAccount} (hmerged : Merged keys metas map merged)
    (h : (List.range merged.length).foldlM (checkEntry caller signers metas map) merged = .ok last) :
    Checked keys caller signers metas merged merged.length last := by
  have hloop := Traces.foldlM_invariant (fun done accounts => done = range done.length →
    Checked keys caller signers metas merged done.length accounts) ?_ ?_ h (by simp)
  · simpa using hloop
  · intro done round accounts next hdone hnext hrange
    rw [length_append, length_singleton, range_succ] at hrange
    obtain ⟨hbefore, hround⟩ := append_inj hrange (by simp)
    obtain rfl := singleton_inj.mp hround
    rw [length_append, length_singleton]
    exact (hdone hbefore).step hmerged hnext
  · intro _
    exact ⟨rfl, fun _ _ => rfl, fun _ _ => rfl, by simp, by simp⟩

theorem InstructionAccount.eq_of_has {a b : InstructionAccount}
    (hidx : a.indexInTransaction = b.indexInTransaction)
    (h : ∀ flag, a.has flag = true ↔ b.has flag = true) : a = b := by
  have hsign := Bool.eq_iff_iff.mpr (h .signer)
  have hwritable := Bool.eq_iff_iff.mpr (h .writable)
  cases a
  cases b
  simp_all [has]

theorem prepareNextCpiInstruction_spec {instruction : Instruction Pubkey}
    {callee : InstructionContext} (hshort : instruction.accounts.length ≤ u16Max)
    (h : prepareNextCpiInstruction keys caller instruction signers = .ok callee) :
    Delegates keys caller instruction signers callee := by
  obtain ⟨⟨map, merged⟩, hmerge, h⟩ := bind_eq_ok_iff.mp h
  obtain ⟨accounts, hcheck, h⟩ := bind_eq_ok_iff.mp h
  obtain ⟨hmerged, hlength⟩ := merged_of_fold hshort hmerge
  dsimp only at hmerged hlength hcheck
  have hchecked := checked_of_fold hmerged hcheck
  have hlen : accounts.length = merged.length := by
    simpa [indices] using congrArg length hchecked.indices_eq
  have hpos : ∀ account ∈ accounts, ∃ p < merged.length, accounts[p]? = some account := by
    intro account hmem
    obtain ⟨p, hp⟩ := mem_iff_getElem?.mp hmem
    exact ⟨p, hlen ▸ (List.getElem?_eq_some_iff.mp hp).1, hp⟩
  have hflags : ∀ account ∈ accounts, ∀ flag, account.has flag = true ↔
      Requests keys instruction.accounts account.indexInTransaction flag := by
    intro account hmem
    obtain ⟨p, hp, hget⟩ := hpos account hmem
    exact hchecked.flags p hp account hget
  have hequal : ∀ a ∈ accounts, ∀ b ∈ accounts,
      a.indexInTransaction = b.indexInTransaction → a = b := by
    intro a ha b hb hidx
    apply eq_of_has hidx
    intro flag
    rw [hflags a ha, hflags b hb, hidx]
  have hfirst := firstEntry_congr hchecked.indices_eq
  have hpermits : ∀ account ∈ accounts, Permits keys caller signers account := by
    intro account hmem
    have hidxs : account.indexInTransaction ∈ indices accounts := mem_map_of_mem hmem
    obtain ⟨first, hget, hidx⟩ := getElem?_firstEntry hidxs
    obtain rfl := hequal first (mem_of_getElem? hget) account hmem hidx
    rw [hfirst] at hget
    exact hchecked.permits _ (hlen ▸ (List.getElem?_eq_some_iff.mp hget).1) _ hget rfl
  split at h
  next => cases h
  next programIndex hprog =>
    obtain ⟨j, hj, hok⟩ := bind_eq_ok_iff.mp h
    cases hok
    refine ⟨⟨by dsimp only; omega, ?_, hequal⟩, ?_, hflags, hpermits, hprog, j, hj⟩
    · constructor
      · intro index j hj
        rw [hfirst]
        exact hmerged.first.eq index j hj
      · intro index hidx
        exact hmerged.first.covers index (hchecked.indices_eq ▸ hidx)
    · rw [hchecked.indices_eq]
      exact hmerged.entries

end Cpi

/-! ## Call stacks -/

section Stacks

variable {Pubkey Seeds : Type} [DecidableEq Pubkey] (message : Message Pubkey)
  (createProgramAddress : Seeds → Pubkey → Option Pubkey)

/-- The contexts on the stack of a call tree, the innermost one first, where every instruction lists
at most as many accounts as a position of the index map can hold. -/
inductive Runs : List InstructionContext → Prop
  | topLevel {instruction : CompiledInstruction} {context : InstructionContext}
      (hshort : instruction.accounts.length ≤ u16Max)
      (h : prepareTopLevelInstruction message instruction = .ok context) : Runs [context]
  | call {caller callee : InstructionContext} {stack : List InstructionContext}
      {instruction : Instruction Pubkey} {signerSeeds : List Seeds} (hrun : Runs (caller :: stack))
      (hshort : instruction.accounts.length ≤ u16Max)
      (h : nativeInvokeSigned message.accountKeys createProgramAddress caller instruction
        signerSeeds = .ok callee) : Runs (callee :: caller :: stack)

/-- The account has the address derived from the program of the context. -/
def DerivedBy (context : InstructionContext) (signerSeeds : List Seeds) (index : ℕ) : Prop :=
  ∃ program seeds key, message.accountKeys[context.programAccountIndexInTx]? = some program ∧
    seeds ∈ signerSeeds ∧ createProgramAddress seeds program = some key ∧
      message.accountKeys[index]? = some key

theorem mem_of_mapM {α β : Type} {f : α → Option β} {l : List α} {bs : List β} {b : β}
    (h : l.mapM f = some bs) (hb : b ∈ bs) : ∃ a ∈ l, f a = some b := by
  induction l generalizing bs with
  | nil =>
    cases h
    exact absurd hb not_mem_nil
  | cons a l ih =>
    rw [mapM_cons] at h
    cases hfa : f a with
    | none => simp [hfa] at h
    | some first =>
      cases hrest : l.mapM f with
      | none => simp [hfa, hrest] at h
      | some rest =>
        simp only [hfa, hrest, Option.pure_def, Option.bind_eq_bind, Option.bind_some,
          Option.some.injEq] at h
        subst h
        rcases mem_cons.mp hb with rfl | hb
        · exact ⟨a, mem_cons_self, hfa⟩
        · obtain ⟨c, hc, hfc⟩ := ih hrest hb
          exact ⟨c, mem_cons_of_mem _ hc, hfc⟩

variable {message} {createProgramAddress} {callee : InstructionContext}
  {instruction : Instruction Pubkey} {signerSeeds : List Seeds}

theorem nativeInvokeSigned_spec (hshort : instruction.accounts.length ≤ u16Max)
    (h : nativeInvokeSigned message.accountKeys createProgramAddress caller instruction signerSeeds =
      .ok callee) :
    ∃ signers, Delegates message.accountKeys caller instruction signers callee ∧
      ∀ index, (∃ key ∈ signers, message.accountKeys[index]? = some key) →
        DerivedBy message createProgramAddress caller signerSeeds index := by
  unfold nativeInvokeSigned at h
  split at h
  next => cases h
  next program hprog =>
    split at h
    next => cases h
    next signers hsigners =>
      refine ⟨signers, prepareNextCpiInstruction_spec hshort h, ?_⟩
      rintro index ⟨key, hkey, hidx⟩
      obtain ⟨seeds, hseeds, hderived⟩ := mem_of_mapM hsigners hkey
      exact ⟨program, seeds, key, hprog, hseeds, hderived, hidx⟩

variable (message) (createProgramAddress)

/-- The callee has no more rights than the caller and its signer seeds give. -/
structure Confined (caller : InstructionContext) (instruction : Instruction Pubkey)
    (signerSeeds : List Seeds) (callee : InstructionContext) : Prop where
  accounts : ∀ account ∈ callee.instructionAccounts, ∃ callerAccount ∈ caller.instructionAccounts,
    callerAccount.indexInTransaction = account.indexInTransaction ∧
      (account.isWritable = true → callerAccount.isWritable = true) ∧
        (account.isSigner = true → callerAccount.isSigner = true ∨
          DerivedBy message createProgramAddress caller signerSeeds account.indexInTransaction)
  program : findIndexOfAccount message.accountKeys instruction.programId =
      some callee.programAccountIndexInTx ∧
    callee.programAccountIndexInTx ∈ indices caller.instructionAccounts
  entries : instruction.accounts.map
      (fun accountMeta => findIndexOfAccount message.accountKeys accountMeta.pubkey) =
    (indices callee.instructionAccounts).map some
  union : ∀ account ∈ callee.instructionAccounts, ∀ flag, account.has flag = true ↔
    Requests message.accountKeys instruction.accounts account.indexInTransaction flag
  equal : ∀ a ∈ callee.instructionAccounts, ∀ b ∈ callee.instructionAccounts,
    a.indexInTransaction = b.indexInTransaction → a = b
  first : ∀ index ∈ indices callee.instructionAccounts,
    callee.dedupMap[index]? = some ((indices callee.instructionAccounts).idxOf index)

/-- The rights of a context go back to the message and to the programs of its callers. -/
def Authorized (callers : List InstructionContext) (context : InstructionContext) : Prop :=
  ∀ account ∈ context.instructionAccounts,
    (account.isWritable = true → message.isWritable account.indexInTransaction = true) ∧
      (account.isSigner = true → message.isSigner account.indexInTransaction = true ∨
        ∃ caller ∈ callers, ∃ signerSeeds,
          DerivedBy message createProgramAddress caller signerSeeds account.indexInTransaction)

variable {message} {createProgramAddress}

theorem confined_of_call (hcaller : caller.WellFormed)
    (hshort : instruction.accounts.length ≤ u16Max)
    (h : nativeInvokeSigned message.accountKeys createProgramAddress caller instruction signerSeeds =
      .ok callee) :
    callee.WellFormed ∧
      Confined message createProgramAddress caller instruction signerSeeds callee := by
  obtain ⟨signers, hdeleg, hderived⟩ := nativeInvokeSigned_spec hshort h
  refine ⟨hdeleg.wellFormed, ?_, ⟨hdeleg.program.1, ?_⟩, hdeleg.entries,
    hdeleg.flags, hdeleg.wellFormed.equal, ?_⟩
  · intro account hmem
    obtain ⟨j, callerAccount, hj, hget, hwritable, hsign⟩ := hdeleg.permits account hmem
    obtain ⟨entry, hentry, hidx⟩ := hcaller.entry hj
    obtain rfl := Option.some.inj (hget.symm.trans hentry)
    exact ⟨callerAccount, mem_of_getElem? hget, hidx, hwritable,
      fun hsigns => (hsign hsigns).imp_right (hderived _)⟩
  · obtain ⟨j, hj⟩ := hdeleg.program.2
    obtain ⟨entry, hentry, hidx⟩ := hcaller.entry hj
    exact hidx ▸ mem_map_of_mem (mem_of_getElem? hentry)
  · intro index hidx
    have hlt := hdeleg.wellFormed.first.covers index hidx
    have hget := getElem?_eq_getElem hlt
    rw [hget, hdeleg.wellFormed.first.eq index _ hget, firstEntry, if_pos hidx]

theorem Authorized.call {callers : List InstructionContext}
    (h : Authorized message createProgramAddress callers caller)
    (hcall : Confined message createProgramAddress caller instruction signerSeeds callee) :
    Authorized message createProgramAddress (caller :: callers) callee := by
  intro account hmem
  obtain ⟨callerAccount, hcallMem, hidx, hwritable, hsign⟩ := hcall.accounts account hmem
  obtain ⟨hmsgWritable, hmsgSign⟩ := h callerAccount hcallMem
  rw [hidx] at hmsgWritable hmsgSign
  refine ⟨fun hw => hmsgWritable (hwritable hw), fun hs => ?_⟩
  rcases hsign hs with hsigns | hderived
  · refine (hmsgSign hsigns).imp_right ?_
    rintro ⟨context, hctx, hseeds⟩
    exact ⟨context, mem_cons_of_mem _ hctx, hseeds⟩
  · exact .inr ⟨caller, mem_cons_self, signerSeeds, hderived⟩

/-- Induction over the call tree: the current context is well formed and authorized. -/
theorem Runs.authorized {stack : List InstructionContext}
    (h : Runs message createProgramAddress stack) : ∀ context callers, stack = context :: callers →
      context.WellFormed ∧ Authorized message createProgramAddress callers context := by
  induction h with
  | topLevel hshort htop =>
    rintro context callers ⟨⟩
    obtain ⟨hwell, hmsg⟩ := prepareTopLevelInstruction_spec htop hshort
    refine ⟨hwell, fun account hmem => ?_⟩
    obtain ⟨hsign, hwritable⟩ := hmsg account hmem
    exact ⟨fun hw => hwritable ▸ hw, fun hs => .inl (hsign ▸ hs)⟩
  | call _ hshort hcall ih =>
    rintro context callers ⟨⟩
    obtain ⟨hwell, hauth⟩ := ih _ _ rfl
    obtain ⟨hcallee, hconfined⟩ := confined_of_call hwell hshort hcall
    exact ⟨hcallee, hauth.call hconfined⟩

/-- No nested call of any call tree gains a privilege. -/
theorem call_never_escalates {stack : List InstructionContext}
    (hrun : Runs message createProgramAddress (caller :: stack))
    (hshort : instruction.accounts.length ≤ u16Max)
    (h : nativeInvokeSigned message.accountKeys createProgramAddress caller instruction signerSeeds =
      .ok callee) :
    Confined message createProgramAddress caller instruction signerSeeds callee ∧
      Authorized message createProgramAddress (caller :: stack) callee := by
  obtain ⟨hwell, hauthorized⟩ := hrun.authorized _ _ rfl
  obtain ⟨_, hconfined⟩ := confined_of_call hwell hshort h
  exact ⟨hconfined, hauthorized.call hconfined⟩

end Stacks

/-! ## A call with a derived signer, and one with too many accounts -/

/-- Account 0 signs and is writable, account 1 is the program. -/
def transferMessage : Message ℕ := ⟨[10, 11, 12], fun index => index == 0, fun index => index ≠ 1⟩

def transferCaller : InstructionContext :=
  ⟨1, [⟨0, true, true⟩, ⟨1, false, false⟩, ⟨2, false, true⟩], [0, 1, 2]⟩

/-- The derived address 12 signs, and account 10 is listed twice. -/
def transferCall : Instruction ℕ :=
  ⟨11, [⟨10, false, false⟩, ⟨12, true, true⟩, ⟨10, true, false⟩]⟩

def transferCallee : InstructionContext :=
  ⟨1, [⟨0, true, false⟩, ⟨2, true, true⟩, ⟨0, true, false⟩], [0, u16Max, 1]⟩

theorem transferCaller_runs (createProgramAddress : ℕ → ℕ → Option ℕ) :
    Runs transferMessage createProgramAddress [transferCaller] :=
  have htop : prepareTopLevelInstruction transferMessage ⟨1, [0, 1, 2]⟩ = .ok transferCaller := by
    decide
  .topLevel (by decide) htop

theorem call_never_escalates_transfer :
    Confined transferMessage (fun (seed program : ℕ) => some (seed + program)) transferCaller
        transferCall [1] transferCallee ∧
      Authorized transferMessage (fun (seed program : ℕ) => some (seed + program)) [transferCaller]
        transferCallee :=
  call_never_escalates (transferCaller_runs _) (by decide)
    (by decide)

/-- No account of this message is writable. -/
def readOnlyMessage : Message ℕ := ⟨[0, 1], fun _ => false, fun _ => false⟩

def readOnlyEntry : InstructionAccount := ⟨0, false, false⟩

def writableEntry : InstructionAccount := ⟨0, false, true⟩

/-- Account 0 many times, and then account 1, writable. -/
def longCall (n : ℕ) : Instruction ℕ :=
  ⟨0, List.replicate (n + 1) ⟨0, false, false⟩ ++ [⟨1, false, true⟩]⟩

def longAccounts (n : ℕ) : List InstructionAccount :=
  (List.replicate (n + 1) readOnlyEntry).set n writableEntry ++ [writableEntry]

theorem addMeta_known {map : List ℕ} {accounts : List InstructionAccount}
    {accountMeta : AccountMeta ℕ} {account : InstructionAccount} {i j : ℕ}
    (hfind : findIndexOfAccount [0, 1] accountMeta.pubkey = some i) (hmap : map[i]? = some j)
    (hget : accounts[j]? = some account) :
    addMeta [0, 1] (map, accounts) accountMeta =
      .ok (map, accounts.set j (account.merge accountMeta.isSigner accountMeta.isWritable) ++
        [account.merge accountMeta.isSigner accountMeta.isWritable]) := by
  have hlt := (List.getElem?_eq_some_iff.mp hget).1
  simp only [addMeta, hfind, hmap, if_pos hlt, hget]

theorem addMeta_replicate (n k m : ℕ) :
    (List.replicate m (⟨0, false, false⟩ : AccountMeta ℕ)).foldlM (addMeta [0, 1])
        ([0, n], List.replicate (k + 1) readOnlyEntry) =
      .ok ([0, n], List.replicate (m + (k + 1)) readOnlyEntry) := by
  induction m generalizing k with
  | zero => rw [Nat.zero_add]; rfl
  | succ m ih =>
    have hget : (replicate (k + 1) readOnlyEntry)[0]? = some readOnlyEntry := by
      rw [replicate_succ, getElem?_cons_zero]
    have hset : (replicate (k + 1) readOnlyEntry).set 0 readOnlyEntry ++ [readOnlyEntry] =
        replicate (k + 2) readOnlyEntry := by
      rw [replicate_succ, set_cons_zero, ← replicate_succ, ← replicate_succ']
    have hstep : addMeta [0, 1] ([0, n], replicate (k + 1) readOnlyEntry) ⟨0, false, false⟩ =
        .ok ([0, n], replicate (k + 2) readOnlyEntry) :=
      (addMeta_known (by decide : _ = some 0) rfl hget).trans
        (congrArg (fun accounts => Except.ok ([0, n], accounts)) hset)
    rw [replicate_succ (n := m), foldlM_cons, hstep, Nat.add_right_comm m]
    exact ih (k + 1)

/-- The map says that account 1 is the last entry of account 0. -/
theorem addMeta_longCall (n : ℕ) : (longCall n).accounts.foldlM (addMeta [0, 1]) ([n, n], []) =
    .ok ([0, n], longAccounts n) := by
  have hfirst : addMeta [0, 1] ([n, n], []) (⟨0, false, false⟩ : AccountMeta ℕ) =
      .ok ([0, n], replicate 1 readOnlyEntry) := rfl
  have hlast : addMeta [0, 1] ([0, n], replicate (n + 1) readOnlyEntry) ⟨1, false, true⟩ =
      .ok ([0, n], longAccounts n) :=
    addMeta_known (by decide : _ = some 1) rfl (getElem?_replicate_of_lt (Nat.lt_succ_self n))
  rw [longCall, foldlM_append, replicate_succ, foldlM_cons, hfirst]
  exact (congrArg (· >>= _) (addMeta_replicate n 0 n)).trans ((bind_pure _).trans hlast)

variable {n : ℕ}

theorem longAccounts_zero (h : n ≠ 0) : (longAccounts n)[0]? = some readOnlyEntry := by
  rw [longAccounts, getElem?_append_left (by simp), getElem?_set_ne h,
    getElem?_replicate_of_lt (Nat.succ_pos n)]

/-- No round of the second pass finds anything to change or to refuse. -/
theorem checkEntry_longCall {position : ℕ} (h : n ≠ 0) (hlt : position < (longAccounts n).length) :
    checkEntry ⟨0, [readOnlyEntry], [0, n]⟩ [] (longCall n).accounts [0, n] (longAccounts n) position =
      .ok (longAccounts n) := by
  have hzero := longAccounts_zero h
  have hacct := getElem?_eq_getElem hlt
  generalize (longAccounts n)[position] = account at hacct
  have hidx : account.indexInTransaction = 0 := by
    have hmem := mem_of_getElem? hacct
    simp only [longAccounts, mem_append, mem_singleton] at hmem
    rcases hmem with hmem | rfl
    · rcases mem_or_eq_of_mem_set hmem with hmem | rfl
      · rw [eq_of_mem_replicate hmem]
        rfl
      · rfl
    · rfl
  by_cases hpos : position = 0
  · subst hpos
    obtain rfl := Option.some.inj (hacct.symm.trans hzero)
    have hmeta : (longCall n).accounts[0]? = some ⟨0, false, false⟩ := by
      rw [longCall, replicate_succ, cons_append, getElem?_cons_zero]
    simp only [checkEntry, hacct, hidx, getElem?_cons_zero, ne_eq, not_true_eq_false,
      if_false, hmeta]
    rfl
  · have hmerge : account.merge readOnlyEntry.isSigner readOnlyEntry.isWritable = account := by
      simp [merge, readOnlyEntry]
    simp only [checkEntry, hacct, hidx, getElem?_cons_zero, ne_eq, hpos,
      not_false_eq_true, if_true, hzero, hmerge]
    obtain ⟨_, hget⟩ := List.getElem?_eq_some_iff.mp hacct
    rw [← hget, set_getElem_self]

theorem foldlM_of_fixed {α σ ε : Type} {f : σ → α → Except ε σ} {state : σ} {items : List α}
    (h : ∀ item ∈ items, f state item = .ok state) : items.foldlM f state = .ok state := by
  induction items with
  | nil => rfl
  | cons item items ih =>
    rw [foldlM_cons, h item mem_cons_self]
    exact ih fun item hitem => h item (mem_cons_of_mem _ hitem)

theorem prepareNextCpiInstruction_longCall (h : n ≠ 0) (hmap : emptyMap 2 = [n, n]) :
    prepareNextCpiInstruction [0, 1] ⟨0, [readOnlyEntry], [0, n]⟩ (longCall n) [] =
      .ok ⟨0, longAccounts n, [0, n]⟩ := by
  have hchecks := foldlM_of_fixed fun position hpos =>
    checkEntry_longCall h (mem_range.mp hpos)
  have hfold := addMeta_longCall n
  rw [← hmap] at hfold
  apply bind_eq_ok_iff.mpr
  refine ⟨_, hfold, bind_eq_ok_iff.mpr ⟨_, hchecks, rfl⟩⟩

/-- The read-only account 0 is writable in the callee. -/
theorem long_call_escalates :
    ∃ caller callee, prepareTopLevelInstruction readOnlyMessage ⟨0, [0]⟩ = .ok caller ∧
      nativeInvokeSigned readOnlyMessage.accountKeys (fun (_ : Unit) _ => none) caller
        (longCall u16Max) [] = .ok callee ∧
      ∃ account ∈ callee.instructionAccounts, account.isWritable = true ∧
        readOnlyMessage.isWritable account.indexInTransaction = false :=
  ⟨⟨0, [readOnlyEntry], [0, u16Max]⟩, ⟨0, longAccounts u16Max, [0, u16Max]⟩, by decide,
    prepareNextCpiInstruction_longCall (by decide) rfl, writableEntry,
    mem_append_right _ mem_cons_self, rfl, rfl⟩

end RakuraiValidator.Svm
