import RakuraiValidator.Traces
import RakuraiValidator.TransactionAccounts

/-!
# Lamports and data lengths are accounted exactly

Every step of a transaction replaces at most one account, and moves the two running numbers by the
difference.  So they are the differences of the sums, whatever the programs do.
-/

namespace RakuraiValidator.Svm

open TransactionAccounts TransactionContext List
open DescendingPasses (bind_eq_ok_iff)

attribute [local simp] TransactionAccounts.store TransactionContext.new updateAccountsResizeDelta

variable {Pubkey Seeds : Type}

/-! ## What a change of an account does -/

/-- One account is replaced, and the running numbers follow. -/
structure Replaced (accounts next : TransactionAccounts Pubkey) (index : ℕ)
    (account account' : Account Pubkey) : Prop where
  before : accounts.accounts[index]? = some account
  stored : next.accounts = accounts.accounts.set index account'
  lamports : next.lamportsDelta =
    accounts.lamportsDelta + (account'.lamports.toNat - account.lamports.toNat)
  resize : (account'.data.length = account.data.length ∧ next.resizeDelta = accounts.resizeDelta) ∨
    (account'.data.length ≤ maxAccountDataLen ∧
      next.resizeDelta = accounts.resizedDelta account.data.length account'.data.length ∧
      (accounts.resizeDelta ≤ maxAccountDataGrowthPerTransaction →
        -2 ^ 62 ≤ accounts.resizeDelta → next.resizeDelta ≤ maxAccountDataGrowthPerTransaction))

/-- What any operation may do to the accounts; the flags are not looked at. -/
def Accounted (accounts next : TransactionAccounts Pubkey) : Prop :=
  (next.accounts = accounts.accounts ∧ next.resizeDelta = accounts.resizeDelta ∧
    next.lamportsDelta = accounts.lamportsDelta) ∨
    ∃ index account account', Replaced accounts next index account account'

theorem Accounted.refl (accounts : TransactionAccounts Pubkey) : Accounted accounts accounts :=
  .inl ⟨rfl, rfl, rfl⟩

variable {self next : TransactionAccounts Pubkey} {index : ℕ}

theorem TransactionAccounts.touch_eq (h : self.touch index = .ok next) :
    next = { self with touchedFlags := self.touchedFlags.set index true } := by
  unfold touch at h
  split at h <;> cases h
  rfl

theorem length_overwrite (data bytes : List UInt8) :
    (overwrite data bytes).length = data.length := by
  simp only [overwrite, length_append, length_take, length_drop]
  omega

theorem length_resize (data : List UInt8) (newLen : ℕ) : (resize data newLen).length = newLen := by
  simp only [resize, length_append, length_take, length_replicate]
  omega

section Borrowed

variable [DecidableEq Pubkey] {self : BorrowedInstructionAccount Pubkey}
  {next : TransactionAccounts Pubkey}

omit [DecidableEq Pubkey] in
/-- A change that keeps the length of the data. -/
theorem accounted_of_store {account' : Account Pubkey} {base : TransactionAccounts Pubkey}
    (hself : self.accounts.accounts[self.index]? = some self.account)
    (h : (do
      let accounts ← base.touch self.index
      .ok (accounts.store self.index account')) = .ok next)
    (hbase : base = { self.accounts with
      lamportsDelta := self.accounts.lamportsDelta +
        (account'.lamports.toNat - self.account.lamports.toNat) })
    (hlen : account'.data.length = self.account.data.length) : Accounted self.accounts next := by
  obtain ⟨accounts, htouch, hnext⟩ := bind_eq_ok_iff.mp h
  cases hnext
  rw [touch_eq htouch, hbase]
  exact .inr ⟨self.index, self.account, account', hself, rfl, rfl, .inl ⟨hlen, rfl⟩⟩

variable (hself : self.accounts.accounts[self.index]? = some self.account)

include hself in
theorem accounted_replaceData {data : List UInt8}
    (hresize : self.canDataBeResized data.length = .ok ()) (h : self.replaceData data = .ok next) :
    Accounted self.accounts next := by
  obtain ⟨⟨⟩, hlims, _⟩ := bind_eq_ok_iff.mp hresize
  obtain ⟨accounts, htouch, hnext⟩ := bind_eq_ok_iff.mp h
  cases hnext
  rw [touch_eq htouch]
  unfold canDataBeResized at hlims
  split at hlims
  · cases hlims
  split at hlims
  · cases hlims
  next hlen hgrowth =>
    refine .inr ⟨self.index, self.account, { self.account with data := data }, hself, rfl, ?_,
      .inr ⟨not_lt.mp hlen, rfl, fun _ _ => not_lt.mp hgrowth⟩⟩
    simp

include hself in
theorem accounted_getDataMut {bytes : List UInt8} (h : self.getDataMut bytes = .ok next) :
    Accounted self.accounts next := by
  obtain ⟨⟨⟩, _, h⟩ := bind_eq_ok_iff.mp h
  exact accounted_of_store hself h (by simp) (length_overwrite _ _)

include hself in
theorem accounted_setLamports {lamports : UInt64} (h : self.setLamports lamports = .ok next) :
    Accounted self.accounts next := by
  unfold BorrowedInstructionAccount.setLamports at h
  split_ifs at h
  · cases h
    exact .refl _
  · obtain ⟨accounts, hdelta, h⟩ := bind_eq_ok_iff.mp h
    simp only [addLamportsDelta] at hdelta
    split at hdelta
    · cases hdelta
      exact accounted_of_store hself h rfl rfl
    · cases hdelta

include hself in
theorem accounted_mutate {environment : Environment Pubkey Seeds} {mutation : Mutation Pubkey}
    (h : self.mutate environment mutation = .ok next) : Accounted self.accounts next := by
  cases mutation with
  | setOwner pubkey =>
    simp only [BorrowedInstructionAccount.mutate, BorrowedInstructionAccount.setOwner] at h
    split_ifs at h
    · cases h
      exact .refl _
    · exact accounted_of_store hself h (by simp) rfl
  | setLamports lamports => exact accounted_setLamports hself h
  | getDataMut bytes => exact accounted_getDataMut hself h
  | setDataFromSlice data =>
    obtain ⟨⟨⟩, hresize, h⟩ := bind_eq_ok_iff.mp h
    exact accounted_replaceData hself hresize h
  | setDataLength newLength =>
    obtain ⟨⟨⟩, hresize, h⟩ := bind_eq_ok_iff.mp h
    split at h
    · cases h
      exact .refl _
    · exact accounted_replaceData hself (by rwa [length_resize]) h
  | extendFromSlice data =>
    obtain ⟨⟨⟩, hresize, h⟩ := bind_eq_ok_iff.mp h
    split at h
    · cases h
      exact .refl _
    · exact accounted_replaceData hself (by rwa [length_append]) h
  | setExecutable isExecutable =>
    simp only [BorrowedInstructionAccount.mutate, BorrowedInstructionAccount.setExecutable] at h
    split_ifs at h
    · cases h
      exact .refl _
    · exact accounted_of_store hself h (by simp) rfl

end Borrowed

theorem accounted_accessViolationHandler {payload : Option ℕ}
    {regionLen reserved requestedLength : ℕ} :
    Accounted self (self.accessViolationHandler payload regionLen reserved requestedLength) := by
  unfold accessViolationHandler
  split
  · exact .refl _
  next index =>
    split
    · exact .refl _
    split
    next account touched hacct htouch =>
      rw [touch_eq htouch]
      split
      · refine .inr ⟨index, account, _, hacct, rfl, ?_, .inr ?_⟩
        · simp
        · rw [length_resize]
          refine ⟨by omega, rfl, fun hle hge => ?_⟩
          simp only [store, updateAccountsResizeDelta,
            resizedDelta, saturateI64, maxAccountDataGrowthPerTransaction,
            maxAccountDataLen] at hle ⊢
          omega
      · exact .inl ⟨rfl, rfl, rfl⟩
    · exact .refl _

/-! ## What a step does -/

section Steps

variable [DecidableEq Pubkey] {environment : Environment Pubkey Seeds}
  {state next : TransactionContext Pubkey} {action : Action Pubkey Seeds}
  {context : InstructionContext}

omit [DecidableEq Pubkey] in
theorem borrow_ok {position : ℕ} {account : BorrowedInstructionAccount Pubkey}
    (h : state.tryBorrowInstructionAccount environment context position = .ok account) :
    account.accounts = state.accounts ∧
      account.accounts.accounts[account.index]? = some account.account := by
  unfold tryBorrowInstructionAccount at h
  split at h
  · cases h
  next instructionAccount hentry =>
    split at h
    · cases h
    next found hfound =>
      cases h
      exact ⟨rfl, hfound⟩

theorem accounted_storeCurrentIndex {accounts accounts' : TransactionAccounts Pubkey} {current : ℕ}
    (h : storeCurrentIndex environment accounts current = .ok accounts') :
    Accounted accounts accounts' ∧ accounts'.lamportsDelta = accounts.lamportsDelta := by
  unfold storeCurrentIndex at h
  split at h
  · cases h
    exact ⟨.refl _, rfl⟩
  next index hidx =>
    split at h
    · cases h
    next account hacct =>
      split at h
      · cases h
      obtain ⟨data, hdata, hnext⟩ := bind_eq_ok_iff.mp h
      cases hnext
      have hlen := environment.storeCurrentIndexChecked_length _ _ _ hdata
      exact ⟨.inr ⟨index, account, _, hacct, rfl, by simp, .inl ⟨hlen, rfl⟩⟩, rfl⟩

theorem push_ok (h : state.push environment context = .ok next) :
    (state.frames ≠ [] → next.accounts.lamportsDelta = 0) ∧
      Accounted state.accounts next.accounts := by
  unfold push at h
  split at h
  · cases h
  next hbal =>
    obtain ⟨accounts, hstore, hnext⟩ := bind_eq_ok_iff.mp h
    cases hnext
    obtain ⟨haccounted, hdelta⟩ := accounted_storeCurrentIndex hstore
    refine ⟨fun hframes => ?_, haccounted⟩
    dsimp only
    rw [hdelta]
    simpa [hframes] using hbal

theorem pop_accounts : (state.pop environment).2.accounts = state.accounts := by
  unfold pop
  split <;> rfl

theorem accounted_act {frame : Frame} {callers : List Frame}
    (h : state.act environment frame callers action = .ok next) :
    Accounted state.accounts next.accounts := by
  cases action with
  | mutate position mutation =>
    obtain ⟨account, hborrow, h⟩ := bind_eq_ok_iff.mp h
    obtain ⟨accounts, hmutate, hnext⟩ := bind_eq_ok_iff.mp h
    cases hnext
    obtain ⟨haccts, hfound⟩ := borrow_ok hborrow
    exact haccts ▸ accounted_mutate hfound hmutate
  | createRegion position isShared =>
    obtain ⟨account, hborrow, h⟩ := bind_eq_ok_iff.mp h
    obtain ⟨⟨accounts, payload⟩, hcreate, hnext⟩ := bind_eq_ok_iff.mp h
    cases hnext
    obtain ⟨haccts, hfound⟩ := borrow_ok hborrow
    unfold BorrowedInstructionAccount.createMemoryRegionOfAccount at hcreate
    split at hcreate
    · obtain ⟨accounts', hdata, hpair⟩ := bind_eq_ok_iff.mp hcreate
      cases hpair
      exact haccts ▸ accounted_getDataMut hfound hdata
    · cases hcreate
      exact haccts ▸ .refl _
  | modifyRegion position =>
    obtain ⟨account, _, hnext⟩ := bind_eq_ok_iff.mp h
    cases hnext
    exact .refl _
  | fault index regionLen reserved requestedLength =>
    cases h
    exact accounted_accessViolationHandler
  | store index bytes =>
    simp only [act] at h
    split_ifs at h
    split at h
    · cases h
    next account hacct =>
      cases h
      refine .inr ⟨index, account, _, hacct, rfl, ?_, .inl ⟨length_overwrite _ _, rfl⟩⟩
      simp
  | topLevel instruction => cases h
  | call instruction signerSeeds =>
    obtain ⟨callee, _, hpush⟩ := bind_eq_ok_iff.mp h
    exact (push_ok hpush).2
  | pop =>
    cases h
    rw [pop_accounts]
    exact .refl _

theorem accounted_apply (h : state.apply environment action = .ok next) :
    Accounted state.accounts next.accounts := by
  unfold apply at h
  split at h
  next =>
    cases action with
    | topLevel instruction =>
      obtain ⟨context, _, hpush⟩ := bind_eq_ok_iff.mp h
      exact (push_ok hpush).2
    | _ => cases h
  next frame callers _ => exact accounted_act h

end Steps

/-! ## Sums -/

def total (f : Account Pubkey → ℕ) (accounts : List (Account Pubkey)) : ℤ :=
  (accounts.map fun account => (f account : ℤ)).sum

def lamportsTotal (accounts : List (Account Pubkey)) : ℤ :=
  total (fun account => account.lamports.toNat) accounts

def dataTotal (accounts : List (Account Pubkey)) : ℤ :=
  total (fun account => account.data.length) accounts

variable {f : Account Pubkey → ℕ} {accounts : List (Account Pubkey)}

theorem total_set (h : accounts[index]? = some account) (account' : Account Pubkey) :
    total f (accounts.set index account') = total f accounts + (f account' - f account) := by
  induction accounts generalizing index with
  | nil => cases h
  | cons head accounts ih =>
    cases index with
    | zero =>
      cases h
      simp only [total, set_cons_zero, map_cons, sum_cons]
      omega
    | succ index =>
      have hrest := ih h
      simp only [total, set_cons_succ, map_cons, sum_cons] at hrest ⊢
      omega

theorem total_bounds {bound : ℕ} (h : ∀ account ∈ accounts, f account ≤ bound) :
    0 ≤ total f accounts ∧ total f accounts ≤ accounts.length * bound := by
  induction accounts with
  | nil => simp [total]
  | cons head accounts ih =>
    obtain ⟨hlower, hupper⟩ := ih fun account hmem => h account (mem_cons_of_mem _ hmem)
    have hhead := h head mem_cons_self
    simp only [total, map_cons, sum_cons, length_cons, Nat.cast_add, Nat.cast_one,
      add_mul, one_mul] at *
    omega

/-- The running numbers are the differences of the sums, within the limits. -/
structure Exact (loaded : List (Account Pubkey)) (accounts : TransactionAccounts Pubkey) :
    Prop where
  count : accounts.accounts.length = loaded.length
  lamports : accounts.lamportsDelta = lamportsTotal accounts.accounts - lamportsTotal loaded
  lengths : accounts.resizeDelta = dataTotal accounts.accounts - dataTotal loaded
  growth : accounts.resizeDelta ≤ maxAccountDataGrowthPerTransaction
  bounded : ∀ account ∈ accounts.accounts, account.data.length ≤ maxAccountDataLen

section Runs

variable {loaded : List (Account Pubkey)} {accounts accounts' : TransactionAccounts Pubkey}

section

variable (hloaded : dataTotal loaded ≤ 2 ^ 16 * maxAccountDataLen) (h : Exact loaded accounts)

include hloaded h

theorem Exact.replaces {account account' : Account Pubkey}
    (hrepl : Replaced accounts accounts' index account account') : Exact loaded accounts' := by
  have hlen := h.bounded account (mem_of_getElem? hrepl.before)
  have hlower : 0 ≤ dataTotal accounts.accounts := (total_bounds h.bounded).1
  have hdata : dataTotal accounts'.accounts = dataTotal accounts.accounts +
      (account'.data.length - account.data.length) :=
    hrepl.stored ▸ total_set hrepl.before account'
  have hlam : lamportsTotal accounts'.accounts = lamportsTotal accounts.accounts +
      (account'.lamports.toNat - account.lamports.toNat) :=
    hrepl.stored ▸ total_set hrepl.before account'
  have hlens := h.lengths
  have hgrowth := h.growth
  have hresized : account'.data.length ≤ maxAccountDataLen ∧
      accounts'.resizeDelta ≤ maxAccountDataGrowthPerTransaction ∧
      accounts'.resizeDelta =
        accounts.resizeDelta + (account'.data.length - account.data.length) := by
    rcases hrepl.resize with ⟨hsame, hdelta⟩ | ⟨hle, hdelta, hlim⟩
    · omega
    · simp only [maxAccountDataGrowthPerTransaction, maxAccountDataLen] at *
      refine ⟨hle, hlim hgrowth (by omega), ?_⟩
      rw [hdelta, resizedDelta]
      unfold saturateI64
      omega
  refine ⟨?_, ?_, ?_, hresized.2.1, ?_⟩
  · rw [hrepl.stored, length_set, h.count]
  · rw [hrepl.lamports, h.lamports, hlam]
    omega
  · rw [hresized.2.2, hlens, hdata]
    omega
  · intro other hother
    rw [hrepl.stored] at hother
    rcases mem_or_eq_of_mem_set hother with hother | rfl
    · exact h.bounded other hother
    · exact hresized.1

theorem Exact.accounted (haccounted : Accounted accounts accounts') : Exact loaded accounts' := by
  rcases haccounted with ⟨hsame, hresize, hlam⟩ | ⟨_, _, _, hreplaced⟩
  · exact ⟨hsame ▸ h.count, hsame ▸ hlam ▸ h.lamports, hsame ▸ hresize ▸ h.lengths,
      hresize ▸ h.growth, hsame ▸ h.bounded⟩
  · exact h.replaces hloaded hreplaced

end

variable [DecidableEq Pubkey] {environment : Environment Pubkey Seeds}
  {state next : TransactionContext Pubkey}

theorem Exact.run {actions : List (Action Pubkey Seeds)}
    (hloaded : dataTotal loaded ≤ 2 ^ 16 * maxAccountDataLen) (h : Exact loaded state.accounts) :
    Exact loaded (state.run environment actions).accounts := by
  induction actions generalizing state with
  | nil => exact h
  | cons action actions ih =>
    have hnext : Exact loaded ((state.apply environment action).toOption.getD state).accounts := by
      cases happly : state.apply environment action with
      | error error => exact h
      | ok next => exact h.accounted hloaded (accounted_apply happly)
    exact ih hnext

/-- A popped instruction is balanced. -/
theorem Exact.pop (h : Exact loaded state.accounts)
    (hpop : state.pop environment = (.ok (), next)) :
    Exact loaded next.accounts ∧ lamportsTotal next.accounts.accounts = lamportsTotal loaded := by
  have haccts : next.accounts = state.accounts := by
    have hsame : (state.pop environment).2.accounts = state.accounts := pop_accounts
    rwa [hpop] at hsame
  have hdelta : state.accounts.lamportsDelta = 0 := by
    unfold TransactionContext.pop at hpop
    split at hpop
    · cases hpop
    · by_contra hne
      simp [hne] at hpop
  have hlam := h.lamports
  rw [haccts]
  exact ⟨h, by omega⟩

theorem Exact.processMessage {instructions : List (CompiledInstruction ×
      List (Action Pubkey Seeds) × Except InstructionError Unit)}
    (hloaded : dataTotal loaded ≤ 2 ^ 16 * maxAccountDataLen)
    (hbal : lamportsTotal state.accounts.accounts = lamportsTotal loaded)
    (h : Exact loaded state.accounts)
    (hproc : state.processMessage environment instructions = .ok next) :
    Exact loaded next.accounts ∧ lamportsTotal next.accounts.accounts = lamportsTotal loaded := by
  refine Traces.foldlM_invariant (fun _ (state : TransactionContext Pubkey) =>
    Exact loaded state.accounts ∧ lamportsTotal state.accounts.accounts = lamportsTotal loaded)
    ?_ ⟨h, hbal⟩ hproc
  rintro _ ⟨instruction, actions, result⟩ state next ⟨hexact, _⟩ hinstr
  obtain ⟨context, _, hinstr⟩ := bind_eq_ok_iff.mp hinstr
  obtain ⟨pushed, hpush, hinstr⟩ := bind_eq_ok_iff.mp hinstr
  obtain ⟨⟨⟩, _, hinstr⟩ := bind_eq_ok_iff.mp hinstr
  obtain ⟨⟨⟩, hpopped, hnext⟩ := bind_eq_ok_iff.mp hinstr
  cases hnext
  have hrun : Exact loaded (pushed.run environment actions).accounts :=
    (hexact.accounted hloaded (push_ok hpush).2).run hloaded
  exact hrun.pop (Prod.ext hpopped rfl)

end Runs

/-! ## The check of the transaction -/

theorem lamportsSum_eq (h : accounts.length ≤ 2 ^ 16) :
    ∃ sum : ℕ, transactionAccountsLamportsSum accounts = some sum ∧
      (sum : ℤ) = lamportsTotal accounts := by
  have hfold : ∀ (accounts : List (Account Pubkey)) (start : ℕ),
      start + accounts.length * 2 ^ 64 < 2 ^ 128 → ∃ sum : ℕ,
        accounts.foldlM (fun sum account =>
          if sum + account.lamports.toNat < 2 ^ 128 then some (sum + account.lamports.toNat)
          else none) start = some sum ∧ (sum : ℤ) = start + lamportsTotal accounts := by
    intro accounts
    induction accounts with
    | nil => exact fun start _ => ⟨start, rfl, by simp [lamportsTotal, total]⟩
    | cons account accounts ih =>
      intro start hstart
      have hlt := account.lamports.toNat_lt
      rw [length_cons] at hstart
      obtain ⟨sum, hsum, heq⟩ := ih (start + account.lamports.toNat) (by omega)
      refine ⟨sum, ?_, ?_⟩
      · rw [foldlM_cons, if_pos (by omega)]
        exact hsum
      · simp only [lamportsTotal, total, map_cons, sum_cons] at heq ⊢
        omega
  obtain ⟨sum, hsum, heq⟩ := hfold accounts 0 (by omega)
  exact ⟨sum, hsum, by omega⟩

theorem not_unbalanced {before after : List (Account Pubkey)} (hcount : before.length ≤ 2 ^ 16)
    (hlen : after.length = before.length) (h : lamportsTotal after = lamportsTotal before) :
    isUnbalancedTransaction before after = false := by
  obtain ⟨sum, hsum, heq⟩ := lamportsSum_eq hcount
  obtain ⟨sum', hsum', heq'⟩ := lamportsSum_eq (hlen ▸ hcount)
  have hsame : sum' = sum := by omega
  simp [isUnbalancedTransaction, hsum, hsum', hsame]

variable [DecidableEq Pubkey]

/-- The running numbers are exact after any steps, instructions are balanced when they call and when
they are popped, and a message that is processed leaves the transaction balanced. -/
theorem accounting_exact (environment : Environment Pubkey Seeds) (loaded : List (Account Pubkey))
    (hcount : loaded.length ≤ 2 ^ 16)
    (hdata : ∀ account ∈ loaded, account.data.length ≤ maxAccountDataLen) :
    (∀ actions, let state := (TransactionContext.new loaded).run environment actions
      Exact loaded state.accounts ∧
        (∀ context next, state.frames ≠ [] → state.push environment context = .ok next →
          lamportsTotal next.accounts.accounts = lamportsTotal loaded) ∧
        ∀ next, state.pop environment = (.ok (), next) →
          lamportsTotal next.accounts.accounts = lamportsTotal loaded) ∧
      ∀ instructions next,
        (TransactionContext.new loaded).processMessage environment instructions = .ok next →
          isUnbalancedTransaction loaded next.accounts.accounts = false := by
  have hloaded : dataTotal loaded ≤ 2 ^ 16 * maxAccountDataLen := by
    have hbounds := (total_bounds hdata).2
    unfold dataTotal
    nlinarith
  have hnew : Exact loaded (new loaded).accounts :=
    ⟨rfl, by simp, by simp,
      by simp [maxAccountDataGrowthPerTransaction], hdata⟩
  refine ⟨fun actions => ?_, fun instructions next hprocess => ?_⟩
  · have hrun : Exact loaded ((new loaded).run environment actions).accounts :=
      hnew.run hloaded
    refine ⟨hrun, fun context next hframes hpush => ?_, fun next hpop => (hrun.pop hpop).2⟩
    obtain ⟨hbalanced, haccounted⟩ := push_ok hpush
    have hdelta := hbalanced hframes
    have hlamports := (hrun.accounted hloaded haccounted).lamports
    omega
  · obtain ⟨hexact, hbalanced⟩ := hnew.processMessage hloaded rfl hprocess
    exact not_unbalanced hcount hexact.count hbalanced

/-- Program 7 with the account 5, which it owns, and the account 6 of another owner. -/
def paymentEnvironment : Environment ℕ ℕ :=
  ⟨⟨[5, 6, 7], fun _ => true, fun index => index ≠ 2⟩, 100, 101, fun _ _ => none, fun _ _ => true,
    fun data _ => .ok data, fun _ _ _ h => congrArg _ (Except.ok.inj h).symm⟩

def paymentAccounts : List (Account ℕ) :=
  [⟨10, [1], 7, false⟩, ⟨0, [], 9, false⟩, ⟨1, [], 1, true⟩]

/-- Four lamports are paid to the other account, and the data is extended. -/
def payment : List (Action ℕ ℕ) :=
  [.mutate 0 (.setLamports 6), .mutate 1 (.setLamports 4), .mutate 0 (.extendFromSlice [2, 3])]

theorem accounting_exact_payment :
    let state := (new paymentAccounts).run paymentEnvironment
      (.topLevel ⟨2, [0, 1]⟩ :: payment)
    state.accounts.accounts = [⟨6, [1, 2, 3], 7, false⟩, ⟨4, [], 9, false⟩, ⟨1, [], 1, true⟩] ∧
      Exact paymentAccounts state.accounts :=
  ⟨by decide, ((accounting_exact paymentEnvironment paymentAccounts (by decide) (by decide)).1 _).1⟩

end RakuraiValidator.Svm
