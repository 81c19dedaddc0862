import Mathlib.Tactic

/-!
# Packing ancient storages

Old storages are combined into fewer ones.  The alive accounts of the storages are packed one after
the other, and a new storage is begun when the next account would exceed the ideal size.
-/

namespace RakuraiValidator.AncientAccounts

open List

variable {Pubkey : Type}

structure AccountFromStorage (Pubkey : Type) where
  pubkey : Pubkey
  storedSize : ℕ
  deriving DecidableEq

structure AliveAccounts (Pubkey : Type) where
  slot : ℕ
  accounts : List (AccountFromStorage Pubkey)
  bytes : ℕ
  deriving DecidableEq

structure PackedAncientStorage (Pubkey : Type) where
  accounts : List (ℕ × List (AccountFromStorage Pubkey))
  bytes : ℕ
  deriving DecidableEq

structure Pending (Pubkey : Type) where
  slot : ℕ
  bytes : ℕ
  remaining : List (AccountFromStorage Pubkey)
  partialBytesWritten : ℕ

def Pending.start (alive : AliveAccounts Pubkey) : Pending Pubkey :=
  ⟨alive.slot, alive.bytes, alive.accounts, 0⟩

def usizeMax : ℕ := 2 ^ 64 - 1

def saturatingAdd (x y : ℕ) : ℕ := min (x + y) usizeMax

/-- The accounts until one would exceed the ideal size, the accounts from there on, and the bytes
of the storage. -/
def takeFitting (idealSize : ℕ) : List (AccountFromStorage Pubkey) → ℕ →
    List (AccountFromStorage Pubkey) × List (AccountFromStorage Pubkey) × ℕ
  | [], bytesTotal => ([], [], bytesTotal)
  | account :: accounts, bytesTotal =>
    let newSize := saturatingAdd bytesTotal account.storedSize
    if idealSize < newSize ∧ 0 < bytesTotal then ([], account :: accounts, bytesTotal)
    else
      let (taken, left, bytes) := takeFitting idealSize accounts newSize
      (account :: taken, left, bytes)

/-- Fill one storage.  Only a full storage leaves something pending. -/
def fill (idealSize : ℕ) : List (Pending Pubkey) → ℕ →
    PackedAncientStorage Pubkey × List (Pending Pubkey)
  | [], bytesTotal => (⟨[], bytesTotal⟩, [])
  | current :: rest, bytesTotal =>
    if current.remaining.isEmpty then fill idealSize rest bytesTotal
    else
      let bytesTotalWithThisSlot :=
        saturatingAdd bytesTotal (current.bytes - current.partialBytesWritten)
      if bytesTotalWithThisSlot ≤ idealSize then
        let (storage, left) := fill idealSize rest bytesTotalWithThisSlot
        (⟨(current.slot, current.remaining) :: storage.accounts, storage.bytes⟩, left)
      else
        match takeFitting idealSize current.remaining bytesTotal with
        | (taken, [], bytes) =>
          let (storage, left) := fill idealSize rest bytes
          (⟨(current.slot, taken) :: storage.accounts, storage.bytes⟩, left)
        | (taken, account :: left, bytes) =>
          (⟨if taken.isEmpty then [] else [(current.slot, taken)], bytes⟩,
            { current with
              remaining := account :: left
              partialBytesWritten := saturatingAdd current.partialBytesWritten
                (taken.map (·.storedSize)).sum } :: rest)

def packLoop (idealSize : ℕ) : ℕ → List (Pending Pubkey) → List (PackedAncientStorage Pubkey)
  | 0, _ => []
  | fuel + 1, pending =>
    let (storage, left) := fill idealSize pending 0
    if storage.accounts.isEmpty then [] else storage :: packLoop idealSize fuel left

def pack (accountsToCombine : List (AliveAccounts Pubkey)) (idealSize : ℕ) :
    List (PackedAncientStorage Pubkey) :=
  packLoop idealSize ((accountsToCombine.map fun alive => alive.accounts.length).sum + 1)
    (accountsToCombine.map Pending.start)

/-! ## Contents -/

def PackedAncientStorage.contents (storage : PackedAncientStorage Pubkey) :
    List (ℕ × AccountFromStorage Pubkey) :=
  storage.accounts.flatMap fun piece => piece.2.map fun account => (piece.1, account)

attribute [local simp] PackedAncientStorage.contents

def Pending.contents (pending : Pending Pubkey) : List (ℕ × AccountFromStorage Pubkey) :=
  pending.remaining.map fun account => (pending.slot, account)

def AliveAccounts.contents (alive : AliveAccounts Pubkey) : List (ℕ × AccountFromStorage Pubkey) :=
  alive.accounts.map fun account => (alive.slot, account)

variable (idealSize : ℕ)

theorem takeFitting_append (accounts : List (AccountFromStorage Pubkey)) (bytesTotal : ℕ) :
    (takeFitting idealSize accounts bytesTotal).1 ++
      (takeFitting idealSize accounts bytesTotal).2.1 = accounts := by
  induction accounts generalizing bytesTotal with
  | nil => rfl
  | cons account accounts ih =>
    rw [takeFitting]
    split
    · rfl
    · exact congrArg (account :: ·) (ih _)

theorem takeFitting_ne_nil {accounts : List (AccountFromStorage Pubkey)} (h : accounts ≠ []) :
    (takeFitting idealSize accounts 0).1 ≠ [] := by
  cases accounts with
  | nil => exact absurd rfl h
  | cons account accounts => simp [takeFitting]

theorem fill_cases (current : Pending Pubkey) (bytesTotal : ℕ) :
    (current.remaining = [] ∧ ∀ rest,
      fill idealSize (current :: rest) bytesTotal = fill idealSize rest bytesTotal) ∨
    (current.remaining ≠ [] ∧ ∃ bytes,
      (bytes = saturatingAdd bytesTotal (current.bytes - current.partialBytesWritten) ∧
          bytes ≤ idealSize ∨
        takeFitting idealSize current.remaining bytesTotal = (current.remaining, [], bytes)) ∧
      ∀ rest, fill idealSize (current :: rest) bytesTotal =
        (⟨(current.slot, current.remaining) :: (fill idealSize rest bytes).1.accounts,
          (fill idealSize rest bytes).1.bytes⟩, (fill idealSize rest bytes).2)) ∨
    ∃ taken account left bytes,
      takeFitting idealSize current.remaining bytesTotal = (taken, account :: left, bytes) ∧
      (bytesTotal = 0 → taken ≠ []) ∧ ∀ rest,
        fill idealSize (current :: rest) bytesTotal =
          (⟨if taken.isEmpty then [] else [(current.slot, taken)], bytes⟩,
            ⟨current.slot, current.bytes, account :: left,
              saturatingAdd current.partialBytesWritten
                (taken.map (·.storedSize)).sum⟩ :: rest) := by
  by_cases hempty : current.remaining = []
  · refine .inl ⟨hempty, ?_⟩
    intro rest
    rw [fill, if_pos (by simp [hempty])]
  have hnonempty : ¬ current.remaining.isEmpty = true := by simpa using hempty
  right
  by_cases hfits :
      saturatingAdd bytesTotal (current.bytes - current.partialBytesWritten) ≤ idealSize
  · refine .inl ⟨hempty, _, .inl ⟨rfl, hfits⟩, fun rest => ?_⟩
    simp only [fill, if_neg hnonempty, if_pos hfits]
  have hsplit := takeFitting_append idealSize current.remaining bytesTotal
  have hfirst : bytesTotal = 0 → (takeFitting idealSize current.remaining bytesTotal).1 ≠ [] := by
    intro hzero
    rw [hzero]
    exact takeFitting_ne_nil idealSize hempty
  cases htake : takeFitting idealSize current.remaining bytesTotal with
  | mk taken others =>
    obtain ⟨left, bytes⟩ := others
    rw [htake] at hsplit hfirst
    cases left with
    | nil =>
      have hall : taken = current.remaining := by simpa using hsplit
      refine .inl ⟨hempty, bytes, .inr (by rw [hall]), fun rest => ?_⟩
      simp only [fill, if_neg hnonempty, if_neg hfits, htake, hall]
    | cons account left =>
      refine .inr ⟨taken, account, left, bytes, rfl, hfirst, fun rest => ?_⟩
      simp only [fill, if_neg hnonempty, if_neg hfits, htake]

theorem fill_contents (pending : List (Pending Pubkey)) (bytesTotal : ℕ) :
    (fill idealSize pending bytesTotal).1.contents ++
      (fill idealSize pending bytesTotal).2.flatMap Pending.contents =
        pending.flatMap Pending.contents := by
  induction pending generalizing bytesTotal with
  | nil => rfl
  | cons current rest ih =>
    rw [flatMap_cons]
    rcases fill_cases idealSize current bytesTotal with ⟨hempty, heq⟩ | ⟨_, bytes, _, heq⟩ |
      ⟨taken, account, left, bytes, htake, _, heq⟩
    · rw [heq, ih, Pending.contents, hempty]
      rfl
    · rw [heq, ← ih bytes, ← append_assoc]
      rfl
    · have hsplit := takeFitting_append idealSize current.remaining bytesTotal
      rw [htake] at hsplit
      rw [heq, flatMap_cons, ← append_assoc]
      congr 1
      simp only [Pending.contents, ← hsplit]
      cases taken <;> simp

variable {pending : List (Pending Pubkey)}

theorem contents_ne_nil_of_fill {idealSize bytesTotal : ℕ}
    (h : (fill idealSize pending bytesTotal).1.accounts.isEmpty = false) :
    (fill idealSize pending bytesTotal).1.contents ≠ [] := by
  induction pending generalizing bytesTotal with
  | nil => simp [fill] at h
  | cons current rest ih =>
    rcases fill_cases idealSize current bytesTotal with ⟨_, heq⟩ | ⟨hrem, bytes, _, heq⟩ |
      ⟨taken, account, left, bytes, _, _, heq⟩
    · rw [heq] at h ⊢
      exact ih h
    · rw [heq]
      simp [hrem]
    · rw [heq] at h ⊢
      cases taken with
      | nil => simp at h
      | cons first taken => simp

theorem fill_ne_nil (h : pending.flatMap Pending.contents ≠ []) :
    (fill idealSize pending 0).1.accounts.isEmpty = false := by
  induction pending with
  | nil => exact absurd rfl h
  | cons current rest ih =>
    rcases fill_cases idealSize current 0 with ⟨hempty, heq⟩ | ⟨_, bytes, _, heq⟩ |
      ⟨taken, account, left, bytes, _, htaken, heq⟩
    · rw [heq]
      apply ih
      intro hrest
      apply h
      rw [flatMap_cons, hrest, Pending.contents, hempty]
      rfl
    · rw [heq]
      rfl
    · rw [heq]
      cases taken with
      | nil => exact absurd rfl (htaken rfl)
      | cons first taken => rfl

/-- What a storage leaves is less than what there was, so the loop's fuel is enough. -/
theorem left_lt_of_fill {idealSize bytesTotal : ℕ}
    (h : (fill idealSize pending bytesTotal).1.accounts.isEmpty = false) :
    ((fill idealSize pending bytesTotal).2.flatMap Pending.contents).length <
      (pending.flatMap Pending.contents).length := by
  have hpos := length_pos_iff.mpr (contents_ne_nil_of_fill h)
  have hlen := congrArg length (fill_contents idealSize pending bytesTotal)
  rw [length_append] at hlen
  omega

theorem packLoop_contents {fuel : ℕ} (hfuel : (pending.flatMap Pending.contents).length < fuel) :
    (packLoop idealSize fuel pending).flatMap PackedAncientStorage.contents =
      pending.flatMap Pending.contents := by
  induction fuel generalizing pending with
  | zero => exact absurd hfuel (Nat.not_lt_zero _)
  | succ fuel ih =>
    simp only [packLoop]
    split
    next hempty =>
      by_contra hne
      have hpend : pending.flatMap Pending.contents ≠ [] := fun heq => hne heq.symm
      rw [fill_ne_nil idealSize hpend] at hempty
      contradiction
    next hnonempty =>
      have hless := left_lt_of_fill (by simpa using hnonempty)
      rw [flatMap_cons, ih (by omega), fill_contents]

theorem packLoop_fuel {fuel more : ℕ} (hfuel : (pending.flatMap Pending.contents).length < fuel) :
    packLoop idealSize (fuel + more) pending = packLoop idealSize fuel pending := by
  induction fuel generalizing pending with
  | zero => exact absurd hfuel (Nat.not_lt_zero _)
  | succ fuel ih =>
    rw [Nat.succ_add]
    simp only [packLoop]
    split
    · rfl
    next hnonempty =>
      have hless := left_lt_of_fill (by simpa using hnonempty)
      rw [ih (by omega)]

variable (accounts : List (AliveAccounts Pubkey))

theorem pending_contents :
    (accounts.map Pending.start).flatMap Pending.contents = accounts.flatMap (·.contents) := by
  rw [flatMap_map]
  rfl

theorem length_contents :
    (accounts.flatMap (·.contents)).length =
      (accounts.map fun alive => alive.accounts.length).sum := by
  rw [length_flatMap]
  congr 1
  apply map_congr_left
  intro alive _
  exact length_map _

theorem pack_contents :
    (pack accounts idealSize).flatMap PackedAncientStorage.contents =
      accounts.flatMap (·.contents) := by
  rw [pack, packLoop_contents, pending_contents]
  rw [pending_contents, length_contents]
  exact Nat.lt_succ_self _

end RakuraiValidator.AncientAccounts
