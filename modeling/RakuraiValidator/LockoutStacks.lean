import Mathlib.Data.List.DropRight
import Mathlib.Tactic

/-!
# Stacks of lockouts

A voter keeps a stack of votes, the oldest first.  Each vote locks the voter out of
other forks for a number of slots which doubles with its confirmations.  A new vote
pops the expired votes from the top of the stack and confirms the votes below it.
What a stack holds beside the lockouts is left open.
-/

namespace RakuraiValidator.Vote

open List

def maxLockoutHistory : ℕ := 31

def u64Max : ℕ := 2 ^ 64 - 1

def u32Max : ℕ := 2 ^ 32 - 1

structure Lockout where
  slot : ℕ
  confirmationCount : ℕ
deriving DecidableEq

def Lockout.new (slot : ℕ) : Lockout := ⟨slot, 1⟩

/-- The operations of a lockout, which the repository imports, with what is assumed of them: how
long a vote locks out is left open, and confirmation counts saturate. -/
class VoteInterface where
  lastLockedOutSlot : Lockout → ℕ
  isLockedOutAtSlot : Lockout → ℕ → Bool
  increaseConfirmationCount : Lockout → ℕ → Lockout
  isLockedOutAtSlot_iff : ∀ l slot, isLockedOutAtSlot l slot = true ↔ slot ≤ lastLockedOutSlot l
  increaseConfirmationCount_eq : ∀ l count, increaseConfirmationCount l count = { l with
    confirmationCount := max l.confirmationCount (min (l.confirmationCount + count) u32Max) }
  lastLockedOutSlot_mono : ∀ l l' : Lockout, l.slot = l'.slot →
    l.confirmationCount ≤ l'.confirmationCount → lastLockedOutSlot l ≤ lastLockedOutSlot l'

/-- Each confirmation doubles the lockout. -/
abbrev doublingLockouts : VoteInterface where
  lastLockedOutSlot l := min (l.slot + 2 ^ min l.confirmationCount maxLockoutHistory) u64Max
  isLockedOutAtSlot l slot := slot ≤ min (l.slot + 2 ^ min l.confirmationCount maxLockoutHistory)
    u64Max
  increaseConfirmationCount l count := { l with
    confirmationCount := max l.confirmationCount (min (l.confirmationCount + count) u32Max) }
  isLockedOutAtSlot_iff _ _ := decide_eq_true_iff
  increaseConfirmationCount_eq _ _ := rfl
  lastLockedOutSlot_mono l l' hslot hcount := by
    rw [hslot]
    gcongr
    exact one_le_two

namespace Lockout

variable [VoteInterface] (l : Lockout)

def lastLockedOutSlot : ℕ := VoteInterface.lastLockedOutSlot l

def isLockedOutAtSlot (slot : ℕ) : Bool := VoteInterface.isLockedOutAtSlot l slot

def increaseConfirmationCount (count : ℕ) : Lockout :=
  VoteInterface.increaseConfirmationCount l count

end Lockout

/-- Entries of a stack with their lockouts. -/
class LockoutEntry (α : Type) where
  lockout : α → Lockout
  withLockout : α → Lockout → α
  lockout_withLockout : ∀ entry l, lockout (withLockout entry l) = l

namespace LockoutEntry

instance : LockoutEntry Lockout where
  lockout l := l
  withLockout _ l := l
  lockout_withLockout _ _ := rfl

@[simp] theorem lockout_lockout (l : Lockout) : lockout l = l := rfl

variable {α : Type} [LockoutEntry α]

def slot (entry : α) : ℕ := (lockout entry).slot

def confirmationCount (entry : α) : ℕ := (lockout entry).confirmationCount

variable [VoteInterface]

def lastLockedOutSlot (entry : α) : ℕ := (lockout entry).lastLockedOutSlot

def isLockedOutAtSlot (entry : α) (slot : ℕ) : Bool := (lockout entry).isLockedOutAtSlot slot

def increase (entry : α) : α :=
  withLockout entry ((lockout entry).increaseConfirmationCount 1)

theorem lockout_increase (entry : α) : lockout (increase entry) = { lockout entry with
    confirmationCount := max (confirmationCount entry) (min (confirmationCount entry + 1) u32Max) } :=
  (lockout_withLockout _ _).trans (VoteInterface.increaseConfirmationCount_eq _ _)

end LockoutEntry

open LockoutEntry
open VoteInterface (isLockedOutAtSlot_iff)

variable {α : Type} [LockoutEntry α] [VoteInterface]

section Operations

/-- Pops all recent votes which are not locked out at the next vote slot. -/
def popExpiredVotes (votes : List α) (nextVoteSlot : ℕ) : List α :=
  votes.rdropWhile (fun vote => !isLockedOutAtSlot vote nextVoteSlot)

def confirm (vote : α) (depth : ℕ) : α :=
  if confirmationCount vote < depth then increase vote else vote

/-- A vote is confirmed when it has more votes on top of it than it has seen before. -/
def doubleLockouts (votes : List α) : List α :=
  votes.mapIdx (fun i vote =>
    if i + confirmationCount vote < votes.length then increase vote else vote)

end Operations

/-! ## Expired votes -/

section Expired

variable (votes : List α) (nextVoteSlot : ℕ)

theorem popExpiredVotes_split :
    ∃ expired, votes = popExpiredVotes votes nextVoteSlot ++ expired ∧
      (∀ vote ∈ expired, lastLockedOutSlot vote < nextVoteSlot) ∧
      ∀ vote ∈ (popExpiredVotes votes nextVoteSlot).getLast?,
        nextVoteSlot ≤ lastLockedOutSlot vote := by
  induction votes using reverseRecOn with
  | nil => exact ⟨[], rfl, by simp, by simp [popExpiredVotes]⟩
  | append_singleton votes last ih =>
    unfold popExpiredVotes at ih ⊢
    by_cases hlock : isLockedOutAtSlot last nextVoteSlot = true
    · rw [rdropWhile_concat_neg _ _ _ (by simp [hlock])]
      refine ⟨[], by simp, by simp, ?_⟩
      intro vote hvote
      rw [getLast?_concat, Option.mem_some_iff] at hvote
      subst hvote
      exact (isLockedOutAtSlot_iff _ _).mp hlock
    · rw [rdropWhile_concat_pos _ _ _ (by simpa using hlock)]
      rcases ih with ⟨expired, hsplit, hexp, hlast⟩
      refine ⟨expired ++ [last], ?_, ?_, hlast⟩
      · rw [← append_assoc, ← hsplit]
      · intro vote hvote
        rcases mem_append.mp hvote with hold | hnew
        · exact hexp vote hold
        · rw [mem_singleton.mp hnew]
          exact not_le.mp (fun hle => hlock ((isLockedOutAtSlot_iff _ _).mpr hle))

/-- The votes of a stack before a vote for the next slot: the oldest one is rooted when
the stack is full, and the newest ones have expired. -/
structure Splits (votes : List α) (nextVoteSlot : ℕ) (rooted : Option α)
    (kept expired : List α) : Prop where
  votes : votes = rooted.toList ++ (kept ++ expired)
  expired : ∀ vote ∈ expired, lastLockedOutSlot vote < nextVoteSlot
  locked : ∀ vote ∈ kept.getLast?, nextVoteSlot ≤ lastLockedOutSlot vote
  rooted : (rooted.toList ++ kept).length = maxLockoutHistory ↔ rooted ≠ none

theorem exists_splits :
    ∃ rooted kept expired, Splits votes nextVoteSlot rooted kept expired ∧
      popExpiredVotes votes nextVoteSlot = rooted.toList ++ kept := by
  rcases popExpiredVotes_split votes nextVoteSlot with ⟨expired, hvotes, hexp, hlock⟩
  generalize popExpiredVotes votes nextVoteSlot = popped at hvotes hlock ⊢
  by_cases hfull : popped.length = maxLockoutHistory
  · cases popped with
    | nil => cases hfull
    | cons oldest kept =>
      refine ⟨some oldest, kept, expired, ⟨hvotes, hexp, ?_, by simpa using hfull⟩, rfl⟩
      intro vote hvote
      apply hlock vote
      rw [Option.mem_def] at hvote ⊢
      rw [getLast?_cons, hvote]
      rfl
  · exact ⟨none, popped, expired, ⟨hvotes, hexp, hlock, by simpa using hfull⟩, rfl⟩

end Expired

/-! ## Confirmations -/

section Confirm

variable {vote : α} {votes : List α} {depth : ℕ}

@[simp] theorem slot_confirm : slot (confirm vote depth) = slot vote := by
  unfold confirm slot
  split
  · rw [lockout_increase]
  · rfl

theorem confirmationCount_confirm (hdepth : depth ≤ u32Max) :
    confirmationCount (confirm vote depth) =
      if confirmationCount vote < depth then confirmationCount vote + 1
      else confirmationCount vote := by
  unfold confirm
  split
  · rw [confirmationCount, lockout_increase]
    dsimp only
    omega
  · rfl

theorem confirmationCount_le_confirm :
    confirmationCount vote ≤ confirmationCount (confirm vote depth) := by
  unfold confirm
  split
  · rw [confirmationCount, confirmationCount, lockout_increase]
    exact le_max_left _ _
  · rfl

theorem lastLockedOutSlot_le_confirm :
    lastLockedOutSlot vote ≤ lastLockedOutSlot (confirm vote depth) :=
  VoteInterface.lastLockedOutSlot_mono _ _ slot_confirm.symm confirmationCount_le_confirm

@[simp] theorem doubleLockouts_nil : doubleLockouts ([] : List α) = [] := rfl

theorem doubleLockouts_cons :
    doubleLockouts (vote :: votes) = confirm vote (votes.length + 1) :: doubleLockouts votes := by
  unfold doubleLockouts confirm
  rw [mapIdx_cons]
  congr 1
  · simp
  · congr 1
    funext i other
    have hiff : i + 1 + confirmationCount other < (vote :: votes).length ↔
        i + confirmationCount other < votes.length := by
      rw [length_cons]
      omega
    simp only [hiff]

@[simp] theorem length_doubleLockouts : (doubleLockouts votes).length = votes.length :=
  length_mapIdx

theorem map_slot_doubleLockouts : (doubleLockouts votes).map slot = votes.map slot := by
  induction votes with
  | nil => rfl
  | cons vote votes ih => rw [doubleLockouts_cons, map_cons, map_cons, slot_confirm, ih]

theorem exists_of_mem_doubleLockouts {other : α} (h : other ∈ doubleLockouts votes) :
    ∃ vote ∈ votes, ∃ depth ≤ votes.length, other = confirm vote depth := by
  induction votes with
  | nil => cases h
  | cons vote votes ih =>
    rw [doubleLockouts_cons] at h
    rcases mem_cons.mp h with heq | hmem
    · exact ⟨vote, by simp, votes.length + 1, by simp, heq⟩
    · rcases ih hmem with ⟨old, hold, depth, hdepth, heq⟩
      exact ⟨old, by simp [hold], depth, by simp; omega, heq⟩

end Confirm

/-! ## Well-formed stacks -/

/-- Slots increase, confirmations decrease from the bottom to the top, and every vote is
locked out at the slot of the next one. -/
structure LockoutStack (votes : List α) : Prop where
  slots : votes.Pairwise (fun vote later => slot vote < slot later)
  confirmations : votes.Pairwise (fun vote later => confirmationCount later < confirmationCount vote)
  positive : ∀ vote ∈ votes, 0 < confirmationCount vote
  bounded : ∀ vote ∈ votes, confirmationCount vote ≤ maxLockoutHistory
  locked : votes.IsChain (fun vote next => slot next ≤ lastLockedOutSlot vote)

namespace LockoutStack

variable {vote : α} {votes : List α}

def Follows (vote next : α) : Prop :=
  slot vote < slot next ∧ confirmationCount next < confirmationCount vote ∧
    slot next ≤ lastLockedOutSlot vote

theorem iff_isChain : LockoutStack votes ↔ votes.IsChain Follows ∧
    ∀ vote ∈ votes, 0 < confirmationCount vote ∧ confirmationCount vote ≤ maxLockoutHistory := by
  constructor
  · intro h
    refine ⟨?_, fun vote hvote => ⟨h.positive vote hvote, h.bounded vote hvote⟩⟩
    rw [isChain_iff_getElem]
    intro i hi
    exact ⟨h.slots.isChain.getElem i hi, h.confirmations.isChain.getElem i hi,
      h.locked.getElem i hi⟩
  · intro h
    constructor
    · have hchain : votes.IsChain (fun vote later => slot vote < slot later) :=
        h.1.imp (fun _ _ hfollows => hfollows.1)
      exact isChain_iff_pairwise.mp hchain
    · have hchain : votes.IsChain
          (fun vote later => confirmationCount later < confirmationCount vote) :=
        h.1.imp (fun _ _ hfollows => hfollows.2.1)
      exact isChain_iff_pairwise.mp hchain
    · exact fun vote hvote => (h.2 vote hvote).1
    · exact fun vote hvote => (h.2 vote hvote).2
    · exact h.1.imp (fun _ _ hfollows => hfollows.2.2)

theorem nil : LockoutStack ([] : List α) := by
  constructor <;> simp

theorem map_lockout : LockoutStack (votes.map LockoutEntry.lockout) ↔ LockoutStack votes := by
  rw [iff_isChain, iff_isChain, isChain_map, forall_mem_map]
  rfl

theorem tail (h : LockoutStack (vote :: votes)) : LockoutStack votes where
  slots := h.slots.of_cons
  confirmations := h.confirmations.of_cons
  positive other hother := h.positive other (mem_cons_of_mem _ hother)
  bounded other hother := h.bounded other (mem_cons_of_mem _ hother)
  locked := h.locked.tail

theorem of_append {later : List α} (h : LockoutStack (votes ++ later)) : LockoutStack votes where
  slots := (pairwise_append.mp h.slots).1
  confirmations := (pairwise_append.mp h.confirmations).1
  positive other hother := h.positive other (mem_append_left _ hother)
  bounded other hother := h.bounded other (mem_append_left _ hother)
  locked := (isChain_append.mp h.locked).1

theorem slot_lt (h : LockoutStack votes) {bound : ℕ}
    (hlast : ∀ vote ∈ votes.getLast?, slot vote < bound) : ∀ vote ∈ votes, slot vote < bound := by
  induction votes using reverseRecOn with
  | nil => simp
  | append_singleton votes last _ =>
    have hbound := hlast last (by simp)
    intro vote hvote
    rcases mem_append.mp hvote with hold | hmem
    · have hslots := (pairwise_append.mp h.slots).2.2
      exact (hslots vote hold last (by simp)).trans hbound
    · rwa [mem_singleton.mp hmem]

theorem length_lt (h : LockoutStack (vote :: votes)) : votes.length < confirmationCount vote := by
  induction votes generalizing vote with
  | nil => exact h.positive vote (by simp)
  | cons next votes ih =>
    have hnext := ih h.tail
    have hlt := rel_of_pairwise_cons h.confirmations (mem_cons_self)
    rw [length_cons]
    omega

theorem length_le (h : LockoutStack votes) : votes.length ≤ maxLockoutHistory := by
  cases votes with
  | nil => exact Nat.zero_le _
  | cons vote votes => exact h.length_lt.trans_le (h.bounded vote (by simp))

theorem slot_head_doubleLockouts {other : α} (h : other ∈ (doubleLockouts votes).head?) :
    ∃ vote ∈ votes.head?, slot other = slot vote := by
  cases votes with
  | nil => cases h
  | cons vote votes =>
    rw [doubleLockouts_cons, head?_cons, Option.mem_some_iff] at h
    exact ⟨vote, by simp, by rw [← h, slot_confirm]⟩

theorem push (h : LockoutStack votes) {new : α} (hnew : confirmationCount new = 1)
    (hslot : ∀ vote ∈ votes, slot vote < slot new)
    (hlock : ∀ vote ∈ votes.getLast?, slot new ≤ lastLockedOutSlot vote)
    (hlen : votes.length < maxLockoutHistory) :
    LockoutStack (doubleLockouts (votes ++ [new])) := by
  induction votes with
  | nil =>
    have heq : doubleLockouts [new] = [new] := by
      rw [doubleLockouts_cons, doubleLockouts_nil, confirm, hnew]
      rfl
    rw [nil_append, heq]
    constructor <;> simp [hnew, maxLockoutHistory]
  | cons vote votes ih =>
    have hrest : LockoutStack (doubleLockouts (votes ++ [new])) := by
      apply ih h.tail (fun other hother => hslot other (mem_cons_of_mem _ hother))
      · intro last hlast
        apply hlock last
        rw [Option.mem_def] at hlast ⊢
        rw [getLast?_cons, hlast]
        rfl
      · rw [length_cons] at hlen
        omega
    have hcount := h.length_lt
    have hbound := h.bounded vote (by simp)
    have hhistory : maxLockoutHistory ≤ u32Max := by decide
    rw [length_cons] at hlen
    rw [cons_append, doubleLockouts_cons, length_append, length_singleton]
    -- what the votes above had before
    have hsrc : ∀ other ∈ doubleLockouts (votes ++ [new]), slot vote < slot other ∧
        confirmationCount other < confirmationCount (confirm vote (votes.length + 1 + 1)) := by
      intro other hother
      rcases exists_of_mem_doubleLockouts hother with ⟨old, hold, depth, hdepth, heq⟩
      rw [length_append, length_singleton] at hdepth
      rw [heq, slot_confirm, confirmationCount_confirm (by omega),
        confirmationCount_confirm (by omega)]
      rcases mem_append.mp hold with hmem | hmem
      · have hlt := rel_of_pairwise_cons h.slots hmem
        have hless := rel_of_pairwise_cons h.confirmations hmem
        refine ⟨hlt, ?_⟩
        split_ifs <;> omega
      · rw [mem_singleton.mp hmem]
        refine ⟨hslot vote (by simp), ?_⟩
        split_ifs <;> omega
    constructor
    · rw [pairwise_cons]
      refine ⟨fun other hother => ?_, hrest.slots⟩
      rw [slot_confirm]
      exact (hsrc other hother).1
    · rw [pairwise_cons]
      exact ⟨fun other hother => (hsrc other hother).2, hrest.confirmations⟩
    · rw [forall_mem_cons]
      refine ⟨?_, hrest.positive⟩
      exact (h.positive vote (by simp)).trans_le confirmationCount_le_confirm
    · rw [forall_mem_cons]
      refine ⟨?_, hrest.bounded⟩
      rw [confirmationCount_confirm (by omega)]
      split_ifs <;> omega
    · rw [isChain_cons]
      refine ⟨fun other hother => ?_, hrest.locked⟩
      rcases slot_head_doubleLockouts hother with ⟨next, hnext, heq⟩
      rw [heq]
      apply le_trans _ lastLockedOutSlot_le_confirm
      cases votes with
      | nil =>
        rw [nil_append, head?_cons, Option.mem_some_iff] at hnext
        subst hnext
        exact hlock vote (by simp)
      | cons above votes =>
        rw [cons_append, head?_cons, Option.mem_some_iff] at hnext
        subst hnext
        exact (isChain_cons.mp h.locked).1 above (by simp)

end LockoutStack

end RakuraiValidator.Vote
