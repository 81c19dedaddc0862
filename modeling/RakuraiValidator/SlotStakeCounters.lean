import RakuraiValidator.VotorCertificates

/-!
# The stake counters of a slot

`SlotStakeCounters` follows the stake of the first votes of a slot and raises
`SafeToNotar` and `SafeToSkip` for a validator which voted in the slot.  A block
inside a leader window is kept as pending instead of being raised at once.
-/

namespace RakuraiValidator.Votor

open Finset BTreeMap Nat

def safeToNotarMinNotarizeOnly : Fraction := .fromPercentage 40

def safeToNotarMinNotarizeForNotarizeOrSkip : Fraction := .fromPercentage 20

def safeToNotarMinNotarizeAndSkip : Fraction := .fromPercentage 60

def safeToSkipThreshold : Fraction := .fromPercentage 40

structure SlotStakeCounters where
  myFirstVote : Option Vote
  totalStake : ℕ+
  skipTotal : ℕ
  notarizeTotal : ℕ
  notarizeEntryTotal : BTreeMap ℕ ℕ
  topNotarizedStake : ℕ
  safeToNotarSent : List ℕ
  safeToSkipSent : Bool

/-- The sum of two stakes which is not allowed to overflow. -/
inductive CountersPanic
  | stakeOverflow
deriving DecidableEq

/-- The events and the pending blocks which the counters add to. -/
structure Raised where
  events : List VotorEvent
  pendingSafeToNotar : List Block

variable {isMyOwnVote : Bool} {entryStake : ℕ}

variable {skip : ℕ} {c c' : SlotStakeCounters} {notarize : ℕ → ℕ}

namespace SlotStakeCounters

def new (totalStake : ℕ+) : SlotStakeCounters where
  myFirstVote := none
  totalStake := totalStake
  skipTotal := 0
  notarizeTotal := 0
  notarizeEntryTotal := .empty
  topNotarizedStake := 0
  safeToNotarSent := []
  safeToSkipSent := false

def votedFor (c : SlotStakeCounters) (blockId : ℕ) : Bool :=
  match c.myFirstVote with
  | some (.notarize block) => block.blockId = blockId
  | _ => false

def isSafeToNotar (c : SlotStakeCounters) (blockId stake : ℕ) : Except CountersPanic Bool :=
  if c.votedFor blockId then .ok false
  else if u64Max < c.skipTotal + stake then .error .stakeOverflow
  else
    .ok (safeToNotarMinNotarizeOnly ≤ ⟨stake, c.totalStake⟩ ∨
      (safeToNotarMinNotarizeForNotarizeOrSkip ≤ ⟨stake, c.totalStake⟩ ∧
        safeToNotarMinNotarizeAndSkip ≤ ⟨c.skipTotal + stake, c.totalStake⟩))

def isSafeToSkip (c : SlotStakeCounters) : Bool :=
  match c.myFirstVote with
  | some (.notarize _) =>
    safeToSkipThreshold ≤
      ⟨saturatingAdd c.skipTotal (c.notarizeTotal - c.topNotarizedStake), c.totalStake⟩
  | _ => false

def isFirstInLeaderWindow (slot : ℕ) : Bool :=
  slot % numConsecutiveLeaderSlots = 0 || slot = 1

def checkSafeToNotar (slot : ℕ) :
    List (ℕ × ℕ) → SlotStakeCounters → Raised → Except CountersPanic (SlotStakeCounters × Raised)
  | [], c, raised => .ok (c, raised)
  | (blockId, stake) :: entries, c, raised =>
    if blockId ∈ c.safeToNotarSent then checkSafeToNotar slot entries c raised
    else do
      if ← c.isSafeToNotar blockId stake then
        let c := { c with safeToNotarSent := c.safeToNotarSent ++ [blockId] }
        let raised :=
          if isFirstInLeaderWindow slot then
            { raised with events := raised.events ++ [.safeToNotar ⟨slot, blockId⟩] }
          else
            { raised with
              pendingSafeToNotar := raised.pendingSafeToNotar ++ [⟨slot, blockId⟩] }
        checkSafeToNotar slot entries c raised
      else checkSafeToNotar slot entries c raised

def count (c : SlotStakeCounters) (vote : Vote) (entryStake : ℕ) : SlotStakeCounters :=
  match vote with
  | .skip _ => { c with skipTotal := entryStake }
  | .notarize block =>
    let (oldEntryStake, notarizeEntryTotal) :=
      c.notarizeEntryTotal.insert block.blockId entryStake
    { c with
      notarizeEntryTotal := notarizeEntryTotal
      notarizeTotal := saturatingAdd (c.notarizeTotal - oldEntryStake.getD 0) entryStake
      topNotarizedStake := max c.topNotarizedStake entryStake }
  | _ => c

def setMyFirstVote (c : SlotStakeCounters) (vote : Vote) (isMyOwnVote : Bool) : SlotStakeCounters :=
  if c.myFirstVote.isNone && isMyOwnVote then { c with myFirstVote := some vote } else c

def checkSafeToSkip (slot : ℕ) (c : SlotStakeCounters) (raised : Raised) :
    SlotStakeCounters × Raised :=
  if !c.safeToSkipSent && c.isSafeToSkip then
    ({ c with safeToSkipSent := true },
      { raised with events := raised.events ++ [.safeToSkip slot] })
  else (c, raised)

def addVote (c : SlotStakeCounters) (vote : Vote) (entryStake : ℕ) (isMyOwnVote : Bool)
    (raised : Raised) : Except CountersPanic (SlotStakeCounters × Raised) :=
  if !vote.isNotarizeOrSkip then .ok (c, raised)
  else
    let c := (c.count vote entryStake).setMyFirstVote vote isMyOwnVote
    if c.myFirstVote.isNone then .ok (c, raised)
    else do
      let (c, raised) ← checkSafeToNotar vote.slot c.notarizeEntryTotal.entries c raised
      .ok (checkSafeToSkip vote.slot c raised)

/-! ## What the counters raise -/

def notarizeStake (c : SlotStakeCounters) (blockId : ℕ) : ℕ :=
  (c.notarizeEntryTotal.get? blockId).getD 0

structure Bounded (c : SlotStakeCounters) (skip : ℕ) (notarize : ℕ → ℕ) : Prop where
  skipTotal : c.skipTotal ≤ skip
  entry : ∀ blockId, c.notarizeStake blockId ≤ notarize blockId
  total : ∃ blockIds : Finset ℕ, c.notarizeTotal ≤ ∑ blockId ∈ blockIds, c.notarizeStake blockId
  top : ∀ blockId, c.notarizeStake blockId ≤ c.topNotarizedStake

def SafeToNotarStakes (total skip notarize : ℕ) : Prop :=
  40 * total ≤ notarize * 100 ∨ (20 * total ≤ notarize * 100 ∧ 60 * total ≤ (skip + notarize) * 100)

/-- The stakes with which it is safe to skip: whatever block is left out. -/
def SafeToSkipStakes (total skip : ℕ) (notarize : ℕ → ℕ) : Prop :=
  ∀ blockId, ∃ blockIds : Finset ℕ, blockId ∉ blockIds ∧
    40 * total ≤ (skip + ∑ other ∈ blockIds, notarize other) * 100

variable {total : ℕ}

theorem SafeToNotarStakes.mono {skip' notarize notarize' : ℕ}
    (h : SafeToNotarStakes total skip notarize) (hskip : skip ≤ skip')
    (hnotarize : notarize ≤ notarize') : SafeToNotarStakes total skip' notarize' := by
  unfold SafeToNotarStakes at h ⊢
  omega

theorem SafeToSkipStakes.mono {skip' : ℕ} {notarize notarize' : ℕ → ℕ}
    (h : SafeToSkipStakes total skip notarize) (hskip : skip ≤ skip')
    (hnotarize : ∀ blockId, notarize blockId ≤ notarize' blockId) :
    SafeToSkipStakes total skip' notarize' := by
  intro blockId
  rcases h blockId with ⟨blockIds, hnot, hle⟩
  have hsum := sum_le_sum (fun other (_ : other ∈ blockIds) => hnotarize other)
  exact ⟨blockIds, hnot, by omega⟩

theorem SafeToNotarStakes.card_le {notarize : ℕ → ℕ} {blockIds : Finset ℕ}
    (h : ∀ blockId ∈ blockIds, SafeToNotarStakes total skip (notarize blockId))
    (htot : 0 < total) (hsum : skip + ∑ blockId ∈ blockIds, notarize blockId ≤ total) :
    blockIds.card ≤ 3 := by
  by_contra hcard
  by_cases hskip : ∃ blockId ∈ blockIds, 60 * total ≤ (skip + notarize blockId) * 100
  · rcases hskip with ⟨blockId, hmem, hle⟩
    have hothers : (blockIds.erase blockId).card * (20 * total) ≤
        ∑ other ∈ blockIds.erase blockId, notarize other * 100 := by
      rw [← smul_eq_mul]
      apply card_nsmul_le_sum
      intro other hother
      have hsafe := h other (mem_of_mem_erase hother)
      unfold SafeToNotarStakes at hsafe
      omega
    rw [card_erase_of_mem hmem, ← sum_mul] at hothers
    rw [← add_sum_erase blockIds notarize hmem] at hsum
    have hthree : 3 * (20 * total) ≤ (blockIds.card - 1) * (20 * total) :=
      mul_le_mul_right _ (by omega)
    omega
  · have hall : blockIds.card * (40 * total) ≤ ∑ blockId ∈ blockIds, notarize blockId * 100 := by
      rw [← smul_eq_mul]
      apply card_nsmul_le_sum
      intro blockId hmem
      rcases h blockId hmem with hle | ⟨_, hle⟩
      · exact hle
      · exact absurd ⟨blockId, hmem, hle⟩ hskip
    rw [← sum_mul] at hall
    have hfour : 4 * (40 * total) ≤ blockIds.card * (40 * total) :=
      mul_le_mul_right _ (by omega)
    omega

section Bounds

variable {skip' : ℕ} {notarize' : ℕ → ℕ}

theorem bounded_new (totalStake : ℕ+) : (new totalStake).Bounded skip notarize where
  skipTotal := zero_le _
  entry _ := zero_le _
  total := ⟨∅, zero_le _⟩
  top _ := zero_le _

theorem Bounded.mono (h : c.Bounded skip notarize) (hskip : skip ≤ skip')
    (hnotarize : ∀ blockId, notarize blockId ≤ notarize' blockId) : c.Bounded skip' notarize' where
  skipTotal := h.skipTotal.trans hskip
  entry blockId := (h.entry blockId).trans (hnotarize blockId)
  total := h.total
  top := h.top

theorem saturatingAdd_le (x y : ℕ) : saturatingAdd x y ≤ x + y := min_le_left _ _

theorem notarizeStake_count (block : Block) (entryStake blockId : ℕ) :
    (c.count (.notarize block) entryStake).notarizeStake blockId =
      if blockId = block.blockId then entryStake else c.notarizeStake blockId := by
  simp only [count, notarizeStake, get?_insert]
  split <;> rfl

theorem Bounded.count (h : c.Bounded skip notarize) {vote : Vote}
    (hskip : ∀ slot, vote = .skip slot → entryStake ≤ skip)
    (hnotarize : ∀ block, vote = .notarize block → entryStake ≤ notarize block.blockId) :
    (c.count vote entryStake).Bounded skip notarize := by
  cases vote with
  | skip slot => exact ⟨hskip slot rfl, h.entry, h.total, h.top⟩
  | notarize block =>
    constructor
    · exact h.skipTotal
    · intro blockId
      rw [notarizeStake_count]
      split
      next heq =>
        rw [heq]
        exact hnotarize block rfl
      next => exact h.entry blockId
    · -- the old stake of the block is taken out of the sum
      rcases h.total with ⟨blockIds, hle⟩
      refine ⟨insert block.blockId (blockIds.erase block.blockId), ?_⟩
      rw [sum_insert (notMem_erase _ _), notarizeStake_count, if_pos rfl]
      have hrest : ∑ blockId ∈ blockIds.erase block.blockId,
          (c.count (.notarize block) entryStake).notarizeStake blockId =
            ∑ blockId ∈ blockIds.erase block.blockId, c.notarizeStake blockId := by
        apply sum_congr rfl
        intro blockId hblockId
        rw [notarizeStake_count, if_neg (ne_of_mem_erase hblockId)]
      have hold : ∑ blockId ∈ blockIds, c.notarizeStake blockId ≤
          c.notarizeStake block.blockId +
            ∑ blockId ∈ blockIds.erase block.blockId, c.notarizeStake blockId := by
        by_cases hmem : block.blockId ∈ blockIds
        · rw [add_sum_erase _ _ hmem]
        · rw [erase_eq_of_notMem hmem]
          exact le_add_left _ _
      rw [hrest]
      have hadd := saturatingAdd_le (c.notarizeTotal - c.notarizeStake block.blockId) entryStake
      have hcount : (c.count (.notarize block) entryStake).notarizeTotal =
          saturatingAdd (c.notarizeTotal - c.notarizeStake block.blockId) entryStake := by
        simp only [SlotStakeCounters.count, notarizeStake, insert_fst]
      rw [hcount]
      omega
    · intro blockId
      rw [notarizeStake_count]
      have hmax : (c.count (.notarize block) entryStake).topNotarizedStake =
          max c.topNotarizedStake entryStake := rfl
      rw [hmax]
      split
      · exact le_max_right _ _
      · exact (h.top blockId).trans (le_max_left _ _)
  | finalize slot => exact h
  | notarizeFallback block => exact h
  | skipFallback slot => exact h
  | genesis block => exact h

theorem Bounded.setMyFirstVote (h : c.Bounded skip notarize) (vote : Vote) (isMyOwnVote : Bool) :
    (c.setMyFirstVote vote isMyOwnVote).Bounded skip notarize := by
  unfold SlotStakeCounters.setMyFirstVote
  split
  · exact ⟨h.skipTotal, h.entry, h.total, h.top⟩
  · exact h

theorem isSafeToNotar_eq_true {blockId stake : ℕ} (h : c.isSafeToNotar blockId stake = .ok true) :
    c.votedFor blockId = false ∧ SafeToNotarStakes c.totalStake c.skipTotal stake := by
  unfold isSafeToNotar at h
  split at h
  next => cases h
  next hvoted =>
    split at h
    · cases h
    · refine ⟨by simpa using hvoted, ?_⟩
      have hsafe := of_decide_eq_true (Except.ok.inj h)
      exact hsafe

theorem Bounded.isSafeToSkip (h : c.Bounded skip notarize) (hsafe : c.isSafeToSkip = true) :
    (∃ block, c.myFirstVote = some (.notarize block)) ∧
      SafeToSkipStakes c.totalStake skip notarize := by
  unfold SlotStakeCounters.isSafeToSkip at hsafe
  split at hsafe
  next block hfirst =>
    refine ⟨⟨block, hfirst⟩, ?_⟩
    have hle : 40 * (c.totalStake : ℕ) ≤
        saturatingAdd c.skipTotal (c.notarizeTotal - c.topNotarizedStake) * 100 :=
      of_decide_eq_true hsafe
    have hadd := saturatingAdd_le c.skipTotal (c.notarizeTotal - c.topNotarizedStake)
    rcases h.total with ⟨blockIds, htot⟩
    intro blockId
    refine ⟨blockIds.erase blockId, notMem_erase _ _, ?_⟩
    have hrest : ∑ other ∈ blockIds.erase blockId, c.notarizeStake other ≤
        ∑ other ∈ blockIds.erase blockId, notarize other :=
      sum_le_sum (fun other _ => h.entry other)
    have hsum : ∑ other ∈ blockIds, c.notarizeStake other ≤
        c.topNotarizedStake + ∑ other ∈ blockIds.erase blockId, c.notarizeStake other := by
      by_cases hmem : blockId ∈ blockIds
      · rw [← add_sum_erase _ _ hmem]
        exact Nat.add_le_add_right (h.top blockId) _
      · rw [erase_eq_of_notMem hmem]
        exact le_add_left _ _
    have hskip := h.skipTotal
    omega
  next => cases hsafe

end Bounds

/-! ## The events of one vote -/

end SlotStakeCounters

def Raised.Notar (raised : Raised) (block : Block) : Prop :=
  .safeToNotar block ∈ raised.events ∨ block ∈ raised.pendingSafeToNotar

def Raised.Skip (raised : Raised) (slot : ℕ) : Prop := .safeToSkip slot ∈ raised.events

namespace SlotStakeCounters

variable {raised raised' : Raised}

/-- The loop only adds to the sent blocks and to the raised events. -/
structure SafeToNotarChecked (slot : ℕ) (entries : List (ℕ × ℕ)) (c c' : SlotStakeCounters)
    (raised raised' : Raised) : Prop where
  counters : c' = { c with safeToNotarSent := c'.safeToNotarSent }
  notar : ∀ block, raised'.Notar block → raised.Notar block ∨
    (block.slot = slot ∧ c.votedFor block.blockId = false ∧
      ∃ stake, (block.blockId, stake) ∈ entries ∧ SafeToNotarStakes c.totalStake c.skipTotal stake)
  skip : ∀ slot, raised'.Skip slot ↔ raised.Skip slot

theorem checkSafeToNotar_spec {slot : ℕ} {entries : List (ℕ × ℕ)}
    (h : checkSafeToNotar slot entries c raised = .ok (c', raised')) :
    SafeToNotarChecked slot entries c c' raised raised' := by
  induction entries generalizing c raised with
  | nil =>
    cases h
    exact ⟨rfl, fun _ => .inl, fun _ => .rfl⟩
  | cons entry entries ih =>
    rcases entry with ⟨blockId, stake⟩
    have hskipped : checkSafeToNotar slot entries c raised = .ok (c', raised') →
        SafeToNotarChecked slot ((blockId, stake) :: entries) c c' raised raised' := by
      intro hrest
      have hchecked := ih hrest
      refine ⟨hchecked.counters, ?_, hchecked.skip⟩
      intro block hblock
      rcases hchecked.notar block hblock with hold | ⟨hslot, hvoted, stake', hmem, hsafe⟩
      · exact .inl hold
      · exact .inr ⟨hslot, hvoted, stake', List.mem_cons_of_mem _ hmem, hsafe⟩
    rw [checkSafeToNotar] at h
    split at h
    · exact hskipped h
    · cases hsafe : c.isSafeToNotar blockId stake with
      | error panic =>
        rw [hsafe] at h
        cases h
      | ok safe =>
        rw [hsafe] at h
        cases safe with
        | false => exact hskipped h
        | true =>
          -- the block is raised at once or becomes pending
          have hchecked := ih h
          rcases isSafeToNotar_eq_true hsafe with ⟨hvoted, hstakes⟩
          constructor
          · exact hchecked.counters
          · intro block hblock
            rcases hchecked.notar block hblock with hold | ⟨hslot, hvoted', stake', hmem, hsafe'⟩
            · have hcases : raised.Notar block ∨ block = ⟨slot, blockId⟩ := by
                unfold Raised.Notar at hold ⊢
                split at hold <;> simp at hold <;> tauto
              rcases hcases with hold | heq
              · exact .inl hold
              · rw [heq]
                exact .inr ⟨rfl, hvoted, stake, List.mem_cons_self, hstakes⟩
            · exact .inr ⟨hslot, hvoted', stake', List.mem_cons_of_mem _ hmem, hsafe'⟩
          · intro slot'
            rw [hchecked.skip]
            unfold Raised.Skip
            split <;> simp

/-- The effect of a vote on the counters, with bounds for the stakes after it. -/
structure VoteAdded (vote : Vote) (isMyOwnVote : Bool) (skip : ℕ) (notarize : ℕ → ℕ)
    (c c' : SlotStakeCounters) (raised raised' : Raised) : Prop where
  bounded : c'.Bounded skip notarize
  totalStake : c'.totalStake = c.totalStake
  first : ∀ first ∈ c'.myFirstVote, c.myFirstVote = some first ∨
    (first = vote ∧ isMyOwnVote = true ∧ vote.isNotarizeOrSkip = true)
  notar : ∀ block, raised'.Notar block → raised.Notar block ∨
    (block.slot = vote.slot ∧ (∃ first ∈ c'.myFirstVote, first ≠ .notarize block) ∧
      SafeToNotarStakes c.totalStake skip (notarize block.blockId))
  skip : ∀ slot, raised'.Skip slot → raised.Skip slot ∨
    (slot = vote.slot ∧ (∃ block, c'.myFirstVote = some (.notarize block)) ∧
      SafeToSkipStakes c.totalStake skip notarize)

variable {vote : Vote}

theorem mem_setMyFirstVote {first : Vote}
    (h : first ∈ (c.setMyFirstVote vote isMyOwnVote).myFirstVote) :
    c.myFirstVote = some first ∨ (first = vote ∧ isMyOwnVote = true) := by
  unfold setMyFirstVote at h
  split at h
  next hown =>
    rw [Bool.and_eq_true] at hown
    exact .inr ⟨(Option.some.inj h).symm, hown.2⟩
  next => exact .inl h

theorem checked_spec (h : c.Bounded skip notarize) (hvoted : c.myFirstVote.isNone = false)
    {c₁ : SlotStakeCounters} {raised₁ : Raised}
    (hcheck : checkSafeToNotar vote.slot c.notarizeEntryTotal.entries c raised = .ok (c₁, raised₁))
    (hskip : checkSafeToSkip vote.slot c₁ raised₁ = (c', raised')) :
    c'.Bounded skip notarize ∧ c'.totalStake = c.totalStake ∧ c'.myFirstVote = c.myFirstVote ∧
    (∀ block, raised'.Notar block → raised.Notar block ∨
      (block.slot = vote.slot ∧ (∃ first ∈ c.myFirstVote, first ≠ .notarize block) ∧
        SafeToNotarStakes c.totalStake skip (notarize block.blockId))) ∧
    ∀ slot, raised'.Skip slot → raised.Skip slot ∨
      (slot = vote.slot ∧ (∃ block, c.myFirstVote = some (.notarize block)) ∧
        SafeToSkipStakes c.totalStake skip notarize) := by
  have hchecked := checkSafeToNotar_spec hcheck
  have hcounts := hchecked.counters
  have hbdd : c₁.Bounded skip notarize := by
    rw [hcounts]
    exact ⟨h.skipTotal, h.entry, h.total, h.top⟩
  have htot : c₁.totalStake = c.totalStake := by rw [hcounts]
  have hfirst : c₁.myFirstVote = c.myFirstVote := by rw [hcounts]
  have hnotar : ∀ block, raised₁.Notar block → raised.Notar block ∨
      (block.slot = vote.slot ∧ (∃ first ∈ c.myFirstVote, first ≠ .notarize block) ∧
        SafeToNotarStakes c.totalStake skip (notarize block.blockId)) := by
    intro block hblock
    rcases hchecked.notar block hblock with hold | ⟨hslot, hother, stake, hmem, hsafe⟩
    · exact .inl hold
    · cases hfirstVote : c.myFirstVote with
      | none => simp [hfirstVote] at hvoted
      | some first =>
        have hstake : c.notarizeStake block.blockId = stake := by
          rw [notarizeStake, (get?_eq_some_iff _ _ _).mpr hmem]
          rfl
        refine .inr ⟨hslot, ⟨first, rfl, ?_⟩,
          hsafe.mono h.skipTotal (hstake ▸ h.entry block.blockId)⟩
        intro heq
        rw [heq] at hfirstVote
        simp [votedFor, hfirstVote] at hother
  unfold checkSafeToSkip at hskip
  split at hskip
  next hsafe =>
    cases hskip
    rw [Bool.and_eq_true] at hsafe
    rcases hbdd.isSafeToSkip hsafe.2 with ⟨hnotarized, hstakes⟩
    refine ⟨⟨hbdd.skipTotal, hbdd.entry, hbdd.total, hbdd.top⟩, htot, hfirst, ?_, ?_⟩
    · intro block hblock
      apply hnotar block
      simpa [Raised.Notar] using hblock
    · intro slot hslot
      rw [hfirst] at hnotarized
      rw [htot] at hstakes
      have hcases : raised₁.Skip slot ∨ slot = vote.slot := by
        simpa [Raised.Skip] using hslot
      rcases hcases with hold | heq
      · exact .inl ((hchecked.skip slot).mp hold)
      · exact .inr ⟨heq, hnotarized, hstakes⟩
  next =>
    cases hskip
    exact ⟨hbdd, htot, hfirst, hnotar, fun slot hslot => .inl ((hchecked.skip slot).mp hslot)⟩

theorem addVote_spec (h : c.Bounded skip notarize)
    (hskip : ∀ slot, vote = .skip slot → entryStake ≤ skip)
    (hnotarize : ∀ block, vote = .notarize block → entryStake ≤ notarize block.blockId)
    (hadd : c.addVote vote entryStake isMyOwnVote raised = .ok (c', raised')) :
    VoteAdded vote isMyOwnVote skip notarize c c' raised raised' := by
  unfold addVote at hadd
  split at hadd
  next =>
    cases hadd
    exact ⟨h, rfl, fun _ hfirst => .inl hfirst, fun _ => .inl, fun _ => .inl⟩
  next hkind =>
    have hbdd := (h.count hskip hnotarize).setMyFirstVote vote isMyOwnVote
    have htot : ((c.count vote entryStake).setMyFirstVote vote isMyOwnVote).totalStake =
        c.totalStake := by
      unfold setMyFirstVote
      split <;> cases vote <;> rfl
    have hfirst : ∀ first ∈ ((c.count vote entryStake).setMyFirstVote vote isMyOwnVote).myFirstVote,
        c.myFirstVote = some first ∨
          (first = vote ∧ isMyOwnVote = true ∧ vote.isNotarizeOrSkip = true) := by
      intro first hmem
      rcases mem_setMyFirstVote hmem with hold | ⟨heq, hown⟩
      · cases vote <;> exact .inl hold
      · exact .inr ⟨heq, hown, by simpa using hkind⟩
    generalize (c.count vote entryStake).setMyFirstVote vote isMyOwnVote = c₀ at *
    dsimp only at hadd
    split at hadd
    next =>
      cases hadd
      exact ⟨hbdd, htot, hfirst, fun _ => .inl, fun _ => .inl⟩
    next hvoted =>
      cases hcheck : checkSafeToNotar vote.slot c₀.notarizeEntryTotal.entries c₀ raised with
      | error panic =>
        rw [hcheck] at hadd
        cases hadd
      | ok result =>
        rw [hcheck] at hadd
        have hskip : checkSafeToSkip vote.slot result.1 result.2 = (c', raised') :=
          Except.ok.inj hadd
        rcases checked_spec hbdd (Bool.eq_false_iff.mpr hvoted) hcheck hskip with
          ⟨hbdd', htot', hfirst', hnotar, hskips⟩
        rw [htot] at htot' hnotar hskips
        rw [← hfirst'] at hfirst hnotar hskips
        exact ⟨hbdd', htot', hfirst, hnotar, hskips⟩

end SlotStakeCounters

end RakuraiValidator.Votor
