import RakuraiValidator.ClusterSlotStateVerifier
import RakuraiValidator.ForkCandidacy
import RakuraiValidator.SlotKnowledge

/-!
# The order of signals about a slot

The verifier follows the machine that keeps what is known of one slot: every signal is answered
without a panic, and moves the tables and the flags of the local version as the machine does.  What
becomes of the block in the fork choice, and of its entry for repair, is therefore the same for every
order of the signals that the machine treats alike.
-/

namespace RakuraiValidator.SlotState

open SlotStateUpdate ForkChoice BTreeMap DescendingPasses Option Verifier List

attribute [local simp] canBeFurtherReplayed intoStateChanges BankStatus.canBeFurtherReplayed
  BankStatus.bankHash onFrozenSlot get?_insert newDuplicateState onEpochSlotsFrozen

variable {Hash : Type} [LinearOrder Hash]

/-! ## The verifier -/

namespace Verifier

variable [Inhabited Hash]

def report (slot root : ℕ) (bankHash : Option Hash) (verifier : Verifier Hash) :
    Report Hash → Except Panic (Verifier Hash)
  | .duplicate =>
    verifier.checkSlotAgreesWithCluster slot root
      (.duplicate (verifier.newDuplicateState slot false bankHash))
  | .duplicateConfirmed hash => verifier.processDuplicateConfirmed slot root hash false bankHash
  | .epochSlotsFrozen hash =>
    verifier.checkSlotAgreesWithCluster slot root
      (.epochSlotsFrozen (verifier.newEpochSlotsFrozenState slot hash false bankHash false))

def freezeBank (slot : ℕ) (hash : Hash) (parent : SlotHashKey Hash)
    (verifier : Verifier Hash) : Except Panic (Verifier Hash) := do
  let forkChoice ← liftForkChoice (verifier.forkChoice.addNewLeafSlot ⟨slot, hash⟩ (some parent))
  .ok { verifier with forkChoice }

def announceBank (slot root : ℕ) (hash : Hash) (verifier : Verifier Hash) :
    Except Panic (Verifier Hash) := do
  let state ← verifier.newBankFrozenState slot hash
  verifier.checkSlotAgreesWithCluster slot root (.bankFrozen state)

/-- The bank is frozen and added to the fork choice before it is announced; reports arrive at any
time. -/
def deliver (slot root : ℕ) (hash : Hash) (parent : SlotHashKey Hash)
    (before between after : List (Report Hash)) (verifier : Verifier Hash) :
    Except Panic (Verifier Hash) := do
  let verifier ← before.foldlM (report slot root none) verifier
  let verifier ← verifier.freezeBank slot hash parent
  let verifier ← between.foldlM (report slot root (some hash)) verifier
  let verifier ← verifier.announceBank slot root hash
  after.foldlM (report slot root (some hash)) verifier

end Verifier

structure Shows (root : SlotHashKey Hash) (slot : ℕ) (verifier : Verifier Hash)
    (knowledge : Knowledge Hash) : Prop where
  validity : Validity verifier.forkChoice.forkInfos root
  duplicate : verifier.duplicateSlotsTracker.containsKey slot = knowledge.duplicate
  confirmed : verifier.duplicateConfirmedSlots.get? slot = knowledge.confirmed
  epochSlots : verifier.epochSlotsFrozenSlots.get? slot = knowledge.epochSlots
  repair : verifier.duplicateSlotsToRepair.get? slot = knowledge.repair
  version : ∀ version, knowledge.version = some version →
    ∃ info, verifier.forkChoice.forkInfos.get? ⟨slot, version.hash⟩ = some info ∧
      info.isDuplicateConfirmed = version.isDuplicateConfirmed ∧
      info.latestInvalidAncestor = version.latestInvalidAncestor

variable {report : Report Hash}

section Refinement

variable {root : SlotHashKey Hash} {slot rootSlot : ℕ} {verifier : Verifier Hash}
  {knowledge : Knowledge Hash} {version : Local Hash}

variable (h : Shows root slot verifier knowledge)

include h in
theorem Shows.insertDuplicate :
    Shows root slot
      { verifier with duplicateSlotsTracker := (verifier.duplicateSlotsTracker.insert slot ()).2 }
      { knowledge with duplicate := true } :=
  ⟨h.validity, by simp [containsKey], h.confirmed, h.epochSlots,
    h.repair, h.version⟩

variable {hash : Hash}

section

variable (h : Shows root slot verifier knowledge)

include h

theorem Shows.insertConfirmed :
    Shows root slot
      { verifier with
        duplicateConfirmedSlots := (verifier.duplicateConfirmedSlots.insert slot hash).2 }
      { knowledge with confirmed := some hash } :=
  ⟨h.validity, h.duplicate, by simp, h.epochSlots, h.repair, h.version⟩

theorem Shows.insertEpochSlots :
    Shows root slot
      { verifier with epochSlotsFrozenSlots := (verifier.epochSlotsFrozenSlots.insert slot hash).2 }
      { knowledge with epochSlots := some hash } :=
  ⟨h.validity, h.duplicate, h.confirmed, by simp, h.repair, h.version⟩

theorem Shows.getDuplicateConfirmedHash_eq_none (hversion : knowledge.version = some version) :
    verifier.getDuplicateConfirmedHash slot (some version.hash) = none ↔
      knowledge.someConfirmed version = false := by
  obtain ⟨info, hinfo, hflag, _⟩ := h.version version hversion
  simp only [getDuplicateConfirmedHash, isDuplicateConfirmed, hinfo, map_some,
    getD_some, hflag, h.confirmed, Knowledge.someConfirmed]
  cases version.isDuplicateConfirmed <;> simp

theorem Shows.getDuplicateConfirmedHash_eq_some (hversion : knowledge.version = some version)
    (hsome : knowledge.someConfirmed version = true) :
    ∃ hash, verifier.getDuplicateConfirmedHash slot (some version.hash) = some hash := by
  apply ne_none_iff_exists'.mp
  rw [Ne, h.getDuplicateConfirmedHash_eq_none hversion, hsome]
  decide

end

omit [LinearOrder Hash] in
theorem unconfirmed_of_someConfirmed (h : knowledge.someConfirmed version = false) :
    version.isDuplicateConfirmed = false := by
  simp only [Knowledge.someConfirmed, Bool.or_eq_false_iff] at h
  exact h.1

theorem raised_eq_some {latest : Option ℕ} (h : ∀ s, latest = some s → s ≤ slot) :
    raised slot latest = some slot := by
  cases latest with
  | none => rfl
  | some s =>
    have hle := h s rfl
    rcases hle.lt_or_eq with hlt | heq
    · simp [raised, hlt]
    · simp [raised, heq]

variable [Inhabited Hash]

/-- A change leads from what the verifier shows to what it shows next. -/
def Leads (root : SlotHashKey Hash) (slot : ℕ) (changes : List (ResultingStateChange Hash))
    (verifier : Verifier Hash) (next : Knowledge Hash) : Prop :=
  ∀ pending, ∃ verifier' pending',
    changes.foldlM (Verifier.applyStateChange slot) (verifier, pending) = .ok (verifier', pending') ∧
      Shows root slot verifier' next

include h in
theorem Leads.nil : Leads root slot [] verifier knowledge :=
  fun pending => ⟨verifier, pending, rfl, h⟩

include h in
theorem Leads.repair :
    Leads root slot [.repairDuplicateConfirmedVersion hash] verifier
      { knowledge with repair := some hash } := by
  intro pending
  refine ⟨_, _, rfl, h.validity, h.duplicate, h.confirmed, h.epochSlots, ?_, h.version⟩
  simp

theorem Leads.append {first second : List (ResultingStateChange Hash)} {middle last : Knowledge Hash}
    (hfirst : Leads root slot first verifier middle)
    (hsecond : ∀ verifier : Verifier Hash, Shows root slot verifier middle →
      Leads root slot second verifier last) : Leads root slot (first ++ second) verifier last := by
  intro pending
  obtain ⟨verifier', pending', hrun, hmiddle⟩ := hfirst pending
  obtain ⟨verifier'', pending'', hrun', hlast⟩ := hsecond verifier' hmiddle pending'
  refine ⟨verifier'', pending'', ?_, hlast⟩
  rw [foldlM_append, hrun]
  exact hrun'

omit [LinearOrder Hash] in
theorem key_ne_default (hslot : 0 < slot) : (⟨slot, hash⟩ : SlotHashKey Hash) ≠ default := by
  intro heq
  have hzero : slot = 0 := congrArg SlotHashKey.slot heq
  omega

section

variable (h : Shows root slot verifier knowledge) (hversion : knowledge.version = some version)

include h hversion

theorem Leads.markDuplicate (hslot : 0 < slot)
    (hunconf : version.isDuplicateConfirmed = false) :
    Leads root slot [.markSlotDuplicate version.hash] verifier (knowledge.markDuplicate slot) := by
  intro pending
  obtain ⟨info, hinfo, hflag, hlatest⟩ := h.version version hversion
  obtain ⟨F', hrun, hmark⟩ := markForkInvalidCandidate_effect h.validity hinfo
    (hflag.trans hunconf) (key_ne_default hslot)
  have hfree : ¬ verifier.forkChoice.forkInfos.DuplicateConfirmed ⟨slot, version.hash⟩ := by
    rw [confirmed_of_get? hinfo, hflag, hunconf]
    nofun
  refine ⟨{ verifier with forkChoice := { verifier.forkChoice with forkInfos := F' } }, pending, ?_,
    h.validity.markInvalid hfree hmark, h.duplicate, h.confirmed, h.epochSlots, h.repair, ?_⟩
  · simp only [foldlM_cons, foldlM_nil, applyStateChange, hrun, liftForkChoice]
    rfl
  · intro version' hversion'
    simp only [Knowledge.markDuplicate, hversion, map_some, some.injEq] at hversion'
    subst hversion'
    obtain ⟨info', hinfo', hflag', hraised, _⟩ := hmark.block _ info hinfo
    refine ⟨info', hinfo', hflag'.trans hflag, ?_⟩
    rw [hraised (.refl _)]
    exact raised_eq_some fun s hs => h.validity.invalid_le hinfo hs

theorem Leads.markConfirmed (hslot : 0 < slot) :
    Leads root slot [.duplicateConfirmedSlotMatchesCluster version.hash] verifier
      knowledge.markConfirmed := by
  intro pending
  obtain ⟨info, hinfo, _⟩ := h.version version hversion
  obtain ⟨newly, F', hrun, hmark⟩ :=
    markForkValidCandidate_effect h.validity hinfo (key_ne_default hslot)
  refine ⟨{ verifier with
      forkChoice := { verifier.forkChoice with forkInfos := F' }
      bankHashes := setDuplicateConfirmedSlotsAndHashes verifier.bankHashes newly
      duplicateSlotsToRepair := (verifier.duplicateSlotsToRepair.remove slot).2
      purgeRepairSlotCounter := (verifier.purgeRepairSlotCounter.remove slot).2 }, none, ?_,
    h.validity.markValid hmark, h.duplicate, h.confirmed, h.epochSlots, ?_, ?_⟩
  · simp only [foldlM_cons, foldlM_nil, applyStateChange, hrun, liftForkChoice]
    rfl
  · simp [get?_remove, Knowledge.markConfirmed]
  · intro version' hversion'
    simp only [Knowledge.markConfirmed, hversion, map_some, some.injEq] at hversion'
    subst hversion'
    obtain ⟨info', hinfo', hflag', _, hclear, _⟩ := hmark.block _ info hinfo
    exact ⟨info', hinfo', hflag'.mpr (.inr (.refl _)), hclear (.refl _)⟩

theorem Leads.bankFrozen : Leads root slot [.bankFrozen version.hash] verifier knowledge := by
  intro pending
  obtain ⟨info, hinfo, _⟩ := h.version version hversion
  simp only [foldlM_cons, foldlM_nil, applyStateChange, isDuplicateConfirmed, hinfo, map_some]
  cases info.isDuplicateConfirmed with
  | true => exact ⟨verifier, pending, rfl, h⟩
  | false => exact ⟨verifier, some version.hash, rfl, h⟩

theorem Leads.compareConfirmed (hslot : 0 < slot)
    (hunconf : version.isDuplicateConfirmed = false) :
    Leads root slot (checkDuplicateConfirmedHashAgainstBankStatus hash (.frozen version.hash))
      verifier (knowledge.compareConfirmed slot version hash) := by
  simp only [Knowledge.compareConfirmed, checkDuplicateConfirmedHashAgainstBankStatus]
  split
  · exact Leads.markConfirmed h hversion hslot
  · exact (Leads.markDuplicate h hversion hslot hunconf).append fun _ h => Leads.repair h

end

omit [Inhabited Hash] in
theorem checkEpochSlotsHash_frozen (sampled hash : Hash) :
    checkEpochSlotsHashAgainstBankStatus sampled false (.frozen hash) = .ok (if hash = sampled then []
      else [.markSlotDuplicate hash, .repairDuplicateConfirmedVersion sampled]) := by
  simp only [checkEpochSlotsHashAgainstBankStatus]
  split <;> rfl

include h in
theorem Leads.compareSampled
    (hversion : knowledge.version = some version) (hslot : 0 < slot)
    (hunconf : version.isDuplicateConfirmed = false) :
    Leads root slot (if version.hash = hash then []
      else [.markSlotDuplicate version.hash, .repairDuplicateConfirmedVersion hash]) verifier
      (knowledge.compareSampled slot version hash) := by
  unfold Knowledge.compareSampled
  split
  · exact Leads.nil h
  · exact (Leads.markDuplicate h hversion hslot hunconf).append fun _ h => Leads.repair h

theorem Leads.applyUpdate {update : SlotStateUpdate Hash}
    (changes : List (ResultingStateChange Hash)) {next : Knowledge Hash}
    (hchanges : update.intoStateChanges slot = .ok changes)
    (h : Leads root slot changes verifier next) :
    ∃ verifier', verifier.applyUpdate slot update = .ok verifier' ∧
      Shows root slot verifier' next := by
  obtain ⟨verifier', pending, hrun, hnext⟩ := h none
  simp only [Verifier.applyUpdate, hchanges, Verifier.applyStateChanges]
  cases pending with
  | none => exact ⟨verifier', by simp only [ok_bind, hrun], hnext⟩
  | some frozenHash =>
    refine ⟨{ verifier' with
        bankHashes := insertBankHash verifier'.bankHashes slot frozenHash false }, ?_,
      hnext.validity, hnext.duplicate, hnext.confirmed, hnext.epochSlots, hnext.repair,
      hnext.version⟩
    simp only [ok_bind, hrun]

theorem newFromHash_of_ne (h : hash ≠ default) :
    BankStatus.new false (some hash) = .frozen hash := by
  simp [BankStatus.new, BankStatus.newFromHash, h]

/-! ### Reports about a frozen bank -/

section Frozen

variable (h : Shows root slot verifier knowledge) (hversion : knowledge.version = some version)
  (hroot : rootSlot < slot) (hhash : version.hash ≠ default)

include h hversion hroot hhash

theorem report_frozen_duplicate (hfresh : knowledge.Fresh .duplicate) :
    ∃ verifier', verifier.report slot rootSlot (some version.hash) .duplicate = .ok verifier' ∧
      Shows root slot verifier' (knowledge.hear slot .duplicate) := by
  have htrack : verifier.duplicateSlotsTracker.containsKey slot = false := h.duplicate.trans hfresh
  have hnone := h.getDuplicateConfirmedHash_eq_none hversion
  simp only [report, checkSlotAgreesWithCluster, if_neg hroot.not_ge, htrack,
    Bool.false_eq_true, if_false]
  obtain ⟨duplicate, confirmed, epochSlots, repair, _⟩ := knowledge
  cases hversion
  simp only [Knowledge.hear]
  split
  next hsome =>
    obtain ⟨hash, heq⟩ := h.getDuplicateConfirmedHash_eq_some rfl hsome
    apply Leads.applyUpdate [] _ (Leads.nil h.insertDuplicate)
    simp [onDuplicate, newFromHash_of_ne hhash, heq]
  next hsome =>
    rw [Bool.not_eq_true] at hsome
    apply Leads.applyUpdate [.markSlotDuplicate version.hash]
    · simp [onDuplicate, newFromHash_of_ne hhash, hnone.mpr hsome]
    · exact Leads.markDuplicate h.insertDuplicate rfl (Nat.zero_lt_of_lt hroot)
        (unconfirmed_of_someConfirmed hsome)

theorem report_frozen_epochSlotsFrozen {hash : Hash}
    (hfresh : knowledge.Fresh (.epochSlotsFrozen hash)) :
    ∃ verifier',
      verifier.report slot rootSlot (some version.hash) (.epochSlotsFrozen hash) = .ok verifier' ∧
      Shows root slot verifier' (knowledge.hear slot (.epochSlotsFrozen hash)) := by
  have hold : (verifier.epochSlotsFrozenSlots.insert slot hash).1 = none := by
    rw [insert_fst]
    exact h.epochSlots.trans hfresh
  have hnone := h.getDuplicateConfirmedHash_eq_none hversion
  simp only [report, checkSlotAgreesWithCluster, if_neg hroot.not_ge,
    newEpochSlotsFrozenState, hold, reduceCtorEq, if_false]
  obtain ⟨duplicate, confirmed, epochSlots, repair, _⟩ := knowledge
  cases hversion
  simp only [Knowledge.hear]
  split
  next hsome =>
    obtain ⟨other, heq⟩ := h.getDuplicateConfirmedHash_eq_some rfl hsome
    apply Leads.applyUpdate [] _ (Leads.nil h.insertEpochSlots)
    simp [newFromHash_of_ne hhash, heq]
  next hsome =>
    rw [Bool.not_eq_true] at hsome
    apply Leads.applyUpdate _ _ (Leads.compareSampled h.insertEpochSlots rfl
      (Nat.zero_lt_of_lt hroot) (unconfirmed_of_someConfirmed hsome))
    simp [newFromHash_of_ne hhash, hnone.mpr hsome, checkEpochSlotsHash_frozen]

theorem report_frozen_duplicateConfirmed {hash : Hash}
    (hfresh : knowledge.Fresh (.duplicateConfirmed hash)) :
    ∃ verifier',
      verifier.report slot rootSlot (some version.hash) (.duplicateConfirmed hash) = .ok verifier' ∧
      Shows root slot verifier' (knowledge.hear slot (.duplicateConfirmed hash)) := by
  have hprev : (verifier.duplicateConfirmedSlots.insert slot hash).1 = none := by
    rw [insert_fst]
    exact h.confirmed.trans hfresh
  obtain ⟨info, hinfo, hflag, _⟩ := h.version version hversion
  simp only [report, processDuplicateConfirmed, if_neg hroot.not_ge, hprev,
    checkSlotAgreesWithCluster, newFromHash_of_ne hhash, BankStatus.bankHash,
    any_some, isDuplicateConfirmed, hinfo, map_some, hflag, some.injEq,
    decide_eq_true_eq]
  obtain ⟨duplicate, confirmed, epochSlots, repair, _⟩ := knowledge
  cases hversion
  simp only [Knowledge.hear]
  split
  · exact ⟨_, rfl, h.insertConfirmed⟩
  next hunconf =>
    rw [Bool.not_eq_true] at hunconf
    apply Leads.applyUpdate _ _ (Leads.compareConfirmed h.insertConfirmed rfl
      (Nat.zero_lt_of_lt hroot) hunconf)
    simp [onDuplicateConfirmed, BankStatus.isDead]

theorem report_frozen (hfresh : knowledge.Fresh report) :
    ∃ verifier', verifier.report slot rootSlot (some version.hash) report = .ok verifier' ∧
      Shows root slot verifier' (knowledge.hear slot report) := by
  cases report with
  | duplicate => exact report_frozen_duplicate h hversion hroot hhash hfresh
  | duplicateConfirmed hash => exact report_frozen_duplicateConfirmed h hversion hroot hhash hfresh
  | epochSlotsFrozen hash => exact report_frozen_epochSlotsFrozen h hversion hroot hhash hfresh

theorem announceBank_shows :
    ∃ verifier', verifier.announceBank slot rootSlot version.hash = .ok verifier' ∧
      Shows root slot verifier' (knowledge.announce slot) := by
  have hslot : 0 < slot := Nat.zero_lt_of_lt hroot
  obtain ⟨info, hinfo, hflag, _⟩ := h.version version hversion
  have hself := Leads.bankFrozen h hversion
  simp only [announceBank, newBankFrozenState, if_neg hhash,
    ok_bind, checkSlotAgreesWithCluster, if_neg hroot.not_ge,
    getClusterConfirmedHash, getDuplicateConfirmedHash, isDuplicateConfirmed, hinfo,
    map_some, getD_some, hflag, h.confirmed, h.epochSlots, h.duplicate]
  obtain ⟨duplicate, confirmed, epochSlots, repair, _⟩ := knowledge
  cases hversion
  simp only [Knowledge.announce]
  cases hconf : version.isDuplicateConfirmed with
  | true =>
    apply Leads.applyUpdate _ _ (hself.append fun _ h => Leads.markConfirmed h rfl hslot)
    simp [checkDuplicateConfirmedHashAgainstBankStatus]
  | false =>
    simp only [Bool.false_eq_true, if_false]
    cases confirmed with
    | some hash =>
      apply Leads.applyUpdate _ _
        (hself.append fun _ h => Leads.compareConfirmed h rfl hslot hconf)
      simp
    | none =>
      cases epochSlots with
      | some hash =>
        apply Leads.applyUpdate _ _
          (hself.append fun _ h => Leads.compareSampled h rfl hslot hconf)
        simp [checkEpochSlotsHash_frozen, Except.map]
      | none =>
        cases duplicate with
        | true =>
          apply Leads.applyUpdate _ _
            (hself.append fun _ h => Leads.markDuplicate h rfl hslot hconf)
          simp
        | false =>
          apply Leads.applyUpdate _ _ hself
          simp

end Frozen

/-! ### Reports about a bank which is not frozen -/

include h in
theorem report_unfrozen
    (hversion : knowledge.version = none) (hroot : rootSlot < slot)
    (hfresh : knowledge.Fresh report) :
    ∃ verifier', verifier.report slot rootSlot none report = .ok verifier' ∧
      Shows root slot verifier' (knowledge.hear slot report) ∧
      verifier'.forkChoice = verifier.forkChoice := by
  obtain ⟨duplicate, confirmed, epochSlots, repair, _⟩ := knowledge
  cases hversion
  cases report with
  | duplicate =>
    have htrack : verifier.duplicateSlotsTracker.containsKey slot = false :=
      h.duplicate.trans hfresh
    refine ⟨_, ?_, h.insertDuplicate, rfl⟩
    simp only [report, checkSlotAgreesWithCluster, if_neg hroot.not_ge, htrack]
    rfl
  | duplicateConfirmed hash =>
    have hprev : (verifier.duplicateConfirmedSlots.insert slot hash).1 = none := by
      rw [insert_fst]
      exact h.confirmed.trans hfresh
    refine ⟨_, ?_, h.insertConfirmed, rfl⟩
    simp only [report, processDuplicateConfirmed, if_neg hroot.not_ge, hprev,
      checkSlotAgreesWithCluster]
    rfl
  | epochSlotsFrozen hash =>
    have hold : (verifier.epochSlotsFrozenSlots.insert slot hash).1 = none := by
      rw [insert_fst]
      exact h.epochSlots.trans hfresh
    refine ⟨_, ?_, h.insertEpochSlots, rfl⟩
    simp only [report, checkSlotAgreesWithCluster, if_neg hroot.not_ge,
      newEpochSlotsFrozenState, hold]
    rfl

/-! ### Whole deliveries -/

omit [Inhabited Hash] in
include h in
theorem freezeBank_shows {parent : SlotHashKey Hash} {parentInfo : ForkInfo Hash}
    (hfresh : verifier.forkChoice.forkInfos.get? ⟨slot, hash⟩ = none)
    (hpar : verifier.forkChoice.forkInfos.get? parent = some parentInfo)
    (hslot : parent.slot < slot) :
    ∃ verifier', verifier.freezeBank slot hash parent = .ok verifier' ∧
      Shows root slot verifier' (knowledge.freeze hash parentInfo.latestInvalidAncestor) := by
  obtain ⟨F', hrun, hsame⟩ :=
    addNewLeafSlot_ok h.validity.tree hfresh hpar hslot
  have hvalidity := (h.validity.withLeaf hfresh hpar hslot).of_sameStanding hsame
  refine ⟨{ verifier with forkChoice := { verifier.forkChoice with forkInfos := F' } }, ?_,
    hvalidity, h.duplicate, h.confirmed, h.epochSlots, h.repair, ?_⟩
  · simp only [freezeBank, HeaviestSubtreeForkChoice.addNewLeafSlot, hrun]
    rfl
  · intro version hversion
    cases hversion
    have hne : (⟨slot, hash⟩ : SlotHashKey Hash) ≠ parent := by
      intro heq
      simp [← heq, hfresh] at hpar
    have hleaf : (withLeaf verifier.forkChoice.forkInfos ⟨slot, hash⟩ parent
        parentInfo).get? ⟨slot, hash⟩ =
        some (verifier.forkChoice.forkInfos.newLeaf ⟨slot, hash⟩ (some parent)) := by
      rw [get?_withLeaf, if_neg hne, if_pos rfl]
    obtain ⟨info, hinfo, hlatest, hflag⟩ := hsame.symm.back hleaf
    obtain ⟨_, hunconf, hinherited⟩ | ⟨hother, _⟩ :=
      withLeaf_standing hfresh hpar hleaf
    · exact ⟨info, hinfo, hflag.trans hunconf, hlatest.trans hinherited⟩
    · exact absurd rfl hother

variable {reports : List (Report Hash)}

include h in
theorem foldlM_report_unfrozen (hversion : knowledge.version = none)
    (hroot : rootSlot < slot) (hears : knowledge.Hears slot reports) :
    ∃ verifier', reports.foldlM (Verifier.report slot rootSlot none) verifier = .ok verifier' ∧
      Shows root slot verifier' (reports.foldl (Knowledge.hear slot) knowledge) ∧
      verifier'.forkChoice = verifier.forkChoice := by
  induction reports generalizing verifier knowledge with
  | nil => exact ⟨verifier, rfl, h, rfl⟩
  | cons report reports ih =>
    obtain ⟨verifier₁, hrun, hnext, hchoice⟩ := report_unfrozen h hversion hroot hears.1
    obtain ⟨verifier₂, hrest, hlast, hchoice'⟩ :=
      ih hnext (Knowledge.hear_of_unfrozen hversion).1 hears.2
    refine ⟨verifier₂, ?_, hlast, hchoice'.trans hchoice⟩
    rw [foldlM_cons, hrun]
    exact hrest

include h in
theorem foldlM_report_frozen
    (hversion : knowledge.version.map Local.hash = some hash) (hroot : rootSlot < slot)
    (hhash : hash ≠ default) (hears : knowledge.Hears slot reports) :
    ∃ verifier', reports.foldlM (Verifier.report slot rootSlot (some hash)) verifier = .ok verifier' ∧
      Shows root slot verifier' (reports.foldl (Knowledge.hear slot) knowledge) ∧
      (reports.foldl (Knowledge.hear slot) knowledge).version.map Local.hash = some hash := by
  induction reports generalizing verifier knowledge with
  | nil => exact ⟨verifier, rfl, h, hversion⟩
  | cons report reports ih =>
    obtain ⟨version, hthere, rfl⟩ := map_eq_some_iff.mp hversion
    obtain ⟨verifier₁, hrun, hnext⟩ := report_frozen h hthere hroot hhash hears.1
    obtain ⟨verifier₂, hrest, hlast⟩ :=
      ih hnext (Knowledge.hash_hear.trans hversion) hears.2
    refine ⟨verifier₂, ?_, hlast⟩
    rw [foldlM_cons, hrun]
    exact hrest

end Refinement

/-! ## Deliveries in every order -/

namespace Verifier

structure Unheard (verifier : Verifier Hash) (slot : ℕ) : Prop where
  duplicate : verifier.duplicateSlotsTracker.get? slot = none
  confirmed : verifier.duplicateConfirmedSlots.get? slot = none
  epochSlots : verifier.epochSlotsFrozenSlots.get? slot = none

variable [Inhabited Hash]

/-- Every order of the same signals ends with the same verdict on the block and the same repair
entry. -/
theorem deliver_verdict {verifier : Verifier Hash} {treeRoot parent : SlotHashKey Hash}
    {parentInfo : ForkInfo Hash} {slot root : ℕ} {hash : Hash} {arrived : Reports Hash}
    {before between after : List (Report Hash)}
    (hvalidity : Validity verifier.forkChoice.forkInfos treeRoot) (hunheard : verifier.Unheard slot)
    (hroot : root < slot) (hhash : hash ≠ default)
    (hfresh : verifier.forkChoice.forkInfos.get? ⟨slot, hash⟩ = none)
    (hparent : verifier.forkChoice.forkInfos.get? parent = some parentInfo)
    (hslot : parent.slot < slot) (horder : (before ++ between ++ after).Perm arrived.all)
    (htold : Knowledge.Told arrived hash before between) :
    ∃ verifier' info, verifier.deliver slot root hash parent before between after = .ok verifier' ∧
      verifier'.forkChoice.forkInfos.get? ⟨slot, hash⟩ = some info ∧
      ((⟨hash, info.isDuplicateConfirmed, info.latestInvalidAncestor⟩ : Local Hash),
        verifier'.duplicateSlotsToRepair.get? slot) =
        arrived.verdict slot hash parentInfo.latestInvalidAncestor
          (verifier.duplicateSlotsToRepair.get? slot) ∧
      (arrived.duplicate = true → arrived.confirmed = none → info.isCandidate = false) := by
  obtain ⟨hears₁, hears₂, hears₃, hversion, hrepair⟩ :=
    Knowledge.run_initial slot parentInfo.latestInvalidAncestor
      (verifier.duplicateSlotsToRepair.get? slot) horder htold
  have hinitial : Shows treeRoot slot verifier
      (Knowledge.initial (verifier.duplicateSlotsToRepair.get? slot)) :=
    ⟨hvalidity, by simp [containsKey, hunheard.duplicate, Knowledge.initial],
      hunheard.confirmed, hunheard.epochSlots, rfl, nofun⟩
  obtain ⟨verifier₁, hrun₁, hshows₁, hchoice⟩ :=
    foldlM_report_unfrozen hinitial rfl hroot hears₁
  rw [← hchoice] at hfresh hparent
  obtain ⟨verifier₂, hrun₂, hshows₂⟩ := freezeBank_shows hshows₁ hfresh hparent hslot
  obtain ⟨verifier₃, hrun₃, hshows₃, hhash₃⟩ :=
    foldlM_report_frozen hshows₂ rfl hroot hhash hears₂
  obtain ⟨version₃, hversion₃, hhash₃'⟩ := map_eq_some_iff.mp hhash₃
  obtain ⟨verifier₄, hrun₄, hshows₄⟩ :=
    announceBank_shows hshows₃ hversion₃ hroot (hhash₃' ▸ hhash)
  rw [hhash₃'] at hrun₄
  obtain ⟨verifier₅, hrun₅, hshows₅, _⟩ :=
    foldlM_report_frozen hshows₄ (Knowledge.hash_announce.trans hhash₃) hroot hhash hears₃
  obtain ⟨info, hinfo, hflag, hlatest⟩ := hshows₅.version _ hversion
  rw [Reports.verdict_hash] at hinfo
  refine ⟨verifier₅, info, ?_, hinfo, ?_, ?_⟩
  · simp only [deliver, hrun₁, hrun₂, hrun₃, hrun₄, ok_bind]
    exact hrun₅
  · rw [hflag, hlatest, hshows₅.repair]
    exact Prod.ext (Local.ext (Reports.verdict_hash _ _ _ _ _).symm rfl rfl) hrepair
  · intro hduplicate hnone
    rw [ForkInfo.isCandidate, hlatest]
    simp only [Reports.verdict, hnone, hduplicate, if_true]
    split
    · contradiction
    · split <;> rfl
    · rfl

def candidateAfter (slot : ℕ) (hash : Hash) (run : Except Panic (Verifier Hash)) :
    Option Bool :=
  run.toOption.bind fun verifier =>
    (verifier.forkChoice.forkInfos.get? ⟨slot, hash⟩).map (·.isCandidate)

def fromZero : Verifier ℕ where
  duplicateSlotsTracker := BTreeMap.empty
  duplicateConfirmedSlots := BTreeMap.empty
  epochSlotsFrozenSlots := BTreeMap.empty
  duplicateSlotsToRepair := BTreeMap.empty
  purgeRepairSlotCounter := BTreeMap.empty
  forkChoice :=
    { forkInfos := (BTreeMap.empty.insert ⟨0, 1⟩ (ForkInfos.newLeaf BTreeMap.empty ⟨0, 1⟩ none)).2
      treeRoot := ⟨0, 1⟩ }
  bankHashes := BTreeMap.empty
  replayUpdates := []

theorem fromZero_validity : Validity fromZero.forkChoice.forkInfos ⟨0, 1⟩ := by
  have hnew : HeaviestSubtreeForkChoice.new ⟨0, 1⟩ = .ok fromZero.forkChoice := rfl
  exact (candidacy_new hnew).validity

theorem fromZero_unheard : fromZero.Unheard 1 := ⟨rfl, rfl, rfl⟩

/-- Reported as duplicate and sampled with its own hash, the block of slot 1 stays a candidate when
both reports come before the bank is frozen, and is no candidate when they come afterwards. -/
theorem early_sample_hides_duplicate :
    Validity fromZero.forkChoice.forkInfos ⟨0, 1⟩ ∧ fromZero.Unheard 1 ∧
      candidateAfter 1 1
        (fromZero.deliver 1 0 1 ⟨0, 1⟩ [.duplicate, .epochSlotsFrozen 1] [] []) = some true ∧
      candidateAfter 1 1
        (fromZero.deliver 1 0 1 ⟨0, 1⟩ [] [] [.duplicate, .epochSlotsFrozen 1]) = some false :=
  ⟨fromZero_validity, fromZero_unheard, by decide +kernel, by decide +kernel⟩

theorem deliver_verdict_late : ∃ verifier' info,
    fromZero.deliver 1 0 1 ⟨0, 1⟩ [.epochSlotsFrozen 1] [.duplicate] [] = .ok verifier' ∧
      verifier'.forkChoice.forkInfos.get? ⟨1, 1⟩ = some info ∧ info.isCandidate = false := by
  have horder : ([.epochSlotsFrozen 1] ++ [.duplicate] ++ [] : List (Report ℕ)).Perm
      (⟨true, none, some 1⟩ : Reports ℕ).all := List.Perm.swap _ _ _
  obtain ⟨verifier', info, hrun, hinfo, _, hcandidate⟩ :=
    deliver_verdict fromZero_validity fromZero_unheard (by decide : 0 < 1)
      (by decide : (1 : ℕ) ≠ default) rfl rfl (by decide : (⟨0, 1⟩ : SlotHashKey ℕ).slot < 1) horder
      (by simp [Knowledge.Told])
  exact ⟨verifier', info, hrun, hinfo, hcandidate rfl rfl⟩

end Verifier

end RakuraiValidator.SlotState
