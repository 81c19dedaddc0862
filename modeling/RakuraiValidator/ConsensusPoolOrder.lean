import RakuraiValidator.ConsensusPool
import RakuraiValidator.ParentReadyExactness

/-!
# The order of certificates

What a pool has after it was fed with certificates is described by the set of their
types: the certified blocks and the skipped slots of the tracker, and through these
the ready parents and their events, the finalized blocks and the highest finalized
slot.  Each insertion keeps this description, so no order of the certificates
matters.
-/

namespace RakuraiValidator.Votor

open ParentReadyTracker BTreeMap List

/-! ## What the tracker records of a certificate -/

/-- The block which the tracker records of a certificate.  Only a genesis block is
recorded at or below the root. -/
def CertificateType.recorded (root : ℕ) : CertificateType → Option Block
  | .notarize block => if block.slot ≤ root then none else some block
  | .notarizeFallback block => if block.slot ≤ root then none else some block
  | .finalizeFast block => if block.slot ≤ root then none else some block
  | .genesis block => some block
  | .skip _ => none
  | .finalize _ => none

attribute [local simp] CertificateType.recorded

def recordedBlocks (root : ℕ) (types : List CertificateType) : List Block :=
  types.filterMap (CertificateType.recorded root)

attribute [local simp] recordedBlocks

structure Tracked (start : ParentReadyTracker) (types : List CertificateType)
    (t : ParentReadyTracker) (events : List VotorEvent) : Prop where
  invariant : TrackerInvariant t
  root : t.root = start.root
  notarFallbacks : ∀ s b, b ∈ (t.status s).notarFallbacks ↔
    b ∈ (start.status s).notarFallbacks ∨ (s = b.slot ∧ b ∈ recordedBlocks start.root types)
  nodup : ∀ s, (t.status s).notarFallbacks.Nodup
  skip : ∀ s, (t.status s).skip = true ↔
    (start.status s).skip = true ∨ (start.root < s ∧ .skip s ∈ types)
  root_le : ∀ s, ∀ b ∈ (t.status s).parentsReady, start.root ≤ b.slot
  grown : ∀ s, ∀ b ∈ (start.status s).parentsReady, b ∈ (t.status s).parentsReady
  emitted : ∀ s b, .parentReady s b ∈ events ↔ s % numConsecutiveLeaderSlots = 0 ∧
    b ∈ (t.status s).parentsReady ∧ b ∉ (start.status s).parentsReady

variable {t t' : ParentReadyTracker} {types types' : List CertificateType}
  {events events' : List VotorEvent}

namespace Tracked

variable {start : ParentReadyTracker}

variable (h : Tracked start types t events)

include h

variable (hblocks : ∀ b, b ∈ recordedBlocks start.root types' ↔ b ∈ recordedBlocks start.root types)

include hblocks in
theorem unchanged (hskips : ∀ s, start.root < s → (.skip s ∈ types' ↔ .skip s ∈ types))
    (hevents : ∀ s b, .parentReady s b ∈ events' ↔ .parentReady s b ∈ events) :
    Tracked start types' t events' :=
  { h with
    notarFallbacks := fun s b => by rw [h.notarFallbacks, hblocks]
    skip := fun s => by
      rw [h.skip]
      constructor
      · exact fun hskip => hskip.imp_right (fun hnew => ⟨hnew.1, (hskips s hnew.1).mpr hnew.2⟩)
      · exact fun hskip => hskip.imp_right (fun hnew => ⟨hnew.1, (hskips s hnew.1).mp hnew.2⟩)
    emitted := fun s b => by rw [hevents, h.emitted] }

theorem propagated {pairs : ℕ → Block → Prop}
    (hprop : Propagates pairs (t, events) (t', events')) (s : ℕ) (b : Block) :
    .parentReady s b ∈ events' ↔ s % numConsecutiveLeaderSlots = 0 ∧
      b ∈ (t'.status s).parentsReady ∧ b ∉ (start.status s).parentsReady := by
  have hgrown := h.grown s b
  rw [hprop.mem_events, h.emitted, hprop.ready]
  simp only
  grind

theorem addBlock {block : Block} (hroot : start.root ≤ block.slot)
    (hblocks : ∀ b, b ∈ recordedBlocks start.root types' ↔ b ∈ recordedBlocks start.root types ∨
      b = block)
    (hskips : ∀ s, .skip s ∈ types' ↔ .skip s ∈ types)
    (hadd : t.addNotarFallbackOrStronger block events = .ok (t', events')) :
    Tracked start types' t' events' := by
  rcases addNotarFallbackOrStronger_spec hadd with ⟨heq, hknown⟩ | ⟨hnew, hlist, last, hadded⟩
  · -- the block is one of the start or was recorded before
    cases heq
    have hunchanged : ∀ s b, b ∈ (t.status s).notarFallbacks ↔
        b ∈ (start.status s).notarFallbacks ∨
          (s = b.slot ∧ b ∈ recordedBlocks start.root types') := by
      intro s b
      rw [h.notarFallbacks, hblocks]
      constructor
      · exact Or.imp_right (fun hb => ⟨hb.1, .inl hb.2⟩)
      · rintro (hstart | ⟨hs, hold | hb⟩)
        · exact .inl hstart
        · exact .inr ⟨hs, hold⟩
        · rw [hb] at hs ⊢
          rw [hs]
          exact (h.notarFallbacks block.slot block).mp hknown
    exact ⟨h.invariant, h.root, hunchanged, h.nodup, fun s => by rw [h.skip, hskips],
      h.root_le, h.grown, h.emitted⟩
  · constructor
    · exact h.invariant.notarFallbackPropagated hadded
    · exact hadded.propagates.root.trans h.root
    · intro s b
      rw [hadded.notarFallbacks, h.notarFallbacks, hblocks, or_assoc]
      have hslot : (s = block.slot ∧ b = block) ↔ (s = b.slot ∧ b = block) := by
        constructor
        · rintro ⟨hs, hb⟩
          exact ⟨hb ▸ hs, hb⟩
        · rintro ⟨hs, hb⟩
          exact ⟨hb ▸ hs, hb⟩
      rw [hslot, ← and_or_left]
    · intro s
      rw [hlist]
      simp only [recordNotarFallback, status_setStatus]
      by_cases hs : s = block.slot
      · rw [if_pos hs]
        exact nodup_append'.mpr ⟨h.nodup _, nodup_singleton _, by simpa using hnew⟩
      · rw [if_neg hs]
        exact h.nodup s
    · intro s
      rw [hadded.skip, h.skip, hskips]
    · intro s b hb
      rcases (hadded.propagates.ready s b).mp hb with hold | ⟨_, heq⟩
      · exact h.root_le s b hold
      · rw [heq]
        exact hroot
    · intro s b hb
      exact (hadded.propagates.ready s b).mpr (.inl (h.grown s b hb))
    · exact h.propagated hadded.propagates

include hblocks in
theorem addSkip {slot : ℕ} (hskips : ∀ s, .skip s ∈ types' ↔ .skip s ∈ types ∨ s = slot)
    (hcertified : ∀ s, ∀ b ∈ (t.status s).notarFallbacks, start.root ≤ b.slot)
    (hadd : t.addNewSkip slot events = .ok (t', events')) : Tracked start types' t' events' := by
  by_cases hroot : slot ≤ t.root
  · -- the tracker ignores the skip
    rw [addNewSkip, if_pos hroot] at hadd
    cases hadd
    apply h.unchanged hblocks _ (fun _ _ => .rfl)
    intro s hs
    rw [hskips, or_iff_left]
    rw [← h.root] at hs
    omega
  · have hlt : start.root < slot := by
      rw [← h.root]
      exact not_le.mp hroot
    rcases addNewSkip_added hroot hadd with ⟨last, parents, hadded⟩
    constructor
    · exact h.invariant.skipAdded hadded
    · exact hadded.propagates.root.trans h.root
    · intro s b
      rw [hadded.notarFallbacks, h.notarFallbacks, hblocks]
    · intro s
      rw [hadded.notarFallbacks]
      exact h.nodup s
    · intro s
      rw [hadded.skip, h.skip, hskips, or_assoc]
      have hslot : s = slot → start.root < s := fun hs => hs ▸ hlt
      grind
    · intro s b hb
      rcases (hadded.propagates.ready s b).mp hb with hold | ⟨_, hpar⟩
      · exact h.root_le s b hold
      · rcases (hadded.mem_parents b).mp hpar with hnotar | ⟨_, hready⟩
        · exact hcertified _ b hnotar
        · exact h.root_le _ b hready
    · intro s b hb
      exact (hadded.propagates.ready s b).mpr (.inl (h.grown s b hb))
    · exact h.propagated hadded.propagates

end Tracked

/-! ## One certificate in the tracker -/

variable {all : List CertificateType} {type : CertificateType} {block : Block}

section Tracker

variable {start : ParentReadyTracker} {root : ℕ} {b : Block} (slot : ℕ)

theorem mem_recordedBlocks_append :
    b ∈ recordedBlocks root (types ++ [type]) ↔
      b ∈ recordedBlocks root types ∨ type.recorded root = some b := by
  simp [filterMap_append]

theorem recordedBlocks_mono (h : types ⊆ all) :
    recordedBlocks root types ⊆ recordedBlocks root all := by
  intro b hb
  rcases mem_filterMap.mp hb with ⟨type, htype, hrec⟩
  exact mem_filterMap.mpr ⟨type, h htype, hrec⟩

theorem recorded_slot (h : type.recorded root = some b) : type.slot = b.slot := by
  cases type <;> simp at h <;> simp [CertificateType.slot, h]

/-- The slots have room for the recorded blocks beside those of the start. -/
def WithinLimit (start : ParentReadyTracker) (types : List CertificateType) : Prop :=
  ∀ s, (((start.status s).notarFallbacks ++ recordedBlocks start.root types).toFinset.filter
    (fun b => b.slot = s)).card ≤ maxNotarFallbackBlocks

variable (h : Tracked start types t events)

include h

section

variable (hlimit : WithinLimit start all)

include hlimit

theorem Tracked.accepted (hsub : types ⊆ all) (htype : block ∈ recordedBlocks start.root all)
    (hnew : block ∉ (t.status block.slot).notarFallbacks) :
    (t.status block.slot).notarFallbacks.length < maxNotarFallbackBlocks := by
  have hnodup : (block :: (t.status block.slot).notarFallbacks).Nodup :=
    nodup_cons.mpr ⟨hnew, h.nodup block.slot⟩
  have hcard := hlimit block.slot
  have hle : (block :: (t.status block.slot).notarFallbacks).toFinset.card ≤
      maxNotarFallbackBlocks := by
    apply le_trans (Finset.card_le_card _) hcard
    intro b hb
    rw [mem_toFinset, mem_cons] at hb
    rw [Finset.mem_filter, mem_toFinset, mem_append]
    rcases hb with hb | hb
    · rw [hb]
      exact ⟨.inr htype, rfl⟩
    · have hslot := h.invariant.notarFallbacks_slot _ b hb
      rcases (h.notarFallbacks _ b).mp hb with hstart | ⟨_, hrec⟩
      · exact ⟨.inl hstart, hslot⟩
      · exact ⟨.inr (recordedBlocks_mono hsub hrec), hslot⟩
  rw [toFinset_card_of_nodup hnodup] at hle
  exact hle

theorem Tracked.addStronger (hsub : types ++ [type] ⊆ all) (hroot : start.root ≤ block.slot)
    (htype : type.recorded start.root = some block) (hskip : ∀ s, type ≠ .skip s) :
    ∃ t' events', t.addNotarFallbackOrStronger block events = .ok (t', events') ∧
      Tracked start (types ++ [type]) t' events' ∧ SameOtherEvents events events' := by
  have hblocks : ∀ b, b ∈ recordedBlocks start.root (types ++ [type]) ↔
      b ∈ recordedBlocks start.root types ∨ b = block := by
    intro b
    rw [mem_recordedBlocks_append, htype]
    simp [eq_comm]
  have hmem : block ∈ recordedBlocks start.root all :=
    recordedBlocks_mono hsub ((hblocks block).mpr (.inr rfl))
  have hok : ∃ result, t.addNotarFallbackOrStronger block events = .ok result :=
    addNotarFallbackOrStronger_ok (h.accepted hlimit
      (fun _ hmem => hsub (mem_append_left _ hmem)) hmem)
  rcases hok with ⟨⟨t', events'⟩, hadd⟩
  exact ⟨t', events', hadd, h.addBlock hroot hblocks (fun s => by simp [Ne.symm (hskip s)]) hadd,
    addNotarFallbackOrStronger_otherEvents hadd⟩

theorem Tracked.addNew (hsub : types ++ [type] ⊆ all) (block : Block)
    (htype : type.recorded start.root = if block.slot ≤ start.root then none else some block)
    (hskip : ∀ s, type ≠ .skip s) :
    ∃ t' events', t.addNewNotarFallbackOrStronger block events = .ok (t', events') ∧
      Tracked start (types ++ [type]) t' events' ∧ SameOtherEvents events events' := by
  unfold addNewNotarFallbackOrStronger
  rw [h.root]
  by_cases hroot : block.slot ≤ start.root
  · rw [if_pos hroot] at htype ⊢
    refine ⟨t, events, rfl, ?_, SameOtherEvents.refl⟩
    apply h.unchanged _ (fun s _ => by simp [Ne.symm (hskip s)]) (fun _ _ => .rfl)
    intro b
    rw [mem_recordedBlocks_append, htype]
    simp
  · rw [if_neg hroot] at htype ⊢
    exact h.addStronger hlimit hsub (not_le.mp hroot).le htype hskip

end

theorem Tracked.addNewSkip
    (hstart : ∀ s, ∀ b ∈ (start.status s).notarFallbacks, start.root ≤ b.slot)
    (htypes : ∀ type ∈ types, start.root ≤ type.slot) :
    ∃ t' events', t.addNewSkip slot events = .ok (t', events') ∧
      Tracked start (types ++ [.skip slot]) t' events' ∧ SameOtherEvents events events' := by
  rcases addNewSkip_ok t slot events with ⟨⟨t', events'⟩, hadd⟩
  refine ⟨t', events', hadd, ?_, addNewSkip_otherEvents hadd⟩
  apply h.addSkip _ _ _ hadd
  · intro b
    rw [mem_recordedBlocks_append]
    simp
  · intro s
    simp
  · intro s b hb
    rcases (h.notarFallbacks s b).mp hb with hb | ⟨_, hb⟩
    · exact hstart s b hb
    · rcases mem_filterMap.mp hb with ⟨type, htype, hrec⟩
      rw [← recorded_slot hrec]
      exact htypes type htype

theorem Tracked.finalize : Tracked start (types ++ [.finalize slot]) t events := by
  apply h.unchanged _ _ (fun _ _ => .rfl)
  · intro b
    rw [mem_recordedBlocks_append]
    simp
  · intro s _
    simp

end Tracker

/-! ## Finalization -/

def Finalizes (types : List CertificateType) (block : Block) : Prop :=
  .finalizeFast block ∈ types ∨ (.notarize block ∈ types ∧ .finalize block.slot ∈ types)

def FinalizesSlot (types : List CertificateType) : FinalizedSlot → Prop
  | .slow slot => .finalize slot ∈ types ∧ ∃ block, .notarize block ∈ types ∧ block.slot = slot
  | .fast slot => ∃ block, .finalizeFast block ∈ types ∧ block.slot = slot

attribute [local simp] FinalizesSlot

structure IsHighest (types : List CertificateType) (highest : Option FinalizedSlot) : Prop where
  finalizes : ∀ slot ∈ highest, FinalizesSlot types slot
  bound : ∀ slot, FinalizesSlot types slot → ∃ slot' ∈ highest, slot ≤ slot'

variable {σ : Type}

namespace IsHighest

variable {highest highest' : Option FinalizedSlot}

theorem congr (h : IsHighest types highest)
    (htypes : ∀ slot, FinalizesSlot types' slot ↔ FinalizesSlot types slot) :
    IsHighest types' highest where
  finalizes slot hslot := (htypes slot).mpr (h.finalizes slot hslot)
  bound slot hslot := h.bound slot ((htypes slot).mp hslot)

theorem unique (h : IsHighest types highest) (h' : IsHighest types highest') :
    highest = highest' := by
  cases highest with
  | none =>
    cases highest' with
    | none => rfl
    | some slot' =>
      rcases h.bound slot' (h'.finalizes slot' rfl) with ⟨_, hnone, _⟩
      cases hnone
  | some slot =>
    rcases h'.bound slot (h.finalizes slot rfl) with ⟨slot', hslot', hle⟩
    rcases h.bound slot' (h'.finalizes slot' hslot') with ⟨slot'', hslot'', hle'⟩
    cases hslot''
    rw [le_antisymm hle hle']
    exact hslot'.symm

theorem updateHighest {pool : ConsensusPool σ} {cert : ValidatedBlockFinalizationCert σ}
    (h : IsHighest types pool.highestFinalizedSlot)
    (htypes : ∀ slot, FinalizesSlot types' slot ↔ FinalizesSlot types slot ∨ slot = cert.slot) :
    ∃ highest, pool.updateHighest cert.slot (.ok cert) =
        .ok { pool with highestFinalizedSlotCert := highest } ∧
      IsHighest types' (highest.map ValidatedBlockFinalizationCert.slot) := by
  unfold ConsensusPool.updateHighest
  by_cases hhigher : ∀ highest ∈ pool.highestFinalizedSlot, highest < cert.slot
  · rw [if_pos hhigher]
    refine ⟨some cert, rfl, ?_⟩
    constructor
    · intro slot hslot
      have hslot' : cert.slot = slot := Option.some.inj hslot
      exact (htypes slot).mpr (.inr hslot'.symm)
    · intro slot hslot
      refine ⟨cert.slot, rfl, ?_⟩
      rcases (htypes slot).mp hslot with hold | hnew
      · rcases h.bound slot hold with ⟨highest, hhighest, hle⟩
        exact hle.trans (hhigher highest hhighest).le
      · exact hnew.le
  · rw [if_neg hhigher]
    refine ⟨pool.highestFinalizedSlotCert, rfl, ?_⟩
    constructor
    · intro slot hslot
      exact (htypes slot).mpr (.inl (h.finalizes slot hslot))
    · intro slot hslot
      rcases (htypes slot).mp hslot with hold | hnew
      · exact h.bound slot hold
      · simp only [not_forall, not_lt] at hhigher
        rcases hhigher with ⟨highest, hhighest, hle⟩
        exact ⟨highest, hhighest, hnew ▸ hle⟩

end IsHighest

def MigrationPhase.Accepts {σ : Type} (phase : MigrationPhase σ) (block : Block) : Prop :=
  match phase with
  | .preFeatureActivation => False
  | .migration migrationSlot genesisBlock _ =>
    block.slot < migrationSlot ∧ ∀ genesis ∈ genesisBlock, genesis = block
  | _ => True

theorem MigrationPhase.Accepts.setGenesisCertificate {σ : Type} {phase : MigrationPhase σ}
    {cert : GenesisCert σ} (h : phase.Accepts cert.block) :
    ∃ phase', phase.setGenesisCertificate cert = .ok phase' ∧
      ∀ block, phase.Accepts block → phase'.Accepts block := by
  cases phase with
  | preFeatureActivation => exact absurd h id
  | migration migrationSlot genesisBlock genesisCert =>
    rcases h with ⟨hslot, hgen⟩
    simp only [MigrationPhase.setGenesisCertificate, if_pos hslot]
    cases genesisBlock with
    | none => exact ⟨_, rfl, fun _ hacc => hacc⟩
    | some genesis =>
      dsimp only
      rw [if_pos (hgen genesis rfl)]
      exact ⟨_, rfl, fun _ _ => trivial⟩
  | readyToEnable genesisCert | alpenglowEnabled genesisCert
  | fullAlpenglowEpoch epoch genesisCert =>
    exact ⟨_, rfl, fun _ _ => trivial⟩

/-! ## One certificate in the pool -/

section Pool

variable {start pool pool' : ConsensusPool σ} {certs : List (Certificate σ)} {cert : Certificate σ}

def certTypes (certs : List (Certificate σ)) : List CertificateType :=
  certs.map Certificate.certType

attribute [local simp] certTypes

@[simp] theorem certTypes_append :
    certTypes (certs ++ [cert]) = certTypes certs ++ [cert.certType] := by
  simp

structure Ingested (start : ConsensusPool σ) (certs : List (Certificate σ))
    (pool : ConsensusPool σ) (events : List VotorEvent) : Prop where
  completed : ∀ certType, pool.completedCertificates.get? certType =
    certs.find? (fun cert => cert.certType = certType)
  tracked : Tracked start.parentReadyTracker (certTypes certs) pool.parentReadyTracker events
  highest : IsHighest (certTypes certs) pool.highestFinalizedSlot
  finalized : ∀ block, (∃ fast, .finalized block fast ∈ events) ↔ Finalizes (certTypes certs) block
  phase : ∀ block, start.migrationPhase.Accepts block → pool.migrationPhase.Accepts block

namespace Ingested

theorem containsKey_iff (h : Ingested start certs pool events) (certType : CertificateType) :
    pool.completedCertificates.containsKey certType = true ↔ certType ∈ certTypes certs := by
  rw [containsKey, h.completed, find?_isSome, certTypes, mem_map]
  simp

theorem stored (h : Ingested start certs pool events)
    (hget : pool.completedCertificates.get? type = some cert) :
    cert ∈ certs ∧ cert.certType = type := by
  rw [h.completed] at hget
  exact ⟨mem_of_find?_eq_some hget, by simpa using find?_some hget⟩

theorem completed_insert (h : Ingested start certs pool events)
    (hnew : cert.certType ∉ certTypes certs) (certType : CertificateType) :
    (pool.completedCertificates.insert cert.certType cert).2.get? certType =
      (certs ++ [cert]).find? (fun cert => cert.certType = certType) := by
  rw [get?_insert, h.completed, find?_append]
  by_cases htype : certType = cert.certType
  · have hnone : certs.find? (fun cert => cert.certType = certType) = none := by
      rw [find?_eq_none]
      intro other hother hsame
      apply hnew
      rw [← htype, ← of_decide_eq_true hsame]
      exact mem_map_of_mem hother
    rw [if_pos htype, hnone]
    simp [htype]
  · rw [if_neg htype]
    simp [Ne.symm htype]

end Ingested

theorem exists_finalized_congr (h : SameOtherEvents events events') (block : Block) :
    (∃ fast, .finalized block fast ∈ events') ↔ ∃ fast, .finalized block fast ∈ events := by
  constructor
  · rintro ⟨fast, hmem⟩
    exact ⟨fast, (h _ (by simp)).mp hmem⟩
  · rintro ⟨fast, hmem⟩
    exact ⟨fast, (h _ (by simp)).mpr hmem⟩

theorem exists_finalized_append (block other : Block) (fast : Bool) :
    (∃ fast', .finalized other fast' ∈ events ++ [.finalized block fast]) ↔
      (∃ fast', .finalized other fast' ∈ events) ∨ other = block := by
  simp only [mem_append, mem_singleton, VotorEvent.finalized.injEq]
  constructor
  · rintro ⟨fast', hold | ⟨hblock, _⟩⟩
    · exact .inl ⟨fast', hold⟩
    · exact .inr hblock
  · rintro (⟨fast', hold⟩ | hblock)
    · exact ⟨fast', .inl hold⟩
    · exact ⟨fast, .inr ⟨hblock, rfl⟩⟩

structure Admissible (start : ConsensusPool σ) (types : List CertificateType) : Prop where
  root_le : ∀ type ∈ types, start.parentReadyTracker.root ≤ type.slot
  notarize : ∀ block block', .notarize block ∈ types → .notarize block' ∈ types →
    block.slot = block'.slot → block = block'
  limit : WithinLimit start.parentReadyTracker types
  genesis : ∀ block, .genesis block ∈ types → start.migrationPhase.Accepts block
  start_le : ∀ s, ∀ b ∈ (start.parentReadyTracker.status s).notarFallbacks,
    start.parentReadyTracker.root ≤ b.slot

variable {tracker : ParentReadyTracker}

theorem track_ok {operation : ParentReadyTracker → List VotorEvent →
      Except TrackerPanic (ParentReadyTracker × List VotorEvent)}
    (h : operation pool.parentReadyTracker events = .ok (tracker, events')) :
    pool.track events operation = .ok ({ pool with parentReadyTracker := tracker }, events') := by
  simp only [ConsensusPool.track, h]

theorem getNotarizeCert_eq_some {notarizeCert : NotarCert σ} {slot : ℕ}
    (h : pool.getNotarizeCert slot = some notarizeCert) :
    notarizeCert.block.slot = slot ∧
      ∃ cert, pool.completedCertificates.get? (.notarize notarizeCert.block) = some cert ∧
        notarizeCert.signature = cert.certSignature := by
  rcases exists_of_findSome?_eq_some h with ⟨⟨certType, cert⟩, hmem, hentry⟩
  cases certType with
  | notarize block =>
    dsimp only at hentry
    split at hentry
    next hslot =>
      cases hentry
      exact ⟨hslot.symm, cert, (get?_eq_some_iff _ _ _).mpr hmem, rfl⟩
    next => cases hentry
  | _ => cases hentry

theorem getNotarizeCert_isSome {block : Block}
    (h : pool.completedCertificates.containsKey (.notarize block) = true) :
    (pool.getNotarizeCert block.slot).isSome = true := by
  rcases (containsKey_iff _ _).mp h with ⟨cert, hcert⟩
  rw [ConsensusPool.getNotarizeCert, findSome?_isSome_iff]
  exact ⟨(.notarize block, cert), (get?_eq_some_iff _ _ _).mp hcert, by simp⟩

def newlyFinalized (types : List CertificateType) : CertificateType → Block → Prop
  | .notarize block, other => other = block ∧ .finalize block.slot ∈ types
  | .finalize slot, other => other.slot = slot ∧ .notarize other ∈ types
  | .finalizeFast block, other => other = block
  | _, _ => False

attribute [local simp] newlyFinalized

theorem finalizes_append (block : Block) :
    Finalizes (types ++ [type]) block ↔
      Finalizes types block ∨ newlyFinalized types type block := by
  cases type with
  | notarize other =>
    simp only [Finalizes, newlyFinalized, mem_append, mem_singleton,
      CertificateType.notarize.injEq, reduceCtorEq, or_false]
    constructor
    · rintro (hfast | ⟨hold | heq, hfinal⟩)
      · exact .inl (.inl hfast)
      · exact .inl (.inr ⟨hold, hfinal⟩)
      · exact .inr ⟨heq, heq ▸ hfinal⟩
    · rintro ((hfast | ⟨hold, hfinal⟩) | ⟨heq, hfinal⟩)
      · exact .inl hfast
      · exact .inr ⟨.inl hold, hfinal⟩
      · exact .inr ⟨.inr heq, heq ▸ hfinal⟩
  | finalize slot =>
    simp only [Finalizes, newlyFinalized, mem_append, mem_singleton,
      CertificateType.finalize.injEq, reduceCtorEq, or_false]
    grind
  | finalizeFast other =>
    simp only [Finalizes, newlyFinalized, mem_append, mem_singleton,
      CertificateType.finalizeFast.injEq, reduceCtorEq, or_false]
    grind
  | notarizeFallback other | skip slot | genesis other => simp [Finalizes]

/-- The last certificate finalizes a slot when it finalizes a block there. -/
def newlyFinalizedSlot (types : List CertificateType) : CertificateType → FinalizedSlot → Prop
  | .notarize block, slot => slot = .slow block.slot ∧ .finalize block.slot ∈ types
  | .finalize slot, other =>
    other = .slow slot ∧ ∃ block, .notarize block ∈ types ∧ block.slot = slot
  | .finalizeFast block, slot => slot = .fast block.slot
  | _, _ => False

attribute [local simp] newlyFinalizedSlot

theorem finalizesSlot_append (slot : FinalizedSlot) :
    FinalizesSlot (types ++ [type]) slot ↔
      FinalizesSlot types slot ∨ newlyFinalizedSlot types type slot := by
  cases type with
  | notarize other =>
    cases slot with
    | slow slot =>
      simp only [FinalizesSlot, newlyFinalizedSlot, mem_append, mem_singleton,
        CertificateType.notarize.injEq, reduceCtorEq, or_false, FinalizedSlot.slow.injEq]
      constructor
      · rintro ⟨hfinal, block, hold | heq, hslot⟩
        · exact .inl ⟨hfinal, block, hold, hslot⟩
        · subst heq
          subst hslot
          exact .inr ⟨rfl, hfinal⟩
      · rintro (⟨hfinal, block, hold, hslot⟩ | ⟨hslot, hfinal⟩)
        · exact ⟨hfinal, block, .inl hold, hslot⟩
        · exact ⟨hslot ▸ hfinal, other, .inr rfl, hslot.symm⟩
    | fast slot => simp
  | finalize other =>
    cases slot with
    | slow slot =>
      simp only [FinalizesSlot, newlyFinalizedSlot, mem_append, mem_singleton,
        CertificateType.finalize.injEq, reduceCtorEq, or_false, FinalizedSlot.slow.injEq]
      constructor
      · rintro ⟨hold | heq, hblock⟩
        · exact .inl ⟨hold, hblock⟩
        · exact .inr ⟨heq, heq ▸ hblock⟩
      · rintro (⟨hold, hblock⟩ | ⟨heq, hblock⟩)
        · exact ⟨.inl hold, hblock⟩
        · exact ⟨.inr heq, heq ▸ hblock⟩
    | fast slot => simp
  | finalizeFast other =>
    cases slot with
    | slow slot => simp
    | fast slot =>
      simp only [FinalizesSlot, newlyFinalizedSlot, mem_append, mem_singleton,
        CertificateType.finalizeFast.injEq, FinalizedSlot.fast.injEq]
      constructor
      · rintro ⟨block, hold | heq, hslot⟩
        · exact .inl ⟨block, hold, hslot⟩
        · exact .inr (heq ▸ hslot.symm)
      · rintro (⟨block, hold, hslot⟩ | hslot)
        · exact ⟨block, .inl hold, hslot⟩
        · exact ⟨other, .inr rfl, hslot.symm⟩
  | notarizeFallback other | skip other | genesis other =>
    cases slot <;> simp

section

variable (h : Ingested start certs pool events) (htype : cert.certType = type)
  (hnew : type ∉ certTypes certs)
  (htrack : Tracked start.parentReadyTracker (certTypes certs ++ [type]) tracker events')

include h htype hnew htrack

theorem Ingested.track {phase : MigrationPhase σ}
    (hblocks : ∀ block, (∃ fast, .finalized block fast ∈ events') ↔
      ∃ fast, .finalized block fast ∈ events)
    (hblock : ∀ block, ¬ newlyFinalized (certTypes certs) type block)
    (hslot : ∀ slot, ¬ newlyFinalizedSlot (certTypes certs) type slot)
    (hphase : ∀ block, pool.migrationPhase.Accepts block → phase.Accepts block) :
    Ingested start (certs ++ [cert])
      { pool with
        completedCertificates := (pool.completedCertificates.insert type cert).2
        parentReadyTracker := tracker
        migrationPhase := phase } events' := by
  subst htype
  constructor
  · exact h.completed_insert hnew
  · rw [certTypes_append]
    exact htrack
  · rw [certTypes_append]
    apply h.highest.congr
    intro slot
    rw [finalizesSlot_append]
    exact or_iff_left (hslot slot)
  · intro block
    rw [hblocks, h.finalized, certTypes_append, finalizes_append]
    exact (or_iff_left (hblock block)).symm
  · exact fun block hstart => hphase block (h.phase block hstart)

theorem Ingested.finalize {block : Block} {finalizationCert : ValidatedBlockFinalizationCert σ}
    (hblocks : ∀ other, (∃ fast, .finalized other fast ∈ events') ↔
      (∃ fast, .finalized other fast ∈ events) ∨ other = block)
    (hblock : ∀ other, newlyFinalized (certTypes certs) type other ↔ other = block)
    (hslot : ∀ slot, newlyFinalizedSlot (certTypes certs) type slot ↔
      slot = finalizationCert.slot) :
    ∃ next, ConsensusPool.updateHighest { pool with
        completedCertificates := (pool.completedCertificates.insert type cert).2
        parentReadyTracker := tracker } finalizationCert.slot (.ok finalizationCert) = .ok next ∧
      Ingested start (certs ++ [cert]) next events' := by
  subst htype
  have hslots : ∀ slot, FinalizesSlot (certTypes certs ++ [cert.certType]) slot ↔
      FinalizesSlot (certTypes certs) slot ∨ slot = finalizationCert.slot := by
    intro slot
    rw [finalizesSlot_append, hslot]
  have hpool : IsHighest (certTypes certs) (ConsensusPool.highestFinalizedSlot { pool with
      completedCertificates := (pool.completedCertificates.insert cert.certType cert).2
      parentReadyTracker := tracker }) := h.highest
  obtain ⟨highest, hupdate, hhighest⟩ := hpool.updateHighest hslots
  refine ⟨_, hupdate, ?_⟩
  constructor
  · exact h.completed_insert hnew
  · rw [certTypes_append]
    exact htrack
  · rw [certTypes_append]
    exact hhighest
  · intro other
    rw [hblocks, h.finalized, certTypes_append, finalizes_append, hblock]
  · exact h.phase

end

theorem Tracked.append (h : Tracked start.parentReadyTracker types tracker events)
    (event : VotorEvent) (hevent : ∀ s b, event ≠ .parentReady s b) :
    Tracked start.parentReadyTracker types tracker (events ++ [event]) := by
  apply h.unchanged (fun _ => .rfl) (fun _ _ => .rfl)
  intro s b
  simp [Ne.symm (hevent s b)]

theorem exists_finalized_other {event : VotorEvent} (hevent : ∀ b fast, event ≠ .finalized b fast)
    (block : Block) : (∃ fast, .finalized block fast ∈ events ++ [event]) ↔
      ∃ fast, .finalized block fast ∈ events := by
  simp [Ne.symm (hevent _ _)]

section Insert

variable {slot : ℕ}

variable {store : SignerStore} {rootBank : RootBank}

/-- The signers of a certificate can be extracted if it is one of a finalization. -/
def Validated (store : SignerStore) (rootBank : RootBank) (cert : Certificate σ) : Prop :=
  match cert.certType with
  | .notarizeFallback _ | .skip _ | .genesis _ => True
  | certType => ∃ ranks, extractSigners store rootBank certType cert.bitmap = .ok ranks

theorem fromValidatedSlow_ok {finalizeCert notarizeCert : Certificate σ}
    (hfinalize : Validated store rootBank finalizeCert)
    (hnotarize : Validated store rootBank notarizeCert)
    (hslot : finalizeCert.certType = .finalize slot)
    (hblock : notarizeCert.certType = .notarize block) :
    ValidatedBlockFinalizationCert.fromValidatedSlow store ⟨slot, finalizeCert.certSignature⟩
      ⟨block, notarizeCert.certSignature⟩ rootBank =
      .ok (.slow ⟨slot, finalizeCert.certSignature⟩ ⟨block, notarizeCert.certSignature⟩) := by
  simp only [Validated, hslot] at hfinalize
  simp only [Validated, hblock] at hnotarize
  obtain ⟨_, hfinal⟩ := hfinalize
  obtain ⟨_, hnotar⟩ := hnotarize
  simp only [ValidatedBlockFinalizationCert.fromValidatedSlow, Certificate.certSignature, hfinal,
    hnotar, bind, Except.bind]

abbrev Inserts (store : SignerStore) (rootBank : RootBank) (start : ConsensusPool σ)
    (certs : List (Certificate σ)) (cert : Certificate σ) (pool : ConsensusPool σ)
    (events : List VotorEvent) : Prop :=
  ∃ pool' events', pool.insertCertificate store rootBank cert events = .ok (pool', events') ∧
    Ingested start (certs ++ [cert]) pool' events'

namespace Ingested

section NewCertificate

variable (h : Ingested start certs pool events) (hall : Admissible start all)

include h hall

theorem insert_notarizeFallback (htype : cert.certType = .notarizeFallback block)
    (hsub : certTypes certs ++ [.notarizeFallback block] ⊆ all)
    (hnew : .notarizeFallback block ∉ certTypes certs) :
    Inserts store rootBank start certs cert pool events := by
  have hquiet := h.tracked.append (.blockNotarFallback block) (by simp)
  rcases hquiet.addNew hall.limit hsub block rfl (by simp) with
    ⟨tracker, events', hadd, htrack, hother⟩
  refine ⟨_, events', ?_, h.track htype hnew htrack ?_ (by simp)
    (by simp) (fun _ hacc => hacc)⟩
  · simp only [ConsensusPool.insertCertificate, htype]
    exact track_ok hadd
  · intro other
    rw [exists_finalized_congr hother, exists_finalized_other (by simp)]

theorem insert_skip (htype : cert.certType = .skip slot)
    (hsub : certTypes certs ++ [.skip slot] ⊆ all) (hnew : .skip slot ∉ certTypes certs) :
    Inserts store rootBank start certs cert pool events := by
  have hroot : ∀ type ∈ certTypes certs, start.parentReadyTracker.root ≤ type.slot :=
    fun type hmem => hall.root_le type (hsub (mem_append_left _ hmem))
  rcases h.tracked.addNewSkip slot hall.start_le hroot with
    ⟨tracker, events', hadd, htrack, hother⟩
  refine ⟨_, events', ?_, h.track htype hnew htrack (exists_finalized_congr hother)
    (by simp) (by simp) (fun _ hacc => hacc)⟩
  simp only [ConsensusPool.insertCertificate, htype]
  exact track_ok hadd

theorem insert_genesis (htype : cert.certType = .genesis block)
    (hsub : certTypes certs ++ [.genesis block] ⊆ all)
    (hnew : .genesis block ∉ certTypes certs) :
    Inserts store rootBank start certs cert pool events := by
  have hmem : .genesis block ∈ all := hsub (by simp)
  have hacc : pool.migrationPhase.Accepts (GenesisCert.mk block cert.certSignature).block :=
    h.phase block (hall.genesis block hmem)
  rcases hacc.setGenesisCertificate with ⟨phase, hphase, hkept⟩
  rcases h.tracked.addStronger hall.limit hsub (hall.root_le _ hmem) rfl (by simp) with
    ⟨tracker, events', hadd, htrack, hother⟩
  refine ⟨_, events', ?_, h.track htype hnew htrack (exists_finalized_congr hother)
    (by simp) (by simp) hkept⟩
  simp only [ConsensusPool.insertCertificate, htype, hphase, bind, Except.bind,
    ConsensusPool.track, hadd]

theorem insert_finalizeFast (hvalid : Validated store rootBank cert)
    (htype : cert.certType = .finalizeFast block)
    (hsub : certTypes certs ++ [.finalizeFast block] ⊆ all)
    (hnew : .finalizeFast block ∉ certTypes certs) :
    Inserts store rootBank start certs cert pool events := by
  have hquiet := h.tracked.append (.finalized block true) (by simp)
  rcases hquiet.addNew hall.limit hsub block rfl (by simp) with
    ⟨tracker, events', hadd, htrack, hother⟩
  have hslot : ∀ slot, newlyFinalizedSlot (certTypes certs) (.finalizeFast block) slot ↔
      slot = (ValidatedBlockFinalizationCert.fast ⟨block, cert.certSignature⟩).slot :=
    fun _ => .rfl
  have hblocks : ∀ other, (∃ fast, .finalized other fast ∈ events') ↔
      (∃ fast, .finalized other fast ∈ events) ∨ other = block := by
    intro other
    rw [exists_finalized_congr hother, exists_finalized_append]
  obtain ⟨next, hupdate, hnext⟩ := h.finalize htype hnew htrack hblocks (fun _ => .rfl) hslot
  simp only [Validated, htype] at hvalid
  obtain ⟨_, hsigners⟩ := hvalid
  refine ⟨next, events', ?_, hnext⟩
  simp only [ConsensusPool.insertCertificate, htype]
  rw [track_ok hadd]
  simp only [ValidatedBlockFinalizationCert.fromValidatedFast, Certificate.certSignature,
    hsigners, bind, Except.bind]
  exact hupdate ▸ rfl

theorem insert_notarize (hvalid : ∀ other ∈ certs ++ [cert], Validated store rootBank other)
    (htype : cert.certType = .notarize block)
    (hsub : certTypes certs ++ [.notarize block] ⊆ all)
    (hnew : .notarize block ∉ certTypes certs) :
    Inserts store rootBank start certs cert pool events := by
  have hquiet := h.tracked.append (.blockNotarized block) (by simp)
  rcases hquiet.addNew hall.limit hsub block rfl (by simp) with
    ⟨tracker, events', hadd, htrack, hother⟩
  have hblocks : ∀ other, (∃ fast, .finalized other fast ∈ events') ↔
      ∃ fast, .finalized other fast ∈ events := by
    intro other
    rw [exists_finalized_congr hother, exists_finalized_other (by simp)]
  have hfin : (pool.completedCertificates.insert (.notarize block) cert).2.get?
      (.finalize block.slot) = pool.completedCertificates.get? (.finalize block.slot) := by
    rw [get?_insert, if_neg (by simp)]
  have hmem := h.containsKey_iff (.finalize block.slot)
  cases hget : pool.completedCertificates.get? (.finalize block.slot) with
  | none =>
    have hno : .finalize block.slot ∉ certTypes certs := by
      rw [← hmem, containsKey, hget]
      simp
    refine ⟨_, events', ?_, h.track htype hnew htrack hblocks ?_ ?_
      (fun _ hacc => hacc)⟩
    · simp only [ConsensusPool.insertCertificate, htype]
      rw [track_ok hadd]
      simp only [ConsensusPool.getFinalizeCert, bind, Except.bind, hfin, hget, Option.map_none]
    · exact fun other hother => hno hother.2
    · exact fun other hother => hno hother.2
  | some finalizeCert =>
    have hyes : .finalize block.slot ∈ certTypes certs := by
      rw [← hmem, containsKey, hget]
      simp
    have hslot : ∀ slot, newlyFinalizedSlot (certTypes certs) (.notarize block) slot ↔
        slot = (ValidatedBlockFinalizationCert.slow
          ⟨block.slot, finalizeCert.certSignature⟩ ⟨block, cert.certSignature⟩).slot :=
      fun _ => and_iff_left hyes
    have hblocks' : ∀ other, (∃ fast, .finalized other fast ∈ events' ++ [.finalized block false]) ↔
        (∃ fast, .finalized other fast ∈ events) ∨ other = block := by
      intro other
      rw [exists_finalized_append, hblocks]
    obtain ⟨next, hupdate, hnext⟩ := h.finalize htype hnew
      (htrack.append (.finalized block false) (by simp)) hblocks' (fun _ => and_iff_left hyes) hslot
    have hstored := h.stored hget
    have hcert := fromValidatedSlow_ok (hvalid _ (mem_append_left _ hstored.1))
      (hvalid cert (by simp)) hstored.2 htype
    refine ⟨next, _, ?_, hnext⟩
    simp only [ConsensusPool.insertCertificate, htype]
    rw [track_ok hadd]
    simp only [ConsensusPool.getFinalizeCert, bind, Except.bind, hfin, hget, Option.map_some, hcert]
    exact hupdate ▸ rfl

theorem insert_finalize (hvalid : ∀ other ∈ certs ++ [cert], Validated store rootBank other)
    (htype : cert.certType = .finalize slot)
    (hsub : certTypes certs ++ [.finalize slot] ⊆ all)
    (hnew : .finalize slot ∉ certTypes certs) :
    Inserts store rootBank start certs cert pool events := by
  have hkeys : ∀ block, (pool.completedCertificates.insert (.finalize slot) cert).2.containsKey
      (.notarize block) = true ↔ .notarize block ∈ certTypes certs := by
    intro block
    rw [containsKey, get?_insert, if_neg (by simp)]
    exact h.containsKey_iff _
  have htrack := h.tracked.finalize slot
  cases hget : ConsensusPool.getNotarizeCert { pool with
      completedCertificates := (pool.completedCertificates.insert (.finalize slot) cert).2 }
      slot with
  | none =>
    have hno : ∀ block, block.slot = slot → .notarize block ∉ certTypes certs := by
      intro block hslot hmem
      have hsome : (ConsensusPool.getNotarizeCert { pool with
          completedCertificates := (pool.completedCertificates.insert (.finalize slot) cert).2 }
          block.slot).isSome = true := getNotarizeCert_isSome ((hkeys block).mpr hmem)
      rw [hslot, hget] at hsome
      cases hsome
    refine ⟨_, events, ?_, h.track htype hnew htrack (fun _ => .rfl) ?_ ?_
      (fun _ hacc => hacc)⟩
    · simp only [ConsensusPool.insertCertificate, htype, hget]
    · exact fun other hother => hno other hother.1 hother.2
    · rintro other ⟨_, block, hmem, hslot⟩
      exact hno block hslot hmem
  | some notarizeCert =>
    rcases getNotarizeCert_eq_some hget with ⟨hslot, stored, hstored, hsignature⟩
    have hmem := (hkeys _).mp ((BTreeMap.containsKey_iff _ _).mpr ⟨stored, hstored⟩)
    rw [get?_insert, if_neg (by simp)] at hstored
    have hcert := fromValidatedSlow_ok (hvalid cert (by simp))
      (hvalid _ (mem_append_left _ (h.stored hstored).1)) htype (h.stored hstored).2
    rw [← hsignature] at hcert
    have hslots : ∀ other, newlyFinalizedSlot (certTypes certs) (.finalize slot) other ↔
        other = (ValidatedBlockFinalizationCert.slow
          ⟨slot, cert.certSignature⟩ notarizeCert).slot :=
      fun _ => and_iff_left ⟨_, hmem, hslot⟩
    have hblock : ∀ other, newlyFinalized (certTypes certs) (.finalize slot) other ↔
        other = notarizeCert.block := by
      intro other
      constructor
      · rintro ⟨hother, hnotarize⟩
        exact hall.notarize _ _ (hsub (mem_append_left _ hnotarize))
          (hsub (mem_append_left _ hmem)) (hother.trans hslot.symm)
      · intro hother
        rw [hother]
        exact ⟨hslot, hmem⟩
    obtain ⟨next, hupdate, hnext⟩ := h.finalize htype hnew
      (htrack.append (.finalized notarizeCert.block false) (by simp))
      (fun other => exists_finalized_append _ other false) hblock hslots
    refine ⟨next, _, ?_, hnext⟩
    simp only [ConsensusPool.insertCertificate, htype, hget, hcert]
    exact hupdate ▸ rfl

theorem insertCertificate
    (hvalid : ∀ other ∈ certs ++ [cert], Validated store rootBank other)
    (hsub : certTypes certs ++ [cert.certType] ⊆ all)
    (hnew : cert.certType ∉ certTypes certs) :
    Inserts store rootBank start certs cert pool events := by
  cases htype : cert.certType with
  | finalize slot =>
    rw [htype] at hsub hnew
    exact h.insert_finalize hall hvalid htype hsub hnew
  | finalizeFast block =>
    rw [htype] at hsub hnew
    exact h.insert_finalizeFast hall (hvalid cert (by simp)) htype hsub hnew
  | notarize block =>
    rw [htype] at hsub hnew
    exact h.insert_notarize hall hvalid htype hsub hnew
  | notarizeFallback block =>
    rw [htype] at hsub hnew
    exact h.insert_notarizeFallback hall htype hsub hnew
  | skip slot =>
    rw [htype] at hsub hnew
    exact h.insert_skip hall htype hsub hnew
  | genesis block =>
    rw [htype] at hsub hnew
    exact h.insert_genesis hall htype hsub hnew

end NewCertificate

end Ingested

end Insert

/-! ## Runs -/

section Congruence

variable (htypes : ∀ type, type ∈ types' ↔ type ∈ types)
include htypes

theorem finalizes_congr (block : Block) : Finalizes types' block ↔ Finalizes types block := by
  simp only [Finalizes, htypes]

theorem finalizesSlot_congr (slot : FinalizedSlot) :
    FinalizesSlot types' slot ↔ FinalizesSlot types slot := by
  cases slot <;> simp only [FinalizesSlot, htypes]

theorem mem_recordedBlocks_congr (root : ℕ) (b : Block) :
    b ∈ recordedBlocks root types' ↔ b ∈ recordedBlocks root types := by
  simp only [recordedBlocks, mem_filterMap, htypes]

theorem Tracked.mem_parentsReady_iff {start t t' : ParentReadyTracker}
    (h : Tracked start types t events) (h' : Tracked start types' t' events') (s : ℕ) (b : Block) :
    b ∈ (t'.status s).parentsReady ↔ b ∈ (t.status s).parentsReady := by
  by_cases hroot : start.root ≤ b.slot
  · by_cases hlt : b.slot < s
    · have hconn : t'.Connected b.slot s ↔ t.Connected b.slot s := by
        simp only [Connected, h.skip, h'.skip, htypes]
      rw [h.invariant.exact b s (h.root ▸ hroot) hlt, h'.invariant.exact b s (h'.root ▸ hroot) hlt,
        h.notarFallbacks, h'.notarFallbacks, mem_recordedBlocks_congr htypes, hconn]
    · exact iff_of_false (fun hb => hlt (h'.invariant.ready_lt s b hb))
        (fun hb => hlt (h.invariant.ready_lt s b hb))
  · exact iff_of_false (fun hb => hroot (h'.root_le s b hb)) (fun hb => hroot (h.root_le s b hb))

end Congruence

namespace Ingested

theorem duplicate (h : Ingested start certs pool events)
    (hknown : cert.certType ∈ certTypes certs) : Ingested start (certs ++ [cert]) pool events := by
  have htypes : ∀ type, type ∈ certTypes (certs ++ [cert]) ↔ type ∈ certTypes certs := by
    intro type
    rw [certTypes_append, mem_append, mem_singleton]
    exact or_iff_left_of_imp (fun heq => heq ▸ hknown)
  constructor
  · intro certType
    rw [h.completed, find?_append]
    by_cases htype : cert.certType = certType
    · have hsome : (certs.find? (fun cert => cert.certType = certType)).isSome = true := by
        rw [← h.completed, ← htype]
        exact (h.containsKey_iff _).mpr hknown
      rw [Option.or_of_isSome hsome]
    · simp [htype]
  · exact h.tracked.unchanged (mem_recordedBlocks_congr htypes _) (fun s _ => htypes _)
      (fun _ _ => .rfl)
  · exact h.highest.congr (finalizesSlot_congr htypes)
  · intro block
    rw [h.finalized, finalizes_congr htypes]
  · exact h.phase

theorem addCerts {store : SignerStore} {rootBank : RootBank} {all : List CertificateType}
    (hall : Admissible start all) (rest : List (Certificate σ))
    (h : Ingested start certs pool events) (hsub : certTypes (certs ++ rest) ⊆ all)
    (hvalid : ∀ cert ∈ certs ++ rest, Validated store rootBank cert)
    (hslots : ∀ cert ∈ rest, rootBank.slot ≤ cert.certType.slot) :
    ∃ pool' events' newCerts,
      pool.addCerts store rootBank rest events = .ok (pool', events', newCerts) ∧
      Ingested start (certs ++ rest) pool' events' := by
  induction rest generalizing certs pool events with
  | nil => exact ⟨pool, events, [], rfl, by rwa [append_nil]⟩
  | cons cert rest ih =>
    have hsplit : certs ++ cert :: rest = (certs ++ [cert]) ++ rest := by simp
    have hnot : ¬ cert.certType.slot < rootBank.slot :=
      not_lt.mpr (hslots cert mem_cons_self)
    have hslots' : ∀ other ∈ rest, rootBank.slot ≤ other.certType.slot :=
      fun other hother => hslots other (mem_cons_of_mem _ hother)
    rw [hsplit] at hsub hvalid ⊢
    rw [ConsensusPool.addCerts, if_neg hnot]
    by_cases hknown : cert.certType ∈ certTypes certs
    · rw [if_pos ((h.containsKey_iff _).mpr hknown)]
      exact ih (h.duplicate hknown) hsub hvalid hslots'
    · rw [if_neg (fun hkey => hknown ((h.containsKey_iff _).mp hkey))]
      have hsub' : certTypes certs ++ [cert.certType] ⊆ all := by
        rw [← certTypes_append]
        exact fun type htype => hsub (by
          rw [certTypes, map_append]
          exact mem_append_left _ htype)
      rcases h.insertCertificate hall (fun other hother => hvalid other (mem_append_left _ hother))
        hsub' hknown with ⟨next, events₁, hins, hnext⟩
      rcases ih hnext hsub hvalid hslots' with ⟨pool', events', newCerts, hrest, hpool'⟩
      refine ⟨pool', events', cert :: newCerts, ?_, hpool'⟩
      simp only [hins, hrest, bind, Except.bind]

theorem new {root slot : ℕ} {parentBlock : Block} (phase : MigrationPhase σ)
    (hpar : parentBlock.slot < slot) :
    Ingested (.new root phase slot parentBlock) []
      (ConsensusPool.new root phase slot parentBlock) [] where
  completed certType := get?_empty certType
  tracked := by
    constructor
    · exact TrackerInvariant.new hpar
    · rfl
    · intro s b
      simp
    · intro s
      simp only [ConsensusPool.new, status_new root hpar]
      split_ifs <;> simp
    · intro s
      simp
    · intro s b hb
      rcases (mem_parentsReady_new root hpar s b).mp hb with ⟨heq, _, _⟩
      rw [heq]
      exact Nat.min_le_left _ _
    · exact fun s b hb => hb
    · intro s b
      simp
  highest := by
    constructor
    · intro slot hslot
      cases hslot
    · intro slot hslot
      cases slot <;> simp at hslot
  finalized block := by simp [Finalizes]
  phase block hacc := hacc

end Ingested

/-! ## Order independence -/

/-- The pools and their events agree on all which is derived from certificates. -/
structure SameIngestion (pool pool' : ConsensusPool σ) (events events' : List VotorEvent) :
    Prop where
  completed : ∀ certType, pool.completedCertificates.containsKey certType =
    pool'.completedCertificates.containsKey certType
  parentsReady : ∀ s b, b ∈ (pool.parentReadyTracker.status s).parentsReady ↔
    b ∈ (pool'.parentReadyTracker.status s).parentsReady
  parentReadyEvents : ∀ s b, .parentReady s b ∈ events ↔ .parentReady s b ∈ events'
  finalizedBlocks : ∀ b, (∃ fast, .finalized b fast ∈ events) ↔ ∃ fast, .finalized b fast ∈ events'
  highestFinalizedSlot : pool.highestFinalizedSlot = pool'.highestFinalizedSlot

variable {certs' : List (Certificate σ)}

section

variable (h : Ingested start certs pool events)

include h

theorem Ingested.same (h' : Ingested start certs' pool' events') (hperm : certs.Perm certs') :
    SameIngestion pool pool' events events' := by
  have htypes : ∀ type, type ∈ certTypes certs ↔ type ∈ certTypes certs' :=
    fun type => (hperm.map _).mem_iff
  have hready := h'.tracked.mem_parentsReady_iff htypes h.tracked
  constructor
  · intro certType
    rw [Bool.eq_iff_iff, h.containsKey_iff, h'.containsKey_iff, htypes]
  · exact hready
  · intro s b
    rw [h.tracked.emitted, h'.tracked.emitted, hready]
  · intro b
    rw [h.finalized, h'.finalized, finalizes_congr htypes]
  · exact (h.highest.congr (fun slot => (finalizesSlot_congr htypes slot).symm)).unique h'.highest

theorem Ingested.get?_eq_some_iff (hnodup : (certTypes certs).Nodup) (certType : CertificateType) :
    pool.completedCertificates.get? certType = some cert ↔
      cert ∈ certs ∧ cert.certType = certType := by
  rw [h.completed]
  constructor
  · intro hfind
    exact ⟨mem_of_find?_eq_some hfind, by simpa using find?_some hfind⟩
  · rintro ⟨hmem, htype⟩
    have hsome : (certs.find? (fun cert => cert.certType = certType)).isSome = true := by
      rw [find?_isSome]
      exact ⟨cert, hmem, by simpa using htype⟩
    rcases Option.isSome_iff_exists.mp hsome with ⟨other, hother⟩
    have htype' : other.certType = certType := by simpa using find?_some hother
    rw [hother, inj_on_of_nodup_map hnodup (mem_of_find?_eq_some hother) hmem
      (htype'.trans htype.symm)]

theorem Ingested.completed_eq (h' : Ingested start certs' pool' events')
    (hperm : certs.Perm certs') (hnodup : (certTypes certs).Nodup) :
    pool.completedCertificates = pool'.completedCertificates := by
  apply ext_get?
  intro certType
  apply Option.ext
  intro cert
  rw [h.get?_eq_some_iff hnodup, h'.get?_eq_some_iff ((hperm.map _).nodup_iff.mp hnodup),
    hperm.mem_iff]

end

/-- Two orders of the same certificates lead to the same pool.  Of several certificates of one
type the first is kept, so the stored ones only agree when no type is repeated. -/
theorem addCerts_order_independent {store : SignerStore} {rootBank : RootBank}
    {phase : MigrationPhase σ} {slot : ℕ} {parentBlock : Block}
    {certs certs' : List (Certificate σ)} (hparent : parentBlock.slot < slot)
    (hvalid : ∀ cert ∈ certs, Validated store rootBank cert)
    (hslots : ∀ cert ∈ certs, rootBank.slot ≤ cert.certType.slot)
    (hnotarize : ∀ block block', .notarize block ∈ certTypes certs →
      .notarize block' ∈ certTypes certs → block.slot = block'.slot → block = block')
    (hlimit : WithinLimit (.new rootBank.slot slot parentBlock) (certTypes certs))
    (hgenesis : ∀ block, .genesis block ∈ certTypes certs → phase.Accepts block)
    (hperm : certs.Perm certs') :
    ∃ pool events newCerts pool' events' newCerts',
      (ConsensusPool.new rootBank.slot phase slot parentBlock).addCerts store rootBank certs [] =
        .ok (pool, events, newCerts) ∧
      (ConsensusPool.new rootBank.slot phase slot parentBlock).addCerts store rootBank certs' [] =
        .ok (pool', events', newCerts') ∧
      SameIngestion pool pool' events events' ∧
      ((certTypes certs).Nodup → pool.completedCertificates = pool'.completedCertificates) ∧
      (∀ certType, pool.completedCertificates.get? certType =
        certs.find? (fun cert => cert.certType = certType)) ∧
      ∀ block, (∃ fast, .finalized block fast ∈ events) ↔
        .finalizeFast block ∈ certTypes certs ∨
          (.notarize block ∈ certTypes certs ∧ .finalize block.slot ∈ certTypes certs) := by
  have hroot : (new rootBank.slot slot parentBlock).root ≤ rootBank.slot :=
    Nat.min_le_right _ _
  have hall : Admissible (ConsensusPool.new rootBank.slot phase slot parentBlock)
      (certTypes certs) := by
    refine ⟨?_, hnotarize, hlimit, hgenesis, ?_⟩
    · intro type htype
      rcases mem_map.mp htype with ⟨cert, hcert, heq⟩
      rw [← heq]
      exact hroot.trans (hslots cert hcert)
    · intro s b hb
      rcases (mem_notarFallbacks_new rootBank.slot hparent s b).mp hb with ⟨heq, _⟩
      rw [heq]
      exact Nat.min_le_left _ _
  have hsubset' : certTypes ([] ++ certs') ⊆ certTypes certs :=
    fun type htype => (hperm.map _).mem_iff.mpr htype
  have hslots' : ∀ cert ∈ certs', rootBank.slot ≤ cert.certType.slot :=
    fun cert hcert => hslots cert (hperm.mem_iff.mpr hcert)
  rcases (Ingested.new phase hparent).addCerts hall certs (List.Subset.refl _) hvalid hslots
    with
    ⟨pool, events, newCerts, hrun, h⟩
  rcases (Ingested.new phase hparent).addCerts hall certs' hsubset'
      (fun cert hcert => hvalid cert (hperm.mem_iff.mpr hcert)) hslots' with
    ⟨pool', events', newCerts', hrun', h'⟩
  exact ⟨pool, events, newCerts, pool', events', newCerts', hrun, hrun', h.same h' hperm,
    h.completed_eq h' hperm, h.completed, h.finalized⟩

def sampleBank : RootBank := ⟨0, fun _ => some ⟨2, 10⟩⟩

def sampleCert (certType : CertificateType) : Certificate ℕ := ⟨certType, 0, [2, 1, 1]⟩

abbrev feed (phase : MigrationPhase ℕ) (slot : ℕ) (parentBlock : Block)
    (certs : List (Certificate ℕ)) :=
  (ConsensusPool.new 0 phase slot parentBlock).addCerts .bytewise sampleBank certs []

/-- A slow and a fast finalization of one slot, fed in two orders. -/
theorem addCerts_order_independent_slowAndFast :
    ∃ pool events newCerts pool' events' newCerts',
      feed .preFeatureActivation 1 ⟨0, 0⟩ [sampleCert (.finalize 4), sampleCert (.notarize ⟨4, 7⟩),
          sampleCert (.finalizeFast ⟨4, 7⟩)] = .ok (pool, events, newCerts) ∧
      feed .preFeatureActivation 1 ⟨0, 0⟩ [sampleCert (.finalizeFast ⟨4, 7⟩),
          sampleCert (.notarize ⟨4, 7⟩), sampleCert (.finalize 4)] =
        .ok (pool', events', newCerts') ∧
      SameIngestion pool pool' events events' ∧ ∃ fast, .finalized ⟨4, 7⟩ fast ∈ events := by
  have hlimit : WithinLimit (.new 0 1 ⟨0, 0⟩) [.finalize 4, .notarize ⟨4, 7⟩,
      .finalizeFast ⟨4, 7⟩] := by
    intro s
    apply le_trans (Finset.card_filter_le _ _)
    apply le_trans (toFinset_card_le _)
    rw [length_append, status_new 0 Nat.zero_lt_one]
    split_ifs <;> decide
  have hvalid : ∀ certType, Validated .bytewise sampleBank (sampleCert certType) := by
    intro certType
    cases certType <;> first | trivial | exact ⟨_, rfl⟩
  rcases @addCerts_order_independent ℕ .bytewise sampleBank .preFeatureActivation 1 ⟨0, 0⟩
      [sampleCert (.finalize 4), sampleCert (.notarize ⟨4, 7⟩), sampleCert (.finalizeFast ⟨4, 7⟩)]
      [sampleCert (.finalizeFast ⟨4, 7⟩), sampleCert (.notarize ⟨4, 7⟩), sampleCert (.finalize 4)]
      (by decide) (by simp [hvalid]) (by simp [sampleBank]) (by simp [sampleCert]) hlimit
      (by simp [sampleCert]) (by decide) with
    ⟨pool, events, newCerts, pool', events', newCerts', hrun, hrun', hsame, _, _, hfinalized⟩
  exact ⟨pool, events, newCerts, pool', events', newCerts', hrun, hrun', hsame,
    (hfinalized ⟨4, 7⟩).mpr (.inl (by simp [sampleCert]))⟩

/-- The first certificate of a type is stored.  A genesis certificate for another block than the
discovered one stops the pool unless the migration is over.  The initial parent takes one of the
places of its slot. -/
theorem addCerts_order_matters :
    (feed .preFeatureActivation 1 ⟨0, 0⟩ [⟨.skip 5, 0, [2, 1]⟩, ⟨.skip 5, 0, [2, 0, 1]⟩]).map
        (fun result => result.1.completedCertificates.get? (.skip 5)) =
      .ok (some ⟨.skip 5, 0, [2, 1]⟩) ∧
    (feed .preFeatureActivation 1 ⟨0, 0⟩ [⟨.skip 5, 0, [2, 0, 1]⟩, ⟨.skip 5, 0, [2, 1]⟩]).map
        (fun result => result.1.completedCertificates.get? (.skip 5)) =
      .ok (some ⟨.skip 5, 0, [2, 0, 1]⟩) ∧
    (feed (.migration 9 (some ⟨3, 1⟩) none) 1 ⟨0, 0⟩
      [sampleCert (.genesis ⟨3, 1⟩), sampleCert (.genesis ⟨3, 2⟩)]).isOk = true ∧
    feed (.migration 9 (some ⟨3, 1⟩) none) 1 ⟨0, 0⟩
      [sampleCert (.genesis ⟨3, 2⟩), sampleCert (.genesis ⟨3, 1⟩)] = .error .genesisMismatch ∧
    feed .preFeatureActivation 2 ⟨1, 0⟩ (([1, 2, 3, 4] : List ℕ).map fun id =>
        sampleCert (.notarizeFallback ⟨1, id⟩)) =
      .error (.tracker .tooManyNotarFallbackBlocks) := by
  refine ⟨?_, ?_, ?_, ?_, ?_⟩ <;> rfl

end Pool

end RakuraiValidator.Votor
