import Mathlib.Tactic.Common
import RakuraiValidator.ParentReadyTracker

/-!
# Propagation of ready parents

The tracker extends the lists of ready parents forward from one slot.  A
propagation is described by the pairs of slot and parent which it adds, so the
two loops over slots and the inner loop over parents compose by union of their
pairs.  The results are what a notar-fallback certificate and a skip certificate
do to the lists, the events and the highest slot.
-/

namespace RakuraiValidator.Votor
open List

variable {pairs : ℕ → Block → Prop} {slot bound : ℕ} {parents : List Block} {last : ℕ}

namespace ParentReadyTracker

def Connected (t : ParentReadyTracker) (parentSlot s : ℕ) : Prop :=
  ∀ u, parentSlot < u → u < s → (t.status u).skip = true

structure FirstUnskipped (t : ParentReadyTracker) (s last : ℕ) : Prop where
  le : s ≤ last
  skipped : ∀ u, s ≤ u → u < last → (t.status u).skip = true
  unskipped : (t.status last).skip = false

theorem FirstUnskipped.connected_iff {t : ParentReadyTracker} {parentSlot s : ℕ}
    (h : FirstUnskipped t (parentSlot + 1) last) : t.Connected parentSlot s ↔ s ≤ last := by
  constructor
  · intro hconn
    by_contra hlt
    have hskip := hconn last (by have hle := h.le; omega) (by omega)
    rw [h.unskipped] at hskip
    contradiction
  · intro hle u hafter hbefore
    exact h.skipped u hafter (by omega)

/-! ## Propagation -/

/-- What adding the parents in `pairs` does to the lists of ready parents and to
the events. -/
structure Propagates (pairs : ℕ → Block → Prop)
    (before after : ParentReadyTracker × List VotorEvent) : Prop where
  root : after.1.root = before.1.root
  ready : ∀ s b, b ∈ (after.1.status s).parentsReady ↔
    b ∈ (before.1.status s).parentsReady ∨ pairs s b
  emitted : ∀ s b, s % numConsecutiveLeaderSlots = 0 → pairs s b →
    b ∉ (before.1.status s).parentsReady →
    after.2.count (.parentReady s b) = before.2.count (.parentReady s b) + 1
  silent : ∀ s b, ¬ (s % numConsecutiveLeaderSlots = 0 ∧ pairs s b ∧
    b ∉ (before.1.status s).parentsReady) →
    after.2.count (.parentReady s b) = before.2.count (.parentReady s b)

structure SameCertificates (t t' : ParentReadyTracker) : Prop where
  skip : ∀ s, (t'.status s).skip = (t.status s).skip
  notarFallbacks : ∀ s, (t'.status s).notarFallbacks = (t.status s).notarFallbacks

/-- The highest slot with a ready parent follows the pairs which are added. -/
structure Raises (pairs : ℕ → Block → Prop) (t t' : ParentReadyTracker) : Prop where
  le : t.highestWithParentReady ≤ t'.highestWithParentReady
  attained : t'.highestWithParentReady = t.highestWithParentReady ∨
    ∃ b, pairs t'.highestWithParentReady b
  bound : ∀ s b, pairs s b → b ∉ (t.status s).parentsReady → s ≤ t'.highestWithParentReady

section Composition

variable {P Q : ℕ → Block → Prop} {x y z : ParentReadyTracker × List VotorEvent}
  {t t' t'' : ParentReadyTracker}

theorem Propagates.refl : Propagates (fun _ _ => False) x x where
  root := rfl
  ready := by simp
  emitted := by simp
  silent := by simp

theorem Propagates.trans (h : Propagates P x y) (h' : Propagates Q y z) :
    Propagates (fun s b => P s b ∨ Q s b) x z where
  root := h'.root.trans h.root
  ready := by
    intro s b
    rw [h'.ready, h.ready, or_assoc]
  emitted := by
    intro s b hs hpair hnew
    -- the first propagation which adds the pair emits the event
    by_cases hP : P s b
    · rw [h'.silent s b (by simp [h.ready, hP]), h.emitted s b hs hP hnew]
    · have hQ := hpair.resolve_left hP
      have hstill : b ∉ (y.1.status s).parentsReady := by simp [h.ready, hP, hnew]
      rw [h'.emitted s b hs hQ hstill, h.silent s b (by simp [hP])]
  silent := by
    intro s b hnot
    rw [h'.silent s b, h.silent s b]
    · rintro ⟨hs, hP, hnew⟩
      exact hnot ⟨hs, .inl hP, hnew⟩
    · rintro ⟨hs, hQ, hstill⟩
      rw [h.ready, not_or] at hstill
      exact hnot ⟨hs, .inr hQ, hstill.1⟩

theorem SameCertificates.refl : SameCertificates t t := ⟨fun _ => rfl, fun _ => rfl⟩

theorem SameCertificates.trans (h : SameCertificates t t') (h' : SameCertificates t' t'') :
    SameCertificates t t'' :=
  ⟨fun s => (h'.skip s).trans (h.skip s),
    fun s => (h'.notarFallbacks s).trans (h.notarFallbacks s)⟩

theorem SameCertificates.firstUnskipped (h : SameCertificates t t') {s : ℕ}
    (hfirst : FirstUnskipped t' s last) : FirstUnskipped t s last where
  le := hfirst.le
  skipped := by
    intro u hle hlt
    rw [← h.skip]
    exact hfirst.skipped u hle hlt
  unskipped := by
    rw [← h.skip]
    exact hfirst.unskipped

theorem Raises.refl : Raises (fun _ _ => False) t t :=
  ⟨le_rfl, .inl rfl, fun _ _ hpair => hpair.elim⟩

theorem Raises.trans (h : Raises P x.1 y.1) (hready : Propagates P x y) (h' : Raises Q y.1 t'') :
    Raises (fun s b => P s b ∨ Q s b) x.1 t'' where
  le := h.le.trans h'.le
  attained := by
    rcases h'.attained with heq | ⟨b, hpair⟩
    · rcases h.attained with heq' | ⟨b, hpair⟩
      · exact .inl (heq.trans heq')
      · exact .inr ⟨b, .inl (heq ▸ hpair)⟩
    · exact .inr ⟨b, .inr hpair⟩
  bound := by
    intro s b hpair hnew
    by_cases hP : P s b
    · exact (h.bound s b hP hnew).trans h'.le
    · apply h'.bound s b (hpair.resolve_left hP)
      simp [hready.ready, hP, hnew]

/-- A propagation which leaves the certificates as they are. -/
structure Extends (pairs : ℕ → Block → Prop)
    (before after : ParentReadyTracker × List VotorEvent) : Prop where
  propagates : Propagates pairs before after
  certificates : SameCertificates before.1 after.1
  raises : Raises pairs before.1 after.1

theorem Extends.refl : Extends (fun _ _ => False) x x :=
  ⟨Propagates.refl, SameCertificates.refl, Raises.refl⟩

theorem Extends.congr (h : Extends P x y) (hpairs : ∀ s b, P s b ↔ Q s b) : Extends Q x y := by
  have heq : P = Q := funext fun s => funext fun b => propext (hpairs s b)
  exact heq ▸ h

theorem Extends.trans (h : Extends P x y) (h' : Extends Q y z) :
    Extends (fun s b => P s b ∨ Q s b) x z :=
  ⟨h.propagates.trans h'.propagates, h.certificates.trans h'.certificates,
    h.raises.trans h.propagates h'.raises⟩

end Composition

/-! ## Adding parents -/

section Adding

variable (t : ParentReadyTracker) (events : List VotorEvent) (s : ℕ) (block : Block)

theorem addParentReady_propagates :
    Propagates (fun u b => u = s ∧ b = block) (t, events) (t.addParentReady events s block) := by
  unfold addParentReady
  split
  next hmem =>
    -- nothing is added
    constructor
    · rfl
    · intro u b
      constructor
      · exact .inl
      · rintro (hold | ⟨hu, hb⟩)
        · exact hold
        · exact hu ▸ hb ▸ hmem
    · rintro u b _ ⟨hu, hb⟩ hnew
      exact absurd (hu ▸ hb ▸ hmem) hnew
    · intro u b _
      rfl
  next hnew =>
    constructor
    · rfl
    · intro u b
      simp only [status_setStatus]
      by_cases hu : u = s
      · subst hu
        simp
      · simp [hu]
    · rintro u b hidx ⟨hu, hb⟩ _
      subst hu hb
      simp [hidx]
    · intro u b hnot
      simp only
      split
      next hidx =>
        rw [count_append, count_singleton]
        by_cases heq : VotorEvent.parentReady s block = .parentReady u b
        · simp only [VotorEvent.parentReady.injEq] at heq
          rcases heq with ⟨hu, hb⟩
          subst hu hb
          exact absurd ⟨hidx, ⟨rfl, rfl⟩, hnew⟩ hnot
        · simp [heq]
      next => rfl

theorem addParentReady_sameCertificates :
    SameCertificates t (t.addParentReady events s block).1 := by
  unfold addParentReady
  split
  · exact SameCertificates.refl
  · constructor
    · intro u
      simp only [status_setStatus]
      split
      next hu => rw [hu]
      next => rfl
    · intro u
      simp only [status_setStatus]
      split
      next hu => rw [hu]
      next => rfl

@[simp] theorem addParentReady_highest :
    (t.addParentReady events s block).1.highestWithParentReady = t.highestWithParentReady := by
  unfold addParentReady
  split <;> rfl

theorem addFallbackParent_extends (s : ℕ) :
    Extends (fun u b => u = s ∧ b = block) (t, events) (addFallbackParent block s t events) := by
  have hprop := addParentReady_propagates t events s block
  have hsame := addParentReady_sameCertificates t events s block
  unfold addFallbackParent
  split
  next hmem =>
    have hunchanged : t.addParentReady events s block = (t, events) := by
      simp [addParentReady, hmem]
    rw [hunchanged] at hprop
    constructor
    · exact hprop
    · exact SameCertificates.refl
    · constructor
      · exact le_rfl
      · exact .inl rfl
      · rintro u b ⟨hu, hb⟩ hnew
        exact absurd (hu ▸ hb ▸ hmem) hnew
  next hnew =>
    constructor
    · exact ⟨hprop.root, hprop.ready, hprop.emitted, hprop.silent⟩
    · exact ⟨hsame.skip, hsame.notarFallbacks⟩
    · constructor
      · simp
      · simp only [addParentReady_highest]
        rcases le_total s t.highestWithParentReady with hle | hle
        · exact .inl (max_eq_right hle)
        · exact .inr ⟨block, max_eq_left hle, rfl⟩
      · rintro u b ⟨hu, _⟩ _
        simp [hu]

theorem foldl_addParentReady (parents : List Block) (acc : ParentReadyTracker × List VotorEvent) :
    Propagates (fun u b => u = s ∧ b ∈ parents) acc
        (parents.foldl (fun acc block => acc.1.addParentReady acc.2 s block) acc) ∧
      SameCertificates acc.1
        (parents.foldl (fun acc block => acc.1.addParentReady acc.2 s block) acc).1 ∧
      (parents.foldl (fun acc block => acc.1.addParentReady acc.2 s block)
        acc).1.highestWithParentReady = acc.1.highestWithParentReady := by
  induction parents generalizing acc with
  | nil =>
    have hpairs : (fun (u : ℕ) (b : Block) => u = s ∧ b ∈ ([] : List Block)) =
        fun _ _ => False := by
      funext u b
      simp
    rw [hpairs]
    exact ⟨Propagates.refl, SameCertificates.refl, rfl⟩
  | cons block parents ih =>
    have hfirst := addParentReady_propagates acc.1 acc.2 s block
    have hsame := addParentReady_sameCertificates acc.1 acc.2 s block
    rcases ih (acc.1.addParentReady acc.2 s block) with ⟨hrest, hsame', hhighest⟩
    have hpairs : (fun u b => u = s ∧ b ∈ block :: parents) =
        fun u b => (u = s ∧ b = block) ∨ (u = s ∧ b ∈ parents) := by
      funext u b
      simp only [mem_cons, eq_iff_iff]
      tauto
    rw [hpairs, foldl_cons]
    constructor
    · exact hfirst.trans hrest
    · constructor
      · exact hsame.trans hsame'
      · rw [hhighest, addParentReady_highest]

theorem addPotentialParents_extends (hparents : parents ≠ [])
    (acc : ParentReadyTracker × List VotorEvent) (s : ℕ) :
    Extends (fun u b => u = s ∧ b ∈ parents) acc (addPotentialParents parents acc s) := by
  rcases foldl_addParentReady s parents acc with ⟨hprop, hsame, hhighest⟩
  constructor
  · exact ⟨hprop.root, hprop.ready, hprop.emitted, hprop.silent⟩
  · exact ⟨hsame.skip, hsame.notarFallbacks⟩
  · constructor
    · simp [addPotentialParents, hhighest]
    · simp only [addPotentialParents, hhighest]
      rcases le_total s acc.1.highestWithParentReady with hle | hle
      · exact .inl (max_eq_right hle)
      · rcases exists_mem_of_ne_nil _ hparents with ⟨b, hb⟩
        exact .inr ⟨b, max_eq_left hle, hb⟩
    · rintro u b ⟨hu, _⟩ _
      simp [addPotentialParents, hu]

theorem foldl_addPotentialParents (hparents : parents ≠ []) (slots : List ℕ)
    (acc : ParentReadyTracker × List VotorEvent) :
    Extends (fun u b => u ∈ slots ∧ b ∈ parents) acc
      (slots.foldl (addPotentialParents parents) acc) := by
  induction slots generalizing acc with
  | nil => exact Extends.refl.congr (by simp)
  | cons s slots ih =>
    have hfirst := addPotentialParents_extends hparents acc s
    apply (hfirst.trans (ih (addPotentialParents parents acc s))).congr
    intro u b
    simp only [mem_cons]
    tauto

end Adding

/-! ## The loops over slots -/

section Loops

variable {t : ParentReadyTracker} {s : ℕ}

theorem FirstUnskipped.cons (hskip : (t.status s).skip = true) (h : FirstUnskipped t (s + 1) last) :
    FirstUnskipped t s last where
  le := (Nat.le_succ s).trans h.le
  skipped := by
    intro u hle hlt
    rcases hle.eq_or_lt with heq | hafter
    · exact heq ▸ hskip
    · exact h.skipped u hafter hlt
  unskipped := h.unskipped

theorem FirstUnskipped.self (hskip : (t.status s).skip = false) : FirstUnskipped t s s where
  le := le_rfl
  skipped := by
    intro u hle hlt
    omega
  unskipped := hskip

theorem lt_of_skip (hbound : ∀ u, bound ≤ u → (t.status u).skip = false)
    (hs : (t.status s).skip = true) : s < bound := by
  by_contra hge
  rw [hbound s (by omega)] at hs
  contradiction

-- No slot from `bound` on is skipped, so a loop which passes a skipped slot is
-- below `bound` and has fuel left.
theorem notarFallbackLoop_spec (block : Block) (fuel : ℕ) {events : List VotorEvent}
    (hbound : ∀ u, bound ≤ u → (t.status u).skip = false) (hfuel : bound < s + fuel)
    (hpos : 0 < fuel) :
    ∃ last result, notarFallbackLoop block fuel s t events = .ok result ∧
      FirstUnskipped t s last ∧
      Extends (fun u b => (s ≤ u ∧ u ≤ last) ∧ b = block) (t, events) result := by
  induction fuel generalizing s t events with
  | zero => contradiction
  | succ fuel ih =>
    have hround := addFallbackParent_extends t events block s
    cases hx : addFallbackParent block s t events with
    | mk t' events' =>
    rw [hx] at hround
    have hskip := hround.certificates.skip
    simp only at hskip
    simp only [notarFallbackLoop, hx]
    by_cases hs : (t.status s).skip = true
    · have hlt := lt_of_skip hbound hs
      have hbound' : ∀ u, bound ≤ u → (t'.status u).skip = false := by
        intro u hle
        rw [hskip]
        exact hbound u hle
      have hnext : bound < (s + 1) + fuel := by omega
      rcases @ih t' (s + 1) events' hbound' hnext (by omega)
        with ⟨last, result, hloop, hfirst, hrest⟩
      have hfirst' := (hround.certificates.firstUnskipped hfirst).cons hs
      refine ⟨last, result, ?_, hfirst', ?_⟩
      · rw [if_pos (by rw [hskip, hs]), hloop]
      · apply (hround.trans hrest).congr
        intro u b
        have hle := hfirst'.le
        have hcases : (u = s ∨ (s + 1 ≤ u ∧ u ≤ last)) ↔ (s ≤ u ∧ u ≤ last) := by omega
        rw [← hcases, or_and_right]
    · rw [Bool.not_eq_true] at hs
      refine ⟨s, (t', events'), ?_, FirstUnskipped.self hs, ?_⟩
      · rw [if_neg (by rw [hskip, hs]; simp)]
      · apply hround.congr
        intro u b
        have hcases : u = s ↔ (s ≤ u ∧ u ≤ s) := by omega
        rw [← hcases]

theorem futureSlots_spec (fuel : ℕ) (hbound : ∀ u, bound ≤ u → (t.status u).skip = false)
    (hfuel : bound < s + fuel) (hpos : 0 < fuel) :
    ∃ last slots, t.futureSlots fuel s = .ok slots ∧ FirstUnskipped t s last ∧
      ∀ u, u ∈ slots ↔ s ≤ u ∧ u ≤ last := by
  induction fuel generalizing s with
  | zero => contradiction
  | succ fuel ih =>
    simp only [futureSlots, any_skip_eq]
    by_cases hs : (t.status s).skip = true
    · have hlt := lt_of_skip hbound hs
      rcases ih (s := s + 1) (by omega) (by omega) with ⟨last, slots, hslots, hfirst, hmem⟩
      have hfirst' := hfirst.cons hs
      refine ⟨last, s :: slots, ?_, hfirst', ?_⟩
      · rw [if_pos hs, hslots]
        rfl
      · intro u
        have hle := hfirst'.le
        rw [mem_cons, hmem]
        omega
    · have hfalse := Bool.not_eq_true _ ▸ hs
      refine ⟨s, [s], ?_, FirstUnskipped.self hfalse, ?_⟩
      · rw [if_neg hs]
      · intro u
        rw [mem_singleton]
        omega

theorem notarFallbackLoop_horizon (t : ParentReadyTracker) (events : List VotorEvent)
    (block : Block) :
    ∃ last result,
      notarFallbackLoop block (t.horizon + 1) (block.slot + 1) t events = .ok result ∧
      FirstUnskipped t (block.slot + 1) last ∧
      Extends (fun u b => (block.slot + 1 ≤ u ∧ u ≤ last) ∧ b = block) (t, events) result := by
  apply notarFallbackLoop_spec block (t.horizon + 1)
    (fun u hu => skip_eq_false_of_horizon_le t hu)
  · omega
  · omega

theorem futureSlots_horizon (t : ParentReadyTracker) (slot : ℕ) :
    ∃ last slots, t.futureSlots (t.horizon + 1) (slot + 1) = .ok slots ∧
      FirstUnskipped t (slot + 1) last ∧ ∀ u, u ∈ slots ↔ slot + 1 ≤ u ∧ u ≤ last := by
  apply futureSlots_spec (t.horizon + 1) (fun u hu => skip_eq_false_of_horizon_le t hu)
  · omega
  · omega

end Loops

/-! ## The operations -/

section Operations

variable {t t' : ParentReadyTracker} {events events' : List VotorEvent}

theorem Extends.of_recorded {recorded : ParentReadyTracker}
    (h : Extends pairs (recorded, events) (t', events'))
    (hready : ∀ s, (recorded.status s).parentsReady = (t.status s).parentsReady)
    (hroot : recorded.root = t.root)
    (hhighest : recorded.highestWithParentReady = t.highestWithParentReady) :
    Propagates pairs (t, events) (t', events') ∧ Raises pairs t t' := by
  rcases h with ⟨⟨hroot', hready', hemitted, hsilent⟩, _, ⟨hle, hattained, hbound⟩⟩
  simp only [hready, hroot, hhighest] at hroot' hready' hemitted hsilent hle hattained hbound
  exact ⟨⟨hroot', hready', hemitted, hsilent⟩, ⟨hle, hattained, hbound⟩⟩

structure NotarFallbackPropagated (block : Block) (last : ℕ)
    (before after : ParentReadyTracker × List VotorEvent) : Prop where
  firstUnskipped : FirstUnskipped before.1 (block.slot + 1) last
  propagates : Propagates (fun s b => (block.slot + 1 ≤ s ∧ s ≤ last) ∧ b = block) before after
  raises : Raises (fun s b => (block.slot + 1 ≤ s ∧ s ≤ last) ∧ b = block) before.1 after.1
  skip : ∀ s, (after.1.status s).skip = (before.1.status s).skip
  notarFallbacks : ∀ s b, b ∈ (after.1.status s).notarFallbacks ↔
    b ∈ (before.1.status s).notarFallbacks ∨ (s = block.slot ∧ b = block)

variable {block : Block}

theorem addNotarFallbackOrStronger_spec
    (h : t.addNotarFallbackOrStronger block events = .ok (t', events')) :
    ((t', events') = (t, events) ∧ block ∈ (t.status block.slot).notarFallbacks) ∨
      block ∉ (t.status block.slot).notarFallbacks ∧
        (∀ s, (t'.status s).notarFallbacks =
          ((t.recordNotarFallback block).status s).notarFallbacks) ∧
        ∃ last, NotarFallbackPropagated block last (t, events) (t', events') := by
  simp only [addNotarFallbackOrStronger] at h
  split at h
  next hknown =>
    cases h
    exact .inl ⟨rfl, hknown⟩
  next hnew =>
    split at h
    · rcases notarFallbackLoop_horizon (t.recordNotarFallback block) events block
        with ⟨last, result, hloop, hfirst, hext⟩
      rw [hloop] at h
      cases h
      rcases hext.of_recorded (t := t) (by simp) rfl rfl with ⟨hprop, hraises⟩
      right
      refine ⟨hnew, hext.certificates.notarFallbacks, last, ⟨hfirst.le, ?_, ?_⟩,
        hprop, hraises, ?_, ?_⟩
      · simpa using hfirst.skipped
      · simpa using hfirst.unskipped
      · intro s
        rw [hext.certificates.skip, recordNotarFallback_skip]
      · intro s b
        rw [hext.certificates.notarFallbacks, mem_recordNotarFallback]
    · contradiction

theorem addNotarFallbackOrStronger_ok (hlim : block ∉ (t.status block.slot).notarFallbacks →
      (t.status block.slot).notarFallbacks.length < maxNotarFallbackBlocks) :
    ∃ result, t.addNotarFallbackOrStronger block events = .ok result := by
  unfold addNotarFallbackOrStronger
  by_cases hknown : block ∈ (t.status block.slot).notarFallbacks
  · rw [if_pos hknown]
    exact ⟨_, rfl⟩
  · have hlen : ((t.recordNotarFallback block).status block.slot).notarFallbacks.length ≤
        maxNotarFallbackBlocks := by
      simpa [recordNotarFallback] using hlim hknown
    rw [if_neg hknown]
    simp only [if_pos hlen]
    rcases notarFallbackLoop_horizon (t.recordNotarFallback block) events block with
      ⟨_, result, hloop, _⟩
    exact ⟨result, hloop⟩

theorem addNewSkip_ok (t : ParentReadyTracker) (slot : ℕ) (events : List VotorEvent) :
    ∃ result, t.addNewSkip slot events = .ok result := by
  unfold addNewSkip
  by_cases hroot : slot ≤ t.root
  · rw [if_pos hroot]
    exact ⟨_, rfl⟩
  · rw [if_neg hroot]
    rcases futureSlots_horizon (t.recordSkip slot) slot with ⟨_, slots, hslots, _⟩
    simp only [hslots, bind, Except.bind]
    cases (t.recordSkip slot).slotStatuses.get? (slot - 1) with
    | none => exact ⟨_, rfl⟩
    | some status =>
      dsimp only
      generalize status.notarFallbacks ++
        (if status.skip then status.parentsReady else []) = parents
      by_cases hempty : parents.isEmpty = true
      · rw [if_pos hempty]
        exact ⟨_, rfl⟩
      · rw [if_neg hempty]
        exact ⟨_, rfl⟩

structure NotarFallbackAdded (block : Block) (last : ℕ)
    (before after : ParentReadyTracker × List VotorEvent) : Prop
    extends NotarFallbackPropagated block last before after where
  root_lt : before.1.root < block.slot

theorem addNewNotarFallbackOrStronger_spec
    (h : t.addNewNotarFallbackOrStronger block events = .ok (t', events')) :
    (t', events') = (t, events) ∨
      ∃ last, NotarFallbackAdded block last (t, events) (t', events') := by
  unfold addNewNotarFallbackOrStronger at h
  split at h
  next =>
    cases h
    exact .inl rfl
  next hroot =>
    rcases addNotarFallbackOrStronger_spec h with ⟨heq, _⟩ | ⟨_, _, last, hpropagated⟩
    · exact .inl heq
    · exact .inr ⟨last, hpropagated, not_le.mp hroot⟩

structure SkipAdded (slot last : ℕ) (parents : List Block)
    (before after : ParentReadyTracker × List VotorEvent) : Prop where
  root_lt : before.1.root < slot
  firstUnskipped : FirstUnskipped before.1 (slot + 1) last
  mem_parents : ∀ b, b ∈ parents ↔ b ∈ (before.1.status (slot - 1)).notarFallbacks ∨
    ((before.1.status (slot - 1)).skip = true ∧ b ∈ (before.1.status (slot - 1)).parentsReady)
  propagates : Propagates (fun s b => (slot + 1 ≤ s ∧ s ≤ last) ∧ b ∈ parents) before after
  raises : Raises (fun s b => (slot + 1 ≤ s ∧ s ≤ last) ∧ b ∈ parents) before.1 after.1
  skip : ∀ s, (after.1.status s).skip = true ↔ (before.1.status s).skip = true ∨ s = slot
  notarFallbacks : ∀ s,
    (after.1.status s).notarFallbacks = (before.1.status s).notarFallbacks

theorem addNewSkip_added (hroot : ¬ slot ≤ t.root)
    (h : t.addNewSkip slot events = .ok (t', events')) :
    ∃ last parents, SkipAdded slot last parents (t, events) (t', events') := by
  unfold addNewSkip at h
  rw [if_neg hroot] at h
  rcases futureSlots_horizon (t.recordSkip slot) slot with ⟨last, slots, hslots, hfirst, hmem⟩
  simp only [hslots, bind, Except.bind] at h
  have hfirst' : FirstUnskipped t (slot + 1) last := by
    constructor
    · exact hfirst.le
    · intro u hle hlt
      have hskip := (recordSkip_skip t slot u).mp (hfirst.skipped u hle hlt)
      exact hskip.resolve_right (by omega)
    · have hunskipped := hfirst.unskipped
      rw [← Bool.not_eq_true, recordSkip_skip, not_or, Bool.not_eq_true] at hunskipped
      exact hunskipped.1
  -- the status in front of the skipped slot is not the one which was changed
  have hprev : (t.recordSkip slot).status (slot - 1) = t.status (slot - 1) := by
    simp only [recordSkip, status_setStatus]
    rw [if_neg (by omega)]
  suffices hext : ∃ parents : List Block,
      (∀ b, b ∈ parents ↔ b ∈ (t.status (slot - 1)).notarFallbacks ∨
        ((t.status (slot - 1)).skip = true ∧ b ∈ (t.status (slot - 1)).parentsReady)) ∧
      Extends (fun s b => (slot + 1 ≤ s ∧ s ≤ last) ∧ b ∈ parents)
        (t.recordSkip slot, events) (t', events') by
    rcases hext with ⟨parents, hparents, hext⟩
    rcases hext.of_recorded (t := t) (by simp) rfl rfl with ⟨hprop, hraises⟩
    refine ⟨last, parents, not_le.mp hroot, hfirst', hparents, hprop, hraises, ?_, ?_⟩
    · intro s
      rw [hext.certificates.skip, recordSkip_skip]
    · intro s
      rw [hext.certificates.notarFallbacks, recordSkip_notarFallbacks]
  rw [← hprev]
  unfold ParentReadyTracker.status
  cases hstat : (t.recordSkip slot).slotStatuses.get? (slot - 1) with
  | none =>
    rw [hstat] at h
    cases h
    exact ⟨[], by simp, Extends.refl.congr (by simp)⟩
  | some status =>
    rw [hstat] at h
    simp only [Option.getD_some]
    have hparents : ∀ b, b ∈ status.notarFallbacks ++
        (if status.skip then status.parentsReady else []) ↔
        b ∈ status.notarFallbacks ∨ (status.skip = true ∧ b ∈ status.parentsReady) := by
      intro b
      cases status.skip <;> simp
    simp only at h
    generalize status.notarFallbacks ++
      (if status.skip then status.parentsReady else []) = parents at h hparents
    refine ⟨parents, hparents, ?_⟩
    split at h
    next hempty =>
      cases h
      rw [List.isEmpty_iff.mp hempty]
      exact Extends.refl.congr (by simp)
    next hnonempty =>
      have hne := mt List.isEmpty_iff.mpr hnonempty
      have hext := foldl_addPotentialParents hne slots (t.recordSkip slot, events)
      rw [Except.ok.inj h] at hext
      apply hext.congr
      intro s b
      rw [hmem]

theorem addNewSkip_spec (h : t.addNewSkip slot events = .ok (t', events')) :
    (t', events') = (t, events) ∨
      ∃ last parents, SkipAdded slot last parents (t, events) (t', events') := by
  by_cases hroot : slot ≤ t.root
  · rw [addNewSkip, if_pos hroot] at h
    cases h
    exact .inl rfl
  · exact .inr (addNewSkip_added hroot h)

end Operations

/-! ## The events -/

section Events

variable {t t' : ParentReadyTracker} {events events' events'' : List VotorEvent}

theorem Propagates.mem_events (h : Propagates pairs (t, events) (t', events')) (s : ℕ) (b : Block) :
    .parentReady s b ∈ events' ↔ .parentReady s b ∈ events ∨
      (s % numConsecutiveLeaderSlots = 0 ∧ pairs s b ∧ b ∉ (t.status s).parentsReady) := by
  rw [← count_pos_iff, ← count_pos_iff]
  by_cases hnew : s % numConsecutiveLeaderSlots = 0 ∧ pairs s b ∧ b ∉ (t.status s).parentsReady
  · have hcount := h.emitted s b hnew.1 hnew.2.1 hnew.2.2
    simp only at hcount
    simp [hnew, hcount]
  · have hcount := h.silent s b hnew
    simp only at hcount
    simp [hnew, hcount]

def SameOtherEvents (events events' : List VotorEvent) : Prop :=
  ∀ event, (∀ s b, event ≠ .parentReady s b) → (event ∈ events' ↔ event ∈ events)

theorem SameOtherEvents.refl : SameOtherEvents events events := fun _ _ => .rfl

theorem SameOtherEvents.trans (h : SameOtherEvents events events')
    (h' : SameOtherEvents events' events'') : SameOtherEvents events events'' :=
  fun event hother => (h' event hother).trans (h event hother)

theorem addParentReady_otherEvents (s : ℕ) (block : Block) :
    SameOtherEvents events (t.addParentReady events s block).2 := by
  unfold addParentReady
  split
  · exact SameOtherEvents.refl
  · intro event hother
    dsimp only
    split
    · simp [hother]
    · rfl

variable (block : Block)

theorem addFallbackParent_otherEvents (s : ℕ) :
    SameOtherEvents events (addFallbackParent block s t events).2 := by
  unfold addFallbackParent
  split
  · exact SameOtherEvents.refl
  · exact addParentReady_otherEvents s block

theorem notarFallbackLoop_otherEvents (fuel : ℕ) {s : ℕ}
    (h : notarFallbackLoop block fuel s t events = .ok (t', events')) :
    SameOtherEvents events events' := by
  induction fuel generalizing s t events with
  | zero => cases h
  | succ fuel ih =>
    have hround : SameOtherEvents events (addFallbackParent block s t events).2 :=
      addFallbackParent_otherEvents block s
    simp only [notarFallbackLoop] at h
    split at h
    · exact hround.trans (ih h)
    · have heq : (addFallbackParent block s t events).2 = events' :=
        congrArg Prod.snd (Except.ok.inj h)
      rw [← heq]
      exact hround

theorem addNotarFallbackOrStronger_otherEvents {block : Block}
    (h : t.addNotarFallbackOrStronger block events = .ok (t', events')) :
    SameOtherEvents events events' := by
  simp only [addNotarFallbackOrStronger] at h
  split at h
  · cases h
    exact SameOtherEvents.refl
  · split at h
    · exact notarFallbackLoop_otherEvents block _ h
    · cases h

theorem foldl_otherEvents {α : Type}
    (f : ParentReadyTracker × List VotorEvent → α → ParentReadyTracker × List VotorEvent)
    (hf : ∀ acc x, SameOtherEvents acc.2 (f acc x).2) (xs : List α)
    (acc : ParentReadyTracker × List VotorEvent) :
    SameOtherEvents acc.2 (xs.foldl f acc).2 := by
  induction xs generalizing acc with
  | nil => exact SameOtherEvents.refl
  | cons x xs ih => exact (hf acc x).trans (ih (f acc x))

theorem addPotentialParents_otherEvents (parents : List Block)
    (acc : ParentReadyTracker × List VotorEvent) (s : ℕ) :
    SameOtherEvents acc.2 (addPotentialParents parents acc s).2 :=
  foldl_otherEvents (fun acc block => acc.1.addParentReady acc.2 s block)
    (fun _ block => addParentReady_otherEvents s block) parents acc

theorem addNewSkip_otherEvents (h : t.addNewSkip slot events = .ok (t', events')) :
    SameOtherEvents events events' := by
  unfold addNewSkip at h
  split at h
  · cases h
    exact SameOtherEvents.refl
  · rcases futureSlots_horizon (t.recordSkip slot) slot with ⟨_, slots, hslots, _⟩
    simp only [hslots, bind, Except.bind] at h
    cases hstat : (t.recordSkip slot).slotStatuses.get? (slot - 1) with
    | none =>
      rw [hstat] at h
      cases h
      exact SameOtherEvents.refl
    | some status =>
      rw [hstat] at h
      dsimp only at h
      generalize status.notarFallbacks ++
        (if status.skip then status.parentsReady else []) = parents at h
      split at h
      · cases h
        exact SameOtherEvents.refl
      · have heq := congrArg Prod.snd (Except.ok.inj h)
        have hfold := foldl_otherEvents (addPotentialParents parents)
          (addPotentialParents_otherEvents parents) slots (t.recordSkip slot, events)
        rw [heq] at hfold
        exact hfold

end Events

end ParentReadyTracker
end RakuraiValidator.Votor
