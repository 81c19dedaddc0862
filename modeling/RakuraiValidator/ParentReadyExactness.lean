import Mathlib.Order.Bounds.Basic
import RakuraiValidator.ParentReadyPropagation

/-!
# The tracker computes the parent-ready condition

A block is a ready parent of a later slot when it is certified and all slots
between are skipped.  The tracker never evaluates this condition.  Each
operation keeps its lists equal to it for the parents from the root on, in any
order of certificates; over a run this gives the highest slot and the events.
-/

namespace RakuraiValidator.Votor
open List

variable {root : ℕ} {parents : List Block} {parentBlock b : Block}

namespace ParentReadyTracker

/-! ## The invariant -/

/-- The lists of ready parents of slots which are not pruned are exact. -/
structure TrackerInvariant (t : ParentReadyTracker) : Prop where
  notarFallbacks_slot : ∀ s, ∀ b ∈ (t.status s).notarFallbacks, b.slot = s
  ready_lt : ∀ s, ∀ b ∈ (t.status s).parentsReady, b.slot < s
  exact : ∀ b s, t.root ≤ b.slot → b.slot < s →
    (b ∈ (t.status s).parentsReady ↔ b ∈ (t.status b.slot).notarFallbacks ∧ t.Connected b.slot s)

variable {t t' : ParentReadyTracker} {events events' : List VotorEvent}

namespace TrackerInvariant

variable {last : ℕ}

theorem notarFallbackPropagated (h : TrackerInvariant t) {block : Block}
    (hadd : NotarFallbackPropagated block last (t, events) (t', events')) :
    TrackerInvariant t' where
  notarFallbacks_slot := by
    intro s b hb
    rcases (hadd.notarFallbacks s b).mp hb with hold | ⟨hs, heq⟩
    · exact h.notarFallbacks_slot s b hold
    · rw [hs, heq]
  ready_lt := by
    intro s b hb
    rcases (hadd.propagates.ready s b).mp hb with hold | ⟨hslot, heq⟩
    · exact h.ready_lt s b hold
    · rw [heq]
      omega
  exact := by
    intro b s hroot hlt
    have hconn : t'.Connected b.slot s ↔ t.Connected b.slot s := by
      simp only [Connected, hadd.skip]
    rw [hadd.propagates.root] at hroot
    rw [hadd.propagates.ready, hadd.notarFallbacks, hconn, h.exact b s hroot hlt]
    by_cases hb : b = block
    · -- the new block is propagated exactly to the slots which it is connected to
      subst hb
      rw [hadd.firstUnskipped.connected_iff]
      have hrange : b.slot + 1 ≤ s := hlt
      simp only [hrange, true_and, and_true]
      tauto
    · simp [hb]

variable {slot : ℕ}

theorem connected_skip
    (hskip : ∀ u, (t'.status u).skip = true ↔ (t.status u).skip = true ∨ u = slot)
    (parentSlot s : ℕ) :
    t'.Connected parentSlot s ↔ t.Connected parentSlot s ∨
      (parentSlot < slot ∧ slot < s ∧ t.Connected parentSlot slot ∧ t.Connected slot s) := by
  constructor
  · intro h
    by_cases hbetween : parentSlot < slot ∧ slot < s
    · right
      refine ⟨hbetween.1, hbetween.2, ?_, ?_⟩
      · intro u hafter hbefore
        exact ((hskip u).mp (h u hafter (by omega))).resolve_right (by omega)
      · intro u hafter hbefore
        exact ((hskip u).mp (h u (by omega) hbefore)).resolve_right (by omega)
    · left
      intro u hafter hbefore
      exact ((hskip u).mp (h u hafter hbefore)).resolve_right (by omega)
  · rintro (h | ⟨_, _, hbefore, hafter⟩)
    · intro u hlt hlt'
      exact (hskip u).mpr (.inl (h u hlt hlt'))
    · intro u hlt hlt'
      rcases lt_trichotomy u slot with hu | hu | hu
      · exact (hskip u).mpr (.inl (hbefore u hlt hu))
      · exact (hskip u).mpr (.inr hu)
      · exact (hskip u).mpr (.inl (hafter u hu hlt'))

section

variable (h : TrackerInvariant t)

include h

theorem mem_parents_iff (hadd : SkipAdded slot last parents (t, events) (t', events'))
    (hroot : t.root ≤ b.slot) :
    b ∈ parents ↔ b.slot < slot ∧ b ∈ (t.status b.slot).notarFallbacks ∧
      t.Connected b.slot slot := by
  have hslot : t.root < slot := hadd.root_lt
  rw [hadd.mem_parents]
  constructor
  · rintro (hcert | ⟨hskip, hready⟩)
    · have heq := h.notarFallbacks_slot _ b hcert
      refine ⟨by omega, heq ▸ hcert, ?_⟩
      intro u hafter hbefore
      omega
    · have hlt := h.ready_lt _ b hready
      rcases (h.exact b (slot - 1) hroot hlt).mp hready with ⟨hcert, hconn⟩
      refine ⟨by omega, hcert, ?_⟩
      intro u hafter hbefore
      by_cases hu : u = slot - 1
      · exact hu ▸ hskip
      · exact hconn u hafter (by omega)
  · rintro ⟨hlt, hcert, hconn⟩
    by_cases heq : b.slot = slot - 1
    · exact .inl (heq ▸ hcert)
    · right
      constructor
      · exact hconn (slot - 1) (by omega) (by omega)
      · apply (h.exact b (slot - 1) hroot (by omega)).mpr
        exact ⟨hcert, fun u hafter hbefore => hconn u hafter (by omega)⟩

theorem skipAdded (hadd : SkipAdded slot last parents (t, events) (t', events')) :
    TrackerInvariant t' where
  notarFallbacks_slot := by
    intro s b hb
    rw [hadd.notarFallbacks] at hb
    exact h.notarFallbacks_slot s b hb
  ready_lt := by
    intro s b hb
    rcases (hadd.propagates.ready s b).mp hb with hold | ⟨hslot, hpar⟩
    · exact h.ready_lt s b hold
    · have hslot' : t.root < slot := hadd.root_lt
      rcases (hadd.mem_parents b).mp hpar with hcert | ⟨_, hready⟩
      · have heq := h.notarFallbacks_slot _ b hcert
        omega
      · have hlt := h.ready_lt _ b hready
        omega
  exact := by
    intro b s hroot hlt
    rw [hadd.propagates.root] at hroot
    rw [hadd.propagates.ready, hadd.notarFallbacks, connected_skip hadd.skip,
      h.exact b s hroot hlt, h.mem_parents_iff hadd hroot,
      hadd.firstUnskipped.connected_iff, Nat.succ_le_iff]
    tauto

theorem setRoot (hroot : t.root ≤ root) : TrackerInvariant (t.setRoot root) where
  notarFallbacks_slot := by
    intro s b hb
    rw [status_setRoot] at hb
    split at hb
    · exact h.notarFallbacks_slot s b hb
    · contradiction
  ready_lt := by
    intro s b hb
    rw [status_setRoot] at hb
    split at hb
    · exact h.ready_lt s b hb
    · contradiction
  exact := by
    intro b s hle hlt
    have hle' : root ≤ b.slot := hle
    -- all slots from the parent on are kept
    have hkept : ∀ u, b.slot ≤ u → (t.setRoot root).status u = t.status u := by
      intro u hu
      rw [status_setRoot, if_pos (hle'.trans hu)]
    have hconn : (t.setRoot root).Connected b.slot s ↔ t.Connected b.slot s := by
      constructor
      · intro hold u hafter hbefore
        rw [← hkept u hafter.le]
        exact hold u hafter hbefore
      · intro hold u hafter hbefore
        rw [hkept u hafter.le]
        exact hold u hafter hbefore
    rw [hkept s hlt.le, hkept b.slot le_rfl, hconn]
    exact h.exact b s (hroot.trans hle') hlt

end

theorem new (hpar : parentBlock.slot < slot) :
    TrackerInvariant (ParentReadyTracker.new root slot parentBlock) where
  notarFallbacks_slot := by
    intro s b hb
    rcases (mem_notarFallbacks_new root hpar s b).mp hb with ⟨heq, hs⟩
    rw [heq, hs]
  ready_lt := by
    intro s b hb
    rcases (mem_parentsReady_new root hpar s b).mp hb with ⟨heq, hlt, _⟩
    rw [heq]
    exact hlt
  exact := by
    intro b s _ hlt
    rw [mem_parentsReady_new root hpar, mem_notarFallbacks_new root hpar]
    have hfirst : FirstUnskipped (ParentReadyTracker.new root slot parentBlock)
        (parentBlock.slot + 1) slot := by
      constructor
      · exact hpar
      · intro u hle hbefore
        exact (skip_new root hpar u).mpr ⟨hle, hbefore⟩
      · rw [← Bool.not_eq_true, skip_new root hpar]
        omega
    constructor
    · rintro ⟨heq, _, hle⟩
      subst heq
      exact ⟨⟨rfl, rfl⟩, hfirst.connected_iff.mpr hle⟩
    · rintro ⟨⟨heq, _⟩, hconn⟩
      subst heq
      exact ⟨rfl, hlt, hfirst.connected_iff.mp hconn⟩

end TrackerInvariant

/-! ## Runs -/

inductive Operation
  | addNewNotarFallbackOrStronger (block : Block)
  | addNewSkip (slot : ℕ)
  | setRoot (root : ℕ)

def Allowed (t : ParentReadyTracker) : Operation → Prop
  | .setRoot root => t.root ≤ root
  | _ => True

def apply (t : ParentReadyTracker) (events : List VotorEvent) :
    Operation → Except TrackerPanic (ParentReadyTracker × List VotorEvent)
  | .addNewNotarFallbackOrStronger block => t.addNewNotarFallbackOrStronger block events
  | .addNewSkip slot => t.addNewSkip slot events
  | .setRoot root => .ok (t.setRoot root, events)

/-- The runs of a tracker from its start, with the trackers visited and the events
emitted so far. -/
inductive Run (start : ParentReadyTracker) :
    List ParentReadyTracker → List VotorEvent → ParentReadyTracker → Prop
  | start : Run start [start] [] start
  | step {visited : List ParentReadyTracker} {events events' : List VotorEvent}
      {t t' : ParentReadyTracker} {op : Operation} (hrun : Run start visited events t)
      (hallowed : t.Allowed op) (hstep : t.apply events op = .ok (t', events')) :
      Run start (visited ++ [t']) events' t'

/-- What a run keeps beside the exactness of its current tracker. -/
structure RunInvariant (start : ParentReadyTracker) (visited : List ParentReadyTracker)
    (events : List VotorEvent) (t : ParentReadyTracker) : Prop where
  tracker : TrackerInvariant t
  start_mem : start ∈ visited
  current_mem : t ∈ visited
  kept : ∀ t' ∈ visited, ∀ s, ∀ b ∈ (t'.status s).parentsReady,
    b ∈ (t.status s).parentsReady ∨ s < t.root
  highest : IsGreatest ({start.highestWithParentReady} ∪
    {s | ∃ t' ∈ visited, (t'.status s).parentsReady ≠ []}) t.highestWithParentReady
  emitted : ∀ s b, s % numConsecutiveLeaderSlots = 0 →
    b ∉ (start.status s).parentsReady → (∃ t' ∈ visited, b ∈ (t'.status s).parentsReady) →
    events.count (.parentReady s b) = 1
  silent : ∀ s b, ¬ (s % numConsecutiveLeaderSlots = 0 ∧
    b ∉ (start.status s).parentsReady ∧ ∃ t' ∈ visited, b ∈ (t'.status s).parentsReady) →
    events.count (.parentReady s b) = 0

namespace RunInvariant

variable {start : ParentReadyTracker} {visited : List ParentReadyTracker}
  {P : ParentReadyTracker → Prop}

theorem mem_visited_or (h : ∃ t'' ∈ visited ++ [t'], P t'') : (∃ t'' ∈ visited, P t'') ∨ P t' := by
  rcases h with ⟨t'', hmem, hP⟩
  rcases mem_append.mp hmem with hold | hnew
  · exact .inl ⟨t'', hold, hP⟩
  · exact .inr (mem_singleton.mp hnew ▸ hP)

section

variable (h : RunInvariant start visited events t)

include h

theorem never_ready {s : ℕ} (hroot : t.root < s) (hnew : b ∉ (t.status s).parentsReady) :
    ∀ t' ∈ visited, b ∉ (t'.status s).parentsReady := by
  intro t' hmem hready
  rcases h.kept t' hmem s b hready with hkept | hpruned
  · exact hnew hkept
  · omega

theorem propagated {pairs : ℕ → Block → Prop} (htrack : TrackerInvariant t')
    (hprop : Propagates pairs (t, events) (t', events')) (hraises : Raises pairs t t')
    (hroot : ∀ s b, pairs s b → t.root < s) :
    RunInvariant start (visited ++ [t']) events' t' where
  tracker := htrack
  start_mem := mem_append_left _ h.start_mem
  current_mem := by simp
  kept := by
    intro t'' hmem s b hready
    rw [hprop.root, hprop.ready]
    rcases mem_append.mp hmem with hold | hnew
    · exact (h.kept t'' hold s b hready).imp_left .inl
    · rw [mem_singleton.mp hnew] at hready
      exact .inl ((hprop.ready s b).mp hready)
  highest := by
    constructor
    · rcases hraises.attained with heq | ⟨b, hpair⟩
      · rw [heq]
        rcases h.highest.1 with hstart | ⟨t'', hmem, hready⟩
        · exact .inl hstart
        · exact .inr ⟨t'', mem_append_left _ hmem, hready⟩
      · have hready := (hprop.ready _ b).mpr (.inr hpair)
        exact .inr ⟨t', by simp, ne_nil_of_mem hready⟩
    · rintro s (hstart | hready)
      · exact (h.highest.2 (.inl hstart)).trans hraises.le
      · rcases mem_visited_or hready with hold | hnew
        · exact (h.highest.2 (.inr hold)).trans hraises.le
        · rcases exists_mem_of_ne_nil _ hnew with ⟨b, hb⟩
          by_cases hknown : b ∈ (t.status s).parentsReady
          · have hle := h.highest.2 (.inr ⟨t, h.current_mem, ne_nil_of_mem hknown⟩)
            exact hle.trans hraises.le
          · have hpair := ((hprop.ready s b).mp hb).resolve_left hknown
            exact hraises.bound s b hpair hknown
  emitted := by
    intro s b hidx hstart hready
    by_cases hold : ∃ t'' ∈ visited, b ∈ (t''.status s).parentsReady
    · rw [hprop.silent s b]
      · exact h.emitted s b hidx hstart hold
      · rintro ⟨_, hpair, hnew⟩
        rcases hold with ⟨t'', hmem, hready⟩
        exact h.never_ready (hroot s b hpair) hnew t'' hmem hready
    · have hnew : b ∉ (t.status s).parentsReady := by
        intro hmem
        exact hold ⟨t, h.current_mem, hmem⟩
      have hready' := (mem_visited_or hready).resolve_left hold
      have hpair := ((hprop.ready s b).mp hready').resolve_left hnew
      rw [hprop.emitted s b hidx hpair hnew, h.silent s b]
      rintro ⟨_, _, hready''⟩
      exact hold hready''
  silent := by
    intro s b hnot
    rw [hprop.silent s b]
    · apply h.silent s b
      rintro ⟨hidx, hstart, t'', hmem, hready⟩
      exact hnot ⟨hidx, hstart, t'', mem_append_left _ hmem, hready⟩
    · rintro ⟨hidx, hpair, hnew⟩
      apply hnot
      refine ⟨hidx, ?_, t', by simp, (hprop.ready s b).mpr (.inr hpair)⟩
      exact h.never_ready (hroot s b hpair) hnew start h.start_mem

theorem rooted (hroot : t.root ≤ root) :
    RunInvariant start (visited ++ [t.setRoot root]) events (t.setRoot root) := by
  have hsub : ∀ s, ∀ b ∈ ((t.setRoot root).status s).parentsReady,
      b ∈ (t.status s).parentsReady := by
    intro s b hb
    rw [status_setRoot] at hb
    split at hb
    · exact hb
    · contradiction
  have hever : ∀ s b, (∃ t' ∈ visited ++ [t.setRoot root], b ∈ (t'.status s).parentsReady) →
      ∃ t' ∈ visited, b ∈ (t'.status s).parentsReady := by
    intro s b hready
    rcases mem_visited_or hready with hold | hnew
    · exact hold
    · exact ⟨t, h.current_mem, hsub s b hnew⟩
  constructor
  · exact h.tracker.setRoot hroot
  · exact mem_append_left _ h.start_mem
  · simp
  · intro t' hmem s b hready
    rw [status_setRoot]
    split
    next =>
      left
      rcases hever s b ⟨t', hmem, hready⟩ with ⟨t'', hmem', hready'⟩
      rcases h.kept t'' hmem' s b hready' with hkept | hpruned
      · exact hkept
      · omega
    next hbelow => exact .inr (not_le.mp hbelow)
  · constructor
    · rcases h.highest.1 with hstart | ⟨t', hmem, hready⟩
      · exact .inl hstart
      · exact .inr ⟨t', mem_append_left _ hmem, hready⟩
    · rintro s (hstart | ⟨t', hmem, hready⟩)
      · exact h.highest.2 (.inl hstart)
      · rcases exists_mem_of_ne_nil _ hready with ⟨b, hb⟩
        rcases hever s b ⟨t', hmem, hb⟩ with ⟨t'', hmem', hready'⟩
        exact h.highest.2 (.inr ⟨t'', hmem', ne_nil_of_mem hready'⟩)
  · intro s b hidx hstart hready
    exact h.emitted s b hidx hstart (hever s b hready)
  · intro s b hnot
    apply h.silent s b
    rintro ⟨hidx, hstart, t', hmem, hready⟩
    exact hnot ⟨hidx, hstart, t', mem_append_left _ hmem, hready⟩

end

theorem initial (htrack : TrackerInvariant t)
    (hhighest : ∀ s, (t.status s).parentsReady ≠ [] → s ≤ t.highestWithParentReady) :
    RunInvariant t [t] [] t where
  tracker := htrack
  start_mem := by simp
  current_mem := by simp
  kept := by
    intro t' hmem s b hready
    rw [mem_singleton.mp hmem] at hready
    exact .inl hready
  highest := by
    constructor
    · exact .inl rfl
    · rintro s (hstart | ⟨t', hmem, hready⟩)
      · exact le_of_eq hstart
      · rw [mem_singleton.mp hmem] at hready
        exact hhighest s hready
  emitted := by
    rintro s b _ hstart ⟨t', hmem, hready⟩
    rw [mem_singleton.mp hmem] at hready
    exact absurd hready hstart
  silent := by simp

theorem step (h : RunInvariant start visited events t) {op : Operation}
    (hallow : t.Allowed op) (hstep : t.apply events op = .ok (t', events')) :
    RunInvariant start (visited ++ [t']) events' t' := by
  -- an operation which changes nothing repeats the current tracker
  have hunchanged : RunInvariant start (visited ++ [t]) events t := by
    apply h.propagated h.tracker Propagates.refl Raises.refl
    simp
  cases op with
  | addNewNotarFallbackOrStronger block =>
    rcases addNewNotarFallbackOrStronger_spec hstep with heq | ⟨last, hadd⟩
    · cases heq
      exact hunchanged
    · apply h.propagated (h.tracker.notarFallbackPropagated hadd.toNotarFallbackPropagated)
        hadd.propagates hadd.raises
      rintro s b ⟨⟨hle, _⟩, _⟩
      have hroot : t.root < block.slot := hadd.root_lt
      omega
  | addNewSkip slot =>
    rcases addNewSkip_spec hstep with heq | ⟨last, parents, hadd⟩
    · cases heq
      exact hunchanged
    · apply h.propagated (h.tracker.skipAdded hadd) hadd.propagates hadd.raises
      rintro s b ⟨⟨hle, _⟩, _⟩
      have hroot : t.root < slot := hadd.root_lt
      omega
  | setRoot root =>
    cases hstep
    exact h.rooted hallow

end RunInvariant

theorem Run.invariant {slot : ℕ} {visited : List ParentReadyTracker} {events : List VotorEvent}
    {t : ParentReadyTracker} (h : Run (new root slot parentBlock) visited events t)
    (hpar : parentBlock.slot < slot) :
    RunInvariant (new root slot parentBlock) visited events t := by
  induction h with
  | start =>
    apply RunInvariant.initial (TrackerInvariant.new hpar)
    intro s hready
    rcases exists_mem_of_ne_nil _ hready with ⟨b, hb⟩
    rcases (mem_parentsReady_new root hpar s b).mp hb with ⟨_, _, hle⟩
    exact hle.trans (le_max_left _ _)
  | step _ hallow hstep ih => exact ih.step hallow hstep

theorem apply_ne_loopNotFinished (t : ParentReadyTracker) (events : List VotorEvent)
    (op : Operation) : t.apply events op ≠ .error .loopNotFinished := by
  intro h
  cases op with
  | addNewNotarFallbackOrStronger block =>
    simp only [apply, addNewNotarFallbackOrStronger, addNotarFallbackOrStronger] at h
    split at h
    · contradiction
    · split at h
      · contradiction
      · split at h
        · rcases notarFallbackLoop_horizon (t.recordNotarFallback block) events block
            with ⟨last, result, hloop, _⟩
          rw [hloop] at h
          contradiction
        · cases h
  | addNewSkip slot =>
    simp only [apply, addNewSkip] at h
    split at h
    · contradiction
    · rcases futureSlots_horizon (t.recordSkip slot) slot with ⟨last, slots, hslots, _⟩
      simp only [hslots, bind, Except.bind] at h
      split at h
      · contradiction
      · split_ifs at h
  | setRoot root => contradiction

/-- The tracker computes the parent-ready condition, its highest slot, and one
event for each pair which becomes ready at the start of a window. -/
theorem parentReady_exact {root slot : ℕ} {parentBlock : Block}
    {visited : List ParentReadyTracker} {events : List VotorEvent} {t : ParentReadyTracker}
    (hparent : parentBlock.slot < slot) (hrun : Run (new root slot parentBlock) visited events t) :
    (∀ op, t.apply events op ≠ .error .loopNotFinished) ∧
    (∀ b s, t.root ≤ b.slot → b.slot < s →
      (b ∈ (t.status s).parentsReady ↔
        b ∈ (t.status b.slot).notarFallbacks ∧
          ∀ u, b.slot < u → u < s → (t.status u).skip = true)) ∧
    IsGreatest ({(new root slot parentBlock).highestWithParentReady} ∪
      {s | ∃ t' ∈ visited, (t'.status s).parentsReady ≠ []}) t.highestWithParentReady ∧
    (∀ s b, s % numConsecutiveLeaderSlots = 0 →
      b ∉ ((new root slot parentBlock).status s).parentsReady →
      (∃ t' ∈ visited, b ∈ (t'.status s).parentsReady) →
      events.count (.parentReady s b) = 1) ∧
    (∀ s b, ¬ (s % numConsecutiveLeaderSlots = 0 ∧
      b ∉ ((new root slot parentBlock).status s).parentsReady ∧
      ∃ t' ∈ visited, b ∈ (t'.status s).parentsReady) →
      events.count (.parentReady s b) = 0) := by
  have hinvariant := hrun.invariant hparent
  exact ⟨t.apply_ne_loopNotFinished events, hinvariant.tracker.exact, hinvariant.highest,
    hinvariant.emitted, hinvariant.silent⟩

/-- Certificates out of order: the slots 3 and 2 are skipped before and after the
block in slot 1 is certified. -/
theorem parentReady_exact_outOfOrder :
    ∃ visited events t, Run (new 0 1 ⟨0, 5⟩) visited events t ∧
      events.count (.parentReady 4 ⟨1, 7⟩) = 1 := by
  have hskip : Run (new 0 1 ⟨0, 5⟩) _ _ _ :=
    Run.step .start (show Allowed _ (.addNewSkip 3) from trivial) rfl
  have hnotar := hskip.step
    (show Allowed _ (.addNewNotarFallbackOrStronger ⟨1, 7⟩) from trivial) rfl
  have hrun := hnotar.step (show Allowed _ (.addNewSkip 2) from trivial) rfl
  refine ⟨_, _, _, hrun, ?_⟩
  apply (parentReady_exact (by decide) hrun).2.2.2.1
  · decide
  · decide
  · exact ⟨_, mem_append_right _ (mem_singleton.mpr rfl), by decide⟩

/-! ## Block production -/

/-- A block certified as notarized after which only skipped slots come. -/
def CanParent (t : ParentReadyTracker) (slot : ℕ) (block : Block) : Prop :=
  block.slot < slot ∧ block ∈ (t.status block.slot).notarFallbacks ∧ t.Connected block.slot slot

/-- A leader builds on the least block that it can build on, unless a later slot was ready. -/
theorem blockProductionParent_exact {slot : ℕ} {visited : List ParentReadyTracker}
    (hparent : parentBlock.slot < slot) (hrun : Run (new root slot parentBlock) visited events t)
    (s : ℕ) :
    (t.blockProductionParent s = .missedWindow ↔
      s < (new root slot parentBlock).highestWithParentReady ∨
        ∃ t' ∈ visited, ∃ u > s, (t'.status u).parentsReady ≠ []) ∧
    (∀ block, t.blockProductionParent s = .parent block →
      (t.root ≤ block.slot → t.CanParent s block) ∧
        ∀ other, t.root ≤ other.slot → t.CanParent s other → block ≤ other) ∧
    (t.blockProductionParent s = .parentNotReady →
      ∀ other, t.root ≤ other.slot → ¬ t.CanParent s other) := by
  have hinv := hrun.invariant hparent
  have hready : ∀ b, t.root ≤ b.slot → t.CanParent s b → b ∈ (t.status s).parentsReady :=
    fun b hroot hcan => (hinv.tracker.exact b s hroot hcan.1).mpr hcan.2
  have hlate : s < t.highestWithParentReady ↔
      s < (new root slot parentBlock).highestWithParentReady ∨
        ∃ t' ∈ visited, ∃ u > s, (t'.status u).parentsReady ≠ [] := by
    rw [lt_isLUB_iff hinv.highest.isLUB]
    constructor
    · rintro ⟨u, hstart | ⟨t', hvisited, hne⟩, hlt⟩
      · exact .inl (hlt.trans_eq hstart)
      · exact .inr ⟨t', hvisited, u, hlt, hne⟩
    · rintro (hlt | ⟨t', hvisited, u, hlt, hne⟩)
      · exact ⟨_, .inl rfl, hlt⟩
      · exact ⟨u, .inr ⟨t', hvisited, hne⟩, hlt⟩
  have hmin : (t.slotStatuses.get? s).bind (fun status => status.parentsReady.min?) =
      (t.status s).parentsReady.min? := by
    unfold status
    cases t.slotStatuses.get? s <;> rfl
  rw [← hlate, blockProductionParent, hmin]
  by_cases hlt : s < t.highestWithParentReady
  · simp [hlt]
  rw [if_neg hlt]
  cases hparents : (t.status s).parentsReady.min? with
  | none =>
    refine ⟨by simp [hlt], by simp, ?_⟩
    intro _ other hroot hcan
    simpa [min?_eq_none_iff.mp hparents] using hready other hroot hcan
  | some block =>
    obtain ⟨hmem, hle⟩ := min?_eq_some_iff.mp hparents
    refine ⟨by simp [hlt], ?_, by simp⟩
    rintro _ ⟨⟩
    have hbelow := hinv.tracker.ready_lt s block hmem
    exact ⟨fun hroot => ⟨hbelow, (hinv.tracker.exact block s hroot hbelow).mp hmem⟩,
      fun other hroot hcan => hle other (hready other hroot hcan)⟩

/-- After the slots 2 and 3 are skipped the next leader builds on the block in slot 1. -/
theorem blockProductionParent_exact_skipped :
    ∃ visited events t, Run (new 0 1 ⟨0, 5⟩) visited events t ∧
      t.blockProductionParent 4 = .parent ⟨1, 7⟩ ∧ t.CanParent 4 ⟨1, 7⟩ := by
  have hnotar : Run (new 0 1 ⟨0, 5⟩) _ _ _ := Run.step .start
    (show Allowed _ (.addNewNotarFallbackOrStronger ⟨1, 7⟩) from trivial) rfl
  have hskip := hnotar.step (show Allowed _ (.addNewSkip 2) from trivial) rfl
  have hrun := hskip.step (show Allowed _ (.addNewSkip 3) from trivial) rfl
  exact ⟨_, _, _, hrun, by decide,
    ((blockProductionParent_exact (by decide) hrun 4).2.1 _ (by decide)).1 (by decide)⟩

end ParentReadyTracker
end RakuraiValidator.Votor
