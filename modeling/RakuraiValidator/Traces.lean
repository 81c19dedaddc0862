import Mathlib.Data.List.Perm.Basic
import Mathlib.Tactic

/-!
# Traces

Facts about finite traces which do not depend on what is recorded.  A
property of every event and its past extends along an append, which is how
properties of whole runs follow from properties of single steps.  Two traces
of the same events, in which dependent events occur in the same order, lead to
the same state.  And a loop whose rounds keep an invariant runs to its end.
-/

namespace RakuraiValidator.Traces

open List

/-! ## Properties of events and their past -/

section Causal

variable {ε : Type} {P : List ε → ε → Prop} {trace new : List ε}

def Causal (P : List ε → ε → Prop) (trace : List ε) : Prop :=
  ∀ past event future, trace = past ++ event :: future → P past event

theorem causal_nil : Causal P [] := by
  intro past event future h
  simp at h

theorem Causal.append (h : Causal P trace)
    (hnew : ∀ past event future, new = past ++ event :: future → P (trace ++ past) event) :
    Causal P (trace ++ new) := by
  intro past event future heq
  rcases append_eq_append_iff.mp heq with ⟨between, hpast, hnext⟩ | ⟨between, htrace, hnext⟩
  · subst hpast
    exact hnew between event future hnext
  · cases between with
    | nil =>
      rw [append_nil] at htrace
      rw [nil_append] at hnext
      simpa [htrace] using hnew [] event future hnext.symm
    | cons head between =>
      rw [cons_append, cons.injEq] at hnext
      obtain ⟨rfl, _⟩ := hnext
      exact h past event between htrace

variable {event : ε}

theorem Causal.concat (h : Causal P trace) (hevent : P trace event) :
    Causal P (trace ++ [event]) := by
  apply h.append
  intro past event' future heq
  cases past with
  | nil =>
    rw [nil_append, cons.injEq] at heq
    rw [← heq.1, append_nil]
    exact hevent
  | cons head past => simp at heq

theorem Causal.of_mem (h : Causal P trace) (hevent : event ∈ trace) :
    ∃ past, past ⊆ trace ∧ P past event := by
  rcases append_of_mem hevent with ⟨past, future, heq⟩
  refine ⟨past, ?_, h past event future heq⟩
  rw [heq]
  exact subset_append_left _ _

end Causal

/-! ## Reordering independent events -/

section Reordering

variable {σ ε : Type} (step : σ → ε → σ) (Dependent : ε → ε → Prop)

theorem foldl_move_front (hcomm : ∀ s x y, ¬ Dependent x y → step (step s x) y = step (step s y) x)
    (x : ε) (trace : List ε) (hindep : ∀ y ∈ trace, ¬ Dependent x y) (s : σ) :
    (trace ++ [x]).foldl step s = (x :: trace).foldl step s := by
  induction trace generalizing s with
  | nil => rfl
  | cons head rest ih =>
    have hhead : ¬ Dependent x head := hindep head (by simp)
    have hrest := ih (fun y hy => hindep y (by simp [hy])) (step s head)
    rw [cons_append, foldl_cons, hrest, foldl_cons, foldl_cons, foldl_cons, hcomm s x head hhead]

theorem not_sublist_pair_of_split {x y : ε} {before after : List ε}
    (hnodup : (before ++ x :: after).Nodup) (hy : y ∈ before) :
    ¬ [x, y].Sublist (before ++ x :: after) := by
  induction before with
  | nil => simp at hy
  | cons head rest ih =>
    rw [cons_append, nodup_cons] at hnodup
    obtain ⟨hhead, hrest⟩ := hnodup
    intro hsubl
    have htail : [x, y].Sublist (rest ++ x :: after) := by
      rcases sublist_cons_iff.mp hsubl with htail | ⟨_, heq, _⟩
      · exact htail
      · rw [cons.injEq] at heq
        exact absurd (heq.1 ▸ mem_append_right rest mem_cons_self) hhead
    rcases mem_cons.mp hy with rfl | hy
    · exact hhead (htail.subset (by simp))
    · exact ih hrest hy htail

theorem sublist_append_of_not_mem {x : ε} {events before after : List ε}
    (hsubl : events.Sublist (before ++ x :: after)) (hx : x ∉ events) :
    events.Sublist (before ++ after) := by
  obtain ⟨first, second, rfl, hfirst, hsecond⟩ := sublist_append_iff.mp hsubl
  refine hfirst.append ?_
  rcases sublist_cons_iff.mp hsecond with hsecond | ⟨_, rfl, _⟩
  · exact hsecond
  · simp at hx

theorem foldl_eq_of_perm (hcomm : ∀ s x y, ¬ Dependent x y → step (step s x) y = step (step s y) x)
    {trace trace' : List ε} (hperm : trace.Perm trace') (hnodup : trace.Nodup)
    (horder : ∀ x y, Dependent x y → [x, y].Sublist trace' → [x, y].Sublist trace) (s : σ) :
    trace.foldl step s = trace'.foldl step s := by
  induction trace' generalizing trace s with
  | nil => rw [hperm.eq_nil]
  | cons x rest ih =>
    obtain ⟨before, after, rfl⟩ := append_of_mem (hperm.mem_iff.mpr mem_cons_self)
    have hrest : (before ++ after).Perm rest := (perm_middle.symm.trans hperm).cons_inv
    have hx : x ∉ rest := (nodup_cons.mp (hperm.nodup_iff.mp hnodup)).1
    have hindep : ∀ y ∈ before, ¬ Dependent x y := by
      intro y hy hdep
      refine not_sublist_pair_of_split hnodup hy (horder x y hdep ?_)
      have hmem : y ∈ rest := hrest.mem_iff.mp (mem_append_left _ hy)
      exact (singleton_sublist.mpr hmem).cons_cons x
    have hnodup' : (before ++ after).Nodup :=
      hnodup.sublist ((sublist_cons_self x after).append_left before)
    have horder' : ∀ y z, Dependent y z → [y, z].Sublist rest →
        [y, z].Sublist (before ++ after) := by
      intro y z hdep hsubl
      refine sublist_append_of_not_mem (horder y z hdep (hsubl.cons x)) ?_
      exact fun hmem => hx (hsubl.subset hmem)
    calc
      (before ++ x :: after).foldl step s = after.foldl step ((before ++ [x]).foldl step s) := by
            simp [foldl_append]
      _ = after.foldl step ((x :: before).foldl step s) := by
            rw [foldl_move_front step Dependent hcomm x before hindep s]
      _ = (before ++ after).foldl step (step s x) := by
            simp [foldl_append]
      _ = (x :: rest).foldl step s := ih hrest hnodup' horder' (step s x)

end Reordering

/-! ## Loops that may fail -/

theorem foldlM_ok_of_step {σ β ε : Type} (body : σ → β → Except ε σ) (I : List β → σ → Prop)
    (hstep : ∀ item items state, I (item :: items) state →
      ∃ next, body state item = .ok next ∧ I items next)
    (items : List β) {state : σ} (h : I items state) :
    ∃ last, items.foldlM body state = .ok last ∧ I [] last := by
  induction items generalizing state with
  | nil => exact ⟨state, rfl, h⟩
  | cons item items ih =>
    obtain ⟨next, hnext, hkeep⟩ := hstep item items state h
    obtain ⟨last, hlast, hdone⟩ := ih hkeep
    constructor
    constructor
    · simp only [foldlM_cons, hnext]
      exact hlast
    · exact hdone

theorem foldlM_invariant {σ β ε : Type} {body : σ → β → Except ε σ} (I : List β → σ → Prop)
    (hstep : ∀ done item state next, I done state → body state item = .ok next →
      I (done ++ [item]) next)
    {items : List β} {state last : σ} (hinit : I [] state)
    (h : items.foldlM body state = .ok last) : I items last := by
  induction items using reverseRecOn generalizing last with
  | nil => exact Except.ok.inj h ▸ hinit
  | append_singleton items item ih =>
    rw [foldlM_append] at h
    cases hbefore : items.foldlM body state with
    | error e =>
      rw [hbefore] at h
      cases h
    | ok middle =>
      rw [hbefore] at h
      apply hstep items item middle last (ih hbefore)
      rw [← h]
      cases hlast : body middle item <;> simp [foldlM_cons, hlast, bind, Except.bind, pure,
        Except.pure]

/-! ## Loops over distinct keys -/

theorem foldl_view_of_nodup {σ κ ν : Type} [DecidableEq κ] {step : σ → κ → σ} (view : σ → κ → ν)
    {g : ν → ν} (hstep : ∀ state key other,
      view (step state key) other = if other = key then g (view state key) else view state other)
    {keys : List κ} (hnodup : keys.Nodup) (state : σ) (other : κ) :
    view (keys.foldl step state) other =
      if other ∈ keys then g (view state other) else view state other := by
  induction keys generalizing state with
  | nil => simp
  | cons key keys ih =>
    obtain ⟨hkey, hrest⟩ := nodup_cons.mp hnodup
    rw [foldl_cons, ih hrest, hstep]
    by_cases hother : other = key
    · subst hother
      simp [hkey]
    · simp [hother]

end RakuraiValidator.Traces
