import Mathlib.Data.List.Nodup
import Mathlib.Logic.Relation
import Mathlib.Tactic

/-!
# Walks through a forest

A forest is given by the parents of its nodes.  Following the parents from a node lists the nodes
above it; a worklist that replaces each node by its children collects the nodes below it, except
those behind a node where it stops.  Both walks are loops with a bound on their rounds, and the
bound is never reached when it is the number of nodes.
-/

namespace RakuraiValidator.Forests

open Finset List Relation.ReflTransGen

variable {κ ε : Type}

def Ancestor (parent : κ → Option κ) : κ → κ → Prop :=
  Relation.ReflTransGen fun above below => parent below = some above

variable {parent : κ → Option κ} {a b c : κ}

section Ancestors

variable {p : κ}

theorem Ancestor.refl (a : κ) : Ancestor parent a a := Relation.ReflTransGen.refl

theorem Ancestor.of_parent (h : parent c = some p) : Ancestor parent p c :=
  single h

theorem Ancestor.trans (hab : Ancestor parent a b) (hbc : Ancestor parent b c) :
    Ancestor parent a c :=
  Relation.ReflTransGen.trans hab hbc

theorem Ancestor.below (hap : Ancestor parent a p) (hpar : parent c = some p) :
    Ancestor parent a c :=
  hap.trans (Ancestor.of_parent hpar)

theorem Ancestor.above (h : Ancestor parent a c) (hne : a ≠ c) (hpar : parent c = some p) :
    Ancestor parent a p := by
  rcases cases_tail h with heq | ⟨q, hq, hqc⟩
  · exact absurd heq.symm hne
  · rw [hpar, Option.some.injEq] at hqc
    subst hqc
    exact hq

theorem Ancestor.eq_of_parent_none (h : Ancestor parent a c) (hpar : parent c = none) : a = c := by
  rcases cases_tail h with heq | ⟨q, _, hqc⟩
  · exact heq.symm
  · rw [hpar] at hqc
    contradiction

theorem Ancestor.comparable (hac : Ancestor parent a c) (hbc : Ancestor parent b c) :
    Ancestor parent a b ∨ Ancestor parent b a := by
  induction hac with
  | refl => exact .inr hbc
  | tail hap hpar ih =>
    rename_i q r
    by_cases heq : b = r
    · subst heq
      exact .inl (Ancestor.below hap hpar)
    · exact ih (hbc.above heq hpar)

theorem Ancestor.child_towards (h : Ancestor parent a c) (hne : a ≠ c) :
    ∃ b, parent b = some a ∧ Ancestor parent b c := by
  rcases cases_head h with heq | ⟨b, hb, hbc⟩
  · exact absurd heq hne
  · exact ⟨b, hb, hbc⟩

end Ancestors

section Ordered

variable [LinearOrder κ] (hlt : ∀ {c p}, parent c = some p → p < c)
include hlt

theorem Ancestor.le (h : Ancestor parent a c) : a ≤ c := by
  induction h with
  | refl => exact le_rfl
  | tail _ hpar ih => exact ih.trans (hlt hpar).le

theorem Ancestor.antisymm (hab : Ancestor parent a b) (hba : Ancestor parent b a) : a = b :=
  le_antisymm (hab.le hlt) (hba.le hlt)

theorem induction_upwards (nodes : Finset κ) (hmem : ∀ {c p}, parent c = some p → c ∈ nodes)
    {motive : κ → Prop} (step : ∀ k, (∀ c, parent c = some k → motive c) → motive k) (k : κ) :
    motive k := by
  induction hcard : (nodes.filter (k < ·)).card using Nat.strong_induction_on generalizing k with
  | _ card ih =>
    apply step
    intro c hc
    refine ih _ ?_ c rfl
    rw [← hcard]
    apply card_lt_card
    rw [ssubset_iff_of_subset]
    · exact ⟨c, mem_filter.mpr ⟨hmem hc, hlt hc⟩, by simp⟩
    · exact monotone_filter_right _ fun x _ hx => (hlt hc).trans hx

end Ordered

/-! ## The nodes above a node -/

def ancestorsWithin (parent : κ → Option κ) : ℕ → κ → List κ
  | 0, _ => []
  | fuel + 1, node =>
    match parent node with
    | none => []
    | some above => above :: ancestorsWithin parent fuel above

variable {fuel : ℕ}

variable {nodes : Finset κ}

section Above

variable [LinearOrder κ]

theorem mem_ancestorsWithin (hlt : ∀ {c p}, parent c = some p → p < c)
    (hmem : ∀ {c p}, parent c = some p → p ∈ nodes) {a c : κ}
    (hfuel : (nodes.filter (· < c)).card ≤ fuel) :
    a ∈ ancestorsWithin parent fuel c ↔ ∃ p, parent c = some p ∧ Ancestor parent a p := by
  induction fuel generalizing c with
  | zero =>
    -- a parent would be a smaller node
    have hempty := Finset.card_eq_zero.mp (Nat.le_zero.mp hfuel)
    have hnone : ∀ p, parent c ≠ some p := by
      intro p hpar
      have hp : p ∈ nodes.filter (· < c) := Finset.mem_filter.mpr ⟨hmem hpar, hlt hpar⟩
      rw [hempty] at hp
      exact notMem_empty p hp
    simp [ancestorsWithin, hnone]
  | succ fuel ih =>
    simp only [ancestorsWithin]
    cases hpar : parent c with
    | none => simp
    | some p =>
      have hfewer : (nodes.filter (· < p)).card < (nodes.filter (· < c)).card := by
        apply card_lt_card
        rw [ssubset_iff_of_subset]
        · exact ⟨p, Finset.mem_filter.mpr ⟨hmem hpar, hlt hpar⟩, by simp⟩
        · exact monotone_filter_right _ fun x _ hx => hx.trans (hlt hpar)
      simp only [List.mem_cons, ih (by omega : (nodes.filter (· < p)).card ≤ fuel),
        Option.some.injEq, exists_eq_left']
      constructor
      · intro h
        rcases h with heq | ⟨q, hq, haq⟩
        · rw [heq]
          exact Ancestor.refl p
        · exact haq.below hq
      · intro h
        rcases cases_tail h with hpa | ⟨q, haq, hqp⟩
        · exact .inl hpa.symm
        · exact .inr ⟨q, hqp, haq⟩

theorem lt_of_mem_ancestorsWithin (hlt : ∀ {c p}, parent c = some p → p < c) {a c : κ}
    (h : a ∈ ancestorsWithin parent fuel c) : a < c := by
  induction fuel generalizing c with
  | zero => exact absurd h not_mem_nil
  | succ fuel ih =>
    simp only [ancestorsWithin] at h
    cases hpar : parent c with
    | none => simp [hpar] at h
    | some p =>
      simp only [hpar, List.mem_cons] at h
      rcases h with heq | hmore
      · rw [heq]
        exact hlt hpar
      · exact (ih hmore).trans (hlt hpar)

theorem ancestorsWithin_nodup (hlt : ∀ {c p}, parent c = some p → p < c) (fuel : ℕ) (c : κ) :
    (ancestorsWithin parent fuel c).Nodup := by
  induction fuel generalizing c with
  | zero => exact nodup_nil
  | succ fuel ih =>
    simp only [ancestorsWithin]
    cases parent c with
    | none => exact nodup_nil
    | some p =>
      apply nodup_cons.mpr
      exact ⟨fun h => lt_irrefl p (lt_of_mem_ancestorsWithin hlt h), ih p⟩

end Above

/-! ## The nodes below a node -/

/-- A worklist which collects the nodes it takes and puts their children on top, last child
first.  Nodes at which it stops are dropped. -/
def collect (children : κ → Except ε (List κ)) (stop : κ → Bool) (exhausted : ε) :
    ℕ → List κ → List κ → Except ε (List κ)
  | _, [], seen => .ok seen
  | 0, _ :: _, _ => .error exhausted
  | fuel + 1, node :: pending, seen =>
    if stop node then collect children stop exhausted fuel pending seen
    else do
      let below ← children node
      collect children stop exhausted fuel (below.reverse ++ pending) (node :: seen)

section Below

variable {children : κ → Except ε (List κ)} {stop : κ → Bool} {exhausted : ε} {root : κ}

/-- What a worklist has done.  The taken nodes are those it collected and those where it stopped. -/
structure Collected (parent : κ → Option κ) (stop : κ → Bool) (nodes : Finset κ) (root : κ)
    (pending seen taken : List κ) : Prop where
  nodup : (pending ++ taken).Nodup
  seen_eq : seen = taken.filter fun node => !stop node
  known : ∀ node ∈ pending ++ taken, node ∈ nodes ∧ Ancestor parent root node
  reached : ∀ node ∈ pending ++ taken,
    node = root ∨ ∃ above ∈ taken, stop above = false ∧ parent node = some above
  closed : ∀ above ∈ taken, stop above = false → ∀ node, parent node = some above →
    node ∈ pending ++ taken
  root_mem : root ∈ pending ++ taken

namespace Collected

variable {pending seen taken : List κ} {node : κ}

theorem start (hroot : root ∈ nodes) : Collected parent stop nodes root [root] [] [] where
  nodup := by simp
  seen_eq := rfl
  known := by
    intro node hnode
    rw [List.append_nil, List.mem_singleton] at hnode
    subst hnode
    exact ⟨hroot, Ancestor.refl node⟩
  reached := by
    intro node hnode
    exact .inl (by simpa using hnode)
  closed := by simp
  root_mem := by simp

section

variable (h : Collected parent stop nodes root (node :: pending) seen taken)

include h

theorem length_lt [DecidableEq κ] : taken.length < nodes.card := by
  have hsub : (node :: taken).toFinset ⊆ nodes := by
    intro x hx
    rw [mem_toFinset, List.mem_cons] at hx
    apply (h.known x _).1
    rcases hx with rfl | hx
    · simp
    · exact mem_append_right _ hx
  have hnodup : (node :: taken).Nodup :=
    List.Nodup.sublist ((sublist_append_right pending taken).cons_cons node) h.nodup
  have hcard := card_le_card hsub
  rw [toFinset_card_of_nodup hnodup, length_cons] at hcard
  omega

theorem drop (hstop : stop node = true) :
    Collected parent stop nodes root pending seen (node :: taken) := by
  have hperm : (pending ++ node :: taken).Perm (node :: pending ++ taken) := perm_middle
  have hkeep : ∀ x, x ∈ pending ++ node :: taken ↔ x ∈ node :: pending ++ taken :=
    fun x => hperm.mem_iff
  constructor
  · exact hperm.nodup_iff.mpr h.nodup
  · rw [h.seen_eq, filter_cons_of_neg (by simp [hstop])]
  · intro x hx
    exact h.known x ((hkeep x).mp hx)
  · intro x hx
    rcases h.reached x ((hkeep x).mp hx) with heq | ⟨above, hmem, hfree, hpar⟩
    · exact .inl heq
    · exact .inr ⟨above, mem_cons_of_mem _ hmem, hfree, hpar⟩
  · intro above habove hfree x hpar
    rcases List.mem_cons.mp habove with rfl | habove
    · rw [hstop] at hfree
      contradiction
    · exact (hkeep x).mpr (h.closed above habove hfree x hpar)
  · exact (hkeep root).mpr h.root_mem

end

theorem take [LinearOrder κ] (hlt : ∀ {c p}, parent c = some p → p < c)
    (hmem : ∀ {c p}, p ∈ nodes → parent c = some p → c ∈ nodes) {below : List κ}
    (h : Collected parent stop nodes root (node :: pending) seen taken) (hstop : stop node = false)
    (hnodup : below.Nodup) (hbelow : ∀ c, c ∈ below ↔ parent c = some node) :
    Collected parent stop nodes root (below.reverse ++ pending) (node :: seen) (node :: taken) := by
  have hkeep : ∀ x, x ∈ (below.reverse ++ pending) ++ node :: taken ↔
      x ∈ below ∨ x ∈ node :: pending ++ taken := by
    intro x
    simp only [List.mem_append, List.mem_cons, List.mem_reverse]
    tauto
  have hnode : node ∈ node :: pending ++ taken := by simp
  have hanc := (h.known node hnode).2
  -- a child of the node was neither waiting nor taken, because the node was not taken yet
  have hfresh : ∀ c ∈ below, c ∉ node :: pending ++ taken := by
    intro c hc hold
    have hpar := (hbelow c).mp hc
    rcases h.reached c hold with heq | ⟨above, habove, _, hother⟩
    · subst heq
      exact absurd (hanc.le hlt) (not_le.mpr (hlt hpar))
    · rw [hpar, Option.some.injEq] at hother
      subst hother
      have hnot := (List.nodup_cons.mp h.nodup).1
      exact hnot (mem_append_right _ habove)
  constructor
  · rw [append_assoc]
    have hperm : (pending ++ node :: taken).Perm (node :: pending ++ taken) := perm_middle
    apply List.nodup_append'.mpr
    refine ⟨List.nodup_reverse.mpr hnodup, hperm.nodup_iff.mpr h.nodup, ?_⟩
    intro c hc hold
    exact hfresh c (List.mem_reverse.mp hc) (hperm.mem_iff.mp hold)
  · rw [h.seen_eq, List.filter_cons_of_pos (by simp [hstop])]
  · intro x hx
    rcases (hkeep x).mp hx with hchild | hold
    · have hpar := (hbelow x).mp hchild
      exact ⟨hmem (h.known node hnode).1 hpar, hanc.below hpar⟩
    · exact h.known x hold
  · intro x hx
    rcases (hkeep x).mp hx with hchild | hold
    · exact .inr ⟨node, mem_cons_self, hstop, (hbelow x).mp hchild⟩
    · rcases h.reached x hold with heq | ⟨above, habove, hfree, hpar⟩
      · exact .inl heq
      · exact .inr ⟨above, mem_cons_of_mem _ habove, hfree, hpar⟩
  · intro above habove hfree x hpar
    rw [hkeep]
    rcases List.mem_cons.mp habove with rfl | habove
    · exact .inl ((hbelow x).mpr hpar)
    · exact .inr (h.closed above habove hfree x hpar)
  · exact (hkeep root).mpr (.inr h.root_mem)

theorem mem_seen_iff [LinearOrder κ] (hlt : ∀ {c p}, parent c = some p → p < c)
    (h : Collected parent stop nodes root [] seen taken) :
    node ∈ seen ↔ Ancestor parent root node ∧
      ∀ between, Ancestor parent root between → Ancestor parent between node →
        stop between = false := by
  rw [h.seen_eq, mem_filter, Bool.not_eq_true']
  have hreach := h.reached
  have hclosed := h.closed
  have hknown := h.known
  have hroot := h.root_mem
  simp only [nil_append] at hreach hclosed hknown hroot
  constructor
  · intro ⟨htaken, hfree⟩
    refine ⟨(hknown node htaken).2, ?_⟩
    intro between hfrom hto
    induction hto with
    | refl => exact hfree
    | tail hbetween hpar ih =>
      rename_i q r
      rcases hreach r htaken with heq | ⟨above, habove, hstop, hother⟩
      · subst heq
        have hcycle := hfrom.trans hbetween
        exact absurd (hcycle.le hlt) (not_le.mpr (hlt hpar))
      · rw [hpar, Option.some.injEq] at hother
        subst hother
        exact ih habove hstop
  · intro ⟨hanc, hfree⟩
    refine ⟨?_, hfree node hanc (Ancestor.refl node)⟩
    induction hanc with
    | refl => exact hroot
    | tail hab hpar ih =>
      rename_i q r
      have hq := ih fun between hfrom hto => hfree between hfrom (hto.below hpar)
      exact hclosed q hq (hfree q hab (Ancestor.of_parent hpar)) r hpar

end Collected

theorem collect_spec [LinearOrder κ] (hlt : ∀ {c p}, parent c = some p → p < c)
    (hmem : ∀ {c p}, p ∈ nodes → parent c = some p → c ∈ nodes)
    (hchildren : ∀ node ∈ nodes, ∃ below, children node = .ok below ∧ below.Nodup ∧
      ∀ c, c ∈ below ↔ parent c = some node)
    (hroot : root ∈ nodes) (hfuel : nodes.card ≤ fuel) :
    ∃ seen, collect children stop exhausted fuel [root] [] = .ok seen ∧ seen.Nodup ∧
      ∀ node, node ∈ seen ↔ Ancestor parent root node ∧
        ∀ between, Ancestor parent root between → Ancestor parent between node →
          stop between = false := by
  have hloop : ∀ (fuel : ℕ) (pending seen taken : List κ),
      Collected parent stop nodes root pending seen taken → nodes.card ≤ fuel + taken.length →
      ∃ last taken', collect children stop exhausted fuel pending seen = .ok last ∧
        Collected parent stop nodes root [] last taken' := by
    intro fuel
    induction fuel with
    | zero =>
      intro pending seen taken h hfuel
      cases pending with
      | nil => exact ⟨seen, taken, rfl, h⟩
      | cons node pending =>
        have hless := h.length_lt
        omega
    | succ fuel ih =>
      intro pending seen taken h hfuel
      cases pending with
      | nil => exact ⟨seen, taken, rfl, h⟩
      | cons node pending =>
        rw [collect]
        cases hstop : stop node with
        | true =>
          simp only [if_true]
          apply ih pending seen (node :: taken) (h.drop hstop)
          rw [length_cons]
          omega
        | false =>
          obtain ⟨below, hok, hnodup, hbelow⟩ := hchildren node (h.known node (by simp)).1
          simp only [Bool.false_eq_true, if_false, hok]
          apply ih _ _ (node :: taken) (h.take hlt hmem hstop hnodup hbelow)
          rw [length_cons]
          omega
  obtain ⟨seen, taken, hrun, hdone⟩ :=
    hloop fuel [root] [] [] (Collected.start hroot) (by simpa using hfuel)
  refine ⟨seen, hrun, ?_, fun node => hdone.mem_seen_iff hlt⟩
  rw [hdone.seen_eq]
  exact (by simpa using hdone.nodup : taken.Nodup).filter _

end Below

end RakuraiValidator.Forests
