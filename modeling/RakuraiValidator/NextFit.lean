import Mathlib.Tactic

/-!
# Next-fit partitions

A list is cut into consecutive groups.  A group is closed when the next element would not fit, so
no other cut into groups that fit has fewer of them.
-/

namespace RakuraiValidator.NextFit

open List

variable {α : Type} {limit start middle bytes : ℕ} {sizes more : List ℕ}

/-- The sizes which take a total from `start` to `bytes`.  Only a single one, which comes first, may
exceed the limit. -/
structure Fitting (limit start : ℕ) (sizes : List ℕ) (bytes : ℕ) : Prop where
  bytes_eq : bytes = start + sizes.sum
  le_limit : sizes ≠ [] → limit < bytes → start = 0 ∧ sizes.length = 1

theorem Fitting.nil : Fitting limit start [] start := ⟨by simp, by simp⟩

theorem Fitting.append (hpos : ∀ size ∈ sizes, 0 < size) (h : Fitting limit start sizes middle)
    (hmore : Fitting limit middle more bytes) : Fitting limit start (sizes ++ more) bytes := by
  refine ⟨by rw [hmore.bytes_eq, h.bytes_eq, sum_append, Nat.add_assoc], fun hne hlt => ?_⟩
  by_cases hnone : more = []
  · subst hnone
    have heq : bytes = middle := by simpa using hmore.bytes_eq
    rw [append_nil] at hne ⊢
    exact h.le_limit hne (heq ▸ hlt)
  -- The first element makes the total positive, so nothing else can exceed the limit.
  obtain ⟨hzero, hlen⟩ := hmore.le_limit hnone hlt
  cases sizes with
  | nil =>
    have heq : middle = start := by simpa using h.bytes_eq
    exact ⟨heq ▸ hzero, hlen⟩
  | cons size sizes =>
    have hsize := hpos size mem_cons_self
    have heq := h.bytes_eq
    rw [sum_cons] at heq
    omega

variable {Fits : List α → Prop} {greedy groups : List (List α)}

/-- What the greedy groups leave is never more than what other groups leave. -/
theorem length_le_of_suffix (hpart : ∀ {xs ys}, ys <:+: xs → Fits xs → Fits ys)
    (hne : ∀ group ∈ greedy, group ≠ [])
    (hfull : greedy.IsChain fun group next => ∀ first ∈ next.head?, ¬ Fits (group ++ [first]))
    (hfits : ∀ group ∈ groups, Fits group) (hsuffix : greedy.flatten <:+ groups.flatten) :
    greedy.length ≤ groups.length := by
  induction groups generalizing greedy with
  | nil =>
    cases greedy with
    | nil => rfl
    | cons group greedy =>
      have hnil := List.suffix_nil.mp hsuffix
      exact absurd (append_eq_nil_iff.mp hnil).1 (hne group mem_cons_self)
  | cons other groups ih =>
    cases greedy with
    | nil => exact Nat.zero_le _
    | cons group greedy =>
      refine Nat.succ_le_succ (ih (fun g hg => hne g (mem_cons_of_mem _ hg)) hfull.tail
        (fun g hg => hfits g (mem_cons_of_mem _ hg)) ?_)
      rw [flatten_cons, flatten_cons] at hsuffix
      rcases suffix_or_suffix_of_suffix ((suffix_append _ _).trans hsuffix) (suffix_append other _)
        with hless | hmore
      · exact hless
      -- If the other group went further, it would contain the element that did not fit.
      obtain ⟨ahead, hahead⟩ := hmore
      cases greedy with
      | nil => exact nil_suffix
      | cons next greedy =>
        cases ahead with
        | nil => exact hahead ▸ suffix_rfl
        | cons first ahead =>
          exfalso
          have hnext := hne next (mem_cons_of_mem _ mem_cons_self)
          obtain ⟨head, tail, rfl⟩ := exists_cons_of_ne_nil hnext
          have hfirst : first = head := (List.cons.inj hahead).1
          obtain ⟨before, hbefore⟩ := hsuffix
          rw [← hahead, ← append_assoc, ← append_assoc] at hbefore
          have hother := append_cancel_right hbefore
          apply (List.isChain_cons_cons.mp hfull).1 first (by rw [hfirst]; rfl)
          refine hpart ⟨before, ahead, ?_⟩ (hfits other mem_cons_self)
          rw [← hother]
          simp

end RakuraiValidator.NextFit
