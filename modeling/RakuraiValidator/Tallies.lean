import Mathlib.Algebra.BigOperators.Group.Finset.Basic
import Mathlib.Algebra.Order.BigOperators.Group.Finset
import Mathlib.Tactic

/-!
# Tallies which stop at a threshold

A loop adds up weights and counts every item once.  It stops as soon as the total
exceeds a threshold.  The order of the items does not matter for what it finds out:
the loop stops if and only if the items together exceed the threshold.
-/

namespace RakuraiValidator

open Finset List

/-- A loop over a list which may fail, and which may stop early with `none`. -/
def foldUntil {σ β ε : Type} (body : σ → β → Except ε (Option σ)) : List β → σ → Except ε (Option σ)
  | [], state => .ok (some state)
  | item :: items, state =>
    match body state item with
    | .error err => .error err
    | .ok none => .ok none
    | .ok (some next) => foldUntil body items next

theorem foldUntil_eq_foldlM {σ β γ ε : Type} {body : σ → β → Except ε (Option σ)}
    {step : σ → γ → Option σ} {parts : β → List γ} {items : List β}
    (hbody : ∀ item ∈ items, ∀ state, body state item = .ok ((parts item).foldlM step state))
    (state : σ) :
    foldUntil body items state = .ok ((items.flatMap parts).foldlM step state) := by
  induction items generalizing state with
  | nil => rfl
  | cons item items ih =>
    rw [foldUntil, hbody item mem_cons_self state, flatMap_cons, foldlM_append]
    cases (parts item).foldlM step state with
    | none => rfl
    | some next => exact ih (fun other hother => hbody other (mem_cons_of_mem _ hother)) next

structure Tally (α : Type) where
  total : ℕ
  counted : Finset α

namespace Tally

variable {α : Type} [DecidableEq α] (weight : α → ℕ) (modulus : ℕ) (exceeds : ℕ → Prop)
  [DecidablePred exceeds]

def empty : Tally α := ⟨0, ∅⟩

def add (tally : Tally α) (item : α) : Option (Tally α) :=
  let total := (tally.total + weight item) % modulus
  if exceeds total then none else some ⟨total, insert item tally.counted⟩

def count (tally : Tally α) (item : α) : Option (Tally α) :=
  if item ∈ tally.counted then some tally else tally.add weight modulus exceeds item

variable {weight modulus exceeds}

theorem foldlM_count (hfits : ∀ items : Finset α, ∑ item ∈ items, weight item < modulus)
    (hmono : ∀ a b, a ≤ b → exceeds a → exceeds b) (items : List α) (tally : Tally α)
    (hexact : tally.total = ∑ item ∈ tally.counted, weight item) (hbelow : ¬ exceeds tally.total) :
    items.foldlM (count weight modulus exceeds) tally =
      if exceeds (∑ item ∈ tally.counted ∪ items.toFinset, weight item) then none
      else some ⟨∑ item ∈ tally.counted ∪ items.toFinset, weight item,
        tally.counted ∪ items.toFinset⟩ := by
  induction items generalizing tally with
  | nil =>
    rw [hexact] at hbelow
    simp only [foldlM_nil, toFinset_nil, union_empty, if_neg hbelow]
    rw [← hexact]
    rfl
  | cons item items ih =>
    rw [foldlM_cons, toFinset_cons, count]
    by_cases hmem : item ∈ tally.counted
    · have hunion : tally.counted ∪ insert item items.toFinset =
          tally.counted ∪ items.toFinset := by
        rw [union_insert, insert_eq_of_mem (mem_union_left _ hmem)]
      rw [if_pos hmem, hunion]
      exact ih tally hexact hbelow
    · have hsum : (tally.total + weight item) % modulus =
          ∑ other ∈ insert item tally.counted, weight other := by
        rw [sum_insert hmem, ← hexact, Nat.mod_eq_of_lt, Nat.add_comm]
        have hlt := hfits (insert item tally.counted)
        rw [sum_insert hmem, ← hexact] at hlt
        omega
      have hunion : tally.counted ∪ insert item items.toFinset =
          insert item tally.counted ∪ items.toFinset := by
        rw [union_insert, insert_union]
      rw [if_neg hmem, add, hunion, hsum]
      by_cases hover : exceeds (∑ other ∈ insert item tally.counted, weight other)
      · -- More items cannot bring the total below the threshold again.
        have hle : ∑ other ∈ insert item tally.counted, weight other ≤
            ∑ other ∈ insert item tally.counted ∪ items.toFinset, weight other :=
          sum_le_sum_of_subset subset_union_left
        rw [if_pos hover, if_pos (hmono _ _ hle hover)]
        rfl
      · rw [if_neg hover]
        exact ih ⟨_, insert item tally.counted⟩ rfl hover

end Tally

end RakuraiValidator
