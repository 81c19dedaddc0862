import Mathlib.Algebra.BigOperators.Group.Finset.Basic
import Mathlib.Algebra.Order.BigOperators.Group.Finset
import Mathlib.Algebra.Order.BigOperators.Group.List
import Mathlib.Tactic

/-!
# Shares rounded down

An amount is divided in proportion to weights and each share is rounded down.  The shares
never add up to more than the amount.  Items which share several amounts are summed by group.
-/

namespace RakuraiValidator

variable {ι : Type}

def floorShare (amount total weight : ℕ) : ℕ := weight * amount / total

variable {amount total : ℕ}

theorem floorShare_le {weight : ℕ} (h : weight ≤ total) :
    floorShare amount total weight ≤ amount := by
  unfold floorShare
  exact Nat.div_le_of_le_mul (Nat.mul_le_mul_right amount h)

theorem sum_floorShare_le_floorShare_sum (amount total : ℕ) (weight : ι → ℕ) (items : List ι) :
    (items.map fun item => floorShare amount total (weight item)).sum ≤
      floorShare amount total (items.map weight).sum := by
  induction items with
  | nil => simp
  | cons item items ih =>
    rw [List.map_cons, List.map_cons, List.sum_cons, List.sum_cons]
    calc
      _ ≤ floorShare amount total (weight item) +
            floorShare amount total (items.map weight).sum := Nat.add_le_add_left ih _
      _ ≤ floorShare amount total (weight item + (items.map weight).sum) := by
            unfold floorShare
            rw [Nat.add_mul]
            exact Nat.div_add_div_le_add_div

variable {items : List ι}

theorem sum_floorShare_le {weight : ι → ℕ} (h : (items.map weight).sum ≤ total) :
    (items.map fun item => floorShare amount total (weight item)).sum ≤ amount :=
  (sum_floorShare_le_floorShare_sum amount total weight items).trans (floorShare_le h)

theorem floorShare_mono {weight weight' : ℕ} (h : weight ≤ weight') :
    floorShare amount total weight ≤ floorShare amount total weight' :=
  Nat.div_le_div_right (Nat.mul_le_mul_right amount h)

/-! ## Groups -/

variable {κ : Type} {keys : Finset κ} (key : ι → κ) (value : ι → ℕ)

theorem sum_map_eq_sum_groups [DecidableEq κ] (h : ∀ item ∈ items, key item ∈ keys) :
    (items.map value).sum =
      ∑ k ∈ keys, ((items.filter fun item => key item = k).map value).sum := by
  induction items with
  | nil => simp
  | cons item items ih =>
    have hcons : ∀ k, (((item :: items).filter fun other => key other = k).map value).sum =
        (if key item = k then value item else 0) +
          ((items.filter fun other => key other = k).map value).sum := by
      intro k
      by_cases hk : key item = k
      · simp [hk]
      · simp [hk]
    rw [List.map_cons, List.sum_cons, ih fun other hother => h other (List.mem_cons_of_mem _ hother)]
    simp only [hcons, Finset.sum_add_distrib, Finset.sum_ite_eq, h item List.mem_cons_self, if_true]

end RakuraiValidator
