import Mathlib.Data.Finset.Sort
import Mathlib.Algebra.BigOperators.Group.Finset.Basic
import Mathlib.Tactic

/-!
# Bitmaps

A bitmap is a list of bits, one for each index.  What a bitmap stands for is the
finite set of its set bits; the lemmas describe every operation by this set, and
say which operations keep it when the length changes.
-/

namespace RakuraiValidator.Bitmap

open List

variable (bits : List Bool)

def isSet (i : ℕ) : Bool := bits.getD i false

def ones : List ℕ := (List.range bits.length).filter (isSet bits)

def support : Finset ℕ := (ones bits).toFinset

def union (bits other : List Bool) : List Bool :=
  bits.mapIdx (fun i bit => bit || isSet other i)

def lastOne : Option ℕ := (ones bits).getLast?

def trimmedLength : ℕ := (lastOne bits).elim 0 (· + 1)

def resize (length : ℕ) : List Bool :=
  bits.take length ++ List.replicate (length - bits.length) false

variable {bits other : List Bool} {i length : ℕ}

theorem isSet_eq_false_of_length_le (h : bits.length ≤ i) : isSet bits i = false := by
  simp [isSet, getElem?_eq_none h]

theorem lt_length_of_isSet (h : isSet bits i = true) : i < bits.length := by
  by_contra hnot
  rw [isSet_eq_false_of_length_le (not_lt.mp hnot)] at h
  contradiction

theorem mem_ones : i ∈ ones bits ↔ isSet bits i = true := by
  simp only [ones, mem_filter, mem_range, and_iff_right_iff_imp]
  exact lt_length_of_isSet

@[simp] theorem mem_support : i ∈ support bits ↔ isSet bits i = true := by
  rw [support, mem_toFinset, mem_ones]

theorem ones_nodup (bits : List Bool) : (ones bits).Nodup :=
  List.nodup_range.filter _

theorem sum_ones {M : Type} [AddCommMonoid M] (bits : List Bool) (f : ℕ → M) :
    ((ones bits).map f).sum = ∑ i ∈ support bits, f i := by
  rw [support, sum_toFinset f (ones_nodup bits)]

@[simp] theorem isSet_replicate : isSet (List.replicate length false) i = false := by
  simp only [isSet, getD_eq_getElem?_getD, getElem?_replicate]
  split <;> rfl

@[simp] theorem support_replicate : support (List.replicate length false) = ∅ := by
  ext i
  simp

/-! ## Union and insertion -/

@[simp] theorem length_union : (union bits other).length = bits.length := by
  simp [union]

theorem isSet_union (hlength : other.length ≤ bits.length) :
    isSet (union bits other) i = (isSet bits i || isSet other i) := by
  by_cases hi : i < bits.length
  · simp [isSet, union, hi]
  · have hi' : ¬ i < other.length := fun hlt => hi (hlt.trans_le hlength)
    simp [isSet, union, hi, hi']

theorem support_union (hlength : other.length ≤ bits.length) :
    support (union bits other) = support bits ∪ support other := by
  ext i
  simp [isSet_union hlength]

theorem support_union_subset : support (union bits other) ⊆ support bits ∪ support other := by
  intro i hi
  rw [mem_support] at hi
  have hlt : i < bits.length := by simpa using lt_length_of_isSet hi
  simpa [isSet, union, hlt] using hi

theorem isSet_set (hi : i < bits.length) (j : ℕ) :
    isSet (bits.set i true) j = (isSet bits j || decide (j = i)) := by
  by_cases hj : j = i
  · subst hj
    simp [isSet, hi]
  · simp [isSet, Ne.symm hj, hj]

theorem support_set (hi : i < bits.length) :
    support (bits.set i true) = insert i (support bits) := by
  ext j
  simp [isSet_set hi, or_comm]

theorem support_set_subset : support (bits.set i true) ⊆ support bits ∪ {i} := by
  by_cases hi : i < bits.length
  · rw [support_set hi, Finset.insert_eq, Finset.union_comm]
  · rw [set_eq_of_length_le (not_lt.mp hi)]
    exact Finset.subset_union_left

/-! ## Trimming -/

theorem lt_trimmedLength_of_isSet (h : isSet bits i = true) : i < trimmedLength bits := by
  have hmem : i ∈ ones bits := mem_ones.mpr h
  have hsort : (ones bits).Pairwise (· < ·) :=
    List.pairwise_lt_range.filter _
  unfold trimmedLength lastOne
  rw [getLast?_eq_getLast_of_ne_nil (ne_nil_of_mem hmem)]
  have hle : i ≤ (ones bits).getLast (ne_nil_of_mem hmem) :=
    (hsort.imp le_of_lt).rel_getLast hmem
  simpa using Nat.lt_succ_of_le hle

theorem trimmedLength_le_iff :
    trimmedLength bits ≤ length ↔ ∀ i, isSet bits i = true → i < length := by
  constructor
  · exact fun hle i hset => (lt_trimmedLength_of_isSet hset).trans_le hle
  · intro hset
    unfold trimmedLength lastOne
    cases hlast : (ones bits).getLast? with
    | none => simp
    | some i => exact hset i (mem_ones.mp (mem_of_getLast? hlast))

theorem trimmedLength_le (bits : List Bool) : trimmedLength bits ≤ bits.length :=
  trimmedLength_le_iff.mpr fun _ => lt_length_of_isSet

@[simp] theorem length_resize : (resize bits length).length = length := by
  simp only [resize, length_append, length_take, length_replicate]
  omega

variable (hlength : trimmedLength bits ≤ length)

include hlength

theorem isSet_resize : isSet (resize bits length) i = isSet bits i := by
  by_cases hi : i < length
  · by_cases hi' : i < bits.length
    · simp [isSet, resize, getElem?_append, hi, hi']
    · have hle : bits.length ≤ i := not_lt.mp hi'
      have hmin : min length bits.length = bits.length := by omega
      simp only [isSet, resize, getD_eq_getElem?_getD, getElem?_append,
        length_take, hmin, hi', if_false, getElem?_replicate,
        getElem?_eq_none hle]
      split <;> rfl
  · have hunset : isSet bits i = false := by
      rw [Bool.eq_false_iff]
      intro hset
      have hlt := lt_trimmedLength_of_isSet hset
      omega
    rw [hunset]
    have hlen : (resize bits length).length ≤ i := by
      rw [length_resize]
      exact not_lt.mp hi
    exact isSet_eq_false_of_length_le hlen

theorem trimmedLength_resize : trimmedLength (resize bits length) = trimmedLength bits := by
  apply le_antisymm
  · rw [trimmedLength_le_iff]
    intro i hset
    rw [isSet_resize hlength] at hset
    exact lt_trimmedLength_of_isSet hset
  · rw [trimmedLength_le_iff]
    intro i hset
    rw [← isSet_resize hlength] at hset
    exact lt_trimmedLength_of_isSet hset

theorem support_resize : support (resize bits length) = support bits := by
  ext i
  simp [isSet_resize hlength]

end RakuraiValidator.Bitmap
