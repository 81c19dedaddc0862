import Mathlib.Data.List.Induction
import Mathlib.Data.Set.Function

/-!
# Openings of Merkle trees

A Merkle tree whose parts may be unknown: an unseen part is an arbitrary entry.  A walk from an entry
through siblings that ends in the entry of a tree has followed the tree, as long as no two of the
messages hashed on either side collide, until it leaves the tree through an unseen part.

Levels are paired up from the left, and the last entry of an odd level is paired with itself.
-/

namespace RakuraiValidator.MerkleOpenings

open List

variable {M D : Type}

inductive Tree (M D : Type)
  | unseen (entry : D)
  | leaf (message : M)
  | join (left right : Tree M D)

/-! ## Entries and messages -/

variable {tree : Tree M D} {k : ℕ} {part : Tree M D}

namespace Tree

variable (hash : M → D) (node : D → D → M)

def entry : Tree M D → D
  | unseen entry => entry
  | leaf message => hash message
  | join left right => hash (node left.entry right.entry)

def messages : Tree M D → List M
  | unseen _ => []
  | leaf message => [message]
  | join left right =>
    node (left.entry hash node) (right.entry hash node) :: (left.messages ++ right.messages)

def leaves : Tree M D → List M
  | unseen _ => []
  | leaf message => [message]
  | join left right => left.leaves ++ right.leaves

def atDepth : ℕ → Tree M D → List (Tree M D)
  | 0, tree => [tree]
  | k + 1, join left right => left.atDepth k ++ right.atDepth k
  | _ + 1, _ => []

theorem messages_of_mem_atDepth (hpart : part ∈ tree.atDepth k) {m : M}
    (hm : m ∈ part.messages hash node) : m ∈ tree.messages hash node := by
  induction k generalizing tree with
  | zero => exact mem_singleton.mp hpart ▸ hm
  | succ k ih =>
    cases tree with
    | unseen e => simp [atDepth] at hpart
    | leaf m => simp [atDepth] at hpart
    | join left right =>
      rcases mem_append.mp hpart with h | h
      · exact mem_cons_of_mem _ (mem_append_left _ (ih h))
      · exact mem_cons_of_mem _ (mem_append_right _ (ih h))

end Tree

/-! ## Walks -/

section Walks

variable (hash : M → D) (node : D → D → M)

def parent (index : ℕ) (entry other : D) : M :=
  if index % 2 = 0 then node entry other else node other entry

theorem parent_eq_node (index : ℕ) (entry other : D) :
    ∃ a b, parent node index entry other = node a b := by
  unfold parent
  split
  · exact ⟨entry, other, rfl⟩
  · exact ⟨other, entry, rfl⟩

def step (place : ℕ × D) (other : D) : ℕ × D :=
  (place.1 / 2, hash (parent node place.1 place.2 other))

def climb (start : ℕ × D) (siblings : List D) : ℕ × D := siblings.foldl (step hash node) start

def climbed : ℕ × D → List D → List M
  | _, [] => []
  | start, other :: siblings =>
    parent node start.1 start.2 other :: climbed (step hash node start other) siblings

theorem climbed_append (start : ℕ × D) (first second : List D) :
    climbed hash node start (first ++ second) =
      climbed hash node start first ++ climbed hash node (climb hash node start first) second := by
  induction first generalizing start with
  | nil => rfl
  | cons other first ih => simp [climbed, climb, ih]

variable {hash : M → D} {node : D → D → M}

theorem climb_reaches (hnode : ∀ {a b c d}, node a b = node c d → a = c ∧ b = d) {start : ℕ × D}
    {siblings : List D}
    (hfree : Set.InjOn hash {m | m ∈ tree.messages hash node ∨
      m ∈ climbed hash node start siblings})
    (hleaves : ∀ m ∈ tree.leaves, ∀ a b, m ≠ node a b)
    (hend : (climb hash node start siblings).2 = tree.entry hash node) :
    (∃ part ∈ tree.atDepth siblings.length, part.entry hash node = start.2) ∨
    ∃ k < siblings.length, ∃ e, .unseen e ∈ tree.atDepth k ∧
      e = (climb hash node start (siblings.take (siblings.length - k))).2 := by
  induction siblings using reverseRecOn generalizing tree with
  | nil => exact .inl ⟨tree, mem_singleton_self tree, hend.symm⟩
  | append_singleton siblings other ih =>
    let place := climb hash node start siblings
    have hstep : climb hash node start (siblings ++ [other]) = step hash node place other := by
      simp [climb, place]
    have hmem : parent node place.1 place.2 other ∈
        climbed hash node start (siblings ++ [other]) := by
      simp [climbed_append, climbed, place]
    rw [hstep] at hend
    cases tree with
    | unseen e =>
      refine .inr ⟨0, by simp, e, mem_singleton_self _, ?_⟩
      rw [Nat.sub_zero, take_length, hstep]
      exact hend.symm
    | leaf m =>
      have hm : m = parent node place.1 place.2 other :=
        (hfree (.inr hmem) (.inl (mem_singleton_self m)) hend).symm
      obtain ⟨a, b, hab⟩ := parent_eq_node node place.1 place.2 other
      exact absurd (hm.trans hab) (hleaves m (mem_singleton_self m) a b)
    | join left right =>
      have hmsg := hfree (.inr hmem) (.inl (mem_cons_self ..)) hend
      -- the place below is the left or the right part
      have hbelow : ∃ part, (part = left ∨ part = right) ∧ place.2 = part.entry hash node := by
        unfold parent at hmsg
        split at hmsg
        · exact ⟨left, .inl rfl, (hnode hmsg).1⟩
        · exact ⟨right, .inr rfl, (hnode hmsg).2⟩
      obtain ⟨part, hpart, hplace⟩ := hbelow
      have hmsgs : ∀ m ∈ part.messages hash node,
          m ∈ (Tree.join left right).messages hash node := by
        intro m hm
        rcases hpart with rfl | rfl
        · exact mem_cons_of_mem _ (mem_append_left _ hm)
        · exact mem_cons_of_mem _ (mem_append_right _ hm)
      have hdepth : ∀ {k u}, u ∈ part.atDepth k → u ∈ (Tree.join left right).atDepth (k + 1) := by
        intro k u hu
        rcases hpart with rfl | rfl
        · exact mem_append_left _ hu
        · exact mem_append_right _ hu
      have hfree' : Set.InjOn hash
          {m | m ∈ part.messages hash node ∨ m ∈ climbed hash node start siblings} := by
        apply hfree.mono
        intro m hm
        rcases hm with hm | hm
        · exact .inl (hmsgs m hm)
        · right
          rw [climbed_append]
          exact mem_append_left _ hm
      have hleaves' : ∀ m ∈ part.leaves, ∀ a b, m ≠ node a b := by
        intro m hm
        apply hleaves
        rcases hpart with rfl | rfl
        · exact mem_append_left _ hm
        · exact mem_append_right _ hm
      rcases ih hfree' hleaves' hplace with ⟨u, hu, hentry⟩ | ⟨k, hk, e, hu, he⟩
      · refine .inl ⟨u, ?_, hentry⟩
        rw [length_append]
        exact hdepth hu
      · refine .inr ⟨k + 1, by simpa using hk, e, hdepth hu, ?_⟩
        rw [he, length_append, length_singleton, Nat.add_sub_add_right,
          take_append_of_le_length (by omega)]

end Walks

/-! ## Levels -/

section Levels

variable {α β : Type} (f : α → α → α)

def pairUp : List α → List α
  | [] => []
  | [a] => [f a a]
  | a :: b :: rest => f a b :: pairUp rest

attribute [local simp] pairUp

def collapse : ℕ → List α → List α
  | 0, level => level
  | k + 1, level => collapse k (pairUp f level)

variable {f}

theorem length_pairUp (level : List α) : (pairUp f level).length = (level.length + 1) / 2 := by
  induction level using pairUp.induct with
  | case1 => simp
  | case2 a => simp
  | case3 a b rest ih =>
    simp only [pairUp, length_cons, ih]
    omega

theorem getElem?_pairUp (level : List α) (i : ℕ) (h : 2 * i < level.length) :
    ∃ a b, level[2 * i]? = some a ∧ level[min (2 * i + 1) (level.length - 1)]? = some b ∧
      (pairUp f level)[i]? = some (f a b) := by
  induction level using pairUp.induct generalizing i with
  | case1 => simp at h
  | case2 a =>
    obtain rfl : i = 0 := by simp at h; omega
    exact ⟨a, a, rfl, rfl, rfl⟩
  | case3 a b rest ih =>
    cases i with
    | zero =>
      refine ⟨a, b, rfl, ?_, rfl⟩
      simp
    | succ i =>
      simp only [length_cons] at h
      obtain ⟨x, y, hx, hy, hxy⟩ := ih i (by omega)
      refine ⟨x, y, ?_, ?_, ?_⟩
      · rw [show 2 * (i + 1) = 2 * i + 1 + 1 by omega]
        simpa using hx
      · rw [length_cons, length_cons,
          show min (2 * (i + 1) + 1) (rest.length + 1 + 1 - 1) =
            min (2 * i + 1) (rest.length - 1) + 1 + 1 by omega]
        simpa using hy
      · simpa using hxy

variable {g : α → β}

theorem map_pairUp {f' : β → β → β} (h : ∀ a b, g (f a b) = f' (g a) (g b)) (level : List α) :
    (pairUp f level).map g = pairUp f' (level.map g) := by
  induction level using pairUp.induct with
  | case1 => rfl
  | case2 a => simp [h]
  | case3 a b rest ih => simp [h, ih]

theorem map_collapse (f' : β → β → β) (h : ∀ a b, g (f a b) = f' (g a) (g b)) (k : ℕ)
    (level : List α) : (collapse f k level).map g = collapse f' k (level.map g) := by
  induction k generalizing level with
  | zero => rfl
  | succ k ih => rw [collapse, collapse, ih, map_pairUp h]

theorem mem_pairUp {level : List α} {a : α} (h : a ∈ pairUp f level) :
    ∃ b ∈ level, ∃ c ∈ level, a = f b c := by
  induction level using pairUp.induct with
  | case1 => simp at h
  | case2 b =>
    obtain rfl := mem_singleton.mp h
    exact ⟨b, by simp, b, by simp, rfl⟩
  | case3 b c rest ih =>
    rcases mem_cons.mp h with rfl | hrest
    · exact ⟨b, by simp, c, by simp, rfl⟩
    · obtain ⟨x, hx, y, hy, hxy⟩ := ih hrest
      exact ⟨x, by simp [hx], y, by simp [hy], hxy⟩

variable {level : List (Tree M D)}

theorem atDepth_of_mem_collapse {i : ℕ} (htree : tree ∈ collapse .join k level)
    (hpart : part ∈ tree.atDepth i) :
    (i < k ∧ ∃ left right, part = .join left right) ∨
    (k ≤ i ∧ ∃ below ∈ level, part ∈ below.atDepth (i - k)) := by
  induction k generalizing level with
  | zero => exact .inr ⟨Nat.zero_le i, tree, htree, hpart⟩
  | succ k ih =>
    rcases ih htree with ⟨hlt, hjoin⟩ | ⟨hle, below, hbelow, hmem⟩
    · exact .inl ⟨by omega, hjoin⟩
    · obtain ⟨left, hleft, right, hright, rfl⟩ := mem_pairUp hbelow
      rcases hle.eq_or_lt with heq | hlt
      · rw [heq, Nat.sub_self] at hmem
        exact .inl ⟨by omega, left, right, mem_singleton.mp hmem⟩
      · rw [show i - k = i - (k + 1) + 1 by omega] at hmem
        refine .inr ⟨hlt, ?_⟩
        rcases mem_append.mp hmem with h | h
        · exact ⟨left, hleft, h⟩
        · exact ⟨right, hright, h⟩

theorem leaves_of_mem_collapse {m : M} (htree : tree ∈ collapse .join k level)
    (hm : m ∈ tree.leaves) : ∃ below ∈ level, m ∈ below.leaves := by
  induction k generalizing level with
  | zero => exact ⟨tree, htree, hm⟩
  | succ k ih =>
    obtain ⟨below, hbelow, hmem⟩ := ih htree
    obtain ⟨left, hleft, right, hright, rfl⟩ := mem_pairUp hbelow
    rcases mem_append.mp hmem with h | h
    · exact ⟨left, hleft, h⟩
    · exact ⟨right, hright, h⟩

end Levels

end RakuraiValidator.MerkleOpenings
