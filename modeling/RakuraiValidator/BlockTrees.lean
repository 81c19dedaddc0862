import Mathlib.Data.Finset.Insert
import Mathlib.Tactic

/-!
# Trees of numbered nodes

A forest in which every node has at most one parent, with a smaller number.  The
ancestors of a node are computed by following its parents.
-/

namespace RakuraiValidator

structure BlockTree where
  parent : ℕ → Option ℕ
  parent_lt : ∀ node, ∀ p ∈ parent node, p < node

namespace BlockTree

def ancestorsWithin (tree : BlockTree) : ℕ → ℕ → Finset ℕ
  | 0, _ => ∅
  | fuel + 1, node =>
    match tree.parent node with
    | none => ∅
    | some p => insert p (tree.ancestorsWithin fuel p)

def ancestors (tree : BlockTree) (node : ℕ) : Finset ℕ := tree.ancestorsWithin node node

variable {tree : BlockTree} {a b c : ℕ}

theorem ancestorsWithin_eq {fuel node : ℕ} (h : node ≤ fuel) :
    tree.ancestorsWithin fuel node = tree.ancestors node := by
  induction node using Nat.strong_induction_on generalizing fuel with
  | _ node ih =>
    unfold ancestors
    cases hpar : tree.parent node with
    | none => cases fuel <;> cases node <;> simp [ancestorsWithin, hpar]
    | some p =>
      have hlt := tree.parent_lt node p hpar
      cases fuel with
      | zero => omega
      | succ fuel =>
        cases node with
        | zero => omega
        | succ node =>
          simp only [ancestorsWithin, hpar]
          rw [ih p hlt (by omega), ih p hlt (by omega)]

theorem mem_ancestors_iff :
    a ∈ tree.ancestors c ↔ ∃ p ∈ tree.parent c, a = p ∨ a ∈ tree.ancestors p := by
  have hunfold : tree.ancestors c = tree.ancestorsWithin (c + 1) c :=
    (ancestorsWithin_eq (Nat.le_succ c)).symm
  rw [hunfold, ancestorsWithin]
  cases hpar : tree.parent c with
  | none => simp
  | some p =>
    have hlt := tree.parent_lt c p hpar
    simp [ancestorsWithin_eq hlt.le]

theorem lt_of_mem_ancestors (h : a ∈ tree.ancestors b) : a < b := by
  induction b using Nat.strong_induction_on with
  | _ b ih =>
    rcases mem_ancestors_iff.mp h with ⟨p, hpar, heq | hmem⟩
    · rw [heq]
      exact tree.parent_lt b p hpar
    · have hlt := tree.parent_lt b p hpar
      exact (ih p hlt hmem).trans hlt

theorem mem_ancestors_trans (hab : a ∈ tree.ancestors b) (hbc : b ∈ tree.ancestors c) :
    a ∈ tree.ancestors c := by
  induction c using Nat.strong_induction_on with
  | _ c ih =>
    rcases mem_ancestors_iff.mp hbc with ⟨p, hpar, heq | hmem⟩
    · subst heq
      exact mem_ancestors_iff.mpr ⟨b, hpar, .inr hab⟩
    · exact mem_ancestors_iff.mpr ⟨p, hpar, .inr (ih p (tree.parent_lt c p hpar) hmem)⟩

end BlockTree

/-- Finitely many nodes which are connected to a base through their parents. -/
structure RootedTree extends BlockTree where
  base : ℕ
  nodes : Finset ℕ
  base_mem : base ∈ nodes
  connected : ∀ node ∈ nodes, node ≠ base → ∃ p ∈ parent node, p ∈ nodes

namespace RootedTree

variable {tree : RootedTree} {a node : ℕ}

def ancestorsAbove (tree : RootedTree) (node : ℕ) : Finset ℕ :=
  (tree.ancestors node).filter (tree.base ≤ ·)

theorem lt_of_mem_ancestorsAbove (h : a ∈ tree.ancestorsAbove node) : a < node :=
  BlockTree.lt_of_mem_ancestors (Finset.mem_filter.mp h).1

theorem ancestorsAbove_base : tree.ancestorsAbove tree.base = ∅ := by
  apply Finset.eq_empty_of_forall_notMem
  intro a ha
  have hle := (Finset.mem_filter.mp ha).2
  exact absurd (lt_of_mem_ancestorsAbove ha) (not_lt.mpr hle)

theorem base_mem_ancestorsAbove (hnode : node ∈ tree.nodes) (hne : node ≠ tree.base) :
    tree.base ∈ tree.ancestorsAbove node := by
  rw [ancestorsAbove, Finset.mem_filter]
  refine ⟨?_, le_rfl⟩
  induction node using Nat.strong_induction_on with
  | _ node ih =>
    rcases tree.connected node hnode hne with ⟨p, hpar, hmem⟩
    rw [BlockTree.mem_ancestors_iff]
    refine ⟨p, hpar, ?_⟩
    by_cases hbase : p = tree.base
    · exact .inl hbase.symm
    · exact .inr (ih p (tree.parent_lt node p hpar) hmem hbase)

end RootedTree

end RakuraiValidator
