import RakuraiValidator.ForkUpdates

/-!
# New leaves

A new leaf is linked to its parent and then written into the blocks above.  The walk upwards changes
only best blocks, deepest blocks and heights; the standing of every other block stays as it is.
-/

namespace RakuraiValidator.ForkChoice

open DescendingPasses BTreeMap Finset Option

variable {Hash : Type} [LinearOrder Hash]

/-- Everything about a block but the best and the deepest block of its subtree. -/
def ForkInfo.standing (info : ForkInfo Hash) :
    (Option (SlotHashKey Hash) × BTreeMap (SlotHashKey Hash) Unit) × Option ℕ × Bool × ℕ × ℕ :=
  (info.links, info.latestInvalidAncestor, info.isDuplicateConfirmed, info.stakeVotedAt,
    info.stakeVotedSubtree)

namespace ForkInfos

def SameStanding (F F' : ForkInfos Hash) : Prop :=
  ∀ k, (F.get? k).map ForkInfo.standing = (F'.get? k).map ForkInfo.standing

namespace SameStanding

variable {F F' F'' : ForkInfos Hash} {k : SlotHashKey Hash} {info : ForkInfo Hash}

theorem refl (F : ForkInfos Hash) : SameStanding F F := fun _ => rfl

section

variable (h : SameStanding F F')

include h

theorem trans (h' : SameStanding F' F'') : SameStanding F F'' :=
  fun k => (h k).trans (h' k)

theorem symm : SameStanding F' F := fun k => (h k).symm

theorem sameLinks : SameLinks F F' := by
  intro k
  have hk := congrArg (Option.map Prod.fst) (h k)
  rw [Option.map_map, Option.map_map] at hk
  exact hk

theorem get? (hk : F.get? k = some info) :
    ∃ info', F'.get? k = some info' ∧ info'.standing = info.standing := by
  have hstanding := h k
  rw [hk, map_some, eq_comm, map_eq_some_iff] at hstanding
  exact hstanding

end

theorem of_insert (new : ForkInfo Hash) (hk : F.get? k = some info)
    (h : new.standing = info.standing) : SameStanding F (F.insert k new).2 := by
  intro j
  rw [get?_insert]
  split
  next heq =>
    subst heq
    rw [hk, map_some, map_some, h]
  next => rfl

end SameStanding

end ForkInfos

/-! ## The walk upwards -/

open ForkInfos

variable {F F' : ForkInfos Hash} {root leaf parent k : SlotHashKey Hash} {info : ForkInfo Hash}

def RoundsFrom (F : ForkInfos Hash) (fuel : ℕ) (current : Option (SlotHashKey Hash)) : Prop :=
  ∀ a, current = some a → a ∈ F.blocks ∧ (F.blocks.filter (· ≤ a)).card ≤ fuel

variable {fuel : ℕ}

theorem RoundsFrom.pos (h : RoundsFrom F fuel (some k)) : 0 < fuel := by
  obtain ⟨hmem, hcard⟩ := h k rfl
  have hpos : 0 < (F.blocks.filter (· ≤ k)).card :=
    card_pos.mpr ⟨k, mem_filter.mpr ⟨hmem, le_rfl⟩⟩
  omega

theorem RoundsFrom.up (tree : ForkTree F root) (h : RoundsFrom F (fuel + 1) (some k)) :
    RoundsFrom F fuel (F.parent k) := by
  intro p hp
  obtain ⟨hmem, hcard⟩ := h k rfl
  refine ⟨mem_blocks.mpr (tree.parent_mem hp), ?_⟩
  have hlt : (F.blocks.filter (· ≤ p)).card < (F.blocks.filter (· ≤ k)).card := by
    apply card_lt_card
    rw [ssubset_iff_of_subset]
    · refine ⟨k, mem_filter.mpr ⟨hmem, le_rfl⟩, ?_⟩
      simp [hmem, tree.key_lt hp]
    · exact monotone_filter_right _ fun x _ hx => hx.trans (tree.key_lt hp).le
  omega

theorem propagateBest_ok (tree : ForkTree F root) {parentBest : SlotHashKey Hash}
    {current : Option (SlotHashKey Hash)} (hrounds : RoundsFrom F fuel current)
    (hsame : SameStanding F F') :
    ∃ F'', propagateBest leaf parentBest fuel current F' = .ok F'' ∧ SameStanding F F'' := by
  induction fuel generalizing current F' with
  | zero =>
    cases current with
    | none => exact ⟨F', rfl, hsame⟩
    | some a => exact absurd hrounds.pos (lt_irrefl 0)
  | succ fuel ih =>
    cases current with
    | none => exact ⟨F', rfl, hsame⟩
    | some a =>
      obtain ⟨info, hinfo⟩ := mem_blocks.mp (hrounds a rfl).1
      obtain ⟨info', hinfo', hstanding⟩ := hsame.get? hinfo
      simp only [propagateBest, expectFork_of_get? hinfo', ok_bind]
      have hpar : info'.parent = F.parent a := by
        rw [parent_of_get? hinfo]
        exact congrArg (fun standing => standing.1.1) hstanding
      by_cases hbest : info'.bestSlot = parentBest
      · have hnext := ih (hrounds.up tree)
          (hsame.trans (SameStanding.of_insert { info' with bestSlot := leaf } hinfo' rfl))
        rw [← hpar] at hnext
        simpa only [if_pos hbest] using hnext
      · exact ⟨F', if_neg hbest, hsame⟩

theorem allM_ok {α ε : Type} {p : α → Except ε Bool} {xs : List α}
    (h : ∀ x ∈ xs, ∃ b, p x = .ok b) : ∃ b, xs.allM p = .ok b := by
  induction xs with
  | nil => exact ⟨true, rfl⟩
  | cons x xs ih =>
    obtain ⟨b, hb⟩ := h x List.mem_cons_self
    obtain ⟨rest, hrest⟩ := ih fun y hy => h y (List.mem_cons_of_mem _ hy)
    rw [List.allM, hb]
    cases b with
    | true => exact ⟨rest, hrest⟩
    | false => exact ⟨false, rfl⟩

/-- Whatever a block is compared with its siblings for, they are all there. -/
theorem compareSiblings_ok (tree : ForkTree F root) (hk : F.get? k = some info)
    {p : SlotHashKey Hash} (hpar : info.parent = some p)
    (better : SlotHashKey Hash → ForkInfo Hash → Bool) :
    ∃ answer, (do
      let siblings ← F.children p
      siblings.allM fun key => do
        let child ← F.expectFork key
        .ok (better key child)) = .ok answer := by
  have hp : F.parent k = some p := by rw [parent_of_get? hk, hpar]
  obtain ⟨above, habove⟩ := tree.parent_mem hp
  obtain ⟨siblings, hsiblings, _, hmem⟩ := tree.children_spec habove
  simp only [hsiblings, ok_bind]
  apply allM_ok
  intro c hc
  obtain ⟨child, hchild, _⟩ := get?_of_parent ((hmem c).mp hc)
  rw [expectFork_of_get? hchild]
  exact ⟨_, rfl⟩

theorem isDeepestChild_ok (tree : ForkTree F root) (hk : F.get? k = some info) :
    ∃ deepest, F.isDeepestChild k = .ok deepest := by
  simp only [isDeepestChild, expectFork_of_get? hk, ok_bind]
  split
  next => exact ⟨true, rfl⟩
  next hpar => exact compareSiblings_ok tree hk hpar _

theorem isBestChild_ok (tree : ForkTree F root) (hk : F.get? k = some info) :
    ∃ best, F.isBestChild k = .ok best := by
  simp only [isBestChild, expectFork_of_get? hk, ok_bind]
  split
  next => exact ⟨true, rfl⟩
  next hpar => exact compareSiblings_ok tree hk hpar _

theorem propagateDeepest_ok (tree : ForkTree F root) {height : ℕ}
    {child : SlotHashKey Hash} (hrounds : RoundsFrom F fuel (F.parent child))
    (hchild : ∃ info, F.get? child = some info) (hsame : SameStanding F F') :
    ∃ F'', propagateDeepest leaf fuel (F.parent child) child height F' = .ok F'' ∧
      SameStanding F F'' := by
  induction fuel generalizing child height F' with
  | zero =>
    cases hpar : F.parent child with
    | none => exact ⟨F', rfl, hsame⟩
    | some a =>
      rw [hpar] at hrounds
      exact absurd hrounds.pos (lt_irrefl 0)
  | succ fuel ih =>
    cases hpar : F.parent child with
    | none => exact ⟨F', rfl, hsame⟩
    | some a =>
      rw [hpar] at hrounds
      obtain ⟨start, hstart⟩ := hchild
      obtain ⟨start', hstart', _⟩ := hsame.get? hstart
      obtain ⟨info, hinfo⟩ := mem_blocks.mp (hrounds a rfl).1
      obtain ⟨info', hinfo', hstanding⟩ := hsame.get? hinfo
      obtain ⟨deepest, hdeepest⟩ := isDeepestChild_ok (tree.of_sameLinks hsame.sameLinks) hstart'
      simp only [propagateDeepest, hdeepest, expectFork_of_get? hinfo', ok_bind]
      cases deepest with
      | false => exact ⟨F', rfl, hsame⟩
      | true =>
        have hup : info'.parent = F.parent a := by
          rw [parent_of_get? hinfo]
          exact congrArg (fun standing => standing.1.1) hstanding
        have hnext : ∃ F'', propagateDeepest leaf fuel (F.parent a) a (height + 1)
            (F'.insert a { info' with deepestSlot := leaf, height := height + 1 }).2 =
              .ok F'' ∧ SameStanding F F'' :=
          ih (hrounds.up tree) ⟨info, hinfo⟩ (hsame.trans (SameStanding.of_insert _ hinfo' rfl))
        rw [← hup] at hnext
        exact hnext

theorem roundsFrom_entries (F : ForkInfos Hash) (hk : F.get? k = some info) :
    RoundsFrom F F.entries.length (some k) := by
  intro a ha
  cases ha
  refine ⟨mem_blocks.mpr ⟨info, hk⟩, ?_⟩
  rw [← card_blocks]
  exact card_filter_le _ _

theorem propagateNewLeaf_ok (tree : ForkTree F root) (hleaf : F.parent leaf = some parent) :
    ∃ F', F.propagateNewLeaf leaf parent = .ok F' ∧ SameStanding F F' := by
  obtain ⟨leafInfo, hleafInfo, _⟩ := get?_of_parent hleaf
  obtain ⟨parentInfo, hparInfo⟩ := tree.parent_mem hleaf
  obtain ⟨best, hbest⟩ := isBestChild_ok tree hleafInfo
  have hrounds := roundsFrom_entries F hparInfo
  have hfirst : ∃ F', (if best then propagateBest leaf parentInfo.bestSlot F.entries.length
      (some parent) F else .ok F) = .ok F' ∧ SameStanding F F' := by
    cases best with
    | true => exact propagateBest_ok tree hrounds (SameStanding.refl F)
    | false => exact ⟨F, rfl, SameStanding.refl F⟩
  obtain ⟨F', hfirst, hsame⟩ := hfirst
  have hsecond : ∃ F'', propagateDeepest leaf F'.entries.length (F'.parent leaf) leaf 1 F' = .ok F'' ∧
      SameStanding F' F'' := by
    refine propagateDeepest_ok (tree.of_sameLinks hsame.sameLinks) ?_ ?_ (SameStanding.refl F')
    · rw [hsame.sameLinks.parent_eq, hleaf]
      obtain ⟨_, hpar', _⟩ := hsame.get? hparInfo
      exact roundsFrom_entries F' hpar'
    · obtain ⟨leafInfo', hleaf', _⟩ := hsame.get? hleafInfo
      exact ⟨leafInfo', hleaf'⟩
  obtain ⟨F'', hsecond, hsame'⟩ := hsecond
  refine ⟨F'', ?_, hsame.trans hsame'⟩
  rw [hsame.sameLinks.parent_eq, hleaf] at hsecond
  simp only [propagateNewLeaf, expectFork_of_get? hparInfo, hbest, ok_bind]
  cases best with
  | true =>
    have hwalk : propagateBest leaf parentInfo.bestSlot F.entries.length (some parent) F =
      .ok F' := hfirst
    simp only [if_true, hwalk, ok_bind]
    exact hsecond
  | false =>
    cases hfirst
    exact hsecond

/-! ## Adding a leaf -/

def withLeaf (F : ForkInfos Hash) (leaf parent : SlotHashKey Hash) (parentInfo : ForkInfo Hash) :
    ForkInfos Hash :=
  ((F.insert leaf (F.newLeaf leaf (some parent))).2.insert parent
    { parentInfo with children := (parentInfo.children.insert leaf ()).2 }).2

section WithLeaf

variable {parentInfo : ForkInfo Hash}

theorem get?_withLeaf (k : SlotHashKey Hash) :
    (withLeaf F leaf parent parentInfo).get? k =
      if k = parent then some { parentInfo with children := (parentInfo.children.insert leaf ()).2 }
      else if k = leaf then some (F.newLeaf leaf (some parent)) else F.get? k := by
  rw [withLeaf, get?_insert, get?_insert]

theorem parent_withLeaf (hfresh : F.get? leaf = none) (hpar : F.get? parent = some parentInfo)
    (k : SlotHashKey Hash) :
    (withLeaf F leaf parent parentInfo).parent k = if k = leaf then some parent else F.parent k := by
  have hne : parent ≠ leaf := fun heq => by simp [heq, hfresh] at hpar
  simp only [ForkInfos.parent, get?_withLeaf]
  by_cases hk : k = parent
  · subst hk
    simp [hne, hpar]
  · by_cases hleaf : k = leaf
    · subst hleaf
      simp [hk, newLeaf]
    · simp [hk, hleaf]

theorem withLeaf_tree (tree : ForkTree F root) (hfresh : F.get? leaf = none)
    (hpar : F.get? parent = some parentInfo) (hslot : parent.slot < leaf.slot) :
    ForkTree (withLeaf F leaf parent parentInfo) root := by
  have hne : parent ≠ leaf := fun heq => by simp [heq, hfresh] at hpar
  have hup := parent_withLeaf hfresh hpar
  have hroot : root ≠ leaf := by
    intro heq
    obtain ⟨info, hinfo⟩ := tree.root_mem
    simp [heq, hfresh] at hinfo
  have hthere : ∀ {k}, (∃ info, F.get? k = some info) →
      ∃ info, (withLeaf F leaf parent parentInfo).get? k = some info := by
    intro k ⟨info, hinfo⟩
    rw [get?_withLeaf]
    split
    · exact ⟨_, rfl⟩
    · split
      · exact ⟨_, rfl⟩
      · exact ⟨info, hinfo⟩
  constructor
  · exact hthere tree.root_mem
  · rw [hup, if_neg hroot]
    exact tree.root_parent
  · intro k info hk hkroot
    rw [hup]
    split
    · exact ⟨parent, rfl⟩
    next hleaf =>
      rw [get?_withLeaf] at hk
      split at hk
      next heq =>
        subst heq
        exact tree.rooted hpar hkroot
      next => exact tree.rooted hk hkroot
  · intro k c info hk
    rw [hup]
    rw [get?_withLeaf] at hk
    split at hk
    next heq =>
      subst heq
      cases hk
      have hkeys : c ∈ ((parentInfo.children.insert leaf ()).2).keys ↔
          c = leaf ∨ c ∈ parentInfo.children.keys := by
        simp only [keys, List.mem_map, Prod.exists, exists_and_right, exists_eq_right,
          ← get?_eq_some_iff, get?_insert]
        by_cases hc : c = leaf <;> simp [hc]
      rw [hkeys, tree.linked hpar]
      by_cases hc : c = leaf <;> simp [hc]
    next hkparent =>
      split at hk
      next heq =>
        cases hk
        subst heq
        have hnone : F.parent c ≠ some k := by
          intro h
          obtain ⟨info, hinfo⟩ := tree.parent_mem h
          simp [hfresh] at hinfo
        by_cases hc : c = k <;> simp [newLeaf, keys, hc, hnone, Ne.symm hkparent]
      next =>
        rw [tree.linked hk]
        by_cases hc : c = leaf
        · subst hc
          have hnone : F.parent c = none := by simp [ForkInfos.parent, hfresh]
          simp [hnone, Ne.symm hkparent]
        · simp [hc]
  · intro c p hp
    rw [hup] at hp
    split at hp
    · cases hp
      exact hthere ⟨parentInfo, hpar⟩
    · exact hthere (tree.parent_mem hp)
  · intro c p hp
    rw [hup] at hp
    split at hp
    next heq =>
      cases hp
      rw [heq]
      exact hslot
    next => exact tree.slot_lt hp

theorem addNewLeafSlot_ok (tree : ForkTree F root) (hfresh : F.get? leaf = none)
    (hpar : F.get? parent = some parentInfo) (hslot : parent.slot < leaf.slot) :
    ∃ F', F.addNewLeafSlot leaf (some parent) = .ok F' ∧
      SameStanding (withLeaf F leaf parent parentInfo) F' := by
  have hne : parent ≠ leaf := fun heq => by simp [heq, hfresh] at hpar
  have habsent : ¬ F.containsKey leaf = true := by simp [hfresh]
  have hread : expectFork (F.insert leaf (F.newLeaf leaf (some parent))).2 parent =
      .ok parentInfo := by
    apply expectFork_of_get?
    rw [get?_insert, if_neg hne, hpar]
  have hleaf : (withLeaf F leaf parent parentInfo).parent leaf = some parent := by
    rw [parent_withLeaf hfresh hpar, if_pos rfl]
  obtain ⟨F', hrun, hsame⟩ := propagateNewLeaf_ok (withLeaf_tree tree hfresh hpar hslot) hleaf
  refine ⟨F', ?_, hsame⟩
  simp only [addNewLeafSlot, if_neg habsent, hread, ok_bind]
  exact hrun

end WithLeaf

end RakuraiValidator.ForkChoice
