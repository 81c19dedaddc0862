import RakuraiValidator.HeaviestSubtreeForkChoice

/-!
# The blocks of a fork choice form a tree

Parents and children of the recorded blocks agree, every block but the root has a parent, and
slots grow from parents to children.  In such a tree the walks of the fork choice return: the
ancestor iterator lists the strict ancestors, and `subtree_diff` lists the blocks below one block
and not below another.
-/

namespace RakuraiValidator.ForkChoice

open BTreeMap Option

variable {Hash : Type} [LinearOrder Hash]

namespace SlotHashKey

variable {x y : SlotHashKey Hash}

theorem lt_iff : x < y ↔ x.slot < y.slot ∨ x.slot = y.slot ∧ x.hash < y.hash :=
  Prod.Lex.toLex_lt_toLex

theorem lt_of_slot_lt (h : x.slot < y.slot) : x < y := lt_iff.mpr (.inl h)

theorem slot_le_of_le (h : x ≤ y) : x.slot ≤ y.slot := by
  rcases h.lt_or_eq with hlt | heq
  · rcases lt_iff.mp hlt with hslot | hslot
    · exact hslot.le
    · exact hslot.1.le
  · rw [heq]

end SlotHashKey

variable {F F' : ForkInfos Hash} {a c k p : SlotHashKey Hash} {info : ForkInfo Hash}

namespace ForkInfos

theorem expectFork_of_get? (h : F.get? k = some info) : F.expectFork k = .ok info := by
  simp only [expectFork, h]

theorem parent_of_get? (h : F.get? k = some info) : F.parent k = info.parent := by
  simp [parent, h]

theorem get?_of_parent (h : F.parent c = some p) :
    ∃ info, F.get? c = some info ∧ info.parent = some p :=
  Option.bind_eq_some_iff.mp h

/-- The first block is the second one or one of its ancestors. -/
abbrev Ancestor (F : ForkInfos Hash) : SlotHashKey Hash → SlotHashKey Hash → Prop :=
  Forests.Ancestor F.parent

def blocks (F : ForkInfos Hash) : Finset (SlotHashKey Hash) := F.keys.toFinset

theorem mem_blocks : k ∈ F.blocks ↔ ∃ info, F.get? k = some info := by
  simp only [blocks, List.mem_toFinset, keys, List.mem_map]
  constructor
  · intro ⟨entry, hentry, heq⟩
    subst heq
    exact ⟨entry.2, (F.get?_eq_some_iff _ _).mpr hentry⟩
  · intro ⟨info, hinfo⟩
    exact ⟨(k, info), (F.get?_eq_some_iff _ _).mp hinfo, rfl⟩

theorem card_blocks : F.blocks.card = F.entries.length := by
  rw [blocks, List.toFinset_card_of_nodup F.keys_nodup, keys, List.length_map]

end ForkInfos

/-! ## Trees -/

def ForkInfo.links (info : ForkInfo Hash) :
    Option (SlotHashKey Hash) × BTreeMap (SlotHashKey Hash) Unit :=
  (info.parent, info.children)

structure ForkTree (F : ForkInfos Hash) (root : SlotHashKey Hash) : Prop where
  root_mem : ∃ info, F.get? root = some info
  root_parent : F.parent root = none
  rooted : ∀ {k info}, F.get? k = some info → k ≠ root → ∃ p, F.parent k = some p
  linked : ∀ {k c info}, F.get? k = some info → (c ∈ info.children.keys ↔ F.parent c = some k)
  parent_mem : ∀ {c p}, F.parent c = some p → ∃ info, F.get? p = some info
  slot_lt : ∀ {c p}, F.parent c = some p → p.slot < c.slot

namespace ForkInfos

def SameLinks (F F' : ForkInfos Hash) : Prop :=
  ∀ k, (F.get? k).map ForkInfo.links = (F'.get? k).map ForkInfo.links

namespace SameLinks

variable {F'' : ForkInfos Hash}

theorem refl (F : ForkInfos Hash) : SameLinks F F := fun _ => rfl

section

variable (h : SameLinks F F')

include h

theorem symm : SameLinks F' F := fun k => (h k).symm

theorem trans (h' : SameLinks F' F'') : SameLinks F F'' :=
  fun k => (h k).trans (h' k)

theorem get? (hk : F.get? k = some info) :
    ∃ info', F'.get? k = some info' ∧ info'.parent = info.parent ∧
      info'.children = info.children := by
  have hlinks := h k
  rw [hk, map_some, eq_comm, map_eq_some_iff] at hlinks
  obtain ⟨info', hget, heq⟩ := hlinks
  obtain ⟨hpar, hchildren⟩ := Prod.mk.inj heq
  exact ⟨info', hget, hpar, hchildren⟩

theorem get?_none (hk : F.get? k = none) : F'.get? k = none := by
  have hlinks := h k
  rw [hk, map_none, eq_comm, map_eq_none_iff] at hlinks
  exact hlinks

theorem parent_eq : F'.parent = F.parent := by
  funext k
  cases hk : F.get? k with
  | none => simp [parent, hk, h.get?_none hk]
  | some info =>
    obtain ⟨info', hk', hpar, _⟩ := h.get? hk
    rw [parent_of_get? hk, parent_of_get? hk', hpar]

theorem ancestor_iff {a : SlotHashKey Hash} : F'.Ancestor a k ↔ F.Ancestor a k := by
  rw [Ancestor, h.parent_eq]

end

theorem of_insert {new : ForkInfo Hash} (hk : F.get? k = some info)
    (hlinks : new.links = info.links) : SameLinks F (F.insert k new).2 := by
  intro j
  rw [get?_insert]
  split
  next heq =>
    subst heq
    rw [hk, map_some, map_some, hlinks]
  next => rfl

end SameLinks

end ForkInfos

namespace ForkTree

open ForkInfos

variable {root : SlotHashKey Hash}

variable (tree : ForkTree F root)

include tree

theorem of_sameLinks (h : SameLinks F F') : ForkTree F' root := by
  have hpar := h.parent_eq
  constructor
  · obtain ⟨info, hinfo⟩ := tree.root_mem
    obtain ⟨info', hinfo', _⟩ := h.get? hinfo
    exact ⟨info', hinfo'⟩
  · rw [hpar]
    exact tree.root_parent
  · intro k info' hk hne
    obtain ⟨info, hinfo, _⟩ := h.symm.get? hk
    rw [hpar]
    exact tree.rooted hinfo hne
  · intro k c info' hk
    obtain ⟨info, hinfo, _, hchildren⟩ := h.symm.get? hk
    rw [hpar, ← hchildren]
    exact tree.linked hinfo
  · intro c p hp
    rw [hpar] at hp
    obtain ⟨info, hinfo⟩ := tree.parent_mem hp
    obtain ⟨info', hinfo', _⟩ := h.get? hinfo
    exact ⟨info', hinfo'⟩
  · intro c p hp
    rw [hpar] at hp
    exact tree.slot_lt hp

theorem key_lt (h : F.parent c = some p) : p < c :=
  SlotHashKey.lt_of_slot_lt (tree.slot_lt h)

theorem ancestor_slot_le (h : F.Ancestor a k) : a.slot ≤ k.slot :=
  SlotHashKey.slot_le_of_le (h.le tree.key_lt)

theorem ancestor_slot_lt (h : F.Ancestor a k) (hne : a ≠ k) : a.slot < k.slot := by
  rcases Relation.ReflTransGen.cases_tail h with heq | ⟨p, hap, hp⟩
  · exact absurd heq.symm hne
  · exact lt_of_le_of_lt (tree.ancestor_slot_le hap) (tree.slot_lt hp)

theorem get?_of_ancestor (h : F.Ancestor a k) (hk : F.get? k = some info) :
    ∃ info, F.get? a = some info := by
  induction h generalizing info with
  | refl => exact ⟨info, hk⟩
  | tail _ hp ih =>
    obtain ⟨above, habove⟩ := tree.parent_mem hp
    exact ih habove

theorem root_ancestor (hk : F.get? k = some info) : F.Ancestor root k := by
  induction hslot : k.slot using Nat.strong_induction_on generalizing k info with
  | _ slot ih =>
    by_cases hroot : k = root
    · rw [hroot]
      exact .refl root
    · obtain ⟨p, hp⟩ := tree.rooted hk hroot
      obtain ⟨above, habove⟩ := tree.parent_mem hp
      have hlt := tree.slot_lt hp
      exact (ih p.slot (by omega) habove rfl).below hp

theorem eq_root_of_ancestor (h : F.Ancestor a root) : a = root :=
  h.eq_of_parent_none tree.root_parent

theorem mem_ancestorIterator : a ∈ F.ancestorIterator k ↔ F.Ancestor a k ∧ a ≠ k := by
  have hmem : ∀ {c p}, F.parent c = some p → p ∈ F.blocks :=
    fun hp => mem_blocks.mpr (tree.parent_mem hp)
  have hfuel : (F.blocks.filter (· < k)).card ≤ F.entries.length := by
    rw [← card_blocks]
    exact Finset.card_filter_le _ _
  rw [ancestorIterator, Forests.mem_ancestorsWithin tree.key_lt hmem hfuel]
  constructor
  · intro ⟨p, hp, hap⟩
    refine ⟨hap.below hp, ?_⟩
    intro heq
    subst heq
    exact absurd (hap.le tree.key_lt) (not_le.mpr (tree.key_lt hp))
  · intro ⟨hak, hne⟩
    rcases Relation.ReflTransGen.cases_tail hak with heq | ⟨p, hap, hp⟩
    · exact absurd heq.symm hne
    · exact ⟨p, hp, hap⟩

theorem ancestorIterator_nodup (k : SlotHashKey Hash) : (F.ancestorIterator k).Nodup :=
  Forests.ancestorsWithin_nodup tree.key_lt _ _

theorem children_spec (hk : F.get? k = some info) :
    ∃ below, F.children k = .ok below ∧ below.Nodup ∧ ∀ c, c ∈ below ↔ F.parent c = some k := by
  refine ⟨info.children.keys, ?_, info.children.keys_nodup, fun c => tree.linked hk⟩
  simp only [children, expectFork_of_get? hk, Except.map]

theorem subtreeDiff_spec {root1 : SlotHashKey Hash} (root2 : SlotHashKey Hash)
    (hroot1 : F.get? root1 = some info) :
    ∃ seen, F.subtreeDiff root1 root2 = .ok seen ∧ seen.Nodup ∧
      ∀ k, k ∈ seen ↔ F.Ancestor root1 k ∧ ¬ (F.Ancestor root1 root2 ∧ F.Ancestor root2 k) := by
  have hmem : ∀ {c p}, p ∈ F.blocks → F.parent c = some p → c ∈ F.blocks := by
    intro c p _ hp
    obtain ⟨child, hchild, _⟩ := get?_of_parent hp
    exact mem_blocks.mpr ⟨child, hchild⟩
  have hchildren : ∀ node ∈ F.blocks, ∃ below, F.children node = .ok below ∧ below.Nodup ∧
      ∀ c, c ∈ below ↔ F.parent c = some node := by
    intro node hnode
    obtain ⟨found, hfound⟩ := mem_blocks.mp hnode
    exact tree.children_spec hfound
  obtain ⟨seen, hrun, hnodup, hseen⟩ := Forests.collect_spec tree.key_lt hmem hchildren (mem_blocks.mpr ⟨info, hroot1⟩)
    (card_blocks (F := F)).le
  refine ⟨seen, ?_, hnodup, ?_⟩
  · rw [subtreeDiff, if_pos ((F.containsKey_iff root1).mpr ⟨info, hroot1⟩)]
    exact hrun
  · intro k
    rw [hseen]
    constructor
    · intro ⟨hanc, hfree⟩
      refine ⟨hanc, ?_⟩
      intro ⟨hfrom, hto⟩
      have hstop := hfree root2 hfrom hto
      simp at hstop
    · intro ⟨hanc, hnot⟩
      refine ⟨hanc, ?_⟩
      intro between hfrom hto
      by_contra hstop
      have heq : between = root2 := by simpa using hstop
      subst heq
      exact hnot ⟨hfrom, hto⟩

theorem subtree_spec [Inhabited Hash] (hk : F.get? k = some info) (hne : k ≠ default) :
    ∃ seen, F.subtreeDiff k default = .ok seen ∧ seen.Nodup ∧ ∀ c, c ∈ seen ↔ F.Ancestor k c := by
  obtain ⟨seen, hrun, hnodup, hseen⟩ := tree.subtreeDiff_spec default hk
  refine ⟨seen, hrun, hnodup, ?_⟩
  intro c
  rw [hseen]
  constructor
  · exact fun h => h.1
  · intro h
    refine ⟨h, ?_⟩
    intro ⟨hdef, _⟩
    have hslot := tree.ancestor_slot_lt hdef hne
    exact absurd hslot (Nat.not_lt_zero _)

theorem subtree_default [Inhabited Hash] (hk : F.get? default = some info) :
    F.subtreeDiff default default = .ok [] := by
  obtain ⟨seen, hrun, _, hseen⟩ := tree.subtreeDiff_spec default hk
  have hempty : seen = [] := by
    apply List.eq_nil_iff_forall_not_mem.mpr
    intro c hc
    have hmem := (hseen c).mp hc
    exact hmem.2 ⟨.refl _, hmem.1⟩
  rw [hrun, hempty]

end ForkTree

end RakuraiValidator.ForkChoice
