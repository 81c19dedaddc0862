import RakuraiValidator.ForkLeaves

/-!
# Marks of validity

What marking a block as valid or as invalid does to the duplicate confirmations and to the latest
invalid ancestors of all blocks.  A valid block clears its ancestors and the blocks below it; an
invalid one is recorded in the blocks below it.
-/

namespace RakuraiValidator.ForkChoice

open DescendingPasses ForkInfos UpdateOperation ForkInfo HeaviestSubtreeForkChoice IsMark
  Forests.Ancestor List

variable {Hash : Type} [LinearOrder Hash]

def ForkInfos.DuplicateConfirmed (F : ForkInfos Hash) (k : SlotHashKey Hash) : Prop :=
  ∃ info, F.get? k = some info ∧ info.isDuplicateConfirmed = true

variable {F : ForkInfos Hash} {k : SlotHashKey Hash}

theorem confirmed_of_get? {info : ForkInfo Hash} (hk : F.get? k = some info) :
    F.DuplicateConfirmed k ↔ info.isDuplicateConfirmed = true := by
  constructor
  · intro ⟨found, hfound, hyes⟩
    rw [hk, Option.some.injEq] at hfound
    rwa [hfound]
  · exact fun hyes => ⟨info, hk, hyes⟩

/-- Duplicate confirmations reach up to the root, duplicate confirmed blocks are candidates, and
the latest invalid ancestor is not a later block. -/
structure Validity (F : ForkInfos Hash) (root : SlotHashKey Hash) : Prop where
  tree : ForkTree F root
  confirmed_parent : ∀ {c p}, F.parent c = some p → F.DuplicateConfirmed c → F.DuplicateConfirmed p
  confirmed_candidate : ∀ {k info}, F.get? k = some info → info.isDuplicateConfirmed = true →
    info.latestInvalidAncestor = none
  invalid_le : ∀ {k info slot}, F.get? k = some info → info.latestInvalidAncestor = some slot →
    slot ≤ k.slot

variable {F' : ForkInfos Hash}

theorem ForkInfos.SameStanding.back (hsame : SameStanding F F') {info' : ForkInfo Hash}
    (hk : F'.get? k = some info') :
    ∃ info, F.get? k = some info ∧ info.latestInvalidAncestor = info'.latestInvalidAncestor ∧
      info.isDuplicateConfirmed = info'.isDuplicateConfirmed := by
  obtain ⟨info, hinfo, hstanding⟩ := hsame.symm.get? hk
  exact ⟨info, hinfo, congrArg (·.2.1) hstanding, congrArg (·.2.2.1) hstanding⟩

theorem ForkInfos.SameStanding.confirmed_iff (hsame : SameStanding F F') :
    F'.DuplicateConfirmed k ↔ F.DuplicateConfirmed k := by
  constructor
  · intro ⟨info', hinfo', hyes⟩
    obtain ⟨info, hinfo, _, heq⟩ := hsame.back hinfo'
    exact ⟨info, hinfo, heq.trans hyes⟩
  · intro ⟨info, hinfo, hyes⟩
    obtain ⟨info', hinfo', hstanding⟩ := hsame.get? hinfo
    exact ⟨info', hinfo', (congrArg (·.2.2.1) hstanding).trans hyes⟩

variable {root : SlotHashKey Hash} {info : ForkInfo Hash}

namespace Validity

variable {a : SlotHashKey Hash}

theorem confirmed_ancestor (h : Validity F root) (hak : F.Ancestor a k)
    (hk : F.DuplicateConfirmed k) : F.DuplicateConfirmed a := by
  induction hak with
  | refl => exact hk
  | tail _ hpar ih => exact ih (h.confirmed_parent hpar hk)

theorem of_sameStanding (h : Validity F root) (hsame : SameStanding F F') : Validity F' root := by
  constructor
  · exact h.tree.of_sameLinks hsame.sameLinks
  · intro c p hpar hc
    rw [hsame.sameLinks.parent_eq] at hpar
    exact hsame.confirmed_iff.mpr (h.confirmed_parent hpar (hsame.confirmed_iff.mp hc))
  · intro k info' hk hyes
    obtain ⟨info, hinfo, hlatest, heq⟩ := hsame.back hk
    rw [← hlatest]
    exact h.confirmed_candidate hinfo (heq.trans hyes)
  · intro k info' slot hk hslot
    obtain ⟨info, hinfo, hlatest, _⟩ := hsame.back hk
    exact h.invalid_le hinfo (hlatest.trans hslot)

end Validity

/-! ## What marks do to a block -/

/-- The latest invalid ancestor when a block at this slot turns out to be invalid. -/
def raised (slot : ℕ) (latest : Option ℕ) : Option ℕ :=
  if latest.all (· < slot) then some slot else latest

/-- The latest invalid ancestor when a block at this slot turns out to be valid. -/
def lowered (slot : ℕ) (latest : Option ℕ) : Option ℕ :=
  if latest.all (slot < ·) then latest else none

variable {parentInfo : ForkInfo Hash} {latest : Option ℕ}

theorem lowered_eq_none {slot : ℕ} (h : ∀ s, latest = some s → s ≤ slot) :
    lowered slot latest = none := by
  cases latest with
  | none => rfl
  | some s =>
    have hle := h s rfl
    simp [lowered, hle]

theorem lowered_eq_some {slot s : ℕ} (h : lowered slot latest = some s) :
    latest = some s ∧ slot < s := by
  unfold lowered at h
  split at h
  next hall =>
    subst h
    exact ⟨rfl, by simpa using hall⟩
  next => contradiction

section Perform

variable {marked : ForkInfo Hash} {slot : ℕ}

theorem perform_markInvalid (h : (markInvalid slot).perform F k info = .ok marked) :
    marked.isDuplicateConfirmed = info.isDuplicateConfirmed ∧
      marked.latestInvalidAncestor = raised slot info.latestInvalidAncestor := by
  simp only [perform, updateWithNewlyInvalidAncestor] at h
  split at h
  · contradiction
  · split at h
    next hall =>
      cases h
      exact ⟨rfl, (if_pos hall).symm⟩
    next hall =>
      cases h
      exact ⟨rfl, (if_neg hall).symm⟩

theorem perform_markValid (h : (markValid slot).perform F k info = .ok marked) :
    (marked.isDuplicateConfirmed = true ↔ info.isDuplicateConfirmed = true ∨ k.slot = slot) ∧
      marked.latestInvalidAncestor = lowered slot info.latestInvalidAncestor := by
  have hvalid : (info.updateWithNewlyValidAncestor slot).isDuplicateConfirmed =
      info.isDuplicateConfirmed ∧ (info.updateWithNewlyValidAncestor slot).latestInvalidAncestor =
      lowered slot info.latestInvalidAncestor := by
    simp only [updateWithNewlyValidAncestor, lowered]
    cases hlatest : info.latestInvalidAncestor with
    | none => exact ⟨rfl, hlatest⟩
    | some latest =>
      by_cases hle : latest ≤ slot
      · simp [hle]
      · simp [hle, hlatest, not_le.mp hle]
  simp only [perform, Except.ok.injEq] at h
  split at h
  next heq =>
    subst h
    exact ⟨by simp [heq], hvalid.2⟩
  next hne =>
    subst h
    exact ⟨by rw [hvalid.1]; simp [hne], hvalid.2⟩

theorem aggregated_spec {root : SlotHashKey Hash} (tree : ForkTree F root) {total : Aggregation Hash}
    (htot : F.gather k marked = .ok total) (hk : F.get? k = some (marked.aggregated total)) :
    ((marked.aggregated total).isDuplicateConfirmed = true ↔ marked.isDuplicateConfirmed = true ∨
      ∃ c, F.parent c = some k ∧ F.DuplicateConfirmed c) ∧
    ((∃ c, F.parent c = some k ∧ F.DuplicateConfirmed c) →
      (marked.aggregated total).latestInvalidAncestor = none) ∧
    (¬ (∃ c, F.parent c = some k ∧ F.DuplicateConfirmed c) →
      (marked.aggregated total).latestInvalidAncestor = marked.latestInvalidAncestor) := by
  have hchildren : (marked.aggregated total).children = marked.children :=
    congrArg Prod.snd (links_aggregated total)
  obtain ⟨total', htot', hgathered⟩ := gather_ok tree hk hchildren.symm
  rw [htot, Except.ok.injEq] at htot'
  subst htot'
  have hiff : total.isDuplicateConfirmed = true ↔
      ∃ c, F.parent c = some k ∧ F.DuplicateConfirmed c := by
    rw [hgathered]
    exact ⟨fun ⟨c, child, hc, hchild, hyes⟩ => ⟨c, hc, child, hchild, hyes⟩,
      fun ⟨c, hc, child, hchild, hyes⟩ => ⟨c, child, hc, hchild, hyes⟩⟩
  rw [← hiff, isDuplicateConfirmed_aggregated, Bool.or_eq_true]
  refine ⟨or_comm, ?_, ?_⟩
  · intro hyes
    simp only [aggregated, if_pos hyes]
    rfl
  · intro hno
    simp only [aggregated, if_neg hno]

end Perform

/-! ## Effects on the tree -/

structure MarkedInvalid (F : ForkInfos Hash) (v : SlotHashKey Hash) (F' : ForkInfos Hash) :
    Prop where
  links : SameLinks F F'
  block : ∀ k info, F.get? k = some info → ∃ info', F'.get? k = some info' ∧
    info'.isDuplicateConfirmed = info.isDuplicateConfirmed ∧
    (F.Ancestor v k → info'.latestInvalidAncestor = raised v.slot info.latestInvalidAncestor) ∧
    (¬ F.Ancestor v k → info'.latestInvalidAncestor = info.latestInvalidAncestor)

structure MarkedValid (F : ForkInfos Hash) (v : SlotHashKey Hash) (F' : ForkInfos Hash) :
    Prop where
  links : SameLinks F F'
  block : ∀ k info, F.get? k = some info → ∃ info', F'.get? k = some info' ∧
    (info'.isDuplicateConfirmed = true ↔ info.isDuplicateConfirmed = true ∨ F.Ancestor k v) ∧
    (F.Ancestor v k → info'.latestInvalidAncestor = lowered v.slot info.latestInvalidAncestor) ∧
    (F.Ancestor k v → info'.latestInvalidAncestor = none) ∧
    (¬ F.Ancestor v k → ¬ F.Ancestor k v → info'.latestInvalidAncestor = info.latestInvalidAncestor)

theorem confirmed_of_process {forkChoice : HeaviestSubtreeForkChoice Hash}
    {root v : SlotHashKey Hash} (tree : ForkTree forkChoice.forkInfos root) {mark : UpdateOperation}
    {label : UpdateLabel} (hmark : IsMark mark label) {subtree : List (SlotHashKey Hash)}
    (hnodup : subtree.Nodup) (hsubt : ∀ c, c ∈ subtree ↔ forkChoice.forkInfos.Ancestor v c)
    (hrun : forkChoice.forkInfos.processUpdateOperations
      (forkChoice.markOperations v subtree mark) = .ok F')
    (hlinks : SameLinks forkChoice.forkInfos F') {C : SlotHashKey Hash → Prop}
    (hup : ∀ {c p}, forkChoice.forkInfos.parent c = some p → C c → C p)
    (hself : ∀ {k}, forkChoice.forkInfos.DuplicateConfirmed k → C k)
    (hmarked : ∀ {k info marked}, forkChoice.forkInfos.Ancestor v k →
      forkChoice.forkInfos.get? k = some info → mark.perform F' k info = .ok marked →
      marked.isDuplicateConfirmed = true → C k) : F'.DuplicateConfirmed k → C k := by
  have htree' := tree.of_sameLinks hlinks
  -- a block is confirmed by its children, so the induction goes from the leaves upwards
  induction k using Forests.induction_upwards tree.key_lt forkChoice.forkInfos.blocks
    (fun hc => mem_blocks.mpr ((get?_of_parent hc).imp fun _ hfound => hfound.1)) with
  | step k ih =>
    intro ⟨info', hk', hyes⟩
    obtain ⟨info, hk, _⟩ := hlinks.symm.get? hk'
    have hgathered : (∃ c, F'.parent c = some k ∧ F'.DuplicateConfirmed c) → C k := by
      intro ⟨c, hc, hconf⟩
      rw [hlinks.parent_eq] at hc
      exact hup hc (ih c hc hconf)
    obtain ⟨hbelow, habove, hapart⟩ := process_markOperations tree hmark hnodup hsubt hrun hk
    by_cases hvk : forkChoice.forkInfos.Ancestor v k
    · obtain ⟨marked, total, hperf, htot, hget⟩ := hbelow hvk
      rw [hget, Option.some.injEq] at hk'
      subst hk'
      rcases (aggregated_spec htree' htot hget).1.mp hyes with hconf | hchild
      · exact hmarked hvk hk hperf hconf
      · exact hgathered hchild
    · by_cases hkv : forkChoice.forkInfos.Ancestor k v
      · have hne : k ≠ v := fun heq => hvk (heq ▸ .refl k)
        obtain ⟨total, htot, hget⟩ := habove hkv hne
        rw [hget, Option.some.injEq] at hk'
        subst hk'
        rcases (aggregated_spec htree' htot hget).1.mp hyes with hconf | hchild
        · exact hself ⟨info, hk, hconf⟩
        · exact hgathered hchild
      · rw [hapart hvk hkv, Option.some.injEq] at hk'
        subst hk'
        exact hself ⟨info, hk, hyes⟩

theorem newlyDuplicateConfirmed_ok (forkChoice : HeaviestSubtreeForkChoice Hash)
    {keys : List (SlotHashKey Hash)}
    (h : ∀ k ∈ keys, ∃ info, forkChoice.forkInfos.get? k = some info) :
    ∃ newly, forkChoice.newlyDuplicateConfirmed keys = .ok newly := by
  have hfold : ∀ (keys newly : List (SlotHashKey Hash)),
      (∀ k ∈ keys, ∃ info, forkChoice.forkInfos.get? k = some info) →
      ∃ last, keys.foldlM (fun newly key => do
        let info ← forkChoice.forkInfos.expectFork key
        (.ok (if info.isDuplicateConfirmed then newly else newly ++ [key]) :
          Except Panic (List (SlotHashKey Hash)))) newly = .ok last := by
    intro keys
    induction keys with
    | nil => exact fun newly _ => ⟨newly, rfl⟩
    | cons k keys ih =>
      intro newly hkeys
      obtain ⟨info, hinfo⟩ := hkeys k mem_cons_self
      rw [foldlM_cons, expectFork_of_get? hinfo, ok_bind, ok_bind]
      exact ih _ fun j hj => hkeys j (mem_cons_of_mem _ hj)
  exact hfold keys [] h

variable {v : SlotHashKey Hash} {vInfo : ForkInfo Hash}

section Effects

variable [Inhabited Hash] {forkChoice : HeaviestSubtreeForkChoice Hash}

/-! ## Marking as invalid -/

variable (h : Validity forkChoice.forkInfos root) (hv : forkChoice.forkInfos.get? v = some vInfo)

include h hv in
theorem markForkInvalidCandidate_effect
    (hunconf : vInfo.isDuplicateConfirmed = false) (hdef : v ≠ default) :
    ∃ F', forkChoice.markForkInvalidCandidate v = .ok { forkChoice with forkInfos := F' } ∧
      MarkedInvalid forkChoice.forkInfos v F' := by
  obtain ⟨subtree, hsubt, hnodup, hmem⟩ := h.tree.subtree_spec hv hdef
  have hmark := invalid v.slot
  have hfree : ∀ {k}, forkChoice.forkInfos.Ancestor v k →
      ¬ forkChoice.forkInfos.DuplicateConfirmed k := by
    intro k hdesc hyes
    have hconf := (confirmed_of_get? hv).mp (h.confirmed_ancestor hdesc hyes)
    rw [hunconf] at hconf
    contradiction
  obtain ⟨F', hrun, hlinks⟩ := process_markOperations_ok h.tree hmark hnodup hmem
    (by
      intro c info hdesc hc _ _
      by_contra hyes
      exact hfree hdesc ⟨info, hc, by simpa using hyes⟩)
  refine ⟨F', ?_, ⟨hlinks, ?_⟩⟩
  · simp only [markForkInvalidCandidate, hv, hunconf, hsubt, ok_bind, hrun]
    rfl
  have htree' := h.tree.of_sameLinks hlinks
  have hnone : ∀ {k}, F'.DuplicateConfirmed k → forkChoice.forkInfos.DuplicateConfirmed k := by
    intro k
    apply confirmed_of_process h.tree hmark hnodup hmem hrun hlinks h.confirmed_parent id
    intro k info marked _ hk hperf hyes
    rw [(perform_markInvalid hperf).1] at hyes
    exact ⟨info, hk, hyes⟩
  have hgathered : ∀ {k}, (∃ c, F'.parent c = some k ∧ F'.DuplicateConfirmed c) →
      forkChoice.forkInfos.DuplicateConfirmed k := by
    intro k ⟨c, hc, hconf⟩
    rw [hlinks.parent_eq] at hc
    exact h.confirmed_parent hc (hnone hconf)
  intro k info hk
  have hsame : ∀ {info'}, F'.get? k = some info' → (info.isDuplicateConfirmed = true →
      info'.isDuplicateConfirmed = true) →
      info'.isDuplicateConfirmed = info.isDuplicateConfirmed := by
    intro info' hk' hmono
    apply Bool.eq_iff_iff.mpr
    exact ⟨fun hyes => (confirmed_of_get? hk).mp (hnone ⟨info', hk', hyes⟩), hmono⟩
  obtain ⟨hbelow, habove, hapart⟩ := process_markOperations h.tree hmark hnodup hmem hrun hk
  by_cases hvk : forkChoice.forkInfos.Ancestor v k
  · obtain ⟨marked, total, hmarked, htot, hget⟩ := hbelow hvk
    obtain ⟨hiff, _, hkeep⟩ := aggregated_spec htree' htot hget
    obtain ⟨hmarkconfirmed, hmarkinvalid⟩ := perform_markInvalid hmarked
    refine ⟨_, hget, hsame hget ?_, ?_, fun hnot => absurd hvk hnot⟩
    · intro hyes
      exact hiff.mpr (.inl (hmarkconfirmed.trans hyes))
    · intro _
      rw [hkeep fun hchild => hfree hvk (hgathered hchild), hmarkinvalid]
  · by_cases hkv : forkChoice.forkInfos.Ancestor k v
    · have hne : k ≠ v := fun heq => hvk (heq ▸ .refl k)
      obtain ⟨total, htot, hget⟩ := habove hkv hne
      obtain ⟨hiff, hclear, hkeep⟩ := aggregated_spec htree' htot hget
      refine ⟨_, hget, hsame hget fun hyes => hiff.mpr (.inl hyes),
        fun hyes => absurd hyes hvk, ?_⟩
      intro _
      by_cases hchild : ∃ c, F'.parent c = some k ∧ F'.DuplicateConfirmed c
      · have hconf := (confirmed_of_get? hk).mp (hgathered hchild)
        rw [hclear hchild, h.confirmed_candidate hk hconf]
      · exact hkeep hchild
    · exact ⟨info, hapart hvk hkv, rfl, fun hyes => absurd hyes hvk, fun _ => rfl⟩

/-! ## Marking as valid -/

section MarkedSubtree

variable {subtree : List (SlotHashKey Hash)} (h : Validity forkChoice.forkInfos root)
  (hnodup : subtree.Nodup) (hsubt : ∀ c, c ∈ subtree ↔ forkChoice.forkInfos.Ancestor v c)
  (hrun : forkChoice.forkInfos.processUpdateOperations
    (forkChoice.markOperations v subtree (.markValid v.slot)) = .ok F')
  (hlinks : SameLinks forkChoice.forkInfos F')

include h hnodup hsubt hrun hlinks

omit [Inhabited Hash] in
theorem confirmed_of_markValid : F'.DuplicateConfirmed k →
    forkChoice.forkInfos.DuplicateConfirmed k ∨ forkChoice.forkInfos.Ancestor k v := by
  apply confirmed_of_process h.tree (valid v.slot) hnodup hsubt hrun hlinks
    (C := fun k => forkChoice.forkInfos.DuplicateConfirmed k ∨ forkChoice.forkInfos.Ancestor k v)
  · intro c p hp hc
    exact hc.imp (h.confirmed_parent hp) (of_parent hp).trans
  · exact .inl
  · intro k info marked hvk hk hperf hyes
    rcases (perform_markValid hperf).1.mp hyes with hself | hslot
    · exact .inl ⟨info, hk, hself⟩
    · right
      by_cases heq : k = v
      · exact heq ▸ .refl k
      · have hlt := h.tree.ancestor_slot_lt hvk (Ne.symm heq)
        omega

omit [Inhabited Hash] in
/-- The confirmation of the block itself reaches its ancestors one after the other. -/
theorem confirmed_above (hv : forkChoice.forkInfos.get? v = some vInfo)
    (hkv : forkChoice.forkInfos.Ancestor k v) : F'.DuplicateConfirmed k := by
  have htree' := h.tree.of_sameLinks hlinks
  have hspec := fun {k info} (hk : forkChoice.forkInfos.get? k = some info) =>
    process_markOperations h.tree (valid v.slot) hnodup hsubt hrun hk
  induction hkv using Relation.ReflTransGen.head_induction_on with
  | refl =>
    obtain ⟨marked, total, hmarked, htot, hget⟩ := (hspec hv).1 (.refl v)
    refine ⟨_, hget, (aggregated_spec htree' htot hget).1.mpr (.inl ?_)⟩
    exact (perform_markValid hmarked).1.mpr (.inr rfl)
  | head hpar hanc ih =>
    rename_i p c
    obtain ⟨info, hinfo⟩ := h.tree.parent_mem hpar
    have hpv : forkChoice.forkInfos.Ancestor p v :=
      (of_parent hpar).trans hanc
    have hne : p ≠ v := by
      intro heq
      subst heq
      exact absurd (le h.tree.key_lt hanc) (not_le.mpr (h.tree.key_lt hpar))
    obtain ⟨total, htot, hget⟩ := (hspec hinfo).2.1 hpv hne
    refine ⟨_, hget, (aggregated_spec htree' htot hget).1.mpr (.inr ⟨c, ?_, ih⟩)⟩
    rw [hlinks.parent_eq]
    exact hpar

end MarkedSubtree

include h hv in
theorem markForkValidCandidate_effect (hdef : v ≠ default) :
    ∃ newly F', forkChoice.markForkValidCandidate v =
        .ok (newly, { forkChoice with forkInfos := F' }) ∧
      MarkedValid forkChoice.forkInfos v F' := by
  obtain ⟨subtree, hsubt, hnodup, hmem⟩ := h.tree.subtree_spec hv hdef
  have hmark := valid v.slot
  have hthere : ∀ k ∈ v :: forkChoice.forkInfos.ancestorIterator v,
      ∃ info, forkChoice.forkInfos.get? k = some info := by
    intro k hk
    rcases mem_cons.mp hk with heq | habove
    · exact ⟨vInfo, heq ▸ hv⟩
    · exact h.tree.get?_of_ancestor (h.tree.mem_ancestorIterator.mp habove).1 hv
  obtain ⟨newly, hnewly⟩ := newlyDuplicateConfirmed_ok forkChoice hthere
  obtain ⟨F', hrun, hlinks⟩ := process_markOperations_ok h.tree hmark hnodup hmem
    (fun _ _ _ _ _ heq => by contradiction)
  refine ⟨newly, F', ?_, ⟨hlinks, ?_⟩⟩
  · simp only [markForkValidCandidate, hnewly, hsubt, ok_bind, hrun]
  have htree' := h.tree.of_sameLinks hlinks
  have honly := fun {k} => confirmed_of_markValid h hnodup hmem hrun hlinks (k := k)
  have hspec := fun {k info} (hk : forkChoice.forkInfos.get? k = some info) =>
    process_markOperations h.tree hmark hnodup hmem hrun hk
  have hreach := fun {k} => confirmed_above h hnodup hmem hrun hlinks hv (k := k)
  intro k info hk
  have hbound : ∀ slot, info.latestInvalidAncestor = some slot → slot ≤ k.slot :=
    fun _ hslot => h.invalid_le hk hslot
  have hkeeps : ∀ {info'}, F'.get? k = some info' → (info.isDuplicateConfirmed = true →
      info'.isDuplicateConfirmed = true) → (info'.isDuplicateConfirmed = true ↔
      info.isDuplicateConfirmed = true ∨ forkChoice.forkInfos.Ancestor k v) := by
    intro info' hk' hmono
    constructor
    · intro hyes
      exact (honly ⟨info', hk', hyes⟩).imp_left (confirmed_of_get? hk).mp
    · intro hyes
      rcases hyes with hself | habove
      · exact hmono hself
      · exact (confirmed_of_get? hk').mp (hreach habove)
  by_cases hvk : forkChoice.forkInfos.Ancestor v k
  · obtain ⟨marked, total, hmarked, htot, hget⟩ := (hspec hk).1 hvk
    obtain ⟨hiff, hclear, hkeep⟩ := aggregated_spec htree' htot hget
    obtain ⟨hmarkconfirmed, hmarkinvalid⟩ := perform_markValid hmarked
    have hlowered : (marked.aggregated total).latestInvalidAncestor =
        lowered v.slot info.latestInvalidAncestor := by
      by_cases hchild : ∃ c, F'.parent c = some k ∧ F'.DuplicateConfirmed c
      · rw [hclear hchild]
        obtain ⟨c, hc, hconf⟩ := hchild
        rw [hlinks.parent_eq] at hc
        rcases honly hconf with hold | hcv
        · have hself := (confirmed_of_get? hk).mp (h.confirmed_parent hc hold)
          rw [h.confirmed_candidate hk hself]
          rfl
        · exact absurd (h.tree.key_lt hc) (not_lt.mpr
            ((le h.tree.key_lt hcv).trans (le h.tree.key_lt hvk)))
      · rw [hkeep hchild, hmarkinvalid]
    refine ⟨_, hget, hkeeps hget ?_, fun _ => hlowered, ?_, fun hnot => absurd hvk hnot⟩
    · exact fun hyes => hiff.mpr (.inl (hmarkconfirmed.mpr (.inl hyes)))
    · intro hkv
      have heq : k = v := antisymm h.tree.key_lt hkv hvk
      rw [hlowered, lowered_eq_none]
      intro slot hslot
      exact heq ▸ hbound slot hslot
  · by_cases hkv : forkChoice.forkInfos.Ancestor k v
    · have hne : k ≠ v := fun heq => hvk (heq ▸ .refl k)
      obtain ⟨total, htot, hget⟩ := (hspec hk).2.1 hkv hne
      obtain ⟨hiff, hclear, _⟩ := aggregated_spec htree' htot hget
      refine ⟨_, hget, hkeeps hget fun hyes => hiff.mpr (.inl hyes), fun hyes => absurd hyes hvk,
        ?_, fun _ hnot => absurd hkv hnot⟩
      intro _
      obtain ⟨c, hc, hcv⟩ := hkv.child_towards hne
      apply hclear
      refine ⟨c, ?_, hreach hcv⟩
      rw [hlinks.parent_eq]
      exact hc
    · have hget := (hspec hk).2.2 hvk hkv
      exact ⟨info, hget, hkeeps hget id, fun hyes => absurd hyes hvk, fun hyes => absurd hyes hkv,
        fun _ _ => rfl⟩

end Effects

/-! ## Validity is kept -/

section Kept

variable {leaf parent : SlotHashKey Hash} {info' : ForkInfo Hash}

theorem ForkInfos.SameLinks.back {P : SlotHashKey Hash → ForkInfo Hash → ForkInfo Hash → Prop}
    (hlinks : SameLinks F F') (hblock : ∀ k info, F.get? k = some info →
      ∃ info', F'.get? k = some info' ∧ P k info info') (hk' : F'.get? k = some info') :
    ∃ info, F.get? k = some info ∧ P k info info' := by
  obtain ⟨info, hk, _⟩ := hlinks.symm.get? hk'
  obtain ⟨found, hfound, heffect⟩ := hblock k info hk
  rw [hk', Option.some.injEq] at hfound
  subst hfound
  exact ⟨info, hk, heffect⟩

theorem MarkedInvalid.confirmed_iff (hmarked : MarkedInvalid F v F') :
    F'.DuplicateConfirmed k ↔ F.DuplicateConfirmed k := by
  constructor
  · intro ⟨info', hk', hyes⟩
    obtain ⟨info, hk, hconf, _⟩ := hmarked.links.back hmarked.block hk'
    exact ⟨info, hk, hconf.symm.trans hyes⟩
  · intro ⟨info, hk, hyes⟩
    obtain ⟨info', hk', hconf, _⟩ := hmarked.block k info hk
    exact ⟨info', hk', hconf.trans hyes⟩

theorem Validity.markInvalid (h : Validity F root) (hv : ¬ F.DuplicateConfirmed v)
    (hmarked : MarkedInvalid F v F') : Validity F' root := by
  constructor
  · exact h.tree.of_sameLinks hmarked.links
  · intro c p hp hc
    rw [hmarked.links.parent_eq] at hp
    exact hmarked.confirmed_iff.mpr (h.confirmed_parent hp (hmarked.confirmed_iff.mp hc))
  · intro k info' hk' hyes
    obtain ⟨info, hk, hconf, _, hkeep⟩ := hmarked.links.back hmarked.block hk'
    have hself : info.isDuplicateConfirmed = true := hconf.symm.trans hyes
    rw [hkeep fun hvk => hv (h.confirmed_ancestor hvk ⟨info, hk, hself⟩)]
    exact h.confirmed_candidate hk hself
  · intro k info' slot hk' hslot
    obtain ⟨info, hk, _, hraise, hkeep⟩ := hmarked.links.back hmarked.block hk'
    by_cases hvk : F.Ancestor v k
    · rw [hraise hvk, raised] at hslot
      split at hslot
      · cases hslot
        exact h.tree.ancestor_slot_le hvk
      · exact h.invalid_le hk hslot
    · rw [hkeep hvk] at hslot
      exact h.invalid_le hk hslot

theorem MarkedValid.confirmed_iff (hmarked : MarkedValid F v F')
    (hk : ∃ info, F.get? k = some info) :
    F'.DuplicateConfirmed k ↔ F.DuplicateConfirmed k ∨ F.Ancestor k v := by
  obtain ⟨info, hk⟩ := hk
  obtain ⟨info', hk', hconf, _⟩ := hmarked.block k info hk
  rw [confirmed_of_get? hk, confirmed_of_get? hk', hconf]

theorem Validity.markValid (h : Validity F root) (hmarked : MarkedValid F v F') :
    Validity F' root := by
  constructor
  · exact h.tree.of_sameLinks hmarked.links
  · intro c p hp hc
    rw [hmarked.links.parent_eq] at hp
    obtain ⟨child, hchild, _⟩ := get?_of_parent hp
    apply (hmarked.confirmed_iff (h.tree.parent_mem hp)).mpr
    rcases (hmarked.confirmed_iff ⟨child, hchild⟩).mp hc with hold | hcv
    · exact .inl (h.confirmed_parent hp hold)
    · exact .inr ((of_parent hp).trans hcv)
  · intro k info' hk' hyes
    obtain ⟨info, hk, hconf, hlower, hclear, hkeep⟩ := hmarked.links.back hmarked.block hk'
    by_cases hkv : F.Ancestor k v
    · exact hclear hkv
    · have hnone := h.confirmed_candidate hk ((hconf.mp hyes).resolve_right hkv)
      by_cases hvk : F.Ancestor v k
      · rw [hlower hvk, hnone]
        rfl
      · rw [hkeep hvk hkv, hnone]
  · intro k info' slot hk' hslot
    obtain ⟨info, hk, _, hlower, hclear, hkeep⟩ := hmarked.links.back hmarked.block hk'
    by_cases hvk : F.Ancestor v k
    · rw [hlower hvk] at hslot
      exact h.invalid_le hk (lowered_eq_some hslot).1
    · by_cases hkv : F.Ancestor k v
      · rw [hclear hkv] at hslot
        contradiction
      · rw [hkeep hvk hkv] at hslot
        exact h.invalid_le hk hslot

theorem withLeaf_standing (hfresh : F.get? leaf = none) (hpar : F.get? parent = some parentInfo)
    (hk : (withLeaf F leaf parent parentInfo).get? k = some info') :
    k = leaf ∧ info'.isDuplicateConfirmed = false ∧
      info'.latestInvalidAncestor = parentInfo.latestInvalidAncestor ∨
    k ≠ leaf ∧ ∃ info, F.get? k = some info ∧
      info'.isDuplicateConfirmed = info.isDuplicateConfirmed ∧
      info'.latestInvalidAncestor = info.latestInvalidAncestor := by
  have hne : parent ≠ leaf := fun heq => by simp [heq, hfresh] at hpar
  rw [get?_withLeaf] at hk
  split at hk
  next heq =>
    subst heq
    cases hk
    exact .inr ⟨hne, parentInfo, hpar, rfl, rfl⟩
  next =>
    split at hk
    next heq =>
      cases hk
      refine .inl ⟨heq, rfl, ?_⟩
      simp [newLeaf, ForkInfos.latestInvalidAncestor, hpar]
    next hleaf => exact .inr ⟨hleaf, info', hk, rfl, rfl⟩

theorem Validity.withLeaf (h : Validity F root) (hfresh : F.get? leaf = none)
    (hpar : F.get? parent = some parentInfo) (hslot : parent.slot < leaf.slot) :
    Validity (withLeaf F leaf parent parentInfo) root := by
  have hthere : ∀ {k}, F.DuplicateConfirmed k →
      (ForkChoice.withLeaf F leaf parent parentInfo).DuplicateConfirmed k := by
    intro k ⟨info, hk, hyes⟩
    have hkleaf : k ≠ leaf := fun heq => by simp [heq, hfresh] at hk
    by_cases hkparent : k = parent
    · subst hkparent
      rw [hpar, Option.some.injEq] at hk
      subst hk
      exact ⟨_, (get?_withLeaf k).trans (if_pos rfl), hyes⟩
    · exact ⟨info, by rw [get?_withLeaf, if_neg hkparent, if_neg hkleaf, hk], hyes⟩
  constructor
  · exact withLeaf_tree h.tree hfresh hpar hslot
  · intro c p hp ⟨info', hc, hyes⟩
    rw [parent_withLeaf hfresh hpar] at hp
    rcases withLeaf_standing hfresh hpar hc with ⟨_, hno, _⟩ | ⟨hcleaf, info, hold, heq, _⟩
    · rw [hno] at hyes
      contradiction
    · rw [if_neg hcleaf] at hp
      exact hthere (h.confirmed_parent hp ⟨info, hold, heq.symm.trans hyes⟩)
  · intro k info' hk hyes
    rcases withLeaf_standing hfresh hpar hk with ⟨_, hno, _⟩ | ⟨_, info, hold, heq, hlatest⟩
    · rw [hno] at hyes
      contradiction
    · rw [hlatest]
      exact h.confirmed_candidate hold (heq.symm.trans hyes)
  · intro k info' slot hk hlatest
    rcases withLeaf_standing hfresh hpar hk with ⟨heq, _, hsame⟩ | ⟨_, info, hold, _, hsame⟩
    · rw [hsame] at hlatest
      have hle := h.invalid_le hpar hlatest
      rw [heq]
      omega
    · rw [hsame] at hlatest
      exact h.invalid_le hold hlatest

end Kept

end RakuraiValidator.ForkChoice
