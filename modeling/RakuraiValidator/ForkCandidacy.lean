import RakuraiValidator.ForkValidity

/-!
# Candidacy of blocks

A block is a candidate unless one of its ancestors was marked as invalid and is not duplicate
confirmed.  Marking a block as valid confirms its ancestors, but clears only these and the blocks
below the marked one: a sibling branch below a newly confirmed ancestor still refers to it.  Where
no such branch exists the latest invalid ancestors are exact.
-/

namespace RakuraiValidator.ForkChoice

open DescendingPasses ForkInfos BTreeMap List

variable {Hash : Type} [LinearOrder Hash]

/-! ## Runs of leaves and marks -/

/-- The fork choices after any order of new leaves and marks, with the blocks which were marked as
invalid and as valid.  `Allowed` restricts the valid marks. -/
inductive Marked [Inhabited Hash] (Allowed : ForkInfos Hash → SlotHashKey Hash → Prop)
    (root : SlotHashKey Hash) :
    HeaviestSubtreeForkChoice Hash → List (SlotHashKey Hash) → List (SlotHashKey Hash) → Prop
  | new {forkChoice} (h : HeaviestSubtreeForkChoice.new root = .ok forkChoice) :
      Marked Allowed root forkChoice [] []
  | leaf {forkChoice next invalid valid key parent} (h : Marked Allowed root forkChoice invalid valid)
      (hparent : forkChoice.forkInfos.containsKey parent) (hslot : parent.slot < key.slot)
      (hstep : forkChoice.addNewLeafSlot key (some parent) = .ok next) :
      Marked Allowed root next invalid valid
  | invalid {forkChoice next invalid valid key info}
      (h : Marked Allowed root forkChoice invalid valid)
      (hkey : forkChoice.forkInfos.get? key = some info)
      (hunconfirmed : info.isDuplicateConfirmed = false)
      (hstep : forkChoice.markForkInvalidCandidate key = .ok next) :
      Marked Allowed root next (key :: invalid) valid
  | valid {forkChoice next invalid valid key newly} (h : Marked Allowed root forkChoice invalid valid)
      (hkey : forkChoice.forkInfos.containsKey key) (hallowed : Allowed forkChoice.forkInfos key)
      (hstep : forkChoice.markForkValidCandidate key = .ok (newly, next)) :
      Marked Allowed root next invalid (key :: valid)

variable (F : ForkInfos Hash)

def Doubted (invalid : List (SlotHashKey Hash)) (a : SlotHashKey Hash) :
    Prop :=
  a ∈ invalid ∧ ¬ F.DuplicateConfirmed a

/-- The closest ancestor of a block, or the block itself, that is doubted. -/
def ClosestDoubted (invalid : List (SlotHashKey Hash))
    (a k : SlotHashKey Hash) : Prop :=
  Doubted F invalid a ∧ F.Ancestor a k ∧ ∀ b, Doubted F invalid b → F.Ancestor b k → F.Ancestor b a

/-- No block outside the ancestors and the subtree of the marked block has one of these ancestors
as its latest invalid ancestor. -/
def SparesBranches (v : SlotHashKey Hash) : Prop :=
  ∀ k info, F.get? k = some info → ¬ F.Ancestor v k → ¬ F.Ancestor k v →
    ∀ a, F.Ancestor a k → F.Ancestor a v → info.latestInvalidAncestor ≠ some a.slot

/-- Slots grow along ancestors, so the closest doubted ancestor is the one with the greatest slot. -/
def LatestDoubted (invalid : List (SlotHashKey Hash)) (k : SlotHashKey Hash) :
    Option ℕ → Prop
  | none => ∀ a, Doubted F invalid a → ¬ F.Ancestor a k
  | some slot => (∃ a, Doubted F invalid a ∧ F.Ancestor a k ∧ a.slot = slot) ∧
      ∀ a, Doubted F invalid a → F.Ancestor a k → a.slot ≤ slot

structure Candidacy (F : ForkInfos Hash) (root : SlotHashKey Hash)
    (invalid valid : List (SlotHashKey Hash)) : Prop where
  validity : Validity F root
  known : ∀ k, k ∈ invalid ∨ k ∈ valid → ∃ info, F.get? k = some info
  confirmed_iff : ∀ k, (∃ info, F.get? k = some info) →
    (F.DuplicateConfirmed k ↔ k = root ∨ ∃ v ∈ valid, F.Ancestor k v)
  latest : ∀ k info, F.get? k = some info → LatestDoubted F invalid k info.latestInvalidAncestor

namespace Candidacy

variable {F F' : ForkInfos Hash} {root k v leaf parent : SlotHashKey Hash}
  {invalid valid : List (SlotHashKey Hash)} {info : ForkInfo Hash}

theorem ne_default_of_unconfirmed [Inhabited Hash] (h : Candidacy F root invalid valid)
    (hk : F.get? k = some info) (hunconf : info.isDuplicateConfirmed = false) :
    k ≠ default := by
  have hroot : k ≠ root := by
    intro heq
    have hconf := (h.confirmed_iff k ⟨info, hk⟩).mpr (.inl heq)
    rw [confirmed_of_get? hk, hunconf] at hconf
    contradiction
  intro heq
  have hlt := h.validity.tree.ancestor_slot_lt (h.validity.tree.root_ancestor hk) hroot.symm
  rw [heq] at hlt
  exact absurd hlt (Nat.not_lt_zero _)

theorem latestDoubted_congr {latest : Option ℕ} {j : SlotHashKey Hash}
    {invalid' : List (SlotHashKey Hash)}
    (hdoubted : ∀ a, Doubted F' invalid' a ∧ F'.Ancestor a j ↔ Doubted F invalid a ∧ F.Ancestor a k)
    (h : LatestDoubted F invalid k latest) : LatestDoubted F' invalid' j latest := by
  cases latest with
  | none =>
    intro a ha hanc
    have hold := (hdoubted a).mp ⟨ha, hanc⟩
    exact h a hold.1 hold.2
  | some slot =>
    obtain ⟨⟨a, ha, hanc, heq⟩, hmax⟩ := h
    constructor
    · have hnew := (hdoubted a).mpr ⟨ha, hanc⟩
      exact ⟨a, hnew.1, hnew.2, heq⟩
    · intro b hb hbanc
      have hold := (hdoubted b).mp ⟨hb, hbanc⟩
      exact hmax b hold.1 hold.2

theorem markInvalid (h : Candidacy F root invalid valid) (hk : F.get? v = some info)
    (hunconf : info.isDuplicateConfirmed = false) (hmark : MarkedInvalid F v F') :
    Candidacy F' root (v :: invalid) valid := by
  have hanc_iff := fun {a k} => hmark.links.ancestor_iff (a := a) (k := k)
  have hfree : ¬ F.DuplicateConfirmed v := by
    rw [confirmed_of_get? hk, hunconf]
    nofun
  have hdoubted : ∀ a, Doubted F' (v :: invalid) a ↔ a = v ∨ Doubted F invalid a := by
    intro a
    simp only [Doubted, mem_cons, hmark.confirmed_iff]
    constructor
    · intro hnow
      exact hnow.1.imp id fun hold => ⟨hold, hnow.2⟩
    · intro hor
      rcases hor with heq | ⟨hold, hno⟩
      · exact ⟨.inl heq, heq ▸ hfree⟩
      · exact ⟨.inr hold, hno⟩
  constructor
  · exact h.validity.markInvalid hfree hmark
  · intro j hj
    have hold : ∃ info, F.get? j = some info := by
      rcases hj with hinvalid | hvalid
      · rcases mem_cons.mp hinvalid with heq | hmem
        · exact ⟨info, heq ▸ hk⟩
        · exact h.known j (.inl hmem)
      · exact h.known j (.inr hvalid)
    obtain ⟨old, hold⟩ := hold
    obtain ⟨new, hnew, _⟩ := hmark.block j old hold
    exact ⟨new, hnew⟩
  · intro j hthere
    obtain ⟨new, hnew⟩ := hthere
    obtain ⟨old, hold, _⟩ := hmark.links.back hmark.block hnew
    simp only [hmark.confirmed_iff, hanc_iff]
    exact h.confirmed_iff j ⟨old, hold⟩
  · intro j new hnew
    obtain ⟨old, hold, _, hraise, hkeep⟩ := hmark.links.back hmark.block hnew
    have hlatest := h.latest j old hold
    by_cases hvj : F.Ancestor v j
    · have hnewest : (∀ a, Doubted F invalid a → F.Ancestor a j → a.slot ≤ v.slot) →
          LatestDoubted F' (v :: invalid) j (some v.slot) := by
        intro hmax
        refine ⟨⟨v, (hdoubted v).mpr (.inl rfl), ?_, rfl⟩, ?_⟩
        · rw [hanc_iff]
          exact hvj
        · intro a ha hanc
          rw [hanc_iff] at hanc
          rcases (hdoubted a).mp ha with heq | hbefore
          · rw [heq]
          · exact hmax a hbefore hanc
      rw [hraise hvj]
      cases hcase : old.latestInvalidAncestor with
      | none =>
        rw [hcase] at hlatest
        exact hnewest fun a ha hanc => absurd hanc (hlatest a ha)
      | some slot =>
        rw [hcase] at hlatest
        obtain ⟨⟨b, hb, hbanc, heq⟩, hmax⟩ := hlatest
        by_cases hlt : slot < v.slot
        · simp only [raised, Option.all_some, hlt, decide_true, if_true]
          exact hnewest fun a ha hanc => (hmax a ha hanc).trans hlt.le
        · simp only [raised, Option.all_some, hlt, decide_false, Bool.false_eq_true, if_false]
          refine ⟨⟨b, (hdoubted b).mpr (.inr hb), ?_, heq⟩, ?_⟩
          · rw [hanc_iff]
            exact hbanc
          · intro a ha hanc
            rw [hanc_iff] at hanc
            rcases (hdoubted a).mp ha with heq | hbefore
            · rw [heq]
              exact not_lt.mp hlt
            · exact hmax a hbefore hanc
    · rw [hkeep hvj]
      refine latestDoubted_congr ?_ hlatest
      intro a
      rw [hdoubted, hanc_iff]
      constructor
      · intro hnow
        refine ⟨hnow.1.resolve_left ?_, hnow.2⟩
        intro heq
        exact hvj (heq ▸ hnow.2)
      · exact fun hold => ⟨.inr hold.1, hold.2⟩

theorem markValid (h : Candidacy F root invalid valid) (hv : F.get? v = some info)
    (hspares : SparesBranches F v) (hmark : MarkedValid F v F') :
    Candidacy F' root invalid (v :: valid) := by
  have hanc_iff := fun {a k} => hmark.links.ancestor_iff (a := a) (k := k)
  have htree := h.validity.tree
  have hdoubted : ∀ a, Doubted F' invalid a ↔ Doubted F invalid a ∧ ¬ F.Ancestor a v := by
    intro a
    simp only [Doubted]
    constructor
    · intro ⟨hmem, hno⟩
      rw [hmark.confirmed_iff (h.known a (.inl hmem)), not_or] at hno
      exact ⟨⟨hmem, hno.1⟩, hno.2⟩
    · intro ⟨⟨hmem, hno⟩, hnot⟩
      refine ⟨hmem, ?_⟩
      rw [hmark.confirmed_iff (h.known a (.inl hmem)), not_or]
      exact ⟨hno, hnot⟩
  constructor
  · exact h.validity.markValid hmark
  · intro j hj
    have hold : ∃ info, F.get? j = some info := by
      rcases hj with hinvalid | hvalid
      · exact h.known j (.inl hinvalid)
      · rcases mem_cons.mp hvalid with heq | hmem
        · exact ⟨info, heq ▸ hv⟩
        · exact h.known j (.inr hmem)
    obtain ⟨old, hold⟩ := hold
    obtain ⟨new, hnew, _⟩ := hmark.block j old hold
    exact ⟨new, hnew⟩
  · intro j ⟨new, hnew⟩
    obtain ⟨old, hold, _⟩ := hmark.links.back hmark.block hnew
    rw [hmark.confirmed_iff ⟨old, hold⟩, h.confirmed_iff j ⟨old, hold⟩]
    simp only [hanc_iff, mem_cons, exists_eq_or_imp, or_assoc]
    constructor
    · intro hor
      rcases hor with hroot | hold | hnew
      · exact .inl hroot
      · exact .inr (.inr hold)
      · exact .inr (.inl hnew)
    · intro hor
      rcases hor with hroot | hnew | hold
      · exact .inl hroot
      · exact .inr (.inr hnew)
      · exact .inr (.inl hold)
  · intro j new hnew
    obtain ⟨old, hold, _, hlower, hclear, hkeep⟩ := hmark.links.back hmark.block hnew
    have hlatest := h.latest j old hold
    have hstays : ∀ {slot}, old.latestInvalidAncestor = some slot →
        (∀ a, F.Ancestor a j → a.slot = slot → ¬ F.Ancestor a v) →
        LatestDoubted F' invalid j (some slot) := by
      intro slot hslot hnot
      rw [hslot] at hlatest
      obtain ⟨⟨b, hb, hbanc, heq⟩, hmax⟩ := hlatest
      refine ⟨⟨b, (hdoubted b).mpr ⟨hb, hnot b hbanc heq⟩, ?_, heq⟩, ?_⟩
      · rw [hanc_iff]
        exact hbanc
      · intro a ha hanc
        rw [hanc_iff] at hanc
        exact hmax a ((hdoubted a).mp ha).1 hanc
    by_cases hvj : F.Ancestor v j
    · rw [hlower hvj]
      cases hcase : lowered v.slot old.latestInvalidAncestor with
      | some slot =>
        obtain ⟨hslot, hlt⟩ := lowered_eq_some hcase
        apply hstays hslot
        intro a _ heq hav
        have hle := htree.ancestor_slot_le hav
        omega
      | none =>
        -- a doubted ancestor of the block is an ancestor of the valid one
        intro a ha hanc
        rw [hanc_iff] at hanc
        obtain ⟨hdoubt, hnot⟩ := (hdoubted a).mp ha
        have hbefore : F.Ancestor v a := (hanc.comparable hvj).resolve_left hnot
        have hne : v ≠ a := fun heq => hnot (heq ▸ .refl v)
        have hlt := htree.ancestor_slot_lt hbefore hne
        cases hslot : old.latestInvalidAncestor with
        | none =>
          rw [hslot] at hlatest
          exact hlatest a hdoubt hanc
        | some slot =>
          rw [hslot] at hlatest hcase
          have hle := hlatest.2 a hdoubt hanc
          have hlow : v.slot < slot := by omega
          simp [lowered, hlow] at hcase
    · by_cases hjv : F.Ancestor j v
      · rw [hclear hjv]
        intro a ha hanc
        rw [hanc_iff] at hanc
        exact ((hdoubted a).mp ha).2 (hanc.trans hjv)
      · rw [hkeep hvj hjv]
        cases hslot : old.latestInvalidAncestor with
        | none =>
          intro a ha hanc
          rw [hanc_iff] at hanc
          rw [hslot] at hlatest
          exact hlatest a ((hdoubted a).mp ha).1 hanc
        | some slot =>
          apply hstays hslot
          intro a hanc heq hav
          exact hspares j old hold hvj hjv a hanc hav (heq ▸ hslot)

variable {parentInfo : ForkInfo Hash} {a : SlotHashKey Hash}

section

variable (htree : ForkTree F root) (hfresh : F.get? leaf = none)
  (hparent : F.get? parent = some parentInfo)

include htree hfresh hparent

theorem ancestor_withLeaf (hk : F.get? k = some info) :
    (ForkChoice.withLeaf F leaf parent parentInfo).Ancestor a k ↔ F.Ancestor a k := by
  have hsame : ∀ {j info}, F.get? j = some info →
      (ForkChoice.withLeaf F leaf parent parentInfo).parent j = F.parent j := by
    intro j info hj
    rw [parent_withLeaf hfresh hparent, if_neg fun heq => by simp [heq, hfresh] at hj]
  constructor
  · intro h
    induction h generalizing info with
    | refl => exact .refl a
    | tail _ hstep ih =>
      rw [hsame hk] at hstep
      obtain ⟨above, habove⟩ := htree.parent_mem hstep
      exact (ih habove).below hstep
  · intro h
    induction h generalizing info with
    | refl => exact .refl a
    | tail _ hstep ih =>
      obtain ⟨above, habove⟩ := htree.parent_mem hstep
      exact (ih habove).below ((hsame hk).trans hstep)

theorem ancestor_leaf :
    (ForkChoice.withLeaf F leaf parent parentInfo).Ancestor a leaf ↔
      a = leaf ∨ F.Ancestor a parent := by
  have hup : (ForkChoice.withLeaf F leaf parent parentInfo).parent leaf = some parent := by
    rw [parent_withLeaf hfresh hparent, if_pos rfl]
  rw [← ancestor_withLeaf htree hfresh hparent hparent]
  constructor
  · intro h
    by_cases heq : a = leaf
    · exact .inl heq
    · exact .inr (h.above heq hup)
  · intro hor
    rcases hor with heq | h
    · exact heq ▸ .refl a
    · exact h.below hup

end

variable (h : Candidacy F root invalid valid)

include h

theorem withLeaf (hfresh : F.get? leaf = none) (hparent : F.get? parent = some parentInfo)
    (hslot : parent.slot < leaf.slot) :
    Candidacy (withLeaf F leaf parent parentInfo) root invalid valid := by
  have htree := h.validity.tree
  have hne : parent ≠ leaf := fun heq => by simp [heq, hfresh] at hparent
  have hthere : ∀ {k info}, F.get? k = some info →
      ∃ info', (ForkChoice.withLeaf F leaf parent parentInfo).get? k = some info' ∧
        info'.isDuplicateConfirmed = info.isDuplicateConfirmed := by
    intro k info hk
    have hkleaf : k ≠ leaf := fun heq => by simp [heq, hfresh] at hk
    by_cases hkparent : k = parent
    · subst hkparent
      rw [hparent, Option.some.injEq] at hk
      subst hk
      exact ⟨_, (get?_withLeaf k).trans (if_pos rfl), rfl⟩
    · exact ⟨info, by rw [get?_withLeaf, if_neg hkparent, if_neg hkleaf, hk], rfl⟩
  have hconf : ∀ {k info}, F.get? k = some info →
      ((ForkChoice.withLeaf F leaf parent parentInfo).DuplicateConfirmed k ↔
        F.DuplicateConfirmed k) := by
    intro k info hk
    obtain ⟨info', hk', heq⟩ := hthere hk
    rw [confirmed_of_get? hk, confirmed_of_get? hk', heq]
  have hunmarked : ∀ k, k ∈ invalid ∨ k ∈ valid → k ≠ leaf := by
    intro k hk heq
    obtain ⟨info, hinfo⟩ := h.known k hk
    simp [heq, hfresh] at hinfo
  have hdoubted : ∀ a, Doubted (ForkChoice.withLeaf F leaf parent parentInfo) invalid a ↔
      Doubted F invalid a := by
    intro a
    simp only [Doubted]
    constructor
    · intro ⟨hmem, hno⟩
      obtain ⟨info, hinfo⟩ := h.known a (.inl hmem)
      exact ⟨hmem, fun hyes => hno ((hconf hinfo).mpr hyes)⟩
    · intro ⟨hmem, hno⟩
      obtain ⟨info, hinfo⟩ := h.known a (.inl hmem)
      exact ⟨hmem, fun hyes => hno ((hconf hinfo).mp hyes)⟩
  constructor
  · exact h.validity.withLeaf hfresh hparent hslot
  · intro k hk
    obtain ⟨info, hinfo⟩ := h.known k hk
    obtain ⟨info', hinfo', _⟩ := hthere hinfo
    exact ⟨info', hinfo'⟩
  · intro k ⟨info', hk'⟩
    rcases withLeaf_standing hfresh hparent hk' with ⟨heq, hno, _⟩ | ⟨hkleaf, info, hk, _⟩
    · subst heq
      rw [confirmed_of_get? hk', hno]
      constructor
      · nofun
      · intro hor
        rcases hor with hroot | ⟨v, hv, hkv⟩
        · obtain ⟨info, hinfo⟩ := htree.root_mem
          rw [← hroot, hfresh] at hinfo
          contradiction
        · obtain ⟨info, hinfo⟩ := h.known v (.inr hv)
          rw [ancestor_withLeaf htree hfresh hparent hinfo] at hkv
          obtain ⟨found, hfound⟩ := htree.get?_of_ancestor hkv hinfo
          rw [hfresh] at hfound
          contradiction
    · rw [hconf hk, h.confirmed_iff k ⟨info, hk⟩]
      apply or_congr_right
      apply exists_congr
      intro v
      apply and_congr_right
      intro hv
      obtain ⟨vInfo, hvInfo⟩ := h.known v (.inr hv)
      rw [ancestor_withLeaf htree hfresh hparent hvInfo]
  · intro k info' hk'
    rcases withLeaf_standing hfresh hparent hk' with ⟨heq, _, hlatest⟩ | ⟨_, info, hk, _, hlatest⟩
    · subst heq
      rw [hlatest]
      refine latestDoubted_congr ?_ (h.latest parent parentInfo hparent)
      intro a
      rw [hdoubted, ancestor_leaf htree hfresh hparent]
      apply and_congr_right
      intro ha
      exact or_iff_right (hunmarked a (.inl ha.1))
    · rw [hlatest]
      refine latestDoubted_congr ?_ (h.latest k info hk)
      intro a
      rw [hdoubted, ancestor_withLeaf htree hfresh hparent hk]

theorem of_sameStanding (hsame : SameStanding F F') : Candidacy F' root invalid valid := by
  have hanc_iff := fun {a k} => hsame.sameLinks.ancestor_iff (a := a) (k := k)
  have hconf : ∀ {k}, F'.DuplicateConfirmed k ↔ F.DuplicateConfirmed k := hsame.confirmed_iff
  constructor
  · exact h.validity.of_sameStanding hsame
  · intro k hk
    obtain ⟨info, hinfo⟩ := h.known k hk
    obtain ⟨info', hinfo', _⟩ := hsame.get? hinfo
    exact ⟨info', hinfo'⟩
  · intro k ⟨info', hinfo'⟩
    obtain ⟨info, hinfo, _⟩ := hsame.symm.get? hinfo'
    simp only [hconf, hanc_iff]
    exact h.confirmed_iff k ⟨info, hinfo⟩
  · intro k info' hk'
    obtain ⟨info, hk, hstanding⟩ := hsame.symm.get? hk'
    have hlatest : info.latestInvalidAncestor = info'.latestInvalidAncestor :=
      congrArg (·.2.1) hstanding
    rw [← hlatest]
    refine latestDoubted_congr ?_ (h.latest k info hk)
    intro a
    simp only [Doubted, hconf, hanc_iff]

theorem latest_iff (hk : F.get? k = some info) (slot : ℕ) :
    info.latestInvalidAncestor = some slot ↔ ∃ a, ClosestDoubted F invalid a k ∧ a.slot = slot := by
  have htree := h.validity.tree
  have hlatest := h.latest k info hk
  constructor
  · intro hslot
    rw [hslot] at hlatest
    obtain ⟨⟨a, ha, hanc, heq⟩, hmax⟩ := hlatest
    refine ⟨a, ⟨ha, hanc, ?_⟩, heq⟩
    intro b hb hbanc
    rcases hbanc.comparable hanc with hba | hab
    · exact hba
    · by_cases hsame : a = b
      · exact hsame ▸ .refl a
      · have hlt := htree.ancestor_slot_lt hab hsame
        have hle := hmax b hb hbanc
        omega
  · intro ⟨a, ⟨ha, hanc, hclosest⟩, heq⟩
    cases hcase : info.latestInvalidAncestor with
    | none =>
      rw [hcase] at hlatest
      exact absurd hanc (hlatest a ha)
    | some latest =>
      rw [hcase] at hlatest
      obtain ⟨⟨b, hb, hbanc, hbslot⟩, hmax⟩ := hlatest
      have hle := htree.ancestor_slot_le (hclosest b hb hbanc)
      have hge := hmax a ha hanc
      rw [Option.some.injEq]
      omega

end Candidacy

/-! ## Whole runs -/

section Runs

variable {root : SlotHashKey Hash} {invalid valid : List (SlotHashKey Hash)}
  {forkChoice : HeaviestSubtreeForkChoice Hash}

theorem candidacy_new (h : HeaviestSubtreeForkChoice.new root = .ok forkChoice) :
    Candidacy forkChoice.forkInfos root [] [] := by
  simp only [HeaviestSubtreeForkChoice.new, addNewLeafSlot, containsKey,
    get?_empty, Option.isSome_none, Bool.false_eq_true, if_false, ok_bind,
    Except.ok.injEq] at h
  subst h
  have hget : ∀ k, get? ((empty : ForkInfos Hash).insert root
      (newLeaf empty root none)).2 k =
      if k = root then some (newLeaf empty root none) else none := by
    intro k
    rw [get?_insert]
    rfl
  have hparent : ∀ k, parent ((empty : ForkInfos Hash).insert root
      (newLeaf empty root none)).2 k = none := by
    intro k
    rw [parent, hget]
    split <;> rfl
  have hroot : ∀ {k info}, get? ((empty : ForkInfos Hash).insert root
      (newLeaf empty root none)).2 k = some info →
      k = root ∧ info = newLeaf empty root none := by
    intro k info hk
    rw [hget] at hk
    split at hk
    next heq => exact ⟨heq, (Option.some.inj hk).symm⟩
    next => contradiction
  have hconf : ForkInfos.DuplicateConfirmed ((empty : ForkInfos Hash).insert root
      (newLeaf empty root none)).2 root :=
    ⟨_, (hget root).trans (if_pos rfl), rfl⟩
  have htree : ForkTree ((empty : ForkInfos Hash).insert root
      (newLeaf empty root none)).2 root := by
    constructor
    · exact ⟨_, (hget root).trans (if_pos rfl)⟩
    · exact hparent root
    · intro k info hk hne
      exact absurd (hroot hk).1 hne
    · intro k c info hk
      rw [hparent, (hroot hk).2]
      simp [newLeaf, BTreeMap.keys]
    · intro c p hp
      rw [hparent] at hp
      contradiction
    · intro c p hp
      rw [hparent] at hp
      contradiction
  refine ⟨⟨htree, ?_, ?_, ?_⟩, ?_, ?_, ?_⟩
  · intro c p hp
    rw [hparent] at hp
    contradiction
  · intro k info hk _
    rw [(hroot hk).2]
    rfl
  · intro k info slot hk hslot
    rw [(hroot hk).2] at hslot
    contradiction
  · intro k hk
    simp at hk
  · intro k hthere
    obtain ⟨info, hk⟩ := hthere
    rw [(hroot hk).1]
    simp [hconf]
  · intro k info hk
    rw [(hroot hk).2]
    intro a ha
    exact absurd ha.1 not_mem_nil

variable {key : SlotHashKey Hash}

theorem addNewLeafSlot_candidacy (h : Candidacy forkChoice.forkInfos root invalid valid)
    {parent : SlotHashKey Hash} (hparent : forkChoice.forkInfos.containsKey parent)
    (hslot : parent.slot < key.slot) :
    ∃ next, forkChoice.addNewLeafSlot key (some parent) = .ok next ∧
      Candidacy next.forkInfos root invalid valid := by
  obtain ⟨parentInfo, hparInfo⟩ := (containsKey_iff _ _).mp hparent
  simp only [HeaviestSubtreeForkChoice.addNewLeafSlot]
  by_cases hthere : forkChoice.forkInfos.containsKey key
  · have hsame : forkChoice.forkInfos.addNewLeafSlot key (some parent) =
        .ok forkChoice.forkInfos := by
      rw [addNewLeafSlot, if_pos hthere]
    exact ⟨forkChoice, by rw [hsame]; rfl, h⟩
  · have hfresh : forkChoice.forkInfos.get? key = none := by
      cases hget : forkChoice.forkInfos.get? key with
      | none => rfl
      | some info => exact absurd ((containsKey_iff _ _).mpr ⟨info, hget⟩) hthere
    obtain ⟨F', hrun, hsame⟩ := addNewLeafSlot_ok h.validity.tree hfresh hparInfo hslot
    refine ⟨{ forkChoice with forkInfos := F' }, by rw [hrun]; rfl, ?_⟩
    exact (h.withLeaf hfresh hparInfo hslot).of_sameStanding hsame

variable {info : ForkInfo Hash}

theorem markForkValidCandidate_default [Inhabited Hash]
    (h : Candidacy forkChoice.forkInfos root invalid valid)
    (hdef : forkChoice.forkInfos.get? default = some info) :
    root = default ∧
      ∃ newly, forkChoice.markForkValidCandidate default = .ok (newly, forkChoice) := by
  have htree := h.validity.tree
  have hroot : root = default := by
    by_contra hne
    have hlt := htree.ancestor_slot_lt (htree.root_ancestor hdef) hne
    exact absurd hlt (Nat.not_lt_zero _)
  refine ⟨hroot, ?_⟩
  have hnone : forkChoice.forkInfos.ancestorIterator default = [] := by
    apply eq_nil_iff_forall_not_mem.mpr
    intro a ha
    obtain ⟨habove, hne⟩ := htree.mem_ancestorIterator.mp ha
    exact hne (htree.eq_root_of_ancestor (hroot ▸ habove) |>.trans hroot)
  have hthere : ∀ k ∈ [default], ∃ info, forkChoice.forkInfos.get? k = some info :=
    fun k hk => ⟨info, mem_singleton.mp hk ▸ hdef⟩
  obtain ⟨newly, hnewly⟩ := newlyDuplicateConfirmed_ok forkChoice hthere
  refine ⟨newly, ?_⟩
  simp only [HeaviestSubtreeForkChoice.markForkValidCandidate, hnone, hnewly,
    htree.subtree_default hdef, ok_bind, HeaviestSubtreeForkChoice.markOperations,
    UpdateOperations.insertAggregateOperations, UpdateOperations.insertAcross, foldl_nil]
  rfl

variable [Inhabited Hash]

section

variable (h : Candidacy forkChoice.forkInfos root invalid valid)

include h

theorem markForkInvalidCandidate_candidacy (hkey : forkChoice.forkInfos.get? key = some info)
    (hunconf : info.isDuplicateConfirmed = false) :
    ∃ next, forkChoice.markForkInvalidCandidate key = .ok next ∧
      Candidacy next.forkInfos root (key :: invalid) valid := by
  obtain ⟨F', hrun, hmark⟩ := markForkInvalidCandidate_effect h.validity hkey hunconf
    (h.ne_default_of_unconfirmed hkey hunconf)
  exact ⟨_, hrun, h.markInvalid hkey hunconf hmark⟩

theorem markForkValidCandidate_candidacy (hkey : forkChoice.forkInfos.containsKey key) :
    ∃ newly next, forkChoice.markForkValidCandidate key = .ok (newly, next) ∧
      (SparesBranches forkChoice.forkInfos key →
        Candidacy next.forkInfos root invalid (key :: valid)) := by
  obtain ⟨info, hinfo⟩ := (containsKey_iff _ _).mp hkey
  by_cases hdef : key = default
  · subst hdef
    obtain ⟨hroot, newly, hrun⟩ := markForkValidCandidate_default h hinfo
    refine ⟨newly, forkChoice, hrun, ?_⟩
    intro _
    refine ⟨h.validity, ?_, ?_, h.latest⟩
    · intro k hk
      rcases hk with hinvalid | hvalid
      · exact h.known k (.inl hinvalid)
      · rcases mem_cons.mp hvalid with heq | hold
        · exact ⟨info, heq ▸ hinfo⟩
        · exact h.known k (.inr hold)
    · intro k hk
      rw [h.confirmed_iff k hk]
      constructor
      · exact Or.imp_right fun ⟨v, hv, hkv⟩ => ⟨v, mem_cons_of_mem _ hv, hkv⟩
      · intro hor
        rcases hor with heq | ⟨v, hv, hkv⟩
        · exact .inl heq
        · rcases mem_cons.mp hv with heq | hold
          · rw [heq, ← hroot] at hkv
            exact .inl (h.validity.tree.eq_root_of_ancestor hkv)
          · exact .inr ⟨v, hold, hkv⟩
  · obtain ⟨newly, F', hrun, hmark⟩ := markForkValidCandidate_effect h.validity hinfo hdef
    exact ⟨newly, _, hrun, fun hspares => h.markValid hinfo hspares hmark⟩

end

theorem Marked.candidacy (h : Marked SparesBranches root forkChoice invalid valid) :
    Candidacy forkChoice.forkInfos root invalid valid := by
  induction h with
  | new h => exact candidacy_new h
  | leaf _ hparent hslot hstep ih =>
    obtain ⟨next, hrun, hnext⟩ := addNewLeafSlot_candidacy ih hparent hslot
    rw [hstep, Except.ok.injEq] at hrun
    exact hrun ▸ hnext
  | invalid _ hkey hunconf hstep ih =>
    obtain ⟨next, hrun, hnext⟩ := markForkInvalidCandidate_candidacy ih hkey hunconf
    rw [hstep, Except.ok.injEq] at hrun
    exact hrun ▸ hnext
  | valid _ hkey hallow hstep ih =>
    obtain ⟨newly, next, hrun, hnext⟩ := markForkValidCandidate_candidacy ih hkey
    rw [hstep, Except.ok.injEq, Prod.mk.injEq] at hrun
    exact hrun.2 ▸ hnext hallow

/-- After any run whose valid marks spare other branches, confirmations and latest invalid ancestors
are those of the marks, and every further leaf or mark is processed. -/
theorem candidacy_exact (h : Marked SparesBranches root forkChoice invalid valid) :
    (∀ k info, forkChoice.forkInfos.get? k = some info →
      (info.isDuplicateConfirmed = true ↔
        k = root ∨ ∃ v ∈ valid, forkChoice.forkInfos.Ancestor k v) ∧
      (∀ slot, info.latestInvalidAncestor = some slot ↔
        ∃ a, ClosestDoubted forkChoice.forkInfos invalid a k ∧ a.slot = slot) ∧
      (info.isCandidate = true ↔
        ∀ a, Doubted forkChoice.forkInfos invalid a → ¬ forkChoice.forkInfos.Ancestor a k)) ∧
    (∀ key parent, forkChoice.forkInfos.containsKey parent → parent.slot < key.slot →
      ∃ next, forkChoice.addNewLeafSlot key (some parent) = .ok next) ∧
    (∀ key info, forkChoice.forkInfos.get? key = some info → info.isDuplicateConfirmed = false →
      ∃ next, forkChoice.markForkInvalidCandidate key = .ok next) ∧
    (∀ key, forkChoice.forkInfos.containsKey key →
      ∃ newly next, forkChoice.markForkValidCandidate key = .ok (newly, next)) := by
  have hinv := h.candidacy
  refine ⟨?_, ?_, ?_, ?_⟩
  · intro k info hk
    refine ⟨?_, hinv.latest_iff hk, ?_⟩
    · rw [← confirmed_of_get? hk]
      exact hinv.confirmed_iff k ⟨info, hk⟩
    · have hlatest := hinv.latest k info hk
      rw [ForkInfo.isCandidate]
      cases hcase : info.latestInvalidAncestor with
      | none =>
        rw [hcase] at hlatest
        exact ⟨fun _ => hlatest, fun _ => rfl⟩
      | some slot =>
        rw [hcase] at hlatest
        obtain ⟨⟨a, ha, hanc, _⟩, _⟩ := hlatest
        exact ⟨nofun, fun hnone => absurd hanc (hnone a ha)⟩
  · intro key parent hparent hslot
    obtain ⟨next, hrun, _⟩ := addNewLeafSlot_candidacy hinv hparent hslot
    exact ⟨next, hrun⟩
  · intro key info hkey hunconfirmed
    obtain ⟨next, hrun, _⟩ := markForkInvalidCandidate_candidacy hinv hkey hunconfirmed
    exact ⟨next, hrun⟩
  · intro key hkey
    obtain ⟨newly, next, hrun, _⟩ := markForkValidCandidate_candidacy hinv hkey
    exact ⟨newly, next, hrun⟩

end Runs

/-! ## Replayed runs -/

inductive ForkAction (Hash : Type)
  | leaf (key parent : SlotHashKey Hash)
  | invalid (key : SlotHashKey Hash)
  | valid (key : SlotHashKey Hash)

namespace ForkAction

variable [Inhabited Hash] (forkChoice : HeaviestSubtreeForkChoice Hash)

def enabled : ForkAction Hash → Bool
  | leaf key parent => forkChoice.forkInfos.containsKey parent && parent.slot < key.slot
  | invalid key => (forkChoice.forkInfos.get? key).any fun info => !info.isDuplicateConfirmed
  | valid key => forkChoice.forkInfos.containsKey key

def perform :
    ForkAction Hash → Except Panic (HeaviestSubtreeForkChoice Hash)
  | leaf key parent => forkChoice.addNewLeafSlot key (some parent)
  | invalid key => forkChoice.markForkInvalidCandidate key
  | valid key => (forkChoice.markForkValidCandidate key).map Prod.snd

def replay (actions : List (ForkAction Hash)) (forkChoice : HeaviestSubtreeForkChoice Hash) :
    Option (HeaviestSubtreeForkChoice Hash) :=
  actions.foldlM (fun forkChoice action =>
    if action.enabled forkChoice then (action.perform forkChoice).toOption else none) forkChoice

def invalidMark : ForkAction Hash → Option (SlotHashKey Hash)
  | invalid key => some key
  | _ => none

def validMark : ForkAction Hash → Option (SlotHashKey Hash)
  | valid key => some key
  | _ => none

variable {Allowed : ForkInfos Hash → SlotHashKey Hash → Prop}
  {forkChoice next : HeaviestSubtreeForkChoice Hash}
  {root : SlotHashKey Hash} {invalid valid : List (SlotHashKey Hash)}

variable (h : Marked Allowed root forkChoice invalid valid)

include h

theorem marked_perform {action : ForkAction Hash} (henabled : action.enabled forkChoice = true)
    (hallow : ∀ key, action = .valid key → Allowed forkChoice.forkInfos key)
    (hperf : action.perform forkChoice = .ok next) :
    Marked Allowed root next (action.invalidMark.toList ++ invalid)
      (action.validMark.toList ++ valid) := by
  cases action with
  | leaf key parent =>
    simp only [enabled, Bool.and_eq_true, decide_eq_true_eq] at henabled
    exact h.leaf henabled.1 henabled.2 hperf
  | invalid key =>
    obtain ⟨info, hkey, hunconf⟩ := (Option.any_eq_true _ _).mp henabled
    exact h.invalid hkey (by simpa using hunconf) hperf
  | valid key =>
    obtain ⟨⟨newly, last⟩, hrun, heq⟩ := map_eq_ok_iff.mp hperf
    subst heq
    exact h.valid henabled (hallow key rfl) hrun

theorem marked_replay {actions : List (ForkAction Hash)}
    (hallow : ∀ F key, .valid key ∈ actions → Allowed F key)
    (hreplay : replay actions forkChoice = some next) :
    Marked Allowed root next ((actions.filterMap invalidMark).reverse ++ invalid)
      ((actions.filterMap validMark).reverse ++ valid) := by
  induction actions generalizing forkChoice invalid valid with
  | nil =>
    cases hreplay
    exact h
  | cons action actions ih =>
    obtain ⟨middle, hfirst, hrest⟩ := Option.bind_eq_some_iff.mp hreplay
    simp only at hfirst
    split at hfirst
    next henabled =>
      have hrun : action.perform forkChoice = .ok middle := by
        cases hperf : action.perform forkChoice with
        | error e => simp [hperf, Except.toOption] at hfirst
        | ok result =>
          simp only [hperf, Except.toOption, Option.some.injEq] at hfirst
          rw [hfirst]
      have hstep := marked_perform h henabled
        (fun key heq => hallow _ key (heq ▸ mem_cons_self)) hrun
      have hlast := ih hstep (fun F key hmem => hallow F key (mem_cons_of_mem _ hmem)) hrest
      cases action <;> simpa [filterMap_cons, invalidMark, validMark] using hlast
    next => contradiction

end ForkAction

def runFromZero (actions : List (ForkAction ℕ)) : Option (HeaviestSubtreeForkChoice ℕ) :=
  (HeaviestSubtreeForkChoice.new ⟨0, 1⟩).toOption.bind (ForkAction.replay actions)

theorem marked_runFromZero {Allowed : ForkInfos ℕ → SlotHashKey ℕ → Prop}
    {actions : List (ForkAction ℕ)} {forkChoice : HeaviestSubtreeForkChoice ℕ}
    (hallow : ∀ F key, .valid key ∈ actions → Allowed F key)
    (h : runFromZero actions = some forkChoice) :
    Marked Allowed ⟨0, 1⟩ forkChoice (actions.filterMap ForkAction.invalidMark).reverse
      (actions.filterMap ForkAction.validMark).reverse := by
  obtain ⟨start, hstart, hreplay⟩ := Option.bind_eq_some_iff.mp h
  have hnew : HeaviestSubtreeForkChoice.new ⟨0, 1⟩ = .ok start := by
    cases hcase : (HeaviestSubtreeForkChoice.new ⟨0, 1⟩ :
        Except Panic (HeaviestSubtreeForkChoice ℕ)) with
    | error e => simp [hcase, Except.toOption] at hstart
    | ok result =>
      simp only [hcase, Except.toOption, Option.some.injEq] at hstart
      rw [hstart]
  simpa using ForkAction.marked_replay (.new hnew) hallow hreplay

def branchActions : List (ForkAction ℕ) :=
  [.leaf ⟨1, 1⟩ ⟨0, 1⟩, .leaf ⟨2, 1⟩ ⟨1, 1⟩, .leaf ⟨3, 1⟩ ⟨1, 1⟩, .invalid ⟨1, 1⟩, .valid ⟨2, 1⟩]

/-- The first block is confirmed through the second one, and still keeps the third one from being a
candidate. -/
theorem stale_invalid_ancestor : ∃ forkChoice : HeaviestSubtreeForkChoice ℕ,
    Marked (fun _ _ => True) ⟨0, 1⟩ forkChoice [⟨1, 1⟩] [⟨2, 1⟩] ∧
    (∀ a, ¬ Doubted forkChoice.forkInfos [⟨1, 1⟩] a) ∧
    ∃ info, forkChoice.forkInfos.get? ⟨3, 1⟩ = some info ∧
      info.latestInvalidAncestor = some 1 ∧ info.isCandidate = false := by
  have hreached : (runFromZero branchActions).any (fun forkChoice =>
      (forkChoice.forkInfos.get? ⟨1, 1⟩).any (·.isDuplicateConfirmed) &&
        (forkChoice.forkInfos.get? ⟨3, 1⟩).any (·.latestInvalidAncestor = some 1)) = true := by
    decide +kernel
  obtain ⟨forkChoice, hrun, hstate⟩ := (Option.any_eq_true _ _).mp hreached
  obtain ⟨hconfirmed, hstale⟩ := Bool.and_eq_true_iff.mp hstate
  refine ⟨forkChoice, ?_, ?_, ?_⟩
  · exact marked_runFromZero (fun _ _ _ => trivial) hrun
  · intro a ⟨hmem, hno⟩
    rw [mem_singleton.mp hmem] at hno
    exact hno ((Option.any_eq_true _ _).mp hconfirmed)
  · obtain ⟨info, hinfo, hlatest⟩ := (Option.any_eq_true _ _).mp hstale
    rw [decide_eq_true_eq] at hlatest
    exact ⟨info, hinfo, hlatest, by rw [ForkInfo.isCandidate, hlatest]; rfl⟩

/-- The third block branches off from the ancestors of the second one.  It is marked itself, so no
ancestor of the second one is its latest invalid ancestor. -/
theorem candidacy_exact_branches : ∃ forkChoice : HeaviestSubtreeForkChoice ℕ,
    Marked SparesBranches ⟨0, 1⟩ forkChoice [⟨3, 1⟩, ⟨1, 1⟩] [⟨2, 1⟩] ∧
    ∀ k info, forkChoice.forkInfos.get? k = some info →
      (info.isCandidate = true ↔ ∀ a, Doubted forkChoice.forkInfos [⟨3, 1⟩, ⟨1, 1⟩] a →
        ¬ forkChoice.forkInfos.Ancestor a k) := by
  have hreached : (runFromZero (branchActions.dropLast ++ [.invalid ⟨3, 1⟩])).any
      (fun forkChoice => forkChoice.forkInfos.containsKey ⟨2, 1⟩ &&
        forkChoice.forkInfos.entries.all fun entry =>
          entry.1 = ⟨2, 1⟩ || entry.1 ∈ forkChoice.forkInfos.ancestorIterator ⟨2, 1⟩ ||
            (forkChoice.forkInfos.ancestorIterator ⟨2, 1⟩).all
              (entry.2.latestInvalidAncestor ≠ some ·.slot)) = true := by
    decide +kernel
  obtain ⟨forkChoice, hstart, hstate⟩ := (Option.any_eq_true _ _).mp hreached
  obtain ⟨hkey, hplaces⟩ := Bool.and_eq_true_iff.mp hstate
  have hbefore : Marked SparesBranches ⟨0, 1⟩ forkChoice [⟨3, 1⟩, ⟨1, 1⟩] [] :=
    marked_runFromZero (by simp [branchActions]) hstart
  have hspares : SparesBranches forkChoice.forkInfos ⟨2, 1⟩ := by
    intro k info hk hbelow hnot a hak hav
    have htree := hbefore.candidacy.validity.tree
    have hplace := all_eq_true.mp hplaces _ ((get?_eq_some_iff _ _ _).mp hk)
    simp only [Bool.or_eq_true, decide_eq_true_eq] at hplace
    rcases hplace with (heq | habove) | hother
    · exact absurd (heq ▸ .refl k) hnot
    · exact absurd (htree.mem_ancestorIterator.mp habove).1 hnot
    · have hne : a ≠ ⟨2, 1⟩ := fun heq => hbelow (heq ▸ hak)
      simpa using all_eq_true.mp hother a (htree.mem_ancestorIterator.mpr ⟨hav, hne⟩)
  obtain ⟨newly, next, hrun, _⟩ := markForkValidCandidate_candidacy hbefore.candidacy hkey
  have hmarked := hbefore.valid hkey hspares hrun
  exact ⟨next, hmarked, fun k info hk => ((candidacy_exact hmarked).1 k info hk).2.2⟩

end RakuraiValidator.ForkChoice
