import RakuraiValidator.ForkTrees

/-!
# Batches of update operations

A batch is processed from the greatest block to the smallest, and an aggregation reads only the
children of its block.  Every block is therefore in the end the result of its own operations on
what the batch has made of its children.  The batch of a mark marks and aggregates the blocks below
the marked one and aggregates those above.
-/

namespace RakuraiValidator.ForkChoice

open DescendingPasses BTreeMap ForkInfo UpdateOperation List

variable {Hash : Type} [LinearOrder Hash]

/-! ## What a block gathers -/

variable {F F' : ForkInfos Hash} {k : SlotHashKey Hash} {info : ForkInfo Hash}

namespace ForkInfos

theorem gather_congr (h : ∀ c ∈ info.children.keys, F.get? c = F'.get? c) :
    F.gather k info = F'.gather k info := by
  have hfold : ∀ (keys : List (SlotHashKey Hash)) (total : Aggregation Hash),
      (∀ c ∈ keys, F.get? c = F'.get? c) →
      keys.foldlM (fun total childKey => do
        let child ← F.expectFork childKey
        (.ok (total.visit k childKey child) : Except Panic (Aggregation Hash))) total =
      keys.foldlM (fun total childKey => do
        let child ← F'.expectFork childKey
        .ok (total.visit k childKey child)) total := by
    intro keys
    induction keys with
    | nil => exact fun _ _ => rfl
    | cons c keys ih =>
      intro total hkeys
      have hread : F.expectFork c = F'.expectFork c := by
        simp only [expectFork, hkeys c mem_cons_self]
      rw [foldlM_cons, foldlM_cons, hread]
      congr 1
      funext next
      exact ih next fun d hd => hkeys d (mem_cons_of_mem _ hd)
  exact hfold _ _ h

theorem gather_eq {infoOf : SlotHashKey Hash → ForkInfo Hash}
    (h : ∀ c ∈ info.children.keys, F.get? c = some (infoOf c)) :
    F.gather k info = .ok (info.children.keys.foldl
      (fun total c => total.visit k c (infoOf c)) (Aggregation.start k info.stakeVotedAt)) := by
  have hfold : ∀ (keys : List (SlotHashKey Hash)) (total : Aggregation Hash),
      (∀ c ∈ keys, F.get? c = some (infoOf c)) →
      keys.foldlM (fun total childKey => do
        let child ← F.expectFork childKey
        .ok (total.visit k childKey child)) total =
      .ok (keys.foldl (fun total c => total.visit k c (infoOf c)) total) := by
    intro keys
    induction keys with
    | nil => exact fun _ _ => rfl
    | cons c keys ih =>
      intro total hkeys
      rw [foldlM_cons, expectFork_of_get? (hkeys c mem_cons_self)]
      exact ih _ fun d hd => hkeys d (mem_cons_of_mem _ hd)
  exact hfold _ _ h

end ForkInfos

namespace Aggregation

variable {c : SlotHashKey Hash} {total : Aggregation Hash} {child : ForkInfo Hash}

@[simp] theorem compareBest_isDuplicateConfirmed :
    (total.compareBest k c child).isDuplicateConfirmed = total.isDuplicateConfirmed := by
  unfold compareBest
  split <;> rfl

@[simp] theorem compareDeepest_isDuplicateConfirmed :
    (total.compareDeepest k c child).isDuplicateConfirmed = total.isDuplicateConfirmed := by
  unfold compareDeepest
  split <;> rfl

theorem foldl_visit_isDuplicateConfirmed (keys : List (SlotHashKey Hash))
    (infoOf : SlotHashKey Hash → ForkInfo Hash) (total : Aggregation Hash) :
    (keys.foldl (fun total c => total.visit k c (infoOf c)) total).isDuplicateConfirmed =
      (total.isDuplicateConfirmed || keys.any fun c => (infoOf c).isDuplicateConfirmed) := by
  induction keys generalizing total with
  | nil => simp
  | cons c keys ih =>
    rw [foldl_cons, ih]
    simp [visit, countStake, Bool.or_assoc]

end Aggregation

/-! ## Operations on one block -/

def UpdateOperation.perform (F : ForkInfos Hash) (k : SlotHashKey Hash) :
    UpdateOperation → ForkInfo Hash → Except Panic (ForkInfo Hash)
  | .markValid validSlot, info =>
    let info := info.updateWithNewlyValidAncestor validSlot
    .ok (if k.slot = validSlot then { info with isDuplicateConfirmed := true } else info)
  | .markInvalid invalidSlot, info => info.updateWithNewlyInvalidAncestor invalidSlot
  | .aggregate, info => (F.gather k info).map info.aggregated

theorem ForkInfos.processUpdateOperation_eq (F : ForkInfos Hash) (k : SlotHashKey Hash)
    (operation : UpdateOperation) :
    F.processUpdateOperation k operation = update F k (operation.perform F k) := by
  cases operation <;> rfl

variable {operation : UpdateOperation}

section Perform

variable {new : ForkInfo Hash}

theorem ForkInfo.links_updateWithNewlyValidAncestor (slot : ℕ) :
    (info.updateWithNewlyValidAncestor slot).links = info.links := by
  simp only [updateWithNewlyValidAncestor]
  split
  · split <;> rfl
  · rfl

theorem ForkInfo.links_aggregated (total : Aggregation Hash) :
    (info.aggregated total).links = info.links := by
  simp only [aggregated]
  split <;> rfl

theorem UpdateOperation.links_perform (h : operation.perform F k info = .ok new) :
    new.links = info.links := by
  cases operation with
  | markValid slot =>
    simp only [perform, Except.ok.injEq] at h
    have hlinks : (info.updateWithNewlyValidAncestor slot).links = info.links :=
      links_updateWithNewlyValidAncestor slot
    rw [← h, ← hlinks]
    split <;> rfl
  | markInvalid slot =>
    simp only [perform, updateWithNewlyInvalidAncestor] at h
    split at h
    · contradiction
    · split at h
      · cases h
        rfl
      · cases h
        rfl
  | aggregate =>
    simp only [perform] at h
    cases hgather : F.gather k info with
    | error e =>
      rw [hgather] at h
      contradiction
    | ok total =>
      rw [hgather] at h
      cases h
      exact links_aggregated total

end Perform

/-! ## Batches -/

variable {operations : UpdateOperations Hash}

namespace UpdateOperations

/-- The operations on one block, in the order in which they are performed. -/
def operationsAt (operations : UpdateOperations Hash) (k : SlotHashKey Hash) :
    List UpdateOperation :=
  (operations.entries.reverse.filter fun entry => (ofLex entry.1).1 = k).map Prod.snd

theorem operationsAt_eq (labels : List UpdateLabel) (operation : UpdateLabel → UpdateOperation)
    (hsort : labels.Pairwise (· < ·))
    (h : ∀ label performed, operations.get? (toLex (k, label)) = some performed ↔
      label ∈ labels ∧ performed = operation label) :
    operations.operationsAt k = (labels.map operation).reverse := by
  let entryOf : UpdateLabel → (SlotHashKey Hash ×ₗ UpdateLabel) × UpdateOperation :=
    fun label => (toLex (k, label), operation label)
  have hfilter : (operations.entries.filter fun entry => (ofLex entry.1).1 = k) =
      labels.map entryOf := by
    have hleft := operations.ascending.filter fun entry => decide ((ofLex entry.1).1 = k)
    have hright : (labels.map entryOf).Pairwise fun x y => x.1 < y.1 := by
      rw [pairwise_map]
      apply hsort.imp
      intro x y hlt
      exact Prod.Lex.toLex_lt_toLex.mpr (.inr ⟨rfl, hlt⟩)
    have hperm : (operations.entries.filter fun entry => (ofLex entry.1).1 = k).Perm
        (labels.map entryOf) := by
      apply (perm_ext_iff_of_nodup (hleft.imp fun hlt heq => hlt.ne (congrArg Prod.fst heq))
        (hright.imp fun hlt heq => hlt.ne (congrArg Prod.fst heq))).mpr
      intro entry
      simp only [mem_filter, decide_eq_true_eq, mem_map]
      constructor
      · intro ⟨hmem, hkey⟩
        have hget := (operations.get?_eq_some_iff entry.1 entry.2).mpr hmem
        have hsplit : entry.1 = toLex (k, (ofLex entry.1).2) := by
          rw [← hkey]
          rfl
        rw [hsplit] at hget
        obtain ⟨hlabel, hperf⟩ := (h _ _).mp hget
        exact ⟨(ofLex entry.1).2, hlabel, Prod.ext hsplit.symm hperf.symm⟩
      · intro ⟨label, hlabel, heq⟩
        subst heq
        refine ⟨(operations.get?_eq_some_iff _ _).mp ?_, rfl⟩
        exact (h _ _).mpr ⟨hlabel, rfl⟩
    exact hperm.eq_of_pairwise (fun x y _ _ hxy hyx => absurd (hxy.trans hyx) (lt_irrefl _))
      hleft hright
  rw [operationsAt, filter_reverse, hfilter, map_reverse, map_map]
  rfl

end UpdateOperations

namespace ForkInfos

theorem processUpdateOperations_eq_pass :
    F.processUpdateOperations operations =
      DescendingPasses.pass (fun entry => (ofLex entry.1).1)
        (fun F entry => entry.2.perform F (ofLex entry.1).1) F operations.entries.reverse := by
  simp only [processUpdateOperations, DescendingPasses.pass, processUpdateOperation_eq]

theorem get?_processUpdateOperations
    (hbelow : ∀ k info, F.get? k = some info → ∀ c ∈ info.children.keys, k < c)
    (h : F.processUpdateOperations operations = .ok F') (k : SlotHashKey Hash) :
    (F.get? k = none → F'.get? k = none) ∧ ∀ info, F.get? k = some info →
      ∃ info', F'.get? k = some info' ∧
        (operations.operationsAt k).foldlM (fun info operation => operation.perform F' k info)
          info = .ok info' := by
  rw [processUpdateOperations_eq_pass] at h
  have hpass := get?_pass (fun k info => ∀ c ∈ info.children.keys, k < c) ?_ ?_ ?_ hbelow h k
  · refine ⟨hpass.1, ?_⟩
    intro info hinfo
    obtain ⟨info', hinfo', hperform⟩ := hpass.2 info hinfo
    refine ⟨info', hinfo', ?_⟩
    rw [← hperform, performAt, UpdateOperations.operationsAt, foldlM_map]
    -- the filter keeps the entries of the block only
    have hcongr : ∀ (entries : List ((SlotHashKey Hash ×ₗ UpdateLabel) × UpdateOperation)),
        (∀ entry ∈ entries, (ofLex entry.1).1 = k) → ∀ start : ForkInfo Hash,
        entries.foldlM (fun info entry => entry.2.perform F' k info) start =
          entries.foldlM (fun info entry => entry.2.perform F' (ofLex entry.1).1 info) start := by
      intro entries
      induction entries with
      | nil => exact fun _ _ => rfl
      | cons entry entries ih =>
        intro hkeys start
        rw [foldlM_cons, foldlM_cons, hkeys entry mem_cons_self]
        congr 1
        funext next
        exact ih (fun other hother => hkeys other (mem_cons_of_mem _ hother)) next
    exact hcongr _ (fun entry hentry => of_decide_eq_true (mem_filter.mp hentry).2) info
  · intro m m' entry info hgood hread
    cases hoperation : entry.2 with
    | aggregate =>
      simp only [perform]
      rw [gather_congr fun c hc => hread c (hgood c hc)]
    | markValid slot => rfl
    | markInvalid slot => rfl
  · intro m entry info new hgood hperform c hc
    have hlinks := links_perform hperform
    have hchildren : new.children = info.children := congrArg Prod.snd hlinks
    rw [hchildren] at hc
    exact hgood c hc
  · rw [pairwise_reverse]
    exact operations.ascending.imp fun hlt => (Prod.Lex.monotone_fst _ _ hlt.le)

end ForkInfos

/-! ## Aggregations up to the root -/

namespace UpdateOperations

theorem get?_insertAcross {path : List (SlotHashKey Hash)} (hnodup : path.Nodup)
    (hlabel : ∀ k performed, operations.get? (toLex (k, .aggregate)) = some performed →
      performed = .aggregate)
    (hstop : path.Pairwise fun a b => operations.containsKey (toLex (a, .aggregate)) →
      operations.containsKey (toLex (b, .aggregate)))
    (k : SlotHashKey Hash) (label : UpdateLabel) :
    (insertAcross none path operations).get? (toLex (k, label)) =
      if label = .aggregate ∧ k ∈ path then some .aggregate
      else operations.get? (toLex (k, label)) := by
  induction path generalizing operations with
  | nil => simp [insertAcross]
  | cons a path ih =>
    obtain ⟨hhead, htail⟩ := pairwise_cons.mp hstop
    obtain ⟨hfresh, hnodup⟩ := nodup_cons.mp hnodup
    by_cases hthere : operations.containsKey (toLex (a, .aggregate))
    · -- the rest of the path is there already
      simp only [insertAcross, doInsertAggregateOperation, if_pos hthere]
      split
      next h =>
        obtain ⟨rfl, hk⟩ := h
        have hkthere : operations.containsKey (toLex (k, .aggregate)) := by
          rcases mem_cons.mp hk with heq | hrest
          · rw [heq]
            exact hthere
          · exact hhead k hrest hthere
        obtain ⟨performed, hget⟩ := (operations.containsKey_iff _).mp hkthere
        rw [hget, hlabel k performed hget]
      next => rfl
    · simp only [insertAcross, doInsertAggregateOperation, if_neg hthere, insertValidity]
      rw [ih hnodup]
      · simp only [get?_insert, EmbeddingLike.apply_eq_iff_eq, Prod.mk.injEq, mem_cons]
        by_cases hk : k = a
        · subst hk
          by_cases hagg : label = .aggregate <;> simp [hagg, hfresh]
        · simp [hk]
      · intro j performed hget
        rw [get?_insert] at hget
        split at hget
        · cases hget
          rfl
        · exact hlabel j performed hget
      · apply htail.imp_of_mem
        intro x y hx hy hxy h
        have hne : toLex (x, UpdateLabel.aggregate) ≠ toLex (a, UpdateLabel.aggregate) := by
          intro heq
          exact hfresh ((Prod.mk.inj (toLex.injective heq)).1 ▸ hx)
        have hold := ((containsKey_insert _ _ _ _).mp h).resolve_left hne
        exact (containsKey_insert _ _ _ _).mpr (.inr (hxy hold))

end UpdateOperations

/-! ## Marks -/

inductive IsMark : UpdateOperation → UpdateLabel → Prop
  | valid (slot : ℕ) : IsMark (.markValid slot) (.markValid slot)
  | invalid (slot : ℕ) : IsMark (.markInvalid slot) (.markInvalid slot)

section Marks

variable {mark : UpdateOperation} {label : UpdateLabel}

theorem IsMark.aggregate_lt (hmark : IsMark mark label) : .aggregate < label := by
  cases hmark with
  | valid slot | invalid slot => exact Prod.Lex.toLex_lt_toLex.mpr (.inl (by simp))

open UpdateOperations

theorem get?_foldl_doInsert (hmark : IsMark mark label) {subtree : List (SlotHashKey Hash)}
    (hnodup : subtree.Nodup) (operations : UpdateOperations Hash)
    (hfresh : ∀ k ∈ subtree, operations.get? (toLex (k, .aggregate)) = none)
    (k : SlotHashKey Hash) (other : UpdateLabel) :
    (subtree.foldl (fun (operations : UpdateOperations Hash) child =>
      (operations.doInsertAggregateOperation (some mark) child).2) operations).get?
        (toLex (k, other)) =
      if k ∈ subtree ∧ other = label then some mark
      else if k ∈ subtree ∧ other = .aggregate then some .aggregate
      else operations.get? (toLex (k, other)) := by
  induction subtree generalizing operations with
  | nil => simp
  | cons child subtree ih =>
    obtain ⟨hnot, hnodup⟩ := nodup_cons.mp hnodup
    have habsent : ¬ operations.containsKey (toLex (child, .aggregate)) := by
      simp [hfresh child mem_cons_self]
    have hins : (operations.doInsertAggregateOperation (some mark) child).2 =
        ((operations.insert (toLex (child, label)) mark).2.insert
          (toLex (child, .aggregate)) .aggregate).2 := by
      rw [doInsertAggregateOperation, if_neg habsent]
      cases hmark <;> rfl
    have hne : label ≠ .aggregate := hmark.aggregate_lt.ne'
    rw [foldl_cons, hins, ih hnodup]
    · simp only [get?_insert, EmbeddingLike.apply_eq_iff_eq, Prod.mk.injEq, mem_cons]
      by_cases hk : k = child
      · subst hk
        by_cases hlabel : other = label
        · subst hlabel
          simp [hnot, hne]
        · simp [hnot, hlabel]
      · simp [hk]
    · intro j hj
      have hjne : j ≠ child := fun heq => hnot (heq ▸ hj)
      simp only [get?_insert, EmbeddingLike.apply_eq_iff_eq, Prod.mk.injEq, hjne,
        false_and, if_false]
      exact hfresh j (mem_cons_of_mem _ hj)

variable {forkChoice : HeaviestSubtreeForkChoice Hash}
  {root v : SlotHashKey Hash} {subtree : List (SlotHashKey Hash)}

section MarkedSubtree

variable (tree : ForkTree forkChoice.forkInfos root) (hmark : IsMark mark label)
  (hnodup : subtree.Nodup) (hsubt : ∀ c, c ∈ subtree ↔ forkChoice.forkInfos.Ancestor v c)

include tree hmark hnodup hsubt

theorem get?_markOperations (k : SlotHashKey Hash) (other : UpdateLabel) :
    (forkChoice.markOperations v subtree mark).get? (toLex (k, other)) =
      if k ∈ subtree ∧ other = label then some mark
      else if (k ∈ subtree ∨ k ∈ forkChoice.forkInfos.ancestorIterator v) ∧ other = .aggregate then
        some .aggregate
      else none := by
  have hne : label ≠ .aggregate := hmark.aggregate_lt.ne'
  have hsub := fun k other => get?_foldl_doInsert hmark hnodup empty
    (fun _ _ => rfl) k other
  simp only [get?_empty] at hsub
  have hapart : ∀ a ∈ forkChoice.forkInfos.ancestorIterator v, a ∉ subtree := by
    intro a ha hmem
    obtain ⟨habove, hdist⟩ := tree.mem_ancestorIterator.mp ha
    exact hdist (habove.antisymm tree.key_lt ((hsubt a).mp hmem))
  rw [HeaviestSubtreeForkChoice.markOperations, insertAggregateOperations,
    get?_insertAcross (tree.ancestorIterator_nodup v)]
  · rw [hsub]
    by_cases hagg : other = .aggregate
    · subst hagg
      by_cases hk : k ∈ forkChoice.forkInfos.ancestorIterator v
      · simp [hk, hapart k hk]
      · simp [hk]
    · simp [hagg]
  · intro a performed hget
    rw [hsub] at hget
    simp only [hne.symm, and_false, if_false, and_true] at hget
    split at hget
    · cases hget
      rfl
    · contradiction
  · apply pairwise_of_forall_mem_list
    intro a ha b hb hthere
    obtain ⟨performed, hget⟩ := (containsKey_iff _ _).mp hthere
    rw [hsub] at hget
    simp [hapart a ha] at hget

theorem operationsAt_markOperations_below (hk : forkChoice.forkInfos.Ancestor v k) :
    (forkChoice.markOperations v subtree mark).operationsAt k = [mark, .aggregate] := by
  have hne : label ≠ .aggregate := hmark.aggregate_lt.ne'
  have hmem := (hsubt k).mpr hk
  rw [operationsAt_eq [.aggregate, label] fun other => if other = label then mark else .aggregate]
  · simp [hne.symm]
  · simpa using hmark.aggregate_lt
  · intro other performed
    rw [get?_markOperations tree hmark hnodup hsubt]
    by_cases hlabel : other = label
    · simp [hlabel, hmem, eq_comm]
    · by_cases hagg : other = .aggregate
      · simp [hagg, hmem, hne.symm, eq_comm]
      · simp [hlabel, hagg]

theorem operationsAt_markOperations_above (hk : forkChoice.forkInfos.Ancestor k v) (hkv : k ≠ v) :
    (forkChoice.markOperations v subtree mark).operationsAt k = [.aggregate] := by
  have hmem := tree.mem_ancestorIterator.mpr ⟨hk, hkv⟩
  have hnot : k ∉ subtree := fun h => hkv (hk.antisymm tree.key_lt ((hsubt k).mp h))
  rw [operationsAt_eq [.aggregate] fun _ => .aggregate]
  · rfl
  · simp
  · intro other performed
    rw [get?_markOperations tree hmark hnodup hsubt]
    by_cases hagg : other = .aggregate
    · simp [hagg, hmem, hnot, eq_comm]
    · simp [hagg, hnot]

theorem operationsAt_markOperations_apart (hbelow : ¬ forkChoice.forkInfos.Ancestor v k)
    (habove : ¬ forkChoice.forkInfos.Ancestor k v) :
    (forkChoice.markOperations v subtree mark).operationsAt k = [] := by
  have hnot : k ∉ subtree := fun h => hbelow ((hsubt k).mp h)
  have hmem : k ∉ forkChoice.forkInfos.ancestorIterator v :=
    fun h => habove (tree.mem_ancestorIterator.mp h).1
  rw [operationsAt_eq [] fun _ => .aggregate]
  · rfl
  · simp
  · intro other performed
    rw [get?_markOperations tree hmark hnodup hsubt]
    simp [hmem, hnot]

end MarkedSubtree

/-! ## What a mark does -/

open ForkInfos

theorem gather_ok {marked : ForkInfo Hash} (tree : ForkTree F root) (hk : F.get? k = some info)
    (hchildren : marked.children = info.children) :
    ∃ total, F.gather k marked = .ok total ∧
      (total.isDuplicateConfirmed = true ↔ ∃ c child, F.parent c = some k ∧
        F.get? c = some child ∧ child.isDuplicateConfirmed = true) := by
  let infoOf : SlotHashKey Hash → ForkInfo Hash := fun c => (F.get? c).getD info
  have hget : ∀ c ∈ marked.children.keys, F.get? c = some (infoOf c) := by
    intro c hc
    rw [hchildren, tree.linked hk] at hc
    obtain ⟨child, hchild, _⟩ := get?_of_parent hc
    simp [infoOf, hchild]
  refine ⟨_, gather_eq hget, ?_⟩
  rw [Aggregation.foldl_visit_isDuplicateConfirmed, Aggregation.start, Bool.false_or, any_eq_true]
  constructor
  · intro ⟨c, hc, hconf⟩
    have hpar := hc
    rw [hchildren, tree.linked hk] at hpar
    exact ⟨c, infoOf c, hpar, hget c hc, hconf⟩
  · intro ⟨c, child, hpar, hchild, hconf⟩
    have hc : c ∈ marked.children.keys := by
      rw [hchildren, tree.linked hk]
      exact hpar
    refine ⟨c, hc, ?_⟩
    rw [hget c hc, Option.some.injEq] at hchild
    rw [hchild]
    exact hconf

/-- Only a duplicate confirmed block cannot be marked, and only not as invalid. -/
def UpdateOperation.Markable (mark : UpdateOperation) (info : ForkInfo Hash) : Prop :=
  ∀ slot, mark = .markInvalid slot → info.isDuplicateConfirmed = false

theorem IsMark.perform_ok (hmark : IsMark mark label) (hmarkable : mark.Markable info) :
    ∃ marked, mark.perform F k info = .ok marked ∧ mark.Markable marked := by
  cases hmark with
  | valid slot => exact ⟨_, rfl, fun _ h => by contradiction⟩
  | invalid slot =>
    have hunconf := hmarkable slot rfl
    simp only [perform, updateWithNewlyInvalidAncestor, hunconf]
    split
    · contradiction
    · split
      · exact ⟨_, rfl, fun _ _ => rfl⟩
      · exact ⟨_, rfl, fun _ _ => hunconf⟩

theorem ForkInfo.isDuplicateConfirmed_aggregated (total : Aggregation Hash) :
    (info.aggregated total).isDuplicateConfirmed =
      (total.isDuplicateConfirmed || info.isDuplicateConfirmed) := by
  simp only [aggregated]
  split
  next h => simp [h, setDuplicateConfirmed]
  next h => simp [h]

theorem process_markOperations_ok (tree : ForkTree forkChoice.forkInfos root)
    (hmark : IsMark mark label) (hnodup : subtree.Nodup)
    (hsubt : ∀ c, c ∈ subtree ↔ forkChoice.forkInfos.Ancestor v c)
    (hmarkable : ∀ c info, forkChoice.forkInfos.Ancestor v c →
      forkChoice.forkInfos.get? c = some info → mark.Markable info) :
    ∃ F', forkChoice.forkInfos.processUpdateOperations
      (forkChoice.markOperations v subtree mark) = .ok F' ∧ SameLinks forkChoice.forkInfos F' := by
  -- no block below the marked one becomes duplicate confirmed before it is marked as invalid
  let I : ForkInfos Hash → Prop := fun F => SameLinks forkChoice.forkInfos F ∧
    ∀ c info, forkChoice.forkInfos.Ancestor v c → F.get? c = some info → mark.Markable info
  rw [processUpdateOperations_eq_pass]
  have hpass : ∃ F', pass (fun entry => (ofLex entry.1).1)
      (fun F entry => entry.2.perform F (ofLex entry.1).1) forkChoice.forkInfos
      (forkChoice.markOperations v subtree mark).entries.reverse = .ok F' ∧ I F' := by
    refine pass_ok ?_ ⟨SameLinks.refl _, hmarkable⟩
    intro F entry info hentry ⟨hlinks, hbelow⟩ hget
    have hentry := mem_reverse.mp hentry
    have hop := (get?_eq_some_iff _ entry.1 entry.2).mpr hentry
    have hsplit : entry.1 = toLex ((ofLex entry.1).1, (ofLex entry.1).2) := rfl
    rw [hsplit, get?_markOperations tree hmark hnodup hsubt] at hop
    have hperf : ∃ new, entry.2.perform F (ofLex entry.1).1 info = .ok new ∧
        (forkChoice.forkInfos.Ancestor v (ofLex entry.1).1 → mark.Markable new) := by
      split at hop
      next hmarked =>
        obtain ⟨new, hnew, hnewmarkable⟩ := hmark.perform_ok (F := F)
          (hbelow _ info ((hsubt _).mp hmarked.1) hget)
        rw [Option.some.injEq] at hop
        exact ⟨new, hop ▸ hnew, fun _ => hnewmarkable⟩
      next =>
        split at hop
        · obtain ⟨total, htot, hconf⟩ := gather_ok (tree.of_sameLinks hlinks) hget rfl
          rw [Option.some.injEq] at hop
          refine ⟨info.aggregated total, ?_, ?_⟩
          · rw [← hop, perform, htot]
            rfl
          · intro hdesc slot heq
            have hself := hbelow _ info hdesc hget slot heq
            rw [isDuplicateConfirmed_aggregated, hself, Bool.or_false]
            by_contra hgathered
            obtain ⟨c, child, hpar, hchild, hchildconfirmed⟩ :=
              hconf.mp (by simpa using hgathered)
            rw [hlinks.parent_eq] at hpar
            have hunconf := hbelow c child (hdesc.below hpar) hchild slot heq
            rw [hunconf] at hchildconfirmed
            contradiction
        · contradiction
    obtain ⟨new, hnew, hnewmarkable⟩ := hperf
    refine ⟨new, hnew, hlinks.trans (.of_insert hget (links_perform hnew)), ?_⟩
    intro c cinfo hdesc hc
    rw [get?_insert] at hc
    split at hc
    next heq =>
      cases hc
      exact hnewmarkable (heq ▸ hdesc)
    next => exact hbelow c cinfo hdesc hc
  obtain ⟨F', hrun, hlinks, _⟩ := hpass
  exact ⟨F', hrun, hlinks⟩

theorem process_markOperations (tree : ForkTree forkChoice.forkInfos root)
    (hmark : IsMark mark label) (hnodup : subtree.Nodup)
    (hsubt : ∀ c, c ∈ subtree ↔ forkChoice.forkInfos.Ancestor v c) {F' : ForkInfos Hash}
    (hrun : forkChoice.forkInfos.processUpdateOperations
      (forkChoice.markOperations v subtree mark) = .ok F')
    (hk : forkChoice.forkInfos.get? k = some info) :
    (forkChoice.forkInfos.Ancestor v k → ∃ marked total, mark.perform F' k info = .ok marked ∧
      F'.gather k marked = .ok total ∧ F'.get? k = some (marked.aggregated total)) ∧
    (forkChoice.forkInfos.Ancestor k v → k ≠ v → ∃ total, F'.gather k info = .ok total ∧
      F'.get? k = some (info.aggregated total)) ∧
    (¬ forkChoice.forkInfos.Ancestor v k → ¬ forkChoice.forkInfos.Ancestor k v →
      F'.get? k = some info) := by
  have hbelow : ∀ k info, forkChoice.forkInfos.get? k = some info →
      ∀ c ∈ info.children.keys, k < c := by
    intro k info hk c hc
    exact tree.key_lt ((tree.linked hk).mp hc)
  obtain ⟨info', hinfo', hfold⟩ := (get?_processUpdateOperations hbelow hrun k).2 info hk
  refine ⟨?_, ?_, ?_⟩
  · intro hdesc
    rw [operationsAt_markOperations_below tree hmark hnodup hsubt hdesc] at hfold
    obtain ⟨marked, hmarked, hrest⟩ := bind_eq_ok_iff.mp hfold
    obtain ⟨new, hnew, hlast⟩ := bind_eq_ok_iff.mp hrest
    obtain ⟨total, htot, rfl⟩ := map_eq_ok_iff.mp hnew
    cases hlast
    exact ⟨marked, total, hmarked, htot, hinfo'⟩
  · intro habove hkv
    rw [operationsAt_markOperations_above tree hmark hnodup hsubt habove hkv] at hfold
    obtain ⟨new, hnew, hlast⟩ := bind_eq_ok_iff.mp hfold
    obtain ⟨total, htot, rfl⟩ := map_eq_ok_iff.mp hnew
    cases hlast
    exact ⟨total, htot, hinfo'⟩
  · intro hnotbelow hnotabove
    rw [operationsAt_markOperations_apart tree hmark hnodup hsubt hnotbelow hnotabove] at hfold
    cases hfold
    exact hinfo'

end Marks

end RakuraiValidator.ForkChoice
