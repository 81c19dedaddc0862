import RakuraiValidator.SwitchForkDecision

/-!
# Which stake counts for a switch

On the banks of one tree the loops of the switch check do not panic.  They count every
voter once, in whatever order the maps are read.
-/

namespace RakuraiValidator.Consensus

open Finset RakuraiValidator.RootedTree Tally

attribute [local simp] Except.bind Tower.root Except.pure bind

variable {Pubkey : Type} {tree : RootedTree} {tower : Tower}
  {view : SwitchView Pubkey} {check : SwitchCheck} {slot : ℕ}

/-! ## Banks of one tree -/

/-- The banks with their ancestors, as `BankForks::ancestors` gives them. -/
def ancestorsMap (tree : RootedTree) (slot : ℕ) : Option (Finset ℕ) :=
  if slot ∈ tree.nodes then some (tree.ancestorsAbove slot) else none

def bankSlots (tree : RootedTree) : List ℕ :=
  (List.range (tree.nodes.sup id + 1)).filter (fun slot => slot ∈ tree.nodes)

/-- The banks with their descendants, as `BankForks::descendants` gives them. -/
def descendantsMap (tree : RootedTree) : List (ℕ × List ℕ) :=
  (bankSlots tree).map (fun slot =>
    (slot, (bankSlots tree).filter (fun later => slot ∈ tree.ancestorsAbove later)))

theorem mem_bankSlots : slot ∈ bankSlots tree ↔ slot ∈ tree.nodes := by
  rw [bankSlots, List.mem_filter, List.mem_range, decide_eq_true_iff, and_iff_right_iff_imp]
  intro hmem
  exact Nat.lt_succ_of_le (le_sup (f := id) hmem)

/-- The maps of ancestors and descendants are those of a tree. -/
structure SwitchView.OfTree (view : SwitchView Pubkey) (tree : RootedTree) : Prop where
  ancestors : ∀ slot, view.ancestors slot = ancestorsMap tree slot
  keys : ∀ slot, slot ∈ view.descendants.map Prod.fst ↔ slot ∈ tree.nodes
  values : ∀ entry ∈ view.descendants, ∀ slot, slot ∈ entry.2 ↔
    slot ∈ tree.nodes ∧ entry.1 ∈ tree.ancestorsAbove slot

theorem max_eq_some_iff {s : Finset ℕ} {a : ℕ} : s.max = some a ↔ IsGreatest {x | x ∈ s} a := by
  constructor
  · intro h
    exact ⟨mem_of_max h, fun x hx => le_max_of_eq hx h⟩
  · intro h
    rcases max_of_mem h.1 with ⟨b, hb⟩
    have hle : b ≤ a := h.2 (mem_of_max hb)
    rw [hb, le_antisymm hle (le_max_of_eq h.1 hb)]
    rfl

namespace SwitchView.OfTree

theorem reorder (hview : view.OfTree tree) {order : List (ℕ × List ℕ)}
    (horder : order.Perm view.descendants) :
    SwitchView.OfTree { view with descendants := order } tree where
  ancestors := hview.ancestors
  keys slot := (horder.map _).mem_iff.trans (hview.keys slot)
  values entry hentry := hview.values entry (horder.mem_iff.mp hentry)

theorem of_maps (hancestors : view.ancestors = ancestorsMap tree)
    (hdescendants : view.descendants = descendantsMap tree) : view.OfTree tree where
  ancestors := by simp [hancestors]
  keys := by simp [hdescendants, descendantsMap, mem_bankSlots]
  values := by
    intro entry hentry slot
    rw [hdescendants, descendantsMap, List.mem_map] at hentry
    rcases hentry with ⟨key, -, heq⟩
    rw [← heq, List.mem_filter, mem_bankSlots, decide_eq_true_iff]

variable (hview : view.OfTree tree)

include hview

theorem ancestors_of_mem (hslot : slot ∈ tree.nodes) :
    view.ancestors slot = some (tree.ancestorsAbove slot) := by
  rw [hview.ancestors, ancestorsMap, if_pos hslot]

theorem isDescendantSlot (hslot : slot ∈ tree.nodes) (other : ℕ) :
    view.isDescendantSlot slot other = some (decide (other ∈ tree.ancestorsAbove slot)) := by
  rw [SwitchView.isDescendantSlot, hview.ancestors_of_mem hslot]
  rfl

theorem isDescendantSlot_eq_none (hslot : slot ∉ tree.nodes) (other : ℕ) :
    view.isDescendantSlot slot other = none := by
  rw [SwitchView.isDescendantSlot, hview.ancestors, ancestorsMap, if_neg hslot]
  rfl

theorem greatestCommonAncestor_eq_some {other ancestor : ℕ} (hslot : slot ∈ tree.nodes)
    (hother : other ∈ tree.nodes) :
    view.greatestCommonAncestor slot other = some ancestor ↔
      IsGreatest {a | a ∈ tree.ancestorsAbove slot ∧ a ∈ tree.ancestorsAbove other} ancestor := by
  rw [SwitchView.greatestCommonAncestor, hview.ancestors_of_mem hslot,
    hview.ancestors_of_mem hother]
  simp only [← mem_inter]
  exact max_eq_some_iff

theorem exists_greatestCommonAncestor {other : ℕ} (hslot : slot ∈ tree.nodes)
    (hslotBase : slot ≠ tree.base) (hother : other ∈ tree.nodes) (hotherBase : other ≠ tree.base) :
    ∃ ancestor, view.greatestCommonAncestor slot other = some ancestor := by
  have hcommon : tree.base ∈ tree.ancestorsAbove slot ∩ tree.ancestorsAbove other :=
    Finset.mem_inter.mpr ⟨base_mem_ancestorsAbove hslot hslotBase,
      base_mem_ancestorsAbove hother hotherBase⟩
  rcases max_of_mem hcommon with ⟨ancestor, hmax⟩
  have hgreatest := max_eq_some_iff.mp hmax
  simp only [mem_inter] at hgreatest
  exact ⟨ancestor, (hview.greatestCommonAncestor_eq_some hslot hother).mpr hgreatest⟩

end SwitchView.OfTree

/-- The slots of a check which reaches the loops. -/
structure SwitchCheck.Checkable (check : SwitchCheck) (tower : Tower) (view : SwitchView Pubkey)
    (tree : RootedTree) : Prop where
  ofTree : view.OfTree tree
  rooted : ∀ slot ∈ tree.nodes, check.root < slot → check.root ∈ tree.ancestorsAbove slot
  switchSlot : check.switchSlot ∈ tree.nodes
  lastVote : check.lastVotedSlot ∈ tree.nodes ∧
      check.lastVoteAncestors = tree.ancestorsAbove check.lastVotedSlot ∨
    check.lastVoteAncestors = ∅ ∧ tower.isStrayLastVote = true

namespace SwitchCheck.Checkable

theorem ancestorsAbove_ne_empty {lastVotedSlot : ℕ} (hmem : lastVotedSlot ∈ tree.nodes)
    (hslot : slot ∈ tree.nodes) (hne : slot ≠ lastVotedSlot)
    (hnot : lastVotedSlot ∉ tree.ancestorsAbove slot) : tree.ancestorsAbove lastVotedSlot ≠ ∅ := by
  intro hempty
  have hbase : lastVotedSlot = tree.base := by
    by_contra hbase
    have hin := base_mem_ancestorsAbove hmem hbase
    rw [hempty] at hin
    exact absurd hin (notMem_empty _)
  rw [hbase] at hne hnot
  exact hnot (base_mem_ancestorsAbove hslot hne)

variable (hcheck : check.Checkable tower view tree)

include hcheck

theorem stray_of_empty (hempty : check.lastVoteAncestors = ∅) (hslot : slot ∈ tree.nodes)
    (hne : slot ≠ check.lastVotedSlot) (hnot : check.lastVotedSlot ∉ tree.ancestorsAbove slot) :
    tower.isStrayLastVote = true := by
  rcases hcheck.lastVote with ⟨hmem, hancestors⟩ | ⟨-, hstray⟩
  · rw [hancestors] at hempty
    exact absurd hempty (ancestorsAbove_ne_empty hmem hslot hne hnot)
  · exact hstray

theorem exists_isValidSwitchingProofVote (hne : slot ≠ check.lastVotedSlot) :
    ∃ valid, tower.isValidSwitchingProofVote view check slot = .ok valid := by
  rw [Tower.isValidSwitchingProofVote]
  by_cases hslot : slot ∈ tree.nodes
  · rw [hcheck.ofTree.isDescendantSlot hslot]
    by_cases hdesc : check.lastVotedSlot ∈ tree.ancestorsAbove slot
    · exact ⟨some false, by simp [hdesc]⟩
    · by_cases hempty : check.lastVoteAncestors = ∅
      · exact ⟨some true, by simp [hdesc, hempty, hcheck.stray_of_empty hempty hslot hne hdesc]⟩
      · exact ⟨_, by simp [hdesc, hempty]; rfl⟩
  · rw [hcheck.ofTree.isDescendantSlot_eq_none hslot]
    exact ⟨none, rfl⟩

theorem isValidSwitchingProofVote_ne_none (hslot : slot ∈ tree.nodes) (hroot : check.root < slot) :
    tower.isValidSwitchingProofVote view check slot ≠ .ok none := by
  rw [Tower.isValidSwitchingProofVote, hcheck.ofTree.isDescendantSlot hslot]
  by_cases hdesc : check.lastVotedSlot ∈ tree.ancestorsAbove slot
  · simp [hdesc]
  · by_cases hempty : check.lastVoteAncestors = ∅
    · by_cases hstray : tower.isStrayLastVote = true
      · simp [hdesc, hempty, hstray]
      · simp [hdesc, hempty, hstray]
    · rcases hcheck.lastVote with ⟨hmem, hancestors⟩ | ⟨hnone, -⟩
      · have hslotBase : slot ≠ tree.base := by
          intro hbase
          have hin := hcheck.rooted slot hslot hroot
          rw [hbase, ancestorsAbove_base] at hin
          exact absurd hin (notMem_empty _)
        have hlastBase : check.lastVotedSlot ≠ tree.base := by
          intro hbase
          rw [hancestors, hbase, ancestorsAbove_base] at hempty
          exact hempty rfl
        rcases hcheck.ofTree.exists_greatestCommonAncestor hslot hslotBase hmem hlastBase with
          ⟨ancestor, hancestor⟩
        simp [hdesc, hempty, hancestor, hcheck.ofTree.isDescendantSlot hcheck.switchSlot]
      · exact absurd hnone hempty

end SwitchCheck.Checkable

/-! ## The voters in the order of the loops -/

namespace Tower

def isProofVote (tower : Tower) (view : SwitchView Pubkey) (check : SwitchCheck) (slot : ℕ) :
    Bool :=
  tower.isValidSwitchingProofVote view check slot = .ok (some true)

def isLockedOutInterval (check : SwitchCheck) (interval : LockoutInterval Pubkey) : Bool :=
  check.lastVotedSlot ≤ interval.expiration ∧ interval.start ∉ check.lastVoteAncestors ∧
    check.root < interval.start

attribute [local simp] isLockedOutInterval

def isCandidate (tower : Tower) (view : SwitchView Pubkey) (check : SwitchCheck)
    (candidate : ℕ × List ℕ) : Bool :=
  view.isComputed candidate.1 ∧ (∀ slot ∈ candidate.2, view.isComputed slot = false) ∧
    candidate.1 ≠ check.lastVotedSlot ∧ check.root < candidate.1 ∧
    tower.isProofVote view check candidate.1

def candidateVoters (tower : Tower) (view : SwitchView Pubkey) (check : SwitchCheck)
    (candidate : ℕ × List ℕ) : List Pubkey :=
  if tower.isCandidate view check candidate then
    (((view.progress candidate.1).map ForkStats.lockoutIntervals).getD []).filter
      (isLockedOutInterval check) |>.map LockoutInterval.voter
  else []

def gossipVoters (tower : Tower) (view : SwitchView Pubkey) (check : SwitchCheck)
    (vote : Pubkey × ℕ × List ℕ) : List Pubkey :=
  if check.lastVotedSlot < vote.2.1 ∧ tower.isProofVote view check vote.2.1 then [vote.1] else []

def switchVoters (tower : Tower) (view : SwitchView Pubkey) (check : SwitchCheck) : List Pubkey :=
  view.descendants.flatMap (tower.candidateVoters view check) ++
    view.maxGossipFrozenVotes.flatMap (tower.gossipVoters view check)

section Counting

variable [DecidableEq Pubkey]

abbrev countStake (view : SwitchView Pubkey) (tally : Tally Pubkey) (account : Pubkey) :
    Option (Tally Pubkey) :=
  tally.count view.epochVoteAccounts.stake (2 ^ 64) view.ExceedsThreshold account

theorem foldlM_countInterval (intervals : List (LockoutInterval Pubkey)) (tally : Tally Pubkey) :
    intervals.foldlM (countInterval view check) tally =
      ((intervals.filter (isLockedOutInterval check)).map LockoutInterval.voter).foldlM
        (countStake view) tally := by
  induction intervals generalizing tally with
  | nil => rfl
  | cons interval intervals ih =>
    rw [List.foldlM_cons, List.filter_cons, countInterval]
    by_cases hexp : interval.expiration < check.lastVotedSlot
    · rw [if_pos hexp, if_neg (by simp [hexp])]
      exact ih tally
    · by_cases hother : interval.start ∉ check.lastVoteAncestors ∧ check.root < interval.start
      · have hlock : isLockedOutInterval check interval = true := by
          simp [not_lt.mp hexp, hother]
        rw [if_neg hexp, if_pos hlock, List.map_cons, List.foldlM_cons, countStake,
          count, if_pos hother]
        split
        · exact ih tally
        · rw [addStake]
          cases tally.add view.epochVoteAccounts.stake (2 ^ 64) view.ExceedsThreshold
            interval.voter with
          | none => rfl
          | some next => exact ih next
      · rw [if_neg hexp, if_neg hother, ite_self,
          if_neg (by simpa [not_lt.mp hexp] using hother)]
        exact ih tally

/-- A computed ancestor of the last vote above the root which counts is not the last computed bank of
its fork. -/
def Covered (tower : Tower) (view : SwitchView Pubkey) (check : SwitchCheck) (tree : RootedTree) :
    Prop :=
  ∀ ancestor ∈ check.lastVoteAncestors, ancestor ≠ check.lastVotedSlot → check.root < ancestor →
    view.isComputed ancestor = true → tower.isProofVote view check ancestor = true →
    ∃ slot ∈ tree.nodes, ancestor ∈ tree.ancestorsAbove slot ∧ view.isComputed slot = true

theorem countCandidate_eq (hcheck : check.Checkable tower view tree)
    (hcovered : Covered tower view check tree) {candidate : ℕ × List ℕ}
    (hmem : candidate ∈ view.descendants) (tally : Tally Pubkey) :
    tower.countCandidate view check tally candidate =
      .ok ((tower.candidateVoters view check candidate).foldlM (countStake view) tally) := by
  have hslot : candidate.1 ∈ tree.nodes :=
    (hcheck.ofTree.keys candidate.1).mp (List.mem_map_of_mem hmem)
  rw [countCandidate, candidateVoters]
  by_cases hskip : !view.isComputed candidate.1 || candidate.2.any view.isComputed ||
      candidate.1 = check.lastVotedSlot || candidate.1 ≤ check.root
  · rw [if_pos hskip, if_neg]
    · rfl
    · simp only [Bool.or_eq_true, Bool.not_eq_true', List.any_eq_true, decide_eq_true_eq] at hskip
      intro hcand
      rcases of_decide_eq_true hcand with ⟨hcomp, hlatest, hne, hroot, -⟩
      rcases hskip with ((hskip | ⟨slot, hslot, hskip⟩) | hskip) | hskip
      · rw [hcomp] at hskip
        cases hskip
      · rw [hlatest slot hslot] at hskip
        cases hskip
      · exact hne hskip
      · exact absurd hroot (not_lt.mpr hskip)
  · rw [if_neg hskip]
    have hkeep : view.isComputed candidate.1 = true ∧
        (∀ slot ∈ candidate.2, view.isComputed slot = false) ∧
        candidate.1 ≠ check.lastVotedSlot ∧ check.root < candidate.1 := by
      simpa [and_assoc] using hskip
    rcases hkeep with ⟨hcomp, hlatest, hne, hroot⟩
    rcases hcheck.exists_isValidSwitchingProofVote hne with ⟨valid, hvalid⟩
    have hcand : tower.isCandidate view check candidate =
        tower.isProofVote view check candidate.1 := by
      rw [Bool.eq_iff_iff]
      constructor
      · intro h
        exact (of_decide_eq_true h).2.2.2.2
      · intro h
        exact decide_eq_true ⟨hcomp, hlatest, hne, hroot, h⟩
    rw [hvalid, hcand, isProofVote, hvalid]
    cases valid with
    | none => exact absurd hvalid (hcheck.isValidSwitchingProofVote_ne_none hslot hroot)
    | some valid =>
      cases valid with
      | false => rfl
      | true =>
        -- An ancestor of the last vote has a later computed bank on its fork.
        have hother : candidate.1 ∉ check.lastVoteAncestors := by
          intro hancestor
          rcases hcovered candidate.1 hancestor hne hroot hcomp (decide_eq_true hvalid) with
            ⟨slot, hmemSlot, hbelow, hlater⟩
          rw [hlatest slot ((hcheck.ofTree.values candidate hmem slot).mpr ⟨hmemSlot, hbelow⟩)]
            at hlater
          cases hlater
        dsimp only
        rw [if_neg hother, if_pos (by simp)]
        cases hprog : view.progress candidate.1 with
        | none =>
          rw [SwitchView.isComputed, hprog] at hcomp
          cases hcomp
        | some stats =>
          exact congrArg Except.ok (foldlM_countInterval stats.lockoutIntervals tally)

theorem countGossipVote_eq (hcheck : check.Checkable tower view tree)
    (vote : Pubkey × ℕ × List ℕ) (tally : Tally Pubkey) :
    tower.countGossipVote view check tally vote =
      .ok ((tower.gossipVoters view check vote).foldlM (countStake view) tally) := by
  rw [countGossipVote, gossipVoters]
  by_cases hold : vote.2.1 ≤ check.lastVotedSlot
  · rw [if_pos hold, ite_self, if_neg (by simp [hold])]
    rfl
  · have hnew : check.lastVotedSlot < vote.2.1 := not_le.mp hold
    rcases hcheck.exists_isValidSwitchingProofVote hnew.ne' with ⟨valid, hvalid⟩
    rw [if_neg hold, isProofVote, hvalid]
    rcases valid with _ | _ | _
    · simp
    · simp
    · by_cases hcounted : vote.1 ∈ tally.counted
      · simp [hnew, hcounted, count]
      · simp [hnew, hcounted, count, addStake]

def stakeDecision (view : SwitchView Pubkey) (voters : Finset Pubkey) : SwitchForkDecision :=
  if view.ExceedsThreshold (∑ voter ∈ voters, view.epochVoteAccounts.stake voter) then
    .switchProof defaultHash
  else
    .failedSwitchThreshold (∑ voter ∈ voters, view.epochVoteAccounts.stake voter) view.totalStake

theorem foldlM_countStake (view : SwitchView Pubkey) (voters : List Pubkey) :
    voters.foldlM (countStake view) .empty =
      if view.ExceedsThreshold (∑ voter ∈ voters.toFinset, view.epochVoteAccounts.stake voter)
      then none
      else some ⟨∑ voter ∈ voters.toFinset, view.epochVoteAccounts.stake voter,
        voters.toFinset⟩ := by
  have hmono : ∀ a b, a ≤ b → view.ExceedsThreshold a → view.ExceedsThreshold b := by
    intro a b hle hover
    unfold SwitchView.ExceedsThreshold at hover ⊢
    omega
  have hzero : ¬ view.ExceedsThreshold 0 := Nat.not_lt_zero _
  have hcount := foldlM_count view.epochVoteAccounts.fits hmono voters .empty rfl hzero
  rw [Tally.empty, empty_union] at hcount
  exact hcount

theorem checkLockedOutStake_eq (hcheck : check.Checkable tower view tree)
    (hcovered : Covered tower view check tree) :
    tower.checkLockedOutStake view check =
      .ok (stakeDecision view (tower.switchVoters view check).toFinset) := by
  have hsum := foldlM_countStake view (tower.switchVoters view check)
  rw [checkLockedOutStake, stakeDecision,
    foldUntil_eq_foldlM (fun candidate hmem tally => countCandidate_eq hcheck hcovered hmem tally)]
  generalize (tower.switchVoters view check).toFinset = voters at hsum ⊢
  rw [switchVoters, List.foldlM_append] at hsum
  cases hfirst : (view.descendants.flatMap (tower.candidateVoters view check)).foldlM
      (countStake view) .empty with
  | none =>
    rw [hfirst] at hsum
    by_cases hover : view.ExceedsThreshold (∑ voter ∈ voters, view.epochVoteAccounts.stake voter)
    · rw [if_pos hover]
    · rw [if_neg hover] at hsum
      cases hsum
  | some tally =>
    rw [hfirst] at hsum
    dsimp only
    rw [foldUntil_eq_foldlM (fun vote _ tally => countGossipVote_eq hcheck vote tally)]
    by_cases hover : view.ExceedsThreshold (∑ voter ∈ voters, view.epochVoteAccounts.stake voter)
    · rw [if_pos hover] at hsum ⊢
      simp only [Option.bind_eq_bind, Option.bind_some] at hsum
      rw [hsum]
    · rw [if_neg hover] at hsum ⊢
      simp only [Option.bind_eq_bind, Option.bind_some] at hsum
      rw [hsum]

end Counting

end Tower

/-! ## Which voters count -/

/-- A slot which is not on the fork of the last vote: it does not descend from the last
vote, and it has split from it where the switch slot has, or before. -/
def OtherFork (tree : RootedTree) (lastVotedSlot switchSlot slot : ℕ) : Prop :=
  slot ∈ tree.nodes ∧ lastVotedSlot ∉ tree.ancestorsAbove slot ∧
    ∃ ancestor ∈ tree.ancestorsAbove switchSlot,
      IsGreatest {a | a ∈ tree.ancestorsAbove slot ∧ a ∈ tree.ancestorsAbove lastVotedSlot} ancestor

/-- A voter is locked out of the last vote in the latest computed bank of another fork,
or it has voted on another fork after the last vote. -/
def SwitchView.CountsForSwitch (view : SwitchView Pubkey) (tree : RootedTree)
    (root lastVotedSlot switchSlot : ℕ) (voter : Pubkey) : Prop :=
  (∃ slot ∈ tree.nodes, root < slot ∧ view.isComputed slot = true ∧
    (∀ later ∈ tree.nodes, slot ∈ tree.ancestorsAbove later → view.isComputed later = false) ∧
    slot ≠ lastVotedSlot ∧ OtherFork tree lastVotedSlot switchSlot slot ∧
    ∃ stats ∈ view.progress slot, ∃ interval ∈ stats.lockoutIntervals,
      interval.voter = voter ∧ root < interval.start ∧
      interval.start ∉ tree.ancestorsAbove lastVotedSlot ∧
      lastVotedSlot ≤ interval.expiration) ∨
  ∃ slot hashes, (voter, slot, hashes) ∈ view.maxGossipFrozenVotes ∧ lastVotedSlot < slot ∧
    OtherFork tree lastVotedSlot switchSlot slot

section

variable (hcheck : check.Checkable tower view tree) (hlast : check.lastVotedSlot ∈ tree.nodes)
  (hancestors : check.lastVoteAncestors = tree.ancestorsAbove check.lastVotedSlot)

include hcheck hlast hancestors

theorem Tower.isProofVote_iff (hne : slot ≠ check.lastVotedSlot) :
    tower.isProofVote view check slot = true ↔
      OtherFork tree check.lastVotedSlot check.switchSlot slot := by
  rw [isProofVote, isValidSwitchingProofVote, OtherFork, decide_eq_true_iff]
  by_cases hslot : slot ∈ tree.nodes
  · rw [hcheck.ofTree.isDescendantSlot hslot]
    by_cases hdesc : check.lastVotedSlot ∈ tree.ancestorsAbove slot
    · simp [hdesc]
    · have hnonempty : check.lastVoteAncestors ≠ ∅ := by
        rw [hancestors]
        exact SwitchCheck.Checkable.ancestorsAbove_ne_empty hlast hslot hne hdesc
      simp only [hdesc, decide_false, if_neg hnonempty, Except.ok.injEq, Option.bind_eq_some_iff,
        hcheck.ofTree.greatestCommonAncestor_eq_some hslot hlast,
        hcheck.ofTree.isDescendantSlot hcheck.switchSlot, Option.some.injEq, decide_eq_true_eq]
      simp only [hslot, not_false_eq_true, true_and]
      constructor
      · intro h
        rcases h with ⟨ancestor, hmax, hbelow⟩
        exact ⟨ancestor, hbelow, hmax⟩
      · intro h
        rcases h with ⟨ancestor, hbelow, hmax⟩
        exact ⟨ancestor, hmax, hbelow⟩
  · rw [hcheck.ofTree.isDescendantSlot_eq_none hslot]
    simp [hslot]

theorem Tower.mem_switchVoters {voter : Pubkey} :
    voter ∈ tower.switchVoters view check ↔
      view.CountsForSwitch tree check.root check.lastVotedSlot check.switchSlot voter := by
  rw [switchVoters, List.mem_append, List.mem_flatMap, List.mem_flatMap, SwitchView.CountsForSwitch]
  apply or_congr
  · constructor
    · intro h
      rcases h with ⟨candidate, hmem, hvoter⟩
      rw [candidateVoters] at hvoter
      by_cases hcand : tower.isCandidate view check candidate = true
      · rw [if_pos hcand] at hvoter
        rcases of_decide_eq_true hcand with ⟨hcomp, hlatest, hne, hroot, hproof⟩
        rcases List.mem_map.mp hvoter with ⟨interval, hinterval, heq⟩
        rcases List.mem_filter.mp hinterval with ⟨hin, hlock⟩
        rcases of_decide_eq_true hlock with ⟨hexpiration, hother, hstart⟩
        rw [hancestors] at hother
        cases hprog : view.progress candidate.1 with
        | none =>
          rw [hprog] at hin
          cases hin
        | some stats =>
          rw [hprog] at hin
          refine ⟨candidate.1, (hcheck.ofTree.keys _).mp (List.mem_map_of_mem hmem), hroot,
            hcomp, ?_, hne, (isProofVote_iff hcheck hlast hancestors hne).mp hproof, stats,
            hprog, interval, hin, heq, hstart, hother, hexpiration⟩
          intro later hlater hbelow
          exact hlatest later ((hcheck.ofTree.values candidate hmem later).mpr ⟨hlater, hbelow⟩)
      · rw [if_neg hcand] at hvoter
        cases hvoter
    · intro h
      rcases h with ⟨slot, hslot, hroot, hcomp, hlatest, hne, hother, stats, hprog, interval,
        hin, heq, hstart, hstartOther, hexpiration⟩
      rcases List.mem_map.mp ((hcheck.ofTree.keys slot).mpr hslot) with ⟨candidate, hmem, hkey⟩
      subst hkey
      refine ⟨candidate, hmem, ?_⟩
      have hcand : tower.isCandidate view check candidate = true := by
        refine decide_eq_true ⟨hcomp, ?_, hne, hroot,
          (isProofVote_iff hcheck hlast hancestors hne).mpr hother⟩
        intro later hlater
        rcases (hcheck.ofTree.values candidate hmem later).mp hlater with ⟨hnode, hbelow⟩
        exact hlatest later hnode hbelow
      have hlock : isLockedOutInterval check interval = true := by
        rw [← hancestors] at hstartOther
        exact decide_eq_true ⟨hexpiration, hstartOther, hstart⟩
      rw [candidateVoters, if_pos hcand, Option.mem_def.mp hprog, ← heq]
      exact List.mem_map_of_mem (List.mem_filter.mpr ⟨hin, hlock⟩)
  · constructor
    · intro h
      rcases h with ⟨⟨account, slot, hashes⟩, hmem, hvoter⟩
      rw [gossipVoters] at hvoter
      by_cases hcounts : check.lastVotedSlot < slot ∧ tower.isProofVote view check slot = true
      · rw [if_pos hcounts, List.mem_singleton] at hvoter
        subst hvoter
        exact ⟨slot, hashes, hmem, hcounts.1,
          (isProofVote_iff hcheck hlast hancestors hcounts.1.ne').mp hcounts.2⟩
      · rw [if_neg hcounts] at hvoter
        cases hvoter
    · intro h
      rcases h with ⟨slot, hashes, hmem, hnew, hother⟩
      refine ⟨(voter, slot, hashes), hmem, ?_⟩
      have hproof := (isProofVote_iff hcheck hlast hancestors hnew.ne').mpr hother
      rw [gossipVoters, if_pos ⟨hnew, hproof⟩]
      exact List.mem_singleton_self voter

end

/-! ### Two forks -/

/-- Slots 1 and 2 on one fork above slot 0, slots 3 and 4 on another one. -/
def forkedTree : RootedTree where
  parent slot := if slot = 1 ∨ slot = 3 then some 0 else if slot = 2 ∨ slot = 4 then
    some (slot - 1) else none
  parent_lt := by
    intro slot p hparent
    split_ifs at hparent with hfirst hsecond
    · rw [← Option.mem_some_iff.mp hparent]
      omega
    · rw [← Option.mem_some_iff.mp hparent]
      omega
    · cases hparent
  base := 0
  nodes := range 5
  base_mem := by decide
  connected := by
    intro slot hslot hne
    have hlt := Finset.mem_range.mp hslot
    interval_cases slot <;> simp_all

def twoAccounts : EpochVoteAccounts Bool where
  get account := some (if account then 40 else 60)
  fits := by decide

variable (progress : ℕ → Option (ForkStats Bool)) (gossip : List (Bool × ℕ × List ℕ))

def forkedView : SwitchView Bool where
  ancestors := ancestorsMap forkedTree
  descendants := descendantsMap forkedTree
  progress := progress
  totalStake := 100
  epochVoteAccounts := twoAccounts
  maxGossipFrozenVotes := gossip
  forkChoice := ⟨fun _ => none, fun _ _ => false⟩

theorem forkedView_ofTree : (forkedView progress gossip).OfTree forkedTree :=
  .of_maps rfl rfl

theorem forkedTree_rooted :
    ∀ slot ∈ forkedTree.nodes, 0 < slot → 0 ∈ forkedTree.ancestorsAbove slot := by
  decide +kernel

def votedTower (stray : Option ℕ) : Tower :=
  ⟨⟨[⟨2, 1⟩], some 0⟩, ⟨[⟨2, 1⟩], some 0, 12, 22⟩, stray⟩

/-- All banks have stats.  In slot 4 the first account is locked out on slot 3. -/
def lockedOutProgress (slot : ℕ) : Option (ForkStats Bool) :=
  some ⟨true, if slot = 4 then [⟨true, 3, 11⟩] else [], some slot⟩

def restartProgress (slot : ℕ) : Option (ForkStats Bool) :=
  some (if slot = 2 ∨ slot = 4 then ⟨false, [], none⟩ else ⟨true, [], some slot⟩)

/-! ## The decision -/

namespace Tower

variable {root lastVotedSlot lastVotedHash switchSlot switchHash : ℕ}

theorem lastVoteAncestors_eq (hview : view.OfTree tree) (hmem : lastVotedSlot ∈ tree.nodes) :
    tower.lastVoteAncestors view lastVotedSlot = .ok (tree.ancestorsAbove lastVotedSlot) := by
  rw [Tower.lastVoteAncestors, hview.ancestors_of_mem hmem]

theorem exists_lastVoteAncestors (hview : view.OfTree tree)
    (hlast : lastVotedSlot ∈ tree.nodes ∨ tower.isStrayLastVote = true) :
    ∃ ancestors, tower.lastVoteAncestors view lastVotedSlot = .ok ancestors ∧
      (lastVotedSlot ∈ tree.nodes ∧ ancestors = tree.ancestorsAbove lastVotedSlot ∨
        ancestors = ∅ ∧ tower.isStrayLastVote = true) := by
  by_cases hmem : lastVotedSlot ∈ tree.nodes
  · exact ⟨_, lastVoteAncestors_eq hview hmem, .inl ⟨hmem, rfl⟩⟩
  · have hstray : tower.isStrayLastVote = true := hlast.resolve_left hmem
    refine ⟨∅, ?_, .inr ⟨rfl, hstray⟩⟩
    rw [Tower.lastVoteAncestors, hview.ancestors, ancestorsMap, if_neg hmem]
    exact if_pos hstray

variable [DecidableEq Pubkey]

theorem makeCheckSwitchThresholdDecision_eq (hview : view.OfTree tree)
    (hroot : tower.voteState.rootSlot = some root)
    (hlast : tower.lastVotedSlotHash = some (lastVotedSlot, lastVotedHash))
    (hswitch : switchSlot ∈ tree.nodes) (hfrozen : view.getHash switchSlot = some switchHash)
    (hne : switchSlot ≠ lastVotedSlot) (hdesc : lastVotedSlot ∉ tree.ancestorsAbove switchSlot)
    (hvalid : rollbackDecision view (switchSlot, switchHash) (lastVotedSlot, lastVotedHash) = none)
    {ancestors : Finset ℕ} (hancestors : tower.lastVoteAncestors view lastVotedSlot = .ok ancestors)
    (hanc : switchSlot ∉ ancestors) :
    tower.makeCheckSwitchThresholdDecision view switchSlot =
      tower.checkLockedOutStake view ⟨root, lastVotedSlot, switchSlot, ancestors⟩ := by
  have hmap := hview.ancestors_of_mem hswitch
  simp [makeCheckSwitchThresholdDecision, hlast, hroot, hfrozen, hvalid, hancestors, hmap, hne,
    hdesc, hanc]

/-- The switch check between two forks of a tree, for a last vote with computed stats.
The set of voters depends neither on the order of the maps nor on the early exits. -/
theorem switch_threshold_decision (tree : RootedTree) (view : SwitchView Pubkey) (tower : Tower)
    (root lastVotedSlot lastVotedHash switchSlot : ℕ) (hview : view.OfTree tree)
    (hroot : tower.voteState.rootSlot = some root)
    (hrooted : ∀ slot ∈ tree.nodes, root < slot → root ∈ tree.ancestorsAbove slot)
    (hlast : tower.lastVotedSlotHash = some (lastVotedSlot, lastVotedHash))
    (hmem : lastVotedSlot ∈ tree.nodes) (hcomputed : view.isComputed lastVotedSlot = true)
    (hvalid : view.forkChoice.latestInvalidAncestor (lastVotedSlot, lastVotedHash) = none)
    (hswitch : switchSlot ∈ tree.nodes) (hne : switchSlot ≠ lastVotedSlot)
    (hdesc : lastVotedSlot ∉ tree.ancestorsAbove switchSlot)
    (hanc : switchSlot ∉ tree.ancestorsAbove lastVotedSlot) :
    ∃ voters : Finset Pubkey,
      (∀ voter, voter ∈ voters ↔ view.CountsForSwitch tree root lastVotedSlot switchSlot voter) ∧
      tower.makeCheckSwitchThresholdDecision view switchSlot =
        if (view.getHash switchSlot).isSome then
          .ok (if view.ExceedsThreshold (∑ voter ∈ voters, view.epochVoteAccounts.stake voter) then
            .switchProof defaultHash
          else .failedSwitchThreshold (∑ voter ∈ voters, view.epochVoteAccounts.stake voter)
            view.totalStake)
        else .error .switchSlotNotFrozen := by
  let check : SwitchCheck := ⟨root, lastVotedSlot, switchSlot, tree.ancestorsAbove lastVotedSlot⟩
  have hcheck : check.Checkable tower view tree :=
    { ofTree := hview
      rooted := hrooted
      switchSlot := hswitch
      lastVote := .inl ⟨hmem, rfl⟩ }
  have hcovered : Covered tower view check tree :=
    fun ancestor hancestor _ _ _ _ => ⟨lastVotedSlot, hmem, hancestor, hcomputed⟩
  refine ⟨(tower.switchVoters view check).toFinset, ?_, ?_⟩
  · intro voter
    rw [List.mem_toFinset, mem_switchVoters hcheck hmem rfl]
  · cases hfrozen : view.getHash switchSlot with
    | none =>
      simp [makeCheckSwitchThresholdDecision, hlast, hroot, hfrozen, throw, throwThe,
        MonadExceptOf.throw]
    | some switchHash =>
      have hnone : rollbackDecision view (switchSlot, switchHash)
          (lastVotedSlot, lastVotedHash) = none := by
        rw [rollbackDecision, hvalid]
        rfl
      rw [makeCheckSwitchThresholdDecision_eq hview hroot hlast hswitch hfrozen hne hdesc hnone
        (lastVoteAncestors_eq hview hmem) hanc, checkLockedOutStake_eq hcheck hcovered]
      rfl

/-- The account which is locked out and has voted through gossip is counted once. -/
theorem switch_threshold_decision_gossip :
    (∃ voters : Finset Bool,
      (∀ voter, voter ∈ voters ↔ (forkedView lockedOutProgress [(true, 4, [])]).CountsForSwitch
        forkedTree 0 2 4 voter) ∧
      (votedTower none).makeCheckSwitchThresholdDecision
          (forkedView lockedOutProgress [(true, 4, [])]) 4 =
        .ok (if 38 * 100 < 100 * ∑ voter ∈ voters, twoAccounts.stake voter then
            .switchProof defaultHash
          else .failedSwitchThreshold (∑ voter ∈ voters, twoAccounts.stake voter) 100)) ∧
    (votedTower none).makeCheckSwitchThresholdDecision
      (forkedView lockedOutProgress [(true, 4, [])]) 4 = .ok (.switchProof 0) := by
  constructor
  · exact switch_threshold_decision forkedTree _ (votedTower none) 0 2 12 4
      (forkedView_ofTree _ _) rfl forkedTree_rooted rfl (by decide) rfl rfl (by decide) (by decide)
      (by decide +kernel) (by decide +kernel)
  · decide +kernel

/-- When the loops are reached and the last vote is in the tree: every computed ancestor of the last
vote above the root which has split off where the switch slot has, or before, has a later computed
bank on its fork. -/
def ComputedOnward (tower : Tower) (view : SwitchView Pubkey) (tree : RootedTree)
    (root switchSlot switchHash : ℕ) : Prop :=
  ∀ voted ∈ tower.lastVotedSlotHash, voted.1 ∈ tree.nodes →
    rollbackDecision view (switchSlot, switchHash) voted = none → switchSlot ≠ voted.1 →
    voted.1 ∉ tree.ancestorsAbove switchSlot → switchSlot ∉ tree.ancestorsAbove voted.1 →
    ∀ ancestor ∈ tree.ancestorsAbove voted.1, root < ancestor → view.isComputed ancestor = true →
      OtherFork tree voted.1 switchSlot ancestor →
      ∃ slot ∈ tree.nodes, ancestor ∈ tree.ancestorsAbove slot ∧ view.isComputed slot = true

section Returns

variable (hview : view.OfTree tree) (hroot : tower.voteState.rootSlot = some root)
  (hrooted : ∀ slot ∈ tree.nodes, root < slot → root ∈ tree.ancestorsAbove slot)
  (hswitch : switchSlot ∈ tree.nodes) (hfrozen : view.getHash switchSlot = some switchHash)

include hview hroot hrooted hswitch hfrozen

theorem check_returns (hlast : ∀ lastVotedSlot ∈ tower.lastVotedSlot,
      lastVotedSlot ∈ tree.nodes ∨ tower.isStrayLastVote = true)
    (hanc : ∀ lastVotedSlot ∈ tower.lastVotedSlot, tower.isStrayLastVote = false →
      switchSlot ∉ tree.ancestorsAbove lastVotedSlot)
    (honward : ComputedOnward tower view tree root switchSlot switchHash) :
    ∃ decision, tower.makeCheckSwitchThresholdDecision view switchSlot = .ok decision := by
  cases hvoted : tower.lastVotedSlotHash with
  | none => exact ⟨.sameFork, by rw [makeCheckSwitchThresholdDecision, hvoted]⟩
  | some voted =>
    rcases voted with ⟨lastVotedSlot, lastVotedHash⟩
    have hslot : lastVotedSlot ∈ tower.lastVotedSlot := by
      rcases Option.map_eq_some_iff.mp hvoted with ⟨slot, hslot, heq⟩
      have hfst : slot = lastVotedSlot := congrArg Prod.fst heq
      rw [← hfst]
      exact hslot
    have hmap := hview.ancestors_of_mem hswitch
    rcases exists_lastVoteAncestors hview (hlast lastVotedSlot hslot) with
      ⟨ancestors, hancestors, hcases⟩
    cases hrollback : rollbackDecision view (switchSlot, switchHash)
        (lastVotedSlot, lastVotedHash) with
    | some decision =>
      exact ⟨decision, by
        simp [makeCheckSwitchThresholdDecision, hvoted, hroot, hfrozen, hrollback, pure]⟩
    | none =>
      by_cases hsame : switchSlot = lastVotedSlot ∨ lastVotedSlot ∈ tree.ancestorsAbove switchSlot
      · exact ⟨.sameFork, by simp [makeCheckSwitchThresholdDecision, hvoted, hroot, hfrozen,
          hrollback, hancestors, hmap, hsame, pure]⟩
      · rcases not_or.mp hsame with ⟨hne, hdesc⟩
        by_cases hback : switchSlot ∈ ancestors
        · -- Only a stray last vote is ahead of the switch slot.
          have hstray : tower.isStrayLastVote = true := by
            by_contra hstray
            rcases hcases with ⟨-, heq⟩ | ⟨-, hstray'⟩
            · rw [heq] at hback
              exact hanc lastVotedSlot hslot (Bool.eq_false_iff.mpr hstray) hback
            · exact hstray hstray'
          exact ⟨.failedSwitchThreshold 0 view.totalStake, by
            simp [makeCheckSwitchThresholdDecision, hvoted, hroot, hfrozen, hrollback, hancestors,
              hmap, hne, hdesc, hback, hstray, pure]⟩
        · have hcheck : SwitchCheck.Checkable ⟨root, lastVotedSlot, switchSlot, ancestors⟩
              tower view tree := ⟨hview, hrooted, hswitch, hcases⟩
          have hcovered : Covered tower view ⟨root, lastVotedSlot, switchSlot, ancestors⟩ tree := by
            intro ancestor hancestor hother habove hcomp hproof
            rcases hcases with ⟨hmem, rfl⟩ | ⟨rfl, -⟩
            · exact honward _ hvoted hmem hrollback hne hdesc hback ancestor hancestor habove hcomp
                ((isProofVote_iff hcheck hmem rfl hother).mp hproof)
            · exact absurd hancestor (notMem_empty _)
          exact ⟨_, (makeCheckSwitchThresholdDecision_eq hview hroot hvoted hswitch hfrozen hne
            hdesc hrollback hancestors hback).trans (checkLockedOutStake_eq hcheck hcovered)⟩

/-- The loop panics if it comes first to an ancestor of the last vote which counts. -/
theorem check_panics {voted : ℕ × ℕ} (hvoted : tower.lastVotedSlotHash = some voted)
    (hmem : voted.1 ∈ tree.nodes)
    (hrollback : rollbackDecision view (switchSlot, switchHash) voted = none)
    (hne : switchSlot ≠ voted.1) (hdesc : voted.1 ∉ tree.ancestorsAbove switchSlot)
    (hback : switchSlot ∉ tree.ancestorsAbove voted.1) {candidate : ℕ × List ℕ}
    {rest : List (ℕ × List ℕ)} (hfirst : view.descendants = candidate :: rest)
    (hancestor : candidate.1 ∈ tree.ancestorsAbove voted.1) (habove : root < candidate.1)
    (hcomp : view.isComputed candidate.1 = true)
    (hother : OtherFork tree voted.1 switchSlot candidate.1)
    (hlatest : ∀ slot ∈ candidate.2, view.isComputed slot = false) :
    tower.makeCheckSwitchThresholdDecision view switchSlot = .error .candidateIsAncestor := by
  have hcheck : SwitchCheck.Checkable
      ⟨root, voted.1, switchSlot, tree.ancestorsAbove voted.1⟩ tower view tree :=
    ⟨hview, hrooted, hswitch, .inl ⟨hmem, rfl⟩⟩
  have hlast : candidate.1 ≠ voted.1 := (lt_of_mem_ancestorsAbove hancestor).ne
  have hvalid := of_decide_eq_true ((isProofVote_iff hcheck hmem rfl hlast).mpr hother)
  have hkeep : ¬ (!view.isComputed candidate.1 || candidate.2.any view.isComputed ||
      candidate.1 = voted.1 || candidate.1 ≤ root) = true := by
    simpa [hcomp, hlast, habove] using hlatest
  rw [makeCheckSwitchThresholdDecision_eq hview hroot hvoted hswitch hfrozen hne hdesc hrollback
    (lastVoteAncestors_eq hview hmem) hback, checkLockedOutStake, hfirst, foldUntil, countCandidate,
    if_neg hkeep, hvalid]
  dsimp only
  rw [if_pos hancestor]

end Returns

/-- The switch check returns, whatever the order of the banks, exactly if no bank which counts is an
ancestor of the last vote. -/
theorem switch_check_returns (tree : RootedTree) (view : SwitchView Pubkey) (tower : Tower)
    (root switchSlot switchHash : ℕ) (hview : view.OfTree tree)
    (hroot : tower.voteState.rootSlot = some root)
    (hrooted : ∀ slot ∈ tree.nodes, root < slot → root ∈ tree.ancestorsAbove slot)
    (hswitch : switchSlot ∈ tree.nodes) (hfrozen : view.getHash switchSlot = some switchHash)
    (hlast : ∀ lastVotedSlot ∈ tower.lastVotedSlot,
      lastVotedSlot ∈ tree.nodes ∨ tower.isStrayLastVote = true)
    (hanc : ∀ lastVotedSlot ∈ tower.lastVotedSlot, tower.isStrayLastVote = false →
      switchSlot ∉ tree.ancestorsAbove lastVotedSlot) :
    (∀ order, order.Perm view.descendants → ∃ decision,
      tower.makeCheckSwitchThresholdDecision { view with descendants := order } switchSlot =
        .ok decision) ↔
    ComputedOnward tower view tree root switchSlot switchHash := by
  constructor
  · intro hreturns voted hvoted hmem hrollback hne hdesc hback ancestor hancestor habove hcomp hother
    by_contra hnone
    obtain ⟨candidate, hcandidate, rfl⟩ := List.mem_map.mp ((hview.keys ancestor).mpr hother.1)
    have hfront := (List.perm_cons_erase hcandidate).symm
    have hlatest : ∀ slot ∈ candidate.2, view.isComputed slot = false := by
      intro slot hslot
      obtain ⟨hnode, hbelow⟩ := (hview.values candidate hcandidate slot).mp hslot
      by_contra hlater
      exact hnone ⟨slot, hnode, hbelow, by simpa using hlater⟩
    obtain ⟨decision, hdecision⟩ := hreturns _ hfront
    rw [check_panics (hview.reorder hfront) hroot hrooted hswitch hfrozen hvoted hmem hrollback hne
      hdesc hback rfl hancestor habove hcomp hother hlatest] at hdecision
    cases hdecision
  · intro honward order hperm
    exact check_returns (hview.reorder hperm) hroot hrooted hswitch hfrozen hlast hanc honward

/-- The last vote of this stray tower is computed, and so is a bank behind each of its ancestors. -/
theorem switch_check_returns_stray :
    (votedTower (some 2)).isStrayLastVote = true ∧
    ∃ decision, (votedTower (some 2)).makeCheckSwitchThresholdDecision
      (forkedView lockedOutProgress []) 4 = .ok decision := by
  refine ⟨rfl, (switch_check_returns forkedTree _ (votedTower (some 2)) 0 4 4
    (forkedView_ofTree _ _) rfl forkedTree_rooted (by decide) rfl (fun _ _ => .inr rfl) nofun).mpr
    ?_ _ .rfl⟩
  intro voted _ hmem _ _ _ _ ancestor hancestor _ _ _
  exact ⟨voted.1, hmem, hancestor, rfl⟩

/-- A stray last vote for slot 2 which is not frozen yet.  Its parent, slot 1, is then the
latest computed bank of its fork, and a switch to slot 3 panics. -/
theorem stray_last_vote_panics :
    (forkedView restartProgress []).OfTree forkedTree ∧
    (∀ slot ∈ forkedTree.nodes, 0 < slot → 0 ∈ forkedTree.ancestorsAbove slot) ∧
    (∀ slot ∈ forkedTree.nodes, ∀ ancestor ∈ forkedTree.ancestorsAbove slot,
      (forkedView restartProgress []).isComputed slot = true →
      (forkedView restartProgress []).isComputed ancestor = true) ∧
    (votedTower (some 2)).voteState.rootSlot = some 0 ∧
    (votedTower (some 2)).lastVotedSlot = some 2 ∧
    (votedTower (some 2)).isStrayLastVote = true ∧
    3 ∈ forkedTree.nodes ∧ (forkedView restartProgress []).getHash 3 = some 3 ∧
    (votedTower (some 2)).makeCheckSwitchThresholdDecision (forkedView restartProgress []) 3 =
      .error .candidateIsAncestor := by
  refine ⟨forkedView_ofTree _ _, forkedTree_rooted, ?_, rfl, rfl, rfl, by decide, rfl, ?_⟩
  · decide +kernel
  · decide +kernel

end Tower

end RakuraiValidator.Consensus
