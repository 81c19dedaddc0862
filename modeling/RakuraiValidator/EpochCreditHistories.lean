import RakuraiValidator.VoteRewardsBudget

/-!
# Epoch credit histories

A vote account is credited by votes and later by reward certificates.  Both keep the entries of its
history linked.
-/

namespace RakuraiValidator.VoteReward

open Vote List

abbrev unmarked (epochCredits : List (ℕ × ℕ × ℕ)) : List (ℕ × ℕ × ℕ) :=
  epochCredits.filter fun entry => entry ≠ agMigrationEpochCredit

/-- An entry begins with the credits the entry before it ended with, and in a later epoch unless the
marker separates the two. -/
@[mk_iff]
structure LinkedCredits (epochCredits : List (ℕ × ℕ × ℕ)) : Prop where
  marker : epochCredits.count agMigrationEpochCredit ≤ 1
  linked : (unmarked epochCredits).IsChain fun entry next =>
    next.2.2 = entry.2.1 ∧ entry.1 ≤ next.1
  increasing : epochCredits.IsChain fun entry next =>
    entry ≠ agMigrationEpochCredit → next ≠ agMigrationEpochCredit → entry.1 < next.1

variable {epochCredits : List (ℕ × ℕ × ℕ)} {entry : ℕ × ℕ × ℕ}

theorem linkedCredits_concat (hne : entry ≠ agMigrationEpochCredit) :
    LinkedCredits (epochCredits ++ [entry]) ↔ LinkedCredits epochCredits ∧
      (∀ last ∈ (unmarked epochCredits).getLast?, entry.2.2 = last.2.1 ∧ last.1 ≤ entry.1) ∧
      ∀ last ∈ epochCredits.getLast?, last ≠ agMigrationEpochCredit → last.1 < entry.1 := by
  have hcount : [entry].count agMigrationEpochCredit = 0 := by simp [hne]
  simp only [linkedCredits_iff, unmarked, count_append, hcount, filter_append, isChain_append,
    filter_singleton, hne, ne_eq, not_false_eq_true, decide_true]
  simp
  tauto

theorem unmarked_marker :
    unmarked (epochCredits ++ [agMigrationEpochCredit]) = unmarked epochCredits := by
  simp [unmarked, filter_append]

theorem getLast?_unmarked (h : ∀ last ∈ epochCredits.getLast?, last ≠ agMigrationEpochCredit) :
    (unmarked epochCredits).getLast? = epochCredits.getLast? := by
  rcases eq_nil_or_concat' epochCredits with rfl | ⟨init, last, rfl⟩
  · rfl
  · simp [unmarked, filter_append, h last getLast?_concat]

variable (h : LinkedCredits epochCredits)

include h in
theorem LinkedCredits.concat_marker (hfresh : agMigrationEpochCredit ∉ epochCredits) :
    LinkedCredits (epochCredits ++ [agMigrationEpochCredit]) := by
  constructor
  · rw [count_append, count_eq_zero.mpr hfresh, count_singleton_self]
  · rw [unmarked_marker]
    exact h.linked
  · exact isChain_append.mpr ⟨h.increasing, isChain_singleton _, by simp⟩

include h in
theorem LinkedCredits.suffix {kept : List (ℕ × ℕ × ℕ)} (hkept : kept <:+ epochCredits) :
    LinkedCredits kept :=
  ⟨(hkept.sublist.count_le _).trans h.marker, h.linked.suffix (hkept.filter _),
    h.increasing.suffix hkept⟩

/-- The history after a call in the epoch `current`. -/
structure CreditHistory (epochCredits : List (ℕ × ℕ × ℕ)) (current : ℕ) : Prop
    extends LinkedCredits epochCredits where
  last : ∀ entry ∈ epochCredits.getLast?, entry ≠ agMigrationEpochCredit ∧ entry.1 ≤ current
  length_le : epochCredits.length ≤ maxEpochCreditsHistory

section Step

variable {current epoch newCredits finalCredits : ℕ}

include h in
theorem LinkedCredits.push (hlt : epoch < u64Max ∨ finalCredits < u64Max)
    (hle : ∀ last ∈ (unmarked epochCredits).getLast?, last.1 ≤ epoch)
    (hincr : ∀ last ∈ epochCredits.getLast?, last ≠ agMigrationEpochCredit → last.1 < epoch) :
    let pushed := trimHistory (epochCredits ++ [(epoch, finalCredits, latestCredits epochCredits)])
    CreditHistory pushed epoch ∧ latestCredits pushed = finalCredits := by
  have hne := ne_marker_of_or hlt (latestCredits epochCredits)
  have hlink := (linkedCredits_concat hne).mpr ⟨h, fun last hlast =>
    ⟨by rw [latestCredits, Option.mem_def.mp hlast]; rfl, hle last hlast⟩, hincr⟩
  have htrimmed : LinkedCredits (trimHistory _) := hlink.suffix (drop_suffix _ _)
  rw [trimHistory_append_entry] at htrimmed
  rw [trimHistory_append_entry]
  refine ⟨⟨htrimmed, by simp [hne], ?_⟩, latestCredits_append_entry _ hne⟩
  have : 0 < maxEpochCreditsHistory := by decide
  rw [length_append, length_drop, length_singleton]
  omega

theorem Added.history {added : List (ℕ × ℕ × ℕ)} (hadded : Added epoch newCredits epochCredits added)
    (hlt : epoch < u64Max ∨ saturatingAdd (latestCredits epochCredits) newCredits < u64Max)
    (h : CreditHistory epochCredits current) (hle : current ≤ epoch) :
    CreditHistory added epoch ∧
      latestCredits added = saturatingAdd (latestCredits epochCredits) newCredits := by
  have hlast : ∀ last ∈ epochCredits.getLast?, last.1 ≤ epoch :=
    fun last hmem => (h.last last hmem).2.trans hle
  have hunmarked := getLast?_unmarked fun last hmem => (h.last last hmem).1
  cases hadded with
  | replace init last hmarker =>
    rw [latestCredits_append_entry _ hmarker] at hlt ⊢
    have hne := ne_marker_of_or hlt last.2.2
    obtain ⟨hinit, hlink, hincr⟩ := (linkedCredits_concat hmarker).mp h.toLinkedCredits
    have hle := hlast last getLast?_concat
    refine ⟨⟨(linkedCredits_concat hne).mpr ⟨hinit, ?_, ?_⟩, by simp [hne], ?_⟩,
      latestCredits_append_entry _ hne⟩
    · exact fun before hmem => ⟨(hlink before hmem).1, (hlink before hmem).2.trans hle⟩
    · exact fun before hmem hnot => (hincr before hmem hnot).trans_le hle
    · simpa using h.length_le
  | push _ hepoch =>
    exact h.push hlt (hunmarked ▸ hlast)
      fun last hmem hnot => (hlast last hmem).lt_of_ne (hepoch last hmem hnot)
  | mark _ hfresh =>
    rw [← latestCredits_append_marker] at hlt ⊢
    exact (h.concat_marker hfresh).push hlt (by rwa [unmarked_marker, hunmarked]) (by simp)

end Step

omit h

theorem trimHistory_eq_tail (h : epochCredits.length ≤ maxEpochCreditsHistory + 1) :
    trimHistory epochCredits =
      if maxEpochCreditsHistory < epochCredits.length then epochCredits.tail else epochCredits := by
  unfold trimHistory
  split_ifs with hlong
  · rw [show epochCredits.length - maxEpochCreditsHistory = 1 by omega, drop_one]
  · rw [Nat.sub_eq_zero_of_le (not_lt.mp hlong), drop_zero]

/-- A vote credits as a reward certificate does. -/
theorem CreditHistory.added {handler : VoteStateHandler} {current : ℕ}
    (h : CreditHistory handler.epochCredits current) (epoch newCredits : ℕ) :
    Added epoch newCredits handler.epochCredits
      (handler.incrementCredits epoch newCredits).epochCredits := by
  simp only [VoteStateHandler.incrementCredits, VoteStateHandler.enterEpoch]
  rcases eq_nil_or_concat' handler.epochCredits with hnil | ⟨init, last, hconcat⟩
  · rw [hnil]
    exact .push [] (by simp)
  rw [hconcat] at h ⊢
  obtain ⟨hne, -⟩ := h.last last getLast?_concat
  have hlen := h.length_le
  simp only [getLast?_concat, dropLast_concat]
  by_cases hepoch : epoch = last.1
  · subst hepoch
    simpa [saturatingAdd] using Added.replace init last hne
  by_cases hzero : last.2.1 = last.2.2
  · have hshort : ¬maxEpochCreditsHistory ≤ init.length := by
      rw [length_append, length_singleton] at hlen
      omega
    simpa [hepoch, hzero, hshort, saturatingAdd] using Added.replace init last hne
  · have hpush : Added epoch newCredits (init ++ [last]) _ :=
      .push _ (by simpa using fun _ => Ne.symm hepoch)
    rw [latestCredits_append_entry init hne, trimHistory_append_entry] at hpush
    have hlong : (init ++ [last] ++ [(epoch, last.2.1, last.2.1)]).length ≤
        maxEpochCreditsHistory + 1 := by
      simpa using hlen
    simp only [ne_eq, hepoch, hzero, not_false_eq_true, if_true, ← trimHistory_eq_tail hlong,
      trimHistory_append_entry, getLast?_concat, dropLast_concat]
    exact hpush

/-! ## Runs -/

structure CreditCall where
  byVote : Bool
  epoch : ℕ
  credits : ℕ

def CreditCall.apply (Pubkey : Type) (migrationEpoch : ℕ) (handler : VoteStateHandler)
    (call : CreditCall) : Except (UpdateFailure Pubkey) VoteStateHandler :=
  if call.byVote then .ok (handler.incrementCredits call.epoch call.credits)
  else incrementCredits handler migrationEpoch call.epoch call.credits

section Runs

variable (Pubkey : Type) (migrationEpoch : ℕ) {handler : VoteStateHandler} {current total : ℕ}

theorem CreditHistory.apply {call : CreditCall} (h : CreditHistory handler.epochCredits current)
    (hle : current ≤ call.epoch) (hfits : call.credits ≤ u64Max) (hlt : call.epoch < u64Max ∨
      saturatingAdd (latestCredits handler.epochCredits) call.credits < u64Max) :
    ∃ credited, call.apply Pubkey migrationEpoch handler = .ok credited ∧
      CreditHistory credited.epochCredits call.epoch ∧ latestCredits credited.epochCredits =
        saturatingAdd (latestCredits handler.epochCredits) call.credits := by
  unfold CreditCall.apply
  split
  · exact ⟨_, rfl, (h.added _ _).history hlt h hle⟩
  · obtain ⟨credited, hok, hadded⟩ := incrementCredits_added Pubkey _ hfits h.marker migrationEpoch
    exact ⟨credited, hok, hadded.history hlt h hle⟩

theorem CreditHistory.run {calls : List CreditCall} (h : CreditHistory handler.epochCredits current)
    (htot : latestCredits handler.epochCredits = min total u64Max)
    (hordered : (current :: calls.map CreditCall.epoch).IsChain (· ≤ ·))
    (hfits : ∀ call ∈ calls, call.credits ≤ u64Max)
    (hmax : (∀ call ∈ calls, call.epoch < u64Max) ∨
      total + (calls.map CreditCall.credits).sum < u64Max) :
    ∃ credited last, calls.foldlM (CreditCall.apply Pubkey migrationEpoch) handler = .ok credited ∧
      CreditHistory credited.epochCredits last ∧ latestCredits credited.epochCredits =
        min (total + (calls.map CreditCall.credits).sum) u64Max := by
  induction calls generalizing handler current total with
  | nil => exact ⟨handler, current, rfl, h, htot⟩
  | cons call calls ih =>
    obtain ⟨hle, hrest⟩ := isChain_cons_cons.mp hordered
    have hadd : saturatingAdd (latestCredits handler.epochCredits) call.credits =
        min (total + call.credits) u64Max := by
      rw [htot]
      unfold saturatingAdd
      omega
    rw [map_cons, sum_cons, ← Nat.add_assoc] at hmax ⊢
    obtain ⟨next, hnext, hhist, hlatest⟩ := h.apply Pubkey migrationEpoch hle
      (hfits call mem_cons_self) (hmax.imp (· call mem_cons_self) fun hlt => by omega)
    rw [foldlM_cons, hnext]
    exact ih hhist (hlatest.trans hadd) hrest
      (fun other hmem => hfits other (mem_cons_of_mem _ hmem))
      (hmax.imp_left fun hlt other hmem => hlt other (mem_cons_of_mem _ hmem))

end Runs

/-- The credits are exactly those added, the entries are linked, and no assertion fails, unless the
credits saturate in the last epoch. -/
theorem epoch_credits_linked (Pubkey : Type) (migrationEpoch : ℕ) (handler : VoteStateHandler)
    (hempty : handler.epochCredits = []) (calls : List CreditCall)
    (hordered : (calls.map CreditCall.epoch).IsChain (· ≤ ·))
    (hfits : ∀ call ∈ calls, call.credits ≤ u64Max)
    (hmax : (∀ call ∈ calls, call.epoch < u64Max) ∨ (calls.map CreditCall.credits).sum < u64Max) :
    ∃ credited, calls.foldlM (CreditCall.apply Pubkey migrationEpoch) handler = .ok credited ∧
      LinkedCredits credited.epochCredits ∧
      credited.epochCredits.getLast? ≠ some agMigrationEpochCredit ∧
      credited.epochCredits.length ≤ maxEpochCreditsHistory ∧
      latestCredits credited.epochCredits = min (calls.map CreditCall.credits).sum u64Max := by
  have hstart : CreditHistory handler.epochCredits 0 := by
    refine ⟨⟨?_, ?_, ?_⟩, ?_, ?_⟩ <;> simp [hempty]
  obtain ⟨credited, last, hrun, hhistory, hlatest⟩ := hstart.run Pubkey migrationEpoch
    (by rw [hempty]; rfl : _ = min 0 u64Max)
    (isChain_cons.mpr ⟨fun _ _ => Nat.zero_le _, hordered⟩) hfits (by rwa [Nat.zero_add])
  refine ⟨credited, hrun, hhistory.toLinkedCredits, ?_, hhistory.length_le, ?_⟩
  · exact fun hmarker => (hhistory.last _ hmarker).1 rfl
  · rw [hlatest, Nat.zero_add]

/-- In the last epoch a saturated entry is equal to the marker. -/
theorem saturated_entry_is_marker :
    (⟨true, 0, u64Max⟩ :: replicate 3 ⟨false, u64Max, 1⟩).foldlM (CreditCall.apply Unit 0)
      ⟨[], none, [], ⟨0, 0⟩⟩ = .error .repeatedMarker := by
  decide +kernel

theorem epoch_credits_linked_across_migration :
    ∃ credited, [⟨true, 3, 5⟩, ⟨false, 3, 2⟩, ⟨false, 4, 1⟩].foldlM (CreditCall.apply Unit 3)
        ⟨[], none, [], ⟨0, 0⟩⟩ = .ok credited ∧ LinkedCredits credited.epochCredits ∧
      credited.epochCredits = [(3, 5, 0), agMigrationEpochCredit, (3, 7, 5), (4, 8, 7)] := by
  obtain ⟨credited, hrun, hlinked, -⟩ := epoch_credits_linked Unit 3 ⟨[], none, [], ⟨0, 0⟩⟩ rfl
    [⟨true, 3, 5⟩, ⟨false, 3, 2⟩, ⟨false, 4, 1⟩] (by decide) (by decide) (.inl (by decide))
  refine ⟨credited, hrun, hlinked, ?_⟩
  cases hrun
  rfl

end RakuraiValidator.VoteReward
