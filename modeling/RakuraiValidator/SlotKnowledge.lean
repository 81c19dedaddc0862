import Mathlib.Data.List.Perm.Basic
import Mathlib.Order.Defs.LinearOrder

/-!
# Knowledge of one slot

What the verifier knows of one slot, and what it has made of the local version, is a small machine:
the tables, the flags of the local version in the fork choice and the entry of the repair table.  On
this machine the end of a run depends only on which signals arrived, with one exception.  When the
slot was reported as duplicate before the bank was frozen and sampled with the hash of the local
version before it was announced, the bank is compared with the sample and never marked as duplicate.
-/

namespace RakuraiValidator.SlotState

attribute [local simp] Function.comp_def

variable {Hash : Type} [LinearOrder Hash]

/-! ## The machine -/

/-- The signals which may arrive before or after the bank is frozen. -/
inductive Report (Hash : Type)
  | duplicate
  | duplicateConfirmed (hash : Hash)
  | epochSlotsFrozen (hash : Hash)
  deriving DecidableEq

@[ext]
structure Local (Hash : Type) where
  hash : Hash
  isDuplicateConfirmed : Bool
  latestInvalidAncestor : Option ℕ

structure Knowledge (Hash : Type) where
  duplicate : Bool
  confirmed : Option Hash
  epochSlots : Option Hash
  repair : Option Hash
  version : Option (Local Hash)

namespace Knowledge

variable (slot : ℕ) (knowledge : Knowledge Hash)

def markDuplicate : Knowledge Hash :=
  { knowledge with
    version := knowledge.version.map fun version =>
      { version with latestInvalidAncestor := some slot } }

def markConfirmed : Knowledge Hash :=
  { knowledge with
    repair := none
    version := knowledge.version.map fun version =>
      { version with isDuplicateConfirmed := true, latestInvalidAncestor := none } }

variable (version : Local Hash)

/-- Compare the local version with a hash that the cluster confirmed. -/
def compareConfirmed (hash : Hash) (knowledge : Knowledge Hash) :
    Knowledge Hash :=
  if hash = version.hash then knowledge.markConfirmed
  else { knowledge.markDuplicate slot with repair := some hash }

def compareSampled (hash : Hash) (knowledge : Knowledge Hash) :
    Knowledge Hash :=
  if version.hash = hash then knowledge
  else { knowledge.markDuplicate slot with repair := some hash }

def someConfirmed (knowledge : Knowledge Hash) : Bool :=
  version.isDuplicateConfirmed || knowledge.confirmed.isSome

def hear : Report Hash → Knowledge Hash
  | .duplicate =>
    match knowledge.version with
    | some version =>
      if knowledge.someConfirmed version then { knowledge with duplicate := true }
      else { knowledge.markDuplicate slot with duplicate := true }
    | none => { knowledge with duplicate := true }
  | .duplicateConfirmed hash =>
    match knowledge.version with
    | some version =>
      if version.isDuplicateConfirmed then { knowledge with confirmed := some hash }
      else { knowledge with confirmed := some hash }.compareConfirmed slot version hash
    | none => { knowledge with confirmed := some hash }
  | .epochSlotsFrozen hash =>
    match knowledge.version with
    | some version =>
      if knowledge.someConfirmed version then { knowledge with epochSlots := some hash }
      else { knowledge with epochSlots := some hash }.compareSampled slot version hash
    | none => { knowledge with epochSlots := some hash }

def freeze (hash : Hash) (latest : Option ℕ) : Knowledge Hash :=
  { knowledge with version := some ⟨hash, false, latest⟩ }

def announce : Knowledge Hash :=
  match knowledge.version with
  | none => knowledge
  | some version =>
    if version.isDuplicateConfirmed then knowledge.markConfirmed
    else
      match knowledge.confirmed, knowledge.epochSlots with
      | some hash, _ => knowledge.compareConfirmed slot version hash
      | none, some hash => knowledge.compareSampled slot version hash
      | none, none => if knowledge.duplicate then knowledge.markDuplicate slot else knowledge

def run (before between after : List (Report Hash)) (hash : Hash) (latest : Option ℕ)
    (knowledge : Knowledge Hash) : Knowledge Hash :=
  after.foldl (hear slot)
    (announce slot (between.foldl (hear slot)
      ((before.foldl (hear slot) knowledge).freeze hash latest)))

end Knowledge

attribute [local simp] Knowledge.markDuplicate Knowledge.someConfirmed Knowledge.markConfirmed
  Knowledge.compareConfirmed Knowledge.compareSampled Knowledge.hear

/-! ## What arrived -/

structure Reports (Hash : Type) where
  duplicate : Bool
  confirmed : Option Hash
  epochSlots : Option Hash

namespace Reports

variable (reports : Reports Hash)

def all : List (Report Hash) :=
  (if reports.duplicate then [.duplicate] else []) ++
    (reports.confirmed.toList.map .duplicateConfirmed ++
      reports.epochSlots.toList.map .epochSlotsFrozen)

omit [LinearOrder Hash] in
theorem mem_all {reports : Reports Hash} {report : Report Hash} :
    report ∈ reports.all ↔ match report with
      | .duplicate => reports.duplicate = true
      | .duplicateConfirmed hash => reports.confirmed = some hash
      | .epochSlotsFrozen hash => reports.epochSlots = some hash := by
  cases report <;> cases h : reports.duplicate <;> simp [all, h, eq_comm]

omit [LinearOrder Hash] in
theorem all_nodup : reports.all.Nodup := by
  cases hdup : reports.duplicate <;> cases hconf : reports.confirmed <;>
    cases hsampled : reports.epochSlots <;> simp [all, hdup, hconf, hsampled]

def verdict (slot : ℕ) (hash : Hash) (latest : Option ℕ)
    (repair : Option Hash) : Local Hash × Option Hash :=
  match reports.confirmed, reports.epochSlots with
  | some confirmed, _ =>
    if confirmed = hash then (⟨hash, true, none⟩, none)
    else (⟨hash, false, some slot⟩, some confirmed)
  | none, some sampled =>
    if sampled = hash then (⟨hash, false, if reports.duplicate then some slot else latest⟩, repair)
    else (⟨hash, false, some slot⟩, some sampled)
  | none, none => (⟨hash, false, if reports.duplicate then some slot else latest⟩, repair)

theorem verdict_hash (slot : ℕ) (hash : Hash) (latest : Option ℕ)
    (repair : Option Hash) : (reports.verdict slot hash latest repair).1.hash = hash := by
  unfold verdict
  split <;> first | rfl | (split <;> rfl)

end Reports

attribute [local simp] Reports.verdict

namespace Knowledge

def reports (knowledge : Knowledge Hash) : Reports Hash :=
  ⟨knowledge.duplicate, knowledge.confirmed, knowledge.epochSlots⟩

attribute [local simp] reports

def Fresh (knowledge : Knowledge Hash) : Report Hash → Prop
  | .duplicate => knowledge.duplicate = false
  | .duplicateConfirmed _ => knowledge.confirmed = none
  | .epochSlotsFrozen _ => knowledge.epochSlots = none

def Hears (slot : ℕ) : Knowledge Hash → List (Report Hash) → Prop
  | _, [] => True
  | knowledge, report :: later => knowledge.Fresh report ∧ Hears slot (knowledge.hear slot report) later

variable {knowledge : Knowledge Hash} {report : Report Hash} {hash : Hash} {latest : Option ℕ}
  {repair : Option Hash}

section Machine

variable {slot : ℕ} {version : Local Hash}

theorem reports_compareConfirmed :
    (knowledge.compareConfirmed slot version hash).reports = knowledge.reports := by
  unfold compareConfirmed
  split <;> rfl

theorem reports_compareSampled :
    (knowledge.compareSampled slot version hash).reports = knowledge.reports := by
  unfold compareSampled
  split <;> rfl

theorem reports_hear : (knowledge.hear slot report).reports =
    match report with
    | .duplicate => { knowledge.reports with duplicate := true }
    | .duplicateConfirmed hash => { knowledge.reports with confirmed := some hash }
    | .epochSlotsFrozen hash => { knowledge.reports with epochSlots := some hash } := by
  cases hver : knowledge.version with
  | none => cases report <;> simp only [hear, hver] <;> rfl
  | some version =>
    cases report with
    | duplicate =>
      simp only [hear, hver]
      split <;> rfl
    | duplicateConfirmed hash =>
      simp only [hear, hver]
      split
      · rfl
      · exact reports_compareConfirmed
    | epochSlotsFrozen hash =>
      simp only [hear, hver]
      split
      · rfl
      · exact reports_compareSampled

theorem reports_announce : (knowledge.announce slot).reports = knowledge.reports := by
  unfold announce
  split
  · rfl
  · split
    · rfl
    · split
      · exact reports_compareConfirmed
      · exact reports_compareSampled
      · split <;> rfl

theorem hear_of_unfrozen (h : knowledge.version = none) :
    (knowledge.hear slot report).version = none ∧
      (knowledge.hear slot report).repair = knowledge.repair := by
  cases report <;> simp [hear, h]

theorem hash_hear : (knowledge.hear slot report).version.map Local.hash =
    knowledge.version.map Local.hash := by
  cases hver : knowledge.version with
  | none => rw [(hear_of_unfrozen hver).1]
  | some version =>
    cases report with
    | duplicate =>
      simp only [hear, hver]
      split <;> simp [hver]
    | duplicateConfirmed hash =>
      simp only [hear, hver, compareConfirmed]
      split
      · rfl
      · split <;> simp
    | epochSlotsFrozen hash =>
      simp only [hear, hver, compareSampled]
      split
      · rfl
      · split <;> simp

theorem hash_announce : (knowledge.announce slot).version.map Local.hash =
    knowledge.version.map Local.hash := by
  unfold announce
  split
  · rfl
  · split
    · simp
    · split
      · unfold compareConfirmed
        split <;> simp
      · unfold compareSampled
        split <;> simp
      · split <;> simp

/-- Between freezing and the announcement: only a confirmation of the local version confirms it, and
without a confirmation or another sample the repair entry and an unreported version are untouched.
The version is marked by a duplicate report, unless it came early, before the bank was frozen. -/
structure Waiting (early : Prop) (slot : ℕ) (hash : Hash) (latest : Option ℕ) (repair : Option Hash)
    (knowledge : Knowledge Hash) (version : Local Hash) : Prop where
  version_eq : knowledge.version = some version
  hash_eq : version.hash = hash
  confirmed : version.isDuplicateConfirmed = true → knowledge.confirmed = some hash
  untouched : knowledge.confirmed = none →
    knowledge.epochSlots = none ∨ knowledge.epochSlots = some hash →
    knowledge.repair = repair ∧ (knowledge.duplicate = false → version.latestInvalidAncestor = latest)
  marked : knowledge.confirmed = none → knowledge.duplicate = true → ¬ early →
    version.latestInvalidAncestor = some slot

variable {early late : Prop}

omit [LinearOrder Hash] in
theorem Waiting.someConfirmed_eq (h : Waiting early slot hash latest repair knowledge version) :
    knowledge.someConfirmed version = knowledge.confirmed.isSome := by
  cases hcase : version.isDuplicateConfirmed with
  | true => simp [hcase, h.confirmed hcase]
  | false => simp [hcase]

theorem Waiting.hear (h : Waiting early slot hash latest repair knowledge version)
    (hfresh : knowledge.Fresh report) :
    ∃ version', Waiting early slot hash latest repair (knowledge.hear slot report) version' := by
  have hsome := h.someConfirmed_eq
  have hnot : knowledge.confirmed.isSome = true → knowledge.confirmed ≠ none :=
    Option.isSome_iff_ne_none.mp
  obtain ⟨hver, hhash, hconf, huntouched, hmark⟩ := h
  cases report with
  | duplicate =>
    simp only [Knowledge.hear, hver, hsome]
    split
    next hthere =>
      exact ⟨version, rfl, hhash, hconf, fun hnone => absurd hnone (hnot hthere),
        fun hnone => absurd hnone (hnot hthere)⟩
    next =>
      refine ⟨{ version with latestInvalidAncestor := some slot }, ?_, hhash, hconf, ?_,
        fun _ _ _ => rfl⟩
      · simp [hver]
      · intro hnone hsampled
        exact ⟨(huntouched hnone hsampled).1, nofun⟩
  | duplicateConfirmed other =>
    have hunconf : version.isDuplicateConfirmed = false := by
      by_contra hyes
      have hnone : knowledge.confirmed = none := hfresh
      rw [hconf (by simpa using hyes)] at hnone
      contradiction
    simp only [Knowledge.hear, hver, hunconf, Bool.false_eq_true, if_false, compareConfirmed]
    split
    next heq =>
      refine ⟨{ version with isDuplicateConfirmed := true, latestInvalidAncestor := none }, ?_,
        hhash, ?_, nofun, nofun⟩
      · simp
      · intro _
        simp [heq, hhash]
    next =>
      refine ⟨{ version with latestInvalidAncestor := some slot }, ?_, hhash, ?_, nofun, nofun⟩
      · simp
      · simp [hunconf]
  | epochSlotsFrozen other =>
    simp only [Knowledge.hear, hver, hsome]
    split
    next hthere =>
      exact ⟨version, rfl, hhash, hconf, fun hnone => absurd hnone (hnot hthere),
        fun hnone => absurd hnone (hnot hthere)⟩
    next =>
      simp only [compareSampled]
      split
      next heq =>
        refine ⟨version, rfl, hhash, hconf, ?_, hmark⟩
        intro hnone _
        exact huntouched hnone (.inl hfresh)
      next hne =>
        refine ⟨{ version with latestInvalidAncestor := some slot }, ?_, hhash, hconf, ?_,
          fun _ _ _ => rfl⟩
        · simp
        · intro _ hsampled
          simp only [markDuplicate, reduceCtorEq, Option.some.injEq, false_or] at hsampled
          exact absurd (hhash.trans hsampled.symm) hne

/-- The local version and the repair entry are what the reports say, unless the reports lack a
confirmation which is still to come. -/
structure Judged (late : Prop) (slot : ℕ) (hash : Hash) (latest : Option ℕ) (repair : Option Hash)
    (knowledge : Knowledge Hash) (version : Local Hash) : Prop where
  version_eq : knowledge.version = some version
  hash_eq : version.hash = hash
  confirmed : version.isDuplicateConfirmed = true → knowledge.confirmed = some hash
  verdict_eq : knowledge.confirmed ≠ none ∨ ¬ late →
    (version, knowledge.repair) = knowledge.reports.verdict slot hash latest repair

theorem Waiting.announce (late : Prop) (h : Waiting early slot hash latest repair knowledge version)
    (hlate : ¬ late → knowledge.epochSlots = some hash → ¬ early) :
    ∃ version', Judged late slot hash latest repair (knowledge.announce slot) version' := by
  obtain ⟨hver, hhash, hconf, huntouched, hmark⟩ := h
  obtain ⟨duplicate, confirmed, epochSlots, repair', version'⟩ := knowledge
  obtain ⟨hash', isDuplicateConfirmed, latest'⟩ := version
  simp only at hver hhash hconf huntouched hmark hlate
  subst hver hhash
  simp only [Knowledge.announce]
  cases isDuplicateConfirmed with
  | true =>
    have hself := hconf rfl
    subst hself
    refine ⟨⟨hash', true, none⟩, rfl, rfl, fun _ => rfl, fun _ => ?_⟩
    simp
  | false =>
    simp only [Bool.false_eq_true, if_false]
    cases confirmed with
    | some other =>
      simp only [compareConfirmed]
      split
      next heq =>
        refine ⟨⟨hash', true, none⟩, rfl, rfl, fun _ => by simp [heq], fun _ => ?_⟩
        simp [heq]
      next hne =>
        refine ⟨⟨hash', false, some slot⟩, rfl, rfl, nofun, fun _ => ?_⟩
        simp [hne]
    | none =>
      cases epochSlots with
      | some other =>
        simp only [compareSampled]
        split
        next heq =>
          subst heq
          obtain ⟨hrepair, hlatest⟩ := huntouched rfl (.inr rfl)
          refine ⟨⟨hash', false, latest'⟩, rfl, rfl, nofun, ?_⟩
          intro hcase
          have hnot := hlate (hcase.resolve_left fun hne => hne rfl) rfl
          cases duplicate with
          | true => simp [hmark rfl rfl hnot, hrepair]
          | false => simp [hlatest rfl, hrepair]
        next hne =>
          refine ⟨⟨hash', false, some slot⟩, rfl, rfl, nofun, fun _ => ?_⟩
          simp [Ne.symm hne]
      | none =>
        obtain ⟨hrepair, hlatest⟩ := huntouched rfl (.inl rfl)
        cases duplicate with
        | true =>
          refine ⟨⟨hash', false, some slot⟩, rfl, rfl, nofun, fun _ => ?_⟩
          simp [hrepair]
        | false =>
          refine ⟨⟨hash', false, latest'⟩, rfl, rfl, nofun, fun _ => ?_⟩
          simp [hrepair, hlatest rfl]

variable (h : Judged late slot hash latest repair knowledge version)

include h

theorem Judged.unconfirmed (hnone : knowledge.confirmed = none) :
    version.isDuplicateConfirmed = false := by
  rw [← Bool.not_eq_true]
  intro hflag
  exact absurd ((h.confirmed hflag).symm.trans hnone) nofun

theorem Judged.hear (hfresh : knowledge.Fresh report) :
    ∃ version', Judged late slot hash latest repair (knowledge.hear slot report) version' := by
  have hopen := h.unconfirmed
  obtain ⟨hver, hhash, hconf, hverdict⟩ := h
  obtain ⟨duplicate, confirmed, epochSlots, repair', version'⟩ := knowledge
  obtain ⟨hash', isDuplicateConfirmed, latest'⟩ := version
  simp only at hver hhash hconf hverdict hopen
  subst hver hhash
  cases report with
  | duplicate =>
    cases (show duplicate = false from hfresh)
    cases confirmed with
    | some other =>
      -- the verdict is about the confirmed hash
      refine ⟨⟨hash', isDuplicateConfirmed, latest'⟩, ?_, rfl, ?_, fun _ => ?_⟩
      · simp
      · simpa using hconf
      · simpa using hverdict (.inl nofun)
    | none =>
      cases hopen rfl
      refine ⟨⟨hash', false, some slot⟩, ?_, rfl, nofun, ?_⟩
      · simp
      · intro hcase
        have hbefore := hverdict (.inr (hcase.resolve_left (by
          simp)))
        cases epochSlots with
        | none =>
          simp_all
        | some sampled =>
          by_cases heq : sampled = hash' <;>
            simp_all
  | duplicateConfirmed other =>
    cases (show confirmed = none from hfresh)
    cases hopen rfl
    by_cases heq : other = hash'
    · refine ⟨⟨hash', true, none⟩, ?_, rfl, ?_, fun _ => ?_⟩
      · simp [heq]
      · simp [heq]
      · simp [heq]
    · refine ⟨⟨hash', false, some slot⟩, ?_, rfl, nofun, fun _ => ?_⟩
      · simp [heq]
      · simp [heq]
  | epochSlotsFrozen other =>
    cases (show epochSlots = none from hfresh)
    cases confirmed with
    | some chosen =>
      refine ⟨⟨hash', isDuplicateConfirmed, latest'⟩, ?_, rfl, ?_, fun _ => ?_⟩
      · simp
      · simpa using hconf
      · simpa using hverdict (.inl nofun)
    | none =>
      cases hopen rfl
      by_cases heq : other = hash'
      · refine ⟨⟨hash', false, latest'⟩, ?_, rfl, nofun, ?_⟩
        · simp [heq]
        · intro hcase
          have hbefore := hverdict (.inr (hcase.resolve_left (by
            simp [heq])))
          cases duplicate <;>
            simp_all
      · refine ⟨⟨hash', false, some slot⟩, ?_, rfl, nofun, fun _ => ?_⟩
        · simp [Ne.symm heq]
        · simp [heq, Ne.symm heq]

end Machine

/-! ## All orders -/

section Orders

variable {slot : ℕ} {done reports : List (Report Hash)} {arrived : Reports Hash}

def Heard (knowledge : Knowledge Hash) (done : List (Report Hash)) : Prop :=
  ∀ report, report ∈ knowledge.reports.all ↔ report ∈ done

theorem Heard.hear (h : knowledge.Heard done) (hfresh : knowledge.Fresh report) :
    (knowledge.hear slot report).Heard (done ++ [report]) := by
  intro other
  rw [List.mem_append, List.mem_singleton, ← h other, Reports.mem_all, reports_hear,
    Reports.mem_all]
  cases report with
  | duplicate => cases other <;> simp
  | duplicateConfirmed hash =>
    have hnone : knowledge.confirmed = none := hfresh
    cases other with
    | duplicate => simp
    | duplicateConfirmed other =>
      simp only [Knowledge.reports, hnone, reduceCtorEq, false_or, Option.some.injEq,
        Report.duplicateConfirmed.injEq]
      exact eq_comm
    | epochSlotsFrozen other => simp
  | epochSlotsFrozen hash =>
    have hnone : knowledge.epochSlots = none := hfresh
    cases other with
    | duplicate => simp
    | duplicateConfirmed other => simp
    | epochSlotsFrozen other =>
      simp only [Knowledge.reports, hnone, reduceCtorEq, false_or, Option.some.injEq,
        Report.epochSlotsFrozen.injEq]
      exact eq_comm

omit [LinearOrder Hash] in
theorem fresh_of_heard (h : knowledge.Heard done)
    (harrived : ∀ other ∈ done ++ [report], other ∈ arrived.all) (hnew : report ∉ done) :
    knowledge.Fresh report := by
  have hreport := Reports.mem_all.mp (harrived report (by simp))
  cases report with
  | duplicate =>
    by_contra hyes
    apply hnew
    rw [← h, Reports.mem_all]
    simpa [Fresh] using hyes
  | duplicateConfirmed hash =>
    by_contra hyes
    obtain ⟨other, hother⟩ := Option.ne_none_iff_exists'.mp hyes
    have hmem : .duplicateConfirmed other ∈ done := by
      rw [← h, Reports.mem_all]
      exact hother
    have hsame := Reports.mem_all.mp (harrived _ (List.mem_append_left _ hmem))
    simp only [hreport, Option.some.injEq] at hsame
    exact hnew (hsame ▸ hmem)
  | epochSlotsFrozen hash =>
    by_contra hyes
    obtain ⟨other, hother⟩ := Option.ne_none_iff_exists'.mp hyes
    have hmem : .epochSlotsFrozen other ∈ done := by
      rw [← h, Reports.mem_all]
      exact hother
    have hsame := Reports.mem_all.mp (harrived _ (List.mem_append_left _ hmem))
    simp only [hreport, Option.some.injEq] at hsame
    exact hnew (hsame ▸ hmem)

theorem foldl_hear (slot : ℕ) {P : Knowledge Hash → Prop}
    (hstep : ∀ knowledge report, Fresh knowledge report → P knowledge → P (knowledge.hear slot report))
    (hheard : knowledge.Heard done) (hnodup : (done ++ reports).Nodup)
    (harrived : ∀ report ∈ done ++ reports, report ∈ arrived.all) (hP : P knowledge) :
    Hears slot knowledge reports ∧ P (reports.foldl (hear slot) knowledge) ∧
      (reports.foldl (hear slot) knowledge).Heard (done ++ reports) := by
  induction reports generalizing knowledge done with
  | nil => exact ⟨trivial, hP, by simpa using hheard⟩
  | cons report reports ih =>
    have hsplit : done ++ report :: reports = done ++ [report] ++ reports := by simp
    rw [hsplit] at hnodup harrived
    have hfresh : knowledge.Fresh report := by
      apply fresh_of_heard hheard fun other hother =>
        harrived other (List.mem_append_left _ hother)
      intro hmem
      have hdisj := (List.nodup_append.mp (List.nodup_append.mp hnodup).1).2.2
      exact hdisj report hmem report (by simp) rfl
    obtain ⟨hears, hlast, hheard'⟩ :=
      ih (hheard.hear hfresh) hnodup harrived (hstep _ _ hfresh hP)
    rw [hsplit]
    exact ⟨⟨hfresh, hears⟩, hlast, hheard'⟩

def initial (repair : Option Hash) : Knowledge Hash := ⟨false, none, none, repair, none⟩

/-- Without a confirmation it does not happen that the slot is sampled with the local hash before the
bank is announced, and reported as duplicate before the bank is frozen. -/
def Told (arrived : Reports Hash) (hash : Hash) (before between : List (Report Hash)) : Prop :=
  arrived.confirmed = none → .epochSlotsFrozen hash ∈ before ++ between → .duplicate ∉ before

omit [LinearOrder Hash] in
theorem heard_initial : (initial repair).Heard [] := by
  intro report
  cases report <;> simp [Reports.mem_all, initial]

omit [LinearOrder Hash] in
theorem reports_eq_of_heard (h : knowledge.Heard done) (hall : ∀ report, report ∈ done ↔
    report ∈ arrived.all) : knowledge.reports = arrived := by
  have hsame : ∀ report, report ∈ knowledge.reports.all ↔ report ∈ arrived.all :=
    fun report => (h report).trans (hall report)
  have hdup := hsame .duplicate
  have hconf := fun hash => hsame (.duplicateConfirmed hash)
  have hsampled := fun hash => hsame (.epochSlotsFrozen hash)
  simp only [Reports.mem_all] at hdup hconf hsampled
  cases hreports : knowledge.reports with
  | mk duplicate confirmed epochSlots =>
    rw [hreports] at hdup hconf hsampled
    cases arrived with
    | mk duplicate' confirmed' epochSlots' =>
      have hone : duplicate = duplicate' := Bool.eq_iff_iff.mpr hdup
      have htwo : confirmed = confirmed' := Option.ext hconf
      have hthree : epochSlots = epochSlots' := Option.ext hsampled
      rw [hone, htwo, hthree]

theorem run_initial (slot : ℕ) (latest : Option ℕ) (repair : Option Hash)
    {before between after : List (Report Hash)}
    (horder : (before ++ between ++ after).Perm arrived.all)
    (htold : Told arrived hash before between) :
    Hears slot (initial repair) before ∧
    Hears slot ((before.foldl (hear slot) (initial repair)).freeze hash latest) between ∧
    Hears slot (announce slot (between.foldl (hear slot)
      ((before.foldl (hear slot) (initial repair)).freeze hash latest))) after ∧
    ((initial repair).run slot before between after hash latest).version =
      some (arrived.verdict slot hash latest repair).1 ∧
    ((initial repair).run slot before between after hash latest).repair =
      (arrived.verdict slot hash latest repair).2 := by
  have hnodup := horder.nodup_iff.mpr arrived.all_nodup
  have harrived : ∀ report ∈ before ++ between ++ after, report ∈ arrived.all :=
    fun report h => horder.mem_iff.mp h
  have hearly := (List.nodup_append.mp hnodup).1
  -- before the bank is frozen
  obtain ⟨hears₁, ⟨hver₁, hrepair₁⟩, hheard₁⟩ := foldl_hear slot
    (P := fun knowledge => knowledge.version = none ∧ knowledge.repair = repair)
    (fun knowledge report _ h => ⟨(hear_of_unfrozen h.1).1, (hear_of_unfrozen h.1).2.trans h.2⟩)
    heard_initial (List.nodup_append.mp hearly).1
    (fun report h => harrived report (by simp_all)) (⟨rfl, rfl⟩ : _ ∧ (initial repair).repair = repair)
  rw [List.nil_append] at hheard₁
  -- until it is announced
  obtain ⟨hears₂, ⟨waiting, hwait⟩, hheard₂⟩ := foldl_hear slot
    (P := fun knowledge =>
      ∃ version, Waiting (.duplicate ∈ before) slot hash latest repair knowledge version)
    (fun knowledge report hfresh h => h.elim fun _ hwait => hwait.hear hfresh)
    (show ((before.foldl (hear slot) (initial repair)).freeze hash latest).Heard before from hheard₁)
    hearly (fun report h => harrived report (List.mem_append_left _ h))
    ⟨_, rfl, rfl, nofun, fun _ _ => ⟨hrepair₁, fun _ => rfl⟩, fun _ hdup hnot =>
      absurd ((hheard₁ .duplicate).mp (Reports.mem_all.mpr hdup)) hnot⟩
  have hannounced := hwait.announce (arrived.confirmed ≠ none) (by
    intro hnever hsampled
    have hmem := (hheard₂ (.epochSlotsFrozen hash)).mp (Reports.mem_all.mpr hsampled)
    exact htold (not_not.mp hnever) hmem)
  -- and afterwards
  have hheard₃ : (announce slot (between.foldl (hear slot)
      ((before.foldl (hear slot) (initial repair)).freeze hash latest))).Heard (before ++ between) := by
    intro report
    rw [reports_announce]
    exact hheard₂ report
  obtain ⟨hears₃, ⟨version, hjudged⟩, hheard₄⟩ := foldl_hear slot
    (P := fun knowledge => ∃ version,
      Judged (arrived.confirmed ≠ none) slot hash latest repair knowledge version)
    (fun knowledge report hfresh h => h.elim fun _ hjudged => hjudged.hear hfresh)
    hheard₃ hnodup harrived hannounced
  have hreports := reports_eq_of_heard hheard₄ fun report => horder.mem_iff
  have hcase : (after.foldl (hear slot) (announce slot (between.foldl (hear slot)
      ((before.foldl (hear slot) (initial repair)).freeze hash latest)))).confirmed ≠ none ∨
      ¬ arrived.confirmed ≠ none := by
    rw [show (after.foldl (hear slot) (announce slot (between.foldl (hear slot)
      ((before.foldl (hear slot) (initial repair)).freeze hash latest)))).confirmed =
      arrived.confirmed from congrArg Reports.confirmed hreports]
    exact em _
  have hverdict := hjudged.verdict_eq hcase
  rw [hreports] at hverdict
  refine ⟨hears₁, hears₂, hears₃, ?_, ?_⟩
  · rw [← hverdict]
    exact hjudged.version_eq
  · rw [← hverdict]
    rfl

end Orders

end Knowledge

end RakuraiValidator.SlotState
