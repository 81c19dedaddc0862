import RakuraiValidator.OrderedMap

/-!
# Passes in descending key order

A pass performs operations on the values of a map.  An operation changes the value of its own key
and reads only values of greater keys.  When the keys of the operations descend, every value is in
the end the result of its own operations, as if these had read the final map.
-/

namespace RakuraiValidator.DescendingPasses

open BTreeMap List

variable {κ α ω ε : Type} [LinearOrder κ] {α β : Type} {x : Except ε α} {b : β}

theorem bind_eq_ok_iff {f : α → Except ε β} : x >>= f = .ok b ↔ ∃ a, x = .ok a ∧ f a = .ok b := by
  cases x with
  | error e => exact ⟨nofun, nofun⟩
  | ok a => exact ⟨fun h => ⟨a, rfl, h⟩, fun ⟨_, ha, hb⟩ => Except.ok.inj ha ▸ hb⟩

theorem ok_bind (a : α) (f : α → Except ε β) : (.ok a >>= f) = f a := rfl

theorem map_eq_ok_iff {f : α → β} : x.map f = .ok b ↔ ∃ a, x = .ok a ∧ f a = b := by
  cases x with
  | error e => exact ⟨nofun, nofun⟩
  | ok a => simp [Except.map]

def update (m : BTreeMap κ α) (k : κ) (f : α → Except ε α) : Except ε (BTreeMap κ α) :=
  match m.get? k with
  | none => .ok m
  | some a => (f a).map fun b => (m.insert k b).2

variable {m : BTreeMap κ α} {k : κ}

theorem update_of_none (f : α → Except ε α) (h : m.get? k = none) : update m k f = .ok m := by
  simp only [update, h]

variable {f : α → Except ε α}

theorem update_of_ok {a b : α} (h : m.get? k = some a) (hf : f a = .ok b) :
    update m k f = .ok (m.insert k b).2 := by
  simp only [update, h, hf, Except.map]

variable {m' : BTreeMap κ α}

theorem update_cases (h : update m k f = .ok m') :
    m.get? k = none ∧ m' = m ∨ ∃ a b, m.get? k = some a ∧ f a = .ok b ∧ m' = (m.insert k b).2 := by
  cases hget : m.get? k with
  | none =>
    rw [update_of_none f hget] at h
    cases h
    exact .inl ⟨rfl, rfl⟩
  | some a =>
    simp only [update, hget] at h
    cases hf : f a with
    | error e =>
      rw [hf] at h
      cases h
    | ok b =>
      rw [hf] at h
      cases h
      exact .inr ⟨a, b, rfl, hf, rfl⟩

theorem get?_update_of_ne {j : κ} (h : update m k f = .ok m') (hne : j ≠ k) :
    m'.get? j = m.get? j := by
  rcases update_cases h with ⟨_, rfl⟩ | ⟨a, b, _, _, rfl⟩
  · rfl
  · rw [get?_insert, if_neg hne]

variable (key : ω → κ) (step : BTreeMap κ α → ω → α → Except ε α)

def pass (m : BTreeMap κ α) (operations : List ω) : Except ε (BTreeMap κ α) :=
  operations.foldlM (fun m operation => update m (key operation) (step m operation)) m

/-- The operations on one key, in their order, starting from a value. -/
def performAt (m : BTreeMap κ α) (operations : List ω) (k : κ) (a : α) : Except ε α :=
  (operations.filter fun operation => key operation = k).foldlM
    (fun a operation => step m operation a) a

variable {key step} {operations : List ω}

theorem pass_ok {I : BTreeMap κ α → Prop}
    (hstep : ∀ {m : BTreeMap κ α} {operation a}, operation ∈ operations → I m →
      m.get? (key operation) = some a →
      ∃ b, step m operation a = .ok b ∧ I (m.insert (key operation) b).2) (hm : I m) :
    ∃ m', pass key step m operations = .ok m' ∧ I m' := by
  induction operations generalizing m with
  | nil => exact ⟨m, rfl, hm⟩
  | cons operation operations ih =>
    have hnext : ∃ next, update m (key operation) (step m operation) = .ok next ∧ I next := by
      cases hget : m.get? (key operation) with
      | none => exact ⟨m, update_of_none _ hget, hm⟩
      | some a =>
        obtain ⟨b, hb, hinv⟩ := hstep mem_cons_self hm hget
        exact ⟨_, update_of_ok hget hb, hinv⟩
    obtain ⟨next, hupd, hinv⟩ := hnext
    obtain ⟨m', hrest, hm'⟩ := ih (fun hmem => hstep (mem_cons_of_mem _ hmem)) hinv
    refine ⟨m', ?_, hm'⟩
    rw [pass, foldlM_cons, hupd]
    exact hrest

theorem get?_pass_of_forall_ne
    (hpass : pass key step m operations = .ok m') (h : ∀ operation ∈ operations, key operation ≠ k) :
    m'.get? k = m.get? k := by
  induction operations generalizing m with
  | nil =>
    cases hpass
    rfl
  | cons operation operations ih =>
    simp only [pass, foldlM_cons] at hpass
    cases hupd : update m (key operation) (step m operation) with
    | error e =>
      rw [hupd] at hpass
      cases hpass
    | ok next =>
      rw [hupd] at hpass
      rw [ih hpass fun other hother => h other (mem_cons_of_mem _ hother),
        get?_update_of_ne hupd (h operation mem_cons_self).symm]

theorem get?_pass (Good : κ → α → Prop)
    (hlocal : ∀ {m m' : BTreeMap κ α} {operation a}, Good (key operation) a →
      (∀ j, key operation < j → m.get? j = m'.get? j) → step m operation a = step m' operation a)
    (hgood : ∀ {m : BTreeMap κ α} {operation a b}, Good (key operation) a →
      step m operation a = .ok b → Good (key operation) b)
    (hdesc : operations.Pairwise fun x y => key y ≤ key x)
    (hm : ∀ k a, m.get? k = some a → Good k a)
    (hpass : pass key step m operations = .ok m') (k : κ) :
    (m.get? k = none → m'.get? k = none) ∧ ∀ a, m.get? k = some a →
      ∃ b, m'.get? k = some b ∧ performAt key step m' operations k a = .ok b := by
  induction operations generalizing m with
  | nil =>
    cases hpass
    exact ⟨id, fun a ha => ⟨a, ha, rfl⟩⟩
  | cons operation operations ih =>
    obtain ⟨hfirst, hrest⟩ := List.pairwise_cons.mp hdesc
    simp only [pass, foldlM_cons] at hpass
    cases hupd : update m (key operation) (step m operation) with
    | error e =>
      rw [hupd] at hpass
      cases hpass
    | ok next =>
      rw [hupd] at hpass
      have hlater : pass key step next operations = .ok m' := hpass
      have hnext : ∀ j a, next.get? j = some a → Good j a := by
        intro j a hj
        rcases update_cases hupd with ⟨_, rfl⟩ | ⟨old, new, hold, hnew, rfl⟩
        · exact hm j a hj
        · rw [get?_insert] at hj
          split at hj
          next heq =>
            cases hj
            rw [heq]
            exact hgood (hm _ old hold) hnew
          next => exact hm j a hj
      obtain ⟨hnone, hsome⟩ := ih hrest hnext hlater
      by_cases hk : key operation = k
      · subst hk
        rcases update_cases hupd with ⟨hmissing, rfl⟩ | ⟨old, new, hold, hnew, rfl⟩
        · refine ⟨hnone, ?_⟩
          intro a ha
          rw [hmissing] at ha
          contradiction
        · refine ⟨fun h => absurd (hold.symm.trans h) (by simp), ?_⟩
          intro a ha
          rw [hold, Option.some.injEq] at ha
          subst ha
          obtain ⟨b, hb, hperf⟩ := hsome new (by simp [get?_insert])
          refine ⟨b, hb, ?_⟩
          -- the greater keys are final when the first operation of the key reads them
          have hread : step m' operation old = .ok new := by
            rw [← hnew]
            apply hlocal (hm _ old hold)
            intro j hj
            have hlast := get?_pass_of_forall_ne hlater
              fun other hother => (lt_of_le_of_lt (hfirst other hother) hj).ne
            rw [hlast, get?_update_of_ne hupd hj.ne']
          rw [performAt, filter_cons_of_pos (by simp), foldlM_cons, hread]
          exact hperf
      · have hsame : next.get? k = m.get? k := get?_update_of_ne hupd fun h => hk h.symm
        rw [hsame] at hnone hsome
        refine ⟨hnone, ?_⟩
        intro a ha
        obtain ⟨b, hb, hperf⟩ := hsome a ha
        refine ⟨b, hb, ?_⟩
        rw [performAt, filter_cons_of_neg (by simpa using hk)]
        exact hperf

end RakuraiValidator.DescendingPasses
