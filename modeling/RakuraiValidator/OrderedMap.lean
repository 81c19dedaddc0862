import Mathlib.Data.List.Perm.Basic
import Mathlib.Order.Defs.LinearOrder
import Mathlib.Tactic

/-!
# Ordered maps

The ordered collections of the program are finite maps whose entries are kept
in ascending key order.  This module gives the map type, with the order as a
field, and the operations which read, insert, extract and prune entries.  The
lemmas describe every operation by membership of entries, because the proofs
about the program compare the entries of two maps up to a permutation.
-/

namespace RakuraiValidator

open List

/-- A finite map with entries in strictly ascending key order. -/
structure BTreeMap (κ υ : Type) [LinearOrder κ] where
  entries : List (κ × υ)
  ascending : entries.Pairwise (fun x y => x.1 < y.1)

namespace BTreeMap

variable {κ υ σ ε : Type} [LinearOrder κ]

@[ext] theorem ext {m n : BTreeMap κ υ} (h : m.entries = n.entries) : m = n := by
  cases m
  cases n
  simp only at h
  subst h
  rfl

def empty : BTreeMap κ υ := ⟨[], List.Pairwise.nil⟩

instance : Inhabited (BTreeMap κ υ) := ⟨empty⟩

@[simp] theorem entries_empty : (empty : BTreeMap κ υ).entries = [] := rfl

def isEmpty (m : BTreeMap κ υ) : Bool := m.entries.isEmpty

variable (m : BTreeMap κ υ) {entries : List (κ × υ)}

@[simp] theorem isEmpty_iff : m.isEmpty = true ↔ m.entries = [] := by
  simp [isEmpty]

def keys (m : BTreeMap κ υ) : List κ := m.entries.map Prod.fst

def values (m : BTreeMap κ υ) : List υ := m.entries.map Prod.snd

@[simp] theorem values_empty : (empty : BTreeMap κ υ).values = [] := rfl

@[simp] theorem values_eq_nil_iff : m.values = [] ↔ m.entries = [] := by
  simp [values]

theorem keys_nodup : m.keys.Nodup := by
  unfold keys List.Nodup
  rw [pairwise_map]
  exact m.ascending.imp (fun h => ne_of_lt h)

theorem entries_nodup : m.entries.Nodup :=
  List.Nodup.of_map Prod.fst m.keys_nodup

variable {k : κ} {v : υ}

theorem eq_of_mem_of_mem {w : υ} (hv : (k, v) ∈ m.entries) (hw : (k, w) ∈ m.entries) : v = w := by
  have h := inj_on_of_nodup_map m.keys_nodup hv hw rfl
  simpa using h

/-! ## Lookup -/

def get? (m : BTreeMap κ υ) (k : κ) : Option υ :=
  (m.entries.find? (fun entry => entry.1 = k)).map Prod.snd

def containsKey (m : BTreeMap κ υ) (k : κ) : Bool := (m.get? k).isSome

theorem get?_eq_some_iff (k : κ) (v : υ) : m.get? k = some v ↔ (k, v) ∈ m.entries := by
  unfold get?
  constructor
  · intro h
    obtain ⟨entry, hfind, hval⟩ := Option.map_eq_some_iff.mp h
    have hkey : entry.1 = k := by
      simpa using find?_some hfind
    have hmem := mem_of_find?_eq_some hfind
    subst hkey hval
    exact hmem
  · intro hmem
    cases hfind : m.entries.find? (fun entry => entry.1 = k) with
    | none =>
      have hnone := find?_eq_none.mp hfind (k, v) hmem
      simp at hnone
    | some entry =>
      have hkey : entry.1 = k := by
        simpa using find?_some hfind
      have hentry := mem_of_find?_eq_some hfind
      subst hkey
      have hval := m.eq_of_mem_of_mem hentry hmem
      simp [hval]

theorem get?_eq_none_iff (k : κ) : m.get? k = none ↔ ∀ v, (k, v) ∉ m.entries := by
  constructor
  · intro h v hmem
    rw [(m.get?_eq_some_iff k v).mpr hmem] at h
    contradiction
  · intro h
    cases hget : m.get? k with
    | none => rfl
    | some v => exact absurd ((m.get?_eq_some_iff k v).mp hget) (h v)

@[simp] theorem get?_empty (k : κ) : (empty : BTreeMap κ υ).get? k = none := rfl

@[simp] theorem containsKey_iff (k : κ) : m.containsKey k = true ↔ ∃ v, m.get? k = some v := by
  simp [containsKey, Option.isSome_iff_exists]

theorem ext_get? {m n : BTreeMap κ υ} (h : ∀ k, m.get? k = n.get? k) : m = n := by
  have hmem : ∀ entry, entry ∈ m.entries ↔ entry ∈ n.entries := by
    rintro ⟨k, v⟩
    rw [← get?_eq_some_iff, ← get?_eq_some_iff, h k]
  have hperm : m.entries.Perm n.entries :=
    (perm_ext_iff_of_nodup m.entries_nodup n.entries_nodup).mpr hmem
  apply ext
  refine hperm.eq_of_pairwise ?_ m.ascending n.ascending
  intro x y _ _ hxy hyx
  exact absurd hxy (lt_asymm hyx)

/-! ## Insertion and removal -/

def insertEntry (k : κ) (v : υ) : List (κ × υ) → List (κ × υ)
  | [] => [(k, v)]
  | entry :: rest =>
    if k < entry.1 then (k, v) :: entry :: rest
    else if k = entry.1 then (k, v) :: rest
    else entry :: insertEntry k v rest

theorem mem_insertEntry (hasc : entries.Pairwise (fun x y => x.1 < y.1)) {entry : κ × υ} :
    entry ∈ insertEntry k v entries ↔ entry = (k, v) ∨ (entry ∈ entries ∧ entry.1 ≠ k) := by
  induction entries with
  | nil => simp [insertEntry]
  | cons head rest ih =>
    obtain ⟨hhead, hrest⟩ := pairwise_cons.mp hasc
    simp only [insertEntry]
    split
    next hlt =>
      have hfresh : ∀ x ∈ head :: rest, x.1 ≠ k := by
        intro x hx
        rcases mem_cons.mp hx with rfl | hx
        · exact (ne_of_lt hlt).symm
        · exact (ne_of_lt (hlt.trans (hhead x hx))).symm
      constructor
      · intro hmem
        rcases mem_cons.mp hmem with heq | hmem
        · exact .inl heq
        · exact .inr ⟨hmem, hfresh entry hmem⟩
      · rintro (heq | ⟨hmem, _⟩)
        · simp [heq]
        · exact mem_cons_of_mem _ hmem
    next hlt =>
      split
      next heq =>
        subst heq
        have hfresh : ∀ x ∈ rest, x.1 ≠ head.1 :=
          fun x hx => (ne_of_lt (hhead x hx)).symm
        constructor
        · intro hmem
          rcases mem_cons.mp hmem with heq | hmem
          · exact .inl heq
          · exact .inr ⟨mem_cons_of_mem _ hmem, hfresh entry hmem⟩
        · rintro (heq | ⟨hmem, hne⟩)
          · simp [heq]
          · rcases mem_cons.mp hmem with rfl | hmem
            · exact absurd rfl hne
            · exact mem_cons_of_mem _ hmem
      next hne =>
        rw [mem_cons, ih hrest, mem_cons]
        constructor
        · rintro (rfl | heq | ⟨hmem, hkey⟩)
          · exact .inr ⟨.inl rfl, fun h => hne h.symm⟩
          · exact .inl heq
          · exact .inr ⟨.inr hmem, hkey⟩
        · rintro (heq | ⟨rfl | hmem, hkey⟩)
          · exact .inr (.inl heq)
          · exact .inl rfl
          · exact .inr (.inr ⟨hmem, hkey⟩)

theorem insertEntry_ascending (k : κ) (v : υ) (hasc : entries.Pairwise (fun x y => x.1 < y.1)) :
    (insertEntry k v entries).Pairwise (fun x y => x.1 < y.1) := by
  induction entries with
  | nil => simp [insertEntry]
  | cons head rest ih =>
    obtain ⟨hhead, hrest⟩ := pairwise_cons.mp hasc
    simp only [insertEntry]
    split
    next hlt =>
      refine pairwise_cons.mpr ⟨?_, hasc⟩
      intro x hx
      rcases mem_cons.mp hx with rfl | hx
      · exact hlt
      · exact hlt.trans (hhead x hx)
    next hlt =>
      split
      next heq =>
        refine pairwise_cons.mpr ⟨?_, hrest⟩
        intro x hx
        simpa [heq] using hhead x hx
      next hne =>
        refine pairwise_cons.mpr ⟨?_, ih hrest⟩
        intro x hx
        rcases (mem_insertEntry hrest).mp hx with rfl | ⟨hmem, _⟩
        · exact lt_of_le_of_ne (not_lt.mp hlt) (fun h => hne h.symm)
        · exact hhead x hmem

def insert (m : BTreeMap κ υ) (k : κ) (v : υ) : Option υ × BTreeMap κ υ :=
  (m.get? k, ⟨insertEntry k v m.entries, insertEntry_ascending k v m.ascending⟩)

@[simp] theorem insert_fst (k : κ) (v : υ) :
    (m.insert k v).1 = m.get? k := rfl

theorem mem_insert (k : κ) (v : υ) (entry : κ × υ) :
    entry ∈ (m.insert k v).2.entries ↔ entry = (k, v) ∨ (entry ∈ m.entries ∧ entry.1 ≠ k) :=
  mem_insertEntry m.ascending

theorem entries_insert_last (v : υ) (h : ∀ entry ∈ m.entries, entry.1 < k) :
    (m.insert k v).2.entries = m.entries ++ [(k, v)] := by
  have hlast : ∀ entries : List (κ × υ), (∀ entry ∈ entries, entry.1 < k) →
      insertEntry k v entries = entries ++ [(k, v)] := by
    intro entries
    induction entries with
    | nil => intro _; rfl
    | cons entry entries ih =>
      intro hbelow
      have hlt := hbelow entry mem_cons_self
      rw [insertEntry, if_neg hlt.asymm, if_neg hlt.ne',
        ih fun other hmem => hbelow other (mem_cons_of_mem _ hmem)]
      rfl
  exact hlast m.entries h

theorem get?_insert (k : κ) (v : υ) (j : κ) :
    (m.insert k v).2.get? j = if j = k then some v else m.get? j := by
  ext w
  rw [get?_eq_some_iff, mem_insert]
  by_cases hjk : j = k
  · subst hjk
    simp [eq_comm]
  · simp [hjk, get?_eq_some_iff]

theorem containsKey_insert (k : κ) (v : υ) (j : κ) :
    (m.insert k v).2.containsKey j = true ↔ j = k ∨ m.containsKey j = true := by
  by_cases hjk : j = k <;> simp [containsKey, get?_insert, hjk]

theorem get?_foldl_insert (keys : List κ) (v : υ) (m : BTreeMap κ υ) (j : κ) :
    (keys.foldl (fun m k => (m.insert k v).2) m).get? j =
      if j ∈ keys then some v else m.get? j := by
  induction keys generalizing m with
  | nil => simp
  | cons k keys ih =>
    rw [foldl_cons, ih, get?_insert]
    by_cases hk : j = k
    · simp [hk]
    · simp [hk]

theorem insert_perm (v : υ) (hfresh : m.get? k = none) :
    (m.insert k v).2.entries.Perm ((k, v) :: m.entries) := by
  have hnot := (m.get?_eq_none_iff k).mp hfresh
  have hnodup : ((k, v) :: m.entries).Nodup :=
    nodup_cons.mpr ⟨hnot v, m.entries_nodup⟩
  apply (perm_ext_iff_of_nodup (entries_nodup _) hnodup).mpr
  intro entry
  rw [mem_insert, mem_cons]
  constructor
  · rintro (heq | ⟨hmem, _⟩)
    · exact .inl heq
    · exact .inr hmem
  · rintro (heq | hmem)
    · exact .inl heq
    · refine .inr ⟨hmem, ?_⟩
      intro hkey
      exact hnot entry.2 (by rw [← hkey]; exact hmem)

theorem values_insert_perm (v : υ) (hfresh : m.get? k = none) :
    (m.insert k v).2.values.Perm (v :: m.values) :=
  (m.insert_perm v hfresh).map Prod.snd

def retain (m : BTreeMap κ υ) (p : κ → υ → Bool) : BTreeMap κ υ :=
  ⟨m.entries.filter (fun entry => p entry.1 entry.2), m.ascending.filter _⟩

variable (p : κ → υ → Bool)

theorem mem_retain (entry : κ × υ) :
    entry ∈ (m.retain p).entries ↔ entry ∈ m.entries ∧ p entry.1 entry.2 = true := by
  simp [retain]

theorem get?_retain (p : κ → Bool) (k : κ) :
    (m.retain (fun key _ => p key)).get? k = if p k then m.get? k else none := by
  ext v
  rw [get?_eq_some_iff, mem_retain]
  cases hp : p k <;> simp [get?_eq_some_iff]

theorem get?_retain_value (k : κ) : (m.retain p).get? k = (m.get? k).filter (p k) := by
  ext v
  rw [get?_eq_some_iff, mem_retain, Option.filter_eq_some_iff, get?_eq_some_iff]

def mapValues (m : BTreeMap κ υ) (f : υ → υ) : BTreeMap κ υ :=
  ⟨m.entries.map (fun entry => (entry.1, f entry.2)),
    List.pairwise_map.mpr (m.ascending.imp (fun h => h))⟩

theorem get?_retain_mapValues (f : υ → υ) (p : υ → Bool) (k : κ) :
    ((m.mapValues f).retain (fun _ v => p v)).get? k = ((m.get? k).map f).filter p := by
  ext v
  rw [get?_eq_some_iff, mem_retain, Option.filter_eq_some_iff, Option.map_eq_some_iff]
  constructor
  · intro ⟨hmem, hp⟩
    obtain ⟨entry, hentry, heq⟩ := mem_map.mp hmem
    obtain ⟨hkey, hval⟩ := Prod.mk.inj heq
    subst hkey
    exact ⟨⟨entry.2, (m.get?_eq_some_iff _ _).mpr hentry, hval⟩, hp⟩
  · intro ⟨⟨w, hw, hval⟩, hp⟩
    subst hval
    constructor
    · exact mem_map.mpr ⟨(k, w), (m.get?_eq_some_iff _ _).mp hw, rfl⟩
    · exact hp

def remove (m : BTreeMap κ υ) (k : κ) : Option υ × BTreeMap κ υ :=
  (m.get? k, m.retain (fun key _ => key ≠ k))

@[simp] theorem remove_fst (k : κ) :
    (m.remove k).1 = m.get? k := rfl

theorem get?_remove (k j : κ) : (m.remove k).2.get? j = if j = k then none else m.get? j := by
  unfold remove
  simp only
  rw [m.get?_retain (fun key => key ≠ k)]
  by_cases hjk : j = k <;> simp [hjk]

theorem remove_perm (hmem : (k, v) ∈ m.entries) :
    m.entries.Perm ((k, v) :: (m.remove k).2.entries) := by
  have hnodup : ((k, v) :: (m.remove k).2.entries).Nodup := by
    refine nodup_cons.mpr ⟨?_, entries_nodup _⟩
    simp [remove, mem_retain]
  apply (perm_ext_iff_of_nodup m.entries_nodup hnodup).mpr
  rintro ⟨j, w⟩
  simp only [remove, mem_cons, mem_retain, Prod.mk.injEq]
  by_cases hjk : j = k
  · subst hjk
    constructor
    · intro h
      exact .inl ⟨rfl, m.eq_of_mem_of_mem h hmem⟩
    · rintro (⟨_, rfl⟩ | ⟨h, _⟩)
      · exact hmem
      · exact h
  · simp [hjk]

def splitOff (m : BTreeMap κ υ) (k : κ) : BTreeMap κ υ :=
  m.retain (fun key _ => k ≤ key)

theorem get?_splitOff (k j : κ) : (m.splitOff k).get? j = if k ≤ j then m.get? j else none := by
  unfold splitOff
  rw [m.get?_retain (fun key => k ≤ key)]
  simp

/-! ## The first entry -/

def firstKeyValue (m : BTreeMap κ υ) : Option (κ × υ) := m.entries.head?

def popFirst (m : BTreeMap κ υ) : Option (κ × υ) × BTreeMap κ υ :=
  (m.entries.head?, ⟨m.entries.tail, m.ascending.tail⟩)

@[simp] theorem values_popFirst : m.popFirst.2.values = m.values.tail := by
  simp [popFirst, values]

theorem firstKeyValue_map_snd : m.firstKeyValue.map Prod.snd = m.values.head? := by
  simp [firstKeyValue, values]

/-! ## Extraction

`extract_if` visits the entries from a lower bound on in ascending order.  The
predicate may change a state and may fail, and the entries it accepts leave
the map.
-/

def extractLoop (p : σ → υ → Except ε (Bool × σ)) : List (κ × υ) → σ → Except ε (List (κ × υ) × σ)
  | [], s => .ok ([], s)
  | entry :: rest, s => do
    let (taken, s) ← p s entry.2
    let (out, s) ← extractLoop p rest s
    .ok (if taken then entry :: out else out, s)

def extractIf (m : BTreeMap κ υ) (lower : κ) (p : σ → υ → Except ε (Bool × σ)) (s : σ) :
    Except ε (List (κ × υ) × BTreeMap κ υ × σ) := do
  let (out, s) ← extractLoop p (m.entries.filter (fun entry => lower ≤ entry.1)) s
  .ok (out, m.retain (fun key _ => key ∉ out.map Prod.fst), s)

theorem perm_append_retain {out : List (κ × υ)} (hout : out.Sublist m.entries) :
    m.entries.Perm (out ++ (m.retain (fun key _ => key ∉ out.map Prod.fst)).entries) := by
  have hnodup : (out ++ (m.retain (fun key _ => key ∉ out.map Prod.fst)).entries).Nodup := by
    refine nodup_append'.mpr ⟨m.entries_nodup.sublist hout, entries_nodup _, ?_⟩
    intro entry hentry hretain
    have hkey := ((mem_retain _ _ _).mp hretain).2
    simp only [decide_eq_true_eq] at hkey
    exact hkey (mem_map_of_mem hentry)
  apply (perm_ext_iff_of_nodup m.entries_nodup hnodup).mpr
  intro entry
  rw [mem_append, mem_retain]
  constructor
  · intro hmem
    by_cases hkey : entry.1 ∈ out.map Prod.fst
    · obtain ⟨other, hother, heq⟩ := mem_map.mp hkey
      have hsame := inj_on_of_nodup_map m.keys_nodup (hout.subset hother) hmem heq
      exact .inl (hsame ▸ hother)
    · exact .inr ⟨hmem, by simpa using hkey⟩
  · rintro (hmem | ⟨hmem, _⟩)
    · exact hout.subset hmem
    · exact hmem

end BTreeMap

end RakuraiValidator
