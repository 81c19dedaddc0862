import RakuraiValidator.AncientPacking
import RakuraiValidator.NextFit

/-!
# Packed ancient storages are a next-fit partition

What is counted for a storage is carried across the accounts of a slot and across slots.  Packing
loses nothing, and no other way to cut the accounts into storages needs fewer of them.
-/

namespace RakuraiValidator.AncientAccounts

open List NextFit PackedAncientStorage

variable {Pubkey : Type} {idealSize : ℕ}

structure AliveAccounts.WellSized (alive : AliveAccounts Pubkey) : Prop where
  bytes_eq : alive.bytes = (alive.accounts.map (·.storedSize)).sum
  size_pos : ∀ account ∈ alive.accounts, 0 < account.storedSize

theorem saturatingAdd_eq {x y : ℕ} (h : x + y ≤ usizeMax) : saturatingAdd x y = x + y :=
  min_eq_left h

/-- The bytes that are not written yet are those of the remaining accounts. -/
structure Pending.Sized (pending : Pending Pubkey) : Prop where
  bytes_le : pending.bytes ≤ usizeMax
  bytes_eq : pending.bytes =
    pending.partialBytesWritten + (pending.remaining.map (·.storedSize)).sum
  size_pos : ∀ account ∈ pending.remaining, 0 < account.storedSize

theorem takeFitting_fitting (idealSize bytesTotal : ℕ)
    {accounts : List (AccountFromStorage Pubkey)}
    (hpos : ∀ account ∈ accounts, 0 < account.storedSize)
    (hsum : bytesTotal + (accounts.map (·.storedSize)).sum ≤ usizeMax) :
    Fitting idealSize bytesTotal
      ((takeFitting idealSize accounts bytesTotal).1.map (·.storedSize))
      (takeFitting idealSize accounts bytesTotal).2.2 ∧
    ∀ next ∈ (takeFitting idealSize accounts bytesTotal).2.1.head?,
      idealSize < (takeFitting idealSize accounts bytesTotal).2.2 + next.storedSize := by
  induction accounts generalizing bytesTotal with
  | nil => exact ⟨.nil, by simp [takeFitting]⟩
  | cons account accounts ih =>
    rw [map_cons, sum_cons, ← Nat.add_assoc] at hsum
    have hadd := saturatingAdd_eq ((Nat.le_add_right _ _).trans hsum)
    simp only [takeFitting, hadd]
    split
    next hfull => exact ⟨.nil, by simpa using hfull.1⟩
    next hfits =>
      have hfirst : Fitting idealSize bytesTotal [account.storedSize]
          (bytesTotal + account.storedSize) := ⟨by simp, fun _ hlt => ⟨by omega, rfl⟩⟩
      obtain ⟨hrest, hnext⟩ := ih (bytesTotal + account.storedSize)
        (fun other hother => hpos other (mem_cons_of_mem _ hother)) hsum
      exact ⟨hfirst.append (by simpa using hpos account mem_cons_self) hrest, hnext⟩

variable {pending : List (Pending Pubkey)}

theorem Pending.Sized.left {current : Pending Pubkey} (h : current.Sized)
    {taken left : List (AccountFromStorage Pubkey)} (hsplit : taken ++ left = current.remaining) :
    Pending.Sized ⟨current.slot, current.bytes, left,
      saturatingAdd current.partialBytesWritten (taken.map (·.storedSize)).sum⟩ := by
  have hbytes := h.bytes_eq
  rw [← hsplit, map_append, sum_append, ← Nat.add_assoc] at hbytes
  have hadd := saturatingAdd_eq ((Nat.le_add_right _ _).trans (hbytes ▸ h.bytes_le))
  refine ⟨h.bytes_le, ?_, fun account hacct => h.size_pos account ?_⟩
  · rw [hadd]
    exact hbytes
  · rw [← hsplit]
    exact mem_append_right _ hacct

theorem fill_fitting (idealSize bytesTotal : ℕ) (hsized : ∀ current ∈ pending, current.Sized)
    (hsum : bytesTotal + ((pending.flatMap Pending.contents).map (·.2.storedSize)).sum ≤ usizeMax) :
    Fitting idealSize bytesTotal
      ((fill idealSize pending bytesTotal).1.contents.map (·.2.storedSize))
      (fill idealSize pending bytesTotal).1.bytes ∧
    (∀ next ∈ ((fill idealSize pending bytesTotal).2.flatMap Pending.contents).head?,
      idealSize < (fill idealSize pending bytesTotal).1.bytes + next.2.storedSize) ∧
    ∀ current ∈ (fill idealSize pending bytesTotal).2, current.Sized := by
  induction pending generalizing bytesTotal with
  | nil => exact ⟨.nil, by simp [fill], by simp [fill]⟩
  | cons current rest ih =>
    have hcur := hsized current mem_cons_self
    have hrest := fun other hother => hsized other (mem_cons_of_mem _ hother)
    rw [flatMap_cons, map_append, sum_append, ← Nat.add_assoc] at hsum
    have hown : bytesTotal + (current.remaining.map (·.storedSize)).sum ≤ usizeMax := by
      simpa [Pending.contents, Function.comp_def] using (Nat.le_add_right _ _).trans hsum
    have htaken := takeFitting_fitting idealSize bytesTotal hcur.size_pos hown
    rcases fill_cases idealSize current bytesTotal with ⟨_, heq⟩ | ⟨_, bytes, hbytes, heq⟩ |
      ⟨taken, account, left, bytes, htake, _, heq⟩
    · rw [heq]
      exact ih bytesTotal hrest (by omega)
    · have hfirst : Fitting idealSize bytesTotal (current.remaining.map (·.storedSize)) bytes := by
        rcases hbytes with ⟨hbytes, hle⟩ | htake
        · have hrem := hcur.bytes_eq
          rw [saturatingAdd_eq (by omega)] at hbytes
          exact ⟨by omega, fun _ hlt => absurd hle (not_le.mpr hlt)⟩
        · rw [htake] at htaken
          exact htaken.1
      have hbytes := hfirst.bytes_eq
      obtain ⟨hfitting, hleft⟩ := ih bytes hrest
        (by simpa [hbytes, Pending.contents, Function.comp_def] using hsum)
      rw [heq]
      refine ⟨?_, hleft⟩
      have happend := hfirst.append (by simpa using hcur.size_pos) hfitting
      simpa [contents, Function.comp_def] using happend
    · have hsplit := takeFitting_append idealSize current.remaining bytesTotal
      rw [htake] at htaken hsplit
      rw [heq]
      refine ⟨?_, ?_, forall_mem_cons.mpr ⟨hcur.left hsplit, hrest⟩⟩
      · cases taken with
        | nil => exact htaken.1
        | cons first taken => simpa [contents, Function.comp_def] using htaken.1
      · simpa [Pending.contents] using htaken.2

/-- The first account of a storage did not fit into the storage before it. -/
def Closes (idealSize : ℕ) (storage next : PackedAncientStorage Pubkey) : Prop :=
  ∀ first ∈ next.contents.head?, idealSize < storage.bytes + first.2.storedSize

theorem packLoop_closes (idealSize fuel : ℕ) (hsized : ∀ current ∈ pending, current.Sized)
    (hsum : ((pending.flatMap Pending.contents).map (·.2.storedSize)).sum ≤ usizeMax) :
    (∀ storage ∈ packLoop idealSize fuel pending, storage.contents ≠ [] ∧
      Fitting idealSize 0 (storage.contents.map (·.2.storedSize)) storage.bytes) ∧
    (packLoop idealSize fuel pending).IsChain (Closes idealSize) := by
  induction fuel generalizing pending with
  | zero => exact ⟨by simp [packLoop], .nil⟩
  | succ fuel ih =>
    obtain ⟨hfitting, hnext, hleft⟩ := fill_fitting idealSize 0 hsized (by omega)
    rw [← fill_contents idealSize pending 0, map_append, sum_append] at hsum
    simp only [packLoop]
    split
    · exact ⟨by simp, .nil⟩
    next hnonempty =>
      obtain ⟨hall, hchain⟩ := ih hleft (by omega)
      refine ⟨forall_mem_cons.mpr ⟨⟨contents_ne_nil_of_fill (by simpa using hnonempty), hfitting⟩,
        hall⟩, isChain_cons.mpr ⟨fun later hlater first hfirst => hnext first ?_, hchain⟩⟩
      -- the next storage starts with what was left
      cases fuel with
      | zero => simp [packLoop] at hlater
      | succ fuel =>
        simp only [packLoop] at hlater
        split at hlater
        · cases hlater
        · obtain rfl : _ = later := by simpa using hlater
          rw [← fill_contents idealSize, head?_append, hfirst]
          rfl

def Fits (idealSize : ℕ) (group : List (ℕ × AccountFromStorage Pubkey)) : Prop :=
  (group.map (·.2.storedSize)).sum ≤ idealSize ∨ group.length ≤ 1

theorem Fits.infix {group part : List (ℕ × AccountFromStorage Pubkey)} (hpart : part <:+: group)
    (h : Fits idealSize group) : Fits idealSize part := by
  refine h.imp (fun hsum => ?_) (fun hlen => hpart.length_le.trans hlen)
  exact ((hpart.sublist.map _).sum_le_sum (fun _ _ => Nat.zero_le _)).trans hsum

theorem sum_contents (accounts : List (AliveAccounts Pubkey))
    (hsized : ∀ alive ∈ accounts, alive.WellSized) :
    ((accounts.flatMap (·.contents)).map (·.2.storedSize)).sum = (accounts.map (·.bytes)).sum := by
  induction accounts with
  | nil => rfl
  | cons alive accounts ih =>
    have hbytes := (hsized alive mem_cons_self).bytes_eq
    rw [flatMap_cons, map_append, sum_append, map_cons, sum_cons, hbytes,
      ih fun other hother => hsized other (mem_cons_of_mem _ hother)]
    simp [AliveAccounts.contents, Function.comp_def]

/-- Every account is packed once, under its slot and in order, and with the fewest storages that
hold the accounts in this order. -/
theorem pack_next_fit (accounts : List (AliveAccounts Pubkey)) (idealSize : ℕ)
    (hsized : ∀ alive ∈ accounts, alive.WellSized)
    (hsum : (accounts.map (·.bytes)).sum ≤ usizeMax) :
    (∀ more, packLoop idealSize ((accounts.map fun alive => alive.accounts.length).sum + 1 + more)
      (accounts.map Pending.start) = pack accounts idealSize) ∧
    (pack accounts idealSize).flatMap contents = accounts.flatMap (·.contents) ∧
    (∀ storage ∈ pack accounts idealSize, storage.contents ≠ [] ∧
      storage.bytes = (storage.contents.map (·.2.storedSize)).sum ∧
      (idealSize < storage.bytes → storage.contents.length = 1)) ∧
    (pack accounts idealSize).IsChain (Closes idealSize) ∧
    ∀ groups : List (List (ℕ × AccountFromStorage Pubkey)),
      groups.flatten = accounts.flatMap (·.contents) → (∀ group ∈ groups, Fits idealSize group) →
        (pack accounts idealSize).length ≤ groups.length := by
  have hstart : ∀ current ∈ accounts.map Pending.start, current.Sized := by
    intro current hcurrent
    obtain ⟨alive, halive, rfl⟩ := mem_map.mp hcurrent
    have hle := single_le_sum (fun bytes _ => Nat.zero_le bytes) alive.bytes
      (mem_map_of_mem halive)
    exact ⟨hle.trans hsum, by simpa [Pending.start] using (hsized alive halive).bytes_eq,
      (hsized alive halive).size_pos⟩
  obtain ⟨hall, hchain⟩ := packLoop_closes idealSize
    ((accounts.map fun alive => alive.accounts.length).sum + 1) hstart
    (by rw [pending_contents, sum_contents accounts hsized]; exact hsum)
  have hcontents := pack_contents idealSize accounts
  refine ⟨fun more => packLoop_fuel idealSize ?_, hcontents, fun storage hstorage => ?_, hchain,
    fun groups hgroups hfits => ?_⟩
  · rw [pending_contents, length_contents]
    exact Nat.lt_succ_self _
  · obtain ⟨hne, hbytes, hlimit⟩ := hall storage hstorage
    refine ⟨hne, by simpa using hbytes, fun hlt => ?_⟩
    simpa using (hlimit (by simpa using hne) hlt).2
  · rw [← length_map contents]
    refine length_le_of_suffix Fits.infix ?_ ?_ hfits ?_
    · intro group hgroup
      obtain ⟨storage, hstorage, rfl⟩ := mem_map.mp hgroup
      exact (hall storage hstorage).1
    · rw [isChain_map]
      refine hchain.imp_of_mem_imp fun storage next hstorage _ hcloses first hfirst hfits => ?_
      obtain ⟨hne, hbytes, _⟩ := hall storage hstorage
      have hlt := hcloses first hfirst
      have hpos := length_pos_iff.mpr hne
      rcases hfits with hsum | hlength
      · simp only [map_append, sum_append, map_cons, map_nil, sum_cons, sum_nil] at hsum
        omega
      · rw [length_append, length_singleton] at hlength
        omega
    · rw [hgroups, ← hcontents, flatMap_def]

def slotsToCombine : List (AliveAccounts ℕ) :=
  [⟨5, [⟨1, 136⟩, ⟨2, 136⟩], 272⟩, ⟨4, [], 0⟩, ⟨3, [⟨3, 300⟩], 300⟩]

theorem pack_slotsToCombine : (pack slotsToCombine 200).map bytes = [136, 136, 300] ∧
    ∀ groups : List (List (ℕ × AccountFromStorage ℕ)),
      groups.flatten = slotsToCombine.flatMap (·.contents) →
        (∀ group ∈ groups, Fits 200 group) → 3 ≤ groups.length := by
  refine ⟨rfl, (pack_next_fit slotsToCombine 200 (fun alive halive => ?_) (by decide)).2.2.2.2⟩
  fin_cases halive
  all_goals exact ⟨rfl, by decide⟩

end RakuraiValidator.AncientAccounts
