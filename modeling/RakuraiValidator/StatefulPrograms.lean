import Mathlib.Logic.Relation

/-!
# Programs with state which may stop

A program of type `EStateM ε σ α` returns a value or stops with an error; in both
cases there is a state, because what was done before an error stays done.
`Ensures` states what holds of the result of a program from one state, with one
condition for the end of the program and one for an error.

`Reaches` is for programs whose effect on a part of the state, given by a view, is
a sequence of steps.  It holds at the end and at an error alike, so whatever the
steps preserve holds in every state which the program leaves behind.
-/

namespace RakuraiValidator.Stateful

variable {ε σ α β : Type}

def Ensures (x : EStateM ε σ α) (s : σ) (Q : α → σ → Prop) (E : ε → σ → Prop) : Prop :=
  match x s with
  | .ok a s' => Q a s'
  | .error e s' => E e s'

instance {Q : α → σ → Prop} {E : ε → σ → Prop} [∀ a s, Decidable (Q a s)]
    [∀ e s, Decidable (E e s)] (x : EStateM ε σ α) (s : σ) : Decidable (Ensures x s Q E) :=
  match h : x s with
  | .ok a s' => decidable_of_iff (Q a s') (by simp [Ensures, h])
  | .error e s' => decidable_of_iff (E e s') (by simp [Ensures, h])

/-- The state which the program leaves, at its end or at an error. -/
def final (x : EStateM ε σ α) (s : σ) : σ :=
  match x s with
  | .ok _ s' => s'
  | .error _ s' => s'

variable {g : Unit → EStateM ε σ β} {P Q' : α → σ → Prop} {l : List α} (a : α) {E' : ε → σ → Prop}

variable {s : σ} {x : EStateM ε σ α}

section Rules

variable {Q : α → σ → Prop} {R : β → σ → Prop} {E : ε → σ → Prop}

@[simp] theorem ensures_pure :
    Ensures (pure a : EStateM ε σ α) s Q E ↔ Q a s := Iff.rfl

@[simp] theorem ensures_throw (e : ε) :
    Ensures (throw e : EStateM ε σ α) s Q E ↔ E e s := Iff.rfl

@[simp] theorem ensures_get {Q : σ → σ → Prop} :
    Ensures (get : EStateM ε σ σ) s Q E ↔ Q s s := Iff.rfl

@[simp] theorem ensures_modify {Q : Unit → σ → Prop} (f : σ → σ) :
    Ensures (modify f : EStateM ε σ Unit) s Q E ↔ Q () (f s) := Iff.rfl

@[simp] theorem ensures_bind (x : EStateM ε σ α) (f : α → EStateM ε σ β) :
    Ensures (x >>= f) s R E ↔ Ensures x s (fun a s' => Ensures (f a) s' R E) E := by
  unfold Ensures
  simp only [bind, EStateM.bind]
  cases x s with
  | ok a s' => rfl
  | error e s' => rfl

theorem Ensures.mono (h : Ensures x s Q E) (hQ : ∀ a s', Q a s' → Q' a s')
    (hE : ∀ e s', E e s' → E' e s') : Ensures x s Q' E' := by
  unfold Ensures at h ⊢
  cases hx : x s with
  | ok a s' =>
    rw [hx] at h
    exact hQ a s' h
  | error e s' =>
    rw [hx] at h
    exact hE e s' h

theorem Ensures.final {P : σ → Prop} (h : Ensures x s (fun _ => P) (fun _ => P)) :
    P (Stateful.final x s) := by
  unfold Ensures at h
  unfold Stateful.final
  cases hx : x s with
  | ok a s' =>
    rw [hx] at h
    exact h
  | error e s' =>
    rw [hx] at h
    exact h

theorem Ensures.and (h : Ensures x s Q E) (h' : Ensures x s Q' E') :
    Ensures x s (fun a s' => Q a s' ∧ Q' a s') (fun e s' => E e s' ∧ E' e s') := by
  unfold Ensures at h h' ⊢
  cases hx : x s with
  | ok a s' | error e s' =>
    rw [hx] at h h'
    exact ⟨h, h'⟩

theorem ensures_forM {I : σ → Prop} {f : α → EStateM ε σ PUnit}
    (hround : ∀ a ∈ l, ∀ s, I s → Ensures (f a) s (fun _ => I) E) (hI : I s) :
    Ensures (forM l f) s (fun _ => I) E := by
  induction l generalizing s with
  | nil => exact hI
  | cons a l ih =>
    rw [List.forM_cons, ensures_bind]
    apply (hround a List.mem_cons_self s hI).mono
    · intro _ s' hI'
      exact ih (fun b hb => hround b (List.mem_cons_of_mem a hb)) hI'
    · exact fun _ _ hE => hE

end Rules

/-! ## Programs as sequences of steps -/

open Relation

variable {γ : Type}

/-- What the view shows after the program is reached by steps. -/
def Reaches (view : σ → γ) (r : γ → γ → Prop) (x : EStateM ε σ α) (s : σ) : Prop :=
  Ensures x s (fun _ s' => ReflTransGen r (view s) (view s'))
    (fun _ s' => ReflTransGen r (view s) (view s'))

variable {view : σ → γ} {r : γ → γ → Prop}

namespace Reaches

variable {r' : γ → γ → Prop}

theorem pure : Reaches view r (pure a : EStateM ε σ α) s := .refl

theorem throw (e : ε) : Reaches view r (throw e : EStateM ε σ α) s := .refl

theorem get_bind {f : σ → EStateM ε σ β} (h : Reaches view r (f s) s) :
    Reaches view r (get >>= f) s := h

variable {f : σ → σ}

theorem modify_same (h : view (f s) = view s) : Reaches view r (modify f : EStateM ε σ Unit) s := by
  unfold Reaches
  rw [ensures_modify, h]

theorem modify_step (h : r (view s) (view (f s))) :
    Reaches view r (modify f : EStateM ε σ Unit) s :=
  .single h

section

variable (hx : Reaches view r x s)

include hx

theorem bind_mono {f : α → EStateM ε σ β} (hr : ∀ c c', r c c' → r' c c')
    (hf : ∀ a s', ReflTransGen r (view s) (view s') → Reaches view r' (f a) s') :
    Reaches view r' (x >>= f) s := by
  unfold Reaches
  rw [ensures_bind]
  apply Ensures.mono hx
  · intro a s' hsteps
    have hsteps' := ReflTransGen.mono hr _ _ hsteps
    apply Ensures.mono (hf a s' hsteps)
    · exact fun _ _ hrest => hsteps'.trans hrest
    · exact fun _ _ hrest => hsteps'.trans hrest
  · exact fun _ _ hsteps => ReflTransGen.mono hr _ _ hsteps

theorem bind {f : α → EStateM ε σ β}
    (hf : ∀ a s', ReflTransGen r (view s) (view s') → Reaches view r (f a) s') :
    Reaches view r (x >>= f) s :=
  hx.bind_mono (fun _ _ hstep => hstep) hf

theorem bind_and {f : α → EStateM ε σ β} (hP : Ensures x s P (fun _ _ => True))
    (hf : ∀ a s', P a s' → Reaches view r (f a) s') : Reaches view r (x >>= f) s := by
  unfold Reaches
  rw [ensures_bind]
  apply (Ensures.and hx hP).mono
  · rintro a s' ⟨hsteps, hPa⟩
    apply Ensures.mono (hf a s' hPa)
    · exact fun _ _ hrest => hsteps.trans hrest
    · exact fun _ _ hrest => hsteps.trans hrest
  · exact fun _ _ hsteps => hsteps.1

end

theorem modify_step_bind (hstep : r (view s) (view (f s))) (hg : Reaches view r (g ()) (f s)) :
    Reaches view r (modify f >>= g) s := by
  unfold Reaches
  rw [ensures_bind, ensures_modify]
  apply Ensures.mono hg
  · exact fun _ _ hrest => ReflTransGen.head hstep hrest
  · exact fun _ _ hrest => ReflTransGen.head hstep hrest

theorem modify_same_bind (h : view (f s) = view s) (hg : Reaches view r (g ()) (f s)) :
    Reaches view r (modify f >>= g) s := by
  unfold Reaches
  rw [ensures_bind, ensures_modify, ← h]
  exact hg

theorem forM {f : α → EStateM ε σ PUnit}
    (hround : ∀ a ∈ l, ∀ s', ReflTransGen r (view s) (view s') → Reaches view r (f a) s') :
    Reaches view r (forM l f) s := by
  apply ensures_forM
  · intro a ha s' hsteps
    apply Ensures.mono (hround a ha s' hsteps)
    · exact fun _ _ hrest => hsteps.trans hrest
    · exact fun _ _ hrest => hsteps.trans hrest
  · exact .refl

theorem mono (hx : Reaches view r x s) (hr : ∀ c c', r c c' → r' c c') : Reaches view r' x s := by
  apply Ensures.mono hx
  · exact fun _ _ hsteps => ReflTransGen.mono hr _ _ hsteps
  · exact fun _ _ hsteps => ReflTransGen.mono hr _ _ hsteps

theorem invariant {I : γ → Prop} (hx : Reaches view r x s)
    (hstep : ∀ c c', I c → r c c' → I c') (hI : I (view s)) :
    Ensures x s (fun _ s' => I (view s')) (fun _ s' => I (view s')) := by
  have hsteps : ∀ c, ReflTransGen r (view s) c → I c := by
    intro c hreach
    induction hreach with
    | refl => exact hI
    | tail _ hnext ih => exact hstep _ _ ih hnext
  apply Ensures.mono hx
  · exact fun _ _ hreach => hsteps _ hreach
  · exact fun _ _ hreach => hsteps _ hreach

end Reaches

/-! ## Programs which leave what the view shows -/

/-- The view shows the same afterwards, and errors are among the expected ones. -/
def Keeps (view : σ → γ) (expected : ε → Prop) (x : EStateM ε σ α) (s : σ) : Prop :=
  Ensures x s (fun _ s' => view s' = view s) (fun e s' => view s' = view s ∧ expected e)

variable {expected : ε → Prop}

namespace Keeps

theorem pure : Keeps view expected (pure a : EStateM ε σ α) s := rfl

theorem throw {e : ε} (he : expected e) :
    Keeps view expected (throw e : EStateM ε σ α) s := ⟨rfl, he⟩

theorem modify {f : σ → σ} (h : view (f s) = view s) :
    Keeps view expected (modify f : EStateM ε σ Unit) s := h

theorem get_bind {f : σ → EStateM ε σ β} (h : Keeps view expected (f s) s) :
    Keeps view expected (get >>= f) s := h

variable {f : α → EStateM ε σ β}

theorem bind (hx : Keeps view expected x s) (hf : ∀ a s', Keeps view expected (f a) s') :
    Keeps view expected (x >>= f) s := by
  unfold Keeps
  rw [ensures_bind]
  apply Ensures.mono hx
  · intro a s' hsame
    apply Ensures.mono (hf a s')
    · exact fun _ _ hrest => hrest.trans hsame
    · exact fun _ _ hrest => ⟨hrest.1.trans hsame, hrest.2⟩
  · exact fun _ _ hstop => hstop

theorem forM {f : α → EStateM ε σ PUnit} (hround : ∀ a s', Keeps view expected (f a) s') :
    Keeps view expected (forM l f) s := by
  induction l generalizing s with
  | nil => exact Keeps.pure _
  | cons a l ih =>
    rw [List.forM_cons]
    exact (hround a s).bind fun _ _ => ih

theorem reaches (h : Keeps view expected x s) : Reaches view r x s := by
  apply Ensures.mono h
  · intro _ s' hsame
    rw [hsame]
  · intro _ s' hstop
    rw [hstop.1]

theorem reaches_bind (hx : Keeps view expected x s)
    (hf : ∀ a s', view s' = view s → Reaches view r (f a) s') : Reaches view r (x >>= f) s :=
  hx.reaches.bind_and (hx.mono (fun _ _ hsame => hsame) (fun _ _ _ => trivial)) hf

end Keeps

/-! ## Programs which stop with expected errors only -/

def StopsOnly (expected : ε → Prop) (x : EStateM ε σ α) (s : σ) : Prop :=
  Ensures x s (fun _ _ => True) (fun e _ => expected e)

namespace StopsOnly

theorem pure : StopsOnly expected (pure a : EStateM ε σ α) s := trivial

theorem throw {e : ε} (he : expected e) :
    StopsOnly expected (throw e : EStateM ε σ α) s := he

theorem get_bind {f : σ → EStateM ε σ β} (h : StopsOnly expected (f s) s) :
    StopsOnly expected (get >>= f) s := h

theorem modify_bind {f : σ → σ} (h : StopsOnly expected (g ()) (f s)) :
    StopsOnly expected (modify f >>= g) s := h

theorem modify (f : σ → σ) : StopsOnly expected (modify f : EStateM ε σ Unit) s := trivial

variable {f : α → EStateM ε σ β}

theorem ensures_bind (hx : Ensures x s P (fun e _ => expected e))
    (hf : ∀ a s', P a s' → StopsOnly expected (f a) s') : StopsOnly expected (x >>= f) s :=
  (Stateful.ensures_bind x f).mpr (hx.mono hf (fun _ _ he => he))

theorem of_ensures (hx : Ensures x s P (fun e _ => expected e)) : StopsOnly expected x s :=
  hx.mono (fun _ _ _ => trivial) (fun _ _ he => he)

section

variable (hx : StopsOnly expected x s) (hreaches : Reaches view r x s)

include hx hreaches

theorem ensures :
    Ensures x s (fun _ s' => ReflTransGen r (view s) (view s')) (fun e _ => expected e) :=
  (Ensures.and hx hreaches).mono (fun _ _ h => h.2) (fun _ _ h => h.1)

theorem bind (hf : ∀ a s', ReflTransGen r (view s) (view s') → StopsOnly expected (f a) s') :
    StopsOnly expected (x >>= f) s :=
  ensures_bind (hx.ensures hreaches) hf

end

theorem forM {f : α → EStateM ε σ PUnit} (hreaches : ∀ a ∈ l, ∀ s', Reaches view r (f a) s')
    (hround : ∀ a ∈ l, ∀ s', ReflTransGen r (view s) (view s') → StopsOnly expected (f a) s') :
    StopsOnly expected (forM l f) s := by
  apply of_ensures
  apply ensures_forM
  · intro a ha s' hsteps
    apply ((hround a ha s' hsteps).ensures (hreaches a ha s')).mono
    · exact fun _ _ hrest => hsteps.trans hrest
    · exact fun _ _ he => he
  · exact .refl

end StopsOnly

namespace Keeps

theorem stopsOnly (h : Keeps view expected x s) : StopsOnly expected x s :=
  Ensures.mono h (fun _ _ _ => trivial) (fun _ _ he => he.2)

theorem stopsOnly_bind {f : α → EStateM ε σ β} (hx : Keeps view expected x s)
    (hf : ∀ a s', view s' = view s → StopsOnly expected (f a) s') :
    StopsOnly expected (x >>= f) s :=
  StopsOnly.ensures_bind (Ensures.mono hx (fun _ _ h => h) (fun _ _ he => he.2)) hf

end Keeps

-- programs are run by their rules, not by unfolding
attribute [irreducible] Ensures

end RakuraiValidator.Stateful
