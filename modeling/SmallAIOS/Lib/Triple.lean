import SmallAIOS.Lib.Fallible

/-!
# Pre- and postconditions of fallible computations

`Triple P x Q E`: from a state with `P`, the computation returns in one with `Q`, or
fails in one with `E`. A property that holds whichever way it ends is kept (`Keeps`).
The rules follow the way a computation is made: `Triple.bind` for one after the other,
`Triple.attempt` and `Triple.outcome` for one whose failure is passed over, and
`Triple.ending` for what is done at the end in any case.
-/

namespace Lib.Fallible

universe v

variable {σ ε ε' : Type*} {α β : Type v}

/-- Fail, leaving the state as it is. -/
def fail (e : ε) : Fallible σ ε α := fun s => (.error e, s)

/-- Do this, and go on if it fails. -/
def attempt (x : Fallible σ ε PUnit) : Fallible σ ε PUnit := fun s => (.ok ⟨⟩, (x s).2)

/-- Do this, and return how it ended. -/
def outcome {ε : Type v} (x : Fallible σ ε α) : Fallible σ ε' (Except ε α) :=
  fun s => (.ok (x s).1, (x s).2)

/-- Do this, and fail with another error. -/
def mapError (g : ε → ε') (x : Fallible σ ε α) : Fallible σ ε' α :=
  fun s => ((x s).1.mapError g, (x s).2)

/-- Do this, and change the state at the end whether it failed or not. -/
def ending (x : Fallible σ ε α) (f : σ → σ) : Fallible σ ε α := fun s => ((x s).1, f (x s).2)

/-- From a state with `P`, the computation returns in one with `Q` or fails in one with `E`. -/
def Triple (P : σ → Prop) (x : Fallible σ ε α) (Q : α → σ → Prop) (E : σ → Prop) : Prop :=
  ∀ s, P s → match x s with
    | (.ok a, s') => Q a s'
    | (.error _, s') => E s'

/-- The computation keeps `P`, whether it fails or not. -/
abbrev Keeps (P : σ → Prop) (x : Fallible σ ε α) : Prop := Triple P x (fun _ => P) P

variable {P P' E E' : σ → Prop} {Q Q' : α → σ → Prop} {R : β → σ → Prop} {x : Fallible σ ε α}
  {f : α → Fallible σ ε β} {s s' : σ} {a : α} {e : ε} {g : ε → ε'}

theorem mapError_eq_ok : mapError g x s = (.ok a, s') ↔ x s = (.ok a, s') := by
  rw [mapError]
  rcases x s with ⟨_ | _, _⟩ <;> simp [Except.mapError]

namespace Triple

theorem of_ok (h : Triple P x Q E) (hs : P s) (hx : x s = (.ok a, s')) : Q a s' := by
  have := h s hs
  rwa [hx] at this

theorem of_error (h : Triple P x Q E) (hs : P s) (hx : x s = (.error e, s')) : E s' := by
  have := h s hs
  rwa [hx] at this

theorem pure (h : ∀ s, P s → Q a s) : Triple P (pure a : Fallible σ ε α) Q E := h

theorem fail (h : ∀ s, P s → E s) : Triple P (fail e : Fallible σ ε α) Q E := h

theorem get {σ : Type v} {P E : σ → Prop} {Q : σ → σ → Prop} (h : ∀ s, P s → Q s s) :
    Triple P (get : Fallible σ ε σ) Q E := h

theorem modify {g : σ → σ} {Q : PUnit → σ → Prop} (h : ∀ s, P s → Q ⟨⟩ (g s)) :
    Triple P (modify g : Fallible σ ε PUnit) Q E := h

theorem bind (hx : Triple P x Q E) (hf : ∀ a, Triple (Q a) (f a) R E) : Triple P (x >>= f) R E := by
  intro s hs
  rcases h : x s with ⟨e | a, s'⟩
  · rw [bind_of_error h]
    exact hx.of_error hs h
  · rw [bind_of_ok h]
    exact hf a s' (hx.of_ok hs h)

theorem weaken (h : Triple P x Q E) (hP : ∀ s, P' s → P s) (hQ : ∀ a s, Q a s → Q' a s)
    (hE : ∀ s, E s → E' s) : Triple P' x Q' E' := by
  intro s hs
  rcases hx : x s with ⟨e | a, s'⟩
  · exact hE s' (h.of_error (hP s hs) hx)
  · exact hQ a s' (h.of_ok (hP s hs) hx)

/-- What the precondition says whatever the state is. -/
theorem extract {c : Prop} (hc : ∀ s, P s → c) (h : c → Triple P x Q E) : Triple P x Q E :=
  fun s hs => h (hc s hs) s hs

/-- A property that holds however the computation ends. -/
theorem snd {R : σ → Prop} (h : Triple P x Q E) (hQ : ∀ a s, Q a s → R s) (hE : ∀ s, E s → R s)
    (hs : P s) : R (x s).2 := by
  rcases hx : x s with ⟨e | a, s'⟩
  · exact hE s' (h.of_error hs hx)
  · exact hQ a s' (h.of_ok hs hx)

theorem keeps_apply (h : Keeps P x) (hs : P s) : P (x s).2 :=
  h.snd (fun _ _ h => h) (fun _ h => h) hs

theorem of_snd (h : ∀ s, P s → P (x s).2) : Keeps P x := by
  intro s hs
  have := h s hs
  rcases hx : x s with ⟨e | a, s'⟩ <;> rwa [hx] at this

theorem trivial : Triple P x (fun _ _ => True) fun _ => True := by
  intro s _
  rcases x s with ⟨e | a, -⟩ <;> exact True.intro

theorem attempt {x : Fallible σ ε PUnit} {Q : PUnit → σ → Prop}
    (h : Triple P x Q (Q ⟨⟩)) : Triple P (attempt x) Q E := by
  intro s hs
  change Q ⟨⟩ (x s).2
  rcases hx : x s with ⟨e | a, s'⟩
  · exact h.of_error hs hx
  · exact h.of_ok hs hx

theorem outcome {ε : Type v} {x : Fallible σ ε α} (h : Keeps P x) :
    Triple P (outcome x : Fallible σ ε' (Except ε α)) (fun _ => P) E :=
  fun _ hs => h.keeps_apply hs

theorem mapError (h : Triple P x Q E) : Triple P (mapError g x) Q E := by
  intro s hs
  rw [Fallible.mapError]
  rcases hx : x s with ⟨e | a, s'⟩
  · exact h.of_error hs hx
  · exact h.of_ok hs hx

theorem ending {g : σ → σ} (h : Triple P x (fun a s => Q a (g s)) fun s => E (g s)) :
    Triple P (ending x g) Q E := by
  intro s hs
  rw [Fallible.ending]
  rcases hx : x s with ⟨e | a, s'⟩
  · exact h.of_error hs hx
  · exact h.of_ok hs hx

end Triple

end Lib.Fallible
