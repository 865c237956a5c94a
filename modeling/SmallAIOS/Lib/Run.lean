import Mathlib.Data.List.Basic

/-!
# Runs

A component is a step function: from a state and a call it gives the value the
call returns and the next state. `run` folds it over a list of calls, keeping
what every call returned. A function `abs` to the states of another component
is a *simulation* if it commutes with every step and the values returned
agree; then it does so along every run (`run_simulation`).

A step function of a component that may panic is partial. What it can do is
`Reaches`: the states reached by calls that all return, each with the list of
the calls made so far and of what they returned, the last one first. `exec` makes
given calls. `ReachesBy` keeps the runs whose calls all meet a condition, and `traced` lets
a condition look at the calls made before.
-/

namespace Lib

open List Option

variable {σ τ α β : Type*}

/-- The values returned by the calls, in order, and the last state. -/
def run (step : σ → α → β × σ) : σ → List α → List β × σ
  | s, [] => ([], s)
  | s, a :: as => ((step s a).1 :: (run step (step s a).2 as).1, (run step (step s a).2 as).2)

/-- A run goes on from where its first part ended. -/
theorem run_append (step : σ → α → β × σ) (s : σ) (as bs : List α) :
    run step s (as ++ bs) = ((run step s as).1 ++ (run step (run step s as).2 bs).1,
      (run step (run step s as).2 bs).2) := by
  induction as generalizing s with
  | nil => rfl
  | cons a as ih => rw [cons_append, run, run, ih, cons_append]

variable {step : σ → α → β × σ} {abs : σ → τ}

/-- A simulation of single steps is one of runs: the calls return the same values, and end in
    related states. -/
theorem run_simulation {step' : τ → α → β × τ}
    (h : ∀ s a, step' (abs s) a = ((step s a).1, abs (step s a).2)) (s : σ) (as : List α) :
    run step' (abs s) as = ((run step s as).1, abs (run step s as).2) := by
  induction as generalizing s with
  | nil => rfl
  | cons a as ih => rw [run, run, h, ih]

/-- What single steps do to the state, if it is reflexive and transitive, is what runs do. -/
theorem run_within {r : σ → σ → Prop} [Std.Refl r] [IsTrans σ r]
    (h : ∀ s a, r s (step s a).2) (s : σ) (as : List α) : r s (run step s as).2 := by
  induction as generalizing s with
  | nil => exact refl s
  | cons a as ih => exact IsTrans.trans _ _ _ (h s a) (ih _)

/-- What is read off each call of a run is read off the first one, and off the rest. -/
theorem filterMap_cons_toList (f : α → Option β) (a : α) (l : List α) :
    (a :: l).filterMap f = (f a).toList ++ l.filterMap f := by
  cases h : f a <;> simp [h]

/-- `s` is reached from `s₀` by the calls of `t`, the last one first, which returned the values they
    come with. -/
inductive Reaches (step : σ → α → Option (β × σ)) (s₀ : σ) : List (α × β) → σ → Prop
  | nil : Reaches step s₀ [] s₀
  | cons {t : List (α × β)} {s s' : σ} {a : α} {b : β} :
    Reaches step s₀ t s → step s a = some (b, s') → Reaches step s₀ ((a, b) :: t) s'

/-- Make the calls one after the other, and put them before those of `t`. -/
def exec (step : σ → α → Option (β × σ)) : List (α × β) → σ → List α →
    Option (List (α × β) × σ)
  | t, s, [] => some (t, s)
  | t, s, a :: as => (step s a).bind fun r => exec step ((a, r.1) :: t) r.2 as

variable {step : σ → α → Option (β × σ)}

variable {t t' : List (α × β)} {s₀ s s' : σ} {as : List α}

theorem Reaches.exec (h : Reaches step s₀ t s) (he : Lib.exec step t s as = some (t', s')) :
    Reaches step s₀ t' s' := by
  induction as generalizing t s with
  | nil => cases he; exact h
  | cons a as ih =>
    obtain ⟨⟨b, s1⟩, hs, he⟩ := bind_eq_some_iff.1 he
    exact ih (h.cons hs) he

/-- The run that making the calls gives. -/
theorem Reaches.of_exec (step : σ → α → Option (β × σ)) (s₀ : σ) (as : List α)
    (h : (Lib.exec step [] s₀ as).isSome) :
    Reaches step s₀ ((Lib.exec step [] s₀ as).get h).1 ((Lib.exec step [] s₀ as).get h).2 :=
  Reaches.nil.exec (some_get h).symm

theorem exec_append (step : σ → α → Option (β × σ)) (t : List (α × β)) (s : σ) (as : List α)
    (a : α) : exec step t s (as ++ [a]) = (exec step t s as).bind fun r =>
      (step r.2 a).map fun q => ((a, q.1) :: r.1, q.2) := by
  induction as generalizing t s with
  | nil =>
    rw [nil_append, exec, exec, bind_some]
    cases step s a <;> rfl
  | cons a' as ih =>
    rw [cons_append, exec, exec, bind_assoc]
    exact congrArg _ (funext fun r => ih _ _)

/-- What a run reaches is what making its calls gives. -/
theorem Reaches.exec_eq
    (h : Reaches step s₀ t s) : Lib.exec step [] s₀ (t.map Prod.fst).reverse = some (t, s) := by
  induction h with
  | nil => rfl
  | cons _ hs ih =>
    rw [map_cons, reverse_cons, exec_append, ih, bind_some, hs]
    rfl

/-- If `abs` commutes with every step, the runs of the component it leads to are runs of this one.
    -/
theorem Reaches.exists_of_simulation {step' : τ → α → Option (β × τ)}
    (h : ∀ s a, step' (abs s) a = (step s a).map (Prod.map id abs)) {s₀ : σ} {v : τ}
    (hr : Reaches step' (abs s₀) t v) : ∃ s, Reaches step s₀ t s ∧ abs s = v := by
  induction hr with
  | nil => exact ⟨s₀, .nil, rfl⟩
  | cons _ hs ih =>
    obtain ⟨s, hreach, rfl⟩ := ih
    rw [h] at hs
    obtain ⟨⟨b, s'⟩, hs', heq⟩ := map_eq_some_iff.1 hs
    cases heq
    exact ⟨s', hreach.cons hs', rfl⟩

/-- The runs in which every call is made in a state that allows it. -/
inductive ReachesBy (ok : σ → α → Prop) (step : σ → α → Option (β × σ)) (s₀ : σ) :
    List (α × β) → σ → Prop
  | nil : ReachesBy ok step s₀ [] s₀
  | cons {t : List (α × β)} {s s' : σ} {a : α} {b : β} :
    ReachesBy ok step s₀ t s → ok s a → step s a = some (b, s') →
      ReachesBy ok step s₀ ((a, b) :: t) s'

variable {ok : σ → α → Prop}

theorem ReachesBy.reaches (h : ReachesBy ok step s₀ t s) : Reaches step s₀ t s := by
  induction h with
  | nil => exact .nil
  | cons _ _ hs ih => exact .cons ih hs

theorem ReachesBy.mono {ok' : σ → α → Prop} (h : ReachesBy ok step s₀ t s)
    (hok : ∀ s a, ok s a → ok' s a) : ReachesBy ok' step s₀ t s := by
  induction h with
  | nil => exact .nil
  | cons _ ha hs ih => exact .cons ih (hok _ _ ha) hs

/-- What holds at first, and is kept by every call that is allowed, holds in every state. -/
theorem ReachesBy.invariant {I : σ → Prop} (h : ReachesBy ok step s₀ t s) (h0 : I s₀)
    (hstep : ∀ s a b s', I s → ok s a → step s a = some (b, s') → I s') : I s := by
  induction h with
  | nil => exact h0
  | cons _ hok hs ih => exact hstep _ _ _ _ ih hok hs

/-- The component that also keeps the calls made so far, the last one first. -/
def traced (step : σ → α → Option (β × σ)) (s : List (α × β) × σ) (a : α) :
    Option (β × List (α × β) × σ) :=
  (step s.2 a).map fun r => (r.1, (a, r.1) :: s.1, r.2)

theorem traced_eq_some {s s' : List (α × β) × σ} {a : α} {b : β} :
    traced step s a = some (b, s') ↔
      ∃ s1, step s.2 a = some (b, s1) ∧ s' = ((a, b) :: s.1, s1) := by
  rw [traced, map_eq_some_iff]
  constructor
  · rintro ⟨⟨b', s1⟩, hs, heq⟩
    cases heq
    exact ⟨s1, hs, rfl⟩
  · rintro ⟨s1, hs, rfl⟩
    exact ⟨(b, s1), hs, rfl⟩

/-- Make the calls one after the other, if each one is allowed. -/
def execBy (ok : σ → α → Prop) [∀ s a, Decidable (ok s a)] (step : σ → α → Option (β × σ)) :
    List (α × β) → σ → List α → Option (List (α × β) × σ)
  | t, s, [] => some (t, s)
  | t, s, a :: as =>
    if ok s a then (step s a).bind fun r => execBy ok step ((a, r.1) :: t) r.2 as else none

theorem ReachesBy.exec [∀ s a, Decidable (ok s a)] (h : ReachesBy ok step s₀ t s)
    (he : execBy ok step t s as = some (t', s')) : ReachesBy ok step s₀ t' s' := by
  induction as generalizing t s with
  | nil => cases he; exact h
  | cons a as ih =>
    rw [execBy] at he
    split_ifs at he with hok
    obtain ⟨⟨b, s1⟩, hs, he⟩ := bind_eq_some_iff.1 he
    exact ih (h.cons hok hs) he

theorem ReachesBy.of_exec (ok : σ → α → Prop) [∀ s a, Decidable (ok s a)]
    (step : σ → α → Option (β × σ)) (s₀ : σ) (as : List α)
    (h : (execBy ok step [] s₀ as).isSome) :
    ReachesBy ok step s₀ ((execBy ok step [] s₀ as).get h).1 ((execBy ok step [] s₀ as).get h).2 :=
  ReachesBy.nil.exec (some_get h).symm

end Lib
