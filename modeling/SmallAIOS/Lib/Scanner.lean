import SmallAIOS.Lib.Checked
import Mathlib.Algebra.Order.Ring.Nat
import Mathlib.Data.List.TakeWhile

/-!
# Scanners

A scanner takes elements from the front of its input, and returns a value, or fails (`Scanner`). It
may also run without end, as `none`: a loop does if it takes nothing (`loop`).

`Ends P k x Q` says that `x` comes to an end if `P` holds of the input, and, if it then returns a
value, has taken at least `k` elements and left an input of which `Q` holds. There is a rule for
every scanner; scanners are put in sequence (`Ends.bind`), and a loop that takes something in every
turn and keeps `P` comes to an end (`Ends.loop`).
-/

namespace Lib

open List

variable {ε β σ α γ : Type}

/-- What is left of the input, and how much of it was taken. -/
structure Cursor (β : Type) where
  rest : List β
  pos : ℕ

/-- A scanner of values of type `α` from an input of `β`. -/
def Scanner (ε β α : Type) := Cursor β → Checked ε (α × Cursor β)

namespace Scanner

instance : Monad (Scanner ε β) where
  pure a := fun c => some (.ok (a, c))
  bind x f := fun c => (x c : Checked ε _) >>= fun r => f r.1 r.2

def fail (e : ε) : Scanner ε β α := fun _ => some (.error e)

/-- The next element, which is not taken. -/
def peek : Scanner ε β (Option β) := fun c => some (.ok (c.rest.head?, c))

/-- Take the next element. -/
def bump : Scanner ε β (Option β) := fun c =>
  match c.rest with
  | [] => some (.ok (none, c))
  | b :: rest => some (.ok (some b, ⟨rest, c.pos + 1⟩))

/-- How much was taken. -/
def pos : Scanner ε β ℕ := fun c => some (.ok (c.pos, c))

/-- Take the elements that satisfy `p`, up to the first one that does not. -/
def takeWhile (p : β → Bool) : Scanner ε β (List β) := fun c =>
  some (.ok (c.rest.takeWhile p, ⟨c.rest.dropWhile p, c.pos + (c.rest.takeWhile p).length⟩))

/-- Take the elements of `l`, if they come next. -/
def literal [DecidableEq β] (l : List β) : Scanner ε β Bool := fun c =>
  if l <+: c.rest then some (.ok (true, ⟨c.rest.drop l.length, c.pos + l.length⟩))
  else some (.ok (false, c))

/-- Repeat, for so many turns. -/
def loopN (body : σ → Scanner ε β (σ ⊕ α)) : ℕ → σ → Scanner ε β α
  | 0, _ => fun _ => none
  | fuel + 1, s => do
    match ← body s with
    | .inl s' => loopN body fuel s'
    | .inr a => pure a

/-- Repeat until there is a value. If every turn takes something, there are turns enough. -/
def loop (body : σ → Scanner ε β (σ ⊕ α)) (s : σ) : Scanner ε β α :=
  fun c => loopN body (c.rest.length + 1) s c

theorem bind_of_ok {x : Scanner ε β α} {f : α → Scanner ε β γ} {c c' : Cursor β} {a : α}
    (h : x c = some (.ok (a, c'))) : (x >>= f) c = f a c' :=
  Checked.bind_of_ok h

/-- From an input with `P` the scanner comes to an end. If it returns a value it has taken at least
    `k` elements, and leaves an input with `Q`. -/
def Ends (P : List β → Prop) (k : ℕ) (x : Scanner ε β α) (Q : α → List β → Prop) : Prop :=
  ∀ c : Cursor β, P c.rest → x c ≠ none ∧
    ∀ a c', x c = some (.ok (a, c')) → Q a c'.rest ∧ c'.rest.length + k ≤ c.rest.length

namespace Ends

variable {k k' l : ℕ} {x : Scanner ε β α} {f : α → Scanner ε β γ} {P : List β → Prop}
  {Q : γ → List β → Prop} {R : α → List β → Prop}

theorem zero (h : Ends P k x R) : Ends P 0 x R := by
  intro c hc
  obtain ⟨hne, htake⟩ := h c hc
  refine ⟨hne, fun a c' hx => ?_⟩
  obtain ⟨hr, hle⟩ := htake a c' hx
  exact ⟨hr, (Nat.le_add_right _ k).trans hle⟩

theorem weaken {P' : List β → Prop} (h : Ends P k x R) (hP : ∀ l, P' l → P l) : Ends P' k x R :=
  fun c hc => h c (hP _ hc)

/-- A scanner that takes nothing. -/
theorem of_ok {g : Cursor β → α} (h : ∀ c : Cursor β, P c.rest → R (g c) c.rest) :
    Ends P 0 (fun c => some (.ok (g c, c)) : Scanner ε β α) R := by
  intro c hc
  refine ⟨nofun, fun a c' hx => ?_⟩
  cases hx
  exact ⟨h c hc, le_rfl⟩

theorem pure {a : α} (h : ∀ l, P l → R a l) : Ends P 0 (Pure.pure a : Scanner ε β α) R :=
  of_ok fun c => h c.rest

theorem pos : Ends P 0 (Scanner.pos : Scanner ε β _) fun _ => P := of_ok fun _ h => h

theorem fail (e : ε) : Ends P k (Scanner.fail e : Scanner ε β α) R := by
  intro c _
  exact ⟨nofun, fun a c' hx => nomatch hx⟩

/-- The scanner goes on as another one, after it has taken something. -/
theorem go_on {y : Scanner ε β α} {c d : Cursor β} {S : List β → Prop} (hy : Ends S l y R)
    (hd : S d.rest) (hk : d.rest.length + k ≤ c.rest.length + l) (h : x c = y d) :
    x c ≠ none ∧
      ∀ a c', x c = some (.ok (a, c')) → R a c'.rest ∧ c'.rest.length + k ≤ c.rest.length := by
  obtain ⟨hne, htake⟩ := hy d hd
  rw [h]
  refine ⟨hne, fun a c' ha => ?_⟩
  obtain ⟨hr, hle⟩ := htake a c' ha
  exact ⟨hr, by omega⟩

theorem bind (hx : Ends P k x R) (hf : ∀ a, Ends (R a) l (f a) Q) :
    Ends P (k + l) (x >>= f) Q := by
  intro c hc
  obtain ⟨hne, htake⟩ := hx c hc
  cases hr : x c with
  | none => exact absurd hr hne
  | some r =>
    cases r with
    | error e =>
      exact go_on (S := fun _ => True) (fail e) trivial le_rfl
        (by change x c >>= _ = _; rw [hr]; rfl)
    | ok p =>
      obtain ⟨hp, hle⟩ := htake p.1 p.2 hr
      exact go_on (hf p.1) hp (by omega) (bind_of_ok hr)

/-- What comes after a scanner that may take nothing has to take it all. -/
theorem bind_right (hx : Ends P 0 x R) (hf : ∀ a, Ends (R a) k (f a) Q) : Ends P k (x >>= f) Q := by
  have h := hx.bind hf
  rwa [Nat.zero_add] at h

/-- What comes after a scanner that takes enough may take nothing. -/
theorem bind_left (hx : Ends P k x R) (hf : ∀ a, Ends (R a) 0 (f a) Q) : Ends P k (x >>= f) Q :=
  hx.bind hf

theorem peek_bind {f : Option β → Scanner ε β γ}
    (h : ∀ o, Ends (fun l => P l ∧ l.head? = o) k (f o) Q) : Ends P k (Scanner.peek >>= f) Q := by
  intro c hc
  exact go_on (h _) ⟨hc, rfl⟩ le_rfl rfl

theorem takeWhile_bind {p : β → Bool} {f : List β → Scanner ε β γ}
    (h : ∀ t, (∀ b ∈ t, p b) → Ends (fun l => P (t ++ l)) (k - t.length) (f t) Q) :
    Ends P k (Scanner.takeWhile p >>= f) Q := by
  intro c hc
  have hsplit : c.rest.takeWhile p ++ c.rest.dropWhile p = c.rest := takeWhile_append_dropWhile
  have hlen := congrArg length hsplit
  rw [length_append] at hlen
  refine go_on (h _ fun b hb => mem_takeWhile_imp hb) ?_ ?_ rfl
  · rwa [hsplit]
  · dsimp only
    omega

theorem literal_bind [DecidableEq β] {t : List β} {f : Bool → Scanner ε β γ} (hk : k ≤ t.length)
    (htrue : Ends (fun l => P (t ++ l)) 0 (f true) Q) (hfalse : Ends P k (f false) Q) :
    Ends P k (Scanner.literal t >>= f) Q := by
  intro c hc
  by_cases ht : t <+: c.rest
  · have hle := ht.length_le
    refine go_on htrue ?_ ?_ (bind_of_ok (if_pos ht))
    · rwa [← prefix_iff_eq_append.1 ht] at hc
    · rw [length_drop]
      omega
  · exact go_on hfalse hc le_rfl (bind_of_ok (if_neg ht))

theorem bump_bind {f : Option β → Scanner ε β γ}
    (hsome : ∀ b, Ends (fun l => P (b :: l)) (k - 1) (f (some b)) Q)
    (hnone : Ends P k (f none) Q) : Ends P k (Scanner.bump >>= f) Q := by
  intro c hc
  cases hr : c.rest with
  | nil => exact hr ▸ go_on hnone hc le_rfl (bind_of_ok (by rw [Scanner.bump, hr]))
  | cons b rest =>
    have hlen : c.rest.length = rest.length + 1 := by rw [hr, length_cons]
    refine hr ▸ go_on (hsome b) (hr ▸ hc) ?_ (bind_of_ok (by rw [Scanner.bump, hr]))
    dsimp only
    omega

variable {body : σ → Scanner ε β (σ ⊕ α)}
  (h : ∀ s, Ends P 1 (body s) fun r => r.elim (fun _ => P) R)
include h

theorem loopN {fuel : ℕ} (s : σ) :
    Ends (fun l => P l ∧ l.length < fuel) 1 (loopN body fuel s) R := by
  induction fuel generalizing s with
  | zero => exact fun c hc => absurd hc.2 (Nat.not_lt_zero _)
  | succ fuel ih =>
    -- A turn leaves fewer elements, for which there are turns enough.
    have hturn : Ends (fun l => P l ∧ l.length < fuel + 1) 1 (body s)
        fun r => r.elim (fun _ l => P l ∧ l.length < fuel) R := by
      intro c hc
      obtain ⟨hne, htake⟩ := h s c hc.1
      refine ⟨hne, fun r c' hr => ?_⟩
      obtain ⟨hpost, hle⟩ := htake r c' hr
      have hlt := hc.2
      cases r with
      | inl s' => exact ⟨⟨hpost, by omega⟩, hle⟩
      | inr a => exact ⟨hpost, hle⟩
    refine hturn.bind_left fun r => ?_
    cases r with
    | inl s' => exact (ih s').zero
    | inr a => exact pure fun _ hl => hl

/-- A loop that takes something in every turn comes to an end. -/
theorem loop (s : σ) : Ends P 1 (loop body s) R := by
  intro c hc
  exact loopN h s c ⟨hc, Nat.lt_succ_self _⟩

end Ends

end Scanner

end Lib
