import Mathlib.Data.List.Basic

/-!
# Decoders with a cursor

A decoder reads a value from a buffer at a position, and returns it with the
position after it, or fails (`Decoder`). It is written as a program that moves
the cursor along.

`Decodes d bytes a` says that `d` reads `a` from `bytes`, wherever they are in a
buffer and whatever follows them, and that it fails if the buffer ends before
they do. This is what a decoder has to do on an encoding, and is kept by putting
decoders in sequence (`Decodes.bind`) and by repeating them (`Decodes.times`).
-/

namespace Lib

open List

universe u

variable {ε β : Type u}

/-- A decoder of values of type `α` from a buffer of `β`. -/
def Decoder (ε β α : Type u) := List β → ℕ → Except ε (α × ℕ)

namespace Decoder

variable {α γ : Type u}

instance : Monad (Decoder ε β) where
  pure a := fun _ pos => .ok (a, pos)
  bind d f := fun data pos => (d data pos).bind fun r => f r.1 data r.2

/-- Fail if there are fewer than `n` elements left. -/
def need (n : ℕ) (e : ε) : Decoder ε β PUnit :=
  fun data pos => if pos + n > data.length then .error e else .ok (⟨⟩, pos)

/-- Read `n` elements, and fail if there are fewer. -/
def take (n : ℕ) (e : ε) : Decoder ε β (List β) :=
  fun data pos => if pos + n > data.length then .error e else .ok ((data.drop pos).take n, pos + n)

/-- A computation that does not look at the buffer. -/
def lift (x : Except ε α) : Decoder ε β α :=
  fun _ pos => x.map (·, pos)

/-- Fail unless a condition holds. -/
def check (p : Prop) [Decidable p] (e : ε) : Decoder ε β PUnit :=
  lift (if p then .ok ⟨⟩ else .error e)

/-- Repeat a decoder. -/
def times (d : Decoder ε β α) : ℕ → Decoder ε β (List α)
  | 0 => pure []
  | n + 1 => do
    let a ← d
    let as ← times d n
    pure (a :: as)

end Decoder

/-- The decoder reads `a` from `bytes`, and fails if some of them are missing at the end. -/
structure Decodes {α : Type u} (d : Decoder ε β α) (bytes : List β) (a : α) : Prop where
  complete : ∀ pre post, d (pre ++ (bytes ++ post)) pre.length = .ok (a, pre.length + bytes.length)
  truncated : ∀ pre part, part <+: bytes → part ≠ bytes → ∃ e, d (pre ++ part) pre.length = .error e

namespace Decodes

variable {α γ : Type u} {d : Decoder ε β α} {f : α → Decoder ε β γ} {b1 b2 : List β} {a : α} {c : γ}
  {e : ε} {n : ℕ}

protected theorem pure (a : α) : Decodes (pure a : Decoder ε β α) [] a where
  complete _ _ := rfl
  truncated _ _ hp hne := absurd (prefix_nil.1 hp) hne

theorem take (h : b1.length = n) : Decodes (Decoder.take n e) b1 b1 where
  complete pre post := by simp [Decoder.take, ← h]
  truncated pre part hp hne := by
    have hlt : part.length < n :=
      h ▸ Nat.lt_of_le_of_ne hp.length_le fun hl => hne (hp.eq_of_length hl)
    exact ⟨e, by simp [Decoder.take, hlt]⟩

/-- A missing element is missing for the first decoder, or for the second. -/
theorem bind (h1 : Decodes d b1 a) (h2 : Decodes (f a) b2 c) : Decodes (d >>= f) (b1 ++ b2) c where
  complete pre post := by
    have hb : pre ++ (b1 ++ b2 ++ post) = pre ++ (b1 ++ (b2 ++ post)) := by simp
    have hd := h1.complete pre (b2 ++ post)
    have hf := h2.complete (pre ++ b1) post
    rw [append_assoc, length_append] at hf
    change Except.bind _ _ = _
    rw [hb, hd, Except.bind, hf, length_append, Nat.add_assoc]
  truncated pre part hp hne := by
    change ∃ e, Except.bind _ _ = _
    by_cases h : b1 <+: part
    · obtain ⟨part, rfl⟩ := h
      rw [prefix_append_right_inj] at hp
      have hd := h1.complete pre part
      obtain ⟨e, he⟩ := h2.truncated (pre ++ b1) part hp fun h => hne (by rw [h])
      rw [append_assoc, length_append] at he
      exact ⟨e, by rw [hd, Except.bind, he]⟩
    · have hb : part <+: b1 :=
        ( prefix_or_prefix_of_prefix hp (prefix_append b1 b2)).resolve_right h
      obtain ⟨e, he⟩ := h1.truncated pre part hb fun hpb => h (hpb ▸ prefix_rfl)
      exact ⟨e, by rw [he]; rfl⟩

/-- A computation that does not look at the buffer reads no element. -/
theorem lift {x : Except ε α} (hx : x = .ok a) (h : Decodes (f a) b2 c) :
    Decodes (Decoder.lift x >>= f) b2 c where
  complete pre post := by
    rw [hx]
    exact h.complete pre post
  truncated pre part hp hne := by
    rw [hx]
    exact h.truncated pre part hp hne

variable {f : PUnit → Decoder ε β γ}

theorem check {p : Prop} [Decidable p] (hp : p)
    (h : Decodes (f ⟨⟩) b2 c) : Decodes (Decoder.check p e >>= f) b2 c :=
  lift (if_pos hp) h

/-- Asking first for some of the elements that are read anyway changes nothing. -/
theorem need (h : Decodes (f ⟨⟩) b2 c) (hn : n ≤ b2.length) :
    Decodes (Decoder.need n e >>= f) b2 c where
  complete pre post := by
    have hlen : ¬ pre.length + n > (pre ++ (b2 ++ post)).length := by
      simp only [length_append]
      omega
    change Except.bind _ _ = _
    rw [Decoder.need, if_neg hlen, Except.bind, h.complete]
  truncated pre part hp hne := by
    change ∃ e, Except.bind _ _ = _
    rw [Decoder.need]
    split
    · exact ⟨e, rfl⟩
    · exact h.truncated pre part hp hne

theorem map (h : Decodes d b1 a) (g : α → γ) : Decodes (d >>= fun a => pure (g a)) b1 (g a) := by
  have := h.bind (f := fun a => pure (g a)) (Decodes.pure (g a))
  rwa [append_nil] at this

/-- A list is read element by element. -/
theorem times {enc : α → List β} {as : List α} (h : ∀ a ∈ as, Decodes d (enc a) a) :
    Decodes (d.times as.length) (as.flatMap enc) as := by
  induction as with
  | nil => exact .pure []
  | cons a as ih =>
    rw [forall_mem_cons] at h
    exact h.1.bind ((ih h.2).map _)

/-- Read from the start of a buffer that holds the encoding, or some of it. -/
theorem exact (h : Decodes d b1 a) : (d b1 0).map Prod.fst = .ok a ∧
    ∀ part, part <+: b1 → part ≠ b1 → ∃ e, (d part 0).map Prod.fst = .error e := by
  refine ⟨?_, fun part hp hne => ?_⟩
  · have := h.complete [] []
    rw [append_nil] at this
    exact congrArg (Except.map Prod.fst) this
  · obtain ⟨e, he⟩ := h.truncated [] part hp hne
    exact ⟨e, congrArg (Except.map Prod.fst) he⟩

end Decodes

end Lib
