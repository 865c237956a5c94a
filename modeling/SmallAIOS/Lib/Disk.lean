import Mathlib.Data.Set.Basic

/-!
# Programs on a block device

A program is a tree of operations on a device, each one continued by what the
device answers. What a program does depends on what may go wrong (`Faults`): reads
may fail, a write that fails or is interrupted leaves some block, and power may be
lost at any point. `Runs` are all its runs on a disk, and `exec` the one in which
nothing goes wrong.

Power lost after a write and before the flush that follows is power lost within
the write: what the write leaves covers the block that was still in a cache.

If reads do not fail, what a program reads first is known. `skipReads` is the
program that remains, a result or a program that writes first, and has the same
runs (`runs_skipReads`). So a program that reads, decides and writes once is
described by one equation on `skipReads`, and its runs by those of `store`.
-/

namespace Lib

open Function

/-- The contents of the blocks. -/
abbrev Disk (β : Type) := ℕ → β

/-- A program on a device with the blocks `β` and the errors `ε` that returns an `α`. -/
inductive Prog (β ε α : Type) where
  | pure (a : α)
  | readBlock (lba : ℕ) (k : Except ε β → Prog β ε α)
  | writeBlock (lba : ℕ) (b : β) (k : Except ε Unit → Prog β ε α)
  | flush (k : Except ε Unit → Prog β ε α)

namespace Prog

variable {β ε α γ : Type}

/-- Go on with the result. -/
def bind : Prog β ε α → (α → Prog β ε γ) → Prog β ε γ
  | .pure a, g => g a
  | .readBlock lba k, g => .readBlock lba fun r => (k r).bind g
  | .writeBlock lba b k, g => .writeBlock lba b fun r => (k r).bind g
  | .flush k, g => .flush fun r => (k r).bind g

instance : Monad (Prog β ε) where
  pure := .pure
  bind := .bind

/-- Read a block. -/
def read (lba : ℕ) : Prog β ε (Except ε β) := .readBlock lba .pure

/-- Write a block and flush the device. -/
def store (lba : ℕ) (b : β) : Prog β ε (Except ε Unit) :=
  .writeBlock lba b fun
    | .ok () => .flush .pure
    | .error e => .pure (.error e)

end Prog

/-- What may go wrong with a device. -/
structure Faults (β : Type) where
  /-- A read may fail. -/
  readFails : Prop
  /-- Power may be lost, and a flush may fail. -/
  stops : Prop
  /-- The blocks that a write of `new` over `old` may leave if it fails or is interrupted. -/
  leaves : (old new : β) → Set β

/-- A device that never fails. -/
def Faults.none {β : Type} : Faults β := ⟨False, False, fun _ _ => ∅⟩

namespace Prog

variable {β ε α γ : Type} {f : Faults β} {p : Prog β ε α} {g : α → Prog β ε γ} {d d' : Disk β}
  {ws : List β} {lba : ℕ} {b : β} {a : α}

/-- The program may turn the disk `d` into `d'`, with the blocks `ws` written, and return the result
    or be interrupted by a loss of power (`none`). -/
inductive Runs (f : Faults β) : Prog β ε α → Disk β → List β → Option α → Disk β → Prop
  | pure {a : α} {d : Disk β} : Runs f (.pure a) d [] (some a) d
  | read {lba : ℕ} {k : Except ε β → Prog β ε α} {d d' : Disk β} {ws : List β} {o : Option α} :
    Runs f (k (.ok (d lba))) d ws o d' → Runs f (.readBlock lba k) d ws o d'
  | readError {lba : ℕ} {k : Except ε β → Prog β ε α} {d d' : Disk β} {ws : List β}
    {o : Option α} {e : ε} :
    f.readFails → Runs f (k (.error e)) d ws o d' → Runs f (.readBlock lba k) d ws o d'
  | write {lba : ℕ} {b : β} {k : Except ε Unit → Prog β ε α} {d d' : Disk β} {ws : List β}
    {o : Option α} : Runs f (k (.ok ())) (update d lba b) ws o d' →
      Runs f (.writeBlock lba b k) d (b :: ws) o d'
  | writeError {lba : ℕ} {b b' : β} {k : Except ε Unit → Prog β ε α} {d d' : Disk β}
    {ws : List β} {o : Option α} {e : ε} : b' ∈ f.leaves (d lba) b →
      Runs f (k (.error e)) (update d lba b') ws o d' → Runs f (.writeBlock lba b k) d ws o d'
  | flush {k : Except ε Unit → Prog β ε α} {d d' : Disk β} {ws : List β} {o : Option α} :
    Runs f (k (.ok ())) d ws o d' → Runs f (.flush k) d ws o d'
  | flushError {k : Except ε Unit → Prog β ε α} {d d' : Disk β} {ws : List β} {o : Option α}
    {e : ε} : f.stops → Runs f (k (.error e)) d ws o d' → Runs f (.flush k) d ws o d'
  | stop {p : Prog β ε α} {d : Disk β} : f.stops → Runs f p d [] none d
  | stopWrite {lba : ℕ} {b b' : β} {k : Except ε Unit → Prog β ε α} {d : Disk β} :
    f.stops → b' ∈ f.leaves (d lba) b → Runs f (.writeBlock lba b k) d [] none (update d lba b')

/-- The result, the blocks written and the disk, if nothing goes wrong. -/
def exec : Prog β ε α → Disk β → α × List β × Disk β
  | .pure a, d => (a, [], d)
  | .readBlock lba k, d => (k (.ok (d lba))).exec d
  | .writeBlock lba b k, d =>
    let r := (k (.ok ())).exec (update d lba b)
    (r.1, b :: r.2.1, r.2.2)
  | .flush k, d => (k (.ok ())).exec d

/-- The same, if the reads fail for which `fails` has an error, and nothing else goes wrong. -/
def execFailing (fails : ℕ → Option ε) : Prog β ε α → Disk β → α × List β × Disk β
  | .pure a, d => (a, [], d)
  | .readBlock lba k, d =>
    (k ((fails lba).elim (.ok (d lba)) .error)).execFailing fails d
  | .writeBlock lba b k, d =>
    let r := (k (.ok ())).execFailing fails (update d lba b)
    (r.1, b :: r.2.1, r.2.2)
  | .flush k, d => (k (.ok ())).execFailing fails d

theorem execFailing_bind (fails : ℕ → Option ε) (p : Prog β ε α) (g : α → Prog β ε γ)
    (d : Disk β) : (p >>= g).execFailing fails d =
      let r := p.execFailing fails d
      let r' := (g r.1).execFailing fails r.2.2
      (r'.1, r.2.1 ++ r'.2.1, r'.2.2) := by
  induction p generalizing d with
  | pure a => rfl
  | readBlock lba k ih => exact ih _ d
  | writeBlock lba b k ih =>
    exact congrArg (fun r => (r.1, b :: r.2.1, r.2.2)) (ih (.ok ()) (update d lba b))
  | flush k ih => exact ih _ d

/-- Nothing need go wrong. -/
theorem runs_exec (p : Prog β ε α) (d : Disk β) :
    Runs f p d (p.exec d).2.1 (some (p.exec d).1) (p.exec d).2.2 := by
  induction p generalizing d with
  | pure a => exact .pure
  | readBlock lba k ih => exact .read (ih _ d)
  | writeBlock lba b k ih => exact .write (ih _ _)
  | flush k ih => exact .flush (ih _ d)

/-! ## Programs that read first -/

/-- The program that remains after the reads it starts with, if they do not fail. -/
def skipReads (d : Disk β) : Prog β ε α → Prog β ε α
  | .readBlock lba k => (k (.ok (d lba))).skipReads d
  | p => p

/-- A program that only reads has a known result. -/
def Finds (d : Disk β) (p : Prog β ε α) (a : α) : Prop := p.skipReads d = .pure a

theorem finds_read : Finds d (read lba : Prog β ε (Except ε β)) (.ok (d lba)) := rfl

/-- What a program reads, and then goes on with. -/
theorem Finds.skipReads_bind (h : Finds d p a) (g : α → Prog β ε γ) :
    (p >>= g).skipReads d = (g a).skipReads d := by
  induction p with
  | pure a' =>
    cases h
    rfl
  | readBlock lba k ih => exact ih _ h
  | writeBlock lba b k ih => cases h
  | flush k ih => cases h

theorem Finds.bind {c : γ} (h : Finds d p a) (h' : Finds d (g a) c) : Finds d (p >>= g) c :=
  (h.skipReads_bind g).trans h'

/-- A program that stores a block after its reads, and then goes on. -/
theorem skipReads_bind_of_store {k : Except ε Unit → Prog β ε α}
    (h : p.skipReads d = (store lba b >>= k)) (g : α → Prog β ε γ) :
    (p >>= g).skipReads d = (store lba b >>= fun r => k r >>= g) := by
  induction p with
  | pure a => cases h
  | readBlock lba' k' ih => exact ih _ h
  | writeBlock lba' b' k' ih =>
    cases h
    refine congrArg (Prog.writeBlock lba b) (funext fun r => ?_)
    cases r <;> rfl
  | flush k' ih => cases h

variable {o : Option α}

/-- Reads that do not fail change nothing, and power can as well be lost after them. -/
theorem runs_skipReads (hf : ¬ f.readFails) (h : Runs f p d ws o d') :
    Runs f (p.skipReads d) d ws o d' := by
  induction p with
  | pure a => exact h
  | readBlock lba k ih =>
    cases h with
    | read h => exact ih _ h
    | readError hr _ => exact absurd hr hf
    | stop hs =>
      -- Power is lost before the read: it might as well be lost after it.
      exact ih _ (.stop hs)
  | writeBlock lba b k ih => exact h
  | flush k ih => exact h

theorem runs_of_skipReads (h : Runs f (p.skipReads d) d ws o d') : Runs f p d ws o d' := by
  induction p with
  | pure a => exact h
  | readBlock lba k ih => exact .read (ih _ h)
  | writeBlock lba b k ih => exact h
  | flush k ih => exact h

theorem exec_skipReads (p : Prog β ε α) (d : Disk β) : (p.skipReads d).exec d = p.exec d := by
  induction p with
  | pure a => rfl
  | readBlock lba k ih => exact ih _
  | writeBlock lba b k ih => rfl
  | flush k ih => rfl

theorem runs_pure (h : Runs f (.pure a : Prog β ε α) d ws o d') :
    d' = d ∧ ws = [] ∧ ∀ a' ∈ o, a' = a := by
  cases h with
  | pure => exact ⟨rfl, rfl, fun _ ha => (Option.some.inj ha).symm⟩
  | stop => exact ⟨rfl, rfl, fun _ ha => nomatch ha⟩

/-- A store changes one block, to the new one if it succeeds. -/
theorem runs_store {k : Except ε Unit → α}
    (h : Runs f (store lba b >>= fun r => .pure (k r)) d ws o d') :
    ∃ b', d' = update d lba b' ∧ (b' = b ∨ b' = d lba ∨ b' ∈ f.leaves (d lba) b) ∧
      ∀ a ∈ o, (∃ e, a = k (.error e)) ∨ a = k (.ok ()) ∧ b' = b ∧ ws = [b] := by
  cases h with
  | write h =>
    refine ⟨b, ?_⟩
    cases h with
    | flush h =>
      obtain ⟨rfl, rfl, ho⟩ := runs_pure h
      exact ⟨rfl, .inl rfl, fun a ha => .inr ⟨ho a ha, rfl, rfl⟩⟩
    | flushError _ h =>
      obtain ⟨rfl, -, ho⟩ := runs_pure h
      exact ⟨rfl, .inl rfl, fun a ha => .inl ⟨_, ho a ha⟩⟩
    | stop => exact ⟨rfl, .inl rfl, fun _ ha => nomatch ha⟩
  | writeError hb h =>
    obtain ⟨rfl, -, ho⟩ := runs_pure h
    exact ⟨_, rfl, .inr (.inr hb), fun a ha => .inl ⟨_, ho a ha⟩⟩
  | stop => exact ⟨d lba, (update_eq_self lba d).symm, .inr (.inl rfl), nofun⟩
  | stopWrite _ hb => exact ⟨_, rfl, .inr (.inr hb), nofun⟩

end Prog

end Lib
