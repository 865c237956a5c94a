import SmallAIOS.Lib.Run
import SmallAIOS.Lib.Slots
import Mathlib.Data.List.Nodup
import Mathlib.Data.Vector.Defs

/-!
# The lock table of the overlay write path

An upload of a model holds an advisory lock on the model's name, in a table of
16 slots. A lock stores its name in a buffer of 256 bytes, next to the length of
the name in a single byte, and the session that holds it.

A name is at most 256 bytes long, and the byte does not hold 256: a lock on such
a name is stored with the empty name, under which nobody finds it. As long as
no such name is acquired, the history of the calls says who holds which lock
(`Holds`), and the table agrees with it: a name has at most one holder, and is
refused to everybody else until the holder releases it or is dropped
(`run_excludes`).
-/

namespace SmallAIOS.Auth

open Lib
open List hiding Vector

/-- Maximum simultaneous in-flight model uploads. -/
def overlayLockTableCap : ℕ := 16

/-- Maximum bytes of a name. -/
def overlayNameMax : ℕ := 256

/-- A held lock. -/
structure NameLock where
  /-- Inline name buffer; the first `nameLen` bytes are valid. -/
  name : Vector UInt8 overlayNameMax
  /-- Number of bytes valid in `name`. -/
  nameLen : UInt8
  /-- Session that holds the lock. -/
  holder : ℕ

open NameLock

/-- The name of a lock. -/
def NameLock.nameBytes (lock : NameLock) : List UInt8 :=
  lock.name.toList.take (min lock.nameLen.toNat overlayNameMax)

inductive OverlayLockError
  | nameTooLong
  | alreadyHeld
  | tableFull
  | notHeld
  deriving DecidableEq

/-- Per-name advisory lock table. -/
structure OverlayLockTable where
  slots : Slots NameLock overlayLockTableCap

/-- The lock on a name, as `try_acquire` stores it. -/
def NameLock.ofName (name : List UInt8) (holder : ℕ) : NameLock where
  name := Vector.ofFn fun i => name.getD i 0
  nameLen := UInt8.ofNat name.length
  holder := holder

@[simp] theorem NameLock.holder_ofName (name : List UInt8) (holder : ℕ) :
    (ofName name holder).holder = holder := rfl

/-- The byte for the length holds that of a shorter name, which is then stored. -/
theorem NameLock.nameBytes_ofName {name : List UInt8} (h : name.length < overlayNameMax)
    (holder : ℕ) : (ofName name holder).nameBytes = name := by
  have hn : (UInt8.ofNat name.length).toNat = name.length := by
    exact Nat.mod_eq_of_lt h
  rw [nameBytes, ofName, hn]
  refine ext_getElem ?_ fun i hi hi' => ?_
  · simp
    omega
  · simp [getD_eq_getElem?_getD, hi']

namespace OverlayLockTable

/-- An empty lock table. -/
def new : OverlayLockTable := ⟨.empty _ _⟩

variable (t : OverlayLockTable)

/-- The lock on a name, in the first slot that has one. -/
def find (name : List UInt8) : Option NameLock :=
  t.slots.entries.find? (·.nameBytes == name)

/-- Try to acquire a name for a session. -/
def tryAcquire (name : List UInt8) (holder : ℕ) : Except OverlayLockError Unit × OverlayLockTable :=
  if name.length > overlayNameMax then (.error .nameTooLong, t)
  else if (t.find name).isSome then (.error .alreadyHeld, t)
  else match t.slots.fill? (.ofName name holder) with
    | some slots => (.ok (), ⟨slots⟩)
    | none => (.error .tableFull, t)

/-- Release a lock held by a session. -/
def release (name : List UInt8) (holder : ℕ) : Except OverlayLockError Unit × OverlayLockTable :=
  match t.find name with
  | none => (.error .notHeld, t)
  | some lock =>
    if lock.holder == holder then (.ok (), ⟨t.slots.vacate (·.nameBytes == name)⟩)
    else (.error .notHeld, t)

/-- Copy locks to the report from the index `count` on; writing past its end panics. -/
def report : List NameLock → ℕ → Vector NameLock overlayLockTableCap →
    Option (ℕ × Vector NameLock overlayLockTableCap)
  | [], count, out => some (count, out)
  | lock :: locks, count, out =>
    if h : count < overlayLockTableCap then report locks (count + 1) (out.set count lock) else none

/-- Release every lock held by a session, and report them. -/
def releaseOnSessionDrop (holder : ℕ) (out : Vector NameLock overlayLockTableCap) :
    Option (ℕ × Vector NameLock overlayLockTableCap × OverlayLockTable) :=
  (report (t.slots.entries.filter (·.holder == holder)) 0 out).map fun r =>
    (r.1, r.2, ⟨t.slots.clear (·.holder == holder)⟩)

/-- A session holds the lock on a name. -/
def LockedBy (name : List UInt8) (s : ℕ) : Prop :=
  ∃ lock ∈ t.slots.entries, lock.nameBytes = name ∧ lock.holder = s

/-- No two locks have the same name. -/
def Exclusive : Prop := (t.slots.entries.map nameBytes).Nodup

variable {t} {t' : OverlayLockTable} {name : List UInt8} {s : ℕ}

/-! ## Single calls -/

theorem find_eq_none : t.find name = none ↔ ∀ lock ∈ t.slots.entries, lock.nameBytes ≠ name := by
  simp [find]

theorem Exclusive.eq (h : t.Exclusive) {a b : NameLock} (ha : a ∈ t.slots.entries)
    (hb : b ∈ t.slots.entries) (hab : a.nameBytes = b.nameBytes) : a = b :=
  inj_on_of_nodup_map h ha hb hab

theorem Exclusive.holder_eq (h : t.Exclusive) {s' : ℕ} (hs : t.LockedBy name s)
    (hs' : t.LockedBy name s') : s = s' := by
  obtain ⟨a, ha, rfl, rfl⟩ := hs
  obtain ⟨b, hb, hab, rfl⟩ := hs'
  rw [h.eq ha hb hab.symm]

theorem Exclusive.find (h : t.Exclusive) {lock : NameLock} (hl : lock ∈ t.slots.entries) :
    t.find lock.nameBytes = some lock := by
  rcases hf : t.find lock.nameBytes with _ | lock'
  · exact absurd rfl (find_eq_none.1 hf lock hl)
  · have hn : lock'.nameBytes = lock.nameBytes := by simpa using find?_some hf
    rw [h.eq (mem_of_find?_eq_some hf) hl hn]

/-- Nobody gets a name that is held. -/
theorem tryAcquire_of_lockedBy (h : t.LockedBy name s) (s' : ℕ) :
    ∃ e, t.tryAcquire name s' = (.error e, t) := by
  obtain ⟨lock, hl, hn, -⟩ := h
  rw [tryAcquire]
  split
  · exact ⟨_, rfl⟩
  · have hf : (t.find name).isSome := by
      rw [Option.isSome_iff_ne_none]
      exact fun hf => find_eq_none.1 hf lock hl hn
    exact ⟨_, if_pos hf⟩

/-- What a call of `tryAcquire` that succeeds did. -/
theorem tryAcquire_eq_ok (h : t.tryAcquire name s = (.ok (), t')) :
    name.length ≤ overlayNameMax ∧ t.find name = none ∧
      t.slots.fill? (.ofName name s) = some t'.slots := by
  rw [tryAcquire] at h
  split at h
  · cases h
  next hlen =>
    split at h
    · cases h
    next hf =>
      split at h
      · next slots hfill =>
        cases h
        exact ⟨Nat.le_of_not_lt hlen, by simpa using hf, hfill⟩
      · cases h

theorem tryAcquire_eq_error {e : OverlayLockError} (h : t.tryAcquire name s = (.error e, t')) :
    t' = t := by
  rw [tryAcquire] at h
  split at h
  · cases h; rfl
  · split at h
    · cases h; rfl
    · split at h <;> cases h; rfl

/-- The holder of a lock can release it. -/
theorem Exclusive.release (h : t.Exclusive) (hs : t.LockedBy name s) :
    t.release name s = (.ok (), ⟨t.slots.vacate (·.nameBytes == name)⟩) := by
  obtain ⟨lock, hl, rfl, rfl⟩ := hs
  simp [OverlayLockTable.release, h.find hl]

/-- Nobody else can. -/
theorem release_of_not_lockedBy (hs : ¬ t.LockedBy name s) :
    t.release name s = (.error .notHeld, t) := by
  rw [release]
  split
  · rfl
  next lock hf =>
    refine if_neg fun hh => hs ⟨lock, mem_of_find?_eq_some hf, ?_, by simpa using hh⟩
    simpa using find?_some hf

/-- The locks are copied to the report in order, after those it already has. -/
theorem report_eq {locks : List NameLock} {count : ℕ}
    (h : count + locks.length ≤ overlayLockTableCap) (out : Vector NameLock overlayLockTableCap) :
    ∃ out', report locks count out = some (count + locks.length, out') ∧
      out'.toList.take (count + locks.length) = out.toList.take count ++ locks := by
  induction locks generalizing count out with
  | nil => exact ⟨out, rfl, by simp⟩
  | cons lock locks ih =>
    rw [length_cons] at h
    have hc : count < overlayLockTableCap := by omega
    obtain ⟨out', ho, ht⟩ := ih (Nat.succ_add_eq_add_succ .. ▸ h) (out.set count lock)
    have hlen : count + 1 + locks.length = count + (lock :: locks).length := by
      rw [length_cons]
      omega
    rw [hlen] at ho ht
    refine ⟨out', by rw [report, dif_pos hc, ho], ?_⟩
    rw [ht, Vector.toList_set, take_add_one, take_set_of_le (Nat.le_refl _)]
    simp [hc]

/-- A session that is dropped loses its locks, and they are reported. -/
theorem releaseOnSessionDrop_eq (s : ℕ) (out : Vector NameLock overlayLockTableCap) :
    ∃ out', t.releaseOnSessionDrop s out =
        some ((t.slots.entries.filter (·.holder == s)).length, out',
          ⟨t.slots.clear (·.holder == s)⟩) ∧
      out'.toList.take (t.slots.entries.filter (·.holder == s)).length =
        t.slots.entries.filter (·.holder == s) := by
  have hlen : 0 + (t.slots.entries.filter (·.holder == s)).length ≤ overlayLockTableCap := by
    rw [Nat.zero_add]
    exact Nat.le_trans (length_filter_le _ _) t.slots.length_entries_le
  obtain ⟨out', ho, ht⟩ := report_eq hlen out
  rw [Nat.zero_add] at ho ht
  exact ⟨out', by rw [releaseOnSessionDrop, ho]; rfl, by simpa using ht⟩

/-! ## Runs -/

inductive Call
  | tryAcquire (name : List UInt8) (holder : ℕ)
  | release (name : List UInt8) (holder : ℕ)
  | releaseOnSessionDrop (holder : ℕ) (out : Vector NameLock overlayLockTableCap)

inductive Ret
  | result (r : Except OverlayLockError Unit)
  | dropped (count : ℕ) (out : Vector NameLock overlayLockTableCap)

def step (t : OverlayLockTable) : Call → Option (Ret × OverlayLockTable)
  | .tryAcquire name holder =>
    some (.result (t.tryAcquire name holder).1, (t.tryAcquire name holder).2)
  | .release name holder => some (.result (t.release name holder).1, (t.release name holder).2)
  | .releaseOnSessionDrop holder out =>
    (t.releaseOnSessionDrop holder out).map fun r => (.dropped r.1 r.2.1, r.2.2)

/-- What the calls made, the last one first, say about who holds which lock: the session that
    acquired it, until it releases it or is dropped. -/
def Holds (name : List UInt8) (s : ℕ) : List (Call × Ret) → Prop
  | [] => False
  | (.tryAcquire name' s', .result (.ok _)) :: h => (name' = name ∧ s' = s) ∨ Holds name s h
  | (.release name' s', .result (.ok _)) :: h => Holds name s h ∧ ¬ (name' = name ∧ s' = s)
  | (.releaseOnSessionDrop s' _, _) :: h => Holds name s h ∧ s' ≠ s
  | _ :: h => Holds name s h

/-- The names whose length the table can store. -/
def Storable : Call → Prop
  | .tryAcquire name _ => name.length ≠ overlayNameMax
  | _ => True

/-- The table agrees with the calls made. -/
structure Inv (h : List (Call × Ret)) (t : OverlayLockTable) : Prop where
  exclusive : t.Exclusive
  holds_iff : ∀ name s, Holds name s h ↔ t.LockedBy name s

variable {h : List (Call × Ret)}

theorem inv_new : Inv [] new where
  exclusive := by simp [Exclusive, new]
  holds_iff := by simp [Holds, LockedBy, new]

theorem Inv.acquired (hi : Inv h t) (hlen : name.length ≠ overlayNameMax)
    (ha : t.tryAcquire name s = (.ok (), t')) :
    Inv ((.tryAcquire name s, .result (.ok ())) :: h) t' := by
  obtain ⟨hle, hf, hfill⟩ := tryAcquire_eq_ok ha
  have hname := nameBytes_ofName (Nat.lt_of_le_of_ne hle hlen) s
  have hp := Slots.entries_fill? hfill
  constructor
  · refine (hp.map _).nodup_iff.2 ?_
    rw [map_cons, hname, nodup_cons]
    exact ⟨by simpa using find_eq_none.1 hf, hi.exclusive⟩
  · intro name' s'
    rw [Holds, hi.holds_iff, LockedBy, LockedBy]
    simp [hp.mem_iff, hname]

theorem Inv.released (hi : Inv h t) (hs : t.LockedBy name s) :
    Inv ((.release name s, .result (.ok ())) :: h) ⟨t.slots.vacate (·.nameBytes == name)⟩ := by
  have he : (t.slots.vacate (·.nameBytes == name)).entries =
      t.slots.entries.filter (·.nameBytes != name) := by
    rw [Slots.entries_vacate, eraseP_eq_filter_of_nodup hi.exclusive]
  constructor
  · rw [Exclusive, he]
    exact hi.exclusive.sublist (filter_sublist.map _)
  · intro name' s'
    rw [Holds, hi.holds_iff, LockedBy, LockedBy, he]
    constructor
    · rintro ⟨⟨lock, hl, rfl, rfl⟩, hne⟩
      refine ⟨lock, mem_filter.2 ⟨hl, ?_⟩, rfl, rfl⟩
      -- The lock is not the one on `name`, which the releasing session holds.
      suffices lock.nameBytes ≠ name by simpa using this
      rintro rfl
      exact hne ⟨rfl, hi.exclusive.holder_eq hs ⟨lock, hl, rfl, rfl⟩⟩
    · rintro ⟨lock, hl, rfl, rfl⟩
      obtain ⟨hl, hne⟩ := mem_filter.1 hl
      exact ⟨⟨lock, hl, rfl, rfl⟩, fun hn => by simp [hn.1] at hne⟩

theorem Inv.dropped (hi : Inv h t) (s n : ℕ) (out out' : Vector NameLock overlayLockTableCap) :
    Inv ((.releaseOnSessionDrop s out, .dropped n out') :: h) ⟨t.slots.clear (·.holder == s)⟩ := by
  constructor
  · rw [Exclusive, Slots.entries_clear]
    exact hi.exclusive.sublist (filter_sublist.map _)
  · intro name' s'
    rw [Holds, hi.holds_iff, LockedBy, LockedBy, Slots.entries_clear]
    constructor
    · rintro ⟨⟨lock, hl, rfl, rfl⟩, hne⟩
      exact ⟨lock, mem_filter.2 ⟨hl, by simpa using hne.symm⟩, rfl, rfl⟩
    · rintro ⟨lock, hl, rfl, rfl⟩
      obtain ⟨hl, hne⟩ := mem_filter.1 hl
      exact ⟨⟨lock, hl, rfl, rfl⟩, fun hs => by simp [hs] at hne⟩

/-- A call keeps the table in agreement with the history. -/
theorem Inv.step {c : Call} {r : Ret} (hi : Inv h t) (hc : Storable c)
    (hs : t.step c = some (r, t')) : Inv ((c, r) :: h) t' := by
  cases c with
  | tryAcquire name s =>
    obtain ⟨rfl, rfl⟩ := Prod.ext_iff.1 (Option.some.inj hs)
    rcases ha : t.tryAcquire name s with ⟨_ | _, t'⟩
    · rw [tryAcquire_eq_error ha]
      exact ⟨hi.exclusive, hi.holds_iff⟩
    · exact hi.acquired hc ha
  | release name s =>
    obtain ⟨rfl, rfl⟩ := Prod.ext_iff.1 (Option.some.inj hs)
    by_cases hl : t.LockedBy name s
    · rw [hi.exclusive.release hl]
      exact hi.released hl
    · rw [release_of_not_lockedBy hl]
      exact ⟨hi.exclusive, hi.holds_iff⟩
  | releaseOnSessionDrop s out =>
    obtain ⟨out', ho, -⟩ := releaseOnSessionDrop_eq s out
    rw [OverlayLockTable.step, ho] at hs
    obtain ⟨rfl, rfl⟩ := Prod.ext_iff.1 (Option.some.inj hs)
    exact hi.dropped s _ out out'

theorem run_inv (hr : ReachesBy (fun _ => Storable) step new h t) : Inv h t := by
  induction hr with
  | nil => exact inv_new
  | cons _ hc hs ih => exact ih.step hc hs

/-- In a run that acquires no name of 256 bytes, a name has at most one holder. Nobody else gets it,
    the holder can release it and nobody else can, and a session that is dropped has exactly the
    names it holds reported, each once. -/
theorem run_excludes (hr : ReachesBy (fun _ => Storable) step new h t) :
    (∀ name s s', Holds name s h → Holds name s' h → s = s') ∧
    (∀ name s, Holds name s h → ∀ s', ∃ e, t.tryAcquire name s' = (.error e, t)) ∧
    (∀ name s, Holds name s h → ∃ t', t.release name s = (.ok (), t')) ∧
    (∀ name s, ¬ Holds name s h → t.release name s = (.error .notHeld, t)) ∧
    ∀ s out, ∃ n out' t', t.releaseOnSessionDrop s out = some (n, out', t') ∧
      ((out'.toList.take n).map nameBytes).Nodup ∧
      ∀ name, name ∈ (out'.toList.take n).map nameBytes ↔ Holds name s h := by
  have hi := run_inv hr
  refine ⟨?_, ?_, ?_, ?_, fun s out => ?_⟩
  · intro name s s' hs hs'
    exact hi.exclusive.holder_eq ((hi.holds_iff name s).1 hs) ((hi.holds_iff name s').1 hs')
  · intro name s hs
    exact tryAcquire_of_lockedBy ((hi.holds_iff name s).1 hs)
  · intro name s hs
    exact ⟨_, hi.exclusive.release ((hi.holds_iff name s).1 hs)⟩
  · intro name s hs
    exact release_of_not_lockedBy (mt (hi.holds_iff name s).2 hs)
  · obtain ⟨out', ho, ht⟩ := releaseOnSessionDrop_eq s out
    refine ⟨_, out', _, ho, ?_, fun name => ?_⟩
    · rw [ht]
      exact hi.exclusive.sublist (filter_sublist.map _)
    · rw [ht, hi.holds_iff, mem_map]
      refine exists_congr fun lock => ?_
      rw [mem_filter, beq_iff_eq, and_assoc, and_comm (a := lock.holder = s)]

/-- Two sessions, of which the first has taken the lock on the name `a`. -/
theorem run_excludes_one :
    ∃ h t, ReachesBy (fun _ => Storable) step new h t ∧ Holds [0x61] 1 h ∧
      ∃ e, t.tryAcquire [0x61] 2 = (.error e, t) := by
  have hr : ReachesBy (fun _ => Storable) step new
      [(.tryAcquire [0x61] 1, .result (.ok ()))] (new.tryAcquire [0x61] 1).2 :=
    .cons .nil (by simp [Storable, overlayNameMax]) rfl
  have hh : Holds [0x61] 1 [(.tryAcquire [0x61] 1, .result (.ok ()))] := .inl ⟨rfl, rfl⟩
  exact ⟨_, _, hr, hh, (run_excludes hr).2.1 _ _ hh 2⟩

/-- The length of a name of 256 bytes is stored as zero, so that the second session does not find
    the lock of the first. -/
theorem tryAcquire_twice :
    (new.tryAcquire (.replicate 256 0x61) 1).1.isOk ∧
      ((new.tryAcquire (.replicate 256 0x61) 1).2.tryAcquire (.replicate 256 0x61) 2).1.isOk := by
  decide +kernel

end OverlayLockTable

end SmallAIOS.Auth
