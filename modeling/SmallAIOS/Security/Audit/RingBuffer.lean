import SmallAIOS.Lib.Ring
import SmallAIOS.Lib.Run
import SmallAIOS.Lib.Word
import SmallAIOS.Security.Audit.Entry

/-!
# Ring buffer of audit events

A circular buffer of `N` entries that overwrites the oldest one when it is full.
It has a write position, and no read position: the entries are those before the
write position, as many as there are places. Draining empties their places, and
resets the write position once all are drained.

What it is for is a queue of at most `N` entries, `Fifo`. It is one in every run
that drains all entries or none (`reachesBy_fifo`). After a drain of some of them,
the places that were emptied are still counted, and shown first.
-/

namespace SmallAIOS.Security.Audit

open Lib Option Nat Ring
open List hiding Vector

/-- Ring buffer for audit log entries. -/
structure AuditRingBuffer (N : ℕ) where
  entries : Vector (Option AuditEntry) N
  /-- The actual index is `writePos % N`. -/
  writePos : ℕ
  totalWritten : ℕ
  overwritten : ℕ

namespace AuditRingBuffer

variable {N : ℕ} [NeZero N]

def new : AuditRingBuffer N := ⟨Vector.replicate N none, 0, 0, 0⟩

variable (rb : AuditRingBuffer N)

/-- Push an entry into the buffer. The counters wrap, the write position overflows. -/
def push (entry : AuditEntry) : Option (AuditRingBuffer N) :=
  let pos := rb.writePos
  let idx := Fin.ofNat N pos
  (Word.add 64 pos 1).map fun next =>
    { entries := rb.entries.set idx (some entry)
      writePos := next
      totalWritten := (rb.totalWritten + 1) % 2 ^ 64
      overwritten :=
        if N ≤ pos ∧ (rb.entries.get idx).isSome then (rb.overwritten + 1) % 2 ^ 64
        else rb.overwritten }

/-- Number of entries in the buffer. -/
def len : ℕ := min rb.writePos N

/-- The position of the oldest entry. -/
def start : ℕ := rb.writePos - N

/-- The loop of `drain`: move entries, from the position `pos` on, to the first `count` slots. An
    empty place leaves the slot as it was. -/
def fill : Vector (Option AuditEntry) N → ℕ → ℕ → List AuditEntry →
    List AuditEntry × Vector (Option AuditEntry) N
  | entries, _, 0, out => (out, entries)
  | entries, _, _ + 1, [] => ([], entries)
  | entries, pos, n + 1, slot :: out =>
    match entries.get (Fin.ofNat N pos) with
    | some entry =>
      let (out, entries) := fill (entries.set (Fin.ofNat N pos) none) (pos + 1) n out
      (entry :: out, entries)
    | none =>
      let (out, entries) := fill entries (pos + 1) n out
      (slot :: out, entries)

/-- Drain up to `max` entries from the buffer into the slice: the number of entries, and the slice
    after. -/
def drain (out : List AuditEntry) (max : ℕ) : (ℕ × List AuditEntry) × AuditRingBuffer N :=
  if rb.writePos = 0 then ((0, out), rb)
  else
    let count := min (min rb.len max) out.length
    if count = 0 then ((0, out), rb)
    else
      let (out, entries) := fill rb.entries rb.start count out
      ((count, out), { rb with
        entries := entries
        writePos := if count = rb.len then 0 else rb.writePos })

/-- Read the entry at position `index`, the oldest available one first. -/
def get (index : ℕ) : Option AuditEntry :=
  if rb.writePos = 0 ∨ rb.len ≤ index then none
  else rb.entries.get (Fin.ofNat N (rb.start + index))

/-- What is left of an iterator with `remaining` places to go: it ends at an empty one. -/
def collect (entries : Vector (Option AuditEntry) N) : ℕ → ℕ → List AuditEntry
  | _, 0 => []
  | current, remaining + 1 =>
    match entries.get (Fin.ofNat N current) with
    | some entry => entry :: collect entries (current + 1) remaining
    | none => []

/-- Iterate over all entries. -/
def iter : List AuditEntry := collect rb.entries rb.start (rb.writePos - rb.start)

end AuditRingBuffer

/-! ## The queue -/

/-- A call on the buffer. -/
inductive RingCall
  | push (entry : AuditEntry)
  | drain (out : List AuditEntry) (max : ℕ)
  | get (index : ℕ)
  | iter
  | len
  deriving DecidableEq

/-- What a call returns. -/
inductive RingRet
  | unit
  | drained (count : ℕ) (out : List AuditEntry)
  | entry (entry : Option AuditEntry)
  | entries (entries : List AuditEntry)
  | len (len : ℕ)
  deriving DecidableEq

def AuditRingBuffer.step {N : ℕ} [NeZero N] (rb : AuditRingBuffer N) :
    RingCall → Option (RingRet × AuditRingBuffer N)
  | .push entry => (rb.push entry).map fun rb' => (.unit, rb')
  | .drain out max =>
    some (.drained (rb.drain out max).1.1 (rb.drain out max).1.2, (rb.drain out max).2)
  | .get index => some (.entry (rb.get index), rb)
  | .iter => some (.entries rb.iter, rb)
  | .len => some (.len rb.len, rb)

/-- The entries in a queue, the oldest one first. -/
abbrev Fifo := List AuditEntry

namespace Fifo

variable (N : ℕ) (l : Fifo)

/-- A new entry comes last. If there are `N` already, the first one goes. -/
def push (entry : AuditEntry) : Fifo := if l.length < N then l ++ [entry] else l.tail ++ [entry]

/-- The number of entries handed out. -/
def handed (out : List AuditEntry) (max : ℕ) : ℕ := min (min l.length max) out.length

def step : RingCall → Option (RingRet × Fifo)
  | .push entry => some (.unit, l.push N entry)
  | .drain out max =>
    let k := l.handed out max
    some (.drained k (l.take k ++ out.drop k), l.drop k)
  | .get index => some (.entry l[index]?, l)
  | .iter => some (.entries l, l)
  | .len => some (.len l.length, l)

end Fifo

namespace AuditRingBuffer

variable {N : ℕ} [NeZero N] {rb rb' : AuditRingBuffer N} {l : Fifo}

/-- The buffer holds the entries of the queue. -/
def Shows (rb : AuditRingBuffer N) (l : Fifo) : Prop :=
  contents rb.entries (Fin.ofNat N rb.start) rb.len = l.map some

theorem Shows.length (h : rb.Shows l) : l.length = rb.len := by
  rw [← length_map, ← h, length_contents]

theorem shows_nil (h : rb.writePos = 0) : rb.Shows [] := by
  rw [Shows, len, h]
  rfl

variable {entry : AuditEntry}

theorem push_spec (h : rb.push entry = some rb') :
    rb'.entries = rb.entries.set (Fin.ofNat N rb.writePos) (some entry) ∧
      rb'.writePos = rb.writePos + 1 := by
  obtain ⟨next, hadd, rfl⟩ := map_eq_some_iff.1 h
  exact ⟨rfl, (Word.add_eq_some.1 hadd).2.symm⟩

section

variable (hp : rb.push entry = some rb')
include hp

/-- A push appends to the queue while there is room. -/
theorem Shows.push_of_lt (h : rb.Shows l) (hlt : rb.writePos < N) : rb'.Shows (l ++ [entry]) := by
  obtain ⟨hentries, hpos⟩ := push_spec hp
  -- The entries start at the first place.
  have hstart : rb.start = 0 := Nat.sub_eq_zero_of_le hlt.le
  have hstart' : rb'.start = 0 := Nat.sub_eq_zero_of_le (hpos ▸ hlt)
  have hlen : rb.len = rb.writePos := min_eq_left hlt.le
  have hlen' : rb'.len = rb.writePos + 1 := hpos ▸ min_eq_left (hpos ▸ hlt)
  rw [Shows, hstart, hlen] at h
  rw [Shows, hentries, hstart', hlen', map_append, ← h]
  refine contents_push hlt ?_ (some entry)
  rw [← ofNat_add, zero_add]

/-- A push to a full buffer drops the first entry of the queue. -/
theorem Shows.push_of_le (h : rb.Shows l) (hle : N ≤ rb.writePos) :
    rb'.Shows (l.tail ++ [entry]) := by
  obtain ⟨hentries, hpos⟩ := push_spec hp
  obtain ⟨c, hc⟩ : ∃ c, c + 1 = N := ⟨N - 1, Nat.sub_add_cancel NeZero.one_le⟩
  -- The place after the last entry is that of the first one.
  have hidx : Fin.ofNat N rb.writePos = Fin.ofNat N rb.start := by
    ext
    rw [Fin.val_ofNat, Fin.val_ofNat, start, ← mod_eq_sub_mod hle]
  have hstart' : rb'.start = rb.start + 1 := by
    rw [start, hpos]
    exact Nat.sub_add_comm hle
  have hlen : rb.len = c + 1 := (Nat.min_eq_right hle).trans hc.symm
  have hlen' : rb'.len = c + 1 :=
    (Nat.min_eq_right (hpos ▸ Nat.le_succ_of_le hle)).trans hc.symm
  simp only [hidx] at hentries
  rw [Shows, hlen] at h
  rw [Shows, hentries, hstart', hlen', map_append, map_tail, ← h, ofNat_succ]
  exact contents_overwrite hc (some entry)

theorem Shows.push (h : rb.Shows l) : rb'.Shows (l.push N entry) := by
  have hlen := h.length
  rw [len] at hlen
  rw [Fifo.push]
  split_ifs with hlt
  · exact h.push_of_lt hp (by omega)
  · exact h.push_of_le hp (by omega)

end

variable {out : List AuditEntry} {entries : Vector (Option AuditEntry) N} {pos : ℕ}

section

variable (h : contents entries (Fin.ofNat N pos) l.length = l.map some)
include h

/-- The loop of `drain` moves the entries it passes. -/
theorem fill_spec (hN : l.length ≤ N) (hout : l.length ≤ out.length) :
    (fill entries pos l.length out).1 = l ++ out.drop l.length := by
  induction l generalizing entries pos out with
  | nil => rfl
  | cons x l ih =>
    cases out with
    | nil => cases hout
    | cons slot out =>
      rw [length_cons, contents_pop] at h
      obtain ⟨hx, h⟩ := cons.inj h
      rw [← contents_set_head hN none, ← ofNat_succ] at h
      have hrec := ih h (le_of_succ_le hN) (le_of_succ_le_succ hout)
      simp only [length_cons, fill, hx, hrec, cons_append, drop_succ_cons]

theorem collect_spec : collect entries pos l.length = l := by
  induction l generalizing pos with
  | nil => rfl
  | cons x l ih =>
    rw [length_cons, contents_pop, ← ofNat_succ] at h
    obtain ⟨hx, h⟩ := cons.inj h
    simp only [length_cons, collect, hx, ih h]

end

theorem Shows.iter_eq (h : rb.Shows l) : rb.iter = l := by
  have hlen := h.length
  rw [Shows, ← hlen] at h
  have hremaining : rb.writePos - rb.start = l.length := by
    rw [hlen, len, start]
    omega
  rw [iter, hremaining, collect_spec h]

theorem Shows.get_eq (h : rb.Shows l) (index : ℕ) : rb.get index = l[index]? := by
  have hlen := h.length
  rw [get]
  split_ifs with hout
  · have : rb.len ≤ rb.writePos := Nat.min_le_left ..
    exact (getElem?_eq_none (by omega)).symm
  · push Not at hout
    have hget := congrArg (·[index]?) h
    rw [getElem?_contents hout.2, getElem?_map, ← ofNat_add] at hget
    rw [getElem?_eq_getElem (by omega)] at hget ⊢
    exact some.inj hget

/-- A drain takes all entries, or none. -/
def DrainsAll (rb : AuditRingBuffer N) : RingCall → Prop
  | .drain out max => rb.len ≤ min max out.length ∨ min max out.length = 0
  | _ => True

instance (rb : AuditRingBuffer N) (c : RingCall) : Decidable (rb.DrainsAll c) := by
  unfold DrainsAll
  split <;> infer_instance

variable {max : ℕ}

theorem drain_of_zero
    (h : min (min rb.len max) out.length = 0) : rb.drain out max = ((0, out), rb) := by
  rw [drain]
  split_ifs with hpos
  · rfl
  · exact if_pos h

theorem drain_of_pos (hpos : 0 < rb.len) (h : min (min rb.len max) out.length = rb.len) :
    (rb.drain out max).1 = (rb.len, (fill rb.entries rb.start rb.len out).1) ∧
      (rb.drain out max).2.writePos = 0 := by
  have hwrite : rb.writePos ≠ 0 := by
    rw [len] at hpos
    omega
  simp only [drain, if_neg hwrite, h, if_neg hpos.ne', if_true, and_self]

/-- A drain of all entries or none is one of the queue. -/
theorem Shows.drain (h : rb.Shows l) (hall : rb.DrainsAll (.drain out max)) :
    (rb.drain out max).1 =
        (l.handed out max, l.take (l.handed out max) ++ out.drop (l.handed out max)) ∧
      (rb.drain out max).2.Shows (l.drop (l.handed out max)) := by
  have hlen := h.length
  rw [Fifo.handed, hlen]
  by_cases hzero : min (min rb.len max) out.length = 0
  · rw [hzero, drain_of_zero hzero]
    exact ⟨rfl, h⟩
  · -- Some entries are drained, hence all of them.
    have hcount : min (min rb.len max) out.length = rb.len := by
      rcases hall with hall | hall <;> omega
    obtain ⟨hret, hreset⟩ := drain_of_pos (by omega) hcount
    rw [hcount, hret, ← hlen, take_length, drop_length]
    refine ⟨?_, shows_nil hreset⟩
    rw [Shows, ← hlen] at h
    have hN : rb.len ≤ N := min_le_right ..
    rw [fill_spec h (by omega) (by omega)]

/-- One call is one of the queue. -/
theorem Shows.step {c : RingCall} {ret : RingRet} (h : rb.Shows l) (hall : rb.DrainsAll c)
    (hs : rb.step c = some (ret, rb')) : ∃ l', l.step N c = some (ret, l') ∧ rb'.Shows l' := by
  cases c with
  | push entry =>
    obtain ⟨_, hp, he⟩ := map_eq_some_iff.1 hs
    cases he
    exact ⟨_, rfl, h.push hp⟩
  | drain out max =>
    cases hs
    obtain ⟨hret, hshows⟩ := h.drain hall
    rw [hret]
    exact ⟨_, rfl, hshows⟩
  | get index =>
    cases hs
    exact ⟨l, by rw [h.get_eq]; rfl, h⟩
  | iter =>
    cases hs
    exact ⟨l, by rw [h.iter_eq]; rfl, h⟩
  | len =>
    cases hs
    exact ⟨l, by rw [← h.length]; rfl, h⟩

end AuditRingBuffer

/-! ## Runs -/

/-- The entries pushed by the calls, in order. -/
def pushed : List (RingCall × RingRet) → List AuditEntry
  | [] => []
  | (.push entry, _) :: t => pushed t ++ [entry]
  | _ :: t => pushed t

/-- The entries handed out by the calls, in order. -/
def handedOut : List (RingCall × RingRet) → List AuditEntry
  | [] => []
  | (_, .drained n out) :: t => handedOut t ++ out.take n
  | _ :: t => handedOut t

variable {N : ℕ} {t : List (RingCall × RingRet)} {l : Fifo}

/-- The queue hands out each entry at most once, in the order of the pushes, and before those it
    still holds. -/
theorem Fifo.handedOut_append_sublist (h : Reaches (Fifo.step N) [] t l) :
    (handedOut t ++ l).Sublist (pushed t) := by
  induction h with
  | nil => exact .slnil
  | @cons t l l' c ret _ hs ih =>
    cases c with
    | push entry =>
      cases hs
      have hpush : (Fifo.push N l entry).Sublist (l ++ [entry]) := by
        rw [Fifo.push]
        split_ifs
        · exact .refl _
        · exact (tail_sublist l).append_right _
      have := (hpush.append_left (handedOut t)).trans (by rw [← append_assoc])
      exact this.trans (ih.append_right [entry])
    | drain out max =>
      cases hs
      have hk : Fifo.handed l out max ≤ l.length := (Nat.min_le_left ..).trans (Nat.min_le_left ..)
      rw [handedOut, take_left' (length_take_of_le hk), append_assoc, take_append_drop]
      exact ih
    | get index | iter | len =>
      cases hs
      exact ih

namespace AuditRingBuffer

open AuditEntry (bootAt)

variable [NeZero N] {rb : AuditRingBuffer N}

/-- In every run that drains all entries or none, the buffer is a queue of at most `N` entries that
    drops the oldest ones. -/
theorem reachesBy_fifo (h : ReachesBy DrainsAll step (new : AuditRingBuffer N) t rb) :
    ∃ l : Fifo, Reaches (Fifo.step N) [] t l ∧ rb.len = l.length ∧ rb.iter = l ∧
      (∀ index, rb.get index = l[index]?) ∧ (handedOut t ++ l).Sublist (pushed t) := by
  suffices hl : ∃ l : Fifo, Reaches (Fifo.step N) [] t l ∧ rb.Shows l by
    obtain ⟨l, hr, hshows⟩ := hl
    exact ⟨l, hr, hshows.length.symm, hshows.iter_eq, hshows.get_eq,
      Fifo.handedOut_append_sublist hr⟩
  induction h with
  | nil => exact ⟨[], .nil, shows_nil rfl⟩
  | cons _ hall hs ih =>
    obtain ⟨l, hr, hshows⟩ := ih
    obtain ⟨l', hl', hshows'⟩ := hshows.step hall hs
    exact ⟨l', hr.cons hl', hshows'⟩

/-- Two of three entries are left when the buffer is drained. -/
theorem reachesBy_fifo_two : ∃ t rb, ReachesBy DrainsAll step (new : AuditRingBuffer 2) t rb ∧
    handedOut t = [bootAt 2, bootAt 3] ∧
      ∃ l : Fifo, Reaches (Fifo.step 2) [] t l ∧ rb.len = l.length ∧ rb.iter = l ∧
        (∀ index, rb.get index = l[index]?) ∧ (handedOut t ++ l).Sublist (pushed t) := by
  have hreach := ReachesBy.of_exec DrainsAll step (new : AuditRingBuffer 2) [.push (bootAt 1),
    .push (bootAt 2), .push (bootAt 3), .drain [bootAt 0, bootAt 0] 2] (by decide +kernel)
  exact ⟨_, _, hreach, by decide +kernel, reachesBy_fifo hreach⟩

/-- After a drain of one of two entries, two are counted. -/
theorem not_fifo_of_partial_drain : ¬ ∀ t (rb : AuditRingBuffer 2),
    Reaches step (new : AuditRingBuffer 2) t rb → ∃ l : Fifo, Reaches (Fifo.step 2) [] t l := by
  intro h
  have hreach := Reaches.of_exec step (new : AuditRingBuffer 2) [.push (bootAt 1),
    .push (bootAt 2), .drain [bootAt 0] 1, .len] (by decide +kernel)
  obtain ⟨l, hl⟩ := h _ _ hreach
  -- The queue counts one entry after the same calls.
  have heq := congrArg (Option.map Prod.fst) hl.exec_eq
  dsimp only [Option.map_some] at heq
  revert heq
  decide +kernel

end AuditRingBuffer

end SmallAIOS.Security.Audit
