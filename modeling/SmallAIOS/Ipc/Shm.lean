import SmallAIOS.Ipc.KeyExpr
import SmallAIOS.Lib.Ring
import SmallAIOS.Lib.Run
import SmallAIOS.Lib.Keyed

/-!
# The shared memory ring buffer

`ShmRingBuffer` passes messages from a producer to a consumer through 64 slots.
Its counters `head` and `tail` are never reduced: they count the messages pushed
and popped, modulo the machine word, and the slot of a message is given by the
low bits of its count. Subtraction of the counters wraps as well, so that it
still gives the number of messages when one of them has wrapped around and the
other has not.

What the ring is for is said by `Fifo`, a bounded queue of messages. Every run
of the ring, from any values of its counters, is a run of that queue
(`run_refines_fifo`). A pop fails on an empty queue, and also if the message
does not fit into the buffer it is given (`pop_bufferTooSmall`).
-/

namespace SmallAIOS.Ipc

open Lib
open List hiding Vector

/-- Number of slots in the ring buffer. -/
abbrev ringBufferCapacity : ℕ := 64

/-- Maximum size of a single message in bytes. -/
abbrev maxMsgSize : ℕ := 4096

/-- Bitmask for wrapping indices. -/
def indexMask : BitVec 64 := 63

/-- A single slot in the ring buffer. -/
structure RingSlot where
  /-- Message data; only `len` bytes are valid. -/
  data : Vector UInt8 maxMsgSize
  /-- Number of valid bytes in `data`. -/
  len : ℕ
  len_le : len ≤ maxMsgSize

/-- The slot before any message is written. -/
def RingSlot.default : RingSlot where
  data := Vector.replicate maxMsgSize 0
  len := 0
  len_le := Nat.zero_le _

/-- The slot after a message is written: the bytes after it stay. -/
def RingSlot.write (slot : RingSlot) (data : List UInt8) (h : data.length ≤ maxMsgSize) :
    RingSlot where
  data := Vector.ofFn fun i => if h : i < data.length then data[i] else slot.data.get i
  len := data.length
  len_le := h

/-- The slot of a counter. -/
def index (c : BitVec 64) : Fin ringBufferCapacity :=
  ⟨(c &&& indexMask).toNat, by
    rw [BitVec.toNat_and]
    exact Nat.lt_of_le_of_lt Nat.and_le_right (by decide)⟩

/-! ## Counters that wrap -/

variable {c d : BitVec 64} (slot : RingSlot) (data : List UInt8)

theorem index_val (c : BitVec 64) : (index c).val = c.toNat % ringBufferCapacity := by
  exact Nat.and_two_pow_sub_one_eq_mod c.toNat 6

/-- The number of slots divides the number of values of the counter. -/
theorem index_add (c d : BitVec 64) :
    index (c + d) = index c + Fin.ofNat ringBufferCapacity d.toNat := by
  ext
  rw [index_val, Fin.val_add, index_val, BitVec.toNat_add, Fin.val_ofNat,
    Nat.mod_mod_of_dvd _ (by decide), Nat.add_mod]

theorem toNat_succ_sub (h : (c - d).toNat < ringBufferCapacity) :
    (c + 1 - d).toNat = (c - d).toNat + 1 := by
  rw [ringBufferCapacity] at h
  bv_omega

theorem toNat_sub_succ (h : c ≠ d) : (c - (d + 1)).toNat + 1 = (c - d).toNat := by
  bv_omega

theorem toNat_sub_eq_zero : (c - d).toNat = 0 ↔ d = c := by
  bv_omega

/-! ## The ring -/

/-- Lock-free SPSC ring buffer for zero-copy intra-kernel messaging. -/
structure ShmRingBuffer where
  slots : Vector RingSlot ringBufferCapacity
  /-- Write position (advanced by the producer). -/
  head : BitVec 64
  /-- Read position (advanced by the consumer). -/
  tail : BitVec 64
  len_le : (head - tail).toNat ≤ ringBufferCapacity

namespace ShmRingBuffer

/-- A new, empty ring buffer. -/
def new : ShmRingBuffer where
  slots := Vector.replicate ringBufferCapacity .default
  head := 0
  tail := 0
  len_le := by decide

variable (r : ShmRingBuffer)

/-- The number of messages in the ring buffer. -/
def len : ℕ := (r.head - r.tail).toNat

/-- Push a message into the ring buffer (producer side). -/
def push (data : List UInt8) : Except IpcError Unit × ShmRingBuffer :=
  if hd : data.length > maxMsgSize then (.error .messageTooLarge, r)
  else if hf : (r.head - r.tail).toNat ≥ ringBufferCapacity then (.error .bufferFull, r)
  else (.ok (), { r with
    slots := r.slots.set (index r.head)
      ((r.slots.get (index r.head)).write data (Nat.le_of_not_lt hd))
    head := r.head + 1
    len_le := by
      rw [toNat_succ_sub (Nat.lt_of_not_le hf)]
      exact Nat.lt_of_not_le hf })

/-- Pop a message from the ring buffer into `buf` (consumer side). Returns the number of bytes
    written into `buf`, and `buf` itself. -/
def pop (buf : List UInt8) : Except IpcError ℕ × List UInt8 × ShmRingBuffer :=
  if ht : r.tail = r.head then (.error .notFound, buf, r)
  else
    let slot := r.slots.get (index r.tail)
    let msgLen := slot.len
    if buf.length < msgLen then (.error .bufferTooSmall, buf, r)
    else (.ok msgLen, slot.data.toList.take msgLen ++ buf.drop msgLen, { r with
      tail := r.tail + 1
      len_le := by
        have := toNat_sub_succ (Ne.symm ht)
        have := r.len_le
        omega })

end ShmRingBuffer

/-! ## Bounded queues -/

/-- A queue of at most 64 messages. -/
abbrev Fifo := List (List UInt8)

namespace Fifo

/-- Append a message of at most 4096 bytes, if there is room. -/
def push (q : Fifo) (data : List UInt8) : Except IpcError Unit × Fifo :=
  if data.length > maxMsgSize then (.error .messageTooLarge, q)
  else if q.length ≥ ringBufferCapacity then (.error .bufferFull, q)
  else (.ok (), q ++ [data])

/-- Take the first message, if there is one and the buffer has room for it, and write it to the
    front of the buffer. -/
def pop (q : Fifo) (buf : List UInt8) : Except IpcError ℕ × List UInt8 × Fifo :=
  match q with
  | [] => (.error .notFound, buf, [])
  | data :: q' =>
    if buf.length < data.length then (.error .bufferTooSmall, buf, q)
    else (.ok data.length, data ++ buf.drop data.length, q')

end Fifo

/-! ## The ring is a bounded queue -/

/-- The message in a slot. -/
def RingSlot.message (slot : RingSlot) : List UInt8 := slot.data.toList.take slot.len

@[simp] theorem RingSlot.length_message : slot.message.length = slot.len := by
  simp [message, slot.len_le]

@[simp] theorem RingSlot.message_write (h : data.length ≤ maxMsgSize) :
    (slot.write data h).message = data := by
  refine ext_getElem (by simp [write]) fun i hi hi' => ?_
  simp [message, write, hi']

namespace ShmRingBuffer

variable {r : ShmRingBuffer}

/-- The messages in the ring, the oldest one first. -/
def contents (r : ShmRingBuffer) : Fifo :=
  (Ring.contents r.slots (index r.tail) r.len).map RingSlot.message

@[simp] theorem length_contents : r.contents.length = r.len := by
  simp [contents]

theorem index_head : index r.head = index r.tail + Fin.ofNat ringBufferCapacity r.len := by
  rw [len, ← index_add, BitVec.add_comm, BitVec.sub_add_cancel]

/-- Pushing to the ring is pushing to its contents. -/
theorem push_contents :
    Fifo.push r.contents data = ((r.push data).1, (r.push data).2.contents) := by
  rw [Fifo.push, push, length_contents, len]
  split
  · rfl
  · split
    · rfl
    next hd hf =>
      have hc : r.len < ringBufferCapacity := Nat.lt_of_not_le hf
      have hlen : (r.head + 1 - r.tail).toNat = r.len + 1 := toNat_succ_sub hc
      refine Prod.ext rfl ?_
      change r.contents ++ [data] =
        (Ring.contents _ (index r.tail) (r.head + 1 - r.tail).toNat).map RingSlot.message
      rw [hlen, Ring.contents_push hc index_head, map_append, map_singleton, RingSlot.message_write]
      rfl

/-- Popping from the ring is popping from its contents. -/
theorem pop_contents (buf : List UInt8) :
    Fifo.pop r.contents buf = ((r.pop buf).1, (r.pop buf).2.1, (r.pop buf).2.2.contents) := by
  by_cases ht : r.tail = r.head
  · have hc : r.contents = [] := by
      rw [← length_eq_zero_iff, length_contents]
      exact toNat_sub_eq_zero.2 ht
    simp [pop, Fifo.pop, ht, hc]
  · have hlen : (r.head - (r.tail + 1)).toNat + 1 = r.len := toNat_sub_succ (Ne.symm ht)
    have hc : r.contents = (r.slots.get (index r.tail)).message ::
        (Ring.contents r.slots (index (r.tail + 1)) (r.head - (r.tail + 1)).toNat).map
          RingSlot.message := by
      rw [contents, ← hlen, Ring.contents_pop, index_add]
      rfl
    simp only [pop, Fifo.pop, hc, RingSlot.length_message]
    split
    · rw [hc]
    · rfl

end ShmRingBuffer

/-! ## Runs -/

inductive Op
  | push (data : List UInt8)
  | pop (buf : List UInt8)

inductive Ret
  | pushed (r : Except IpcError Unit)
  | popped (r : Except IpcError ℕ) (buf : List UInt8)

def ShmRingBuffer.step (r : ShmRingBuffer) : Op → Ret × ShmRingBuffer
  | .push data => (.pushed (r.push data).1, (r.push data).2)
  | .pop buf => (.popped (r.pop buf).1 (r.pop buf).2.1, (r.pop buf).2.2)

def Fifo.step (q : Fifo) : Op → Ret × Fifo
  | .push data => (.pushed (q.push data).1, (q.push data).2)
  | .pop buf => (.popped (q.pop buf).1 (q.pop buf).2.1, (q.pop buf).2.2)

/-- The message a call put into the queue. -/
def pushed? : Op × Ret → Option (List UInt8)
  | (.push data, .pushed (.ok _)) => some data
  | _ => none

/-- The message a call took out of the queue. -/
def popped? : Op × Ret → Option (List UInt8)
  | (_, .popped (.ok n) buf) => some (buf.take n)
  | _ => none

/-- A call puts its message at the end, and takes one from the front. -/
theorem Fifo.step_conserves (q : Fifo) (op : Op) :
    q ++ (pushed? (op, (q.step op).1)).toList =
      (popped? (op, (q.step op).1)).toList ++ (q.step op).2 := by
  cases op with
  | push data =>
    simp only [step, push]
    split
    · simp [pushed?, popped?]
    · split <;> simp [pushed?, popped?]
  | pop buf =>
    rcases q with _ | ⟨data, q⟩
    · simp [step, pop, pushed?, popped?]
    · simp only [step, pop]
      split <;> simp [pushed?, popped?]

theorem Fifo.run_conserves (q : Fifo) (ops : List Op) :
    q ++ (ops.zip (run step q ops).1).filterMap pushed? =
      (ops.zip (run step q ops).1).filterMap popped? ++ (run step q ops).2 := by
  induction ops generalizing q with
  | nil => simp [run]
  | cons op ops ih =>
    rw [run, zip_cons_cons, filterMap_cons_toList, filterMap_cons_toList,
      ← append_assoc, step_conserves, append_assoc, ih, append_assoc]

namespace ShmRingBuffer

theorem step_contents (r : ShmRingBuffer) (op : Op) :
    Fifo.step r.contents op = ((r.step op).1, (r.step op).2.contents) := by
  cases op with
  | push data => simp [Fifo.step, step, push_contents]
  | pop buf => simp [Fifo.step, step, pop_contents]

/-- The calls on a ring, whatever the values of its counters, return what they would return on a
    bounded queue of the messages in it, and leave the ring with the messages of that queue. The
    messages put in come out in the same order, each of them once. -/
theorem run_refines_fifo :
    new.contents = [] ∧ ∀ (r : ShmRingBuffer) (ops : List Op),
      (run step r ops).1 = (run Fifo.step r.contents ops).1 ∧
      (run step r ops).2.contents = (run Fifo.step r.contents ops).2 ∧
      r.contents ++ (ops.zip (run step r ops).1).filterMap pushed? =
        (ops.zip (run step r ops).1).filterMap popped? ++ (run step r ops).2.contents := by
  refine ⟨rfl, fun r ops => ?_⟩
  have h := run_simulation step_contents r ops
  have hc := Fifo.run_conserves r.contents ops
  rw [h] at hc
  exact ⟨by rw [h], by rw [h], hc⟩

/-- A pop from a queue that is not empty fails if its buffer is too small. -/
theorem pop_bufferTooSmall :
    (run step new [.push [1], .pop []]).1 =
        [.pushed (.ok ()), .popped (.error .bufferTooSmall) []] ∧
      (run step new [.push [1], .pop []]).2.contents = [[1]] := by
  have h := run_simulation step_contents new [.push [1], .pop []]
  rw [Prod.mk.injEq] at h
  exact ⟨h.1.symm, h.2.symm⟩

end ShmRingBuffer

end SmallAIOS.Ipc
